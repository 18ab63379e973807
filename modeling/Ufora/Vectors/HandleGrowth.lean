import Ufora.Vectors.SharedHandles

/-!
# How handles grow

No operation on the store changes the hash of a handle, and each handle goes on to have the values it
has, perhaps followed by others. A handle that is constructed has a hash that no handle had before, or
the hash of a handle that it is copied from.
-/

namespace TypedFora.Vectors

open Effect Selection List Option VectorHandle ForaValueArray VectorStore Nat Fora.PageletTree
open Fora (PageletTree)

variable {α : Type} {pages : VectorDataID → List α}

/-! ## The values of handles -/

/-- One list is the beginning of the other. -/
def Comparable (xs ys : List α) : Prop := xs <+: ys ∨ ys <+: xs

section
variable {xs ys zs : List α}

theorem Comparable.symm (h : Comparable xs ys) : Comparable ys xs := Or.symm h

theorem comparable_refl (xs : List α) : Comparable xs xs := .inl prefix_rfl

theorem Comparable.shorten (h : Comparable xs ys) (hz : zs <+: xs) : Comparable zs ys :=
  h.elim (fun hy => .inl (hz.trans hy)) fun hy => prefix_or_prefix_of_prefix hz hy

theorem select_of_longer (h : xs <+: ys) {is : List ℤ} (hin : ∀ i ∈ is, i < xs.length) :
    select ys is = select xs is := by
  obtain ⟨more, rfl⟩ := h
  exact select_append_of_lt hin

/-- Comparable lists have the same elements at positions that are in both. -/
theorem Comparable.select_eq (h : Comparable xs ys) {is : List ℤ} (hx : ∀ i ∈ is, i < xs.length)
    (hy : ∀ i ∈ is, i < ys.length) : select xs is = select ys is :=
  h.elim (fun hp => (select_of_longer hp hx).symm) fun hp => select_of_longer hp hy

end

namespace VectorHandle

variable {h : VectorHandle α}

/-- The values of a handle that are not in pages. -/
def rest (h : VectorHandle α) : List α :=
  PageletTree.ptrValues h.mPageletTreePtr ++ h.mUnpagedValues.elim [] ForaValueArray.values

theorem values_eq_rest (h : VectorHandle α) :
    h.values pages = pagedValues pages h.mBigVector ++ h.rest := append_assoc ..

theorem WellFormed.layoutInPages (h' : h.WellFormed pages) : InPages pages h.mBigVector := ⟨h'.layout, h'.inPages⟩

theorem WellFormed.length_rest (h' : h.WellFormed pages) : (h.rest.length : ℤ) = h.size - h.pagedValueCount := by
  have htree : ((ptrValues h.mPageletTreePtr).length : ℤ) = _ := h'.length_tree
  rw [rest, length_append, cast_add, htree, h'.length_unpaged, h'.size_sum]
  ring

theorem make_wellFormed {layout : BigVectorPageLayout} {tree : Option (PageletTree α)}
    (hlayout : InPages pages layout) (htree : PtrWellFormed tree)
    (array : Option (ForaValueArray α)) (pool : MemoryPool) (hash : Hash) :
    (make layout tree array pool hash).WellFormed pages where
  layout := hlayout.1
  inPages := hlayout.2
  tree := htree
  pagedAndPagelet_eq := rfl
  size_eq := add_right_comm _ _ _

theorem appendRange_empty (array : ForaValueArray α) (n : ℤ) :
    (appendRange {} array 0 n).values = array.values.take n.toNat := rfl

/-- Where the values used are more than those of the tree. -/
theorem WellFormed.take_rest (h' : h.WellFormed pages) {array : ForaValueArray α}
    (harray : h.mUnpagedValues = some array) {valuesUsed : ℤ} (h0 : h.pageletTreeValueCount ≤ valuesUsed) :
    h.rest.take valuesUsed.toNat = PageletTree.ptrValues h.mPageletTreePtr ++
      array.values.take (valuesUsed - h.pageletTreeValueCount).toNat := by
  have hlength : ((PageletTree.ptrValues h.mPageletTreePtr).length : ℤ) = _ := h'.length_tree
  rw [rest, harray, take_append, take_of_length_le (by omega)]
  congr 2
  omega

/-- A handle with another array, which has `n` values more. -/
def growTo (h : VectorHandle α) (array : ForaValueArray α) (n : ℤ) : VectorHandle α :=
  { h with mUnpagedValues := some array, mSize := h.mSize + n }

/-- Sizes of handles with the same values are the same. -/
theorem WellFormed.size_eq_of_values {g : VectorHandle α} (h' : h.WellFormed pages)
    (g' : g.WellFormed pages) (heq : g.values pages = h.values pages) : g.size = h.size := by
  rw [← g'.length_values, ← h'.length_values, heq]

end VectorHandle

theorem inPages_empty : InPages pages {} := ⟨BigVectorPageLayout.wellFormed_empty, nofun⟩

/-! ## Hashes -/

/-- A hash that is made from the generated hash of the given number. -/
inductive VectorHashing.Derived (H : VectorHashing) (i : ℕ) : Hash → Prop
  | generated : Derived H i (H.newVectorHash i)
  | add {hash : Hash} (h : Derived H i hash) (mixin : Hash) : Derived H i (H.add hash mixin)

/-- The generated hash that a hash is made from is determined. -/
theorem VectorHashing.Derived.unique {H : VectorHashing} {i j : ℕ} {hash : Hash}
    (h : H.Derived i hash) (h' : H.Derived j hash) : i = j := by
  induction h with
  | generated =>
    generalize heq : H.newVectorHash i = hash at h'
    cases h' with
    | generated => exact H.newVectorHash_injective heq
    | add _ _ => exact absurd heq (H.newVectorHash_ne_add _ _ _)
  | @add hash h mixin ih =>
    generalize heq : H.add hash mixin = sum at h'
    cases h' with
    | generated => exact absurd heq.symm (H.newVectorHash_ne_add _ _ _)
    | add h' _ =>
      obtain ⟨rfl, -⟩ := H.add_injective heq
      exact ih h'

theorem VectorHashing.Derived.related {H : VectorHashing} {i : ℕ} {hash : Hash}
    (h : H.Derived i hash) (ix : ℕ) : H.Derived i (relatedHash H.add hash ix) :=
  h.add _

namespace VectorStore

variable {H : VectorHashing} {s s' s'' t : VectorStore α} {L M : Hash → Prop}

/-! ## Stores -/

/-- The handles of a store are well formed, their hashes are made from hashes that were generated, and
of two with the same hash one has the values of the other and perhaps more. -/
structure Sound (H : VectorHashing) (pages : VectorDataID → List α) (s : VectorStore α) : Prop where
  wellFormed : ∀ h ∈ s.handles, h.WellFormed pages
  derived : ∀ h ∈ s.handles, ∃ i < s.hashesGenerated, H.Derived i h.mVectorHash
  comparable : ∀ h ∈ s.handles, ∀ h' ∈ s.handles, h.mVectorHash = h'.mVectorHash →
    Comparable (h.values pages) (h'.values pages)

/-- What operations do to a sound store; the hashes of the handles that they construct are in `L`. -/
structure Later (H : VectorHashing) (pages : VectorDataID → List α) (L : Hash → Prop)
    (s s' : VectorStore α) : Prop where
  sound : Sound H pages s'
  handles : ∀ (k : ℕ) (h : VectorHandle α), s.handles[k]? = some h → ∃ h', s'.handles[k]? = some h' ∧
    h'.mVectorHash = h.mVectorHash ∧ h.values pages <+: h'.values pages
  hashes : ∀ h' ∈ s'.handles, (∃ h ∈ s.handles, h.mVectorHash = h'.mVectorHash) ∨ L h'.mVectorHash
  generated : s.hashesGenerated ≤ s'.hashesGenerated
  records : s'.records = s.records

theorem Sound.refl (h : Sound H pages s) : Later H pages L s s where
  sound := h
  handles _ g hg := ⟨g, hg, rfl, prefix_rfl⟩
  hashes g hg := .inl ⟨g, hg, rfl⟩
  generated := le_refl _
  records := rfl

theorem Later.trans (h : Later H pages L s s') (h' : Later H pages M s' s'') :
    Later H pages (fun hash => L hash ∨ M hash) s s'' where
  sound := h'.sound
  handles k g hg := by
    obtain ⟨g', hg', hhash, hvalues⟩ := h.handles k g hg
    obtain ⟨g'', hg'', hhash', hvalues'⟩ := h'.handles k g' hg'
    exact ⟨g'', hg'', hhash'.trans hhash, hvalues.trans hvalues'⟩
  hashes g'' hg'' := by
    obtain ⟨g', hg', heq⟩ | hM := h'.hashes g'' hg''
    · obtain ⟨g, hg, heq'⟩ | hL := h.hashes g' hg'
      · exact .inl ⟨g, hg, heq'.trans heq⟩
      · exact .inr (.inl (heq ▸ hL))
    · exact .inr (.inr hM)
  generated := h.generated.trans h'.generated
  records := h'.records.trans h.records

theorem Later.mono (h : Later H pages L s s') (hL : ∀ hash, L hash → M hash) : Later H pages M s s' :=
  { h with hashes := fun g hg => (h.hashes g hg).imp_right (hL _) }

/-- The handles have the values that they had, and the same ones in pages. -/
def Unmoved (s s' : VectorStore α) : Prop :=
  ∀ (k : ℕ) (h : VectorHandle α), s.handles[k]? = some h → ∃ h', s'.handles[k]? = some h' ∧
    h'.mBigVector = h.mBigVector ∧ h'.rest = h.rest

theorem Unmoved.refl (s : VectorStore α) : Unmoved s s := fun _ h hk => ⟨h, hk, rfl, rfl⟩

theorem Unmoved.trans (h : Unmoved s s') (h' : Unmoved s' s'') : Unmoved s s'' := fun k g hg => by
  obtain ⟨g', hg', hlayout, hrest⟩ := h k g hg
  obtain ⟨g'', hg'', hlayout', hrest'⟩ := h' k g' hg'
  exact ⟨g'', hg'', hlayout'.trans hlayout, hrest'.trans hrest⟩

/-- A hash that is generated but that no handle has. -/
def Free (H : VectorHashing) (s : VectorStore α) (hash : Hash) : Prop :=
  (∃ i < s.hashesGenerated, H.Derived i hash) ∧ ∀ h ∈ s.handles, h.mVectorHash ≠ hash

theorem Free.later {hash : Hash} (h : Free H s hash) (hlater : Later H pages L s s')
    (hL : ¬ L hash) : Free H s' hash := by
  obtain ⟨⟨i, hi, hderived⟩, hne⟩ := h
  refine ⟨⟨i, hi.trans_le hlater.generated, hderived⟩, fun g' hg' heq => ?_⟩
  obtain ⟨g, hg, hsame⟩ | hin := hlater.hashes g' hg'
  · exact hne g hg (hsame.trans heq)
  · exact hL (heq ▸ hin)

/-- A handle is replaced by one with the same hash and all of its values. -/
theorem Sound.write {ptr : ℕ} {h h' : VectorHandle α} (hs : Sound H pages s)
    (hptr : s.handles[ptr]? = some h) (hwf : h'.WellFormed pages)
    (hhash : h'.mVectorHash = h.mVectorHash) (hvalues : h.values pages <+: h'.values pages)
    (hothers : ∀ (k : ℕ) (other : VectorHandle α), k ≠ ptr → s.handles[k]? = some other →
      other.mVectorHash = h.mVectorHash → Comparable (h'.values pages) (other.values pages)) :
    Later H pages L s { s with handles := s.handles.set ptr h' } := by
  have hlt : ptr < s.handles.length := (List.getElem?_eq_some_iff.1 hptr).1
  have hread (k : ℕ) : (s.handles.set ptr h')[k]? = if ptr = k then some h' else s.handles[k]? := by
    rw [getElem?_set]
    split
    · rfl
    · rfl
  have hmem {g : VectorHandle α} (hg : g ∈ s.handles.set ptr h') : g = h' ∨ ∃ k, k ≠ ptr ∧ s.handles[k]? = some g := by
    obtain ⟨k, hk⟩ := mem_iff_getElem?.1 hg
    rw [hread] at hk
    split at hk
    · exact .inl (some.inj hk).symm
    · next hne => exact .inr ⟨k, fun heq => hne heq.symm, hk⟩
  constructor
  case sound =>
    constructor
    case wellFormed =>
      intro g hg
      obtain rfl | ⟨k, -, hk⟩ := hmem hg
      · exact hwf
      · exact hs.wellFormed g (mem_of_getElem? hk)
    case derived =>
      intro g hg
      obtain rfl | ⟨k, -, hk⟩ := hmem hg
      · rw [hhash]
        exact hs.derived h (mem_of_getElem? hptr)
      · exact hs.derived g (mem_of_getElem? hk)
    case comparable =>
      intro g hg g' hg' heq
      obtain rfl | ⟨k, hne, hk⟩ := hmem hg
      · obtain rfl | ⟨k', hne', hk'⟩ := hmem hg'
        · exact comparable_refl _
        · exact hothers k' g' hne' hk' (heq.symm.trans hhash)
      · obtain rfl | ⟨k', -, hk'⟩ := hmem hg'
        · exact (hothers k g hne hk (heq.trans hhash)).symm
        · exact hs.comparable g (mem_of_getElem? hk) g' (mem_of_getElem? hk') heq
  case handles =>
    intro k g hg
    rw [hread]
    split
    · rename_i heq
      subst heq
      obtain rfl := some.inj (hptr.symm.trans hg)
      exact ⟨h', rfl, hhash, hvalues⟩
    · exact ⟨g, hg, rfl, prefix_rfl⟩
  case hashes =>
    intro g hg
    obtain rfl | ⟨k, -, hk⟩ := hmem hg
    · exact .inl ⟨h, mem_of_getElem? hptr, hhash.symm⟩
    · exact .inl ⟨g, mem_of_getElem? hk, rfl⟩
  case generated => exact le_refl _
  case records => rfl

/-- A handle is constructed. -/
theorem Sound.construct {h : VectorHandle α} (hs : Sound H pages s) (hwf : h.WellFormed pages)
    (hderived : ∃ i < s.hashesGenerated, H.Derived i h.mVectorHash)
    (hothers : ∀ other ∈ s.handles, other.mVectorHash = h.mVectorHash →
      Comparable (h.values pages) (other.values pages)) :
    Later H pages (· = h.mVectorHash) s { s with handles := s.handles ++ [h] } := by
  have hmem {g : VectorHandle α} (hg : g ∈ s.handles ++ [h]) : g ∈ s.handles ∨ g = h :=
    (mem_append.1 hg).imp_right mem_singleton.1
  constructor
  case sound =>
    constructor
    case wellFormed =>
      intro g hg
      obtain hg | rfl := hmem hg
      · exact hs.wellFormed g hg
      · exact hwf
    case derived =>
      intro g hg
      obtain hg | rfl := hmem hg
      · exact hs.derived g hg
      · exact hderived
    case comparable =>
      intro g hg g' hg' heq
      obtain hold | rfl := hmem hg
      · obtain hold' | rfl := hmem hg'
        · exact hs.comparable g hold g' hold' heq
        · exact (hothers g hold heq).symm
      · obtain hold' | rfl := hmem hg'
        · exact hothers g' hold' heq.symm
        · exact comparable_refl _
  case handles =>
    intro k g hg
    exact ⟨g, (getElem?_append_left (List.getElem?_eq_some_iff.1 hg).1).trans hg, rfl, prefix_rfl⟩
  case hashes =>
    intro g hg
    obtain hg | rfl := hmem hg
    · exact .inl ⟨g, hg, rfl⟩
    · exact .inr rfl
  case generated => exact le_refl _
  case records => rfl

theorem Sound.construct_free {h : VectorHandle α} (hs : Sound H pages s)
    (hwf : h.WellFormed pages) (hfree : Free H s h.mVectorHash) :
    Later H pages (· = h.mVectorHash) s { s with handles := s.handles ++ [h] } :=
  hs.construct hwf hfree.1 fun other hother heq => absurd heq (hfree.2 other hother)

theorem unmoved_construct (s : VectorStore α) (h : VectorHandle α) :
    Unmoved s { s with handles := s.handles ++ [h] } := fun _ g hg =>
  ⟨g, (getElem?_append_left (List.getElem?_eq_some_iff.1 hg).1).trans hg, rfl, rfl⟩

/-- A hash is generated: all hashes that are made from it are free. -/
theorem Sound.generate (hs : Sound H pages s) :
    Later H pages L s { s with hashesGenerated := s.hashesGenerated + 1 } where
  sound := { hs with
      derived := fun h hh =>
        have ⟨i, hi, hderived⟩ := hs.derived h hh
        ⟨i, hi.trans (lt_succ_self _), hderived⟩ }
  handles _ g hg := ⟨g, hg, rfl, prefix_rfl⟩
  hashes g hg := .inl ⟨g, hg, rfl⟩
  generated := le_succ _
  records := rfl

theorem Sound.free_of_generated (hs : Sound H pages s) {hash : Hash}
    (h : H.Derived s.hashesGenerated hash) :
    Free H { s with hashesGenerated := s.hashesGenerated + 1 } hash := by
  refine ⟨⟨_, lt_succ_self _, h⟩, fun g hg heq => ?_⟩
  obtain ⟨i, hi, hderived⟩ := hs.derived g hg
  rw [heq] at hderived
  exact hi.ne (hderived.unique h)

/-! ## Calls -/

/-- A call that returns gives what `Q` says. -/
def Ensures {β : Type} (x : VectorAction α β) (Q : β → VectorStore α → Prop) (s : VectorStore α) :
    Prop := wp x Q (fun _ _ => True) s

section
variable {β γ : Type} {Q : β → VectorStore α → Prop}

theorem Ensures.mono {R : β → VectorStore α → Prop} {x : VectorAction α β} (h : Ensures x Q s)
    (hi : ∀ b s', Q b s' → R b s') : Ensures x R s := wp.mono h hi fun _ _ => id

@[simp] theorem ensures_pure (b : β) : Ensures (pure b) Q s ↔ Q b s := Iff.rfl

@[simp] theorem ensures_bind (x : VectorAction α γ) (f : γ → VectorAction α β) :
    Ensures (x >>= f) Q s ↔ Ensures x (fun c s' => Ensures (f c) Q s') s := wp_bind x f

@[simp] theorem ensures_throw (e : VectorFailure) : Ensures (throw e) Q s ↔ True := Iff.rfl

@[simp] theorem ensures_get {Q : VectorStore α → VectorStore α → Prop} : Ensures get Q s ↔ Q s s := Iff.rfl

@[simp] theorem ensures_modify {Q : PUnit → VectorStore α → Prop}
    (f : VectorStore α → VectorStore α) : Ensures (modify f) Q s ↔ Q ⟨⟩ (f s) := Iff.rfl

@[simp] theorem ensures_ite (c : Prop) [Decidable c] (x y : VectorAction α β) :
    Ensures (if c then x else y) Q s ↔ if c then Ensures x Q s else Ensures y Q s := wp_ite c x y

@[simp] theorem ensures_lassert {Q : Unit → VectorStore α → Prop} (c : Prop) [Decidable c]
    (e : VectorFailure) : Ensures (lassert c e) Q s ↔ (c → Q () s) := by
  unfold Ensures
  rw [wp_lassert]
  split
  · next h => exact ⟨fun hq _ => hq, fun hq => hq h⟩
  · next h => exact iff_of_true trivial fun hc => absurd hc h

@[simp] theorem ensures_require (x : Option β) (e : VectorFailure) :
    Ensures (require x e) Q s ↔ ∀ b, x = some b → Q b s := by
  cases x with
  | none => exact iff_of_true trivial nofun
  | some b => exact ⟨fun h _ hb => some.inj hb ▸ h, fun h => h b rfl⟩

@[simp] theorem ensures_readHandle {ptr : ℕ} {Q : VectorHandle α → VectorStore α → Prop} :
    Ensures (readHandle ptr) Q s ↔ ∀ h, s.handles[ptr]? = some h → Q h s := by
  unfold readHandle
  simp

@[simp] theorem ensures_writeHandle {ptr : ℕ} {h : VectorHandle α} {Q : Unit → VectorStore α → Prop} :
    Ensures (writeHandle ptr h) Q s ↔ Q () { s with handles := s.handles.set ptr h } := Iff.rfl

@[simp] theorem ensures_construct {h : VectorHandle α} {Q : ℕ → VectorStore α → Prop} :
    Ensures (construct h) Q s ↔ Q s.handles.length { s with handles := s.handles ++ [h] } := Iff.rfl

@[simp] theorem ensures_generateHash {Q : Hash → VectorStore α → Prop} :
    Ensures (generateHash H) Q s ↔ Q (H.newVectorHash s.hashesGenerated)
      { s with hashesGenerated := s.hashesGenerated + 1 } := Iff.rfl

end

/-! ## Handles move their values -/

variable {vdm : VectorDataManager pages} {inPool : MemoryPool} {ptr : ℕ} {h : VectorHandle α}

/-- A handle is replaced by one with the same values. -/
theorem Sound.rewrite {h' : VectorHandle α} (hs : Sound H pages s)
    (hptr : s.handles[ptr]? = some h) (hwf : h'.WellFormed pages)
    (hhash : h'.mVectorHash = h.mVectorHash) (hlayout : h'.mBigVector = h.mBigVector) (hrest : h'.rest = h.rest) :
    Later H pages L s { s with handles := s.handles.set ptr h' } ∧
      Unmoved s { s with handles := s.handles.set ptr h' } := by
  have hvalues : h'.values pages = h.values pages := by
    rw [values_eq_rest, values_eq_rest, hlayout, hrest]
  constructor
  · refine hs.write hptr hwf hhash (hvalues ▸ prefix_rfl) fun k other _ hother heq => ?_
    rw [hvalues]
    exact hs.comparable h (mem_of_getElem? hptr) other (mem_of_getElem? hother) heq.symm
  · intro k g hg
    rw [getElem?_set]
    split
    · rename_i heq
      subst heq
      obtain rfl := some.inj (hptr.symm.trans hg)
      rw [if_pos (List.getElem?_eq_some_iff.1 hptr).1]
      exact ⟨h', rfl, hlayout, hrest⟩
    · exact ⟨g, hg, rfl, rfl⟩

/-- Moving the values of the array into the tree changes no value. -/
theorem Sound.moveUnpagedValueArrayIntoPagelet (hs : Sound H pages s) :
    Ensures (moveUnpagedValueArrayIntoPagelet vdm ptr)
      (fun _ s' => (Later H pages L s s' ∧ Unmoved s s') ∧ s'.handles.length = s.handles.length ∧
        ∀ h, s'.handles[ptr]? = some h → h.mUnpagedValues = none) s := by
  unfold VectorStore.moveUnpagedValueArrayIntoPagelet
  simp only [ensures_bind, ensures_readHandle, ensures_lassert]
  intro h hptr _
  have hwf := hs.wellFormed h (mem_of_getElem? hptr)
  cases harray : h.mUnpagedValues with
  | none =>
    refine ⟨⟨hs.refl, .refl s⟩, rfl, fun g hg => ?_⟩
    obtain rfl := some.inj (hptr.symm.trans hg)
    exact harray
  | some array =>
    simp only [ensures_bind, ensures_require, ensures_writeHandle]
    intro pagelets hpagelets _ hconcat tree htree collapsed hcollapsed
    subst htree
    have hmoved := moveUnpagedValuesIntoPageletTree_holds hpagelets
    have hheld : Holds h.mPageletTreePtr (ptrValues h.mPageletTreePtr) := ⟨hwf.tree, rfl⟩
    obtain ⟨htreeWf, htreeValues⟩ :=
      holds_some.1 (concatenateAndBalance_holds hheld hmoved hconcat)
    obtain ⟨hcollapsedWf, hcollapsedValues⟩ := withSmallPageletsCollapsed_holds htreeWf hcollapsed
    have hrest : collapsed.values = h.rest := by
      rw [hcollapsedValues, htreeValues, rest, harray]
      rfl
    have hsize : (collapsed.size : ℤ) = h.size - h.pagedValueCount := by
      rw [← length_values hcollapsedWf, hrest, hwf.length_rest]
    obtain ⟨hlater, hunmoved⟩ := @rewrite _ _ _ _ L _ _
      { h with
        mPageletTreePtr := some collapsed
        mUnpagedValues := none
        mPagedAndPageletTreeValueCount := collapsed.size + h.mBigVector.size } hs hptr
      { layout := hwf.layout
        inPages := hwf.inPages
        tree := ptrWellFormed_some.2 hcollapsedWf
        pagedAndPagelet_eq := add_comm _ _
        size_eq := by
          rw [hwf.pagedValueCount_eq] at hsize
          show h.size = collapsed.size + h.mBigVector.size + 0
          omega }
      rfl rfl (by rw [← hrest]; exact append_nil _)
    refine ⟨⟨hlater, hunmoved⟩, length_set, fun g hg => ?_⟩
    rw [getElem?_set_self (List.getElem?_eq_some_iff.1 hptr).1] at hg
    exact some.inj hg ▸ rfl

/-- Making space for values changes no value. -/
theorem Sound.makeSpaceForNewUnpagedValues (hs : Sound H pages s) : Ensures (makeSpaceForNewUnpagedValues vdm ptr)
      (fun _ s' => (Later H pages L s s' ∧ Unmoved s s') ∧ s'.handles.length = s.handles.length) s := by
  have hempty {s : VectorStore α} {h : VectorHandle α} (hs : Sound H pages s)
      (hptr : s.handles[ptr]? = some h) (hnone : h.mUnpagedValues = none) :
      Later H pages L s
          { s with handles := s.handles.set ptr { h with mUnpagedValues := some {} } } ∧
        Unmoved s { s with handles := s.handles.set ptr { h with mUnpagedValues := some {} } } := by
    have hwf := hs.wellFormed h (mem_of_getElem? hptr)
    have hsize := hwf.size_eq
    rw [hnone] at hsize
    refine hs.rewrite hptr { hwf with size_eq := hsize } rfl rfl ?_
    unfold rest
    rw [hnone]
    rfl
  unfold VectorStore.makeSpaceForNewUnpagedValues
  simp only [ensures_bind, ensures_readHandle, ensures_lassert]
  intro h hptr _
  cases harray : h.mUnpagedValues with
  | none => exact ⟨hempty hs hptr harray, length_set⟩
  | some array =>
    generalize (64 * 1024 : ℤ) = limit
    simp only [ensures_ite]
    split
    · exact ⟨⟨hs.refl, .refl s⟩, rfl⟩
    · rw [ensures_bind]
      refine (hs.moveUnpagedValueArrayIntoPagelet (L := L)).mono fun _ s' ⟨⟨hlater, hunmoved⟩, hlength, hnone⟩ => ?_
      simp only [ensures_bind, ensures_readHandle, ensures_writeHandle]
      intro h' hptr'
      obtain ⟨hlater', hunmoved'⟩ := hempty hlater.sound hptr' (hnone h' hptr')
      exact ⟨⟨(hlater.trans hlater').mono fun _ hL => hL.elim id id, hunmoved.trans hunmoved'⟩,
        length_set.trans hlength⟩

/-! ## Values become a tree -/

/-- What is left of a collapsed handle holds the first of its values that are not in pages. -/
def HoldsFirst (h : VectorHandle α) (valuesUsed : ℤ) (r : Option (PageletTree α) × Option (ForaValueArray α)) : Prop :=
  PtrWellFormed r.1 ∧
    PageletTree.ptrValues r.1 ++ r.2.elim [] ForaValueArray.values = h.rest.take valuesUsed.toNat

variable {valuesUsed n : ℤ}

theorem Sound.collapseIntoTree (hs : Sound H pages s)
    (hptr : s.handles[ptr]? = some h) (hlt : h.pageletTreeValueCount < valuesUsed)
    (hle : valuesUsed ≤ h.size - h.pagedValueCount) :
    Ensures (collapseIntoTree vdm ptr valuesUsed (valuesUsed - h.pageletTreeValueCount))
      (fun r s' => (Later H pages L s s' ∧ Unmoved s s') ∧ HoldsFirst h valuesUsed r ∧ r.2 = none) s := by
  have hwf := hs.wellFormed h (mem_of_getElem? hptr)
  unfold VectorStore.collapseIntoTree
  simp only [ensures_bind, ensures_readHandle, ensures_ite]
  intro g hg
  obtain rfl := some.inj (hptr.symm.trans hg)
  split
  · refine (hs.moveUnpagedValueArrayIntoPagelet (L := L)).mono fun _ s' ⟨⟨hlater, hunmoved⟩, _, hnone⟩ => ?_
    simp only [ensures_require, ensures_pure]
    intro h' hptr' tree htree r hr
    obtain ⟨g, hg, hlayout, hrest⟩ := hunmoved ptr h hptr
    obtain rfl := some.inj (hptr'.symm.trans hg)
    have hwf' := hlater.sound.wellFormed h' (mem_of_getElem? hptr')
    have htreeWf := hwf'.tree tree htree
    have hvalues : tree.values = h.rest := by
      rw [← hrest, rest, htree, hnone h' hptr']
      exact (append_nil _).symm
    have hlength := hwf.length_rest
    rw [← hvalues, length_values htreeWf] at hlength
    obtain ⟨hrWf, hrValues⟩ := restrictTo_holds htreeWf (by omega) hr
    refine ⟨⟨hlater, hunmoved⟩, ⟨hrWf, ?_⟩, trivial⟩
    rw [← hvalues]
    exact (append_nil _).trans hrValues
  · simp only [ensures_require, ensures_pure]
    intro array harray leaf hleaf r hr
    obtain ⟨rfl, hleafWf⟩ := ofPagelet_eq hleaf
    have hheld : Holds h.mPageletTreePtr (ptrValues h.mPageletTreePtr) := ⟨hwf.tree, rfl⟩
    have hleafHeld : Holds (some (.leaf _ _)) _ := holds_some.2 ⟨hleafWf, rfl⟩
    obtain ⟨hrWf, hrValues⟩ := concatenateAndBalance_holds hheld hleafHeld hr
    refine ⟨⟨hs.refl, .refl s⟩, ⟨hrWf, ?_⟩, trivial⟩
    rw [hwf.take_rest harray hlt.le, ← appendRange_empty]
    refine (append_nil _).trans (hrValues.trans ?_)
    rw [PageletTree.values, appendRange_empty, take_take, min_self]

theorem Sound.collapsePageletTreeAndUnpagedValuesTree
    {allowUnpagedValuesInResult : Bool} (hs : Sound H pages s) (hptr : s.handles[ptr]? = some h)
    (hle : valuesUsed ≤ h.size - h.pagedValueCount) :
    Ensures (collapsePageletTreeAndUnpagedValuesTree vdm ptr valuesUsed allowUnpagedValuesInResult)
      (fun r s' => (Later H pages L s s' ∧ Unmoved s s') ∧ HoldsFirst h valuesUsed r ∧
        (allowUnpagedValuesInResult = false → r.2 = none)) s := by
  have hwf := hs.wellFormed h (mem_of_getElem? hptr)
  unfold VectorStore.collapsePageletTreeAndUnpagedValuesTree
  simp only [ensures_bind, ensures_readHandle, ensures_ite]
  intro g hg
  obtain rfl := some.inj (hptr.symm.trans hg)
  have hcollapse (hlt : h.pageletTreeValueCount < valuesUsed) : Ensures (VectorStore.collapseIntoTree vdm ptr valuesUsed
          (max (valuesUsed - h.pageletTreeValueCount) 0))
        (fun r s' => (Later H pages L s s' ∧ Unmoved s s') ∧ HoldsFirst h valuesUsed r ∧
          (allowUnpagedValuesInResult = false → r.2 = none)) s := by
    rw [max_eq_left (by omega)]
    exact (hs.collapseIntoTree hptr hlt hle).mono fun r s' hr => ⟨hr.1, hr.2.1, fun _ => hr.2.2⟩
  split
  · rename_i hzero
    refine ⟨⟨hs.refl, .refl s⟩, ⟨ptrWellFormed_none, ?_⟩, fun _ => rfl⟩
    rw [hzero]
    rfl
  split
  · rename_i hused
    simp only [ensures_require, ensures_pure]
    intro tree htree r hr
    have htreeWf := hwf.tree tree htree
    have hcount : h.pageletTreeValueCount = tree.size := by
      unfold pageletTreeValueCount
      rw [htree]
      rfl
    obtain ⟨hrWf, hrValues⟩ := restrictTo_holds htreeWf (by omega) hr
    refine ⟨⟨hs.refl, .refl s⟩, ⟨hrWf, ?_⟩, fun _ => trivial⟩
    rw [rest, htree, ptrValues_some, take_append_of_le_length]
    · exact (append_nil _).trans hrValues
    · rw [length_values htreeWf]
      omega
  split
  · simp only [ensures_require, ensures_pure]
    intro array harray
    split
    · exact hcollapse (by omega)
    · rename_i hallow _
      refine ⟨⟨hs.refl, .refl s⟩, ⟨hwf.tree, ?_⟩, fun hf => absurd (hallow.symm.trans hf) nofun⟩
      rw [hwf.take_rest harray (by omega), max_eq_left (by omega)]
      rfl
  · exact hcollapse (by omega)

/-- The end of `paged`. -/
theorem Later.pagedVectorHandle (hlater : Later H pages (fun _ => False) s s')
    (hunmoved : Unmoved s s') (hlayout : InPages pages h.mBigVector) (tree : Option (PageletTree α)) :
    Ensures (do
      let tree ← require tree .lassert
      construct (.make (vdm.pagedVectorHandle h.mBigVector tree) none none inPool (← generateHash H)))
      (fun _ s' => Later H pages
        (fun hash => ∃ i ≥ s.hashesGenerated, H.Derived i hash) s s' ∧ Unmoved s s') s' := by
  simp only [ensures_bind, ensures_require, ensures_generateHash, ensures_construct]
  intro tree _
  have hgenerate := hlater.sound.generate (L := fun _ => False)
  have hpaged := hgenerate.sound.construct_free (make_wellFormed (vdm.pagedVectorHandle_inPages hlayout tree)
      ptrWellFormed_none none inPool (H.newVectorHash s'.hashesGenerated))
    (hlater.sound.free_of_generated .generated)
  refine ⟨((hlater.trans hgenerate).trans hpaged).mono fun hash hL => ?_, hunmoved.trans (unmoved_construct _ _)⟩
  obtain (hL | hL) | rfl := hL
  · exact hL.elim
  · exact hL.elim
  · exact ⟨_, hlater.generated, .generated⟩

/-- Paging a handle changes no value of a handle, and constructs handles with new hashes only. -/
theorem Sound.paged (hs : Sound H pages s) : Ensures (paged H vdm inPool ptr) (fun _ s' =>
      Later H pages (fun hash => ∃ i ≥ s.hashesGenerated, H.Derived i hash) s s' ∧ Unmoved s s') s := by
  unfold VectorStore.paged
  rw [ensures_bind, ensures_readHandle]
  intro h hptr
  have hwf := hs.wellFormed h (mem_of_getElem? hptr)
  rw [ensures_ite]
  split
  · exact ⟨hs.refl, .refl s⟩
  rw [ensures_ite]
  split
  · rw [ensures_bind]
    refine (hs.moveUnpagedValueArrayIntoPagelet (L := fun _ => False)).mono fun _ s' ⟨⟨hlater, hunmoved⟩, _⟩ => ?_
    rw [ensures_bind, ensures_readHandle]
    intro h' _
    rw [ensures_bind, ensures_pure]
    exact hlater.pagedVectorHandle hunmoved hwf.layoutInPages h'.mPageletTreePtr
  · rw [ensures_bind]
    refine (hs.collapsePageletTreeAndUnpagedValuesTree (L := fun _ => False) hptr ?_).mono
      fun r s' ⟨⟨hlater, hunmoved⟩, _⟩ => ?_
    · rw [hwf.pagedValueCount_eq]
      exact le_refl _
    · rw [ensures_bind, ensures_pure]
      exact hlater.pagedVectorHandle hunmoved hwf.layoutInPages r.1

/-! ## Concatenation -/

/-- Where a handle is still there with its values, its size and the number of its values in pages are
as they were. -/
theorem Unmoved.sizes {k : ℕ} (h' : Unmoved s s') (hs : Sound H pages s)
    (hs' : Sound H pages s') (hk : s.handles[k]? = some h) :
    ∃ g, s'.handles[k]? = some g ∧ g.size = h.size ∧ g.pagedValueCount = h.pagedValueCount ∧
      g.mBigVector = h.mBigVector ∧ g.rest = h.rest := by
  obtain ⟨g, hg, hlayout, hrest⟩ := h' k h hk
  have hwf := hs.wellFormed h (mem_of_getElem? hk)
  have hwf' := hs'.wellFormed g (mem_of_getElem? hg)
  refine ⟨g, hg, hwf.size_eq_of_values hwf' ?_, ?_, hlayout, hrest⟩
  · rw [values_eq_rest, values_eq_rest, hlayout, hrest]
  · rw [hwf.pagedValueCount_eq, hwf'.pagedValueCount_eq, hlayout]

/-- A pointer to a handle of some size. -/
def HasSize (s : VectorStore α) (ptr : ℕ) (size : ℤ) : Prop := ∃ h, s.handles[ptr]? = some h ∧ h.size = size

theorem hasSize_construct (s : VectorStore α) (h : VectorHandle α) :
    HasSize { s with handles := s.handles ++ [h] } s.handles.length h.size :=
  ⟨h, getElem?_concat_length, rfl⟩

/-- A handle with a free hash is constructed after other changes. -/
theorem Later.construct_free (hlater : Later H pages (fun _ => False) s s')
    (hwf : h.WellFormed pages) (hfree : Free H s h.mVectorHash) :
    Later H pages (· = h.mVectorHash) s { s' with handles := s'.handles ++ [h] } :=
  (hlater.trans (hlater.sound.construct_free hwf (hfree.later hlater id))).mono fun _ hL => hL.resolve_left id

variable {lhs rhs : ℕ} {lhsHandle rhsHandle : VectorHandle α} {lhsUsed rhsUsed : ℤ}
  {newHash : Hash}

/-- The end of `concatenatePaged`. -/
theorem Later.constructSized (hlater : Later H pages (fun _ => False) s s') {r : VectorHandle α}
    (hwf : r.WellFormed pages) (hfree : Free H s r.mVectorHash) :
    Ensures (do
      lassert (r.size = lhsUsed + rhsUsed) .lassert
      construct r)
      (fun p s' => Later H pages (· = r.mVectorHash) s s' ∧
        HasSize s' p (lhsUsed + rhsUsed)) s' := by
  simp only [ensures_bind, ensures_lassert, ensures_construct]
  intro hsize
  rw [← hsize]
  exact ⟨hlater.construct_free hwf hfree, hasSize_construct s' _⟩

theorem Sound.concatenatePaged (hs : Sound H pages s)
    (hrhs : s.handles[rhs]? = some rhsHandle) (hused : rhsUsed = rhsHandle.size)
    (hfree : Free H s (relatedHash H.add newHash 9)) :
    Ensures (concatenatePaged H vdm inPool lhs lhsUsed rhs rhsUsed newHash)
      (fun p s' => Later H pages (· = relatedHash H.add newHash 9) s s' ∧
        HasSize s' p (lhsUsed + rhsUsed)) s := by
  have hwf := hs.wellFormed rhsHandle (mem_of_getElem? hrhs)
  unfold VectorStore.concatenatePaged
  simp only [ensures_bind, ensures_readHandle, ensures_lassert]
  intro lhsHandle hlhs g hg _
  obtain rfl := some.inj (hrhs.symm.trans hg)
  have hwfl := hs.wellFormed lhsHandle (mem_of_getElem? hlhs)
  have hcount : 0 ≤ rhsHandle.size - rhsHandle.pagedValueCount := hwf.length_rest ▸ Int.natCast_nonneg _
  refine (hs.collapsePageletTreeAndUnpagedValuesTree (L := fun _ => False) hrhs (by omega)).mono
    fun ⟨tree, array⟩ s' ⟨⟨hlater, _⟩, ⟨htreeWf, _⟩, _⟩ => ?_
  have hnewID (hash hash' hash'' : Hash) : InPages pages (vdm.registerBigVectorConcat
      (if lhsUsed ≠ lhsHandle.mBigVector.size then
        vdm.registerBigVectorSlice lhsHandle.mBigVector lhsUsed hash
      else lhsHandle.mBigVector)
      (if rhsUsed < rhsHandle.mBigVector.size then
        vdm.registerBigVectorSlice rhsHandle.mBigVector rhsUsed hash'
      else rhsHandle.mBigVector) hash'') := by
    refine vdm.registerBigVectorConcat_inPages ?_ ?_ _
    · split
      · exact vdm.registerBigVectorSlice_inPages hwfl.layoutInPages _ _
      · exact hwfl.layoutInPages
    · split
      · exact vdm.registerBigVectorSlice_inPages hwf.layoutInPages _ _
      · exact hwf.layoutInPages
  cases tree with
  | none => exact hlater.constructSized (make_wellFormed (hnewID ..)
      ptrWellFormed_none ..) hfree
  | some tree =>
    rw [ensures_bind, ensures_require]
    intro collapsed hcollapsed
    have hcollapsedWf := (withSmallPageletsCollapsed_holds
      (ptrWellFormed_some.1 htreeWf) hcollapsed).1
    rw [ensures_bind, ensures_pure]
    exact hlater.constructSized (make_wellFormed (hnewID ..) (ptrWellFormed_some.2 hcollapsedWf) ..) hfree

/-- The end of `concatenateTrees`. -/
theorem Later.constructCollapsed {l : BigVectorPageLayout} {tree : Option (PageletTree α)}
    {xs : List α} {array : Option (ForaValueArray α)} {hash : Hash} {size : ℤ}
    (hlater : Later H pages (fun _ => False) s s') (hlayout : InPages pages l)
    (htree : PageletTree.Holds tree xs) (hfree : Free H s hash)
    (hsize : l.size + array.elim 0 ForaValueArray.size + xs.length = size) :
    Ensures (do
      let finalTree ← require tree .nullPointer
      let finalTree ← require (finalTree.withSmallPageletsCollapsed vdm.wantsCollapse) .lassert
      construct (.make l (some finalTree) array inPool hash))
      (fun p s' => Later H pages (· = hash) s s' ∧ HasSize s' p size) s' := by
  simp only [ensures_bind, ensures_require, ensures_construct]
  intro tree heq collapsed hcollapsed
  subst heq
  obtain ⟨htreeWf, hvalues⟩ := PageletTree.holds_some.1 htree
  obtain ⟨hwf, hsame⟩ := PageletTree.withSmallPageletsCollapsed_holds htreeWf hcollapsed
  refine ⟨hlater.construct_free (make_wellFormed hlayout (PageletTree.ptrWellFormed_some.2 hwf) ..) hfree, ?_⟩
  have hlength : xs.length = collapsed.size := by
    rw [← hvalues, ← hsame, PageletTree.length_values hwf]
  have hresult := hasSize_construct s' (.make l (some collapsed) array inPool hash)
  rwa [show (make l (some collapsed) array inPool hash).size = size by
    rw [← hsize, hlength]
    rfl] at hresult

theorem Sound.concatenateTrees (hs : Sound H pages s)
    (hlhs : s.handles[lhs]? = some lhsHandle) (hlhsUsed : lhsUsed = lhsHandle.size)
    (hrhs : s.handles[rhs]? = some rhsHandle) (hrhsUsed : rhsUsed = rhsHandle.size)
    (hpaged : rhsHandle.pagedValueCount = 0) (hfree : Free H s (relatedHash H.add newHash 5)) :
    Ensures (concatenateTrees H vdm inPool lhs lhsUsed rhs rhsUsed newHash)
      (fun p s' => Later H pages (· = relatedHash H.add newHash 5) s s' ∧
        HasSize s' p (lhsUsed + rhsUsed)) s := by
  have hwfl := hs.wellFormed lhsHandle (mem_of_getElem? hlhs)
  have hwfr := hs.wellFormed rhsHandle (mem_of_getElem? hrhs)
  have hlhsRest := hwfl.length_rest
  have hrhsRest := hwfr.length_rest
  unfold VectorStore.concatenateTrees
  simp only [ensures_bind, ensures_readHandle]
  intro g hg g' hg'
  obtain rfl := some.inj (hlhs.symm.trans hg)
  obtain rfl := some.inj (hrhs.symm.trans hg')
  refine (hs.collapsePageletTreeAndUnpagedValuesTree (L := fun _ => False) hlhs (by omega)).mono
    fun ⟨lhsTree, lhsArray⟩ s₁ ⟨⟨hlater, hunmoved⟩, ⟨hlhsWf, hlhsValues⟩, hlhsArray⟩ => ?_
  obtain rfl : lhsArray = none := hlhsArray rfl
  obtain ⟨rhsHandle', hrhs', hsize', hcount', -, hrest'⟩ := hunmoved.sizes hs hlater.sound hrhs
  refine (hlater.sound.collapsePageletTreeAndUnpagedValuesTree (L := fun _ => False) hrhs' (by omega)).mono
    fun ⟨rhsTree, rhsArray⟩ s₂ ⟨⟨hlater', _⟩, ⟨hrhsWf, hrhsValues⟩, _⟩ => ?_
  have hboth := (hlater.trans hlater').mono (M := fun _ => False) fun _ hL => hL.elim id id
  have hlhsLength := congrArg length hlhsValues
  have hrhsLength := congrArg length hrhsValues
  rw [hrest'] at hrhsLength
  have harray : ((rhsArray.elim [] ForaValueArray.values).length : ℤ) = rhsArray.elim 0 ForaValueArray.size := by
    cases rhsArray <;> rfl
  simp only [length_append, length_take, elim_none, length_nil] at hlhsLength
  simp only [length_append, length_take] at hrhsLength
  have hlhsCount := hwfl.pagedValueCount_eq
  have htotal (xs : List α) (hxs : xs = PageletTree.ptrValues lhsTree ++ PageletTree.ptrValues rhsTree) :
      lhsHandle.mBigVector.size + rhsArray.elim 0 ForaValueArray.size + (xs.length : ℤ) =
        lhsUsed + rhsUsed := by
    rw [hxs, length_append]
    omega
  dsimp only
  split
  · rw [ensures_bind, ensures_require]
    intro finalTree hconcat
    have hheld := PageletTree.concatenateAndBalance_holds (p := lhsTree) ⟨hlhsWf, rfl⟩
      (q := rhsTree) ⟨hrhsWf, rfl⟩ hconcat
    exact hboth.constructCollapsed hwfl.layoutInPages hheld hfree (htotal _ rfl)
  · rename_i hnone
    rw [ensures_bind, ensures_pure]
    have hheld : PageletTree.Holds lhsTree (PageletTree.ptrValues lhsTree) := ⟨hlhsWf, rfl⟩
    refine hboth.constructCollapsed hwfl.layoutInPages hheld hfree (htotal _ ?_)
    rw [not_isSome_iff_eq_none.1 hnone]
    exact (append_nil _).symm

/-- The handle may go on with the given values: other handles with its hash do not go on with others. -/
def GrowsWith (pages : VectorDataID → List α) (s : VectorStore α) (ptr : ℕ) (xs : List α) : Prop :=
  ∀ (k : ℕ) (h other : VectorHandle α), k ≠ ptr → s.handles[ptr]? = some h →
    s.handles[k]? = some other → other.mVectorHash = h.mVectorHash →
      Comparable (h.values pages ++ xs) (other.values pages)

variable {array lhsArray rhsArray : ForaValueArray α}

theorem length_appendRange {src : ForaValueArray α} (h0 : 0 ≤ n)
    (hle : n ≤ src.size) : (array.appendRange src 0 n).size = array.size + n := by
  unfold ForaValueArray.size at hle ⊢
  simp only [appendRange, Int.toNat_zero, drop_zero, length_append, length_take]
  omega

/-- Values are put behind those of a handle's array. -/
theorem Sound.grow {array' : ForaValueArray α} {xs : List α} (hs : Sound H pages s)
    (hptr : s.handles[ptr]? = some h) (harray : h.mUnpagedValues = some array)
    (harray' : array'.values = array.values ++ xs) (hn : array'.size = array.size + n)
    (hgrows : GrowsWith pages s ptr xs) :
    Later H pages L s { s with handles := s.handles.set ptr (h.growTo array' n) } ∧
      HasSize { s with handles := s.handles.set ptr (h.growTo array' n) } ptr (h.size + n) := by
  have hwf := hs.wellFormed h (mem_of_getElem? hptr)
  have hvalues : (h.growTo array' n).values pages = h.values pages ++ xs := by
    unfold VectorHandle.values VectorHandle.growTo
    rw [harray, elim_some, elim_some, harray', append_assoc _ array.values]
  refine ⟨hs.write hptr { hwf with size_eq := ?_ } rfl (hvalues ▸ prefix_append _ _)
    fun k other hne hother heq => ?_, h.growTo array' n, ?_, rfl⟩
  · have hsize := hwf.size_eq
    rw [harray] at hsize
    show h.mSize + n = h.mPagedAndPageletTreeValueCount + array'.size
    rw [hsize, hn]
    exact add_assoc _ _ _
  · rw [hvalues]
    exact hgrows k h other hne hptr hother heq
  · exact getElem?_set_self (List.getElem?_eq_some_iff.1 hptr).1

theorem Sound.concatenateArrays (hs : Sound H pages s)
    (hlhs : s.handles[lhs]? = some lhsHandle) (hused : lhsUsed = lhsHandle.size)
    (harray : lhsHandle.mUnpagedValues = some lhsArray) (h0 : 0 ≤ rhsUsed) (hfree : Free H s newHash)
    (hgrows : vdm.allValuesArePOD rhsArray = true → GrowsWith pages s lhs rhsArray.values) :
    Ensures (concatenateArrays vdm inPool lhs lhsUsed lhsArray rhsArray rhsUsed newHash)
      (fun p s' => Later H pages (· = newHash) s s' ∧ HasSize s' p (lhsUsed + rhsUsed)) s := by
  have hwf := hs.wellFormed lhsHandle (mem_of_getElem? hlhs)
  unfold VectorStore.concatenateArrays
  simp only [ensures_bind, ensures_readHandle, ensures_lassert, ensures_ite, ensures_writeHandle,
    ensures_pure, ensures_construct]
  intro g hg hle
  obtain rfl := some.inj (hlhs.symm.trans hg)
  split
  · rename_i hinPlace
    rw [hused]
    have happended : (lhsArray.appendRange rhsArray 0 rhsUsed).values =
        lhsArray.values ++ rhsArray.values.take rhsUsed.toNat := rfl
    refine hs.grow hlhs harray happended (length_appendRange h0 hle) fun k h other hne hh hother heq => ?_
    refine (hgrows hinPlace.2 k h other hne hh hother heq).shorten ?_
    exact (prefix_append_right_inj _).2 <| take_prefix _ _
  · intro hlhsLe
    have hlhsCount : lhsArray.size = lhsHandle.unpagedValueCount := by
      rw [← hwf.length_unpaged, harray]
      rfl
    have hsize := hwf.size_sum
    have hcount := hwf.pagedAndPageletTreeValueCount_eq
    have hpaged := hwf.pagedValueCount_eq
    have harraySize : 0 ≤ lhsArray.size := Int.natCast_nonneg _
    have hmax : max (lhsUsed - lhsHandle.pagedAndPageletTreeValueCount) 0 = lhsArray.size := by
      omega
    rw [hmax]
    refine ⟨hs.construct_free (make_wellFormed hwf.layoutInPages hwf.tree ..) hfree, _, getElem?_concat_length, ?_⟩
    show lhsHandle.mBigVector.size + size (appendRange
      (appendRange {} lhsArray 0 lhsArray.size) rhsArray 0 rhsUsed) + lhsHandle.pageletTreeValueCount = _
    rw [length_appendRange h0 hle, length_appendRange harraySize (le_refl _)]
    show _ + (0 + _ + _) + _ = _
    omega

/-- The hashes that a concatenation gives the handle that it constructs last. -/
def ConcatenationHash (H : VectorHashing) (newHash hash : Hash) : Prop :=
  hash = newHash ∨ hash = relatedHash H.add newHash 5 ∨
    hash = relatedHash H.add newHash 9 ∨
    hash = relatedHash H.add (relatedHash H.add newHash 4) 9

/-- The hash of a handle that a concatenation constructs. -/
def FromConcatenation (H : VectorHashing) (s : VectorStore α) (newHash hash : Hash) : Prop :=
  ConcatenationHash H newHash hash ∨ ∃ i ≥ s.hashesGenerated, H.Derived i hash

/-- Where a concatenation extends the array of the left handle, that handle may go on with the values
of the right one's array. -/
def MayConcatenate (vdm : VectorDataManager pages) (s : VectorStore α) (lhs : ℕ)
    (lhsHandle rhsHandle : VectorHandle α) : Prop :=
  ∀ lhsArray rhsArray, arraysToAppend vdm lhsHandle rhsHandle = some (lhsArray, rhsArray) →
    rhsHandle.pagedValueCount = 0 → vdm.allValuesArePOD rhsArray = true → GrowsWith pages s lhs rhsArray.values

theorem arraysToAppend_eq
    (h : arraysToAppend vdm lhsHandle rhsHandle = some (lhsArray, rhsArray)) :
    lhsHandle.mUnpagedValues = some lhsArray := by
  unfold arraysToAppend at h
  simp only [bind_eq_bind, bind_eq_some_iff, Option.pure_def, some.injEq, Prod.mk.injEq] at h
  obtain ⟨array, harray, -, -, -, -, rfl, -⟩ := h
  exact harray

theorem Sound.concatenateHandles (hs : Sound H pages s)
    (hlhs : s.handles[lhs]? = some lhsHandle) (hlhsUsed : lhsUsed = lhsHandle.size)
    (hrhs : s.handles[rhs]? = some rhsHandle) (hrhsUsed : rhsUsed = rhsHandle.size)
    (hfree : ∀ hash, ConcatenationHash H newHash hash → Free H s hash)
    (hgrows : MayConcatenate vdm s lhs lhsHandle rhsHandle) :
    Ensures (concatenateHandles H vdm inPool lhs lhsUsed rhs rhsUsed newHash)
      (fun p s' => Later H pages (FromConcatenation H s newHash) s s' ∧
        HasSize s' p (lhsUsed + rhsUsed)) s := by
  have hsize : 0 ≤ rhsHandle.size :=
    (hs.wellFormed rhsHandle (mem_of_getElem? hrhs)).length_values ▸ Int.natCast_nonneg _
  unfold VectorStore.concatenateHandles
  simp only [ensures_bind, ensures_readHandle, ensures_ite]
  intro g hg g' hg'
  obtain rfl := some.inj (hlhs.symm.trans hg)
  obtain rfl := some.inj (hrhs.symm.trans hg')
  split
  · split
    · refine hs.paged.mono fun p s' ⟨hlater, hunmoved⟩ => ?_
      obtain ⟨h', hrhs', hsize', -, -, -⟩ := hunmoved.sizes hs hlater.sound hrhs
      refine (hlater.sound.concatenatePaged hrhs' (hrhsUsed.trans hsize'.symm) ?_).mono
        fun p s'' ⟨hlater', hhas⟩ => ⟨(hlater.trans hlater').mono fun hash hL => ?_, hhas⟩
      · refine (hfree _ (.inr (.inr (.inr rfl)))).later hlater fun ⟨i, hi, hderived⟩ => ?_
        obtain ⟨⟨j, hj, hderived'⟩, -⟩ := hfree _ (.inr (.inr (.inr rfl)))
        exact absurd (hderived.unique hderived') (ne_of_gt (hj.trans_le hi))
      · exact hL.elim .inr fun heq => .inl (.inr (.inr (.inr heq)))
    · rename_i hpaged
      rw [not_not] at hpaged
      cases harrays : arraysToAppend vdm lhsHandle rhsHandle with
      | none =>
        refine (hs.concatenateTrees hlhs hlhsUsed hrhs hrhsUsed hpaged
          (hfree _ (.inr (.inl rfl)))).mono fun p s' ⟨hlater, hhas⟩ => ⟨hlater.mono ?_, hhas⟩
        exact fun hash heq => .inl (.inr (.inl heq))
      | some arrays =>
        obtain ⟨lhsArray, rhsArray⟩ := arrays
        refine (hs.concatenateArrays hlhs hlhsUsed (arraysToAppend_eq harrays) (hrhsUsed ▸ hsize)
          (hfree _ (.inl rfl)) (hgrows lhsArray rhsArray harrays hpaged)).mono
          fun p s' ⟨hlater, hhas⟩ => ⟨hlater.mono ?_, hhas⟩
        exact fun hash heq => .inl (.inl heq)
  · refine (hs.concatenatePaged hrhs hrhsUsed (hfree _ (.inr (.inr (.inl rfl))))).mono
      fun p s' ⟨hlater, hhas⟩ => ⟨hlater.mono ?_, hhas⟩
    exact fun hash heq => .inl (.inr (.inr (.inl heq)))

end VectorStore

end TypedFora.Vectors
