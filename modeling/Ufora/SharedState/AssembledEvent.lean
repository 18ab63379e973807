import Ufora.SharedState.KeyRangeSet

/-!
# `AssembledEvent`

`distributed/SharedState/AssembledEvent.cppml`: the partial events of a transaction that a view has
received, and the keys whose partial events it still waits for. The constructor finds these keys by
walking along the updated keys and the subscribed ranges, each in its order, and stops at a key that
it cannot place. `AssembledEvent.needed_new_iff` says when it finds all the subscribed keys.
-/

open Ordered List Finset SharedState.KeyRange

namespace SharedState

variable {Json : Type} [LinearOrder Json]

variable (Json) in
/-- `EventSignature`: the keys that a transaction updates, and its id, which is what the order and
the equality of signatures compare. -/
structure EventSignature where
  updated : Finset (Key Json)
  id : UniqueId

variable (Json) in
/-- A partial event together with the rest of its signature. -/
structure SignedEvent extends PartialEvent Json where
  updated : Finset (Key Json)

namespace SignedEvent

/-- `key()`. -/
def key (e : SignedEvent Json) : Key Json := e.content.key

/-- `signature()`. -/
def signature (e : SignedEvent Json) : EventSignature Json := ⟨e.updated, e.id⟩

end SignedEvent

variable (Json) in
/-- An `AssembledEvent`. -/
structure AssembledEvent where
  signature : EventSignature Json
  needed : Finset (Key Json)
  partials : StdMap (Key Json) (SignedEvent Json)

/-- `contains(key)`, with the assertion that fails where the key has no such dimension. -/
def KeyRange.tryContains (r : KeyRange Json) (key : Key Json) : Except (AssertionFailed Json) Bool :=
  match r.contains key with
  | some b => .ok b
  | none => .error (.invalidIndex r.index key)

/-- `contains(key)` returns true. -/
def KeyRange.includes (r : KeyRange Json) (key : Key Json) : Bool := r.contains key = some true

namespace AssembledEvent

/-- The `while` loop of the constructor: takes keys from the front of `temp` as long as the range
contains them. -/
def takeContained (it : KeyRange Json) : List (Key Json) → Finset (Key Json) →
      Except (AssertionFailed Json) (List (Key Json) × Finset (Key Json))
  | [], needed => .ok ([], needed)
  | key :: temp, needed => do
    if ← it.tryContains key then takeContained it temp (insert key needed)
    else return (key :: temp, needed)

/-- `AssembledEvent(inSig, mSubscribed)`. -/
def new (inSig : EventSignature Json) (mSubscribed : KeyRangeSet Json) :
    Except (AssertionFailed Json) (AssembledEvent Json) := do
  let loop ← (ascending mSubscribed.mRanges).foldlM
    (fun p it => takeContained it p.1 p.2) (ascending inSig.updated, ∅)
  return { signature := inSig, needed := loop.2, partials := ∅ }

/-- `isValid()`. -/
def IsValid (e : AssembledEvent Json) : Prop := e.needed.card = 0
deriving Decidable

/-- `addPartial(partial)`, but for its result, which is `isValid()`. -/
def addPartial (e : AssembledEvent Json) (part : SignedEvent Json) : AssembledEvent Json :=
  { e with needed := e.needed.erase part.key, partials := Finmap.insert part.key part e.partials }

end AssembledEvent

/-! ## The walk along keys and ranges -/

section
variable {κ ρ : Type} (p : ρ → κ → Bool)

/-- The keys that are left when each range in turn has taken those that it contains from the front. -/
def walk (ranges : List ρ) (keys : List κ) : List κ := ranges.foldl (fun keys it => keys.dropWhile (p it)) keys

variable {p} {ranges : List ρ} {keys : List κ} {r : ρ} {k : κ}

theorem walk_suffix : walk p ranges keys <:+ keys := by
  induction ranges generalizing keys with
  | nil => exact suffix_rfl
  | cons r ranges ih => exact ih.trans (dropWhile_suffix _)

/-- A key that is taken is contained in a range. -/
theorem exists_of_notMem_walk (hk : k ∈ keys) (h : k ∉ walk p ranges keys) : ∃ r ∈ ranges, p r k = true := by
  induction ranges generalizing keys with
  | nil => exact absurd hk h
  | cons r ranges ih =>
    rw [← takeWhile_append_dropWhile (p := p r) (l := keys), mem_append] at hk
    rcases hk with hk | hk
    · exact ⟨r, .head _, (mem_takeWhile_imp hk)⟩
    · obtain ⟨r', hr', hp⟩ := ih hk h
      exact ⟨r', .tail _ hr', hp⟩

end

section
variable {κ ρ : Type} [LinearOrder κ] [LinearOrder ρ] {p : ρ → κ → Bool}

/-- The keys that are contained in ranges come before the others, and each can be given a range that
contains it, so that later keys do not get earlier ranges. -/
def InOrder (p : ρ → κ → Bool) (ranges : List ρ) (keys : List κ) : Prop :=
  ∃ range : κ → ρ, ∀ k ∈ keys, (∃ r ∈ ranges, p r k = true) → (range k ∈ ranges ∧ p (range k) k = true) ∧
      ∀ k' ∈ keys, k' < k → (∃ r ∈ ranges, p r k' = true) ∧ range k' ≤ range k

variable {ranges : List ρ} {keys : List κ}

/-- If the keys are in order, the walk takes every key that a range contains: the head of what a range
leaves behind is not contained in it, so no later key has that range. -/
theorem InOrder.not_of_mem_walk (hr : ranges.Pairwise (· ≤ ·)) (hk : keys.Pairwise (· < ·))
    (h : InOrder p ranges keys) : ∀ k ∈ walk p ranges keys, ¬ ∃ r ∈ ranges, p r k = true := by
  obtain ⟨range, h⟩ := h
  generalize hS : (fun k => ∃ r ∈ ranges, p r k = true) = S at h
  have hS' : ∀ k, (∃ r ∈ ranges, p r k = true) = S k := fun k => congrFun hS k
  simp only [hS'] at h ⊢
  clear hS hS'
  induction ranges generalizing keys with
  | nil => exact fun k hk hs => absurd (h k hk hs).1.1 not_mem_nil
  | cons r ranges ih =>
    rw [List.pairwise_cons] at hr
    have hsuf : keys.dropWhile (p r) <:+ keys := dropWhile_suffix _
    show ∀ k ∈ walk p ranges (keys.dropWhile (p r)), ¬ S k
    refine ih hr.2 (hk.sublist hsuf.sublist) fun k hmem hs => ?_
    obtain ⟨⟨hrange, hp⟩, hbefore⟩ := h k (hsuf.mem hmem) hs
    refine ⟨⟨?_, hp⟩, fun k' hk' => hbefore k' (hsuf.mem hk')⟩
    refine (mem_cons.1 hrange).resolve_left fun he => ?_
    obtain ⟨a, l, hl⟩ := exists_cons_of_ne_nil (ne_nil_of_mem hmem)
    have hna : ¬ p r a = true := by
      have := head_dropWhile_not (p r) (l := keys) (by rw [hl]; exact cons_ne_nil _ _)
      simpa [hl] using this
    rw [hl] at hmem
    rcases mem_cons.1 hmem with rfl | hmem
    · exact hna (he ▸ hp)
    · have hsorted := hk.sublist hsuf.sublist
      rw [hl, List.pairwise_cons] at hsorted
      have ha : a ∈ keys := hsuf.mem (hl ▸ mem_cons_self)
      obtain ⟨hsa, hle⟩ := hbefore a ha (hsorted.1 k hmem)
      obtain ⟨⟨hra, hpa⟩, -⟩ := h a ha hsa
      have hge : r ≤ range a := by
        rcases mem_cons.1 hra with h | h
        · exact h.ge
        · exact hr.1 _ h
      exact hna (le_antisymm (he ▸ hle) hge ▸ hpa)

/-- The keys that the walk takes get the ranges that take them. -/
theorem exists_range_of_walk (f : κ → ρ) (hr : ranges.Pairwise (· ≤ ·))
    (hk : keys.Pairwise (· < ·)) : ∃ range : κ → ρ, ∀ k ∈ keys, k ∉ walk p ranges keys →
      (range k ∈ ranges ∧ p (range k) k = true) ∧
        ∀ k' ∈ keys, k' < k → k' ∉ walk p ranges keys ∧ range k' ≤ range k := by
  induction ranges generalizing keys with
  | nil => exact ⟨f, fun k hk hn => absurd hk hn⟩
  | cons r ranges ih =>
    rw [List.pairwise_cons] at hr
    have hsuf : keys.dropWhile (p r) <:+ keys := dropWhile_suffix _
    obtain ⟨range, h⟩ := ih hr.2 (hk.sublist hsuf.sublist)
    have hwalk : walk p (r :: ranges) keys <:+ keys.dropWhile (p r) :=
      show walk p ranges (keys.dropWhile (p r)) <:+ _ from walk_suffix
    refine ⟨fun k => if k ∈ keys.dropWhile (p r) then range k else r, fun k hmem hn => ?_⟩
    simp only
    have hsplit : ∀ k ∈ keys, k ∉ keys.dropWhile (p r) → k ∈ keys.takeWhile (p r) := by
      intro k hk hn
      rw [← takeWhile_append_dropWhile (p := p r) (l := keys), mem_append] at hk
      exact hk.resolve_right hn
    by_cases hkd : k ∈ keys.dropWhile (p r)
    · obtain ⟨⟨hrange, hp⟩, hbefore⟩ := h k hkd hn
      rw [if_pos hkd]
      refine ⟨⟨.tail _ hrange, hp⟩, fun k' hk' hlt => ?_⟩
      by_cases hkd' : k' ∈ keys.dropWhile (p r)
      · rw [if_pos hkd']
        exact hbefore k' hkd' hlt
      · rw [if_neg hkd']
        exact ⟨fun hw => hkd' (hwalk.mem hw), hr.1 _ hrange⟩
    · rw [if_neg hkd]
      have htake := hsplit k hmem hkd
      refine ⟨⟨.head _, mem_takeWhile_imp htake⟩, fun k' hk' hlt => ?_⟩
      have hkd' : k' ∉ keys.dropWhile (p r) := by
        intro hkd'
        rw [← takeWhile_append_dropWhile (p := p r) (l := keys), pairwise_append] at hk
        exact absurd (hk.2.2 k htake k' hkd') (not_lt.2 hlt.le)
      rw [if_neg hkd']
      exact ⟨fun hw => hkd' (hwalk.mem hw), le_rfl⟩

/-- The walk takes every key that a range contains exactly if the keys are in order. -/
theorem walk_complete_iff (f : κ → ρ) (hr : ranges.Pairwise (· ≤ ·)) (hk : keys.Pairwise (· < ·)) :
    (∀ k ∈ walk p ranges keys, ¬ ∃ r ∈ ranges, p r k = true) ↔ InOrder p ranges keys := by
  constructor
  · intro hall
    obtain ⟨range, h⟩ := exists_range_of_walk f hr hk
    refine ⟨range, fun k hmem hs => ?_⟩
    obtain ⟨hrange, hbefore⟩ := h k hmem fun hw => hall k hw hs
    refine ⟨hrange, fun k' hk' hlt => ?_⟩
    obtain ⟨hn, hle⟩ := hbefore k' hk' hlt
    exact ⟨exists_of_notMem_walk hk' hn, hle⟩
  · exact fun h => h.not_of_mem_walk hr hk

end

/-! ## The needed keys -/

/-- Some range of the set contains the key. -/
def KeyRangeSet.Subscribed (s : KeyRangeSet Json) (key : Key Json) : Prop := ∃ r ∈ s.mRanges, r.includes key = true
deriving Decidable

/-- The updated keys that are subscribed come before the others, in the order of their keyspaces and
names, and each can be given a subscribed range that contains it, so that later keys do not get
earlier ranges. -/
def KeyRangeSet.InOrder (s : KeyRangeSet Json) (updated : Finset (Key Json)) : Prop :=
  SharedState.InOrder includes (ascending s.mRanges) (ascending updated)

theorem KeyRangeSet.inOrder_iff {s : KeyRangeSet Json} {updated : Finset (Key Json)} :
    (∀ key ∈ walk includes (ascending s.mRanges) (ascending updated),
      ¬ ∃ r ∈ ascending s.mRanges, r.includes key = true) ↔ s.InOrder updated :=
  walk_complete_iff (fun key => ⟨key.keyspace, 0, none, none⟩) (pairwise_ascending _)
    ((pairwise_ascending _).imp₂ (fun _ _ => lt_of_le_of_ne) (ascending_nodup _))

instance (s : KeyRangeSet Json) (updated : Finset (Key Json)) : Decidable (s.InOrder updated) :=
  decidable_of_iff _ KeyRangeSet.inOrder_iff

namespace AssembledEvent

variable {s : KeyRangeSet Json} {sig : EventSignature Json}

/-- The `while` loop, where the range has a dimension of its keyspace. -/
theorem takeContained_eq {it : KeyRange Json} (hit : it.InDimension) (temp : List (Key Json))
    (needed : Finset (Key Json)) : takeContained it temp needed =
      .ok (temp.dropWhile it.includes, needed ∪ (temp.takeWhile it.includes).toFinset) := by
  induction temp generalizing needed with
  | nil => simp [takeContained]
  | cons key temp ih =>
    obtain ⟨b, hb, -⟩ := contains_spec hit key
    have htry : it.tryContains key = .ok b := by rw [tryContains, hb]
    rw [takeContained, htry]
    cases b with
    | true =>
      have hin : it.includes key = true := decide_eq_true hb
      rw [dropWhile_cons_of_pos hin, takeWhile_cons_of_pos hin]
      refine (ih _).trans ?_
      rw [toFinset_cons, insert_union_comm]
    | false =>
      have hin : ¬ it.includes key = true := by simp [includes, hb]
      rw [dropWhile_cons_of_neg hin, takeWhile_cons_of_neg hin, toFinset_nil, union_empty]
      rfl

/-- The loop of the constructor moves the keys that the walk takes to the needed ones. -/
theorem foldlM_takeContained {ranges : List (KeyRange Json)} (hs : ∀ r ∈ ranges, r.InDimension)
    {temp : List (Key Json)} (hn : temp.Nodup) (needed : Finset (Key Json)) :
    ∃ taken, (∀ key, key ∈ taken ↔ key ∈ temp ∧ key ∉ walk includes ranges temp) ∧
      ranges.foldlM (fun p it => takeContained it p.1 p.2) (temp, needed) =
        .ok (walk includes ranges temp, needed ∪ taken) := by
  induction ranges generalizing temp needed with
  | nil => exact ⟨∅, by simp [walk], by simp [walk]; rfl⟩
  | cons r ranges ih =>
    rw [List.forall_mem_cons] at hs
    obtain ⟨taken, hmem, hfold⟩ := ih hs.2 (hn.sublist (dropWhile_sublist _))
      (needed ∪ (temp.takeWhile r.includes).toFinset)
    refine ⟨(temp.takeWhile r.includes).toFinset ∪ taken, fun key => ?_, ?_⟩
    · show _ ↔ _ ∧ key ∉ walk includes ranges (temp.dropWhile r.includes)
      have hsplit : key ∈ temp ↔ key ∈ temp.takeWhile r.includes ∨ key ∈ temp.dropWhile r.includes := by
        rw [← mem_append, takeWhile_append_dropWhile]
      rw [← takeWhile_append_dropWhile (p := r.includes) (l := temp), nodup_append] at hn
      rw [mem_union, mem_toFinset, hmem, hsplit]
      constructor
      · rintro (h | h)
        · exact ⟨.inl h, fun hw => hn.2.2 key h key (walk_suffix.mem hw) rfl⟩
        · exact ⟨.inr h.1, h.2⟩
      · rintro ⟨h | h, hw⟩
        · exact .inl h
        · exact .inr ⟨h, hw⟩
    · rw [foldlM_cons, takeContained_eq hs.1, ← union_assoc]
      exact hfold

/-- The constructor needs the keys that the walk takes. -/
theorem new_spec (hs : ∀ r ∈ s.mRanges, r.InDimension) (sig : EventSignature Json) :
    ∃ e, new sig s = .ok e ∧ e.signature = sig ∧ e.partials = ∅ ∧ ∀ key, key ∈ e.needed ↔ key ∈ sig.updated ∧
        key ∉ walk includes (ascending s.mRanges) (ascending sig.updated) := by
  obtain ⟨taken, hmem, hfold⟩ := foldlM_takeContained
    (fun r hr => hs r (mem_ascending.1 hr)) (ascending_nodup sig.updated) ∅
  refine ⟨⟨sig, taken, ∅⟩, ?_, rfl, rfl, fun key => ?_⟩
  · rw [new, hfold, empty_union]
    rfl
  · rw [hmem, mem_ascending]

/-- The needed keys are the updated keys that are subscribed, exactly if these are in order. -/
theorem needed_new_iff (hs : ∀ r ∈ s.mRanges, r.InDimension) (sig : EventSignature Json) :
    (∃ e, new sig s = .ok e ∧ ∀ key, key ∈ e.needed ↔ key ∈ sig.updated ∧ s.Subscribed key) ↔
    s.InOrder sig.updated := by
  obtain ⟨e, hnew, -, -, hmem⟩ := new_spec hs sig
  have hsub : ∀ key, s.Subscribed key ↔ ∃ r ∈ ascending s.mRanges, r.includes key = true := by
    intro key
    simp only [mem_ascending, KeyRangeSet.Subscribed]
  rw [← KeyRangeSet.inOrder_iff]
  constructor
  · rintro ⟨e', hnew', hmem'⟩ key hw hsome
    obtain rfl : e = e' := Except.ok.inj (hnew.symm.trans hnew')
    have hup : key ∈ sig.updated := mem_ascending.1 (walk_suffix.mem hw)
    exact ((hmem key).1 ((hmem' key).2 ⟨hup, (hsub key).2 hsome⟩)).2 hw
  · intro hall
    refine ⟨e, hnew, fun key => (hmem key).trans (and_congr_right fun hup => ?_)⟩
    rw [hsub]
    exact ⟨exists_of_notMem_walk (mem_ascending.2 hup), fun h hw => hall key hw h⟩

end AssembledEvent

end SharedState
