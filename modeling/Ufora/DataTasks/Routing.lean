import Ufora.DataTasks.BinTree
import Ufora.DataTasks.SortingSpine

/-!
# The spine of a tree of bins

A spine has the leaves of a tree in order, with the split values between them. A value is assigned the leaf
that it comes to in the tree (`binAt_entries`), and to split the bin of a leaf is to split the leaf
(`split_entries`). The bins of a spine may stand for those of the tree by an index: the machines they
are on, or the bin on its own machine only.
-/

namespace DataTasks.BinTree

open SortingSpine List Finset

section
variable {β μ ν γ : Type} (index : μ × β → γ)

/-- The last leaf. -/
def topBin : BinTree β μ ν → γ
  | leaf bin => index bin
  | node _ _ _ right => right.topBin

/-- The leaves before the last one, each with the split value above it. -/
def entries : BinTree β μ ν → List (ν × γ)
  | leaf _ => []
  | node _ pivot left right =>
    left.entries ++ (pivot, left.topBin index) :: right.entries

end

/-- Each of them is a bin of the tree, and in its place. -/
theorem entries_sublist {β μ ν γ : Type} (index : μ × β → γ) (t : BinTree β μ ν) :
    (t.entries index).map Prod.snd ++ [t.topBin index] <+ t.bins.map index := by
  induction t with
  | leaf bin => exact .refl _
  | node bin pivot left right ihl ihr =>
    rw [entries, topBin, bins, map_append, List.map_cons, List.map_cons, map_append, append_assoc, cons_append,
      append_cons]
    exact (ihl.append ihr).cons _

section
variable {β μ ν γ : Type} [Preorder ν] {index : μ × β → γ}

/-- The split values of a tree are in its interval. -/
theorem Inside.entries {t : BinTree β μ ν} {lower upper : Option ν} (h : t.Inside lower upper) :
    ∀ split ∈ t.entries index, (∀ x ∈ lower, x < split.1) ∧ ∀ x ∈ upper, split.1 < x := by
  induction t generalizing lower upper with
  | leaf bin => nofun
  | node bin pivot left right ihl ihr =>
    obtain ⟨hlower, hupper, hl, hr⟩ := h
    intro split hsplit
    rcases mem_append.1 hsplit with hsplit | hsplit
    · have hs := ihl hl split hsplit
      exact ⟨hs.1, fun x hx => (hs.2 pivot rfl).trans (hupper x hx)⟩
    rcases mem_cons.1 hsplit with rfl | hsplit
    · exact ⟨hlower, hupper⟩
    · have hs := ihr hr split hsplit
      exact ⟨fun x hx => (hlower x hx).trans (hs.1 pivot rfl), hs.2⟩

/-- So are the values at which it is split. -/
theorem Inside.splits {t : BinTree β μ ν} {lower upper : Option ν} (h : t.Inside lower upper) : ∀ record ∈ t.splits,
      (∀ x ∈ lower, x < record.splitValue) ∧ ∀ x ∈ upper, record.splitValue < x := by
  induction t generalizing lower upper with
  | leaf bin => nofun
  | node bin pivot left right ihl ihr =>
    obtain ⟨hlower, hupper, hl, hr⟩ := h
    intro record hrecord
    rcases mem_cons.1 hrecord with rfl | hrecord
    · exact ⟨hlower, hupper⟩
    rcases mem_append.1 hrecord with hrecord | hrecord
    · have hs := ihl hl record hrecord
      exact ⟨hs.1, fun x hx => (hs.2 pivot rfl).trans (hupper x hx)⟩
    · have hs := ihr hr record hrecord
      exact ⟨fun x hx => (hlower x hx).trans (hs.1 pivot rfl), hs.2⟩

theorem Inside.prune [DecidableEq β] {t : BinTree β μ ν} {lower upper : Option ν}
    {realized : Finset β} (h : t.Inside lower upper) : (t.prune realized).Inside lower upper := by
  induction t generalizing lower upper with
  | leaf bin => trivial
  | node bin pivot left right ihl ihr =>
    rw [BinTree.prune]
    split
    · exact ⟨h.1, h.2.1, ihl h.2.2.1, ihr h.2.2.2⟩
    · trivial

end

/-! ## Two spines with a split value between them -/

variable {β μ ν γ : Type} [Preorder ν] [DecidableLT ν] {index : μ × β → γ}

section
variable {value pivot : ν} {top top' bin : γ} {lower upper : List (ν × γ)}

theorem upperBound_of_lt (h : value < pivot) : upperBound value (lower ++ (pivot, bin) :: upper) =
      upperBound value lower ++ (pivot, bin) :: upper := by
  rw [upperBound, dropWhile_append]
  split
  · next hnil =>
    rw [upperBound, isEmpty_iff.1 hnil, dropWhile_cons_of_neg (by simpa using h)]
    rfl
  · rfl

theorem lowerPart_of_lt (h : value < pivot) :
    lowerPart value (lower ++ (pivot, bin) :: upper) = lowerPart value lower := by
  rw [lowerPart, lowerPart, takeWhile_append, takeWhile_cons_of_neg (by simpa using h), append_nil]
  split
  · next hlen => exact ((List.takeWhile_prefix _).eq_of_length hlen).symm
  · rfl

theorem upperBound_of_not_lt (h : ¬ value < pivot) (hl : ∀ split ∈ lower, ¬ value < split.1) :
    upperBound value (lower ++ (pivot, bin) :: upper) = upperBound value upper := by
  have hl' : ∀ split ∈ lower, decide ¬ value < split.1 := by simpa using hl
  rw [upperBound, dropWhile_append_of_pos hl', dropWhile_cons_of_pos (by simpa using h)]
  rfl

theorem lowerPart_of_not_lt (h : ¬ value < pivot) (hl : ∀ split ∈ lower, ¬ value < split.1) :
    lowerPart value (lower ++ (pivot, bin) :: upper) = lower ++ (pivot, bin) :: lowerPart value upper := by
  have hl' : ∀ split ∈ lower, decide ¬ value < split.1 := by simpa using hl
  rw [lowerPart, takeWhile_append_of_pos hl', takeWhile_cons_of_pos (by simpa using h)]
  rfl

omit [Preorder ν] [DecidableLT ν] in
@[simp] theorem binAt_append_cons : binAt top (lower ++ (pivot, bin) :: upper) = binAt bin lower := by
  cases lower <;> rfl

end

/-- The spine of a tree assigns a value the leaf that it comes to. -/
theorem binAt_entries {t : BinTree β μ ν} {lower upper : Option ν} (h : t.Inside lower upper)
    (value : ν) : binAt (t.topBin index) (upperBound value (t.entries index)) = index (t.route value) := by
  induction t generalizing lower upper with
  | leaf bin => rfl
  | node bin pivot left right ihl ihr =>
    obtain ⟨-, -, hl, hr⟩ := h
    rw [entries, route, topBin]
    split
    · next hlt => rw [upperBound_of_lt hlt, binAt_append_cons, ihl hl]
    · next hlt =>
      have hleft : ∀ split ∈ left.entries index, ¬ value < split.1 := fun split hsplit hv =>
        hlt (hv.trans ((hl.entries split hsplit).2 pivot rfl))
      rw [upperBound_of_not_lt hlt hleft, ihr hr]

/-! ## Splitting a leaf -/

/-- What `splitBin` does with the spine of `t` at the value of `record`: it replaces `pair`, and leaves the
spine of `t'`. -/
structure SplitsInto (index : μ × β → γ) (t t' : BinTree β μ ν) (record : SplitRecord β μ ν)
    (pair : μ × β) : Prop where
  isNew : IsNew record.splitValue (t.entries index)
  bin : binAt (t.topBin index) (upperBound record.splitValue (t.entries index)) = index pair
  entries : lowerPart record.splitValue (t.entries index) ++ (record.splitValue, index record.left) ::
    withBinAt (index record.right) (upperBound record.splitValue (t.entries index)) = t'.entries index
  topBin : topBinAt (t.topBin index) (index record.right)
    (upperBound record.splitValue (t.entries index)) = t'.topBin index

variable {t left right : BinTree β μ ν} {record : SplitRecord β μ ν} {pair b : μ × β} {pivot : ν}

/-- Below a split value the split changes what is left of it. -/
theorem SplitsInto.node_left {left' : BinTree β μ ν} (h : SplitsInto index left left' record pair)
    (hlt : record.splitValue < pivot) (hr : ∀ split ∈ right.entries index, pivot < split.1) :
    SplitsInto index (node b pivot left right) (node b pivot left' right) record pair := by
  refine ⟨?_, ?_, ?_, ?_⟩
  · intro split hsplit
    rcases mem_append.1 hsplit with hsplit | hsplit
    · exact h.isNew split hsplit
    rcases mem_cons.1 hsplit with rfl | hsplit
    · exact .inr hlt
    · exact .inr (hlt.trans (hr split hsplit))
  · rw [BinTree.entries, upperBound_of_lt hlt, binAt_append_cons, h.bin]
  · rw [BinTree.entries, upperBound_of_lt hlt, lowerPart_of_lt hlt, BinTree.entries, ← h.entries, ← h.topBin]
    cases upperBound record.splitValue (left.entries index) <;> simp [withBinAt, topBinAt]
  · rw [BinTree.entries, upperBound_of_lt hlt]
    cases upperBound record.splitValue (left.entries index) <;> rfl

/-- Above a split value it changes what is right of it. -/
theorem SplitsInto.node_right {right' : BinTree β μ ν} (h : SplitsInto index right right' record pair)
    (hlt : pivot < record.splitValue) (hl : ∀ split ∈ left.entries index, split.1 < pivot) :
    SplitsInto index (node b pivot left right) (node b pivot left right') record pair := by
  have hleft : ∀ split ∈ left.entries index, ¬ record.splitValue < split.1 := fun split hsplit hv =>
    lt_asymm (hlt.trans hv) (hl split hsplit)
  have hnot : ¬ record.splitValue < pivot := lt_asymm hlt
  refine ⟨?_, ?_, ?_, ?_⟩
  · intro split hsplit
    rcases mem_append.1 hsplit with hsplit | hsplit
    · exact .inl ((hl split hsplit).trans hlt)
    rcases mem_cons.1 hsplit with rfl | hsplit
    · exact .inl hlt
    · exact h.isNew split hsplit
  · rw [BinTree.entries, upperBound_of_not_lt hnot hleft]
    exact h.bin
  · rw [BinTree.entries, upperBound_of_not_lt hnot hleft, lowerPart_of_not_lt hnot hleft,
      BinTree.entries, ← h.entries, append_assoc, cons_append]
  · rw [BinTree.entries, upperBound_of_not_lt hnot hleft]
    exact h.topBin

/-- A leaf whose split is known next is replaced by the two bins of the split. -/
theorem splits_prune [DecidableEq β] {lower upper : Option ν} {realized : Finset β}
    (h : t.Inside lower upper) (hn : (t.bins.map Prod.snd).Nodup) (hc : Closed realized t)
    (hc' : Closed (insert record.bin realized) t) (hrecord : record ∈ t.splits) (hnot : record.bin ∉ realized) :
    ∃ pair ∈ t.bins, pair.2 = record.bin ∧
      SplitsInto index (t.prune realized) (t.prune (insert record.bin realized)) record pair := by
  induction t generalizing lower upper with
  | leaf bin => cases hrecord
  | node bin pivot left right ihl ihr =>
    obtain ⟨-, -, hl, hr⟩ := h
    rw [bins, List.map_cons, map_append, nodup_cons, nodup_append', mem_append, not_or] at hn
    obtain ⟨⟨hbl, hbr⟩, hnl, hnr, hdisj⟩ := hn
    have hmem : ∀ {t : BinTree β μ ν}, record ∈ t.splits → record.bin ∈ t.bins.map Prod.snd :=
      fun {t} hs => t.splits_sublist.subset (mem_map_of_mem hs)
    have hbin : record ∈ left.splits ++ right.splits → bin.2 ∈ realized ∧ bin.2 ≠ record.bin := by
      intro hs
      have hne : bin.2 ≠ record.bin := by
        rintro he
        rcases mem_append.1 hs with hs | hs
        · exact hbl (he ▸ hmem hs)
        · exact hbr (he ▸ hmem hs)
      refine ⟨by_contra fun hb => ?_, hne⟩
      have hb' : bin.2 ∉ insert record.bin realized := by simp [hb, hne]
      exact hc'.notMem hb' record hrecord (mem_insert_self _ _)
    rcases mem_cons.1 hrecord with rfl | hs
    · -- nothing below the bin is realized yet
      have hbelow : ∀ {t' : BinTree β μ ν}, t' = left ∨ t' = right → bin.2 ∉ t'.bins.map Prod.snd →
          t'.prune (insert bin.2 realized) = leaf t'.bin := by
        intro t' ht' hnotin
        rw [prune_insert_of_notMem hnotin]
        cases t' with
        | leaf bin' => rfl
        | node bin' splitValue' left' right' =>
          refine prune_of_notMem fun hin => hnot (hc _
            ⟨bin'.2, left'.bin, right'.bin, splitValue'⟩ ⟨hrecord, .tail _ ?_, ?_⟩ hin)
          · rcases ht' with rfl | rfl
            · exact mem_append_left _ (.head _)
            · exact mem_append_right _ (.head _)
          · rcases ht' with rfl | rfl
            · exact .inl rfl
            · exact .inr rfl
      refine ⟨bin, .head _, rfl, ?_⟩
      rw [prune_of_notMem hnot, prune, if_pos (mem_insert_self _ _), hbelow (.inl rfl) hbl, hbelow (.inr rfl) hbr]
      exact ⟨by simp [IsNew, entries], rfl, rfl, rfl⟩
    obtain ⟨hb, hne⟩ := hbin hs
    rw [prune, prune, if_pos hb, if_pos (mem_insert_of_mem hb)]
    rcases mem_append.1 hs with hs | hs
    · obtain ⟨pair, hpair, he, hsplit⟩ := ihl hl hnl hc.left hc'.left hs
      refine ⟨pair, .tail _ (mem_append_left _ hpair), he, ?_⟩
      rw [prune_insert_of_notMem (hdisj (hmem hs))]
      exact hsplit.node_left ((hl.splits record hs).2 pivot rfl) fun split hsplit =>
        (hr.prune.entries split hsplit).1 pivot rfl
    · obtain ⟨pair, hpair, he, hsplit⟩ := ihr hr hnr hc.right hc'.right hs
      refine ⟨pair, .tail _ (mem_append_right _ hpair), he, ?_⟩
      rw [prune_insert_of_notMem fun hin => hdisj hin (hmem hs)]
      exact hsplit.node_right ((hr.splits record hs).1 pivot rfl) fun split hsplit =>
        (hl.prune.entries split hsplit).2 pivot rfl

end DataTasks.BinTree
