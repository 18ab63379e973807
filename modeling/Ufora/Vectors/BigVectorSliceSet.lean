import Ufora.Containers.ImmutableTreeSet
import Ufora.Lib.Interval
import Ufora.Lib.Rank
import Ufora.Pages.Basic

/-!
# `BigVectorSliceSet`

`FORA/VectorDataManager/BigVectorSliceSet.cppml`: a set of indices of vectors, as slices that do not overlap
and do not touch. A slice that is added is merged with the slice below it in the order of the set, or
with the one above it, for as long as there is one that it meets.

The `ImmutableTreeSet` is the ordered set that it stands for, read by index.
-/

open Ordered Rank Finset Option LineInterval Set

namespace Fora

/-- `BigVectorSlice`: compared field by field. -/
structure BigVectorSlice where
  identity : Hash
  indexLow : ℕ
  indexHigh : ℕ

namespace BigVectorSlice

/-- The tuple that the comparison operators compare. -/
def fields (s : BigVectorSlice) : ℕ ×ₗ ℕ ×ₗ ℕ := toLex (s.identity, toLex (s.indexLow, s.indexHigh))

theorem fields_injective : Function.Injective fields := by
  rintro ⟨a, b, c⟩ ⟨a', b', c'⟩ h
  cases h
  rfl

instance : LinearOrder BigVectorSlice := LinearOrder.lift' fields fields_injective

theorem lt_iff {s t : BigVectorSlice} : s < t ↔ s.identity < t.identity ∨
    s.identity = t.identity ∧ (s.indexLow < t.indexLow ∨ s.indexLow = t.indexLow ∧ s.indexHigh < t.indexHigh) := by
  show fields s < fields t ↔ _
  simp only [fields, Prod.Lex.toLex_lt_toLex]

theorem identity_le {s t : BigVectorSlice} (h : s ≤ t) : s.identity ≤ t.identity := by
  rcases h.eq_or_lt with rfl | h
  · exact le_rfl
  · exact (lt_iff.1 h).elim le_of_lt fun h => h.1.le

/-- The indices of a slice, on the line of its vector. -/
def interval (s : BigVectorSlice) : LineInterval Hash ℕ := ⟨s.identity, s.indexLow, s.indexHigh⟩

theorem interval_injective : Function.Injective interval := by
  rintro ⟨a, b, c⟩ ⟨a', b', c'⟩ h
  cases h
  rfl

/-- The slice that the two are merged to. -/
def merge (other slice : BigVectorSlice) : BigVectorSlice :=
  ⟨slice.identity, min other.indexLow slice.indexLow, max slice.indexHigh other.indexHigh⟩

theorem interval_merge {other slice : BigVectorSlice} :
    (other.merge slice).interval = other.interval.hull slice.interval := rfl

end BigVectorSlice

open BigVectorSlice

/-- `BigVectorSliceSet`. -/
structure BigVectorSliceSet where
  slices : Finset BigVectorSlice := ∅

namespace BigVectorSliceSet

variable (s : BigVectorSliceSet)

/-- `size()`. -/
def size : ℕ := s.slices.card

/-- A tree that holds the slices is read as the set is read here. -/
theorem represents_read {t : ImmutableTreeSet BigVectorSlice} {s : Finset BigVectorSlice}
    (h : t.Represents (ascending s)) : t.size = s.card ∧ (∀ x, t.lowerBound x = some (rank s x)) ∧
      (∀ k, t.get k = at? s k) ∧ ∀ x, t.contains x = some (decide (x ∈ s)) := by
  refine ⟨h.size.trans (length_ascending s), h.lowerBound, h.get, fun x => ?_⟩
  rw [h.contains x, some_inj, decide_eq_decide]
  constructor
  · rintro ⟨y, hy, hyx, hxy⟩
    rw [← le_antisymm (not_lt.1 hxy) (not_lt.1 hyx)]
    exact mem_ascending.1 hy
  · intro hx
    exact ⟨x, mem_ascending.2 hx, lt_irrefl x, lt_irrefl x⟩

/-- The slice below, where `operator+` merges with it. -/
def mergedBelow (s : Finset BigVectorSlice) (slice : BigVectorSlice) : Option BigVectorSlice :=
  let index := rank s slice
  if 0 < index then
    (at? s (index - 1)).filter fun below =>
      slice.indexLow ≤ below.indexHigh ∧ below.identity = slice.identity
  else none

/-- The slice above, where `operator+` merges with it. -/
def mergedAbove (s : Finset BigVectorSlice) (slice : BigVectorSlice) : Option BigVectorSlice :=
  let index := rank s slice
  if index < s.card - 1 then
    (at? s (index + 1)).filter fun above =>
      above.indexLow ≤ slice.indexHigh ∧ above.identity = slice.identity
  else none

section
variable {s : Finset BigVectorSlice} {slice other : BigVectorSlice}

theorem mergedBelow_eq_some (h : mergedBelow s slice = some other) :
    IsGreatest {b | b ∈ s ∧ b < slice} other ∧ slice.indexLow ≤ other.indexHigh ∧ other.identity = slice.identity := by
  unfold mergedBelow at h
  dsimp only at h
  split at h
  · rename_i hr
    obtain ⟨ha, hc⟩ := filter_eq_some_iff.1 h
    exact ⟨isGreatest_below ha hr, of_decide_eq_true hc⟩
  · cases h

theorem mergedAbove_eq_some (hs : slice ∈ s) (h : mergedAbove s slice = some other) :
    IsLeast {b | b ∈ s ∧ slice < b} other ∧ other.indexLow ≤ slice.indexHigh ∧ other.identity = slice.identity := by
  unfold mergedAbove at h
  dsimp only at h
  split at h
  · obtain ⟨ha, hc⟩ := filter_eq_some_iff.1 h
    exact ⟨isLeast_above hs ha, of_decide_eq_true hc⟩
  · cases h

/-- A merge with a neighbour leaves fewer slices. -/
theorem card_erase_lt {t : Finset BigVectorSlice} (hm : other ∈ insert slice t) (hne : other ≠ slice) :
    (((insert slice t).erase slice).erase other).card < t.card := by
  have hmem : other ∈ t := (mem_insert.1 hm).resolve_left hne
  have hsub : ((insert slice t).erase slice).erase other ⊆ t.erase other := by
    rw [erase_insert_eq_erase]
    exact erase_subset_erase _ (erase_subset _ _)
  exact (Finset.card_le_card hsub).trans_lt (card_erase_lt_of_mem hmem)

end

/-- `operator+(slice)`. It ends, as every call is made with fewer slices. -/
def addSlice (s : BigVectorSliceSet) (slice : BigVectorSlice) : BigVectorSliceSet :=
  if slice.indexHigh ≤ slice.indexLow then s
  else
    let t := insert slice s.slices
    match _hb : mergedBelow t slice with
    | some below => addSlice ⟨(t.erase slice).erase below⟩ (below.merge slice)
    | none =>
      match _ha : mergedAbove t slice with
      | some above => addSlice ⟨(t.erase slice).erase above⟩ (above.merge slice)
      | none => ⟨t⟩
termination_by s.slices.card
decreasing_by
  · have h := (mergedBelow_eq_some _hb).1.1
    exact card_erase_lt h.1 h.2.ne
  · have h := (mergedAbove_eq_some (mem_insert_self _ _) _ha).1.1
    exact card_erase_lt h.1 h.2.ne'

/-- `operator+(slices)`. -/
def add (slices : BigVectorSliceSet) : BigVectorSliceSet := (ascending slices.slices).foldl addSlice s

/-- `anyRangeOverlap()`. -/
def anyRangeOverlap : Bool := (List.range (s.size - 1)).any fun k =>
    match at? s.slices k, at? s.slices (k + 1) with
    | some a, some b => decide (a.identity = b.identity ∧ b.indexLow ≤ a.indexHigh)
    | _, _ => false

variable (slice : BigVectorSlice)

/-- The position that `covers` settles on, where it is not before the first slice. -/
def candidatePosition : Option ℕ :=
  let lowerBound := rank s.slices slice
  let here := (at? s.slices lowerBound).any fun found =>
    found.identity = slice.identity ∧ found.indexLow = slice.indexLow
  if here then some lowerBound else if 0 < lowerBound then some (lowerBound - 1) else none

/-- `covers(slice)`. -/
def covers : Bool :=
  if s.size = 0 then false
  else if slice ∈ s.slices then true
  else
    match (s.candidatePosition slice).bind (at? s.slices) with
    | none => false
    | some candidate =>
      candidate.identity = slice.identity ∧ candidate.indexLow ≤ slice.indexLow ∧ slice.indexHigh ≤ candidate.indexHigh

/-- The indices of vectors in the set. -/
def indices : Set (Hash × ℕ) := cover (interval '' s.slices)

/-- No slice is empty and no two slices of one vector overlap or touch. -/
def Separated : Prop := LineInterval.Tidy (interval '' (s.slices : Set BigVectorSlice))

/-! ## Adding a slice -/

section
variable {t : Finset BigVectorSlice} {slice other a b : BigVectorSlice}

theorem interval_image_insert : interval '' (insert slice t : Finset BigVectorSlice) =
    insert slice.interval (interval '' (t : Set BigVectorSlice)) := by
  rw [coe_insert, image_insert_eq]

theorem interval_image_erase : interval '' (t.erase slice : Finset BigVectorSlice) =
    interval '' (t : Set BigVectorSlice) \ {slice.interval} := by
  rw [coe_erase, image_sdiff interval_injective, image_singleton]

/-- Merging with a neighbour adds the slice. -/
theorem cover_erase (hm : other ∈ insert slice t) (hother : other ≠ slice)
    (hmeets : other.interval.Meets slice.interval) :
    cover (interval ''
      (((insert slice t).erase slice).erase other : Finset BigVectorSlice)) ∪ (other.merge slice).interval.toSet =
      cover (interval '' (t : Set BigVectorSlice)) ∪ slice.interval.toSet := by
  have hmem : other.interval ∈ interval '' (t : Set BigVectorSlice) \ {slice.interval} :=
    ⟨⟨other, (mem_insert.1 hm).resolve_left hother, rfl⟩, fun he => hother (interval_injective he)⟩
  rw [erase_insert_eq_erase, interval_image_erase, interval_image_erase,
    interval_merge, hmeets.cover_diff_union hmem,
    ← cover_singleton slice.interval, ← cover_union,
    ← cover_union, sdiff_union_self]

/-- What is left is separated. -/
theorem separated_erase {s : BigVectorSliceSet} (hs : s.Separated) :
    Separated ⟨((insert slice s.slices).erase slice).erase other⟩ := by
  refine hs.mono ?_
  rw [erase_insert_eq_erase]
  exact image_mono ((erase_subset _ _).trans (erase_subset _ _))

variable (ht : LineInterval.Tidy (interval '' (t : Set BigVectorSlice)))

include ht

theorem lt_indexHigh (ha : a ∈ t) : a.indexLow < a.indexHigh := ht.nonempty _ ⟨a, ha, rfl⟩

/-- Slices of one vector are in the order of their indices, with gaps. -/
theorem indexHigh_lt (ha : a ∈ t) (hb : b ∈ t) (hi : a.identity = b.identity) (hlt : a < b) :
    a.indexHigh < b.indexLow := by
  have hne : a.interval ≠ b.interval := fun he => hlt.ne (interval_injective he)
  rcases ht.lt_or_lt ⟨a, ha, rfl⟩ ⟨b, hb, rfl⟩ hi hne with h | h
  · exact h
  · have h2 := lt_indexHigh ht hb
    have h : b.indexHigh < a.indexLow := h
    rcases lt_iff.1 hlt with h' | ⟨-, h'⟩
    · exact absurd h' (hi ▸ lt_irrefl _)
    · omega

/-- A slice that meets the one that is added and comes before it: the slice below does too. -/
theorem mergedBelow_isSome (ha : a ∈ t) (hlt : a < slice)
    (hi : a.identity = slice.identity) (hm : slice.indexLow ≤ a.indexHigh) :
    (mergedBelow (insert slice t) slice).isSome := by
  have hr := rank_pos_of_lt (mem_insert_of_mem (b := slice) ha) hlt
  obtain ⟨below, hb⟩ := exists_below hr
  have hg := isGreatest_below hb hr
  have hbt : below ∈ t := (mem_insert.1 hg.1.1).resolve_left hg.1.2.ne
  have hle := hg.2 ⟨mem_insert_of_mem ha, hlt⟩
  have hid : below.identity = slice.identity := le_antisymm (identity_le hg.1.2.le)
    (hi ▸ identity_le hle)
  have hmeets : slice.indexLow ≤ below.indexHigh := by
    rcases hle.eq_or_lt with rfl | h2
    · exact hm
    · have hgap := indexHigh_lt ht ha hbt (hi.trans hid.symm) h2
      have := lt_indexHigh ht hbt
      omega
  unfold mergedBelow
  rw [if_pos hr, hb, filter_some, if_pos (by simp [hid, hmeets])]
  rfl

/-- A slice that meets the one that is added and comes after it: the slice above does too. -/
theorem mergedAbove_isSome (ha : a ∈ t) (hlt : slice < a) (hi : a.identity = slice.identity)
    (hm : a.indexLow ≤ slice.indexHigh) : (mergedAbove (insert slice t) slice).isSome := by
  have hs := mem_insert_self slice t
  have hr := exists_above hs (mem_insert_of_mem ha) hlt
  obtain ⟨above, hb⟩ := at?_isSome_iff.2 hr
  have hg := isLeast_above hs hb
  have hbt : above ∈ t := (mem_insert.1 hg.1.1).resolve_left hg.1.2.ne'
  have hle := hg.2 ⟨mem_insert_of_mem ha, hlt⟩
  have hid : above.identity = slice.identity := le_antisymm
    (hi ▸ identity_le hle) (identity_le hg.1.2.le)
  have hmeets : above.indexLow ≤ slice.indexHigh := by
    rcases hle.eq_or_lt with rfl | h2
    · exact hm
    · have hgap := indexHigh_lt ht hbt ha (hid.trans hi.symm) h2
      have := lt_indexHigh ht hbt
      omega
  unfold mergedAbove
  rw [if_pos (Nat.lt_sub_of_add_lt hr), hb, filter_some, if_pos (by simp [hid, hmeets])]
  rfl

/-- Where no neighbour is merged, the slice meets none of the others. -/
theorem not_meets (hnew : slice ∉ t) (hbelow : mergedBelow (insert slice t) slice = none)
    (habove : mergedAbove (insert slice t) slice = none) :
    ∀ r ∈ interval '' (t : Set BigVectorSlice), ¬ r.Meets slice.interval := by
  rintro _ ⟨a, ha, rfl⟩ ⟨hi, hlo, hhi⟩
  rcases lt_trichotomy a slice with hlt | rfl | hlt
  · have := mergedBelow_isSome ht ha hlt hi hhi
    rw [hbelow] at this
    cases this
  · exact hnew ha
  · have := mergedAbove_isSome ht ha hlt hi hlo
    rw [habove] at this
    cases this

end

/-- Adding a slice adds its indices and keeps the set separated. -/
theorem addSlice_correct (hs : s.Separated) :
    (s.addSlice slice).indices = s.indices ∪ slice.interval.toSet ∧ (s.addSlice slice).Separated := by
  induction s, slice using addSlice.induct with
  | case1 s slice hempty =>
    rw [addSlice, if_pos hempty]
    have hnone : slice.interval.toSet = ∅ := by
      refine eq_empty_of_forall_notMem fun p hp => ?_
      exact absurd (hp.2.1.trans_lt hp.2.2) hempty.not_gt
    rw [hnone, union_empty]
    exact ⟨rfl, hs⟩
  | case2 s slice hne t below hb ih =>
    have heq : s.addSlice slice = addSlice ⟨(t.erase slice).erase below⟩ (below.merge slice) := by
      rw [addSlice, if_neg hne]
      dsimp only
      split
      · rename_i below' hb'
        cases hb.symm.trans hb'
        rfl
      · next hb' => cases hb.symm.trans hb'
    obtain ⟨hg, hmeets, hi⟩ := mergedBelow_eq_some hb
    obtain ⟨hd, hsep⟩ := ih (separated_erase hs)
    have hlow : below.indexLow ≤ slice.indexHigh := by
      rcases lt_iff.1 hg.1.2 with h | ⟨-, h⟩
      · exact absurd h (hi ▸ lt_irrefl _)
      · omega
    rw [heq]
    refine ⟨hd.trans ?_, hsep⟩
    exact cover_erase hg.1.1 hg.1.2.ne ⟨hi, hlow, hmeets⟩
  | case3 s slice hne t hb above ha ih =>
    have heq : s.addSlice slice = addSlice ⟨(t.erase slice).erase above⟩ (above.merge slice) := by
      rw [addSlice, if_neg hne]
      dsimp only
      split
      · next below' hb' => cases hb.symm.trans hb'
      · split
        · rename_i above' ha'
          cases ha.symm.trans ha'
          rfl
        · next ha' => cases ha.symm.trans ha'
    obtain ⟨hg, hmeets, hi⟩ := mergedAbove_eq_some (mem_insert_self _ _) ha
    obtain ⟨hd, hsep⟩ := ih (separated_erase hs)
    have hhigh : slice.indexLow ≤ above.indexHigh := by
      have := lt_indexHigh hs ((mem_insert.1 hg.1.1).resolve_left hg.1.2.ne')
      rcases lt_iff.1 hg.1.2 with h | ⟨-, h⟩
      · exact absurd h (hi ▸ lt_irrefl _)
      · omega
    rw [heq]
    refine ⟨hd.trans ?_, hsep⟩
    exact cover_erase hg.1.1 hg.1.2.ne' ⟨hi, hmeets, hhigh⟩
  | case4 s slice hne t hb ha =>
    have heq : s.addSlice slice = ⟨insert slice s.slices⟩ := by
      rw [addSlice, if_neg hne]
      dsimp only
      split
      · next below' hb' => cases hb.symm.trans hb'
      · split
        · next above' ha' => cases ha.symm.trans ha'
        · rfl
    rw [heq]
    unfold Separated indices
    rw [interval_image_insert, insert_eq, cover_union, cover_singleton, union_comm, ← insert_eq]
    refine ⟨rfl, ?_⟩
    by_cases hnew : slice ∈ s.slices
    · rw [insert_eq_of_mem (mem_image_of_mem _ hnew)]
      exact hs
    · exact hs.insert (not_le.1 hne) (not_meets hs hnew hb ha)

/-- Adding a set adds its indices and keeps the set separated. -/
theorem add_correct {s u : BigVectorSliceSet} (hs : s.Separated) :
    (s.add u).indices = s.indices ∪ u.indices ∧ (s.add u).Separated := by
  have key : ∀ (l : List BigVectorSlice) (s : BigVectorSliceSet), s.Separated → (l.foldl addSlice s).indices =
        s.indices ∪ cover (interval '' {x | x ∈ l}) ∧
      (l.foldl addSlice s).Separated := by
    intro l
    induction l with
    | nil => simp
    | cons x l ih =>
      intro s hs
      obtain ⟨hi, hsep⟩ := addSlice_correct s x hs
      obtain ⟨hi', hsep'⟩ := ih (s.addSlice x) hsep
      have hcons : {y | y ∈ x :: l} = {x} ∪ {y | y ∈ l} := by
        ext y
        simp
      refine ⟨hi'.trans ?_, hsep'⟩
      rw [hi, hcons, image_union, image_singleton, cover_union, cover_singleton, union_assoc]
  have hlist : {x | x ∈ ascending u.slices} = (u.slices : Set BigVectorSlice) := by
    ext x
    simp
  have h := key (ascending u.slices) s hs
  rw [hlist] at h
  exact h

theorem not_anyRangeOverlap {s : BigVectorSliceSet} (hs : s.Separated) : s.anyRangeOverlap = false := by
  unfold anyRangeOverlap
  rw [List.any_eq_false]
  intro k hk
  split
  · rename_i a b ha hb
    have hlt := (lt_iff_lt ha hb).2 (Nat.lt_succ_self k)
    rw [decide_eq_true_iff]
    rintro ⟨hi, hle⟩
    exact absurd (indexHigh_lt hs (mem_of_at? ha) (mem_of_at? hb) hi hlt) hle.not_gt
  · exact Bool.false_ne_true

/-! ## Searching for a slice -/

/-- The candidate is the slice that has all the indices, if there is one. -/
theorem candidate_covers {s : BigVectorSliceSet} {slice c : BigVectorSlice} (hs : s.Separated)
    (hne : slice.indexLow < slice.indexHigh) (hc : c ∈ s.slices) (hi : c.identity = slice.identity)
    (hlow : c.indexLow ≤ slice.indexLow) (hhigh : slice.indexHigh ≤ c.indexHigh) :
    ∃ candidate, (s.candidatePosition slice).bind (at? s.slices) = some candidate ∧
      candidate.identity = slice.identity ∧ candidate.indexLow ≤ slice.indexLow ∧
      slice.indexHigh ≤ candidate.indexHigh := by
  unfold candidatePosition
  dsimp only
  rcases hlow.eq_or_lt with he | hlt
  · -- the first slice that is not less starts where `slice` does
    have hle : slice ≤ c := by
      refine not_lt.1 fun h => ?_
      rcases lt_iff.1 h with h | ⟨-, h⟩
      · exact absurd h (hi ▸ lt_irrefl _)
      · omega
    obtain ⟨found, hf⟩ := exists_at hc hle
    have hl := isLeast_at hf
    have hfi : found.identity = slice.identity :=
      le_antisymm (hi ▸ identity_le (hl.2 ⟨hc, hle⟩)) (identity_le hl.1.2)
    have hfl : found.indexLow = slice.indexLow ∧ slice.indexHigh ≤ found.indexHigh := by
      have h1 := mt lt_iff.2 hl.1.2.not_gt
      have h2 := mt lt_iff.2 (hl.2 ⟨hc, hle⟩).not_gt
      simp only [hfi, hi, lt_irrefl, false_or, true_and, not_or, not_lt, not_and] at h1 h2
      omega
    refine ⟨found, ?_, hfi, hfl.1.le, hfl.2⟩
    rw [hf, if_pos (by simp [hfi, hfl.1])]
    exact hf
  · -- no slice starts where `slice` does, and the one with its indices is the last one before
    have hclt : c < slice := lt_iff.2 (.inr ⟨hi, .inl hlt⟩)
    have hnot : (at? s.slices (rank s.slices slice)).any (fun found =>
        decide (found.identity = slice.identity ∧ found.indexLow = slice.indexLow)) = false := by
      refine Bool.eq_false_iff.2 fun h => ?_
      cases hf : at? s.slices (rank s.slices slice) with
      | none =>
        rw [hf] at h
        cases h
      | some found =>
        rw [hf, any_some, decide_eq_true_iff] at h
        have hcf : c < found := lt_iff.2 (.inr ⟨hi.trans h.1.symm, .inl (h.2 ▸ hlt)⟩)
        have hgap := indexHigh_lt hs hc (mem_of_at? hf) (hi.trans h.1.symm) hcf
        omega
    have hr := rank_pos_of_lt hc hclt
    obtain ⟨below, hb⟩ := exists_below hr
    have hg := isGreatest_below hb hr
    have hbc : c = below := by
      rcases (hg.2 ⟨hc, hclt⟩).eq_or_lt with he | h
      · exact he
      · have hbi : below.identity = slice.identity :=
          le_antisymm (identity_le hg.1.2.le) (hi ▸ identity_le h.le)
        have hgap := indexHigh_lt hs hc hg.1.1 (hi.trans hbi.symm) h
        rcases lt_iff.1 hg.1.2 with h' | ⟨-, h'⟩
        · exact absurd h' (hbi ▸ lt_irrefl _)
        · omega
    refine ⟨c, ?_, hi, hlow, hhigh⟩
    rw [hnot, if_neg Bool.false_ne_true, if_pos hr]
    exact hbc ▸ hb

theorem covers_iff {s : BigVectorSliceSet} {slice : BigVectorSlice} (hs : s.Separated)
    (hne : slice.indexLow < slice.indexHigh) :
    s.covers slice = true ↔ slice.interval.toSet ⊆ s.indices := by
  have hpiece := LineInterval.Tidy.toSet_subset_cover_iff (r := slice.interval) hs hne
  refine Iff.trans ?_ hpiece.symm
  constructor
  · intro h
    unfold covers at h
    split at h
    · cases h
    · split at h
      · next hm => exact ⟨slice.interval, ⟨slice, hm, rfl⟩, rfl, le_rfl, le_rfl⟩
      · split at h
        · cases h
        · rename_i candidate hc
          obtain ⟨k, -, hk⟩ := bind_eq_some_iff.1 hc
          exact ⟨candidate.interval, ⟨candidate, mem_of_at? hk, rfl⟩, of_decide_eq_true h⟩
  · rintro ⟨_, ⟨c, hc, rfl⟩, hi, hlow, hhigh⟩
    obtain ⟨candidate, hcand, hcov⟩ := candidate_covers hs hne hc hi hlow hhigh
    unfold covers
    have hsize : s.size ≠ 0 := (card_pos.2 ⟨c, hc⟩).ne'
    rw [if_neg hsize]
    split
    · rfl
    · rw [hcand]
      exact decide_eq_true hcov

/-! ## Every set that is built -/

/-- A set, as it is built. -/
inductive Expr
  | empty
  | addSlice (s : Expr) (slice : BigVectorSlice)
  | add (s slices : Expr)

/-- The set that is built. -/
def Expr.eval : Expr → BigVectorSliceSet
  | .empty => {}
  | .addSlice s slice => s.eval.addSlice slice
  | .add s slices => s.eval.add slices.eval

/-- The slices that were added to it. -/
def Expr.added : Expr → Set BigVectorSlice
  | .empty => ∅
  | .addSlice s slice => insert slice s.added
  | .add s slices => s.added ∪ slices.added

/-- What a set should be, given the slices that were added to it: it has their indices, no two of its
slices overlap or touch, and it covers what it has. -/
structure Correct (s : BigVectorSliceSet) (added : Set BigVectorSlice) : Prop where
  indices : s.indices = {p | ∃ slice ∈ added, p.1 = slice.identity ∧ slice.indexLow ≤ p.2 ∧ p.2 < slice.indexHigh}
  apart : ∀ a ∈ s.slices, ∀ b ∈ s.slices, a ≠ b → a.identity = b.identity →
    a.indexHigh < b.indexLow ∨ b.indexHigh < a.indexLow
  noOverlap : s.anyRangeOverlap = false
  covers : ∀ slice, slice.indexLow < slice.indexHigh → (s.covers slice = true ↔
      ∀ index, slice.indexLow ≤ index → index < slice.indexHigh → (slice.identity, index) ∈ s.indices)

theorem Expr.eval_indices (e : Expr) :
    e.eval.indices = cover (interval '' e.added) ∧ e.eval.Separated := by
  induction e with
  | empty =>
    unfold eval added BigVectorSliceSet.indices Separated
    rw [coe_empty, image_empty]
    exact ⟨rfl, tidy_empty⟩
  | addSlice s slice ih =>
    obtain ⟨hi, hs⟩ := addSlice_correct s.eval slice ih.2
    refine ⟨hi.trans ?_, hs⟩
    rw [ih.1, added, insert_eq, image_union, image_singleton, cover_union, cover_singleton, union_comm]
  | add s slices ih ih' =>
    obtain ⟨hi, hs⟩ := add_correct (u := slices.eval) ih.2
    refine ⟨hi.trans ?_, hs⟩
    rw [ih.1, ih'.1, added, image_union, cover_union]

/-- Every set that is built from slices and other sets is what it should be. -/
theorem Expr.eval_correct (e : Expr) : Correct e.eval e.added := by
  obtain ⟨hi, hs⟩ := e.eval_indices
  refine ⟨?_, fun a ha b hb hne hid => ?_, not_anyRangeOverlap hs, fun slice hlt => ?_⟩
  · rw [hi]
    ext p
    simp only [mem_cover, exists_mem_image, mem_toSet, mem_ofPred_eq]
    rfl
  · exact hs.lt_or_lt ⟨a, ha, rfl⟩ ⟨b, hb, rfl⟩ hid fun he => hne (interval_injective he)
  · rw [covers_iff hs hlt]
    constructor
    · intro h index hlow hhigh
      exact h ⟨rfl, hlow, hhigh⟩
    · rintro h ⟨identity, index⟩ ⟨rfl, hlow, hhigh⟩
      exact h index hlow hhigh

end BigVectorSliceSet

end Fora
