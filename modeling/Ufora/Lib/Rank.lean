import Ufora.Lib.Ordered

/-!
# Ordered sets by index

An ordered set read by the index of its elements and searched for the index at which a value is or would
be. `lt_iff_lt_rank` and `lt_iff_lt` say what an index tells about its element; what stands next to a
search position follows (`isGreatest_below`, `isLeast_at`, `isLeast_above`).
-/

open Ordered List

namespace Rank

variable {α : Type} [LinearOrder α]

/-- How many elements of a set come before a value: what a search for the value returns. -/
def rank (s : Finset α) (x : α) : ℕ := ((ascending s).takeWhile (· < x)).length

/-- The element at an index. -/
def at? (s : Finset α) (k : ℕ) : Option α := (ascending s)[k]?

variable {s : Finset α} {x a b : α} {i j k : ℕ}

theorem mem_of_at? (h : at? s k = some a) : a ∈ s := mem_ascending.1 (mem_of_getElem? h)

theorem exists_at? (h : a ∈ s) : ∃ k, at? s k = some a := getElem?_of_mem (mem_ascending.2 h)

theorem at?_isSome_iff : (∃ a, at? s k = some a) ↔ k < s.card := by
  rw [← Option.isSome_iff_exists, at?, ← length_ascending]
  simp

theorem strictlyAscending (s : Finset α) : (ascending s).Pairwise (· < ·) :=
  ((pairwise_ascending s).and (ascending_nodup s)).imp fun h => lt_of_le_of_ne h.1 h.2

/-- Indices are in the order of their elements. -/
theorem lt_iff_lt (ha : at? s i = some a) (hb : at? s j = some b) : a < b ↔ i < j := by
  obtain ⟨hi, rfl⟩ := List.getElem?_eq_some_iff.1 ha
  obtain ⟨hj, rfl⟩ := List.getElem?_eq_some_iff.1 hb
  have hlt {i j : ℕ} (hi : i < (ascending s).length) (hj : j < (ascending s).length) (h : i < j) :
      (ascending s)[i] < (ascending s)[j] := pairwise_iff_getElem.1 (strictlyAscending s) i j hi hj h
  constructor
  · intro h
    rcases lt_trichotomy i j with hc | hc | hc
    · exact hc
    · subst hc
      exact absurd h (lt_irrefl _)
    · exact absurd h (hlt hj hi hc).asymm
  · exact hlt hi hj

theorem rank_le_card : rank s x ≤ s.card := by
  rw [← length_ascending s]
  exact (List.takeWhile_prefix _).length_le

/-- The elements before a value are those whose index is below its rank. -/
theorem lt_iff_lt_rank (ha : at? s i = some a) : a < x ↔ i < rank s x := by
  have hsplit := takeWhile_append_dropWhile (p := (· < x)) (l := ascending s)
  unfold at? at ha
  rw [← hsplit] at ha
  constructor
  · intro hlt
    refine not_le.1 fun hle => ?_
    rw [getElem?_append_right hle] at ha
    cases hd : (ascending s).dropWhile (· < x) with
    | nil => simp [hd] at ha
    | cons b l =>
      -- the first element that is not taken is not less than the value, and no later one is
      have hb : ¬ b < x := by
        have := head?_dropWhile_not (· < x) (ascending s)
        simpa [hd] using this
      have hpair := (strictlyAscending s).sublist (dropWhile_sublist (· < x))
      rw [hd] at ha hpair
      rcases mem_cons.1 (mem_of_getElem? ha) with rfl | hm
      · exact hb hlt
      · exact hb (((pairwise_cons.1 hpair).1 a hm).trans hlt)
  · intro hi
    rw [getElem?_append_left hi] at ha
    simpa using mem_takeWhile_imp (mem_of_getElem? ha)

/-- The element before the position at which a value is searched. -/
theorem isGreatest_below (h : at? s (rank s x - 1) = some a) (hr : 0 < rank s x) :
    IsGreatest {b | b ∈ s ∧ b < x} a := by
  refine ⟨⟨mem_of_at? h, (lt_iff_lt_rank h).2 (Nat.sub_lt hr one_pos)⟩, fun b hb => ?_⟩
  obtain ⟨j, hj⟩ := exists_at? hb.1
  have hlt := (lt_iff_lt_rank hj).1 hb.2
  refine not_lt.1 fun hab => ?_
  have := (lt_iff_lt h hj).1 hab
  omega

theorem rank_pos_of_lt (hb : b ∈ s) (h : b < x) : 0 < rank s x := by
  obtain ⟨j, hj⟩ := exists_at? hb
  exact Nat.zero_lt_of_lt ((lt_iff_lt_rank hj).1 h)

/-- There is an element before a position other than the first. -/
theorem exists_below (hr : 0 < rank s x) : ∃ a, at? s (rank s x - 1) = some a := by
  have := rank_le_card (s := s) (x := x)
  exact at?_isSome_iff.2 (by omega)

/-- The element at the position at which a value is searched. -/
theorem isLeast_at (h : at? s (rank s x) = some a) : IsLeast {b | b ∈ s ∧ x ≤ b} a := by
  refine ⟨⟨mem_of_at? h, not_lt.1 fun hlt => lt_irrefl _ ((lt_iff_lt_rank h).1 hlt)⟩, fun b hb => ?_⟩
  obtain ⟨j, hj⟩ := exists_at? hb.1
  refine not_lt.1 fun hba => ?_
  exact hb.2.not_gt ((lt_iff_lt_rank hj).2 ((lt_iff_lt hj h).1 hba))

/-- There is an element at the position, where one is not less than the value. -/
theorem exists_at (hb : b ∈ s) (h : x ≤ b) : ∃ a, at? s (rank s x) = some a := by
  obtain ⟨j, hj⟩ := exists_at? hb
  have hlt := at?_isSome_iff.1 ⟨b, hj⟩
  have hle := not_lt.1 (mt (lt_iff_lt_rank hj).2 h.not_gt)
  exact at?_isSome_iff.2 (hle.trans_lt hlt)

/-- An element is found where it is. -/
theorem at?_rank (h : x ∈ s) : at? s (rank s x) = some x := by
  obtain ⟨a, ha⟩ := exists_at h le_rfl
  have hl := isLeast_at ha
  rw [ha, le_antisymm (hl.2 ⟨h, le_rfl⟩) hl.1.2]

/-- The element after one that is found. -/
theorem isLeast_above (hx : x ∈ s) (h : at? s (rank s x + 1) = some a) : IsLeast {b | b ∈ s ∧ x < b} a := by
  refine ⟨⟨mem_of_at? h, (lt_iff_lt (at?_rank hx) h).2 (Nat.lt_succ_self _)⟩, fun b hb => ?_⟩
  obtain ⟨j, hj⟩ := exists_at? hb.1
  have hlt := (lt_iff_lt (at?_rank hx) hj).1 hb.2
  refine not_lt.1 fun hba => ?_
  have := (lt_iff_lt hj h).1 hba
  omega

/-- There is an element after one that is found and is not the last. -/
theorem exists_above (hx : x ∈ s) (hb : b ∈ s) (h : x < b) : rank s x + 1 < s.card := by
  obtain ⟨j, hj⟩ := exists_at? hb
  have hlt := (lt_iff_lt (at?_rank hx) hj).1 h
  have hcard := at?_isSome_iff.1 ⟨b, hj⟩
  omega

end Rank
