import Ufora.Vectors.IntegerSequence

/-!
# Pagelet trees

`PageletTree` (`FORA/VectorDataManager/PageletTree.{hppml,cppml}`): values in pagelets, the leaves of a
binary tree. A leaf and each side of a node are used up to some number of values, so that a tree can
share the pagelets of a longer one.
-/

open Selection IntegerSequence IntegerRange

namespace Fora

/-- `PageletTree`; a `Pagelet` is the list of its values. -/
inductive PageletTree (α : Type)
  | leaf (pagelet : List α) (leafValuesUsed : ℕ)
  | node (left : PageletTree α) (leftPtrValuesUsed : ℕ) (right : PageletTree α) (rightPtrValuesUsed : ℕ)

namespace PageletTree

variable {α : Type}

def size : PageletTree α → ℕ
  | leaf _ leafValuesUsed => leafValuesUsed
  | node _ leftPtrValuesUsed _ rightPtrValuesUsed => leftPtrValuesUsed + rightPtrValuesUsed

/-- A call of the visitor of `visitTree`: a pagelet, the range in it and where the pagelet starts. -/
abbrev Visit (α : Type) := List α × IntegerRange × ℤ

/-- `visitTree`: the calls of the visitor, in order. The source passes `inReverse` on only where it is
set. -/
def visitTree : PageletTree α → IntegerRange → ℤ → Bool → List (Visit α)
  | leaf pagelet leafValuesUsed, range, offsetInOriginalTree, _ =>
    if range.isEmpty then []
    else
      let subrange := range.intersect ⟨0, leafValuesUsed⟩
      if subrange.isEmpty then [] else [(pagelet, subrange, offsetInOriginalTree)]
  | node left leftPtrValuesUsed right rightPtrValuesUsed, range, offsetInOriginalTree, inReverse =>
    if range.isEmpty then []
    else
      let visitLeft := left.visitTree (range.intersect ⟨0, leftPtrValuesUsed⟩) offsetInOriginalTree inReverse
      let visitRight := right.visitTree ((range.shiftDown leftPtrValuesUsed).intersect ⟨0, rightPtrValuesUsed⟩)
        (offsetInOriginalTree + leftPtrValuesUsed) inReverse
      if inReverse then visitRight ++ visitLeft else visitLeft ++ visitRight

/-- The values of a tree. -/
def values : PageletTree α → List α
  | leaf pagelet leafValuesUsed => pagelet.take leafValuesUsed
  | node left leftPtrValuesUsed right rightPtrValuesUsed =>
    left.values.take leftPtrValuesUsed ++ right.values.take rightPtrValuesUsed

/-- What the constructors assert: no more values are used than there are. -/
def WellFormed : PageletTree α → Prop
  | leaf pagelet leafValuesUsed => leafValuesUsed ≤ pagelet.length
  | node left leftPtrValuesUsed right rightPtrValuesUsed =>
    (leftPtrValuesUsed ≤ left.size ∧ left.WellFormed) ∧ rightPtrValuesUsed ≤ right.size ∧ right.WellFormed

theorem length_values {t : PageletTree α} (h : t.WellFormed) : t.values.length = t.size := by
  induction t with
  | leaf pagelet used =>
    rw [values, List.length_take]
    exact min_eq_left h
  | node left leftUsed right rightUsed ihl ihr =>
    obtain ⟨⟨hl, hlwf⟩, hr, hrwf⟩ := h
    rw [values, List.length_append, List.length_take, List.length_take, ihl hlwf, ihr hrwf, min_eq_left hl,
      min_eq_left hr, size]

/-- Visits that go through a list of values piece by piece: each one takes the first values of its
pagelet. -/
inductive Tiles : ℤ → List (Visit α) → List α → Prop
  | nil (off : ℤ) : Tiles off [] []
  | cons {off : ℤ} {pagelet : List α} {n : ℕ} {visits : List (Visit α)} {xs : List α} (hn : 0 < n)
      (hle : n ≤ pagelet.length) (h : Tiles (off + n) visits xs) :
      Tiles off ((pagelet, ⟨0, n⟩, off) :: visits) (pagelet.take n ++ xs)

theorem Tiles.append {off off' : ℤ} {visits visits' : List (Visit α)} {xs ys : List α} (h : Tiles off visits xs)
    (hoff : off' = off + xs.length) (h' : Tiles off' visits' ys) : Tiles off (visits ++ visits') (xs ++ ys) := by
  induction h with
  | nil off =>
    rw [hoff] at h'
    simpa using h'
  | @cons off pagelet n visits xs hn hle h ih =>
    rw [List.cons_append, List.append_assoc]
    refine .cons hn hle (ih ?_)
    rw [hoff, List.length_append, List.length_take, min_eq_left hle]
    push_cast
    ring

/-- The part of a range from 0 on that a child of a node takes. -/
theorem intersect_first {n used : ℕ} {low : ℤ} (h : low ≤ 0) :
    (intersect ⟨low, n⟩ ⟨0, used⟩) = ⟨0, (min n used : ℕ)⟩ := by
  simp only [IntegerRange.intersect, IntegerRange.mk.injEq]
  refine ⟨by omega, ?_⟩
  split <;> omega

theorem intersect_rest {n leftUsed used : ℕ} (h : n - leftUsed ≤ used) :
    (intersect ⟨0 - leftUsed, n - leftUsed⟩ ⟨0, used⟩) = ⟨0, (n - leftUsed : ℕ)⟩ := by
  simp only [IntegerRange.intersect, IntegerRange.mk.injEq]
  refine ⟨by omega, ?_⟩
  split <;> omega

/-- An empty range visits nothing. -/
theorem visitTree_empty (t : PageletTree α) (off : ℤ) (inReverse : Bool) :
    t.visitTree ⟨0, (0 : ℕ)⟩ off inReverse = [] := by
  cases t <;> simp [visitTree, isEmpty]

/-- Visiting the first values of a tree goes through them in order. -/
theorem visitTree_tiles {t : PageletTree α} (h : t.WellFormed) (n : ℕ) (hn : n ≤ t.size) (off : ℤ) :
    Tiles off (t.visitTree ⟨0, n⟩ off false) (t.values.take n) := by
  induction t generalizing n off with
  | leaf pagelet used =>
    unfold visitTree
    rw [intersect_first le_rfl]
    have hn : n ≤ used := hn
    have hused : used ≤ pagelet.length := h
    rcases Nat.eq_zero_or_pos n with rfl | hpos
    · rw [if_pos (by simp [isEmpty]), List.take_zero]
      exact .nil off
    · rw [if_neg (by simp [isEmpty]; omega), min_eq_left hn]
      rw [if_neg (by simp [isEmpty]; omega), values, List.take_take, min_eq_left hn]
      have htiles := @Tiles.cons _ off _ _ [] [] hpos (show n ≤ pagelet.length by omega) (.nil _)
      rwa [List.append_nil] at htiles
  | node left leftUsed right rightUsed ihl ihr =>
    obtain ⟨⟨hl, hlwf⟩, hr, hrwf⟩ := h
    have hn : n ≤ leftUsed + rightUsed := hn
    unfold visitTree
    rcases Nat.eq_zero_or_pos n with rfl | hpos
    · rw [if_pos (by simp [isEmpty]), List.take_zero]
      exact .nil off
    · rw [if_neg (by simp [isEmpty]; omega), intersect_first le_rfl]
      simp only [Bool.false_eq_true, if_false, shiftDown]
      rw [intersect_rest (by omega)]
      have hleft := ihl hlwf (min n leftUsed) (by omega) off
      have hvalues : (left.values.take leftUsed).length = leftUsed := by
        rw [List.length_take, length_values hlwf, min_eq_left hl]
      rw [values, List.take_append, hvalues, List.take_take, List.take_take,
        min_eq_left (show n - leftUsed ≤ rightUsed by omega)]
      rcases Nat.le_total n leftUsed with hle | hle
      · rw [Nat.sub_eq_zero_of_le hle, visitTree_empty, List.take_zero, List.append_nil, List.append_nil]
        exact hleft
      · refine hleft.append ?_ (ihr hrwf (n - leftUsed) (by omega) _)
        rw [min_eq_right hle, hvalues]

end PageletTree

end Fora
