import Mathlib.Data.List.Basic
import Mathlib.Data.Int.Order.Basic
import Mathlib.Order.Nat

/-!
# Slices of a list

The part of a list between two positions, where a negative position counts from the end and one
outside the list is moved to its nearest end, and every so many-th element of such a part, forwards or
backwards. The rules take off the first element, as a loop does that collects them.
-/

open List

namespace ListSlice

variable {α : Type*} {xs : List α}

/-- The place a position stands for in a list of `n` elements. -/
def position (n : ℕ) (i : ℤ) : ℤ := if i < 0 then i + n else i

/-- The elements from `left` on and before `right`. -/
def slice (xs : List α) (left right : ℤ) : List α :=
  (xs.take (position xs.length right).toNat).drop (position xs.length left).toNat

/-- The first element and every `k`-th one after it. -/
def everyNth (k : ℕ) (xs : List α) : List α := (List.range xs.length).filterMap fun i => xs[i * k]?

/-- The elements at `left`, `left + step` and so on, before `right`. With a negative step they come
backwards. -/
def sliceStep (xs : List α) (left right step : ℤ) : List α :=
  if 0 < step then everyNth step.toNat (slice xs left right)
  else everyNth (-step).toNat ((xs.take (position xs.length left + 1).toNat).drop
    (position xs.length right + 1).toNat).reverse

/-- Positions that count from the start. -/
theorem slice_natCast (xs : List α) (left right : ℕ) : slice xs left right = (xs.take right).drop left := by
  unfold slice position
  rw [if_neg (by omega), if_neg (by omega), Int.toNat_natCast, Int.toNat_natCast]

@[simp] theorem everyNth_nil (k : ℕ) : everyNth k ([] : List α) = [] := rfl

/-- Beyond the end there is nothing to collect. -/
private theorem filterMap_range {k : ℕ} (hk : 0 < k) {n : ℕ} (hn : xs.length ≤ n) :
    ((List.range n).filterMap fun i => xs[i * k]?) = everyNth k xs := by
  obtain ⟨m, rfl⟩ := Nat.exists_eq_add_of_le hn
  induction m with
  | zero => rfl
  | succ m ih =>
    have hout : xs.length ≤ (xs.length + m) * k := (Nat.le_add_right _ _).trans (Nat.le_mul_of_pos_right _ hk)
    rw [← Nat.add_assoc, range_succ, filterMap_append, ih (by omega)]
    simp [getElem?_eq_none hout]

/-- The first element, and the others as they come after it. -/
theorem everyNth_cons {k : ℕ} (hk : 0 < k) (x : α) (xs : List α) :
    everyNth k (x :: xs) = x :: everyNth k (xs.drop (k - 1)) := by
  have hstep : ∀ i, (x :: xs)[(i + 1) * k]? = (xs.drop (k - 1))[i * k]? := by
    intro i
    rw [getElem?_drop, show (i + 1) * k = (k - 1 + i * k) + 1 by
      rw [Nat.add_mul]; omega, getElem?_cons_succ]
  rw [← filterMap_range hk (show (xs.drop (k - 1)).length ≤ xs.length by simp)]
  unfold everyNth
  rw [length_cons, range_succ_eq_map, filterMap_cons, filterMap_map]
  simp only [Nat.zero_mul, getElem?_cons_zero, Function.comp_def, Nat.succ_eq_add_one, hstep]

/-- A step forwards. -/
theorem everyNth_forward {step right k : ℕ} (hs : 0 < step) (hr : right ≤ xs.length) (hk : k < right) :
    everyNth step ((xs.take right).drop k) = xs[k] :: everyNth step ((xs.take right).drop (k + step)) := by
  rw [drop_eq_getElem_cons (by rw [length_take]; omega), everyNth_cons hs, drop_drop,
    getElem_take, show k + 1 + (step - 1) = k + step by omega]

/-- A step backwards. -/
theorem everyNth_backward {step right k : ℕ} (hs : 0 < step) (hk : k < xs.length) (hr : right ≤ k) :
    everyNth step ((xs.take (k + 1)).drop right).reverse =
      xs[k] :: everyNth step ((xs.take (k + 1 - step)).drop right).reverse := by
  have hlen : (xs.take k).length = k := by rw [length_take]; omega
  rw [take_succ_eq_append_getElem hk, drop_append_of_le_length (by omega), reverse_append]
  show everyNth step (xs[k] :: ((xs.take k).drop right).reverse) = _
  rw [everyNth_cons hs, drop_reverse, take_drop, take_take]
  have hleft : ((xs.take k).drop right).length = k - right := by simp [hlen]
  rcases Nat.lt_or_ge (k - right) (step - 1) with hlt | hge
  · rw [drop_eq_nil_of_le (by simp; omega), drop_eq_nil_of_le (by simp; omega)]
  · rw [show min (right + (((xs.take k).drop right).length - (step - 1))) k = k + 1 - step by omega]

end ListSlice
