import Ufora.Containers.ImmutableTreeVector

/-!
# Slices with a step

`ImmutableTreeVector::slice(left, right, step)` against the slice of a list that `left:right:step` stands for
in Python (`ListSlice.sliceStep`). A start that is not inside the vector is moved to its last element, on
either side: `left >= size()` compares an `int32_t` with a `uint32_t`, so it holds of a negative `left` too and
the line after it, which would move such a start to 0, never does. What comes of that depends on the other
bound (`StartsRight`).
-/

open List

namespace ListSlice

variable {α : Type*} {xs : List α} {k : ℕ}

theorem head?_everyNth (hk : 0 < k) (xs : List α) : (everyNth k xs).head? = xs.head? := by
  cases xs with
  | nil => rfl
  | cons x xs => rw [everyNth_cons hk, head?_cons, head?_cons]

theorem everyNth_eq_nil (hk : 0 < k) : everyNth k xs = [] ↔ xs = [] := by
  rw [← head?_eq_none_iff, head?_everyNth hk, head?_eq_none_iff]

theorem length_everyNth_le (k : ℕ) (xs : List α) : (everyNth k xs).length ≤ xs.length :=
  (length_filterMap_le _ _).trans (by simp)

theorem length_sliceStep_le (xs : List α) (left right step : ℤ) : (sliceStep xs left right step).length ≤
    xs.length := by
  unfold sliceStep slice
  split <;> refine (length_everyNth_le _ _).trans ?_ <;> simp

end ListSlice

namespace ImmutableTreeVector

open Effect ListSlice

/-- The slice of every vector of `n` elements is that of its list. -/
def SliceCorrect (n : ℕ) (left right step : Int32) : Prop :=
  ∀ (T : Type) (heap : Heap T) (v : ImmutableTreeVector) (xs : List T), Denotes heap v xs → xs.length = n →
    Gives (v.sliceStep left.toInt right.toInt step.toInt) heap
      (ListSlice.sliceStep xs left.toInt right.toInt step.toInt)

/-- The start is inside the vector, or it does not matter that it is moved to the last element. -/
def StartsRight (n : ℕ) (left right step : ℤ) : Prop :=
  if 0 < step then
    n = 0 ∨ (0 ≤ position n left ∧ position n left < n) ∨
      (position n left < 0 ∧ (n = 1 ∨ position n right ≤ 0)) ∨ (n ≤ position n left ∧ position n right < n)
  else if n = 0 then 0 ≤ right
  else 0 ≤ position n left ∨ n ≤ position n right + 1
deriving Decidable

/-- The start that `slice` takes in a vector of `n` elements. -/
def startFor (n : ℕ) (left : ℤ) : ℤ :=
  if 0 ≤ position n left ∧ position n left < n then position n left else n - 1

variable {T : Type} {heap : Heap T} {v : ImmutableTreeVector} {xs ys : List T} {left right step : ℤ} {n : ℕ}

theorem Denotes.unique (h : Denotes heap v xs) (h' : Denotes heap v ys) : xs = ys :=
  ext_getElem? fun k => (h.2 k).symm.trans (h'.2 k)

theorem Gives.unique {call : Call T ImmutableTreeVector} (h : Gives call heap xs) (h' : Gives call heap ys) :
    xs = ys := by
  have hboth := h.returns.and h'.returns
  unfold wp at hboth
  split at hboth
  · exact hboth.1.2.unique hboth.2.2
  · exact hboth.1.elim

/-- There is a vector for a list. -/
theorem exists_denotes (h : xs.length ≤ maxSize) : ∃ heap v, Denotes heap v xs := by
  refine ⟨[⟨xs.length, xs, le_rfl, by unfold maxSize at h; omega⟩], ⟨some 0, ⟨xs.length, 0⟩⟩, rfl, fun k => ?_⟩
  unfold at?
  split
  · simp [Range.actualIndex]
  · next hk => exact (getElem?_eq_none (Nat.le_of_not_lt hk)).symm

theorem startFor_inside (hn : 0 < n) (left : ℤ) : 0 ≤ startFor n left ∧ startFor n left < n := by
  unfold startFor
  split <;> omega

theorem startFor_of_inside (h : 0 ≤ left ∧ left < n) : startFor n left = left := by
  have hposition : position n left = left := if_neg (by omega)
  rw [startFor, hposition, if_pos h]

/-- The start as the source computes it. -/
theorem startFor_eq (hn : 0 < n) (hsize : n < 2 ^ 31) (hlow : -2 ^ 31 ≤ left) (hhigh : left < 2 ^ 31) :
    (if (if (n : ℤ) ≤ position n left % 2 ^ 32 then (n : ℤ) - 1 else position n left) < 0 then 0
      else if (n : ℤ) ≤ position n left % 2 ^ 32 then (n : ℤ) - 1 else position n left) = startFor n left := by
  unfold startFor position
  split <;> split <;> split <;> omega

/-- The start is moved before anything else happens. -/
theorem sliceStep_startFor (hn : 0 < v.size) (hsize : v.size < 2 ^ 31) (hlow : -2 ^ 31 ≤ left)
    (hhigh : left < 2 ^ 31) : (v.sliceStep left right step : Call T ImmutableTreeVector) =
      v.sliceStep (startFor v.size left) right step := by
  have hin := startFor_inside hn left
  have hleft := startFor_eq hn hsize hlow hhigh
  have hmoved := @startFor_eq (startFor v.size left) _ hn hsize (by omega) (by omega)
  rw [startFor_of_inside hin] at hmoved
  unfold position at hleft hmoved
  unfold sliceStep
  simp only [hleft, hmoved]

/-- A slice of a vector that is not empty is the slice of the list from the start that is taken. -/
theorem gives_startFor {left right step : Int32} (hd : Denotes heap v xs) (hne : 0 < xs.length)
    (hsize : xs.length ≤ maxSize) (hstep : step.toInt ≠ 0) :
    Gives (v.sliceStep left.toInt right.toInt step.toInt) heap
      (ListSlice.sliceStep xs (startFor xs.length left.toInt) right.toInt step.toInt) := by
  have hmax : xs.length < 2 ^ 31 := by unfold maxSize at hsize; omega
  have hstart := startFor_inside hne left.toInt
  rw [sliceStep_startFor (hd.1 ▸ hne) (hd.1 ▸ hmax) left.le_toInt left.toInt_lt, hd.1]
  refine gives_sliceStep hd hsize (by omega) ?_ ((length_sliceStep_le ..).trans hsize)
  unfold StartsInside
  omega

/-- The slice of a list from the start that is taken. -/
theorem sliceStep_from (hn : 0 < n) (hxs : xs.length = n) : ListSlice.sliceStep xs (startFor n left) right step =
      if 0 < step then everyNth step.toNat ((xs.take (position n right).toNat).drop (startFor n left).toNat)
      else everyNth (-step).toNat ((xs.take (startFor n left + 1).toNat).drop
        (position n right + 1).toNat).reverse := by
  have hposition : position n (startFor n left) = startFor n left := if_neg (not_lt.2 (startFor_inside hn left).1)
  unfold ListSlice.sliceStep ListSlice.slice
  rw [hxs, hposition]

theorem sliceStep_of_startsRight (hn : 0 < n) (hxs : xs.length = n) (h : StartsRight n left right step) :
    ListSlice.sliceStep xs (startFor n left) right step = ListSlice.sliceStep xs left right step := by
  rw [sliceStep_from hn hxs]
  unfold ListSlice.sliceStep ListSlice.slice startFor
  unfold StartsRight at h
  rw [hxs]
  generalize position n left = l at *
  generalize position n right = r at *
  split at h
  · next hstep =>
    rw [if_pos hstep, if_pos hstep]
    refine congrArg (everyNth step.toNat) ?_
    rcases h with rfl | hin | ⟨hneg, rfl | hr⟩ | ⟨hl, hr⟩
    · omega
    · rw [if_pos hin]
    · rw [if_neg (by omega), show ((1 : ℕ) - 1 : ℤ).toNat = l.toNat by omega]
    · rw [show r.toNat = 0 by omega, take_zero, drop_nil, drop_nil]
    · rw [if_neg (by omega), drop_eq_nil_of_le (by rw [length_take]; omega),
        drop_eq_nil_of_le (by rw [length_take]; omega)]
  · next hstep =>
    rw [if_neg hstep, if_neg hstep]
    rw [if_neg hn.ne'] at h
    refine congrArg (fun ys : List T => everyNth (-step).toNat ys.reverse) ?_
    by_cases hin : 0 ≤ l ∧ l < n
    · rw [if_pos hin]
    · rw [if_neg hin]
      rcases h with hl | hr
      · rw [take_of_length_le (by omega), take_of_length_le (by omega)]
      · rw [drop_eq_nil_of_le (by rw [length_take]; omega), drop_eq_nil_of_le (by rw [length_take]; omega)]

/-- The numbers below `n` in order: a slice that starts elsewhere has another first element. -/
theorem startsRight_of_sliceStep (hn : 0 < n) (hstep : step ≠ 0)
    (h : ListSlice.sliceStep (List.range n) (startFor n left) right step =
      ListSlice.sliceStep (List.range n) left right step) : StartsRight n left right step := by
  rw [sliceStep_from hn length_range] at h
  unfold ListSlice.sliceStep ListSlice.slice startFor at h
  unfold StartsRight
  rw [length_range] at h
  generalize position n left = l at *
  generalize position n right = r at *
  rcases lt_or_gt_of_ne hstep with hneg | hpos
  · rw [if_neg hneg.not_gt, if_neg hneg.not_gt] at h
    rw [if_neg hneg.not_gt, if_neg hn.ne']
    by_contra hc
    rw [not_or] at hc
    rw [if_neg (by omega), show (l + 1).toNat = 0 by omega, take_zero, drop_nil, reverse_nil,
      everyNth_nil, everyNth_eq_nil (by omega), reverse_eq_nil_iff, drop_eq_nil_iff, length_take,
      length_range] at h
    omega
  · rw [if_pos hpos, if_pos hpos] at h
    rw [if_pos hpos]
    by_contra hc
    rw [if_neg (by omega)] at h
    rcases lt_or_ge l 0 with hl | hl
    · have hhead := congrArg head? h
      rw [head?_everyNth (by omega), head?_everyNth (by omega), show l.toNat = 0 by omega, drop_zero,
        head?_drop, head?_take, if_neg (by omega), getElem?_take] at hhead
      rw [show ((n : ℤ) - 1).toNat = n - 1 by omega, head?_range, if_neg hn.ne'] at hhead
      split at hhead
      · rw [getElem?_range (by omega), Option.some_inj] at hhead
        omega
      · cases hhead
    · rw [drop_eq_nil_of_le (by rw [length_take, length_range]; omega : _ ≤ l.toNat), everyNth_nil,
        everyNth_eq_nil (by omega), drop_eq_nil_iff, length_take, length_range] at h
      omega

/-- Of an empty vector a slice backwards to a bound before the start reads an element. -/
theorem sliceStep_empty (hv : v.size = 0) : (v.sliceStep left right step : Call T ImmutableTreeVector) =
      sliceLoop v (if right < 0 then -1 else 0) step (if right < 0 then 2 else 1) 0 {} := by
  have hleft : (if (if (0 : ℤ) ≤ (if left < 0 then left + 0 else left) % 2 ^ 32 then (0 : ℤ) - 1
      else if left < 0 then left + 0 else left) < 0 then 0
      else if (0 : ℤ) ≤ (if left < 0 then left + 0 else left) % 2 ^ 32 then (0 : ℤ) - 1
        else if left < 0 then left + 0 else left) = 0 := by
    split <;> split <;> omega
  unfold sliceStep
  rw [hv]
  simp only [show ((0 : ℕ) : ℤ) = 0 from rfl, hleft]
  rcases lt_or_ge right 0 with h | h
  · simp [h, h.not_ge]
  · simp [h, h.not_gt]

/-- A slice with a step is the one that Python takes if and only if it starts right. -/
theorem sliceCorrect_iff_startsRight {left right step : Int32} (hn : n ≤ maxSize) (hstep : step.toInt ≠ 0) :
    SliceCorrect n left right step ↔ StartsRight n left.toInt right.toInt step.toInt := by
  rcases Nat.eq_zero_or_pos n with rfl | hpos
  · unfold SliceCorrect StartsRight
    rcases lt_or_gt_of_ne hstep with hneg | hpos
    · rw [if_neg hneg.not_gt, if_pos rfl]
      constructor
      · intro h
        by_contra hright
        have hgives := (h ℕ [] {} [] (denotes_empty []) rfl).returns
        rw [sliceStep_empty rfl, if_pos (not_le.1 hright), if_pos (not_le.1 hright)] at hgives
        unfold sliceLoop at hgives
        rw [if_pos (by rw [if_neg hneg.not_gt]; omega)] at hgives
        exact hgives
      · intro hright T heap v xs hd hxs
        obtain rfl := eq_nil_of_length_eq_zero hxs
        rw [sliceStep_empty hd.1, if_neg hright.not_gt, if_neg hright.not_gt]
        unfold sliceLoop ListSlice.sliceStep
        rw [if_neg (by rw [if_neg hneg.not_gt]; omega), if_neg hneg.not_gt, take_nil, drop_nil]
        exact gives_pure (denotes_empty heap)
    · rw [if_pos hpos]
      refine iff_of_true (fun T heap v xs hd hxs => ?_) (.inl rfl)
      exact gives_sliceStep hd (hxs ▸ hn) left.toInt_lt (.inl ⟨hpos, .inl hxs⟩)
        ((length_sliceStep_le ..).trans (hxs ▸ hn))
  · constructor
    · intro h
      have hroom : (List.range n).length ≤ maxSize := by rwa [length_range]
      obtain ⟨heap, v, hd⟩ := exists_denotes hroom
      have hgives := @gives_startFor _ _ _ _ left right _ hd (by rwa [length_range]) hroom hstep
      rw [length_range] at hgives
      exact startsRight_of_sliceStep hpos hstep (hgives.unique (h ℕ _ _ _ hd length_range))
    · intro h T heap v xs hd hxs
      rw [← sliceStep_of_startsRight hpos hxs h, ← hxs]
      exact gives_startFor hd (hxs ▸ hpos) (hxs ▸ hn) hstep

/-- The last two elements of three, backwards from behind the end. -/
theorem sliceCorrect_three : SliceCorrect 3 7 0 (-1) :=
  (sliceCorrect_iff_startsRight (by decide) (by decide)).2 (by decide)

/-- The whole of a vector of three elements, from before its first one. -/
theorem not_sliceCorrect : ¬ SliceCorrect 3 (-4) 4 1 := by
  intro h
  obtain ⟨heap, v, hd⟩ := @exists_denotes _ [10, 20, 30] (by decide)
  have hgives := @gives_startFor _ _ _ _ (-4) 4 1 hd (by decide) (by decide) (by decide)
  exact absurd (hgives.unique (h ℕ _ _ _ hd rfl)) (by decide)

end ImmutableTreeVector
