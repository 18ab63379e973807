import Ufora.Lib.ListSlice
import Ufora.Lib.Selection
import Mathlib.FieldTheory.Finite.Basic

/-!
# Integer sequences

`IntegerSequence` (`core/math/IntegerSequence.{hppml,cppml}`): the integers `offset + stride * i` for
`i` below `size`. Vectors are sliced by such sequences of positions. An operation is `none` where an
`lassert` of it fails. Quotients round towards zero, as those of C++ do.
-/

open List Option

/-- `IntegerRange`: the integers from `low` on and before `high`. -/
structure IntegerRange where
  low : ℤ
  high : ℤ
  deriving DecidableEq

namespace IntegerRange

variable (r : IntegerRange)

def size : ℤ := max 0 (r.high - r.low)

def isEmpty : Prop := r.low ≥ r.high
deriving Decidable

def intersect (other : IntegerRange) : IntegerRange :=
  let low := max r.low other.low
  let high := min r.high other.high
  ⟨low, if high < low then low else high⟩

/-- `operator-`. -/
def shiftDown (other : ℤ) : IntegerRange := ⟨r.low - other, r.high - other⟩

end IntegerRange

/-- `IntegerSequence`; what the default constructor makes has no elements and stride 0. -/
structure IntegerSequence where
  size : ℤ := 0
  offset : ℤ := 0
  stride : ℤ := 0
  deriving DecidableEq

open Selection ListSlice

namespace IntegerSequence

def roundUp (val mul : ℤ) : ℤ := ((val - 1).tdiv mul + 1) * mul

def roundDown (val mul : ℤ) : ℤ := val.tdiv mul * mul

/-- `IntegerSequence(inSize, inOffset)`: neighbouring integers. -/
def range (inSize : ℤ) (inOffset : ℤ := 0) : IntegerSequence := ⟨inSize, inOffset, 1⟩

/-- `IntegerSequence(range)`. -/
def ofRange (r : IntegerRange) : IntegerSequence := ⟨r.size, r.low, 1⟩

variable (s : IntegerSequence)

def offsetForIndex (ix : ℤ) : ℤ := s.offset + s.stride * ix

def endValue : ℤ := s.offset + s.stride * s.size

def smallestValue : ℤ :=
  if s.stride < 0 then s.offset + (s.size - 1) * s.stride else s.offset

def largestValue : ℤ :=
  if s.stride > 0 then s.offset + (s.size - 1) * s.stride else s.offset

def containingRange : IntegerRange := ⟨s.smallestValue, s.largestValue + 1⟩

/-- `offset(by)`. -/
def offsetBy (amount : ℤ) : IntegerSequence := ⟨s.size, s.offset + amount, s.stride⟩

def reversed : IntegerSequence := ⟨s.size, s.offset + (s.size - 1) * s.stride, -s.stride⟩

def isSequentialWith (otherSequence : IntegerSequence) : Option IntegerSequence :=
  if s.stride ≠ otherSequence.stride then none
  else if s.offset + s.size * s.stride ≠ otherSequence.offset then none
  else some ⟨s.size + otherSequence.size, s.offset, s.stride⟩

/-- `slice(nLow, nHigh, nStride)`. -/
def sliceBounds (nLow nHigh nStride : Option ℤ) : Option IntegerSequence :=
  if s.size = 0 then some ⟨0, 0, 1⟩
  else do
    let strideVal := nStride.getD 1
    guard (strideVal ≠ 0)
    if strideVal > 0 then
      let lowVal := nLow.getD 0
      let highVal := nHigh.getD s.size
      let lowVal := if lowVal < 0 then lowVal + s.size else lowVal
      let lowVal := if lowVal < 0 then lowVal + roundUp (-lowVal) strideVal else lowVal
      let highVal := if highVal < 0 then highVal + s.size else highVal
      let highVal := if highVal > s.size then s.size else highVal
      if lowVal ≥ highVal then some ⟨0, 0, 1⟩
      else
        let newSize := (highVal - lowVal - 1).tdiv strideVal + 1
        if newSize = 0 then some ⟨0, 0, 1⟩
        else some ⟨newSize, s.offset + lowVal * s.stride, s.stride * strideVal⟩
    else
      let lowVal := nLow.getD (s.size - 1)
      let highVal := nHigh.getD (-1 - s.size)
      let highVal := if highVal < 0 then highVal + s.size else highVal
      let highVal := if highVal < -1 then -1 else highVal
      let lowVal := if lowVal < 0 then lowVal + s.size else lowVal
      let lowVal := if lowVal ≥ s.size then lowVal - roundUp (lowVal - s.size + 1) (-strideVal) else lowVal
      if lowVal ≤ highVal then some ⟨0, 0, 1⟩
      else
        let newSize := (lowVal - highVal - 1).tdiv (-strideVal) + 1
        if newSize = 0 then some ⟨0, 0, 1⟩
        else some ⟨newSize, s.offset + lowVal * s.stride, s.stride * strideVal⟩

/-- The loop of `modpower`. What it goes through is below `q`, so that a loop of more than `q` steps
would not end. -/
def modpowerLoop (p q : ℤ) : ℕ → ℤ → Option ℤ
  | 0, _ => none
  | fuel + 1, res =>
    if (res * p).tmod q ≠ 1 then modpowerLoop p q fuel ((res * p).tmod q) else some res

/-- A `K` with `K * p = 1` modulo `q`. -/
def modpower (p q : ℤ) : Option ℤ := do
  guard (p < q ∨ p = q ∧ q = 1)
  if p = 1 ∧ q = 1 then some 1 else modpowerLoop p q q.toNat 1

/-- `aCommonPoint`, moved by multiples of the new stride to the first point that is not before
`farthestPointToReduceTo`. -/
def reduced (aCommonPoint farthestPointToReduceTo newStride : ℤ) : ℤ :=
  if aCommonPoint < farthestPointToReduceTo then
    aCommonPoint + roundUp (farthestPointToReduceTo - aCommonPoint) newStride
  else aCommonPoint - roundDown (aCommonPoint - farthestPointToReduceTo) newStride

variable (sequence : IntegerSequence)

/-- `intersect` where both strides are positive and that of `s` is not the larger one. -/
def intersectOrdered : Option IntegerSequence :=
  let newStride : ℤ := Int.lcm sequence.stride s.stride
  let gcd : ℤ := Int.gcd sequence.stride s.stride
  if (s.offset - sequence.offset).tmod gcd ≠ 0 then some {}
  else do
    let multipleToShiftBy ← modpower (s.stride.tdiv gcd) (sequence.stride.tdiv gcd)
    let aCommonPoint := s.offset - (s.offset - sequence.offset).tdiv gcd * multipleToShiftBy * s.stride
    guard ((aCommonPoint - sequence.offset).tmod sequence.stride = 0)
    let aCommonPoint := reduced aCommonPoint (max s.offset sequence.offset) newStride
    guard ((aCommonPoint - sequence.offset).tmod sequence.stride = 0)
    let maxInclusivePoint := min s.largestValue sequence.largestValue
    if maxInclusivePoint < aCommonPoint then some {}
    else
      let finalSize := (roundUp (maxInclusivePoint + 1 - aCommonPoint) newStride).tdiv newStride
      some ⟨finalSize, aCommonPoint, newStride⟩

/-- `intersect` where both strides are positive. -/
def intersectPositive : Option IntegerSequence :=
  if s.stride > sequence.stride then sequence.intersectOrdered s else s.intersectOrdered sequence

/-- The elements that are in `sequence` too. The source calls itself on the reversed sequences where a
stride is negative. -/
def intersect : Option IntegerSequence :=
  if s.size = 0 ∨ sequence.size = 0 then some {}
  else do
    guard (s.stride ≠ 0 ∧ sequence.stride ≠ 0)
    let sequence := if sequence.stride < 0 then sequence.reversed else sequence
    if s.stride < 0 then return (← s.reversed.intersectPositive sequence).reversed
    else s.intersectPositive sequence

/-- `slice(inSequence)`. -/
def sliceSequence (inSequence : IntegerSequence) : Option IntegerSequence := do
  let inSequence ← inSequence.intersect (range s.size)
  if inSequence.size = 0 then return {}
  let newCount :=
    if inSequence.stride > 0 then
      min inSequence.size ((s.size - inSequence.offset - 1).tdiv inSequence.stride + 1)
    else min inSequence.size (inSequence.offset.tdiv (-inSequence.stride) + 1)
  return ⟨if newCount < 0 then 0 else newCount, s.offset + s.stride * inSequence.offset, s.stride * inSequence.stride⟩

/-- The elements of a sequence, in its order. -/
def values : List ℤ := progression s.size.toNat s.offset s.stride

/-- A sequence of positions of a list of `n` elements. -/
structure Inside (s : IntegerSequence) (n : ℤ) : Prop where
  size_nonneg : 0 ≤ s.size
  stride_ne_zero : s.stride ≠ 0
  mem_bounds : ∀ x ∈ s.values, 0 ≤ x ∧ x < n

/-- The positions that the bounds and the stride of a slice stand for in a list of `n` elements: those
between the bounds whose distance from the first bound is a multiple of the stride. A negative bound
counts from the end. With a negative stride the positions come backwards. -/
def slicePositions (n : ℕ) (low high stride : Option ℤ) : List ℤ :=
  let step := stride.getD 1
  if 0 < step then
    let first := position n (low.getD 0)
    (progression n 0 1).filter fun i =>
      first ≤ i ∧ i < high.elim (n : ℤ) (position n) ∧ step ∣ i - first
  else
    let first := position n (low.getD (n - 1))
    (progression n 0 1).reverse.filter fun i =>
      i ≤ first ∧ high.elim (-1) (position n) < i ∧ step ∣ i - first

variable {s t r : IntegerSequence} {a b d m n v x : ℤ}

/-! ## Rounding -/

theorem roundUp_spec (hm : 0 < m) (hv : 0 < v) : v ≤ roundUp v m ∧ roundUp v m < v + m ∧ m ∣ roundUp v m := by
  unfold roundUp
  rw [Int.tdiv_eq_ediv_of_nonneg (by omega)]
  have hdiv := Int.mul_ediv_add_emod (v - 1) m
  have hlt := Int.emod_lt_of_pos (v - 1) hm
  have hnn := Int.emod_nonneg (v - 1) hm.ne'
  refine ⟨?_, ?_, Dvd.intro_left _ rfl⟩ <;> linarith [mul_comm m ((v - 1) / m)]

theorem roundDown_spec (hm : 0 < m) (hv : 0 ≤ v) : roundDown v m ≤ v ∧ v < roundDown v m + m ∧ m ∣ roundDown v m := by
  unfold roundDown
  rw [Int.tdiv_eq_ediv_of_nonneg hv]
  have hdiv := Int.mul_ediv_add_emod v m
  have hlt := Int.emod_lt_of_pos v hm
  have hnn := Int.emod_nonneg v hm.ne'
  refine ⟨?_, ?_, Dvd.intro_left _ rfl⟩ <;> linarith [mul_comm m (v / m)]

/-- How many positions in the distance `d` there are from `a` on and before `b`. -/
theorem mem_progression_before (hd : 0 < d) (hab : a < b) :
    x ∈ progression ((b - a - 1).tdiv d + 1).toNat a d ↔ a ≤ x ∧ x < b ∧ d ∣ x - a := by
  have hq : 0 ≤ (b - a - 1) / d := Int.ediv_nonneg (by omega) hd.le
  rw [Int.tdiv_eq_ediv_of_nonneg (by omega), mem_progression_iff hd, Int.toNat_of_nonneg (by omega)]
  have hdiv := Int.mul_ediv_add_emod (b - a - 1) d
  have hlt := Int.emod_lt_of_pos (b - a - 1) hd
  have hnn := Int.emod_nonneg (b - a - 1) hd.ne'
  refine and_congr_right fun hax => ?_
  constructor
  · rintro ⟨hx, k, hk⟩
    refine ⟨?_, k, hk⟩
    have hkq : k < (b - a - 1) / d + 1 := lt_of_mul_lt_mul_left (by omega) hd.le
    have := mul_le_mul_of_nonneg_left (Int.lt_add_one_iff.1 hkq) hd.le
    omega
  · rintro ⟨hx, hk⟩
    refine ⟨?_, hk⟩
    rw [mul_add, mul_one]
    omega

/-- A position that is not negative is not before the first one of its class. -/
theorem le_of_dvd (h : d ∣ x - a) (hlt : a - d < x) : a ≤ x := by
  by_contra hc
  have hneg : d ∣ a - x := by rw [← neg_sub]; exact h.neg_right
  have := Int.le_of_dvd (by omega) hneg
  omega

/-- The same backwards, from `a` on and after `b`. -/
theorem mem_progression_after (hd : d < 0) (hab : b < a) :
    x ∈ progression ((a - b - 1).tdiv (-d) + 1).toNat a d ↔ x ≤ a ∧ b < x ∧ d ∣ x - a := by
  have h := mem_progression_before (x := -x) (neg_pos.2 hd) (neg_lt_neg hab)
  rw [show -b - -a - 1 = a - b - 1 by ring, show -x - -a = -(x - a) by ring, Int.dvd_neg, Int.neg_dvd,
    neg_le_neg_iff, neg_lt_neg_iff] at h
  rw [mem_progression_neg, h]

/-! ## Slices by bounds -/

/-- The first position of an ascending slice that is in the list. -/
def firstAscending (first step : ℤ) : ℤ := if first < 0 then first + roundUp (-first) step else first

/-- The first position of a descending slice that is in a list of `n` elements. -/
def firstDescending (n first step : ℤ) : ℤ :=
  if first ≥ n then first - roundUp (first - n + 1) (-step) else first

variable {first stop count low p q g : ℤ}

theorem ascending_iff (hd : 0 < d) : firstAscending first d ≤ x ∧ x < min stop n ∧ d ∣ x - firstAscending first d ↔
      (0 ≤ x ∧ x < n) ∧ first ≤ x ∧ x < stop ∧ d ∣ x - first := by
  unfold firstAscending
  split
  · obtain ⟨hle, hlt, hdvd⟩ := roundUp_spec hd (v := -first) (by omega)
    have hclass : d ∣ x - (first + roundUp (-first) d) ↔ d ∣ x - first := by
      rw [← sub_sub, dvd_sub_left hdvd]
    rw [hclass, lt_min_iff]
    constructor
    · rintro ⟨h1, ⟨h2, h3⟩, h4⟩
      exact ⟨⟨by omega, h3⟩, by omega, h2, h4⟩
    · rintro ⟨⟨h1, h2⟩, -, h4, h5⟩
      exact ⟨le_of_dvd (hclass.2 h5) (by omega), ⟨h4, h2⟩, h5⟩
  · rw [lt_min_iff]
    constructor
    · rintro ⟨h1, ⟨h2, h3⟩, h4⟩
      exact ⟨⟨by omega, h3⟩, h1, h2, h4⟩
    · rintro ⟨⟨h1, h2⟩, h3, h4, h5⟩
      exact ⟨h3, ⟨h4, h2⟩, h5⟩

theorem descending_iff (hd : d < 0) :
    x ≤ firstDescending n first d ∧ max stop (-1) < x ∧ d ∣ x - firstDescending n first d ↔
      (0 ≤ x ∧ x < n) ∧ x ≤ first ∧ stop < x ∧ d ∣ x - first := by
  unfold firstDescending
  split
  · obtain ⟨hle, hlt, hdvd⟩ := roundUp_spec (neg_pos.2 hd) (v := first - n + 1) (by omega)
    have hclass : d ∣ x - (first - roundUp (first - n + 1) (-d)) ↔ d ∣ x - first := by
      rw [show x - (first - roundUp (first - n + 1) (-d)) = x - first + roundUp (first - n + 1) (-d) by ring,
        dvd_add_left (Int.neg_dvd.1 hdvd)]
    rw [hclass, max_lt_iff]
    constructor
    · rintro ⟨h1, ⟨h2, h3⟩, h4⟩
      exact ⟨⟨by omega, by omega⟩, by omega, h2, h4⟩
    · rintro ⟨⟨h1, h2⟩, -, h4, h5⟩
      refine ⟨?_, ⟨h4, by omega⟩, h5⟩
      have hneg : -d ∣ -x - -(first - roundUp (first - n + 1) (-d)) := by
        rw [show -x - -(first - roundUp (first - n + 1) (-d)) =
          -(x - (first - roundUp (first - n + 1) (-d))) by ring, Int.dvd_neg, Int.neg_dvd]
        exact hclass.2 h5
      have := le_of_dvd hneg (by omega)
      omega
  · rw [max_lt_iff]
    constructor
    · rintro ⟨h1, ⟨h2, h3⟩, h4⟩
      exact ⟨⟨by omega, by omega⟩, h1, h2, h4⟩
    · rintro ⟨⟨h1, h2⟩, h3, h4, h5⟩
      exact ⟨h3, ⟨h4, by omega⟩, h5⟩

/-- All positions of a list, in order. -/
theorem mem_positions {n : ℕ} : x ∈ progression n 0 1 ↔ 0 ≤ x ∧ x < n := by
  rw [mem_progression_iff one_pos]
  simp

/-- The positions of an ascending slice are in a fixed distance from each other. -/
theorem filter_ascending (hd : 0 < d) {n : ℕ} :
    ((progression n 0 1).filter fun i => first ≤ i ∧ i < stop ∧ d ∣ i - first) =
      if min stop n ≤ firstAscending first d then []
      else progression ((min stop n - firstAscending first d - 1).tdiv d + 1).toNat (firstAscending first d) d := by
  have hiff : ∀ x, x ∈ ((progression n 0 1).filter fun i => first ≤ i ∧ i < stop ∧ d ∣ i - first) ↔
      firstAscending first d ≤ x ∧ x < min stop n ∧ d ∣ x - firstAscending first d := by
    intro x
    rw [mem_filter, mem_positions, decide_eq_true_iff, ascending_iff hd]
  split
  · refine eq_nil_iff_forall_not_mem.2 fun x hx => ?_
    have := (hiff x).1 hx
    omega
  · refine eq_of_ascending ((pairwise_progression one_pos).filter _) (pairwise_progression hd) fun x => ?_
    rw [hiff, mem_progression_before hd (by omega)]

/-- The positions of a descending slice are in a fixed distance from each other. -/
theorem filter_descending (hd : d < 0) {n : ℕ} :
    ((progression n 0 1).reverse.filter fun i => i ≤ first ∧ stop < i ∧ d ∣ i - first) =
      if firstDescending n first d ≤ max stop (-1) then []
      else progression ((firstDescending n first d - max stop (-1) - 1).tdiv (-d) + 1).toNat
        (firstDescending n first d) d := by
  have hiff : ∀ x, x ∈ ((progression n 0 1).reverse.filter fun i => i ≤ first ∧ stop < i ∧ d ∣ i - first) ↔
      x ≤ firstDescending n first d ∧ max stop (-1) < x ∧ d ∣ x - firstDescending n first d := by
    intro x
    rw [mem_filter, mem_reverse, mem_positions, decide_eq_true_iff, descending_iff hd]
  split
  · refine eq_nil_iff_forall_not_mem.2 fun x hx => ?_
    have := (hiff x).1 hx
    omega
  · refine eq_of_descending ?_ (pairwise_progression_neg hd) fun x => ?_
    · exact (pairwise_reverse.2 (pairwise_progression one_pos)).filter _
    · rw [hiff, mem_progression_after hd (by omega)]

/-- The positions of a slice are positions of the list. -/
theorem mem_slicePositions {n : ℕ} {low high stride : Option ℤ}
    (h : x ∈ slicePositions n low high stride) : 0 ≤ x ∧ x < n := by
  unfold slicePositions at h
  simp only at h
  split at h
  · exact mem_positions.1 (mem_of_mem_filter h)
  · exact mem_positions.1 (mem_reverse.1 (mem_of_mem_filter h))

/-- The elements of a sequence at positions in a fixed distance from each other. -/
theorem values_mk (hs : 0 ≤ s.size) (h : ∀ x ∈ progression count.toNat low d, 0 ≤ x ∧ x < s.size) :
    values ⟨count, s.offset + low * s.stride, s.stride * d⟩ = select s.values (progression count.toNat low d) := by
  rw [values, values, select_progression (by rwa [Int.toNat_of_nonneg hs]), mul_comm low]

/-- A slice by bounds lists the elements at the positions that the bounds stand for. -/
theorem sliceBounds_values (hs : 0 ≤ s.size) {low high stride : Option ℤ} (hd : stride ≠ some 0) :
    ∃ r, s.sliceBounds low high stride = some r ∧ 0 ≤ r.size ∧ (s.stride ≠ 0 → r.stride ≠ 0) ∧
      r.values = select s.values (slicePositions s.size.toNat low high stride) := by
  have hsize : (s.size.toNat : ℤ) = s.size := Int.toNat_of_nonneg hs
  unfold sliceBounds
  split
  · next h0 =>
    refine ⟨_, rfl, le_rfl, fun _ => one_ne_zero, ?_⟩
    simp [values, h0]
  have hstep : stride.getD 1 ≠ 0 := by
    cases stride with
    | none => simp
    | some d => simpa using hd
  have hin := fun x => @mem_slicePositions x s.size.toNat low high stride
  simp only [slicePositions] at hin ⊢
  generalize stride.getD 1 = d at hstep hin ⊢
  simp only [hstep, ne_eq, not_false_eq_true, bind_eq_bind]
  have hposition : ∀ i, (if i < 0 then i + s.size else i) = position s.size.toNat i := by
    intro i; rw [position, hsize]
  simp only [hposition]
  rcases lt_or_gt_of_ne hstep with hneg | hpos
  · rw [if_neg (not_lt.2 hneg.le)] at hin
    rw [if_neg (not_lt.2 hneg.le), if_neg (not_lt.2 hneg.le)]
    rw [filter_descending hneg] at hin ⊢
    have hlow : (low.getD ((s.size.toNat : ℕ) - 1)) = low.getD (s.size - 1) := by rw [hsize]
    have hhigh : (if position s.size.toNat (high.getD (-1 - s.size)) < -1 then -1
        else position s.size.toNat (high.getD (-1 - s.size))) = max (high.elim (-1) (position s.size.toNat)) (-1) := by
      cases high with
      | none => simp [position]; omega
      | some h => simp only [getD_some, elim_some]; omega
    rw [hlow] at hin ⊢
    rw [hhigh, ← firstDescending]
    simp only [hsize] at hin ⊢
    generalize firstDescending _ _ _ = low' at hin ⊢
    generalize max (_ : ℤ) _ = high' at hin ⊢
    split
    · exact ⟨_, rfl, le_rfl, fun _ => one_ne_zero, rfl⟩
    · next hlt =>
      rw [if_neg hlt] at hin
      have hcount : 0 ≤ (low' - high' - 1).tdiv (-d) := Int.tdiv_nonneg (by omega) (by omega)
      rw [if_neg (by omega)]
      exact ⟨_, rfl, by simp only; omega, fun h => mul_ne_zero h hstep, values_mk hs hin⟩
  · rw [if_pos hpos] at hin
    rw [if_pos hpos, if_pos hpos]
    rw [filter_ascending hpos] at hin ⊢
    have hhigh : (if position s.size.toNat (high.getD s.size) > s.size then s.size
        else position s.size.toNat (high.getD s.size)) =
          min (high.elim (s.size.toNat : ℤ) (position s.size.toNat)) (s.size.toNat : ℤ) := by
      cases high with
      | none => simp [position]; omega
      | some h => simp only [getD_some, elim_some]; omega
    rw [hhigh, ← firstAscending]
    simp only [hsize] at hin ⊢
    generalize firstAscending _ _ = low' at hin ⊢
    generalize min (_ : ℤ) _ = high' at hin ⊢
    split
    · exact ⟨_, rfl, le_rfl, fun _ => one_ne_zero, rfl⟩
    · next hlt =>
      rw [if_neg hlt] at hin
      have hcount : 0 ≤ (high' - low' - 1).tdiv d := Int.tdiv_nonneg (by omega) (by omega)
      rw [if_neg (by omega)]
      exact ⟨_, rfl, by simp only; omega, fun h => mul_ne_zero h hstep, values_mk hs hin⟩

/-! ## Intersections -/

@[simp] theorem values_empty : values {} = [] := rfl

@[simp] theorem length_values (s : IntegerSequence) : s.values.length = s.size.toNat := length_progression ..

theorem values_eq_nil (h : s.size = 0) : s.values = [] := by
  rw [values, h]
  rfl

theorem values_reversed (hs : 0 ≤ s.size) : s.reversed.values = s.values.reverse := by
  rw [values, values, reverse_progression, Int.toNat_of_nonneg hs]
  rfl

theorem values_offsetBy (s : IntegerSequence) (b : ℤ) : (s.offsetBy b).values = s.values.map (· + b) :=
  (map_add_progression ..).symm

/-- The elements of an ascending sequence. -/
theorem mem_values (hs : 0 < s.size) (hd : 0 < s.stride) :
    x ∈ s.values ↔ s.offset ≤ x ∧ x ≤ s.largestValue ∧ s.stride ∣ x - s.offset := by
  rw [values, mem_progression_iff hd, Int.toNat_of_nonneg hs.le, largestValue, if_pos hd]
  refine and_congr_right fun hle => and_congr_left fun hdvd => ?_
  constructor
  · intro hlt
    have hdvd' : s.stride ∣ s.offset + s.stride * s.size - x := by
      rw [show s.offset + s.stride * s.size - x = s.stride * s.size - (x - s.offset) by ring]
      exact dvd_sub (Dvd.intro _ rfl) hdvd
    have := Int.le_of_dvd (by omega) hdvd'
    linarith
  · intro hle
    linarith

/-- `modpower`'s loop ends where some power of `p` does what it looks for. -/
theorem modpowerLoop_spec (hp : 0 ≤ p) (hq : q ≠ 0) (k : ℕ) :
    ∀ fuel res, k < fuel → 0 ≤ res → res * p ^ (k + 1) % q = 1 →
      ∃ K, modpowerLoop p q fuel res = some K ∧ K * p % q = 1 := by
  induction k with
  | zero =>
    intro fuel res hfuel hres h
    obtain ⟨fuel, rfl⟩ := Nat.exists_eq_succ_of_ne_zero (by omega : fuel ≠ 0)
    rw [pow_one] at h
    refine ⟨res, ?_, h⟩
    rw [modpowerLoop, Int.tmod_eq_emod_of_nonneg (mul_nonneg hres hp), if_neg (not_not.2 h)]
  | succ k ih =>
    intro fuel res hfuel hres h
    obtain ⟨fuel, rfl⟩ := Nat.exists_eq_succ_of_ne_zero (by omega : fuel ≠ 0)
    rw [modpowerLoop, Int.tmod_eq_emod_of_nonneg (mul_nonneg hres hp)]
    split
    · refine ih fuel _ (by omega) (Int.emod_nonneg _ hq) ?_
      rw [Int.mul_emod, Int.emod_emod_of_dvd _ (dvd_refl q), ← Int.mul_emod, mul_assoc, ← pow_succ']
      exact h
    · next h1 => exact ⟨res, rfl, not_not.1 h1⟩

/-- Euler's theorem bounds the powers that `modpower` tries. -/
theorem modpower_spec (hp : 0 < p) (hpq : p < q ∨ p = q ∧ q = 1) (hcop : Int.gcd p q = 1) :
    ∃ K, modpower p q = some K ∧ q ∣ K * p - 1 := by
  simp only [modpower, hpq, bind_eq_bind]
  split
  · next h => exact ⟨1, rfl, by simp [h.1]⟩
  · next h =>
    lift p to ℕ using hp.le
    lift q to ℕ using by omega
    have htot : 0 < q.totient := Nat.totient_pos.2 (by omega)
    have hpow : (p : ℤ) ^ (q.totient - 1 + 1) % q = 1 := by
      have hmod := Nat.ModEq.pow_totient (x := p) (n := q) hcop
      rw [Nat.sub_add_cancel htot]
      have hint := (Int.natCast_modEq_iff.2 hmod).eq
      push_cast at hint
      rw [hint, Int.emod_eq_of_lt zero_le_one (by omega)]
    obtain ⟨K, hK, h1⟩ := modpowerLoop_spec (p := p) (q := q) (by omega) (by omega) (q.totient - 1) q 1
      (by have := Nat.totient_le q; omega) zero_le_one (by rwa [one_mul])
    exact ⟨K, hK, Int.dvd_self_sub_of_emod_eq h1⟩

/-- A point that both sequences reach. -/
theorem common_point {o₁ o₂ K : ℤ} (hg : g ≠ 0) (ha : g ∣ a) (hb : g ∣ b) (ho : g ∣ o₁ - o₂)
    (hK : b.tdiv g ∣ K * a.tdiv g - 1) :
    a ∣ o₁ - (o₁ - o₂).tdiv g * K * a - o₁ ∧ b ∣ o₁ - (o₁ - o₂).tdiv g * K * a - o₂ := by
  obtain ⟨p, rfl⟩ := ha
  obtain ⟨q, rfl⟩ := hb
  obtain ⟨m, hm⟩ := ho
  rw [Int.mul_tdiv_cancel_left _ hg, Int.mul_tdiv_cancel_left _ hg] at hK
  obtain ⟨c, hc⟩ := hK
  rw [hm, Int.mul_tdiv_cancel_left _ hg]
  refine ⟨⟨-(m * K), by ring⟩, ⟨-(m * c), ?_⟩⟩
  have hsplit : o₁ - m * K * (g * p) - o₂ = (o₁ - o₂) - g * m * (K * p) := by ring
  rw [hsplit, hm, show K * p = q * c + 1 by linarith]
  ring

/-- The first common point that is not before `far`. -/
theorem reduced_spec {L c far : ℤ} (hL : 0 < L) :
    far ≤ reduced c far L ∧ reduced c far L < far + L ∧ L ∣ reduced c far L - c := by
  unfold reduced
  split
  · obtain ⟨h1, h2, h3⟩ := roundUp_spec hL (v := far - c) (by omega)
    exact ⟨by omega, by omega, by rwa [add_sub_cancel_left]⟩
  · obtain ⟨h1, h2, h3⟩ := roundDown_spec hL (v := c - far) (by omega)
    exact ⟨by omega, by omega, by rw [sub_sub_cancel_left]; exact h3.neg_right⟩

/-- `modpower` is asked for something that exists. -/
theorem modpower_strides (ha : 0 < a) (hle : a ≤ b) (hg : g = Int.gcd b a) :
    ∃ K, modpower (a.tdiv g) (b.tdiv g) = some K ∧ b.tdiv g ∣ K * a.tdiv g - 1 := by
  have hpos : 0 < Int.gcd b a := Int.gcd_pos_of_ne_zero_right _ ha.ne'
  have hga : g ∣ a := hg ▸ Int.gcd_dvd_right ..
  have hgb : g ∣ b := hg ▸ Int.gcd_dvd_left ..
  have hgpos : 0 < g := by omega
  rw [Int.tdiv_eq_ediv_of_nonneg ha.le, Int.tdiv_eq_ediv_of_nonneg (by omega)]
  refine modpower_spec (Int.ediv_pos_of_pos_of_dvd ha hgpos.le hga) ?_ ?_
  · rcases (Int.ediv_le_ediv hgpos hle).lt_or_eq with hlt | heq
    · exact .inl hlt
    · have hab : a = b := by rw [← Int.ediv_mul_cancel hga, ← Int.ediv_mul_cancel hgb, heq]
      subst hab
      rw [hg, Int.gcd_self, Int.natCast_natAbs, abs_of_pos ha, Int.ediv_self ha.ne']
      exact .inr ⟨rfl, rfl⟩
  · rw [Int.gcd_comm, hg]
    exact Int.gcd_ediv_gcd_ediv_gcd hpos

/-- What the intersection of two ascending sequences is. -/
structure Meets (s t r : IntegerSequence) : Prop where
  size_nonneg : 0 ≤ r.size
  stride_pos : r.size ≠ 0 → 0 < r.stride
  mem_iff : ∀ x, x ∈ r.values ↔ x ∈ s.values ∧ x ∈ t.values

theorem intersectOrdered_spec (hs : 0 < s.size) (ht : 0 < t.size) (hd : 0 < s.stride)
    (hle : s.stride ≤ t.stride) : ∃ r, s.intersectOrdered t = some r ∧ Meets s t r := by
  have hd' : 0 < t.stride := by omega
  have hmem : ∀ x, x ∈ s.values ∧ x ∈ t.values ↔ max s.offset t.offset ≤ x ∧
      x ≤ min s.largestValue t.largestValue ∧ s.stride ∣ x - s.offset ∧ t.stride ∣ x - t.offset := by
    intro x
    rw [mem_values hs hd, mem_values ht hd', max_le_iff, le_min_iff]
    tauto
  unfold intersectOrdered
  simp only
  have hgs : (Int.gcd t.stride s.stride : ℤ) ∣ s.stride := Int.gcd_dvd_right ..
  have hgt : (Int.gcd t.stride s.stride : ℤ) ∣ t.stride := Int.gcd_dvd_left ..
  have hg : (Int.gcd t.stride s.stride : ℤ) ≠ 0 := by
    intro h
    rw [h, zero_dvd_iff] at hgs
    omega
  split
  · next hno =>
    refine ⟨_, rfl, le_rfl, fun h => absurd rfl h, fun x => ?_⟩
    rw [hmem, values_empty]
    refine ⟨nofun, ?_⟩
    rintro ⟨-, -, h1, h2⟩
    refine absurd (Int.tmod_eq_zero_of_dvd ?_) hno
    have := dvd_sub (hgt.trans h2) (hgs.trans h1)
    rwa [sub_sub_sub_cancel_left] at this
  · next hdvd =>
    have hdvd := Int.dvd_of_tmod_eq_zero (not_not.1 hdvd)
    obtain ⟨K, hK, hdvdK⟩ := modpower_strides hd hle rfl
    obtain ⟨hcs, hct⟩ := common_point hg hgs hgt hdvd hdvdK
    rw [hK]
    simp only [bind_eq_bind, bind_some, Int.tmod_eq_zero_of_dvd hct]
    have hL : (0 : ℤ) < Int.lcm t.stride s.stride := by exact_mod_cast Int.lcm_pos hd'.ne' hd.ne'
    generalize s.offset - _ * K * s.stride = c at hcs hct ⊢
    obtain ⟨hfar, hnear, hLc⟩ := @reduced_spec _ c (max s.offset t.offset) hL
    generalize reduced c _ _ = c' at hfar hnear hLc ⊢
    have hcs' : s.stride ∣ c' - s.offset := by
      rw [← sub_add_sub_cancel c' c]
      exact dvd_add ((Int.dvd_lcm_right ..).trans hLc) hcs
    have hct' : t.stride ∣ c' - t.offset := by
      rw [← sub_add_sub_cancel c' c]
      exact dvd_add ((Int.dvd_lcm_left ..).trans hLc) hct
    simp only [Int.tmod_eq_zero_of_dvd hct']
    have hclass : ∀ x, s.stride ∣ x - s.offset ∧ t.stride ∣ x - t.offset ↔
        (Int.lcm t.stride s.stride : ℤ) ∣ x - c' := by
      intro x
      rw [Int.coe_lcm_dvd_iff, and_comm, ← sub_add_sub_cancel x c' t.offset, dvd_add_left hct',
        ← sub_add_sub_cancel x c' s.offset, dvd_add_left hcs']
    have hmem' : ∀ x, x ∈ s.values ∧ x ∈ t.values ↔
        c' ≤ x ∧ x < min s.largestValue t.largestValue + 1 ∧ (Int.lcm t.stride s.stride : ℤ) ∣ x - c' := by
      intro x
      rw [hmem, hclass, Int.lt_add_one_iff]
      constructor
      · rintro ⟨h1, h2, h3⟩
        exact ⟨le_of_dvd h3 (by omega), h2, h3⟩
      · rintro ⟨h1, h2, h3⟩
        exact ⟨by omega, h2, h3⟩
    generalize min s.largestValue t.largestValue = top at hmem' ⊢
    split
    · next hlt =>
      refine ⟨_, rfl, le_rfl, fun h => absurd rfl h, fun x => ?_⟩
      rw [hmem', values_empty]
      exact ⟨nofun, fun h => by omega⟩
    · next hge =>
      have hcount : (roundUp (top + 1 - c') (Int.lcm t.stride s.stride)).tdiv (Int.lcm t.stride s.stride) =
          (top + 1 - c' - 1).tdiv (Int.lcm t.stride s.stride) + 1 := by
        rw [roundUp, Int.mul_tdiv_cancel _ hL.ne']
      have hnn : 0 ≤ (top + 1 - c' - 1).tdiv (Int.lcm t.stride s.stride) := Int.tdiv_nonneg (by omega) hL.le
      rw [hcount]
      refine ⟨_, rfl, by simp only; omega, fun _ => hL, fun x => ?_⟩
      rw [hmem', values, mem_progression_before hL (by omega)]

theorem intersectPositive_spec (hs : 0 < s.size) (ht : 0 < t.size) (hd : 0 < s.stride)
    (hd' : 0 < t.stride) : ∃ r, s.intersectPositive t = some r ∧ Meets s t r := by
  unfold intersectPositive
  split
  · next h =>
    obtain ⟨r, hr, hsize, hstride, hmem⟩ := intersectOrdered_spec ht hs hd' (by omega)
    exact ⟨r, hr, hsize, hstride, fun x => by rw [hmem, and_comm]⟩
  · next h => exact intersectOrdered_spec hs ht hd (by omega)

/-- The elements of the intersection of two ascending sequences, in order. -/
theorem Meets.values_eq (h : Meets s t r) (hd : 0 < s.stride) : r.values = s.values.filter (· ∈ t.values) := by
  refine eq_of_ascending ?_ ((pairwise_progression hd).filter _) fun x => ?_
  · rcases eq_or_ne r.size 0 with h0 | h0
    · rw [values_eq_nil h0]
      exact .nil
    · exact pairwise_progression (h.stride_pos h0)
  · rw [h.mem_iff, mem_filter, decide_eq_true_iff]

/-- An intersection lists the elements of the first sequence that are in the second one, in the order
of the first one. -/
theorem intersect_values (hs : 0 ≤ s.size) (ht : 0 ≤ t.size) (hd : s.stride ≠ 0) (hd' : t.stride ≠ 0) :
    ∃ r, s.intersect t = some r ∧ 0 ≤ r.size ∧ (r.size ≠ 0 → 0 < r.stride * s.stride) ∧
      r.values = s.values.filter (· ∈ t.values) := by
  unfold intersect
  split
  · next h0 =>
    refine ⟨_, rfl, le_rfl, fun h => absurd rfl h, ?_⟩
    rcases h0 with h0 | h0 <;> simp [values_eq_nil h0]
  next h0 =>
  simp only [hd, hd', ne_eq, not_false_eq_true, and_self, Option.pure_def, bind_eq_bind]
  obtain ⟨t', ht', hpos, hsize, hmem⟩ : ∃ t',
      t' = (if t.stride < 0 then t.reversed else t) ∧ 0 < t'.stride ∧ 0 < t'.size ∧
        ∀ x, x ∈ t'.values ↔ x ∈ t.values := by
    refine ⟨_, rfl, ?_⟩
    split
    · next hneg =>
      refine ⟨neg_pos.2 hneg, ?_, fun x => by rw [values_reversed ht, mem_reverse]⟩
      show 0 < t.size
      omega
    · exact ⟨by omega, by omega, fun x => Iff.rfl⟩
  rw [← ht']
  split
  · next hneg =>
    have hrev : 0 < s.reversed.stride := neg_pos.2 hneg
    obtain ⟨r, hr, hmeets⟩ := intersectPositive_spec (s := s.reversed) (t := t')
      (show 0 < s.size by omega) hsize hrev hpos
    rw [hr]
    refine ⟨_, rfl, hmeets.size_nonneg, fun h => ?_, ?_⟩
    · exact mul_pos_of_neg_of_neg (neg_neg_of_pos (hmeets.stride_pos h)) hneg
    · rw [values_reversed hmeets.size_nonneg, hmeets.values_eq hrev, values_reversed hs,
        filter_reverse, reverse_reverse]
      simp only [hmem]
  · next hneg =>
    obtain ⟨r, hr, hmeets⟩ := intersectPositive_spec (s := s) (t := t') (by omega) hsize (by omega) hpos
    refine ⟨_, hr, hmeets.size_nonneg, fun h => mul_pos (hmeets.stride_pos h) (by omega), ?_⟩
    rw [hmeets.values_eq (by omega)]
    simp only [hmem]

/-- The neighbouring integers that a range lists. -/
theorem mem_range_values : x ∈ (range count low).values ↔ low ≤ x ∧ x < low + count := by
  show x ∈ progression count.toNat low 1 ↔ _
  rw [mem_progression_iff one_pos]
  omega

/-- A slice by a sequence lists the elements at the positions in the sequence, in the order of the
sequence. -/
theorem sliceSequence_values (hs : 0 ≤ s.size) (ht : 0 ≤ t.size) (hd : t.stride ≠ 0) :
    ∃ r, s.sliceSequence t = some r ∧ 0 ≤ r.size ∧ r.values = select s.values t.values := by
  obtain ⟨q, hq, hsize, hstride, hvalues⟩ := intersect_values (s := t) (t := range s.size) ht hs hd one_ne_zero
  have hselect : select s.values q.values = select s.values t.values := by
    rw [hvalues]
    refine select_filter fun i _ h0 hi => ?_
    rw [decide_eq_true_iff, mem_range_values]
    rw [length_values] at hi
    omega
  have hin : ∀ x ∈ q.values, 0 ≤ x ∧ x < s.size := by
    intro x hx
    rw [hvalues, mem_filter, decide_eq_true_iff, mem_range_values] at hx
    omega
  unfold sliceSequence
  rw [hq, ← hselect]
  simp only [bind_eq_bind, bind_some]
  split
  · next h0 =>
    refine ⟨_, rfl, le_rfl, ?_⟩
    rw [values_eq_nil h0]
    rfl
  next h0 =>
  have hfirst : q.offset ∈ q.values := by
    rw [values, mem_progression]
    exact ⟨0, by omega, by simp⟩
  have hlast : q.offset + q.stride * (q.size - 1) ∈ q.values := by
    rw [values, mem_progression]
    exact ⟨q.size.toNat - 1, by omega, by rw [Nat.cast_sub (by omega), Int.toNat_of_nonneg hsize]; rfl⟩
  have h1 := hin _ hfirst
  have h2 := hin _ hlast
  have hcount : (if q.stride > 0 then min q.size ((s.size - q.offset - 1).tdiv q.stride + 1)
      else min q.size (q.offset.tdiv (-q.stride) + 1)) = q.size := by
    split
    · next hpos =>
      rw [Int.tdiv_eq_ediv_of_nonneg (by omega)]
      have hle : q.size - 1 ≤ (s.size - q.offset - 1) / q.stride :=
        (Int.le_ediv_iff_mul_le hpos).2 (by linarith [mul_comm q.stride (q.size - 1)])
      omega
    · next hneg =>
      have hneg : q.stride < 0 := by
        refine lt_of_le_of_ne (not_lt.1 hneg) fun h => ?_
        have := hstride h0
        simp [h] at this
      rw [Int.tdiv_eq_ediv_of_nonneg h1.1]
      have hle : q.size - 1 ≤ q.offset / -q.stride :=
        (Int.le_ediv_iff_mul_le (by omega)).2 (by linarith [mul_comm q.stride (q.size - 1)])
      omega
  rw [hcount, if_neg (not_lt.2 hsize)]
  refine ⟨_, rfl, hsize, ?_⟩
  rw [mul_comm s.stride q.offset]
  exact values_mk hs hin

end IntegerSequence
