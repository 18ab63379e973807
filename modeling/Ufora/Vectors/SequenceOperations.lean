import Ufora.Vectors.AssociateValues

/-!
# What the operations on integer sequences mean

`core/math/IntegerSequence.test.cpp` says by loops over the elements what `intersect` and the two forms of
`slice` should give (namespace `Tests`). A start that is outside the list after a negative one was counted
from the end goes on by whole strides until it is inside. `RangeToIntegerSequence::compose`
(`core/math/RangeToIntegerSequence.hppml`) rounds the ends of its domain inwards.
-/

open Selection ListSlice List Option Int

namespace IntegerSequence

/-! ## The loops of the tests -/

namespace Tests

variable {α : Type} (i : List α)

/-- `slice(i, seq)`. -/
def sliceSequence (seq : IntegerSequence) : List α :=
  (List.range seq.size.toNat).filterMap fun k : ℕ => nth i (seq.offsetForIndex k)

/-- `while (start < 0) start += stride`, for a positive stride. -/
def raise (stride start : ℤ) : ℤ :=
  if 0 < stride ∧ start < 0 then raise stride (start + stride) else start
termination_by (-start).toNat

/-- `while (start >= size) start += stride`, for a negative stride. -/
def lower (size stride start : ℤ) : ℤ :=
  if stride < 0 ∧ size ≤ start then lower size stride (start + stride) else start
termination_by (start + 1 - size).toNat

/-- The elements that the last loop for a positive stride collects, `start` not being negative. -/
def collectUp (stop stride start : ℤ) : List α :=
  if 0 < stride ∧ start < stop ∧ start < i.length then
    (nth i start).toList ++ collectUp stop stride (start + stride)
  else []
termination_by (i.length - start).toNat

/-- The elements that the last loop for a negative stride collects. -/
def collectDown (stop stride start : ℤ) : List α :=
  if stride < 0 ∧ stop < start ∧ 0 ≤ start then
    (nth i start).toList ++ collectDown stop stride (start + stride)
  else []
termination_by (start + 1).toNat

/-- `slice(i, s1, s2, s3)`. -/
def slice (s1 s2 s3 : Option ℤ) : Option (List α) := do
  let stride := s3.getD 1
  guard (stride ≠ 0)
  if stride > 0 then
    let start := s1.getD 0
    let start := if start < 0 then start + i.length else start
    let stop := s2.getD i.length
    let stop := if stop < 0 then stop + i.length else stop
    return collectUp i stop stride (raise stride start)
  else
    let start := s1.getD (i.length - 1)
    let start := if start < 0 then start + i.length else start
    let stop := s2.getD (-1 - i.length)
    let stop := if stop < 0 then stop + i.length else stop
    return collectDown i stop stride (lower i.length stride start)

variable {i} {stop d start x : ℤ} {n : ℕ}

/-- One stride on, the class of the start is the same. -/
theorem dvd_sub_add : d ∣ x - (start + d) ↔ d ∣ x - start := by
  rw [← sub_sub, dvd_sub_self_right]

/-- What is beyond the start is at least a stride beyond it. -/
theorem add_le_of_dvd (h : d ∣ x - start) (hlt : start < x) : start + d ≤ x := le_of_dvd (dvd_sub_add.2 h) (by omega)

theorem le_add_of_dvd (h : d ∣ x - start) (hlt : x < start) : x ≤ start + d := by
  have hneg : -d ∣ start + d - x := by
    rw [neg_dvd, ← neg_sub, dvd_neg]
    exact dvd_sub_add.2 h
  exact le_of_dvd hneg (by omega)

theorem raise_iff (hx : 0 ≤ x) : raise d start ≤ x ∧ d ∣ x - raise d start ↔ start ≤ x ∧ d ∣ x - start := by
  fun_induction raise d start with
  | case1 start h ih =>
    rw [ih, dvd_sub_add]
    exact and_congr_left fun hdvd => ⟨fun _ => by omega, fun _ => add_le_of_dvd hdvd (by omega)⟩
  | case2 => rfl

theorem raise_nonneg (hd : 0 < d) : 0 ≤ raise d start := by
  fun_induction raise d start with
  | case1 start h ih => exact ih
  | case2 start h => omega

theorem lower_iff (hx : x < n) : x ≤ lower n d start ∧ d ∣ x - lower n d start ↔ x ≤ start ∧ d ∣ x - start := by
  fun_induction lower n d start with
  | case1 start h ih =>
    rw [ih, dvd_sub_add]
    exact and_congr_left fun hdvd => ⟨fun _ => by omega, fun _ => le_add_of_dvd hdvd (by omega)⟩
  | case2 => rfl

theorem lower_lt (hd : d < 0) : lower n d start < n := by
  fun_induction lower n d start with
  | case1 start h ih => exact ih
  | case2 start h => omega

/-- The loop collects the elements at the positions from the start on, in its class, before `stop`. -/
theorem collectUp_eq (hd : 0 < d) (h0 : 0 ≤ start) : collectUp i stop d start =
      select i ((progression i.length 0 1).filter fun x => start ≤ x ∧ x < stop ∧ d ∣ x - start) := by
  fun_induction collectUp i stop d start with
  | case1 start h ih =>
    have hcons : ((progression i.length 0 1).filter fun x => start ≤ x ∧ x < stop ∧ d ∣ x - start) =
        start :: (progression i.length 0 1).filter fun x =>
          start + d ≤ x ∧ x < stop ∧ d ∣ x - (start + d) := by
      have hsorted := pairwise_progression (n := i.length) (a := 0) one_pos
      refine eq_of_ascending (hsorted.filter _) ?_ fun x => ?_
      · refine pairwise_cons.2 ⟨fun x hx => ?_, hsorted.filter _⟩
        have := of_decide_eq_true (mem_filter.1 hx).2
        omega
      · simp only [mem_cons, mem_filter, mem_positions, decide_eq_true_iff, dvd_sub_add]
        constructor
        · rintro ⟨hin, hle, hlt, hdvd⟩
          rcases hle.eq_or_lt with rfl | hne
          · exact .inl rfl
          · exact .inr ⟨hin, add_le_of_dvd hdvd hne, hlt, hdvd⟩
        · rintro (rfl | ⟨hin, hle, hlt, hdvd⟩)
          · exact ⟨⟨h0, h.2.2⟩, le_rfl, h.2.1, by simp⟩
          · exact ⟨hin, by omega, hlt, hdvd⟩
    rw [hcons, ih (by omega), select, select, filterMap_cons]
    cases nth i start <;> rfl
  | case2 start h =>
    rw [filter_eq_nil_iff.2, select_nil]
    intro x hx
    have := mem_positions.1 hx
    simp only [decide_eq_true_iff]
    omega

/-- The same backwards. -/
theorem collectDown_eq (hd : d < 0) (hn : start < i.length) : collectDown i stop d start = select i
      ((progression i.length 0 1).reverse.filter fun x => x ≤ start ∧ stop < x ∧ d ∣ x - start) := by
  fun_induction collectDown i stop d start with
  | case1 start h ih =>
    have hcons : ((progression i.length 0 1).reverse.filter fun x => x ≤ start ∧ stop < x ∧ d ∣ x - start) =
        start :: (progression i.length 0 1).reverse.filter fun x =>
          x ≤ start + d ∧ stop < x ∧ d ∣ x - (start + d) := by
      have hsorted := pairwise_reverse.2 (pairwise_progression (n := i.length) (a := 0) one_pos)
      refine eq_of_descending (hsorted.filter _) ?_ fun x => ?_
      · refine pairwise_cons.2 ⟨fun x hx => ?_, hsorted.filter _⟩
        have := of_decide_eq_true (mem_filter.1 hx).2
        omega
      · simp only [mem_cons, mem_filter, mem_reverse, mem_positions, decide_eq_true_iff, dvd_sub_add]
        constructor
        · rintro ⟨hin, hle, hlt, hdvd⟩
          rcases hle.eq_or_lt with rfl | hne
          · exact .inl rfl
          · exact .inr ⟨hin, le_add_of_dvd hdvd hne, hlt, hdvd⟩
        · rintro (rfl | ⟨hin, hle, hlt, hdvd⟩)
          · exact ⟨⟨h.2.2, hn⟩, le_rfl, h.2.1, by simp⟩
          · exact ⟨hin, by omega, hlt, hdvd⟩
    rw [hcons, ih (by omega), select, select, filterMap_cons]
    cases nth i start <;> rfl
  | case2 start h =>
    rw [filter_eq_nil_iff.2, select_nil]
    intro x hx
    have := mem_positions.1 (mem_reverse.1 hx)
    simp only [decide_eq_true_iff]
    omega

variable (i) in
/-- The loops collect the elements at the positions that the bounds stand for. -/
theorem slice_eq {low high stride : Option ℤ} (hd : stride ≠ some 0) :
    slice i low high stride = some (select i (slicePositions i.length low high stride)) := by
  have hstep : stride.getD 1 ≠ 0 := by
    cases stride with
    | none => simp
    | some d => simpa using hd
  unfold slice slicePositions
  generalize stride.getD 1 = d at hstep ⊢
  simp only [hstep, ne_eq, not_false_eq_true, Option.pure_def, bind_eq_bind]
  rcases lt_or_gt_of_ne hstep with hneg | hpos
  · rw [if_neg (not_lt.2 hneg.le), if_neg (not_lt.2 hneg.le), collectDown_eq hneg (lower_lt hneg)]
    refine congrArg (fun positions => some (select i positions)) (filter_congr fun x hx => ?_)
    have hin := mem_positions.1 (mem_reverse.1 hx)
    have hfirst := @lower_iff d (position i.length (low.getD (i.length - 1))) _ _ hin.2
    rw [decide_eq_decide]
    cases high <;> simp only [position, getD_none, getD_some, elim_none, elim_some] at hfirst ⊢ <;> grind
  · rw [if_pos hpos, if_pos hpos, collectUp_eq hpos (raise_nonneg hpos)]
    refine congrArg (fun positions => some (select i positions)) (filter_congr fun x hx => ?_)
    have hin := mem_positions.1 hx
    have hfirst := @raise_iff d (position i.length (low.getD 0)) _ hin.1
    rw [decide_eq_decide]
    cases high <;> simp only [position, getD_none, getD_some, elim_none, elim_some] at hfirst ⊢ <;> grind

/-- Indexing by each element of a sequence. -/
theorem sliceSequence_eq (i : List α) (seq : IntegerSequence) : sliceSequence i seq = select i seq.values := by
  rw [select, values, progression, filterMap_map]
  rfl

end Tests

variable {s t : IntegerSequence}

/-- An intersection lists the elements of the first sequence that the second one has, as the first one
does. -/
theorem intersect_correct (hs : 0 ≤ s.size) (ht : 0 ≤ t.size) (hd : s.stride ≠ 0) (hd' : t.stride ≠ 0) :
    ∃ r, s.intersect t = some r ∧ r.values = s.values.filter (· ∈ t.values) := by
  obtain ⟨r, hr, -, -, hvalues⟩ := intersect_values hs ht hd hd'
  exact ⟨r, hr, hvalues⟩

/-- Downwards by threes and upwards by twos. -/
theorem intersect_correct_twelve : ∃ r, intersect ⟨5, 12, -3⟩ ⟨7, 0, 2⟩ = some r ∧ r.values = [12, 6, 0] := by
  obtain ⟨r, hr, hvalues⟩ := intersect_correct (s := ⟨5, 12, -3⟩) (t := ⟨7, 0, 2⟩) (by decide) (by decide)
    (by decide) (by decide)
  exact ⟨r, hr, hvalues.trans (by decide)⟩

/-- Both forms of `slice` do what the loops of the tests do. A sequence of positions has to have a stride
where there is something to slice. -/
theorem slices_correct {low high stride : Option ℤ} (hs : 0 ≤ s.size) (ht : 0 ≤ t.size)
    (hstride : stride ≠ some 0) (hd : s.size ≠ 0 → t.size ≠ 0 → t.stride ≠ 0) :
    (∃ r, s.sliceBounds low high stride = some r ∧ Tests.slice s.values low high stride = some r.values) ∧
      ∃ r, s.sliceSequence t = some r ∧ r.values = Tests.sliceSequence s.values t := by
  constructor
  · obtain ⟨r, hr, -, -, hvalues⟩ := @sliceBounds_values _ hs low high _ hstride
    refine ⟨r, hr, ?_⟩
    rw [Tests.slice_eq _ hstride, length_values, hvalues]
  rw [Tests.sliceSequence_eq]
  by_cases h0 : s.size = 0 ∨ t.size = 0
  · have hempty : t.intersect (range s.size) = some {} := if_pos h0.symm
    refine ⟨{}, by rw [sliceSequence, hempty]; rfl, ?_⟩
    rcases h0 with h0 | h0 <;> simp [values_eq_nil h0]
  · rw [not_or] at h0
    obtain ⟨r, hr, -, hvalues⟩ := sliceSequence_values hs ht (hd h0.1 h0.2)
    exact ⟨r, hr, hvalues⟩

/-- Four elements backwards by twos, from far behind the end. -/
theorem slices_correct_four : (∃ r, sliceBounds ⟨4, 10, 5⟩ (some 8) none (some (-2)) = some r ∧ r.values = [20, 10]) ∧
      ∃ r, sliceSequence ⟨4, 10, 5⟩ ⟨3, -1, 2⟩ = some r ∧ r.values = [15, 25] := by
  obtain ⟨⟨r, hr, hvalues⟩, r', hr', hvalues'⟩ := @slices_correct ⟨4, 10, 5⟩ ⟨3, -1, 2⟩
    (some 8) none (some (-2)) (by decide) (by decide) (by decide) (by decide)
  refine ⟨⟨r, hr, ?_⟩, r', hr', hvalues'.trans (by decide)⟩
  rw [Tests.slice_eq _ (by decide), some_inj] at hvalues
  exact hvalues.symm.trans (by decide)

/-- The same position again and again is not allowed. -/
theorem not_slices_correct : ¬ ∀ s t : IntegerSequence, 0 ≤ s.size → 0 ≤ t.size →
    ∃ r, s.sliceSequence t = some r ∧ r.values = Tests.sliceSequence s.values t := by
  intro h
  obtain ⟨r, hr, -⟩ := h ⟨2, 0, 1⟩ ⟨2, 0, 0⟩ (by decide) (by decide)
  exact nomatch hr

end IntegerSequence

namespace RangeToIntegerSequence

/-! ## Compositions -/

mutual

/-- `divideRoundingUp(val, mul)`, of an integer that is not 0. -/
def divideRoundingUp (val mul : ℤ) : ℤ :=
  if val = 0 then 0
  else if mul < 0 then -divideRoundingDown val (-mul)
  else if val < 0 then -divideRoundingDown (-val) mul
  else (val - 1).tdiv mul + 1
termination_by (if val < 0 then 1 else 0) + if mul < 0 then 1 else 0
decreasing_by all_goals grind

/-- `divideRoundingDown(val, mul)`. -/
def divideRoundingDown (val mul : ℤ) : ℤ :=
  if val = 0 then 0
  else if val < 0 then -divideRoundingUp (-val) mul
  else if mul < 0 then -divideRoundingUp val (-mul)
  else val.tdiv mul
termination_by (if val < 0 then 1 else 0) + if mul < 0 then 1 else 0
decreasing_by all_goals grind

end

/-- `old.compose(first)`. -/
def compose (old first : RangeToIntegerSequence) : Option RangeToIntegerSequence := do
  guard (first.stride ≠ 0)
  let newLowIndex :=
    if first.stride > 0 then divideRoundingUp (old.lowIndex - first.offset) first.stride
    else divideRoundingDown (old.highIndex - first.offset) first.stride + 1
  let newHighIndex :=
    if first.stride > 0 then divideRoundingUp (old.highIndex - first.offset) first.stride
    else divideRoundingDown (old.lowIndex - first.offset) first.stride + 1
  return ⟨max newLowIndex first.lowIndex, min newHighIndex first.highIndex,
    old.offset + first.offset * old.stride, old.stride * first.stride⟩

variable {old first : RangeToIntegerSequence} {v m x : ℤ}

/-- Rounding where nothing is mirrored. -/
theorem le_divideRoundingDown_of_nonneg (hm : 0 < m) (hv : 0 ≤ v) : x ≤ divideRoundingDown v m ↔ x * m ≤ v := by
  rw [divideRoundingDown]
  rcases hv.eq_or_lt with rfl | hpos
  · rw [if_pos rfl, mul_nonpos_iff]
    omega
  · rw [if_neg hpos.ne', if_neg hv.not_gt, if_neg hm.not_gt, Int.tdiv_eq_ediv_of_nonneg hv, Int.le_ediv_iff_mul_le hm]

theorem divideRoundingUp_le (hm : 0 < m) : divideRoundingUp v m ≤ x ↔ v ≤ x * m := by
  rw [divideRoundingUp]
  rcases lt_trichotomy v 0 with hv | rfl | hv
  · rw [if_neg hv.ne, if_neg hm.not_gt, if_pos hv, neg_le,
      le_divideRoundingDown_of_nonneg hm (neg_pos.2 hv).le, neg_mul, neg_le_neg_iff]
  · rw [if_pos rfl, mul_nonneg_iff_of_pos_right hm]
  · rw [if_neg hv.ne', if_neg hm.not_gt, if_neg hv.not_gt, tdiv_eq_ediv_of_nonneg (by omega),
      Int.add_one_le_iff, Int.ediv_lt_iff_lt_mul hm]
    omega

/-- Rounding down for a negative divisor. -/
theorem le_divideRoundingDown (hm : m < 0) : x ≤ divideRoundingDown v m ↔ v ≤ x * m := by
  have hm' : 0 < -m := neg_pos.2 hm
  rw [divideRoundingDown]
  rcases lt_trichotomy v 0 with hv | rfl | hv
  · rw [if_neg hv.ne, if_pos hv, divideRoundingUp, if_neg (neg_pos.2 hv).ne', if_pos hm, neg_neg,
      le_divideRoundingDown_of_nonneg hm' (neg_pos.2 hv).le, mul_neg, neg_le_neg_iff]
  · rw [if_pos rfl]
    constructor
    · exact fun hx => mul_nonneg_of_nonpos_of_nonpos hx hm.le
    · exact fun h => nonpos_of_mul_nonneg_left h hm
  · rw [if_neg hv.ne', if_neg hv.not_gt, if_pos hm, le_neg, divideRoundingUp_le hm', neg_mul_neg]

/-- A composition is defined where both are, and has the value there. -/
theorem compose_correct (h : first.stride ≠ 0) : ∃ c, old.compose first = some c ∧ ∀ x,
    (c.indexIsValid x ↔ first.indexIsValid x ∧ old.indexIsValid (first.offsetForIndex x)) ∧
      c.offsetForIndex x = old.offsetForIndex (first.offsetForIndex x) := by
  unfold compose
  simp only [h, ne_eq, not_false_eq_true, Option.pure_def, bind_eq_bind]
  refine ⟨_, rfl, fun x => ⟨?_, ?_⟩⟩
  · unfold indexIsValid offsetForIndex
    simp only [ge_iff_le, max_le_iff, lt_min_iff]
    rcases lt_or_gt_of_ne h with hneg | hpos
    · rw [if_neg hneg.not_gt, if_neg hneg.not_gt, add_one_le_iff, lt_add_one_iff,
        le_divideRoundingDown hneg, ← not_le, le_divideRoundingDown hneg, mul_comm x]
      omega
    · rw [if_pos hpos, if_pos hpos, divideRoundingUp_le hpos, ← not_le, divideRoundingUp_le hpos, mul_comm x]
      omega
  · unfold offsetForIndex
    ring

/-- A map of six indices after one that goes backwards from 9 by twos: it is defined from 2 to 4. -/
theorem compose_correct_backwards :
    ∃ c, compose ⟨1, 6, 100, 10⟩ ⟨0, 8, 9, -2⟩ = some c ∧ (∀ x, c.indexIsValid x ↔ 2 ≤ x ∧ x ≤ 4) ∧
      c.offsetForIndex 3 = 130 := by
  obtain ⟨c, hc, hvalues⟩ := @compose_correct ⟨1, 6, 100, 10⟩ ⟨0, 8, 9, -2⟩ (by decide)
  refine ⟨c, hc, fun x => (hvalues x).1.trans ?_, (hvalues 3).2.trans (by decide)⟩
  simp only [indexIsValid, offsetForIndex]
  omega

end RangeToIntegerSequence
