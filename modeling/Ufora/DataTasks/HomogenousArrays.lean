import Ufora.DataTasks.SortingSpine
import Mathlib

/-!
# Sorted arrays

`assignBinsToSortedArray` walks the splits and the values of an array together, where
`assignBinsToUnsortedArray` looks each value up. They agree where `operator<` is an order on what they compare
(`Orders`), and where the loop for an array whose values are all of one type, which reads every split value that
it meets as one of that type, does not meet one that it reads wrongly (`Readable`). Neither holds of every sorted
array (`not_assignBinsToSortedArray_eq`).
-/

open List

namespace DataTasks.SortingSpine

/-! ## The loop over splits and values -/

section
variable {ν γ : Type} {mTopBin bin : γ} {less : ν → ν → Bool} {splits : List (ν × γ)} {array : List ν}

/-- The loop assigns the bins of the splits that it is given, or the top bin. -/
theorem mem_assignWith (h : bin ∈ assignWith less mTopBin splits array) : bin ∈ splits.map Prod.snd ++ [mTopBin] := by
  fun_induction assignWith less mTopBin splits array with
  | case1 array =>
    obtain ⟨_, -, rfl⟩ := mem_map.1 h
    exact .head _
  | case2 => cases h
  | case3 split splits curValue array hless ih =>
    rcases mem_cons.1 h with rfl | h
    · exact .head _
    · exact ih h
  | case4 split splits curValue array hless ih => exact .tail _ (ih h)

variable [LT ν] [DecidableLT ν] {value : ν} {split : ν × γ}

/-- So does the search. -/
theorem binAt_upperBound_mem (mTopBin : γ) (value : ν) (splits : List (ν × γ)) :
    binAt mTopBin (upperBound value splits) ∈ splits.map Prod.snd ++ [mTopBin] := by
  cases hbound : upperBound value splits with
  | nil => exact mem_append_right _ (.head _)
  | cons split rest =>
    have hmem : split ∈ upperBound value splits := hbound ▸ .head _
    exact mem_append_left _ (mem_map_of_mem ((dropWhile_sublist _).subset hmem))

theorem upperBound_cons_of_lt (h : value < split.1) : upperBound value (split :: splits) = split :: splits := by
  simp [upperBound, h]

theorem upperBound_cons_of_not_lt (h : ¬ value < split.1) :
    upperBound value (split :: splits) = upperBound value splits := by
  simp [upperBound, h]

/-- Where each split has a bin of its own, a value with the first bin is below the first split. -/
theorem lt_of_binAt_eq (hbins : ((split :: splits).map Prod.snd ++ [mTopBin]).Nodup)
    (h : binAt mTopBin (upperBound value (split :: splits)) = split.2) : value < split.1 := by
  by_contra hlt
  rw [upperBound_cons_of_not_lt hlt] at h
  exact (nodup_cons.1 hbins).1 (h ▸ binAt_upperBound_mem mTopBin value splits)

variable (less) in
/-- A way of comparing agrees with `operator<` wherever the loop compares. -/
def Agree : List (ν × γ) → List ν → Prop
  | [], _ => True
  | _ :: _, [] => True
  | split :: splits, curValue :: array =>
    (less curValue split.1 ↔ curValue < split.1) ∧
      if curValue < split.1 then Agree (split :: splits) array else Agree splits (curValue :: array)
termination_by splits array => splits.length + array.length

variable (splits) in
/-- No value is below a split that one before it is not below. -/
def Follows (array : List ν) : Prop :=
  array.Pairwise fun value value' => ∀ split ∈ splits, value' < split.1 → value < split.1

/-- The loop never goes back to a split value: nothing that follows is below it. -/
theorem assignWith_of_agree (hagree : Agree less splits array) (hfollows : Follows splits array) :
    assignWith less mTopBin splits array = array.map fun value => binAt mTopBin (upperBound value splits) := by
  fun_induction assignWith less mTopBin splits array with
  | case1 | case2 => rfl
  | case3 split splits curValue array hless ih =>
    rw [Agree] at hagree
    have hlt := hagree.1.1 hless
    rw [if_pos hlt] at hagree
    rw [ih hagree.2 hfollows.of_cons, map_cons, upperBound_cons_of_lt hlt]
    rfl
  | case4 split splits curValue array hless ih =>
    rw [Agree] at hagree
    have hlt := mt hagree.1.2 hless
    rw [if_neg hlt] at hagree
    rw [ih hagree.2 (hfollows.imp fun h split' hs => h split' (.tail _ hs))]
    refine map_congr_left fun value hvalue => ?_
    rcases mem_cons.1 hvalue with rfl | hmem
    · rw [upperBound_cons_of_not_lt hlt]
    · rw [upperBound_cons_of_not_lt fun hv => hlt ((pairwise_cons.1 hfollows).1 value hmem split (.head _) hv)]

/-- Where each split has a bin of its own, a comparison that comes out otherwise, or a value that should have gone
back, is in another bin. -/
theorem agree_of_assignWith (hbins : (splits.map Prod.snd ++ [mTopBin]).Nodup)
    (hsorted : splits.Pairwise fun split split' => split.1 < split'.1)
    (hbound : ∀ value ∈ array, ∀ split ∈ splits, ∀ split' ∈ splits,
      value < split.1 → split.1 < split'.1 → value < split'.1)
    (h : assignWith less mTopBin splits array = array.map fun value => binAt mTopBin (upperBound value splits)) :
    Agree less splits array ∧ Follows splits array := by
  fun_induction assignWith less mTopBin splits array with
  | case1 array =>
    rw [Agree]
    exact ⟨trivial, pairwise_of_forall fun _ _ => by simp⟩
  | case2 =>
    rw [Agree]
    exact ⟨trivial, .nil⟩
  | case3 split splits curValue array hless ih =>
    obtain ⟨hhead, htail⟩ := cons.inj h
    have hlt := lt_of_binAt_eq hbins hhead.symm
    obtain ⟨hagree, hfollows⟩ := ih hbins hsorted (fun v hv => hbound v (.tail _ hv)) htail
    rw [Agree, if_pos hlt]
    refine ⟨⟨iff_of_true hless hlt, hagree⟩, pairwise_cons.2 ⟨fun _ _ split' hs _ => ?_, hfollows⟩⟩
    rcases mem_cons.1 hs with rfl | hs
    · exact hlt
    · exact hbound _ (.head _) _ (.head _) _ (.tail _ hs) hlt ((pairwise_cons.1 hsorted).1 split' hs)
  | case4 split splits curValue array hless ih =>
    have hnot : ∀ value ∈ curValue :: array, ¬ value < split.1 := by
      intro value hvalue hlt
      have hmem := mem_map_of_mem (f := fun value => binAt mTopBin (upperBound value (split :: splits))) hvalue
      rw [← h, upperBound_cons_of_lt hlt] at hmem
      exact (nodup_cons.1 hbins).1 (mem_assignWith hmem)
    obtain ⟨hagree, hfollows⟩ := ih (nodup_cons.1 hbins).2 hsorted.of_cons
      (fun v hv split hs split' hs' => hbound v hv split (.tail _ hs) split' (.tail _ hs'))
      (h.trans (map_congr_left fun value hv => by rw [upperBound_cons_of_not_lt (hnot value hv)]))
    rw [Agree, if_neg (hnot _ (.head _))]
    refine ⟨⟨iff_of_false hless (hnot _ (.head _)), hagree⟩, ?_⟩
    refine hfollows.imp_of_mem fun _ hv hall split' hs hlt => ?_
    rcases mem_cons.1 hs with rfl | hs
    · exact absurd hlt (hnot _ hv)
    · exact hall split' hs hlt

/-- Comparisons that always come out alike do so in the loop. -/
theorem agree_of_forall (h : ∀ split ∈ splits, ∀ value ∈ array, less value split.1 ↔ value < split.1) :
    Agree less splits array := by
  fun_induction Agree less splits array with
  | case1 | case2 => trivial
  | case3 split splits curValue array ih ih' =>
    refine ⟨h split (.head _) curValue (.head _), ?_⟩
    split
    · exact ih fun split' hs value hv => h split' hs value (.tail _ hv)
    · exact ih' fun split' hs value hv => h split' (.tail _ hs) value hv

end

/-! ## Sorted and unsorted arrays -/

section
variable {ν JOV Data γ : Type} [DecidableEq JOV] [LT ν] [DecidableLT ν] (e : Elements ν JOV Data)
  (s : SortingSpine ν γ)

/-- What `upper_bound` asks of `operator<`: a value below a split is below the splits above it. -/
def Bounded (array : List ν) : Prop := ∀ value ∈ array, ∀ split ∈ s.mSplits, ∀ split' ∈ s.mSplits,
  value < split.1 → split.1 < split'.1 → value < split'.1

/-- `operator<` orders the splits and the values of an array, and the array is in this order. -/
def Orders (array : List ν) : Prop := s.Bounded array ∧ Follows s.mSplits array

/-- The splits that the loop over a homogenous array has to meet compare with its values, when read as of their type,
as `operator<` does. -/
def Readable (array : ForaValueArray e) : Prop := array.isHomogenous → ∀ value ∈ array.values.head?,
    Agree (predicateFor e (e.jov value)) s.mSplits array.values

/-- An array gets the bins that it gets as an unsorted one where `operator<` orders it and its splits can be read,
and only there if each bin is used once. -/
theorem assignBinsToSortedArray_eq (array : ForaValueArray e) :
    (s.Orders array.values ∧ s.Readable e array →
      s.assignBinsToSortedArray e array = s.assignBinsToUnsortedArray array.values) ∧
    ((s.mSplits.map Prod.snd ++ [s.mTopBin]).Nodup → s.Bounded array.values →
      s.assignBinsToSortedArray e array = s.assignBinsToUnsortedArray array.values →
      s.Orders array.values ∧ s.Readable e array) := by
  have hself : Agree (fun curValue split => decide (curValue < split)) s.mSplits array.values :=
    agree_of_forall fun _ _ _ _ => decide_eq_true_iff
  obtain ⟨values, isHomogenous, same⟩ := array
  cases isHomogenous with
  | false =>
    refine ⟨fun h => assignWith_of_agree hself h.1.2, fun hbins hbound heq => ⟨⟨hbound, ?_⟩, nofun⟩⟩
    exact (agree_of_assignWith hbins s.sorted hbound heq).2
  | true =>
    cases values with
    | nil =>
      refine ⟨fun h => assignWith_of_agree hself h.1.2, fun _ hbound _ => ⟨⟨hbound, .nil⟩, fun _ => ?_⟩⟩
      simp
    | cons value values =>
      refine ⟨fun h => assignWith_of_agree (h.2 rfl value rfl) h.1.2, fun hbins hbound heq => ?_⟩
      obtain ⟨hagree, hfollows⟩ := agree_of_assignWith hbins s.sorted hbound heq
      refine ⟨⟨hbound, hfollows⟩, fun _ value' hv => ?_⟩
      obtain rfl := Option.some.inj hv
      exact hagree

/-- Splits of the type of the array can be read. -/
theorem readable_of_jov {array : ForaValueArray e}
    (h : ∀ split ∈ s.mSplits, ∀ value ∈ array.values, e.jov value = e.jov split.1) : s.Readable e array := by
  refine fun hh first hfirst => agree_of_forall fun split hs value hv => ?_
  rw [e.lt_iff, if_neg (not_not.2 (h split hs value hv)), ← array.same hh first (mem_of_mem_head? hfirst) value hv]
  rfl

end

/-- A sorted array is in order where nothing compares as NaN does, which is neither below nor above two values of
which one is below the other. -/
theorem orders_of_sorted {ν γ : Type} [Preorder ν] [DecidableLT ν] {s : SortingSpine ν γ} {array : List ν}
    (hnan : ∀ value ∈ array, ∀ value' ∈ array, ∀ split ∈ s.mSplits,
      ¬ value' < value → ¬ value < split.1 → ¬ value' < split.1)
    (h : array.Pairwise fun value value' => ¬ value' < value) : s.Orders array :=
  ⟨fun _ _ _ _ _ _ => lt_trans, h.imp_of_mem fun hv hv' hnot split hs =>
    not_imp_not.1 (hnan _ hv _ hv' split hs hnot)⟩

/-! ## Splits of another type, and values that are no numbers -/

/-- Integers of two types, of which the first has the greater hash: the comparison for either of them reads a value
of the other one as one of its own. -/
def twoTypes : Elements (Bool ×ₗ ℤ) Bool ℤ where
  ptr v := (ofLex v).2
  jov v := (ofLex v).1
  typeHash j := j.toNat
  predicate _ a b := a < b
  lt_iff a b := by
    obtain ⟨⟨i, x⟩, rfl⟩ := toLex.surjective a
    obtain ⟨⟨j, y⟩, rfl⟩ := toLex.surjective b
    rw [Prod.Lex.toLex_lt_toLex]
    cases i <;> cases j <;> simp <;> exact decide_eq_true_iff.symm

/-- A sorted array of the type of the split. -/
theorem assignBinsToSortedArray_eq_ofOneType :
    assignBinsToSortedArray twoTypes { mSplits := [(toLex (true, 5), 0)], mTopBin := 1 }
      ⟨[toLex (true, 3), toLex (true, 7)], true, by simp [twoTypes]⟩ =
      assignBinsToUnsortedArray { mSplits := [(toLex (true, 5), 0)], mTopBin := 1 }
        [toLex (true, 3), toLex (true, 7)] :=
  (assignBinsToSortedArray_eq twoTypes _ _).1
    ⟨orders_of_sorted (fun _ _ _ _ _ _ h h' => not_lt.2 ((not_lt.1 h').trans (not_lt.1 h))) (by decide),
      readable_of_jov twoTypes _ (by simp [twoTypes])⟩

/-- A `double`, of which `none` is NaN. -/
structure Double where
  number : Option ℤ

instance : LT Double := ⟨fun a b => ∃ x ∈ a.number, ∃ y ∈ b.number, x < y⟩

instance : DecidableLT Double := fun a b => inferInstanceAs (Decidable (∃ x ∈ a.number, ∃ y ∈ b.number, x < y))

/-- Numbers of one type, compared as `comparison<double>` does. -/
def doubles : Elements Double Unit Double where
  ptr := id
  jov _ := ()
  typeHash _ := 0
  predicate _ a b := a < b
  lt_iff a b := by simp

/-- An array of the greater type belongs into the top bin, and its values that are below the split as integers do not
get there. Behind a NaN, which no split is above, every value of an array gets into the top bin. -/
theorem not_assignBinsToSortedArray_eq :
    (¬ ∀ (s : SortingSpine (Bool ×ₗ ℤ) ℕ) (array : ForaValueArray twoTypes),
      (array.values.Pairwise fun value value' => ¬ value' < value) →
        s.assignBinsToSortedArray twoTypes array = s.assignBinsToUnsortedArray array.values) ∧
    ¬ ∀ (s : SortingSpine Double ℕ) (array : ForaValueArray doubles),
      (array.values.Pairwise fun value value' => ¬ value' < value) →
        s.assignBinsToSortedArray doubles array = s.assignBinsToUnsortedArray array.values := by
  refine ⟨fun h => ?_, fun h => ?_⟩
  · have := h { mSplits := [(toLex (false, 5), 0)], mTopBin := 1 } ⟨[toLex (true, 3)], true, by simp⟩ (by simp)
    simp [assignBinsToSortedArray, assignWith, predicateFor, twoTypes, assignBinsToUnsortedArray, binFor,
      upperBound, binAt, dropWhile, Prod.Lex.toLex_le_toLex] at this
  · have := h { mSplits := [(⟨some 2⟩, 0)], mTopBin := 1 } ⟨[⟨none⟩, ⟨some 1⟩], true, by simp [doubles]⟩ (by decide)
    simp [assignBinsToSortedArray, assignWith, predicateFor, doubles, assignBinsToUnsortedArray, binFor,
      upperBound, binAt, dropWhile] at this
    revert this
    decide

end DataTasks.SortingSpine
