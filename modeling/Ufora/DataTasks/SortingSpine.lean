import Ufora.Lib.Effect
import Mathlib.Data.List.TakeWhile
import Mathlib.Data.List.Pairwise

/-!
# `SortingSpine`

`cumulus/DistributedDataTasks/SortingSpine.hppml`: the map from the values of a task to their bins. Every
split value has the bin on its left side; the values that no split value is above are in the top bin. A
split value is compared by `operator<` only, which is `<` here. Of a `double` that is no number it is no order:
only to split a bin is `<` asked to be one.
-/

open Effect List Prod

namespace DataTasks

/-- A `SortingSpine`. The entries of the map are in the order of their keys. -/
structure SortingSpine (ν γ : Type) [LT ν] where
  mSplits : List (ν × γ) := []
  mTopBin : γ
  sorted : mSplits.Pairwise fun split split' => split.1 < split'.1 := by simp

/-- The assertion of `splitBin`: there is a split at this value. -/
inductive SpineError where
  | alreadySplit

namespace SortingSpine

section
variable {ν γ : Type} [LT ν] [DecidableLT ν] (value : ν) (splits : List (ν × γ))

/-- `upper_bound(value)`, an iterator being the entries from there on. -/
def upperBound : List (ν × γ) := splits.dropWhile fun split => ¬ value < split.1

/-- The entries up to `upper_bound(value)`. -/
def lowerPart : List (ν × γ) := splits.takeWhile fun split => ¬ value < split.1

/-- The two parts are the entries. -/
theorem lowerPart_append_upperBound : lowerPart value splits ++ upperBound value splits = splits :=
  takeWhile_append_dropWhile

/-- `mSplits.find(value) == mSplits.end()`. -/
def IsNew : Prop := ∀ split ∈ splits, split.1 < value ∨ value < split.1

instance (splits : List (ν × γ)) : Decidable (IsNew value splits) := inferInstanceAs (Decidable (∀ split ∈ splits, _))

end

section
variable {ν γ : Type}

/-- `it->second`, or the top bin at the end. -/
def binAt (mTopBin : γ) : List (ν × γ) → γ
  | [] => mTopBin
  | split :: _ => split.2

/-- The entries after `it->second = bin`. -/
def withBinAt (bin : γ) : List (ν × γ) → List (ν × γ)
  | [] => []
  | split :: splits => (split.1, bin) :: splits

/-- The top bin after `it->second = bin`, or `mTopBin = bin` at the end. -/
def topBinAt (mTopBin bin : γ) : List (ν × γ) → γ
  | [] => bin
  | _ :: _ => mTopBin

/-- The split values stay. -/
@[simp] theorem map_withBinAt (bin : γ) (splits : List (ν × γ)) : (withBinAt bin splits).map fst = splits.map fst := by
  cases splits <;> rfl

end

section
variable {ν γ : Type} [Preorder ν] [DecidableLT ν]

/-- A split goes between the entries below its value and those above it. -/
theorem sorted_split {left right : γ} {value : ν} {splits : List (ν × γ)}
    (hs : splits.Pairwise fun split split' => split.1 < split'.1) (hv : IsNew value splits) :
    (lowerPart value splits ++ (value, left) :: withBinAt right (upperBound value splits)).Pairwise
      fun split split' => split.1 < split'.1 := by
  have hkeys : ((lowerPart value splits).map fst ++ (upperBound value splits).map fst).Pairwise (· < ·) := by
    rw [← map_append, lowerPart_append_upperBound, pairwise_map]
    exact hs
  have hlower : ∀ x ∈ (lowerPart value splits).map fst, x < value := by
    intro x hx
    obtain ⟨split, hsplit, rfl⟩ := mem_map.1 hx
    have hle := mem_takeWhile_imp hsplit
    exact (hv split ((takeWhile_sublist _).subset hsplit)).resolve_right (by simpa using hle)
  have hupper : ∀ x ∈ (upperBound value splits).map fst, value < x := by
    rw [pairwise_append] at hkeys
    cases hu : upperBound value splits with
    | nil => simp
    | cons next rest =>
      have hnext : value < next.1 := by
        have hdrop := List.head?_dropWhile_not (fun split : ν × γ => ¬ value < split.1) splits
        rw [show splits.dropWhile _ = next :: rest from hu] at hdrop
        simpa using hdrop
      rw [hu, map_cons, pairwise_cons] at hkeys
      intro x hx
      rcases mem_cons.1 hx with rfl | hx
      · exact hnext
      · exact hnext.trans (hkeys.2.1.1 x hx)
  suffices ((lowerPart value splits ++
      (value, left) :: withBinAt right (upperBound value splits)).map fst).Pairwise (· < ·) from
    pairwise_map.1 this
  rw [pairwise_append] at hkeys
  rw [map_append, map_cons, map_withBinAt, pairwise_append, pairwise_cons]
  refine ⟨hkeys.1, ⟨hupper, hkeys.2.1⟩, fun x hx y hy => ?_⟩
  rcases mem_cons.1 hy with rfl | hy
  · exact hlower x hx
  · exact hkeys.2.2 x hx y hy

/-- `splitBin(leftSplitBin, rightSplitBin, value)`. -/
def splitBin (leftSplitBin rightSplitBin : γ) (value : ν) : EStateM SpineError (SortingSpine ν γ) γ := do
  let s ← get
  if hv : IsNew value s.mSplits then
    set { s with
      mSplits := lowerPart value s.mSplits ++
        (value, leftSplitBin) :: withBinAt rightSplitBin (upperBound value s.mSplits)
      mTopBin := topBinAt s.mTopBin rightSplitBin (upperBound value s.mSplits)
      sorted := sorted_split s.sorted hv }
    return binAt s.mTopBin (upperBound value s.mSplits)
  else throw .alreadySplit

end

/-! ## Arrays -/

section
variable {ν γ : Type} (less : ν → ν → Bool)

/-- The loops of `assignBinsToSortedArray` with one way of comparing a value with a split, at the iterators
`curSplitIt` and `curIndex`. -/
def assignWith (mTopBin : γ) : List (ν × γ) → List ν → List γ
  | [], array => array.map fun _ => mTopBin
  | _ :: _, [] => []
  | split :: splits, curValue :: array =>
    if less curValue split.1 then split.2 :: assignWith mTopBin (split :: splits) array
    else assignWith mTopBin splits (curValue :: array)
termination_by splits array => splits.length + array.length

end

end SortingSpine

/-- The values that splits and arrays hold: where they are and as what they are to be read. Their `<` is
`operator<`. -/
structure Elements (ν JOV Data : Type) [DecidableEq JOV] [LT ν] where
  ptr : ν → Data
  jov : ν → JOV
  typeHash : JOV → ℕ
  /-- `LexicalUforaValueComparisonPredicateForSingleJOV(jov)`. -/
  predicate : JOV → Data → Data → Bool
  lt_iff : ∀ a b : ν, a < b ↔
    if jov a ≠ jov b then typeHash (jov a) < typeHash (jov b) else predicate (jov a) (ptr a) (ptr b)

/-- A `ForaValueArray`. -/
structure ForaValueArray {ν JOV Data : Type} [DecidableEq JOV] [LT ν] (e : Elements ν JOV Data) where
  values : List ν
  isHomogenous : Bool
  same : isHomogenous → ∀ v ∈ values, ∀ v' ∈ values, e.jov v = e.jov v'

namespace SortingSpine

variable {ν JOV Data γ : Type} [DecidableEq JOV] [LT ν] [DecidableLT ν] (e : Elements ν JOV Data)
  (s : SortingSpine ν γ)

/-- The bin that a value is assigned. -/
def binFor (value : ν) : γ := binAt s.mTopBin (upperBound value s.mSplits)

/-- `assignBinsToUnsortedArray(array, outBins)`, with `outBins` a vector. -/
def assignBinsToUnsortedArray (array : List ν) : List γ := array.map s.binFor

/-- A value of an array of one type is compared with a split. -/
def predicateFor (singleJov : JOV) (curValue split : ν) : Bool := e.predicate singleJov (e.ptr curValue) (e.ptr split)

/-- `assignBinsToSortedArray(array, outBins)`. -/
def assignBinsToSortedArray (array : ForaValueArray e) : List γ :=
  match array.isHomogenous, array.values with
  | true, value :: _ => assignWith (predicateFor e (e.jov value)) s.mTopBin s.mSplits array.values
  | _, _ => assignWith (fun curValue split => curValue < split) s.mTopBin s.mSplits array.values

end SortingSpine

end DataTasks
