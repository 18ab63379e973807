import Ufora.Lib.Effect
import Ufora.Pages.Basic
import Ufora.Vectors.IntegerSequence

/-!
# Page layouts

`BigVectorPageLayout` (`FORA/TypedFora/ABI/BigVectorPageLayout.{hppml,cpp}`): the values of a paged
vector as a list of page slices, each a sequence of positions in the values of one page. An operation
is `none` where an `lassert` of it fails, the bounds checks of the containers among them. The type
judgments of layouts, which no operation reads, are left out.
-/

open Selection Ordered

namespace TypedFora.Vectors

/-- `VectorDataID`: ids are compared by their hash, which names one id, so that comparing the page too
makes no difference. -/
structure VectorDataID where
  hash : Hash
  /-- `getPage()`. -/
  page : Fora.PageId
  deriving DecidableEq

/-- `VectorDataIDSlice`: some of the values of a page. -/
structure VectorDataIDSlice where
  vector : VectorDataID
  slice : IntegerSequence
  deriving DecidableEq

namespace VectorDataIDSlice

def size (s : VectorDataIDSlice) : ℤ := s.slice.size

/-- `slice(low, high, stride)`. -/
def sliceBounds (s : VectorDataIDSlice) (low high stride : Option ℤ) : Option VectorDataIDSlice :=
  (s.slice.sliceBounds low high stride).map (⟨s.vector, ·⟩)

/-- `slice(seq)`. -/
def sliceSequence (s : VectorDataIDSlice) (seq : IntegerSequence) : Option VectorDataIDSlice :=
  (s.slice.sliceSequence seq).map (⟨s.vector, ·⟩)

def isSequentialWith (s other : VectorDataIDSlice) : Option VectorDataIDSlice :=
  if s.vector ≠ other.vector then none
  else (s.slice.isSequentialWith other.slice).map (⟨s.vector, ·⟩)

/-- The values that a slice stands for: the page and the position in it. -/
def elements (s : VectorDataIDSlice) : List (VectorDataID × ℤ) := s.slice.values.map (s.vector, ·)

end VectorDataIDSlice

/-- `ImmutableTreeSet::lowerBound`. -/
def lowerBound (s : Finset ℤ) (value : ℤ) : ℕ := ((ascending s).takeWhile (· < value)).length

/-- `BigVectorPageLayout`. -/
structure BigVectorPageLayout where
  vectorIdentities : List VectorDataIDSlice := []
  /-- The `ImmutableTreeSet` of the number of values up to the end of each slice. -/
  cumulativeSizes : Finset ℤ := ∅
  cumulativeBytecounts : Finset ℕ := ∅
  identity : Fora.BigVectorId := Abi.BigVectorPageLayout.default.identity

/-- `BigVectorSlice`: a stretch of the values of a vector. -/
structure BigVectorSlice where
  identity : Hash
  indexLow : ℕ
  indexHigh : ℕ

namespace BigVectorPageLayout

/-- What the loop of the constructor keeps: `cumulativeOffset`, `cumulativeBytecount` and the two sets. -/
structure Totals where
  cumulativeOffset : ℤ := 0
  cumulativeBytecount : ℕ := 0
  cumulativeSizes : Finset ℤ := ∅
  cumulativeBytecounts : Finset ℕ := ∅

/-- A round of the loop of the constructor. -/
def Totals.add (totals : Totals) (slice : VectorDataIDSlice) : Totals :=
  let cumulativeOffset := totals.cumulativeOffset + slice.size
  let cumulativeBytecount := totals.cumulativeBytecount + slice.vector.page.bytecount
  { cumulativeOffset, cumulativeBytecount
    cumulativeSizes := insert cumulativeOffset totals.cumulativeSizes
    cumulativeBytecounts := insert cumulativeBytecount totals.cumulativeBytecounts }

variable (slices : List VectorDataIDSlice)

/-- The constructor that takes the slices. -/
def ofSlices (inGuid : Hash) : BigVectorPageLayout :=
  let totals := slices.foldl Totals.add {}
  { vectorIdentities := slices
    cumulativeSizes := totals.cumulativeSizes
    cumulativeBytecounts := totals.cumulativeBytecounts
    identity := { guid := inGuid, size := totals.cumulativeOffset.toNat } }

def size (layout : BigVectorPageLayout) : ℤ := layout.identity.size

variable (layout : BigVectorPageLayout)

def startIndex (slice : ℕ) : Option ℤ :=
  if slice = 0 then some 0 else (ascending layout.cumulativeSizes)[slice - 1]?

def sliceAtIndex (index : ℤ) : Option ℕ := do
  guard (index ≥ 0 ∧ index ≤ layout.size)
  let sliceContaining := lowerBound layout.cumulativeSizes index
  let total ← (ascending layout.cumulativeSizes)[sliceContaining]?
  return if total = index then sliceContaining + 1 else sliceContaining

def addIfNonempty (vec : List VectorDataIDSlice) (slice : VectorDataIDSlice) : List VectorDataIDSlice :=
  if slice.slice.size ≠ 0 then vec ++ [slice] else vec

def sliceContaining (cumulativeSizes : Finset ℤ) (offset : ℤ) : ℕ :=
  let lb := lowerBound cumulativeSizes offset
  if lb ≥ cumulativeSizes.card then cumulativeSizes.card - 1
  else if (ascending cumulativeSizes)[lb]? = some offset then lb + 1
  else lb

/-- `slicesCoveringRange(sequence)`. -/
def slicesCoveringSequence (sequence : IntegerSequence) : Option (List VectorDataIDSlice) :=
  if sequence.size = 0 ∨ layout.cumulativeSizes.card = 0 then some []
  else do
    let sequence ← sequence.intersect (.range layout.size)
    let first := sliceContaining layout.cumulativeSizes sequence.smallestValue
    let last := sliceContaining layout.cumulativeSizes sequence.largestValue
    let tr ← (List.range' first (min (last + 1) layout.vectorIdentities.length - first)).foldlM
      (fun tr slice => do
        let start ← layout.startIndex slice
        let page ← layout.vectorIdentities[slice]?
        return addIfNonempty tr (← page.sliceSequence (sequence.offsetBy (-start)))) []
    guard ((tr.map (·.slice.size)).sum = sequence.size)
    return tr

/-- `slicesCoveringRange(lowValue, highValue)`. -/
def slicesCoveringRange (lowValue highValue : ℤ) : Option (List VectorDataIDSlice) :=
  layout.slicesCoveringSequence (.range (highValue - lowValue) lowValue)

def concatenate (lhs rhs : BigVectorPageLayout) (inGuid : Hash) : BigVectorPageLayout :=
  ofSlices (rhs.vectorIdentities.foldl (fun slices next =>
    match slices.getLast?.bind (·.isSequentialWith next) with
    | some fused => slices.dropLast ++ [fused]
    | none => slices ++ [next]) lhs.vectorIdentities) inGuid

/-- The loop of `slice` over page slices for a positive stride. -/
def everyStride (ids : List VectorDataIDSlice) (strideVal : ℤ) : Option (List VectorDataIDSlice × ℤ) :=
  ids.foldlM (fun (newIds, cumulativeOffset) id => do
    let suboffset := strideVal - cumulativeOffset.tmod strideVal
    let suboffset := if suboffset = strideVal then 0 else suboffset
    let subslice ← id.sliceBounds (some suboffset) none (some strideVal)
    return (if subslice.size ≠ 0 then newIds ++ [subslice] else newIds, cumulativeOffset + id.size))
    ([], 0)

/-- The loop of `slice` over page slices for a negative stride, from the last page slice on. -/
def everyStrideBackwards (ids : List VectorDataIDSlice) (strideVal : ℤ) : Option (List VectorDataIDSlice × ℤ) :=
  let positiveStride := -strideVal
  ids.reverse.foldlM (fun (newIds, cumulativeOffset) id => do
    let offset :=
      if cumulativeOffset.tmod positiveStride ≠ 0 then
        positiveStride - cumulativeOffset.tmod positiveStride
      else 0
    if offset < id.size then
      let subslice ← id.sliceBounds (some (id.size - 1 - offset)) none (some strideVal)
      return (if subslice.size ≠ 0 then newIds ++ [subslice] else newIds, cumulativeOffset + id.size)
    else return (newIds, cumulativeOffset + id.size))
    ([], 0)

/-- `slice(newRange, inGuid)`. -/
def sliceSequence (newRange : IntegerSequence) (inGuid : Hash) : Option BigVectorPageLayout := do
  let lowVal := newRange.offset
  let highVal := newRange.endValue
  let strideVal := newRange.stride
  guard (strideVal ≠ 0)
  if newRange.size = 0 then return {}
  if strideVal > 0 then
    if strideVal = 1 then return ofSlices (← layout.slicesCoveringRange lowVal highVal) inGuid
    let ids ← layout.slicesCoveringRange lowVal highVal
    return ofSlices (← everyStride ids strideVal).1 inGuid
  else
    let containingRange := newRange.containingRange
    let ids ← layout.slicesCoveringSequence (.ofRange containingRange)
    guard ((ids.map (·.size)).sum = containingRange.size)
    return ofSlices (← everyStrideBackwards ids strideVal).1 inGuid

/-- `slice(low, high, stride, inGuid)`. -/
def sliceBounds (layout : BigVectorPageLayout) (low high stride : Option ℤ) (inGuid : Hash) :
    Option BigVectorPageLayout := do
  layout.sliceSequence (← (IntegerSequence.range layout.size).sliceBounds low high stride) inGuid

def mapIndicesToExactSliceRange (slice : BigVectorSlice) : Option (Option (ℕ × ℕ)) := do
  let lowSlice ← layout.sliceAtIndex slice.indexLow
  let highSlice ← layout.sliceAtIndex slice.indexHigh
  if (← layout.startIndex lowSlice) = slice.indexLow ∧ (← layout.startIndex highSlice) = slice.indexHigh then
    return some (lowSlice, highSlice)
  return none

/-- The values that page slices stand for. -/
def elementsOf : List (VectorDataID × ℤ) := slices.flatMap VectorDataIDSlice.elements

/-- The values that a layout stands for. -/
def elements : List (VectorDataID × ℤ) := elementsOf layout.vectorIdentities

/-- The number of values up to the end of each slice. -/
def runningTotals : List ℤ :=
  (List.range slices.length).map fun k => ((slices.take (k + 1)).map VectorDataIDSlice.size).sum

/-- A layout of nonempty page slices whose totals are right. -/
structure WellFormed (layout : BigVectorPageLayout) : Prop where
  nonempty : ∀ s ∈ layout.vectorIdentities, 0 < s.size
  cumulative : ascending layout.cumulativeSizes = runningTotals layout.vectorIdentities
  size_eq : layout.size = (layout.vectorIdentities.map VectorDataIDSlice.size).sum

end BigVectorPageLayout

end TypedFora.Vectors
