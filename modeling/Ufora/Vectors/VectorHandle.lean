import Ufora.Vectors.LayoutOperations
import Ufora.Vectors.PageletTree

/-!
# Vector handles

`VectorHandle` and `VectorRecord` (`FORA/TypedFora/ABI/VectorHandle.{hpp,cppml}`,
`VectorRecord.{hpp,cpp}`): the values of a vector, first those in pages, then those of a pagelet tree,
then those of an array of its own, and the records that view a stretch of them. `BigVectorLayouts`
remembers the layout of each `BigVectorId`; a handle holds the layout itself here. An operation is
`none` where an `lassert` of it fails.
-/

open Selection IntegerSequence

namespace TypedFora.Vectors

/-- What is read of a `MemoryPool`. -/
structure MemoryPool where
  isExecutionContextPool : Bool

/-- `ForaValueArray`. -/
structure ForaValueArray (α : Type) where
  values : List α := []
  mIsWriteable : Bool := true

namespace ForaValueArray

variable {α : Type} (array : ForaValueArray α)

def size : ℤ := array.values.length

/-- `append(inOtherArray, lowIndex, highIndex)`, and `ValueDeepcopier::duplicate` of such a range. -/
def appendRange (source : ForaValueArray α) (lowIndex highIndex : ℤ) : ForaValueArray α :=
  { array with values := array.values ++ (source.values.take highIndex.toNat).drop lowIndex.toNat }

/-- `append` of a single value. -/
def append (value : α) : ForaValueArray α := { array with values := array.values ++ [value] }

end ForaValueArray

/-- `VectorHandle`. -/
structure VectorHandle (α : Type) where
  /-- The layout of `mBigVectorId`. -/
  mBigVector : BigVectorPageLayout
  mPageletTreePtr : Option (Fora.PageletTree α)
  mUnpagedValues : Option (ForaValueArray α)
  mIsWriteable : Bool
  mVectorHash : Hash
  mSize : ℤ
  mPagedAndPageletTreeValueCount : ℤ

/-- A constant mixed into the hash of a vector for a related one. -/
def kGenerateRandomButRelatedHashMixinValue : Hash := 1013125

/-- `hash_type(kGenerateRandomButRelatedHashMixinValue, ix)` added to a hash. The parameter is the sum of
hashes, in the order of its arguments. -/
def relatedHash (add : Hash → Hash → Hash) (hash : Hash) (ix : ℕ) : Hash :=
  add hash (kGenerateRandomButRelatedHashMixinValue * 2 ^ 128 + ix * 2 ^ 96)

namespace VectorHandle

variable {α : Type}

/-- The constructor. -/
def make (identity : BigVectorPageLayout) (pageletTreePtr : Option (Fora.PageletTree α))
    (unpagedValues : Option (ForaValueArray α)) (owningMemoryPool : MemoryPool) (vectorHash : Hash) :
    VectorHandle α :=
  let pageletCount : ℤ := pageletTreePtr.elim 0 fun tree => tree.size
  { mBigVector := identity
    mPageletTreePtr := pageletTreePtr
    mUnpagedValues := unpagedValues
    mIsWriteable := owningMemoryPool.isExecutionContextPool
    mVectorHash := vectorHash
    mSize := identity.size + unpagedValues.elim 0 ForaValueArray.size + pageletCount
    mPagedAndPageletTreeValueCount := identity.size + pageletCount }

variable (h : VectorHandle α)

def size : ℤ := h.mSize

def pageletTreeValueCount : ℤ := h.mPageletTreePtr.elim 0 fun tree => tree.size

def pagedValueCount : ℤ := h.mPagedAndPageletTreeValueCount - h.pageletTreeValueCount

def pagedAndPageletTreeValueCount : ℤ := h.mPagedAndPageletTreeValueCount

def unpagedValueCount : ℤ := h.mSize - h.mPagedAndPageletTreeValueCount

/-- The visitor of `slice`: it appends those values of a pagelet that are in the slice. -/
def appendFromPagelet (pageletPortionInOwnCoords : IntegerSequence) (newArray : ForaValueArray α) :
    Fora.PageletTree.Visit α → Option (ForaValueArray α)
  | (pagelet, range, offsetInTree) => do
    let sequenceInPageletTree := IntegerSequence.range range.size offsetInTree
    let sequenceInPageletTreeToKeep ← sequenceInPageletTree.intersect pageletPortionInOwnCoords
    let sequenceInPageletToKeep := sequenceInPageletTreeToKeep.offsetBy (-offsetInTree)
    if sequenceInPageletToKeep.size = 0 then return newArray
    guard (sequenceInPageletToKeep.smallestValue ≥ 0 ∧ sequenceInPageletToKeep.largestValue < pagelet.length)
    if sequenceInPageletToKeep.stride = 1 then
      return newArray.appendRange ⟨pagelet, false⟩ sequenceInPageletToKeep.smallestValue
        (sequenceInPageletToKeep.smallestValue + sequenceInPageletToKeep.size)
    return (List.range sequenceInPageletToKeep.size.toNat).foldl (fun newArray (k : ℕ) =>
      newArray.appendRange ⟨pagelet, false⟩ (sequenceInPageletToKeep.offsetForIndex k)
        (sequenceInPageletToKeep.offsetForIndex k + 1)) newArray

/-- The part of `slice` that goes through the pagelet tree. -/
def appendFromPageletTree (pageletPortion : IntegerSequence) (newArray : ForaValueArray α) :
    Option (ForaValueArray α) :=
  if pageletPortion.size = 0 then some newArray
  else do
    let oldSize := newArray.size
    let tree ← h.mPageletTreePtr
    let newArray ← (tree.visitTree ⟨0, tree.size⟩ 0 false).foldlM
      (appendFromPagelet (pageletPortion.offsetBy (-h.pagedValueCount))) newArray
    guard (newArray.size = oldSize + pageletPortion.size)
    return newArray

/-- The part of `slice` that goes through the values of the handle's own array. -/
def appendFromUnpaged (unpagedPortion : IntegerSequence) (newArray : ForaValueArray α) : Option (ForaValueArray α) :=
  if unpagedPortion.size = 0 then some newArray
  else do
    let oldSize := newArray.size
    let unpagedPortionInOwnCoords := unpagedPortion.offsetBy (-h.pagedAndPageletTreeValueCount)
    let values ← h.mUnpagedValues
    let newArray ←
      if unpagedPortion.stride = 1 then
        some (newArray.appendRange values unpagedPortionInOwnCoords.offset
          (unpagedPortionInOwnCoords.offset + unpagedPortionInOwnCoords.size))
      else (List.range unpagedPortionInOwnCoords.size.toNat).foldlM (fun newArray (k : ℕ) => do
        return newArray.append (← nth values.values (unpagedPortionInOwnCoords.offsetForIndex k))) newArray
    guard (newArray.size = oldSize + unpagedPortion.size)
    return newArray

/-- `slice`; `some none` is the null handle. -/
def slice (add : Hash → Hash → Hash) (h : VectorHandle α) (sequenceToUse : IntegerSequence) (inPool : MemoryPool)
    (newVectorHash : Hash) : Option (Option (VectorHandle α)) := do
  let sequenceToUse ← sequenceToUse.intersect (.range h.size)
  if sequenceToUse.size = 0 then return none
  let pagedPortion ← sequenceToUse.intersect (.range h.pagedValueCount)
  let pageletPortion ← sequenceToUse.intersect (.range h.pageletTreeValueCount h.pagedValueCount)
  let unpagedPortion ← sequenceToUse.intersect (.range h.unpagedValueCount h.pagedAndPageletTreeValueCount)
  guard (sequenceToUse.size = pagedPortion.size + pageletPortion.size + unpagedPortion.size)
  let newSlice ←
    if pagedPortion.size ≠ 0 then h.mBigVector.sliceSequence pagedPortion (relatedHash add newVectorHash 0)
    else some {}
  guard (pagedPortion.size ≠ 0 → newSlice.size = pagedPortion.size)
  let newArray ← h.appendFromPageletTree pageletPortion {}
  let newArray ← h.appendFromUnpaged unpagedPortion newArray
  return some (make newSlice none
    (if pageletPortion.size ≠ 0 ∨ unpagedPortion.size ≠ 0 then some newArray else none) inPool
    (relatedHash add newVectorHash 3))

/-- The values in the pages of a layout. -/
def pagedValues (pages : VectorDataID → List α) (layout : BigVectorPageLayout) : List α :=
  layout.elements.filterMap fun element => nth (pages element.1) element.2

/-- The values of a handle, given the values of the pages. -/
def values (pages : VectorDataID → List α) (h : VectorHandle α) : List α :=
  pagedValues pages h.mBigVector ++ h.mPageletTreePtr.elim [] Fora.PageletTree.values ++
    h.mUnpagedValues.elim [] ForaValueArray.values

/-- A handle whose pages hold the values it names and whose counts are right. -/
structure WellFormed (pages : VectorDataID → List α) (h : VectorHandle α) : Prop where
  layout : h.mBigVector.WellFormed
  inPages : ∀ element ∈ h.mBigVector.elements, 0 ≤ element.2 ∧ element.2 < (pages element.1).length
  tree : ∀ tree ∈ h.mPageletTreePtr, tree.WellFormed
  pagedAndPagelet_eq : h.mPagedAndPageletTreeValueCount = h.mBigVector.size + h.pageletTreeValueCount
  size_eq : h.mSize = h.mPagedAndPageletTreeValueCount + h.mUnpagedValues.elim 0 ForaValueArray.size

end VectorHandle

end TypedFora.Vectors
