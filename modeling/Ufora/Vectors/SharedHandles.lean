import Ufora.Vectors.TreeOperations
import Ufora.Vectors.VectorRecord

/-!
# Handles that records share

`VectorRecord.cpp` and `VectorHandle.cppml` (`FORA/TypedFora/ABI`): records point to handles, and an
operation on a record may extend its handle in place, move the values of the handle's array into its
pagelet tree, or construct handles. Handles are never freed here, and the store remembers every record
there was. What the vector data manager makes of pages, and what arrays and pagelets say about their
bytes, are answers that may differ from one operation to the next.
-/

namespace TypedFora.Vectors

open Effect Selection ForaValueArray Fora.PageletTree
open Fora (PageletTree)

/-- `hash_type()`. -/
def hashType0 : Hash := 1 * 2 ^ 96 + 2 * 2 ^ 64 + 3 * 2 ^ 32 + 4

/-- `hash_type(t, t2, t3)`, which takes 32 bits of each argument. -/
def hashType (t t2 t3 : ℤ) : Hash :=
  (t % 2 ^ 32).toNat * 2 ^ 128 + (t2 % 2 ^ 32).toNat * 2 ^ 96 + (t3 % 2 ^ 32).toNat * 2 ^ 64

/-- The sum of hashes, and the hashes that are generated, one after the other. No two of them are the
same by chance. -/
structure VectorHashing where
  add : Hash → Hash → Hash
  newVectorHash : ℕ → Hash
  add_injective : ∀ {a b c d : Hash}, add a b = add c d → a = c ∧ b = d
  newVectorHash_injective : ∀ {i j : ℕ}, newVectorHash i = newVectorHash j → i = j
  newVectorHash_ne_add : ∀ i a b, newVectorHash i ≠ add a b
  hashType0_ne_add : ∀ a b, hashType0 ≠ add a b

/-- What goes wrong in an operation, or keeps it from giving a record. -/
inductive VectorFailure where
  | lassert
  | nullPointer
  | VectorLoadRequest

variable {α : Type}

/-- A layout that names values of the pages. -/
def InPages (pages : VectorDataID → List α) (layout : BigVectorPageLayout) : Prop := layout.WellFormed ∧
    ∀ element ∈ layout.elements, 0 ≤ element.2 ∧ element.2 < (pages element.1).length

/-- What the vector data manager, its layouts, and the memory of arrays and pagelets answer. -/
structure VectorDataManager (pages : VectorDataID → List α) where
  /-- How deep concatenating trees may call itself. -/
  fuel : ℕ
  allValuesArePOD : ForaValueArray α → Bool
  isHomogenous : ForaValueArray α → Bool
  bytesUsed : ForaValueArray α → ℕ
  /-- A pagelet with these values has more than half the bytes of a page. -/
  tooLarge : List α → Bool
  /-- `wantsCollapse` of `withSmallPageletsCollapsed`. -/
  wantsCollapse : PageletTree α → Bool
  /-- `registerBigVectorSlice(id, null(), null() << high, null(), hash)`. -/
  registerBigVectorSlice : BigVectorPageLayout → ℤ → Hash → BigVectorPageLayout
  registerBigVectorConcat : BigVectorPageLayout → BigVectorPageLayout → Hash → BigVectorPageLayout
  /-- The layout of the handle that `pagedVectorHandle` makes. -/
  pagedVectorHandle : BigVectorPageLayout → PageletTree α → BigVectorPageLayout
  registerBigVectorSlice_inPages : ∀ {layout}, InPages pages layout → ∀ high hash,
    InPages pages (registerBigVectorSlice layout high hash)
  registerBigVectorConcat_inPages : ∀ {lhs rhs}, InPages pages lhs → InPages pages rhs → ∀ hash,
    InPages pages (registerBigVectorConcat lhs rhs hash)
  pagedVectorHandle_inPages : ∀ {layout}, InPages pages layout → ∀ tree, InPages pages (pagedVectorHandle layout tree)

/-- A `VectorRecord`, which points to a handle of the store. -/
structure RecordView where
  mDataPtr : Option ℕ := none
  mSize : ℤ := 0
  mOffset : ℤ := 0
  mStride : ℤ := 1
  deriving DecidableEq

/-- The indices of the handle that a record views. -/
def RecordView.indicesWithinHandle (r : RecordView) : IntegerSequence := ⟨r.mSize, r.mOffset, r.mStride⟩

/-- The handles, every record there was, and the number of hashes that were generated. -/
structure VectorStore (α : Type) where
  handles : List (VectorHandle α) := []
  records : List RecordView := [{}]
  hashesGenerated : ℕ := 0

/-- An operation on the store. -/
abbrev VectorAction (α : Type) := EStateM VectorFailure (VectorStore α)

namespace VectorStore

/-- A value that may be missing. -/
def require {β : Type} (x : Option β) (failure : VectorFailure) : VectorAction α β :=
  match x with
  | some b => pure b
  | none => throw failure

/-- The handle that a pointer points to. -/
def readHandle (ptr : ℕ) : VectorAction α (VectorHandle α) := do
  require (← get).handles[ptr]? .nullPointer

def writeHandle (ptr : ℕ) (handle : VectorHandle α) : VectorAction α Unit :=
  modify fun s => { s with handles := s.handles.set ptr handle }

/-- `inPool->construct<VectorHandle>(…)`. -/
def construct (handle : VectorHandle α) : VectorAction α ℕ := do
  let ptr := (← get).handles.length
  modify fun s => { s with handles := s.handles ++ [handle] }
  return ptr

/-- A hash that is generated. -/
def generateHash (H : VectorHashing) : VectorAction α Hash := do
  let i := (← get).hashesGenerated
  modify fun s => { s with hashesGenerated := s.hashesGenerated + 1 }
  return H.newVectorHash i

/-- The record of a whole handle. -/
def wholeHandle (ptr : ℕ) : VectorAction α RecordView := do
  return { mDataPtr := some ptr, mSize := (← readHandle ptr).size }

/-- A record with the handle it points to. -/
def load (r : RecordView) : VectorAction α (VectorRecord α) := do
  match r.mDataPtr with
  | none => return ⟨none, r.mSize, r.mOffset, r.mStride⟩
  | some ptr => return ⟨some (← readHandle ptr), r.mSize, r.mOffset, r.mStride⟩

/-- A record whose handle has just been made. -/
def store (record : VectorRecord α) : VectorAction α RecordView := do
  match record.mDataPtr with
  | none => return ⟨none, record.mSize, record.mOffset, record.mStride⟩
  | some handle => return ⟨some (← construct handle), record.mSize, record.mOffset, record.mStride⟩

section
variable {pages : VectorDataID → List α} (H : VectorHashing) (vdm : VectorDataManager pages)
  (inPool : MemoryPool)

/-! ## Handles -/

variable (ptr : ℕ)

/-- `moveUnpagedValueArrayIntoPagelet`. -/
def moveUnpagedValueArrayIntoPagelet : VectorAction α Unit := do
  let handle ← readHandle ptr
  lassert (handle.mIsWriteable = true) .lassert
  match handle.mUnpagedValues with
  | none => return
  | some unpagedValues =>
    let newPagelets ← require (moveUnpagedValuesIntoPageletTree vdm.fuel vdm.tooLarge
      unpagedValues.values) .lassert
    let tree ← require (concatenateAndBalance vdm.fuel handle.mPageletTreePtr newPagelets)
      .lassert
    let tree ← require tree .nullPointer
    let tree ← require (tree.withSmallPageletsCollapsed vdm.wantsCollapse) .lassert
    writeHandle ptr
      { handle with
        mPageletTreePtr := some tree
        mUnpagedValues := none
        mPagedAndPageletTreeValueCount := tree.size + handle.mBigVector.size }

/-- `makeSpaceForNewUnpagedValues`. -/
def makeSpaceForNewUnpagedValues : VectorAction α Unit := do
  let handle ← readHandle ptr
  lassert (handle.mIsWriteable = true) .lassert
  match handle.mUnpagedValues with
  | none => writeHandle ptr { handle with mUnpagedValues := some {} }
  | some unpagedValues =>
    if unpagedValues.size < 64 * 1024 then return
    else
      moveUnpagedValueArrayIntoPagelet vdm ptr
      let handle ← readHandle ptr
      writeHandle ptr { handle with mUnpagedValues := some {} }

/-- `wantsToCreatePagelet(lhs, rhs)`. -/
def wantsToCreatePagelet (lhs rhs : ForaValueArray α) : Bool :=
  if vdm.allValuesArePOD lhs && vdm.isHomogenous lhs && vdm.isHomogenous rhs &&
      vdm.allValuesArePOD rhs then
    vdm.bytesUsed lhs + vdm.bytesUsed rhs > 4096 * 8
  else lhs.size + rhs.size > 256 * 8

/-- `wantsToCreatePagelet(array, count)`, which does not look at `count`. -/
def arrayWantsToCreatePagelet (array : ForaValueArray α) : Bool :=
  if vdm.allValuesArePOD array && vdm.isHomogenous array then vdm.bytesUsed array > 4096 * 8
  else array.size > 256 * 8

/-- The end of `collapsePageletTreeAndUnpagedValuesTree`, where no array may be left. -/
def collapseIntoTree (valuesUsed unpagedValsToUse : ℤ) :
    VectorAction α (Option (PageletTree α) × Option (ForaValueArray α)) := do
  let handle ← readHandle ptr
  if handle.mIsWriteable then
    moveUnpagedValueArrayIntoPagelet vdm ptr
    let handle ← readHandle ptr
    let tree ← require handle.mPageletTreePtr .nullPointer
    return (← require (tree.restrictTo valuesUsed.toNat) .lassert, none)
  else
    let unpagedValues ← require handle.mUnpagedValues .nullPointer
    let pagelet := (appendRange {} unpagedValues 0 unpagedValsToUse).values
    let leaf ← require (ofPagelet pagelet unpagedValsToUse.toNat) .lassert
    return (← require (concatenateAndBalance vdm.fuel handle.mPageletTreePtr (some leaf))
      .lassert, none)

/-- `collapsePageletTreeAndUnpagedValuesTree`. -/
def collapsePageletTreeAndUnpagedValuesTree (valuesUsed : ℤ) (allowUnpagedValuesInResult : Bool) :
    VectorAction α (Option (PageletTree α) × Option (ForaValueArray α)) := do
  let handle ← readHandle ptr
  let unpagedValsToUse := max (valuesUsed - handle.pageletTreeValueCount) 0
  if valuesUsed = 0 then return (none, none)
  else if unpagedValsToUse = 0 then
    let tree ← require handle.mPageletTreePtr .nullPointer
    return (← require (tree.restrictTo valuesUsed.toNat) .lassert, none)
  else if allowUnpagedValuesInResult then
    let unpagedValues ← require handle.mUnpagedValues .nullPointer
    if arrayWantsToCreatePagelet vdm unpagedValues then
      collapseIntoTree vdm ptr valuesUsed unpagedValsToUse
    else
      return (handle.mPageletTreePtr, some (appendRange {} unpagedValues 0 unpagedValsToUse))
  else collapseIntoTree vdm ptr valuesUsed unpagedValsToUse

/-- `paged`. -/
def paged : VectorAction α ℕ := do
  let handle ← readHandle ptr
  if handle.mUnpagedValues.isNone ∧ handle.mPageletTreePtr.isNone then return ptr
  else
    let tree ←
      if handle.mIsWriteable then do
        moveUnpagedValueArrayIntoPagelet vdm ptr
        pure (← readHandle ptr).mPageletTreePtr
      else do
        pure (← collapsePageletTreeAndUnpagedValuesTree vdm ptr (handle.mSize - handle.mBigVector.size)
          false).1
    let tree ← require tree .lassert
    construct (.make (vdm.pagedVectorHandle handle.mBigVector tree) none none inPool
      (← generateHash H))

/-- `concatenate`, where the left handle has no values outside of pages. -/
def concatenatePaged (lhs : ℕ) (lhsValuesUsed : ℤ) (rhs : ℕ) (rhsValuesUsed : ℤ)
    (newVectorHash : Hash) : VectorAction α ℕ := do
  let lhsHandle ← readHandle lhs
  let rhsHandle ← readHandle rhs
  lassert (lhsValuesUsed ≤ lhsHandle.mBigVector.size) .lassert
  let leftIdentity :=
    if lhsValuesUsed ≠ lhsHandle.mBigVector.size then
      vdm.registerBigVectorSlice lhsHandle.mBigVector lhsValuesUsed
        (relatedHash H.add newVectorHash 6)
    else lhsHandle.mBigVector
  let rightIdentity :=
    if rhsValuesUsed < rhsHandle.mBigVector.size then
      vdm.registerBigVectorSlice rhsHandle.mBigVector rhsValuesUsed
        (relatedHash H.add newVectorHash 7)
    else rhsHandle.mBigVector
  let newID := vdm.registerBigVectorConcat leftIdentity rightIdentity
    (relatedHash H.add newVectorHash 8)
  let (tree, array) ← collapsePageletTreeAndUnpagedValuesTree vdm rhs
    (max (rhsValuesUsed - rhsHandle.pagedValueCount) 0) true
  let tree ←
    match tree with
    | none => pure none
    | some tree => pure (some (← require (tree.withSmallPageletsCollapsed vdm.wantsCollapse) .lassert))
  let result := VectorHandle.make newID tree array inPool (relatedHash H.add newVectorHash 9)
  lassert (result.size = lhsValuesUsed + rhsValuesUsed) .lassert
  construct result

/-- The right handle has no values in pages, and the two arrays can be appended: the array of the left
handle is extended in place where all of it is used, or a new one is made. -/
def concatenateArrays (lhs : ℕ) (lhsValuesUsed : ℤ) (lhsArray rhsArray : ForaValueArray α)
    (rhsValuesUsed : ℤ) (newVectorHash : Hash) : VectorAction α ℕ := do
  let lhsHandle ← readHandle lhs
  lassert (rhsValuesUsed ≤ rhsArray.size) .lassert
  if lhsHandle.size = lhsValuesUsed ∧ vdm.allValuesArePOD rhsArray = true then
    writeHandle lhs
      { lhsHandle with
        mUnpagedValues := some (lhsArray.appendRange rhsArray 0 rhsValuesUsed)
        mSize := lhsHandle.mSize + rhsValuesUsed }
    return lhs
  else
    let lhsValsToUse := max (lhsValuesUsed - lhsHandle.pagedAndPageletTreeValueCount) 0
    lassert (lhsValsToUse ≤ lhsArray.size) .lassert
    let array := (appendRange {} lhsArray 0 lhsValsToUse).appendRange rhsArray 0
      rhsValuesUsed
    construct (.make lhsHandle.mBigVector lhsHandle.mPageletTreePtr array inPool newVectorHash)

/-- The right handle has no values in pages, and trees are made of both. -/
def concatenateTrees (lhs : ℕ) (lhsValuesUsed : ℤ) (rhs : ℕ) (rhsValuesUsed : ℤ)
    (newVectorHash : Hash) : VectorAction α ℕ := do
  let lhsHandle ← readHandle lhs
  let rhsHandle ← readHandle rhs
  let (lhsTree, _) ← collapsePageletTreeAndUnpagedValuesTree vdm lhs
    (max (lhsValuesUsed - lhsHandle.pagedValueCount) 0) false
  let (rhsTree, rhsArray) ← collapsePageletTreeAndUnpagedValuesTree vdm rhs
    (max (rhsValuesUsed - rhsHandle.pagedValueCount) 0) true
  let finalTree ←
    if rhsTree.isSome then require (concatenateAndBalance vdm.fuel lhsTree rhsTree) .lassert
    else pure lhsTree
  let finalTree ← require finalTree .nullPointer
  let finalTree ← require (finalTree.withSmallPageletsCollapsed vdm.wantsCollapse) .lassert
  construct (.make lhsHandle.mBigVector (some finalTree) rhsArray inPool
    (relatedHash H.add newVectorHash 5))

/-- The arrays of two handles, where they are to be appended. -/
def arraysToAppend (lhs rhs : VectorHandle α) : Option (ForaValueArray α × ForaValueArray α) := do
  let lhsArray ← lhs.mUnpagedValues
  let rhsArray ← rhs.mUnpagedValues
  guard (lhs.mIsWriteable ∧ lhsArray.mIsWriteable ∧ rhs.mPageletTreePtr.isNone ∧
    ¬ wantsToCreatePagelet vdm lhsArray rhsArray)
  return (lhsArray, rhsArray)

/-- `VectorHandle::concatenate`. Once the left handle has been paged, it has values in pages only, and
the call of itself goes on with these. -/
def concatenateHandles (lhs : ℕ) (lhsValuesUsed : ℤ) (rhs : ℕ) (rhsValuesUsed : ℤ)
    (newVectorHash : Hash) : VectorAction α ℕ := do
  let lhsHandle ← readHandle lhs
  let rhsHandle ← readHandle rhs
  if lhsHandle.mUnpagedValues.isSome ∨ lhsHandle.mPageletTreePtr.isSome then
    if rhsHandle.pagedValueCount ≠ 0 then
      concatenatePaged H vdm inPool (← paged H vdm inPool lhs) lhsValuesUsed rhs
        rhsValuesUsed (relatedHash H.add newVectorHash 4)
    else
      match arraysToAppend vdm lhsHandle rhsHandle with
      | some (lhsArray, rhsArray) =>
        concatenateArrays vdm inPool lhs lhsValuesUsed lhsArray rhsArray rhsValuesUsed newVectorHash
      | none =>
        concatenateTrees H vdm inPool lhs lhsValuesUsed rhs rhsValuesUsed newVectorHash
  else concatenatePaged H vdm inPool lhs lhsValuesUsed rhs rhsValuesUsed newVectorHash

/-! ## Records -/

/-- `canonicallySliced`. -/
def canonicallySliced (r : RecordView) (newVectorHash : Hash) : VectorAction α RecordView := do
  store (← require ((← load r).canonicallySliced H.add inPool newVectorHash) .lassert)

/-- `slice`. -/
def slice (r : RecordView) (nLow nHigh nStride : Option ℤ) : VectorAction α RecordView := do
  let sliced ← require ((← load r).slice nLow nHigh nStride) .lassert
  return ⟨if sliced.mDataPtr.isSome then r.mDataPtr else none, sliced.mSize, sliced.mOffset, sliced.mStride⟩

/-- The two functions `append`. They differ in whether the handle or its array has to be writeable for
an append in place, and in whether space is made for it before. A record that is not canonical is made
canonical and appended to again. -/
def appendOr (canGrow : VectorHandle α → Bool) (makeSpace : ℕ → VectorAction α Unit)
    (notCanonical : VectorAction α RecordView) (r : RecordView) (toAppend : α) :
    VectorAction α RecordView := do
  match r.mDataPtr with
  | none =>
    wholeHandle (← construct (.make {} none (some (append {} toAppend)) inPool
      (← generateHash H)))
  | some ptr =>
    let handle ← readHandle ptr
    if r.mStride = 1 ∧ r.mSize + r.mOffset = handle.size ∧ canGrow handle = true then
      makeSpace ptr
      let handle ← readHandle ptr
      let unpagedValues ← require handle.mUnpagedValues .lassert
      lassert (unpagedValues.mIsWriteable = true) .lassert
      writeHandle ptr
        { handle with
          mUnpagedValues := some (unpagedValues.append toAppend)
          mSize := handle.mSize + 1 }
      return ⟨some ptr, r.mSize + 1, r.mOffset, 1⟩
    else if (← load r).isCanonicallySliced then
      let array := match handle.mUnpagedValues with
        | some unpagedValues => appendRange {} unpagedValues 0 unpagedValues.size
        | none => {}
      wholeHandle (← construct (.make handle.mBigVector handle.mPageletTreePtr
        (some (array.append toAppend)) inPool (← generateHash H)))
    else notCanonical

/-- An `append`, with the call of itself. -/
def appendWith (canGrow : VectorHandle α → Bool) (makeSpace : ℕ → VectorAction α Unit)
    (r : RecordView) (toAppend : α) : VectorAction α RecordView :=
  appendOr H inPool canGrow makeSpace (do
    let canonical ← canonicallySliced H inPool r (← generateHash H)
    appendOr H inPool canGrow makeSpace (throw .lassert) canonical toAppend) r toAppend

/-- `append(inPool, ImplValContainer, …)`. -/
def append (r : RecordView) (toAppend : α) : VectorAction α RecordView :=
  appendWith H inPool (fun handle => handle.mUnpagedValues.any (·.mIsWriteable))
    (fun _ => pure ()) r toAppend

/-- `append(inPool, void*, JOV, …)`. -/
def appendData (r : RecordView) (dataToAppend : α) : VectorAction α RecordView :=
  appendWith H inPool (·.mIsWriteable) (makeSpaceForNewUnpagedValues vdm) r dataToAppend

/-- A record that is to be concatenated is made canonical. -/
def canonical (r : RecordView) (newVectorHash : Hash) : VectorAction α RecordView := do
  if (← load r).isCanonicallySliced then return r
  else canonicallySliced H inPool r newVectorHash

/-- `concatenate`, with a generated hash. -/
def concatenate (inLHS inRHS : RecordView) : VectorAction α RecordView := do
  let inVectorHash ← generateHash H
  if inLHS.mSize = 0 then return inRHS
  else if inRHS.mSize = 0 then return inLHS
  else
    let inLHS ← canonical H inPool inLHS (H.add inVectorHash (hashType 0 1 0))
    let inRHS ← canonical H inPool inRHS (H.add inVectorHash (hashType 0 2 0))
    let lhs ← require inLHS.mDataPtr .nullPointer
    let rhs ← require inRHS.mDataPtr .nullPointer
    wholeHandle (← concatenateHandles H vdm inPool lhs inLHS.mSize rhs inRHS.mSize inVectorHash)

/-- `deepcopiedAndContiguous`: the new handle has the hash of the old one. -/
def deepcopiedAndContiguous (pages : VectorDataID → List α) (r : RecordView) : VectorAction α RecordView := do
  match r.mDataPtr with
  | none => return r
  | some ptr =>
    let handle ← readHandle ptr
    let values ← require (r.indicesWithinHandle.values.mapM (nth (handle.values pages)))
      .VectorLoadRequest
    wholeHandle (← construct (.make {} none (some ⟨values, true⟩) inPool handle.mVectorHash))

/-- `hash()` of a record. -/
def hash (s : VectorStore α) (r : RecordView) : Hash :=
  match r.mDataPtr.bind (s.handles[·]?) with
  | none => hashType0
  | some handle => H.add handle.mVectorHash (hashType r.mSize r.mOffset r.mStride)

/-- The list that a record denotes. -/
def values (pages : VectorDataID → List α) (s : VectorStore α) (r : RecordView) : List α :=
  (r.mDataPtr.bind (s.handles[·]?)).elim [] fun handle =>
    select (handle.values pages) r.indicesWithinHandle.values

end

/-! ## Runs -/

/-- An operation on records that there are. -/
inductive Op (α : Type) where
  | append (r : RecordView) (toAppend : α)
  | appendData (r : RecordView) (dataToAppend : α)
  | slice (r : RecordView) (nLow nHigh nStride : Option ℤ)
  | canonicallySliced (r : RecordView)
  | concatenate (inLHS inRHS : RecordView)
  | deepcopiedAndContiguous (r : RecordView)

namespace Op

/-- The records that an operation is called with. -/
def arguments : Op α → List RecordView
  | .append r _ | .appendData r _ | .slice r _ _ _ | .canonicallySliced r
  | .deepcopiedAndContiguous r => [r]
  | .concatenate inLHS inRHS => [inLHS, inRHS]

/-- The call of an operation. -/
def call {pages : VectorDataID → List α} (H : VectorHashing) (vdm : VectorDataManager pages)
    (inPool : MemoryPool) : Op α → VectorAction α RecordView
  | .append r toAppend => VectorStore.append H inPool r toAppend
  | .appendData r dataToAppend => VectorStore.appendData H vdm inPool r dataToAppend
  | .slice r nLow nHigh nStride => VectorStore.slice r nLow nHigh nStride
  | .canonicallySliced r => do
    VectorStore.canonicallySliced H inPool r (← generateHash H)
  | .concatenate inLHS inRHS => VectorStore.concatenate H vdm inPool inLHS inRHS
  | .deepcopiedAndContiguous r => VectorStore.deepcopiedAndContiguous inPool pages r

end Op

/-- An operation, the pool it allocates in, and what is answered while it runs. -/
structure Step (pages : VectorDataID → List α) where
  op : Op α
  inPool : MemoryPool
  vdm : VectorDataManager pages

/-- A call on records that there are, and the record it gives. -/
def execute {pages : VectorDataID → List α} (H : VectorHashing) (step : Step pages) : VectorAction α Unit := do
  lassert (∀ r ∈ step.op.arguments, r ∈ (← get).records) .lassert
  let r ← step.op.call H step.vdm step.inPool
  modify fun s => { s with records := s.records ++ [r] }

/-- The store after a step, where the call returns. -/
def step {pages : VectorDataID → List α} (H : VectorHashing) (s : VectorStore α)
    (step : Step pages) : Option (VectorStore α) := returned (execute H step) s

end VectorStore

end TypedFora.Vectors
