import Ufora.Lib.Ordered
import Mathlib.Data.Prod.Lex

/-!
# Pages, vectors and page events

The identifiers of the vector data manager (`FORA/VectorDataManager`, `FORA/TypedFora/ABI`) and the
events that a machine broadcasts about its pages. A vector of the system ("bigvec") is cut into
pages, which its layout lists. A hash is the 160-bit number whose most significant word is
`mData[0]`, so that hashes compare as the source compares them.

Of a vector's identity the code under consideration reads the guid, which it compares by, and the
size. A guid names one vector, so ids with one guid have one size, and comparing both fields is
comparing guids.
-/

/-- `hash_type`. -/
abbrev Hash := ℕ

namespace Fora

open LinearOrder

/-- `PageId`: compared field by field. -/
structure PageId where
  guid : Hash
  bytecount : ℕ
  actualBytecount : ℕ

namespace PageId

/-- The tuple that the comparison operators of `PageId` compare. -/
def fields (p : PageId) : ℕ ×ₗ ℕ ×ₗ ℕ := toLex (p.guid, toLex (p.bytecount, p.actualBytecount))

theorem fields_injective : Function.Injective fields := by
  rintro ⟨a, b, c⟩ ⟨a', b', c'⟩ h
  cases h
  rfl

instance : LinearOrder PageId := lift' fields fields_injective

/-- `isInternal()`: the first byte of the guid in memory, the lowest one of `mData[0]`, is 1. -/
def isInternal (p : PageId) : Prop := p.guid / 2 ^ 128 % 256 = 1
deriving Decidable

end PageId

/-- `BigVectorId`: a vector of the system. -/
structure BigVectorId where
  guid : Hash
  size : ℕ

namespace BigVectorId

/-- The tuple that orders vector ids. -/
def fields (v : BigVectorId) : ℕ ×ₗ ℕ := toLex (v.guid, v.size)

theorem fields_injective : Function.Injective fields := by
  rintro ⟨a, b⟩ ⟨a', b'⟩ h
  cases h
  rfl

instance : LinearOrder BigVectorId := lift' fields fields_injective

end BigVectorId

/-- `MemoryUsage`. -/
structure MemoryUsage where
  totalBytesUsed : ℕ := 0
  bytesUsedByContextsExcludingPagelets : ℕ := 0
  bytesUsedByVectorsExcludingPagelets : ℕ := 0
  bytesUsedByAllPagelets : ℕ := 0
  bytesUsedByPageletsInVectors : ℕ := 0
  bytesUsedByHandles : ℕ := 0
  bytesUsedByDataTasks : ℕ := 0
  maxMemoryAvailable : ℕ := 0
  deriving DecidableEq, Inhabited

end Fora

namespace Cumulus

/-- `MachineId`. -/
structure MachineId where
  guid : Hash

namespace MachineId

theorem guid_injective : Function.Injective guid := by
  rintro ⟨a⟩ ⟨a'⟩ h
  cases h
  rfl

instance : LinearOrder MachineId := LinearOrder.lift' guid guid_injective

end MachineId

end Cumulus

namespace TypedFora.Abi

/-- `BigVectorPageLayout`: the identity of a vector and the page of each of its slices. -/
structure BigVectorPageLayout where
  vectorIdentities : List Fora.PageId
  identity : Fora.BigVectorId
  deriving DecidableEq

/-- `BigVectorPageLayout()`, the layout of a vector of size zero. A default `Hash` has the words
0 to 4. -/
def BigVectorPageLayout.default : BigVectorPageLayout where
  vectorIdentities := []
  identity := { guid := 2 ^ 96 + 2 * 2 ^ 64 + 3 * 2 ^ 32 + 4, size := 0 }

instance : Inhabited BigVectorPageLayout := ⟨BigVectorPageLayout.default⟩

end TypedFora.Abi

namespace Fora

/-- `PageRefcountEvent`: what a machine broadcasts about its pages and vectors. -/
inductive PageRefcountEvent
  | PageAddedToRam (page : PageId) (bigvecsReferenced : Finset BigVectorId)
  | PageReferencedBigvecs (page : PageId) (bigvecsReferenced : Finset BigVectorId)
  | PagePinnedStatusChanged (page : PageId) (isPinned : Bool)
  | PageDroppedFromRam (page : PageId)
  | PageAddedToDisk (page : PageId)
  | PageDroppedFromDisk (page : PageId)
  | BigVectorReferenced (newLayout : TypedFora.Abi.BigVectorPageLayout)
  | BigVectorNoLongerReferenced (identity : BigVectorId)
  | ExecutionIsBlockedChanged (isExecutionBlocked : Bool)
  | PageMarkedNotLoadable (page : PageId)
  | MemoryUsageChanged (usage : MemoryUsage)
  | BigVectorsInFlight (bigvecs : Finset BigVectorId) (refcount : ℤ) (inGuid : Hash)
  | SyntheticPageCreated (page : PageId) (newLayout : TypedFora.Abi.BigVectorPageLayout)
  | SyntheticPageRealized (page : PageId)
  deriving DecidableEq

/-- The `lassert` of this part of the source that failed. -/
inductive AssertionFailed
  /-- `PagesOnMachines::addMachine`: the machine is there already. -/
  | alreadyHave (machine : Cumulus.MachineId)
  /-- `dropMachine`, `consumePageEvent`: the machine is not there. -/
  | cantFind (machine : Cumulus.MachineId)
  /-- `BigVectorLayouts::getLayoutForId`: no layout for the vector. -/
  | noData (identity : BigVectorId)
  /-- `BigVectorLayouts`: a vector is the definition of several synthetic pages. -/
  | severalSyntheticPages (identity : BigVectorId)
  /-- `PageRefcountTracker::pageSentToDisk`: the page references other vectors than recorded. -/
  | referencesDiffer (page : PageId)
  /-- `PageRefcountTracker::decref_`: the vector has no positive refcount. -/
  | decrefedWithoutPositiveRefcount (identity : BigVectorId)
  /-- `SystemwidePageRefcountTracker`: a synthetic page has two definitions. -/
  | syntheticPageDiffers (page : PageId)
  /-- `bigVectorInFlightRefcountChanged_`: the count of moves of a vector is negative. -/
  | negativeInFlight (identity : BigVectorId)
  /-- `BigVectorsInFlight`: the refcount is not the opposite of the pending one. -/
  | refcountNotOpposite (moveGuid : Hash)
  /-- The bound on the recursion of `bigVectorDroppedAcrossEntireSystem_`, which the source does not
  have, is too low. `noLimit_handle` shows that this does not happen. -/
  | recursionLimit
  deriving DecidableEq

/-- The assertions that fail in a drop across the entire system. -/
def AssertionFailed.ofDrop : AssertionFailed → Bool
  | .noData _ | .severalSyntheticPages _ => true
  | _ => false

theorem AssertionFailed.ne_recursionLimit {e : AssertionFailed} (h : e.ofDrop) : e ≠ .recursionLimit := by
  rintro rfl
  cases h

end Fora
