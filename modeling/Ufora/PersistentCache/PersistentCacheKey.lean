import Ufora.Computations.ComputationPriority
import Mathlib.Algebra.Order.Ring.Unbundled.Rat

/-!
# What the persistent cache stores

`cumulus/CheckpointRequest.hppml`, `cumulus/PersistentCache/PersistentCacheKey.hppml` and the values of
`PersistentCacheIndex.cppml`: the objects of the cache, how they are ordered, and which objects an
object of each kind may depend on. Times are finite doubles, compared as the numbers they are.
-/

namespace Cumulus

open Sum LinearOrder

/-- `CheckpointRequest`. Its `rootComputation` is a `Root`, of the hash given here: the index takes
`*computationHash()` of it, which a split has not got. -/
structure CheckpointRequest where
  timestamp : ℚ
  writeToStorage : Bool
  computationHash : Hash
  deriving DecidableEq

namespace CheckpointRequest

/-- `rootComputation()`. -/
def rootComputation (c : CheckpointRequest) : ComputationId := .Root c.computationHash

/-- What the comparison operators of `CheckpointRequest` compare. -/
def fields (c : CheckpointRequest) : ℚ ×ₗ Bool ×ₗ Hash :=
  toLex (c.timestamp, toLex (c.writeToStorage, c.computationHash))

theorem fields_injective : Function.Injective fields := by
  rintro ⟨a, b, c⟩ ⟨a', b', c'⟩ h
  cases h
  rfl

instance : LinearOrder CheckpointRequest := lift' fields fields_injective

end CheckpointRequest

/-- `PersistentCacheKey`. -/
inductive PersistentCacheKey where
  | Page (pageGuid : Hash)
  | BigvecDefinition (bigvecGuid : Hash)
  | CheckpointFile (checkpoint : CheckpointRequest) (guid : Hash)
  | CheckpointSummary (checkpoint : CheckpointRequest)
  | Script (scriptName : String)
  | Configuration

namespace PersistentCacheKey

/-- What the comparison operators of `PersistentCacheKey` compare: the case, then its fields. -/
def fields : PersistentCacheKey → Hash ⊕ₗ Hash ⊕ₗ (CheckpointRequest ×ₗ Hash) ⊕ₗ CheckpointRequest ⊕ₗ String ⊕ₗ Unit
  | Page p => inlₗ p
  | BigvecDefinition b => inrₗ (inlₗ b)
  | CheckpointFile c f => inrₗ (inrₗ (inlₗ (toLex (c, f))))
  | CheckpointSummary c => inrₗ (inrₗ (inrₗ (inlₗ c)))
  | Script s => inrₗ (inrₗ (inrₗ (inrₗ (inlₗ s))))
  | Configuration => inrₗ (inrₗ (inrₗ (inrₗ (inrₗ ()))))

theorem fields_injective : Function.Injective fields := by
  intro k k' h
  cases k <;> cases k' <;> cases h <;> rfl

instance : LinearOrder PersistentCacheKey := lift' fields fields_injective

/-- `isScript()`. -/
def isScript : PersistentCacheKey → Bool
  | Script _ => true
  | _ => false

/-- `isCheckpointSummary()`. -/
def isCheckpointSummary : PersistentCacheKey → Bool
  | CheckpointSummary _ => true
  | _ => false

/-- `hasStoragePath()`. -/
def hasStoragePath : PersistentCacheKey → Bool
  | Page _ | BigvecDefinition _ | CheckpointFile _ _ | CheckpointSummary _ => true
  | Script _ | Configuration => false

/-- The object that a hash among the dependencies of an object names. Scripts depend on computations,
which are no objects. -/
def dependency : PersistentCacheKey → Hash → Option PersistentCacheKey
  | Page _, bv => some (BigvecDefinition bv)
  | BigvecDefinition _, page => some (Page page)
  | CheckpointFile _ _, bv => some (BigvecDefinition bv)
  | CheckpointSummary checkpoint, filename => some (CheckpointFile checkpoint filename)
  | Script _, _ => none
  | Configuration, _ => none

variable {key child : PersistentCacheKey} {h : Hash}

variable (hd : child ∈ key.dependency h)
include hd

/-- Only an object depends on one. -/
theorem hasStoragePath_of_dependency : key.hasStoragePath := by
  cases key <;> first | rfl | cases hd

/-- No object depends on a checkpoint summary. -/
theorem not_isCheckpointSummary_of_dependency : child.isCheckpointSummary = false := by
  cases key <;> cases hd <;> rfl

/-- What an object depends on is an object. -/
theorem isScript_of_dependency : child.isScript = false := by
  cases key <;> cases hd <;> rfl

/-- No object depends on itself. -/
theorem ne_of_dependency : key ≠ child := by
  rintro rfl
  cases key <;> cases hd

end PersistentCacheKey

/-- `ValueEntry`. -/
inductive ValueEntry where
  | Valid (dependencies : Finset Hash) (bytecount : UInt64) (dataHash : Hash)
      (lastAccessTimestamp : ℚ) (isFinished : Bool) (totalSecondsOfCompute : ℚ)
      (computationsReferenced : Finset Hash)
  | Configuration (maxTotalCacheBytes : ℤ)
  | Invalid (bytecount : UInt64)
  deriving DecidableEq

namespace ValueEntry

/-- `ValueEntry()`. -/
instance : Inhabited ValueEntry := ⟨.Valid ∅ 0 0 0 false 0 ∅⟩

/-- `isValid()`. -/
def isValid : ValueEntry → Bool
  | Valid .. => true
  | _ => false

/-- `dependencies()`: a configuration has no case. -/
def dependencies : ValueEntry → Option (Finset Hash)
  | Valid dependencies .. => some dependencies
  | Invalid _ => some ∅
  | Configuration _ => none

/-- `bytecount()`: a configuration has no case. -/
def bytecount : ValueEntry → Option UInt64
  | Valid _ bytecount .. => some bytecount
  | Invalid bytecount => some bytecount
  | Configuration _ => none

end ValueEntry

end Cumulus
