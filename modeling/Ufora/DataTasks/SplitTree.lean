import Ufora.Containers.TwoWaySetMap
import Ufora.Lib.Effect

/-!
# `SplitTree`

`cumulus/DistributedDataTasks/SplitTree.hppml`: the splits of the bins of a task as a machine knows them.
A split may arrive before the one that makes the bin it splits; it is an orphan until then.
-/

open Ordered Effect Finmap

namespace DataTasks

/-- A `SplitTree::SplitRecord`. -/
structure SplitRecord (β μ ν : Type) where
  bin : β
  left : μ × β
  right : μ × β
  splitValue : ν

/-- A `SplitTree`. -/
structure SplitTree (β μ ν : Type) [LinearOrder β] where
  mMachineMap : StdMap β μ
  mLeafBins : Finset β
  mSplits : TwoWaySetMap β β := ∅
  mOrphanedSplits : StdMap β (SplitRecord β μ ν) := ∅
  mRealizedSplits : StdMap β (SplitRecord β μ ν) := ∅
  mSplittable : Finset β := ∅
  mRootBin : β

/-- The assertions that fail. `limit` stands for a loop that does not end. -/
inductive SplitError where
  | noOrphan
  | severalParents
  | limit

namespace SplitTree

variable {β μ ν : Type} [LinearOrder β]

/-- `SplitTree(rootBin, initialMachine)`. -/
def new (rootBin : β) (initialMachine : μ) : SplitTree β μ ν where
  mMachineMap := singleton rootBin initialMachine
  mLeafBins := {rootBin}
  mRootBin := rootBin

variable (t : SplitTree β μ ν)

/-- `isLeaf(bin)`. -/
def isLeaf (bin : β) : Prop := bin ∈ t.mLeafBins
deriving Decidable

/-- `children(bin)`. -/
def children (bin : β) : Option (β × β) :=
  if t.mSplits.hasKey bin then
    (lookup bin t.mRealizedSplits).map fun it => (it.left.2, it.right.2)
  else none

/-- `machineFor(bin)`. -/
def machineFor (bin : β) : Option μ := lookup bin t.mMachineMap

/-- `parentBin(bin)`. -/
def parentBin (bin : β) : Except SplitError (Option β) :=
  if t.mSplits.hasValue bin then
    if (t.mSplits.getKeys bin).card = 1 then .ok (ascending (t.mSplits.getKeys bin)).head?
    else .error .severalParents
  else .ok none

/-- `addSplit(bin, left, right, splitValue)`. -/
def addSplit (record : SplitRecord β μ ν) : SplitTree β μ ν := { t with
    mMachineMap := insert record.right.2 record.right.1
      (insert record.left.2 record.left.1 t.mMachineMap)
    mOrphanedSplits := insert record.bin record t.mOrphanedSplits
    mSplittable := if t.isLeaf record.bin then insert record.bin t.mSplittable else t.mSplittable }

/-- The split of a bin is no orphan any more: its children are leaves in its place, and may be split where
their splits were waiting. -/
def realize (toSplit : β) (record : SplitRecord β μ ν) : SplitTree β μ ν :=
  let mOrphanedSplits := erase toSplit t.mOrphanedSplits
  let mSplittable := t.mSplittable.erase toSplit
  let mSplittable :=
    if record.left.2 ∈ mOrphanedSplits then insert record.left.2 mSplittable else mSplittable
  { t with
    mRealizedSplits := insert toSplit record t.mRealizedSplits
    mOrphanedSplits := mOrphanedSplits
    mLeafBins := insert record.right.2 (insert record.left.2 (t.mLeafBins.erase toSplit))
    mSplits := (t.mSplits.insert toSplit record.left.2).insert toSplit record.right.2
    mSplittable :=
      if record.right.2 ∈ mOrphanedSplits then insert record.right.2 mSplittable else mSplittable }

/-- `popAvailableSplit()`. -/
def popAvailableSplit : EStateM SplitError (SplitTree β μ ν) (Option (SplitRecord β μ ν)) := do
  let t ← get
  match (ascending t.mSplittable).head? with
  | none => return none
  | some toSplit =>
    match lookup toSplit t.mOrphanedSplits with
    | none => throw .noOrphan
    | some record =>
      set (t.realize toSplit record)
      return some record

/-- `while (auto split = popAvailableSplit())`. -/
def popAvailableSplits : ℕ → EStateM SplitError (SplitTree β μ ν) (List (SplitRecord β μ ν))
  | 0 => throw .limit
  | limit + 1 => do
    match ← popAvailableSplit with
    | none => return []
    | some record => return record :: (← popAvailableSplits limit)

/-- A split arrives: what `MessagePipeline::splitBin` makes of it. Every split that is popped was an
orphan, so the loop needs as many turns as there are orphans, and one more. -/
def arrive (record : SplitRecord β μ ν) : EStateM SplitError (SplitTree β μ ν) (List (SplitRecord β μ ν)) := do
  modify fun t => t.addSplit record
  popAvailableSplits ((← get).mOrphanedSplits.keys.card + 1)

/-- Splits arrive one after the other: all that are popped. -/
def arriveAll : List (SplitRecord β μ ν) → EStateM SplitError (SplitTree β μ ν) (List (SplitRecord β μ ν))
  | [] => return []
  | record :: arrivals => do
    let popped ← arrive record
    return popped ++ (← arriveAll arrivals)

end SplitTree

end DataTasks
