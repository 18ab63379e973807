import Ufora.Containers.MapWithIndex
import Ufora.Lib.Effect
import Ufora.Lib.Run
import Ufora.Pages.Basic
import Mathlib.Algebra.BigOperators.Group.Finset.Basic

/-!
# `TaskCosts`

`cumulus/PageLayoutCalculator/TaskCosts.hppml`: how many bytes each task would still have to load on each machine.
The costs are kept in one table for each machine and one for each task, and for each machine a third one lists the
tasks that may be allocated there. They are adjusted as pages come and go.

Costs are exact integers. The maps of the three tables are read with `get`: a missing table is an empty one.
-/

open Ordered Effect Finmap

namespace Cumulus.PageLayoutCalculator

/-- `TaskType`. -/
inductive TaskType where
  | ThreadGroup
  | Temporary
  | Accumulator
  deriving DecidableEq

namespace TaskType

/-- The number of an enumerator. -/
def number : TaskType → ℕ
  | ThreadGroup => 0
  | Temporary => 1
  | Accumulator => 2

theorem number_injective : Function.Injective number := by
  intro a b h
  cases a <;> cases b <;> first | rfl | cases h

end TaskType

/-- `TaskAllocatorId`. -/
structure TaskAllocatorId where
  type : TaskType
  guid : Hash

namespace TaskAllocatorId

/-- What the comparison operators of `TaskAllocatorId` compare. -/
def fields (id : TaskAllocatorId) : ℕ ×ₗ Hash := toLex (id.type.number, id.guid)

theorem fields_injective : Function.Injective fields := by
  rintro ⟨type, guid⟩ ⟨type', guid'⟩ h
  obtain ⟨hn, rfl⟩ := Prod.mk.inj h
  obtain rfl : type = type' := TaskType.number_injective hn
  rfl

instance : LinearOrder TaskAllocatorId := LinearOrder.lift' fields fields_injective

end TaskAllocatorId

open Fora (PageId)

/-- A `TaskCosts`. -/
structure TaskCosts where
  mTasks : Finset TaskAllocatorId := ∅
  mUnderallocatedTasks : Finset TaskAllocatorId := ∅
  mMachines : Finset MachineId := ∅
  mMachineHeldPages : TwoWaySetMap MachineId PageId := ∅
  mMachineTaskPages : TwoWaySetMap MachineId PageId := ∅
  mMachineHeldOrTaskPages : TwoWaySetMap MachineId PageId := ∅
  mTaskPages : TwoWaySetMap TaskAllocatorId PageId := ∅
  mWholeTaskCosts : MapWithIndex TaskAllocatorId ℤ := ∅
  mLoadingTasks : TwoWaySetMap TaskAllocatorId MachineId := ∅
  mRunningTasks : TwoWaySetMap TaskAllocatorId MachineId := ∅
  mCostsByTask : StdMap TaskAllocatorId (MapWithIndex MachineId ℤ) := ∅
  mCostsByMachine : StdMap MachineId (MapWithIndex TaskAllocatorId ℤ) := ∅
  mAllocatableCostsByMachine : StdMap MachineId (MapWithIndex TaskAllocatorId ℤ) := ∅

namespace TaskCosts

/-- The assertions. -/
inductive CostsError where
  | unknownTask
  | pageHeld
  | pageNotHeld
  | taskHasPage
  | taskLacksPage
  | noCost
  | pagesLeft

/-- A member function that asserts. -/
abbrev Call := EStateM CostsError TaskCosts

variable (s : TaskCosts)

/-- `taskAllocatableOnMachine(t, m)`. -/
def taskAllocatableOnMachine (t : TaskAllocatorId) (m : MachineId) : Prop :=
  ¬ s.mRunningTasks.contains t m ∧ ¬ s.mLoadingTasks.contains t m ∧ t ∈ s.mUnderallocatedTasks
deriving Decidable

variable (task : TaskAllocatorId) (machine : MachineId)

/-- `computeActualTaskCost(task, machine)`. -/
def computeActualTaskCost : ℤ :=
  ∑ page ∈ s.mTaskPages.getValues task with ¬ s.mMachineHeldOrTaskPages.contains machine page, (page.bytecount : ℤ)

/-- `anyLoadingTaskHasPage(machine, page)`. -/
def anyLoadingTaskHasPage (page : PageId) : Prop :=
  ∃ task ∈ s.mTaskPages.getKeys page, s.mLoadingTasks.contains task machine
deriving Decidable

/-- `shouldBeHeldOrTaskPage(machine, page)`. -/
def shouldBeHeldOrTaskPage (page : PageId) : Prop :=
  s.mMachineHeldPages.contains machine page ∨ s.mMachineTaskPages.contains machine page
deriving Decidable

/-- `mCostsByMachine[machine].set(task, cost)`. -/
def setByMachine (cost : ℤ) : TaskCosts := { s with
    mCostsByMachine := insert machine ((s.mCostsByMachine.get machine).set task cost) s.mCostsByMachine }

/-- `mCostsByTask[task].set(machine, cost)`. -/
def setByTask (cost : ℤ) : TaskCosts :=
  { s with mCostsByTask := insert task ((s.mCostsByTask.get task).set machine cost) s.mCostsByTask }

/-- `mAllocatableCostsByMachine[machine].set(task, cost)`. -/
def setAllocatable (cost : ℤ) : TaskCosts := { s with
    mAllocatableCostsByMachine := insert machine ((s.mAllocatableCostsByMachine.get machine).set task cost)
        s.mAllocatableCostsByMachine }

/-- `mAllocatableCostsByMachine[machine].discard(task)`. -/
def discardAllocatable : TaskCosts := { s with
    mAllocatableCostsByMachine := insert machine ((s.mAllocatableCostsByMachine.get machine).discard task)
        s.mAllocatableCostsByMachine }

/-- `setTaskCost(task, machine, cost)`. -/
def setTaskCost (cost : ℤ) : TaskCosts :=
  let s := (s.setByMachine task machine cost).setByTask task machine cost
  if s.taskAllocatableOnMachine task machine then s.setAllocatable task machine cost else s

/-- `mCostsByMachine[machine].getValue(task)`, which asserts that there is one. -/
def getCost : Call ℤ := do
  let s ← get
  match (s.mCostsByMachine.get machine).tryGetValue task with
  | some cost => return cost
  | none => throw .noCost

/-- The task is listed with its cost where it may be allocated on the machine. -/
def listIfAllocatable : Call Unit := do
  let s ← get
  if s.taskAllocatableOnMachine task machine then do
    let cost ← getCost task machine
    modify fun s => s.setAllocatable task machine cost

/-- The cost of a task on a machine changes by so many bytes. -/
def addToCost (delta : ℤ) (pair : TaskAllocatorId × MachineId) : Call Unit := do
  let cost ← getCost pair.1 pair.2
  modify fun s => s.setTaskCost pair.1 pair.2 (cost + delta)

/-! ## Tasks and machines -/

/-- `touch(task)`. -/
def touchTask (task : TaskAllocatorId) : TaskCosts :=
  if task ∈ s.mTasks then s
  else
    let s := { s with mTasks := insert task s.mTasks }
    let s := (ascending s.mMachines).foldl (fun s m => (s.setByMachine task m 0).setByTask task m 0) s
    { s with mWholeTaskCosts := s.mWholeTaskCosts.set task 0 }

/-- `touch(m)`. -/
def touchMachine (m : MachineId) : TaskCosts :=
  if m ∈ s.mMachines then s
  else
    let s := { s with
        mMachines := insert m s.mMachines
        mCostsByMachine := insert m s.mWholeTaskCosts s.mCostsByMachine }
    (ascending s.mTasks).foldl (fun s task => s.setByTask task m 0) s

/-- `markTaskUnderallocated(task)`. -/
def markTaskUnderallocated : Call Unit := do
  let s ← get
  lassert (task ∈ s.mTasks) .unknownTask
  if task ∈ s.mUnderallocatedTasks then return ()
  else do
    modify fun s => { s with mUnderallocatedTasks := insert task s.mUnderallocatedTasks }
    (ascending s.mMachines).forM (listIfAllocatable task)

/-- `markTaskFullyAllocated(task)`. -/
def markTaskFullyAllocated : Call Unit := do
  let s ← get
  lassert (task ∈ s.mTasks) .unknownTask
  if task ∉ s.mUnderallocatedTasks then return ()
  else
    modify fun s =>
      (ascending s.mMachines).foldl (fun s m => s.discardAllocatable task m)
        { s with mUnderallocatedTasks := s.mUnderallocatedTasks.erase task }

/-! ## Pages -/

variable (machine : MachineId) (page : PageId)

/-- `machineOrHeldTaskAddPage(machine, page)`. -/
def machineOrHeldTaskAddPage : Call Unit := do
  modify fun s => s.touchMachine machine
  let s ← get
  lassert (¬ s.mMachineHeldOrTaskPages.contains machine page) .pageHeld
  modify fun s => { s with mMachineHeldOrTaskPages := s.mMachineHeldOrTaskPages.insert machine page }
  ((ascending (s.mTaskPages.getKeys page)).map (·, machine)).forM (addToCost (-page.bytecount))

/-- `machineOrHeldTaskDropPage(machine, page)`. -/
def machineOrHeldTaskDropPage : Call Unit := do
  modify fun s => s.touchMachine machine
  let s ← get
  lassert (s.mMachineHeldOrTaskPages.contains machine page) .pageNotHeld
  modify fun s => { s with mMachineHeldOrTaskPages := s.mMachineHeldOrTaskPages.drop machine page }
  ((ascending (s.mTaskPages.getKeys page)).map (·, machine)).forM (addToCost page.bytecount)

/-- `checkPageOnMachine(machine, page)`. -/
def checkPageOnMachine : Call Unit := do
  let s ← get
  if s.mMachineHeldOrTaskPages.contains machine page ∧ ¬ s.shouldBeHeldOrTaskPage machine page then
    machineOrHeldTaskDropPage machine page
  else if ¬ s.mMachineHeldOrTaskPages.contains machine page ∧ s.shouldBeHeldOrTaskPage machine page then
    machineOrHeldTaskAddPage machine page

/-- `machineAddPage(machine, page)`. -/
def machineAddPage : Call Unit := do
  modify fun s => s.touchMachine machine
  let s ← get
  lassert (¬ s.mMachineHeldPages.contains machine page) .pageHeld
  modify fun s => { s with mMachineHeldPages := s.mMachineHeldPages.insert machine page }
  checkPageOnMachine machine page

/-- `machineDropPage(machine, page)`. -/
def machineDropPage : Call Unit := do
  modify fun s => s.touchMachine machine
  let s ← get
  lassert (s.mMachineHeldPages.contains machine page) .pageNotHeld
  modify fun s => { s with mMachineHeldPages := s.mMachineHeldPages.drop machine page }
  checkPageOnMachine machine page

/-- A page of a task that loads on a machine is a task page of the machine. -/
def addMachineTaskPage : Call Unit := do
  let s ← get
  if ¬ s.mMachineTaskPages.contains machine page then do
    modify fun s => { s with mMachineTaskPages := s.mMachineTaskPages.insert machine page }
    checkPageOnMachine machine page

/-- A page that no task that loads on a machine has any more is not a task page of the machine. -/
def dropMachineTaskPage : Call Unit := do
  let s ← get
  if s.mMachineTaskPages.contains machine page ∧ ¬ s.anyLoadingTaskHasPage machine page then do
    modify fun s => { s with mMachineTaskPages := s.mMachineTaskPages.drop machine page }
    checkPageOnMachine machine page

/-- The machines on which a page of a task would have to be loaded, each with the task. -/
def machinesLacking (task : TaskAllocatorId) (page : PageId) : List (TaskAllocatorId × MachineId) :=
  ((ascending s.mMachines).filter fun m => ¬ s.mMachineHeldOrTaskPages.contains m page).map (task, ·)

/-- `taskAddPage(task, page)`. -/
def taskAddPage : Call Unit := do
  modify fun s => s.touchTask task
  let s ← get
  lassert (¬ s.mTaskPages.contains task page) .taskHasPage
  modify fun s => { s with mTaskPages := s.mTaskPages.insert task page }
  (s.machinesLacking task page).forM (addToCost page.bytecount)
  (ascending (s.mLoadingTasks.getValues task)).forM fun machine => addMachineTaskPage machine page

/-- `taskDropPage(task, page)`. -/
def taskDropPage : Call Unit := do
  modify fun s => s.touchTask task
  let s ← get
  lassert (s.mTaskPages.contains task page) .taskLacksPage
  modify fun s => { s with mTaskPages := s.mTaskPages.drop task page }
  (s.machinesLacking task page).forM (addToCost (-page.bytecount))
  (ascending (s.mLoadingTasks.getValues task)).forM fun machine => dropMachineTaskPage machine page

/-! ## Tasks on machines -/

/-- `addTaskLoading(task, machine)`. -/
def addTaskLoading : Call Unit := do
  modify fun s => { s with mLoadingTasks := s.mLoadingTasks.insert task machine }
  modify fun s => s.discardAllocatable task machine
  let s ← get
  (ascending (s.mTaskPages.getValues task)).forM (addMachineTaskPage machine)

/-- `addTaskRunning(task, machine)`. -/
def addTaskRunning : Call Unit := do
  modify fun s => s.discardAllocatable task machine
  modify fun s => { s with mRunningTasks := s.mRunningTasks.insert task machine }

/-- `dropTaskLoading(task, machine)`. -/
def dropTaskLoading : Call Unit := do
  modify fun s => { s with mLoadingTasks := s.mLoadingTasks.drop task machine }
  let s ← get
  (ascending (s.mTaskPages.getValues task)).forM (dropMachineTaskPage machine)
  listIfAllocatable task machine

/-- `dropTaskRunning(task, machine)`. -/
def dropTaskRunning : Call Unit := do
  modify fun s => { s with mRunningTasks := s.mRunningTasks.drop task machine }
  listIfAllocatable task machine

/-- `mCostsByMachine[machine].drop(task)`, which asserts that there is one. -/
def dropCost : Call Unit := do
  let s ← get
  lassert ((s.mCostsByMachine.get machine).hasKey task) .noCost
  modify fun s =>
    { s with
      mCostsByMachine := insert machine ((s.mCostsByMachine.get machine).discard task) s.mCostsByMachine }

/-- `dropTask(task)`. -/
def dropTask : Call Unit := do
  let s ← get
  if task ∉ s.mTasks then return ()
  else do
    markTaskFullyAllocated task
    (ascending (s.mTaskPages.getValues task)).forM (taskDropPage task)
    modify fun s => { s with mTasks := s.mTasks.erase task }
    (ascending (s.mLoadingTasks.getValues task)).forM (dropTaskLoading task)
    (ascending (s.mRunningTasks.getValues task)).forM (dropTaskRunning task)
    let s ← get
    lassert (¬ s.mTaskPages.hasKey task) .pagesLeft
    modify fun s =>
      { s with
        mCostsByTask := erase task s.mCostsByTask
        mWholeTaskCosts := s.mWholeTaskCosts.discard task }
    (ascending s.mMachines).forM (dropCost task)

/-! ## The validator -/

/-- `validateState()`: whether none of its assertions fails. -/
def validateState : Prop := (∀ t ∈ s.mUnderallocatedTasks, t ∈ s.mTasks) ∧
  (∀ t ∈ s.mLoadingTasks.mKeysToValues.keys, ∀ m ∈ s.mLoadingTasks.mKeysToValues.get t,
    ∀ p ∈ s.mTaskPages.getValues t, s.mMachineTaskPages.contains m p) ∧
  (∀ m ∈ s.mMachineTaskPages.mKeysToValues.keys, ∀ p ∈ s.mMachineTaskPages.mKeysToValues.get m,
    s.anyLoadingTaskHasPage m p) ∧
  (∀ m ∈ s.mMachineHeldOrTaskPages.mKeysToValues.keys, ∀ p ∈ s.mMachineHeldOrTaskPages.mKeysToValues.get m,
    s.mMachineTaskPages.contains m p ∨ s.mMachineHeldPages.contains m p) ∧
  (∀ m ∈ s.mMachineTaskPages.mKeysToValues.keys, ∀ p ∈ s.mMachineTaskPages.mKeysToValues.get m,
    s.mMachineHeldOrTaskPages.contains m p) ∧
  (∀ m ∈ s.mMachineHeldPages.mKeysToValues.keys, ∀ p ∈ s.mMachineHeldPages.mKeysToValues.get m,
    s.mMachineHeldOrTaskPages.contains m p) ∧
  (∀ m ∈ s.mMachines, ∀ t ∈ s.mTasks, m ∈ s.mCostsByMachine ∧ t ∈ s.mCostsByTask ∧
    (s.mCostsByMachine.get m).hasKey t ∧ (s.mCostsByTask.get t).hasKey m) ∧
  (∀ m ∈ s.mCostsByMachine.keys, ∀ t ∈ (s.mCostsByMachine.get m).mKeyToValue.keys,
    (s.mCostsByTask.get t).tryGetValue m = (s.mCostsByMachine.get m).tryGetValue t) ∧
  (∀ m ∈ s.mCostsByMachine.keys, ∀ t ∈ (s.mCostsByMachine.get m).mKeyToValue.keys,
    (s.mCostsByMachine.get m).tryGetValue t = some (s.computeActualTaskCost t m)) ∧
  ∀ m ∈ s.mMachines, ∀ t ∈ s.mTasks,
    if ¬ s.taskAllocatableOnMachine t m then ¬ (s.mAllocatableCostsByMachine.get m).hasKey t
    else (s.mAllocatableCostsByMachine.get m).hasKey t ∧
      (s.mAllocatableCostsByMachine.get m).tryGetValue t = (s.mCostsByMachine.get m).tryGetValue t
deriving Decidable

/-- The public operations that change the costs. -/
inductive Op where
  | touchTask (task : TaskAllocatorId)
  | touchMachine (machine : MachineId)
  | markTaskUnderallocated (task : TaskAllocatorId)
  | markTaskFullyAllocated (task : TaskAllocatorId)
  | machineAddPage (machine : MachineId) (page : PageId)
  | machineDropPage (machine : MachineId) (page : PageId)
  | taskAddPage (task : TaskAllocatorId) (page : PageId)
  | taskDropPage (task : TaskAllocatorId) (page : PageId)
  | addTaskLoading (task : TaskAllocatorId) (machine : MachineId)
  | addTaskRunning (task : TaskAllocatorId) (machine : MachineId)
  | dropTaskLoading (task : TaskAllocatorId) (machine : MachineId)
  | dropTaskRunning (task : TaskAllocatorId) (machine : MachineId)
  | dropTask (task : TaskAllocatorId)

/-- The call that an operation makes. -/
def Op.call : Op → Call Unit
  | .touchTask task => modify fun s => s.touchTask task
  | .touchMachine machine => modify fun s => s.touchMachine machine
  | .markTaskUnderallocated task => TaskCosts.markTaskUnderallocated task
  | .markTaskFullyAllocated task => TaskCosts.markTaskFullyAllocated task
  | .machineAddPage machine page => TaskCosts.machineAddPage machine page
  | .machineDropPage machine page => TaskCosts.machineDropPage machine page
  | .taskAddPage task page => TaskCosts.taskAddPage task page
  | .taskDropPage task page => TaskCosts.taskDropPage task page
  | .addTaskLoading task machine => TaskCosts.addTaskLoading task machine
  | .addTaskRunning task machine => TaskCosts.addTaskRunning task machine
  | .dropTaskLoading task machine => TaskCosts.dropTaskLoading task machine
  | .dropTaskRunning task machine => TaskCosts.dropTaskRunning task machine
  | .dropTask task => TaskCosts.dropTask task

/-- What an operation asserts of its arguments. -/
def Op.Asserted : Op → Prop
  | .markTaskUnderallocated task | .markTaskFullyAllocated task => task ∈ s.mTasks
  | .machineAddPage machine page => ¬ s.mMachineHeldPages.contains machine page
  | .machineDropPage machine page => s.mMachineHeldPages.contains machine page
  | .taskAddPage task page => ¬ s.mTaskPages.contains task page
  | .taskDropPage task page => s.mTaskPages.contains task page
  | _ => True

instance (s : TaskCosts) : (op : Op) → Decidable (op.Asserted s)
  | .markTaskUnderallocated _ | .markTaskFullyAllocated _ => inferInstanceAs (Decidable (_ ∈ _))
  | .machineAddPage .. | .taskAddPage .. => inferInstanceAs (Decidable (¬ _))
  | .machineDropPage .. => inferInstanceAs (Decidable (s.mMachineHeldPages.contains _ _))
  | .taskDropPage .. => inferInstanceAs (Decidable (s.mTaskPages.contains _ _))
  | .touchTask _ | .touchMachine _ | .addTaskLoading .. | .addTaskRunning .. | .dropTaskLoading ..
  | .dropTaskRunning .. | .dropTask _ => inferInstanceAs (Decidable True)

/-- The costs, and an assertion that has failed within a call. -/
structure System where
  costs : TaskCosts := {}
  failed : Option CostsError := none

namespace System

/-- One call within its asserted precondition. -/
def step (t : System) (op : Op) : Option System :=
  if op.Asserted t.costs then
    match op.call.run t.costs with
    | .ok _ costs => some { t with costs }
    | .error e costs => some { costs, failed := t.failed.or (some e) }
  else none

end System

end TaskCosts

end Cumulus.PageLayoutCalculator
