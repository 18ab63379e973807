import Ufora.Computations.ComputationPriority
import Ufora.Containers.TwoWaySetMap
import Ufora.Lib.Effect
import Ufora.Lib.Run

/-!
# `MachineComputationMap`

`cumulus/MachineComputationMap.cppml`: which machines hold which computations. The map is told the status of
each computation on each machine and signals a computation as lost that no machine holds. A move is reported by
its source and by its target, in either order: what one of them has reported is a flow that waits for the other.

Machines are not dropped here. An active status carries no `ComputationStatus`, which the map does not look at.
-/

open Ordered Effect

namespace Cumulus

/-- `ComputationStatusOnMachine`. -/
inductive ComputationStatusOnMachine where
  | Inactive
  | Active
  | Moving (targetMachine : MachineId) (moveGuid : Hash)
  | ReceivedFrom (sourceMachine : MachineId) (moveGuid : Hash)
  deriving DecidableEq

namespace ComputationStatusOnMachine

instance : Inhabited ComputationStatusOnMachine := ⟨Inactive⟩

end ComputationStatusOnMachine

namespace MachineComputationMap

/-- `ComputationFlow`. -/
structure ComputationFlow where
  computation : ComputationId
  source : MachineId
  dest : MachineId
  moveGuid : Hash
  deriving DecidableEq

end MachineComputationMap

open MachineComputationMap in
/-- A `MachineComputationMap`, and the calls that it has made of `mOnComputationsLost`. -/
structure MachineComputationMap where
  mComputationOutFlows : Finset ComputationFlow := ∅
  mComputationInFlows : Finset ComputationFlow := ∅
  mStatuses : StdMap (ComputationId × MachineId) ComputationStatusOnMachine := ∅
  mComputationToMachineMap : TwoWaySetMap ComputationId MachineId := ∅
  mComputationHashToComputation : TwoWaySetMap Hash ComputationId := ∅
  mMachinesEverDropped : Finset MachineId := ∅
  mMachinesActive : Finset MachineId := ∅
  mMovesCompleted : Finset Hash := ∅
  mMovesToConsiderCompleted : Finset Hash := ∅
  onComputationsLost : List (Finset ComputationId) := []

namespace MachineComputationMap

open ComputationStatusOnMachine (Inactive Active Moving ReceivedFrom)

/-- The assertions. -/
inductive MapError where
  | machineDropped
  | machineActive
  | machineUnknown
  | flowAlready
  | moveAlready

/-- A member function. -/
abbrev Call := EStateM MapError MachineComputationMap

/-- `addMachine(machine)`. -/
def addMachine (machine : MachineId) : Call Unit := do
  let s ← get
  lassert (machine ∉ s.mMachinesEverDropped) .machineDropped
  lassert (machine ∉ s.mMachinesActive) .machineActive
  modify fun s => { s with mMachinesActive := insert machine s.mMachinesActive }

variable (s : MachineComputationMap)

/-- `isDropped(inId)`. -/
def isDropped (inId : ComputationId) : Bool :=
  if (s.mComputationInFlows.filter fun flow => flow.computation = inId).card ≠ 0 then false
  else if (s.mComputationOutFlows.filter fun flow => flow.computation = inId).card ≠ 0 then false
  else if s.mComputationToMachineMap.hasKey inId then false
  else true

/-- `signalDropped(inId)`. -/
def signalDropped (inId : ComputationId) : MachineComputationMap := { s with
    mComputationHashToComputation := s.mComputationHashToComputation.dropValue inId
    onComputationsLost := s.onComputationsLost ++ [{inId}] }

/-- The computation is signalled as lost where it is. -/
def signalIfDropped (inId : ComputationId) : MachineComputationMap :=
  if s.isDropped inId then s.signalDropped inId else s

/-- `flowCompleted(flow)`. -/
def flowCompleted (flow : ComputationFlow) : MachineComputationMap := { s with
    mComputationOutFlows := s.mComputationOutFlows.erase flow
    mComputationInFlows := s.mComputationInFlows.erase flow }.signalIfDropped flow.computation

/-- `flowStarted(flow)`. -/
def flowStarted (flow : ComputationFlow) : Call Unit := do
  let s ← get
  lassert (flow.moveGuid ∉ s.mMovesCompleted) .moveAlready
  modify fun s => { s with mMovesCompleted := insert flow.moveGuid s.mMovesCompleted }

variable (inMachine : MachineId) (inComputation : ComputationId)

/-- The first part of `setComputationStatus`: the tables of statuses. -/
def setStatus (statusOnMachine : ComputationStatusOnMachine) : MachineComputationMap :=
  if statusOnMachine = Inactive then
    { s with
      mComputationToMachineMap :=
        if s.mComputationToMachineMap.contains inComputation inMachine then
          s.mComputationToMachineMap.drop inComputation inMachine
        else s.mComputationToMachineMap
      mStatuses := Finmap.erase (inComputation, inMachine) s.mStatuses }
  else
    { s with
      mComputationToMachineMap := s.mComputationToMachineMap.insert inComputation inMachine
      mStatuses := Finmap.insert (inComputation, inMachine) statusOnMachine s.mStatuses
      mComputationHashToComputation :=
        match inComputation with
        | .Root computationHash => s.mComputationHashToComputation.insert computationHash inComputation
        | .Split .. => s.mComputationHashToComputation }

/-- The second part of `setComputationStatus`: the flow that the change of the status is one end of. -/
def setFlows : ComputationStatusOnMachine → ComputationStatusOnMachine → Call Unit
  | Inactive, ReceivedFrom sourceMachine moveGuid => do
    let flow := ⟨inComputation, sourceMachine, inMachine, moveGuid⟩
    let s ← get
    if flow ∈ s.mComputationOutFlows then modify fun s => s.flowCompleted flow
    else modify fun s => { s with mComputationInFlows := insert flow s.mComputationInFlows }
  | Moving targetMachine moveGuid, Active => do
    let flow := ⟨inComputation, inMachine, targetMachine, moveGuid⟩
    let s ← get
    if flow ∈ s.mComputationOutFlows then modify fun s => s.flowCompleted flow
  | Active, Moving targetMachine moveGuid => do
    let flow := ⟨inComputation, inMachine, targetMachine, moveGuid⟩
    let s ← get
    if flow ∈ s.mComputationInFlows ∨ flow.moveGuid ∈ s.mMovesToConsiderCompleted then
      modify fun s => s.flowCompleted flow
    else do
      lassert (flow ∉ s.mComputationOutFlows) .flowAlready
      modify fun s => { s with mComputationOutFlows := insert flow s.mComputationOutFlows }
      flowStarted flow
  | _, _ => return ()

/-- `setComputationStatus(inMachine, inComputation, statusOnMachine)`. -/
def setComputationStatus (statusOnMachine : ComputationStatusOnMachine) : Call Unit := do
  let s ← get
  if inMachine ∈ s.mMachinesEverDropped then return ()
  lassert (inMachine ∈ s.mMachinesActive) .machineUnknown
  modify fun s => s.setStatus inMachine inComputation statusOnMachine
  setFlows inMachine inComputation (s.mStatuses.get (inComputation, inMachine)) statusOnMachine
  modify fun s => s.signalIfDropped inComputation

/-! ## Computations on their way -/

/-- A stay of a computation on a machine: how it came there, if it was not created there, and the statuses that the
machine reports during the stay, those that have reached the map and those that have not yet. -/
structure Stay where
  machine : MachineId
  cameFrom : Option (MachineId × Hash)
  delivered : List ComputationStatusOnMachine
  pending : List ComputationStatusOnMachine

namespace Stay

/-- All reports of the stay, in order. -/
def reports (stay : Stay) : List ComputationStatusOnMachine := stay.delivered ++ stay.pending

/-- The status that the machine has reported last. -/
def status (stay : Stay) : ComputationStatusOnMachine := stay.reports.getLast?.getD Inactive

/-- All that the machine reported in its earlier stays has reached the map. -/
def IsNext (stay : Stay) (earlier : List Stay) : Prop :=
  ∀ other ∈ earlier, other.machine = stay.machine → other.pending = []
deriving Decidable

/-- One more report. -/
def report (stay : Stay) (status : ComputationStatusOnMachine) : Stay :=
  { stay with pending := stay.pending ++ [status] }

end Stay

/-- The move that some reports end with: one that was started and not rejected since. -/
def moveOf (reports : List ComputationStatusOnMachine) : Option (MachineId × Hash) := reports.foldl (fun move status =>
    match status with
    | Moving targetMachine moveGuid => some (targetMachine, moveGuid)
    | Inactive => move
    | _ => none) none

/-- The map, the stays of every computation, the last one first, the guids of the moves, and an assertion that has
failed. -/
structure System where
  map : MachineComputationMap := {}
  stays : ComputationId → List Stay := fun _ => []
  guids : Finset Hash := ∅
  failed : Option MapError := none

/-- What the machines do, and the arrival of a report at the map. A computation is created once, each move has a
guid of its own, and a report arrives after those that the same machine made earlier of the same computation. -/
inductive Op where
  | addMachine (machine : MachineId)
  | create (computation : ComputationId) (machine : MachineId)
  | activate (computation : ComputationId)
  | update (computation : ComputationId)
  | startMove (computation : ComputationId) (targetMachine : MachineId) (moveGuid : Hash)
  | rejectMove (computation : ComputationId)
  | receive (computation : ComputationId)
  | release (computation : ComputationId) (stay : ℕ)
  | finish (computation : ComputationId)
  | deliver (computation : ComputationId) (stay : ℕ)

namespace System

/-- The stays of one computation change. -/
def withStays (t : System) (computation : ComputationId) (stays : List Stay) : System :=
  { t with stays := Function.update t.stays computation stays }

/-- A call of the map. -/
def call (t : System) (x : Call Unit) : System :=
  match x.run t.map with
  | .ok _ map => { t with map }
  | .error e map => { t with map, failed := t.failed.or (some e) }

/-- One step, where it is possible. -/
def step (t : System) : Op → Option System
  | .addMachine machine =>
    if machine ∈ t.map.mMachinesActive then none
    else some (t.call (addMachine machine))
  | .create computation machine =>
    if t.stays computation = [] ∧ machine ∈ t.map.mMachinesActive then
      some (t.withStays computation [⟨machine, none, [], [Active]⟩])
    else none
  | .activate computation =>
    match t.stays computation with
    | [] => none
    | stay :: stays =>
      match stay.status with
      | ReceivedFrom .. => some (t.withStays computation (stay.report Active :: stays))
      | _ => none
  | .update computation =>
    match t.stays computation with
    | [] => none
    | stay :: stays =>
      match stay.status with
      | Active => some (t.withStays computation (stay.report Active :: stays))
      | _ => none
  | .startMove computation targetMachine moveGuid =>
    match t.stays computation with
    | [] => none
    | stay :: stays =>
      match stay.status with
      | Active =>
        if moveGuid ∉ t.guids ∧ targetMachine ∈ t.map.mMachinesActive then
          some { t.withStays computation (stay.report (Moving targetMachine moveGuid) :: stays) with
            guids := insert moveGuid t.guids }
        else none
      | _ => none
  | .rejectMove computation =>
    match t.stays computation with
    | [] => none
    | stay :: stays =>
      match stay.status with
      | Moving .. => some (t.withStays computation (stay.report Active :: stays))
      | _ => none
  | .receive computation =>
    match t.stays computation with
    | [] => none
    | stay :: stays =>
      match moveOf stay.reports with
      | some (targetMachine, moveGuid) =>
        if ∀ other ∈ stay :: stays, other.machine = targetMachine → other.status = Inactive then
          some (t.withStays computation
            (⟨targetMachine, some (stay.machine, moveGuid), [], [ReceivedFrom stay.machine moveGuid]⟩ ::
              stay :: stays))
        else none
      | none => none
  | .release computation index =>
    match (t.stays computation)[index]? with
    | none => none
    | some stay =>
      match stay.status with
      | Moving .. => some (t.withStays computation ((t.stays computation).set index (stay.report Inactive)))
      | _ => none
  | .finish computation =>
    match t.stays computation with
    | [] => none
    | stay :: stays =>
      match stay.status with
      | Active => some (t.withStays computation (stay.report Inactive :: stays))
      | _ => none
  | .deliver computation index =>
    match (t.stays computation)[index]? with
    | none => none
    | some stay =>
      match stay.pending with
      | [] => none
      | status :: pending =>
        if stay.IsNext ((t.stays computation).drop (index + 1)) then
          some ((t.withStays computation ((t.stays computation).set index
            { stay with delivered := stay.delivered ++ [status], pending })).call
              (setComputationStatus stay.machine computation status))
        else none

end System

end MachineComputationMap

end Cumulus
