import Ufora.Containers.MapWithIndex
import Ufora.Lib.Effect
import Ufora.Lib.Run
import Mathlib

/-!
# `CheckpointStatusesKernel`

`cumulus/SystemwideComputationScheduler/CheckpointStatusesKernel.hppml`: when the computations are asked for
a checkpoint. A request is in flight until it is finalized: by a reply, or, where a checkpoint was written to
storage, by the commit that follows the reply. A computation whose request is not in flight may be in the two
tables of next times.

Times are of any ordered type with an addition, of which nothing is assumed: additions of doubles round.
-/

open Ordered Effect Finmap

namespace Cumulus.CheckpointStatusesKernel

/-- `CheckpointRequest`. A client may name a computation that is no root. -/
structure CheckpointRequest (κ τ : Type) where
  timestamp : τ
  writeToStorage : Bool
  rootComputation : κ
  deriving DecidableEq

/-- `CheckpointStatus`, without the statistics. -/
structure CheckpointStatus where
  checkpointSuccessful : Bool
  isRootComputationFinished : Bool
  isRootComputationPassthrough : Bool

/-- `withCheckpointError()`. -/
def CheckpointStatus.withCheckpointError (status : CheckpointStatus) : CheckpointStatus :=
  { status with checkpointSuccessful := false }

/-- `CumulusCheckpointPolicy`, of which the kernel reads the interval only. -/
inductive CumulusCheckpointPolicy (τ : Type) where
  | None
  | Periodic (checkpointCommitIntervalSeconds : τ)

/-- `ReceivedCheckpoint`. -/
structure ReceivedCheckpoint (κ τ : Type) where
  checkpoint : CheckpointRequest κ τ
  status : CheckpointStatus
  timestampReceived : τ

end CheckpointStatusesKernel

open CheckpointStatusesKernel in
/-- A `CheckpointStatusesKernel`. -/
structure CheckpointStatusesKernel (κ τ : Type) [LinearOrder κ] [LinearOrder τ] where
  mCommitPolicy : CumulusCheckpointPolicy τ
  mCheckpointInterval : τ
  mNewCommittedCheckpointsPaused : Bool := false
  mHasBroadcastAfterCheckpointPause : Bool := false
  mCheckpointStatuses : StdMap κ (ReceivedCheckpoint κ τ) := ∅
  mCommittedCheckpointStatuses : StdMap κ (ReceivedCheckpoint κ τ) := ∅
  mCheckpointsPendingCommit : StdMap (CheckpointRequest κ τ) CheckpointStatus := ∅
  mInFlightCheckpointRequests : StdMap κ (CheckpointRequest κ τ) := ∅
  mFirstObservedTimestamp : StdMap κ τ := ∅
  mNextCheckpointTime : MapWithIndex κ τ := ∅
  mNextCommittedCheckpointTime : MapWithIndex κ τ := ∅
  mComputationsNeedingImmediateCommit : Finset κ := ∅
  mFinishedComputationsLoadedFromCheckpoint : Finset κ := ∅

namespace CheckpointStatusesKernel

variable {κ τ : Type} [LinearOrder κ] [LinearOrder τ]

/-- The assertions that fail. -/
inductive KernelError where
  | alreadyOutstanding
  | notPendingCommit

/-- A member function with an assertion. -/
abbrev Call (κ τ : Type) [LinearOrder κ] [LinearOrder τ] := EStateM KernelError (CheckpointStatusesKernel κ τ)

/-- The checkpoint was taken and the computation is finished in it. -/
def ReceivedCheckpoint.isFinal (received : ReceivedCheckpoint κ τ) : Bool :=
  received.status.checkpointSuccessful && received.status.isRootComputationFinished

variable (s : CheckpointStatusesKernel κ τ)

/-- `isFinishedAndCheckpointed(computation)`. -/
def isFinishedAndCheckpointed (computation : κ) : Bool :=
  decide (computation ∈ s.mFinishedComputationsLoadedFromCheckpoint) ||
    (lookup computation s.mCommittedCheckpointStatuses).any ReceivedCheckpoint.isFinal

/-- `isFinishedAndCheckpointStatusIsUpToDate(computation)`. -/
def isFinishedAndCheckpointStatusIsUpToDate (computation : κ) : Bool :=
  decide (computation ∈ s.mFinishedComputationsLoadedFromCheckpoint) ||
    (lookup computation s.mCheckpointStatuses).any ReceivedCheckpoint.isFinal

/-- `hasOutstandingCheckpointRequest(computation)`. -/
def hasOutstandingCheckpointRequest (computation : κ) : Prop := computation ∈ s.mInFlightCheckpointRequests
deriving Decidable

section
variable [Add τ] (computation : κ)

/-- `nextRegularCheckpointFor(computation, curTime)`. -/
def nextRegularCheckpointFor (curTime : τ) : Option τ :=
  match lookup computation s.mCheckpointStatuses with
  | none => some curTime
  | some received =>
    if s.isFinishedAndCheckpointStatusIsUpToDate computation then none
    else some (received.timestampReceived + s.mCheckpointInterval)

variable [Zero τ]

/-- The `interval` of `nextCommittedCheckpointFor`, for a computation with the status `status`. -/
def commitInterval (status : CheckpointStatus) : Option τ := do
  let interval ←
    if computation ∈ s.mComputationsNeedingImmediateCommit then some 0
    else
      match s.mCommitPolicy with
      | .None => none
      | .Periodic seconds => if status.isRootComputationPassthrough then none else some seconds
  if status.isRootComputationFinished && !(lookup computation s.mCommittedCheckpointStatuses).any
      fun received => received.status.isRootComputationFinished then return 0
  return interval

/-- `nextCommittedCheckpointFor(computation, curTime)`. -/
def nextCommittedCheckpointFor : Option τ := do
  if s.isFinishedAndCheckpointed computation then none
  let firstObserved ← lookup computation s.mFirstObservedTimestamp
  let received ← lookup computation s.mCheckpointStatuses
  let interval ← s.commitInterval computation received.status
  match lookup computation s.mCommittedCheckpointStatuses with
  | none => return firstObserved + interval
  | some committed => return committed.timestampReceived + interval

/-- Puts a computation into a table, where it has a next time. -/
def setTime (table : MapWithIndex κ τ) (computation : κ) : Option τ → MapWithIndex κ τ
  | none => table
  | some timestamp => table.set computation timestamp

/-- `setNextCheckpointTimestamps(computation, curTime)`. -/
def setNextCheckpointTimestamps (curTime : τ) : CheckpointStatusesKernel κ τ := { s with
    mNextCheckpointTime := setTime s.mNextCheckpointTime computation (s.nextRegularCheckpointFor computation curTime)
    mNextCommittedCheckpointTime :=
      setTime s.mNextCommittedCheckpointTime computation (s.nextCommittedCheckpointFor computation) }

variable (checkpoint : CheckpointRequest κ τ)

/-- `finalizeCheckpoint(checkpoint, status, curTime)`. -/
def finalizeCheckpoint (status : CheckpointStatus) (curTime : τ) : CheckpointStatusesKernel κ τ :=
  let received : ReceivedCheckpoint κ τ := ⟨checkpoint, status, curTime⟩
  let s := { s with
    mCheckpointStatuses := insert checkpoint.rootComputation received s.mCheckpointStatuses
    mCommittedCheckpointStatuses :=
      if checkpoint.writeToStorage then
        insert checkpoint.rootComputation received s.mCommittedCheckpointStatuses
      else s.mCommittedCheckpointStatuses
    mInFlightCheckpointRequests := erase checkpoint.rootComputation s.mInFlightCheckpointRequests
    mComputationsNeedingImmediateCommit :=
      if checkpoint.writeToStorage && status.checkpointSuccessful then
        s.mComputationsNeedingImmediateCommit.erase checkpoint.rootComputation
      else s.mComputationsNeedingImmediateCommit }
  s.setNextCheckpointTimestamps checkpoint.rootComputation curTime

/-- `computationStatusReceived(computation, curTime)` for a computation that is new. -/
def observed (curTime : τ) : CheckpointStatusesKernel κ τ :=
  { s with mFirstObservedTimestamp := insert computation curTime s.mFirstObservedTimestamp }

/-- `computationStatusReceived(computation, curTime)`. -/
def computationStatusReceived (curTime : τ) : CheckpointStatusesKernel κ τ :=
  if computation ∈ s.mFirstObservedTimestamp then s
  else (s.observed computation curTime).setNextCheckpointTimestamps computation curTime

/-- `checkpointLoaded(checkpoint, wasFinished)`. -/
def checkpointLoaded (wasFinished : Bool) : CheckpointStatusesKernel κ τ :=
  if !wasFinished then s
  else { s with
    mFinishedComputationsLoadedFromCheckpoint :=
      insert checkpoint.rootComputation s.mFinishedComputationsLoadedFromCheckpoint }

/-- `checkpointReceived(request, status, curTime)`: whether the checkpoint is to be committed. -/
def checkpointReceived (request : CheckpointRequest κ τ)
    (status : CheckpointStatus) (curTime : τ) : Bool × CheckpointStatusesKernel κ τ :=
  if !request.writeToStorage || !status.checkpointSuccessful then
    (false, s.finalizeCheckpoint request status curTime)
  else
    (true, { s with
      mCheckpointsPendingCommit := insert request status s.mCheckpointsPendingCommit })

/-- `checkpointCommitted(checkpoint, allDataPersistedSuccessfully, curTime)`. -/
def checkpointCommitted (allDataPersistedSuccessfully : Bool) (curTime : τ) : Call κ τ Unit := do
  match lookup checkpoint (← get).mCheckpointsPendingCommit with
  | none => throw .notPendingCommit
  | some status =>
    modify fun s =>
      { s with mCheckpointsPendingCommit := erase checkpoint s.mCheckpointsPendingCommit }
    modify fun s => s.finalizeCheckpoint checkpoint
      (if allDataPersistedSuccessfully then status else status.withCheckpointError) curTime

/-- `triggerCheckpointIfPossible(computation, curTime)`. -/
def triggerCheckpointIfPossible (curTime : τ) : CheckpointStatusesKernel κ τ :=
  if s.isFinishedAndCheckpointed computation then s
  else if computation ∈ s.mComputationsNeedingImmediateCommit then s
  else
    let s := { s with
      mComputationsNeedingImmediateCommit := insert computation s.mComputationsNeedingImmediateCommit }
    if computation ∈ s.mInFlightCheckpointRequests then s
    else s.setNextCheckpointTimestamps computation curTime

/-- `triggerCheckpointsOnAllOutstanding(curTime)`. -/
def triggerCheckpointsOnAllOutstanding (curTime : τ) : CheckpointStatusesKernel κ τ :=
  (ascending s.mFirstObservedTimestamp.keys).foldl
    (fun s computation => s.triggerCheckpointIfPossible computation curTime) s

end

/-- What `checkpointInitiated(checkpoint)` leaves. -/
def initiated (checkpoint : CheckpointRequest κ τ) : CheckpointStatusesKernel κ τ := { s with
    mInFlightCheckpointRequests := insert checkpoint.rootComputation checkpoint s.mInFlightCheckpointRequests
    mNextCheckpointTime := s.mNextCheckpointTime.discard checkpoint.rootComputation
    mNextCommittedCheckpointTime := s.mNextCommittedCheckpointTime.discard checkpoint.rootComputation }

/-- `checkpointInitiated(checkpoint)`. -/
def checkpointInitiated (checkpoint : CheckpointRequest κ τ) : Call κ τ Unit := do
  lassert (¬ (← get).hasOutstandingCheckpointRequest checkpoint.rootComputation) .alreadyOutstanding
  modify fun s => s.initiated checkpoint

/-- The first computation of a table, if its time is before `curTime`. -/
def firstBefore (table : MapWithIndex κ τ) (curTime : τ) : Option κ := do
  let lowest ← table.lowestValue
  if lowest < curTime then (ascending (table.getKeys lowest)).head? else none

/-- `nextCheckpointToRequest(curTime)`. -/
def nextCheckpointToRequest (curTime : τ) : Call κ τ (Option (CheckpointRequest κ τ)) := do
  let s ← get
  match if s.mNewCommittedCheckpointsPaused then none
    else firstBefore s.mNextCommittedCheckpointTime curTime with
  | some comp =>
    checkpointInitiated ⟨curTime, true, comp⟩
    return some ⟨curTime, true, comp⟩
  | none =>
    match firstBefore s.mNextCheckpointTime curTime with
    | some comp =>
      checkpointInitiated ⟨curTime, false, comp⟩
      return some ⟨curTime, false, comp⟩
    | none => return none

/-- `setCheckpointStatusInterval(inInterval)`. -/
def setCheckpointStatusInterval (inInterval : τ) :
    CheckpointStatusesKernel κ τ := { s with mCheckpointInterval := inInterval }

/-- `pauseNewCommittedCheckpoints()`. -/
def pauseNewCommittedCheckpoints : CheckpointStatusesKernel κ τ :=
  { s with mNewCommittedCheckpointsPaused := true, mHasBroadcastAfterCheckpointPause := false }

/-- `resumeNewCommittedCheckpoints()`. -/
def resumeNewCommittedCheckpoints : CheckpointStatusesKernel κ τ := { s with mNewCommittedCheckpointsPaused := false }

/-- `canBroadcastAfterPause()`. -/
def canBroadcastAfterPause : Bool × CheckpointStatusesKernel κ τ :=
  if s.mNewCommittedCheckpointsPaused ∧ ¬ s.mHasBroadcastAfterCheckpointPause ∧ s.mInFlightCheckpointRequests = ∅ then
    (true, { s with mHasBroadcastAfterCheckpointPause := true })
  else (false, s)

/-! ## Runs -/

/-- The kernel, and what its callers know of it: the requests that were taken from it and are not finalized,
whether garbage is collected since it told to broadcast, and how often it told so in this pause. -/
structure System (κ τ : Type) [LinearOrder κ] [LinearOrder τ] where
  kernel : CheckpointStatusesKernel κ τ
  outstanding : List (CheckpointRequest κ τ) := []
  collecting : Bool := false
  broadcasts : ℕ := 0

/-- The system at first. -/
def System.start (inCheckpointInterval : τ) (inCommitPolicy : CumulusCheckpointPolicy τ) : System κ τ where
  kernel := { mCommitPolicy := inCommitPolicy, mCheckpointInterval := inCheckpointInterval }

/-- The calls. -/
inductive Op (κ τ : Type) where
  | computationStatusReceived (computation : κ) (curTime : τ)
  | checkpointLoaded (checkpoint : CheckpointRequest κ τ) (wasFinished : Bool)
  | checkpointReceived (request : CheckpointRequest κ τ) (status : CheckpointStatus) (curTime : τ)
  | checkpointCommitted (checkpoint : CheckpointRequest κ τ) (allDataPersistedSuccessfully : Bool)
      (curTime : τ)
  | nextCheckpointToRequest (curTime : τ)
  | setCheckpointStatusInterval (inInterval : τ)
  | triggerCheckpointIfPossible (computation : κ) (curTime : τ)
  | triggerCheckpointsOnAllOutstanding (curTime : τ)
  | pauseNewCommittedCheckpoints
  | resumeNewCommittedCheckpoints
  | canBroadcastAfterPause

/-- One call. A reply and a commit come for requests that are outstanding only. A commit for a request that
has not been replied to throws, and so does a request for a computation that has one outstanding; then
nothing changes. -/
def System.step [Zero τ] [Add τ] (s : System κ τ) : Op κ τ → Option (System κ τ)
  | .computationStatusReceived computation curTime =>
    some { s with kernel := s.kernel.computationStatusReceived computation curTime }
  | .checkpointLoaded checkpoint wasFinished =>
    some { s with kernel := s.kernel.checkpointLoaded checkpoint wasFinished }
  | .checkpointReceived request status curTime =>
    if request ∈ s.outstanding then
      let (initiateCommit, kernel) := s.kernel.checkpointReceived request status curTime
      some { s with
        kernel := kernel
        outstanding := if initiateCommit then s.outstanding else s.outstanding.erase request }
    else none
  | .checkpointCommitted checkpoint allDataPersistedSuccessfully curTime =>
    if checkpoint ∈ s.outstanding then
      match checkpointCommitted checkpoint allDataPersistedSuccessfully curTime
        s.kernel with
      | .ok _ kernel => some { s with kernel := kernel, outstanding := s.outstanding.erase checkpoint }
      | .error _ kernel => some { s with kernel := kernel }
    else none
  | .nextCheckpointToRequest curTime =>
    match nextCheckpointToRequest curTime s.kernel with
    | .ok request kernel =>
      some { s with kernel := kernel, outstanding := s.outstanding ++ request.toList }
    | .error _ kernel => some { s with kernel := kernel }
  | .setCheckpointStatusInterval inInterval =>
    some { s with kernel := s.kernel.setCheckpointStatusInterval inInterval }
  | .triggerCheckpointIfPossible computation curTime =>
    some { s with kernel := s.kernel.triggerCheckpointIfPossible computation curTime }
  | .triggerCheckpointsOnAllOutstanding curTime =>
    some { s with kernel := s.kernel.triggerCheckpointsOnAllOutstanding curTime }
  | .pauseNewCommittedCheckpoints =>
    some { s with kernel := s.kernel.pauseNewCommittedCheckpoints, broadcasts := 0 }
  | .resumeNewCommittedCheckpoints =>
    some { s with kernel := s.kernel.resumeNewCommittedCheckpoints, collecting := false }
  | .canBroadcastAfterPause =>
    let (broadcast, kernel) := s.kernel.canBroadcastAfterPause
    some { s with
      kernel := kernel
      collecting := s.collecting || broadcast
      broadcasts := s.broadcasts + broadcast.toNat }

end Cumulus.CheckpointStatusesKernel
