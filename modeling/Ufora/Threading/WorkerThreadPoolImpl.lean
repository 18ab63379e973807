import Ufora.Computations.ComputationPriority
import Ufora.Lib.Effect
import Ufora.Lib.Run

/-!
# `WorkerThreadPoolImpl`

`cumulus/WorkerThreadPoolImpl.hppml`: threads that compute the computations of a machine, those of the highest
priority first. What a thread does with the tables is done under one lock; between two such steps it holds a
pointer to the `InProgressComputation` that it made when it selected the computation. Objects are never freed
here, so that a pointer is the position of its object.

Pausing and tearing down only keep threads from selecting and interrupt them. The log is left out.
-/

open Ordered Effect Finmap

namespace Cumulus

/-- `ComputationStatus`, without the things that a computation is blocked on. -/
inductive ComputationStatus where
  | Uninitialized
  | Finished
  | Computable
  | BlockedOnComputations
  | BlockedOnVectorLoad
  | BlockedOnExternalIoTask
  deriving DecidableEq

/-- `isComputable()`. -/
def ComputationStatus.isComputable : ComputationStatus → Bool
  | Computable => true
  | _ => false

/-- `LocalComputationPriorityAndStatusChanged`, without the statistics. -/
inductive LocalComputationPriorityAndStatusChanged where
  | Active (computation : ComputationId) (newPriority : ComputationPriority) (newStatus : ComputationStatus)
  | Inactive (computation : ComputationId)

namespace LocalComputationPriorityAndStatusChanged

/-- `computation()`. -/
def computation : LocalComputationPriorityAndStatusChanged → ComputationId
  | Active computation _ _ => computation
  | Inactive computation => computation

/-- `newPriority()`. -/
def newPriority : LocalComputationPriorityAndStatusChanged → ComputationPriority
  | Active _ newPriority _ => newPriority
  | Inactive _ => default

/-- `newStatus()`. -/
def newStatus : LocalComputationPriorityAndStatusChanged → Option ComputationStatus
  | Active _ _ newStatus => some newStatus
  | Inactive _ => none

end LocalComputationPriorityAndStatusChanged

namespace WorkerThreadPoolImpl

variable {τ : Type} [LinearOrder τ]

/-- `ComputablePriority`. -/
structure ComputablePriority (τ : Type) where
  priority : ComputationPriority
  computableSince : τ
  computationId : ComputationId

/-- `operator<`: a higher priority, or of equal ones what has waited longer. -/
def ComputablePriority.lt (c other : ComputablePriority τ) : Bool :=
  if c.priority != other.priority then other.priority.lt c.priority
  else if c.computableSince ≠ other.computableSince then decide (c.computableSince < other.computableSince)
  else decide (c.computationId < other.computationId)

/-- `InProgressComputation`. Of the state only whether there is one. -/
structure InProgressComputation (τ : Type) where
  mComputablePriority : ComputablePriority τ
  mIsInterrupted : Bool := false
  mState : Bool := false

end WorkerThreadPoolImpl

open WorkerThreadPoolImpl in
/-- The tables of a `WorkerThreadPoolImpl`, the number of its threads, and the objects made so far. Of
`mComputablePriorities` the map from computations to values: it decides which value is lowest. -/
structure WorkerThreadPoolImpl (τ : Type) where
  mThreadCount : ℕ
  mStatusChangesPendingCheckin : StdMap ComputationId (List LocalComputationPriorityAndStatusChanged) := ∅
  mComputablePriorities : StdMap ComputationId (ComputablePriority τ) := ∅
  mComputing : StdMap ComputationId ℕ := ∅
  objects : List (InProgressComputation τ) := []

namespace WorkerThreadPoolImpl

variable {τ : Type} [LinearOrder τ]

/-- The assertions, and a pointer to nothing. -/
inductive PoolError where
  | alreadyComputing
  | stillComputing
  | nothingComputing
  | noState
  | stateAlready
  | danglingPointer

/-- A member function. -/
abbrev Call (τ : Type) := EStateM PoolError (WorkerThreadPoolImpl τ)

/-! ## Computations in progress -/

variable (s : WorkerThreadPoolImpl τ)

/-- `isComputing_(computationId)`. -/
def isComputing (computationId : ComputationId) : Prop := computationId ∈ s.mComputing
deriving Decidable

/-- `interrupt()`. -/
def interrupt (computation : ℕ) : WorkerThreadPoolImpl τ :=
  { s with objects := s.objects.modify computation fun object => { object with mIsInterrupted := true } }

/-- `updatePriority(inPriority)`. -/
def updatePriority (computation : ℕ) (inPriority : ComputationPriority) : WorkerThreadPoolImpl τ := { s with
    objects := s.objects.modify computation fun object =>
      { object with mComputablePriority := { object.mComputablePriority with priority := inPriority } } }

/-- The object behind a pointer. -/
def object (computation : ℕ) : Call τ (InProgressComputation τ) := do
  let s ← get
  match s.objects[computation]? with
  | none => throw .danglingPointer
  | some object => return object

/-- The least value of a list, by `operator<`. -/
def least : List (ComputablePriority τ) → Option (ComputablePriority τ)
  | [] => none
  | c :: l =>
    match least l with
    | none => some c
    | some d => if d.lt c then some d else some c

/-- `mComputablePriorities.lowestValue()`, where there is one. -/
def lowestValue : Option (ComputablePriority τ) :=
  least ((ascending s.mComputablePriorities.keys).filterMap fun computationId =>
    lookup computationId s.mComputablePriorities)

/-- `updateComputingPriority_(computationId, priority)`. -/
def updateComputingPriority (computationId : ComputationId) (priority : ComputationPriority) : WorkerThreadPoolImpl τ :=
  match lookup computationId s.mComputing with
  | none => s
  | some computation =>
    let s := s.updatePriority computation priority
    if (s.mComputing.keys.card = s.mThreadCount ∧ s.lowestValue.any fun lowest => priority.lt lowest.priority) ∨
        priority.isNull then s.interrupt computation
    else s

/-- `compareComputingPriorities_(lhs, rhs)`. -/
def compareComputingPriorities (lhs rhs : InProgressComputation τ) : Bool :=
  if lhs.mIsInterrupted = rhs.mIsInterrupted then
    lhs.mComputablePriority.priority.lt rhs.mComputablePriority.priority
  else rhs.mIsInterrupted

/-- A turn of `std::min_element` over the computations in progress, which keeps the first of equal ones. -/
def lowerPriority (lowest : Option ℕ) (computation : ℕ) : Option ℕ :=
  match lowest with
  | none => some computation
  | some other =>
    match s.objects[computation]?, s.objects[other]? with
    | some lhs, some rhs => some (if compareComputingPriorities lhs rhs then computation else other)
    | _, _ => some other

/-- `getLowestPriorityComputing_()`. -/
def getLowestPriorityComputing : Option ℕ :=
  ((ascending s.mComputing.keys).filterMap fun computationId => lookup computationId s.mComputing).foldl
    s.lowerPriority none

/-- `interruptComputationIfLowerPriority_(priority)`. -/
def interruptComputationIfLowerPriority (priority : ComputationPriority) : Call τ Unit := do
  let s ← get
  if s.mComputing.keys.card = 0 ∨ s.mComputing.keys.card < s.mThreadCount then return ()
  match s.getLowestPriorityComputing with
  | none => throw .nothingComputing
  | some computation =>
    let lowest ← object computation
    if lowest.mIsInterrupted = false ∧ lowest.mComputablePriority.priority.lt priority then
      modify fun s => s.interrupt computation

/-- `interruptAllRunningComputations_()`. -/
def interruptAllRunningComputations : WorkerThreadPoolImpl τ :=
  (ascending s.mComputing.keys).foldl (fun s computationId =>
    match lookup computationId s.mComputing with
    | none => s
    | some computation => s.interrupt computation) s

/-! ## Status changes -/

/-- `removeFromComputableSet_(computationId)`. -/
def removeFromComputableSet (computationId : ComputationId) : WorkerThreadPoolImpl τ :=
  { s with mComputablePriorities := erase computationId s.mComputablePriorities }

/-- `insertToComputableSet_(inComputable)`. -/
def insertToComputableSet (inComputable : ComputablePriority τ) : Call τ Unit := do
  let s ← get
  lassert (¬ s.isComputing inComputable.computationId) .alreadyComputing
  modify fun s =>
    { s with
      mComputablePriorities := insert inComputable.computationId inComputable s.mComputablePriorities }
  interruptComputationIfLowerPriority inComputable.priority

/-- `addToComputableSet_(computationId, priority)` at the time `now`. -/
def addToComputableSet (computationId : ComputationId) (priority : ComputationPriority) (now : τ) : Call τ Unit := do
  let s ← get
  if s.isComputing computationId then
    modify fun s => s.updateComputingPriority computationId priority
  else if priority.isNull then return ()
  else insertToComputableSet ⟨priority, now, computationId⟩

variable (change : LocalComputationPriorityAndStatusChanged)

/-- `onComputationStatusChanged_(change)` at the time `now`. -/
def onComputationStatusChanged (now : τ) : Call τ Unit := do
  let s ← get
  if s.isComputing change.computation then
    modify fun s =>
      { s with
        mStatusChangesPendingCheckin := insert change.computation
            (s.mStatusChangesPendingCheckin.get change.computation ++ [change])
            s.mStatusChangesPendingCheckin }
    modify fun s => s.updateComputingPriority change.computation change.newPriority
  else
    modify fun s => s.removeFromComputableSet change.computation
    if change.newStatus.any ComputationStatus.isComputable then
      addToComputableSet change.computation change.newPriority now

/-- `processLocalComputationStatusUpdatesPendingCheckin_(inID)`, with the time of each of the changes. -/
def processLocalComputationStatusUpdatesPendingCheckin (inID : ComputationId) (now : ℕ → τ) : Call τ Unit := do
  let s ← get
  lassert (¬ s.isComputing inID) .stillComputing
  match lookup inID s.mStatusChangesPendingCheckin with
  | none => return ()
  | some changes => do
    changes.zipIdx.forM fun change => onComputationStatusChanged change.1 (now change.2)
    modify fun s =>
      { s with mStatusChangesPendingCheckin := erase inID s.mStatusChangesPendingCheckin }

/-! ## The steps of a worker -/

/-- `selectNextComputation_()`. -/
def selectNextComputation : Call τ (Option ℕ) := do
  let s ← get
  match s.lowestValue with
  | none => return none
  | some nextComputation => do
    modify fun s => s.removeFromComputableSet nextComputation.computationId
    lassert (¬ s.isComputing nextComputation.computationId) .alreadyComputing
    modify fun s =>
      { s with
        mComputing := insert nextComputation.computationId s.objects.length s.mComputing
        objects := s.objects ++ [{ mComputablePriority := nextComputation }] }
    return some s.objects.length

/-- `compute(state, ..)`, up to the call of the state's own `compute`. -/
def compute (computation : ℕ) (state : Bool) : Call τ Unit := do
  lassert (state = true) .noState
  let o ← object computation
  lassert (o.mState = false) .stateAlready
  if o.mIsInterrupted then return ()
  modify fun s =>
    { s with objects := s.objects.modify computation fun object => { object with mState := state } }

/-- `removeFromComputingSet_(computationId)`. -/
def eraseFromComputingSet (computationId : ComputationId) : WorkerThreadPoolImpl τ :=
  { s with mComputing := erase computationId s.mComputing }

/-- `removeFromComputingSet(computationId)`. -/
def removeFromComputingSet (computationId : ComputationId) (now : ℕ → τ) : Call τ Unit := do
  modify fun s => s.eraseFromComputingSet computationId
  processLocalComputationStatusUpdatesPendingCheckin computationId now

/-- `returnToComputableSetAndRemoveFromComputingSet(inComputable)`. The argument is a reference to the priority of
the object, which is read under the lock. -/
def returnToComputableSetAndRemoveFromComputingSet (computation : ℕ) (now : ℕ → τ) : Call τ Unit := do
  let o ← object computation
  let inComputable := o.mComputablePriority
  modify fun s => s.eraseFromComputingSet inComputable.computationId
  insertToComputableSet inComputable
  processLocalComputationStatusUpdatesPendingCheckin inComputable.computationId now

/-! ## The pool and its workers -/

/-- Where a thread is in `workerThreadFunction`. When it takes the lock for the second time it has decided whether
it returns the computation; `computable` is what it has seen of the state, false where there was none. -/
inductive Worker where
  | waiting
  | selected (computation : ℕ)
  | checkedOut (computation : ℕ)
  | computing (computation : ℕ)
  | decided (computation : ℕ) (needsReturn computable : Bool)
  deriving DecidableEq

/-- The computation that a thread has selected. -/
def Worker.computation : Worker → Option ℕ
  | waiting => none
  | selected computation => some computation
  | checkedOut computation => some computation
  | computing computation => some computation
  | decided computation _ _ => some computation

/-- The status changes and the steps of the workers. What the state of a computation says, the times, and which
state is checked out come from outside. -/
inductive Op (τ : Type) (n : ℕ) where
  | onComputationStatusChanged (change : LocalComputationPriorityAndStatusChanged) (now : τ)
  | interruptAll
  | select (worker : Fin n)
  | checkOut (worker : Fin n) (found : Bool)
  | compute (worker : Fin n)
  | checkIn (worker : Fin n) (isComputable : Bool)
  | finish (worker : Fin n) (now : ℕ → τ)

/-- A pool with `n` threads and what is known of the computations from outside: the priority with which the latest
status change, or the return of the computation where no change came since it was selected, left it computable;
the computations that a change came for since they were selected last; and the first assertion that failed. -/
structure System (τ : Type) (n : ℕ) where
  pool : WorkerThreadPoolImpl τ := { mThreadCount := n }
  workers : Fin n → Worker := fun _ => .waiting
  standing : StdMap ComputationId ComputationPriority := ∅
  changed : Finset ComputationId := ∅
  failed : Option PoolError := none

/-- The priority with which a change leaves its computation computable. -/
def standingAfter : Option ComputationPriority :=
  if change.newStatus.any ComputationStatus.isComputable ∧ change.newPriority.isNull = false then
    some change.newPriority
  else none

namespace System

variable {n : ℕ}

/-- Sets or erases the priority of a computation. -/
def setStanding (s : System τ n) (computationId : ComputationId) : Option ComputationPriority → System τ n
  | some priority => { s with standing := insert computationId priority s.standing }
  | none => { s with standing := erase computationId s.standing }

/-- A call on the pool. -/
def call {α : Type} (s : System τ n) (x : Call τ α) (after : α → System τ n → System τ n) : System τ n :=
  match x.run s.pool with
  | .ok a pool => after a { s with pool }
  | .error e pool => { s with pool, failed := s.failed.or (some e) }

/-- A thread goes on. -/
def advance (s : System τ n) (worker : Fin n) (state : Worker) : System τ n :=
  { s with workers := Function.update s.workers worker state }

/-- What is known of a computation when a thread gives it back. -/
def givenBack (s : System τ n) (computationId : ComputationId) (computable : Bool) : System τ n :=
  if computationId ∈ s.changed ∨ computable then s else s.setStanding computationId none

/-- The computation whose object is behind a pointer. -/
def computationId (s : System τ n) (computation : ℕ) : Option ComputationId :=
  s.pool.objects[computation]?.map fun object => object.mComputablePriority.computationId

/-- What a thread has selected, if anything. -/
def selectedBy (worker : Fin n) (selected : Option ℕ) (s : System τ n) : System τ n :=
  match selected with
  | none => s
  | some computation =>
    { s.advance worker (.selected computation) with
      changed := s.changed.filter fun id => some id ≠ s.computationId computation }

/-- One step, where the thread is at the place for it. -/
def step (s : System τ n) : Op τ n → Option (System τ n)
  | .onComputationStatusChanged change now =>
    some (({ s with changed := insert change.computation s.changed }.setStanding change.computation
      (standingAfter change)).call (onComputationStatusChanged change now) fun _ s => s)
  | .interruptAll => some { s with pool := s.pool.interruptAllRunningComputations }
  | .select worker =>
    match s.workers worker with
    | .waiting => some (s.call selectNextComputation (selectedBy worker))
    | _ => none
  | .checkOut worker found =>
    match s.workers worker with
    | .selected computation =>
      some (s.advance worker (if found then .checkedOut computation else .decided computation true false))
    | _ => none
  | .compute worker =>
    match s.workers worker with
    | .checkedOut computation =>
      some (s.call (WorkerThreadPoolImpl.compute computation true) fun _ s =>
        s.advance worker (.computing computation))
    | _ => none
  | .checkIn worker isComputable =>
    match s.workers worker with
    | .computing computation =>
      some (s.call (object computation) fun o s =>
        s.advance worker (.decided computation
          (!(isComputable && !o.mComputablePriority.priority.isNull)) isComputable))
    | _ => none
  | .finish worker now =>
    match s.workers worker with
    | .decided computation needsReturn computable =>
      some (s.call (object computation) fun o s =>
        let computationId := o.mComputablePriority.computationId
        ((s.givenBack computationId computable).advance worker .waiting).call
          (if needsReturn then removeFromComputingSet computationId now
            else returnToComputableSetAndRemoveFromComputingSet computation now) fun _ s => s)
    | _ => none

end System

end WorkerThreadPoolImpl

end Cumulus
