import Ufora.Containers.TwoWaySetMap
import Ufora.Futures.FutureValues

/-!
# `SimulationState`

`FORA/ControlFlowGraph/SimulationState.{hppml,cppml}`: the slots of a simulation with a reference count each, and
the node that it is at. A call is an error where an assertion of it fails. Counts and indices do not overflow, and
the computation log, which nothing reads, is left out.
-/

open Ordered

namespace ControlFlow

variable {F : ForaValues}

/-- `SimulationHead`. -/
structure SimulationHead (F : ForaValues) where
  graph : ControlFlowGraph F
  label : Option String
  values : List (FutureValue F)

/-- `body()`. -/
def SimulationHead.body (head : SimulationHead F) : Outcome (ControlFlowNodeBody F) :=
  ControlFlowNode.body <$> Outcome.require (head.graph.get head.label)

/-- The arguments that `addNewSlotIfNecessary` gives a new slot; null at a node that makes none. -/
def SimulationHead.futureApplyArgs (head : SimulationHead F) : Outcome (List (FutureValue F)) := do
  match ← head.body with
  | .apply applyArgs _ _ => applyArgs.mapM fun applyArg => applyArgToFutureValue head.values applyArg.arg
  | .cached arg _ _ => return [← applyArgToFutureValue head.values arg]
  | _ => .null

/-- `SimulationState`. -/
structure SimulationState (F : ForaValues) where
  mSlots : List (FutureSlot F) := []
  mSlotRefcounts : List ℕ := []
  mIndicesOfSubmittableFutures : Finset ℕ := ∅
  mSlotDependencies : TwoWaySetMap ℕ ℕ := ∅
  mSimulationHead : SimulationHead F
  mSlotDependenciesAtSimulationHead : Finset ℕ := ∅
  mSlotsToDecrefOnResult : StdMap ℕ (Finset ℕ) := ∅

namespace SimulationState

/-- A member function that changes the state. -/
abbrev Result (F : ForaValues) := Except Failure (SimulationState F)

/-! ## Reference counts -/

variable (s : SimulationState F) (slotIndex : ℕ)

/-- `incref`. -/
def incref : Result F :=
  match s.mSlotRefcounts[slotIndex]? with
  | none => .error .outOfRange
  | some refcount => .ok { s with mSlotRefcounts := s.mSlotRefcounts.set slotIndex (refcount + 1) }

/-- `decref`. -/
def decref : Result F :=
  match s.mSlotRefcounts[slotIndex]? with
  | none => .error .outOfRange
  | some refcount =>
    if refcount > 0 then
      let s' := { s with mSlotRefcounts := s.mSlotRefcounts.set slotIndex (refcount - 1) }
      if refcount - 1 = 0 then
        match s.mSlots[slotIndex]? with
        | none => .error .outOfRange
        | some slot =>
          if slot.isCurrent then
            .ok { s' with mSlots := s.mSlots.set slotIndex (.garbageCollected slot.label) }
          else .error .decrefOfNonCurrent
      else .ok s'
    else .error .refcountNotPositive

/-! ## New slots -/

/-- `allSlotsAreCurrent`; a slot that does not exist is reported by the `incref` that follows. -/
def allSlotsAreCurrent (slotIndices : Finset ℕ) : Bool :=
  decide (∀ slotIndex ∈ slotIndices, (s.mSlots[slotIndex]?).any FutureSlot.isCurrent)

/-- `mSlotDependencies.insert(slotIndices, dependent)`. -/
def insertDependencies (m : TwoWaySetMap ℕ ℕ) (slotIndices : Finset ℕ) (dependent : ℕ) : TwoWaySetMap ℕ ℕ :=
  (ascending slotIndices).foldl (fun m slotIndex => m.insert slotIndex dependent) m

/-- `addDependenciesAndRefcounts`. -/
def addDependenciesAndRefcounts (slotIndices : Finset ℕ) (dependent : ℕ) : Result F :=
  (ascending slotIndices).foldlM incref
    { s with mSlotDependencies := insertDependencies s.mSlotDependencies slotIndices dependent }

/-- `addSlot`. -/
def addSlot (slot : FutureSlot F) : SimulationState F :=
  { s with mSlots := s.mSlots ++ [slot], mSlotRefcounts := s.mSlotRefcounts ++ [1] }

/-- `addNewSlotIfNecessary`. -/
def addNewSlotIfNecessary : Result F :=
  match s.mSimulationHead.futureApplyArgs with
  | .fails failure => .error failure
  | .null => .ok s
  | .value futureApplyArgs => do
    let slotIndicesWeDependOn := computeDependentSlotIndices futureApplyArgs
    let currentSlotIndex := s.mSlots.length
    let submittable :=
      if s.allSlotsAreCurrent slotIndicesWeDependOn then insert currentSlotIndex s.mIndicesOfSubmittableFutures
      else s.mIndicesOfSubmittableFutures
    let s ← addDependenciesAndRefcounts { s with mIndicesOfSubmittableFutures := submittable }
      slotIndicesWeDependOn currentSlotIndex
    return addSlot
      { s with mSlotDependencies := insertDependencies s.mSlotDependencies slotIndicesWeDependOn currentSlotIndex }
      (.future s.mSimulationHead.label s.mSimulationHead.values futureApplyArgs)

/-! ## The head -/

/-- `updateSimulationHeadAndDependentSlotIndices`. The indices that left the head are computed and not used. -/
def updateSimulationHeadAndDependentSlotIndices (newSimulationHead : SimulationHead F) : Result F :=
  match newSimulationHead.body with
  | .fails failure => .error failure
  | .null => .error .assertionFailed
  | .value (.jump _) => .error .stoppedAtJump
  | .value body => do
    let dependenciesOfNewHead := computeDependentSlotIndices newSimulationHead.values
    let s ← (ascending dependenciesOfNewHead).foldlM incref s
    let toDecref :=
      if body.makesSlot then s.mSlotsToDecrefOnResult.insert s.mSlots.length dependenciesOfNewHead
      else s.mSlotsToDecrefOnResult
    return { s with
      mSlotsToDecrefOnResult := toDecref
      mSimulationHead := newSimulationHead
      mSlotDependenciesAtSimulationHead := dependenciesOfNewHead }

/-- `advanceSimulationHeadAndRegisterDependencies`. -/
def advanceSimulationHeadAndRegisterDependencies (newSimulationHead : SimulationHead F) : Result F := do
  addNewSlotIfNecessary (← s.updateSimulationHeadAndDependentSlotIndices newSimulationHead)

/-- The constructor. -/
def create (simulationHead : SimulationHead F) : Result F := do
  let s ← advanceSimulationHeadAndRegisterDependencies { mSimulationHead := simulationHead } simulationHead
  match simulationHead.body with
  | .value body => if body.makesSlot then return { s with mIndicesOfSubmittableFutures := {0} } else return s
  | _ => return s

/-! ## Completed slots -/

/-- The loop of `canInsertIntoSubmittableSet`. -/
def keysAreCurrent (s : SimulationState F) : List ℕ → Except Failure Bool
  | [] => .ok true
  | slotIndex :: slotIndices =>
    match s.mSlots[slotIndex]? with
    | none => .error .outOfRange
    | some (.garbageCollected _) => .error .dependencyGarbageCollected
    | some (.future ..) => .ok false
    | some (.current ..) => s.keysAreCurrent slotIndices

/-- `canInsertIntoSubmittableSet`. -/
def canInsertIntoSubmittableSet : Except Failure Bool :=
  match s.mSlots[slotIndex]? with
  | some (.future ..) => s.keysAreCurrent (ascending (s.mSlotDependencies.getKeys slotIndex))
  | _ => .ok false

/-- A round of `updateSubmittableFuturesSet`. -/
def insertIfSubmittable : Result F := do
  if ← s.canInsertIntoSubmittableSet slotIndex then
    return { s with mIndicesOfSubmittableFutures := insert slotIndex s.mIndicesOfSubmittableFutures }
  else return s

/-- `updateSubmittableFuturesSet`. -/
def updateSubmittableFuturesSet (completedSlotIndex : ℕ) : Result F :=
  (ascending (s.mSlotDependencies.getValues completedSlotIndex)).foldlM insertIfSubmittable s

/-- `decrefKeysForSlotIndex`. -/
def decrefKeysForSlotIndex (completedSlotIndex : ℕ) : Result F :=
  (ascending (s.mSlotDependencies.getKeys completedSlotIndex)).foldlM decref s

/-- `decrefSlotArgs`. -/
def decrefSlotArgs : Result F := (ascending (s.mSlotsToDecrefOnResult.get slotIndex)).foldlM decref s

variable (result : F.ImplValContainer)

/-- Whether a slot is kept with this result: it is an exception, or no constant. -/
def isKept (isException : Bool) : Bool := isException || !F.isCST result

/-- The first step of `slotCompleted`. -/
def increfIfKept (isException : Bool) : Result F :=
  if isKept result isException then s.incref slotIndex else .ok s

/-- The last step of `slotCompleted`. -/
def decrefSlotArgsUnlessKept (isException : Bool) : Result F :=
  if isKept result isException then .ok s else s.decrefSlotArgs slotIndex

/-- `slotCompleted`. -/
def slotCompleted (isException : Bool) : Result F :=
  match s.mSlots[slotIndex]? with
  | none => .error .outOfRange
  | some slot => do
    let s ← increfIfKept { s with mSlots := s.mSlots.set slotIndex (.current slot.label result isException) }
      slotIndex result isException
    if slotIndex ∉ s.mIndicesOfSubmittableFutures then .error .notSubmittable
    else
      let s ← updateSubmittableFuturesSet
        { s with mIndicesOfSubmittableFutures := s.mIndicesOfSubmittableFutures.erase slotIndex } slotIndex
      let s ← s.decrefKeysForSlotIndex slotIndex
      s.decrefSlotArgsUnlessKept slotIndex result isException

end SimulationState

end ControlFlow
