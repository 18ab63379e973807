import Ufora.Futures.SimulationState

/-!
# `CFGWithFutures`

`CFGWithFuturesImpl` (`FORA/ControlFlowGraph/CFGWithFuturesImpl.{hppml,cppml}`): a simulation of a control flow graph
that runs ahead of its calls, takes every call to return normally, and falls back to the first call that did not.
A call of a member function is null where it returns no value. The kind of a `BailEarlyState`, which nothing
reads, is left out.
-/

open Ordered

namespace ControlFlow

variable {F : ForaValues}

/-- `SubmittableArgs`. -/
structure SubmittableArgs (F : ForaValues) where
  isApply : Bool
  signature : List (TupleArg F.Symbol Unit)
  values : List F.ImplValContainer

/-- `SimulationResult`: a result, or the values and the label of the frame that a computation is paused at. -/
inductive SimulationResult (F : ForaValues)
  | result (value : F.ImplValContainer) (isException : Bool)
  | paused (label : Option String) (values : List F.ImplValContainer)

/-! ## Which continuation to follow -/

/-- Whether an argument is the constant that `enableIfSplit` is about. -/
def ControlFlowArg.isSplit : ControlFlowArg F → Bool
  | .arg _ => false
  | .constant value => F.isSplit value

/-- `whichContinuationForBranch`. -/
def whichContinuationForBranch (branchValue : F.ImplValContainer) (normal exception : ControlFlowContinuation F) :
    ControlFlowContinuation F :=
  if F.convertToBoolean branchValue then normal else exception

/-- `whichContinuationForSwitch`: a later branch overrides one with the same hash. -/
def whichContinuationForSwitch (switchValue : F.ImplValContainer)
    (branches : List (F.CSTValue × ControlFlowContinuation F)) (otherwise : ControlFlowContinuation F) :
    ControlFlowContinuation F :=
  match branches.reverse.find? fun branch => F.hashCSTValue branch.1 = F.hash switchValue with
  | some branch => branch.2
  | none => otherwise

/-- The continuation of a tuple expansion, with what it expands. -/
def whichContinuationForTupleExpand (valueToExpand : F.ImplValContainer) (ifMatch : ControlFlowTupleContinuation F)
    (ifNoMatch : ControlFlowContinuation F) : ControlFlowContinuation F × Option (TupleExpandInfo F) :=
  if valueMatchesTupleContinuation valueToExpand ifMatch then
    (ifMatch.continuation, some ⟨valueToExpand, ifMatch.arity⟩)
  else (ifNoMatch, none)

/-- The branches, switches and tuple expansions of `continueSimulation` and `getFinalResultAtNode`. -/
def followDecision (enableIfSplit : Bool) (slots : List (FutureSlot F)) (values : List (FutureValue F)) :
    ControlFlowNodeBody F → Outcome (ControlFlowContinuation F × Option (TupleExpandInfo F))
  | .branch arg normal exception => do
    if enableIfSplit && arg.isSplit then return (normal, none)
    else return (whichContinuationForBranch (← controlFlowArgToImplVal slots values arg) normal exception, none)
  | .switch arg branches otherwise => do
    return (whichContinuationForSwitch (← controlFlowArgToImplVal slots values arg) branches otherwise, none)
  | .tupleExpand argIndex ifMatch ifNoMatch => do
    return whichContinuationForTupleExpand (← futureToImplVal slots (← Outcome.get values argIndex)) ifMatch ifNoMatch
  | _ => .fails .assertionFailed

/-! ## The next head -/

/-- The loop of `nextSimulationHead`, which gives up after a number of jumps. -/
def followJumps (graph : ControlFlowGraph F) : ℕ → ControlFlowContinuation F → List (FutureValue F) →
    Outcome (SimulationHead F)
  | 0, _, _ => .null
  | _ + 1, .ret _ _, _ => .null
  | limit + 1, .node label args, currentNodeValues => do
    let values ← controlFlowContinuationArgsToFutureValues args currentNodeValues none none
    let node ← Outcome.require (graph.get (some label))
    match node.body with
    | .jump continuation => followJumps graph limit continuation values
    | _ => return ⟨graph, some label, values⟩

/-- `nextSimulationHead`. -/
def nextSimulationHead (graph : ControlFlowGraph F) (label : Option String) (currentValues : List (FutureValue F)) :
    Outcome (SimulationHead F) := do
  let node ← Outcome.require (graph.get label)
  if node.argCount = currentValues.length then
    match node.body with
    | .jump continuation => followJumps graph 10000 continuation currentValues
    | _ => return ⟨graph, label, currentValues⟩
  else .fails .assertionFailed

/-! ## The simulation -/

/-- `BailEarlyState`. -/
structure BailEarlyState (F : ForaValues) where
  slotIndex : ℕ
  args : List (FutureValue F)

/-- `CFGWithFuturesImpl`. -/
structure CFGWithFuturesImpl (F : ForaValues) where
  mEnableIfSplit : Bool := false
  mSimulationState : SimulationState F
  mBailEarlyState : Option (BailEarlyState F) := none
  mMaxRepeatNodesAllowed : Option ℕ := none
  mVisitedApplyAndCacheNodesCounts : StdMap (Option String) ℕ := ∅

namespace CFGWithFuturesImpl

variable (s : CFGWithFuturesImpl F)

/-- `simulationHead`. -/
def simulationHead : SimulationHead F := s.mSimulationState.mSimulationHead

/-- `getSlots`. -/
def getSlots : List (FutureSlot F) := s.mSimulationState.mSlots

/-- `mustBailEarly`. -/
def mustBailEarly : Bool := s.mBailEarlyState.isSome

/-- `currentResultAtLastSlot`. -/
def currentResultAtLastSlot : Outcome (FutureValue F) :=
  match s.getSlots.getLast? with
  | none => .fails .assertionFailed
  | some (.future ..) => .value (.future (s.getSlots.length - 1))
  | some (.current _ result isException) => .value (.current result isException (some (s.getSlots.length - 1)))
  | some (.garbageCollected _) => .fails .assertionFailed

/-- The match of `continueSimulation`: the continuation, with the result and the tuple that it may use. -/
def continuationToFollow :
    Outcome (ControlFlowContinuation F × Option (FutureValue F) × Option (TupleExpandInfo F)) := do
  match ← s.simulationHead.body with
  | .cached _ normal _ => return (normal, some (← s.currentResultAtLastSlot), none)
  | .apply _ normal _ => return (normal, some (← s.currentResultAtLastSlot), none)
  | .jump _ => .fails .stoppedAtJump
  | body => do
    let (continuation, info) ← followDecision s.mEnableIfSplit s.getSlots s.simulationHead.values body
    return (continuation, none, info)

/-- The head that `continueSimulation` goes on to. -/
def nextHead : Outcome (SimulationHead F) := do
  let (continuation, currentResult, tupleExpandInfo) ← s.continuationToFollow
  match continuation with
  | .ret _ _ => .null
  | .node label args => do
    let currentValues ← controlFlowContinuationArgsToFutureValues args s.simulationHead.values currentResult
      tupleExpandInfo
    nextSimulationHead s.simulationHead.graph (some label) currentValues

variable (head : SimulationHead F)

/-- Counts a visit of an apply or cached node. -/
def countVisit : CFGWithFuturesImpl F :=
  match head.body with
  | .value body =>
    if body.makesSlot then
      let count := s.mVisitedApplyAndCacheNodesCounts.get head.label + 1
      { s with
        mVisitedApplyAndCacheNodesCounts := s.mVisitedApplyAndCacheNodesCounts.insert head.label count }
    else s
  | _ => s

/-- `advanceSimulationHead`. -/
def advanceSimulationHead : Except Failure (CFGWithFuturesImpl F) := do
  let state ← s.mSimulationState.advanceSimulationHeadAndRegisterDependencies head
  return countVisit { s with mSimulationState := state } head

/-- Whether a node was visited more often than `maxRepeatNodesAllowed`. -/
def repeatsTooOften (label : Option String) : Bool :=
  match s.mMaxRepeatNodesAllowed, Finmap.lookup label s.mVisitedApplyAndCacheNodesCounts with
  | some maxRepeatNodesAllowed, some count => count > maxRepeatNodesAllowed
  | _, _ => false

/-- The end of `continueSimulation`: the simulation stops at a node that repeats too often. -/
def bailOnRepeat : Except Failure (CFGWithFuturesImpl F) :=
  if s.repeatsTooOften head.label then
    match s.getSlots.getLast? with
    | some (.future _ values _) => .ok { s with mBailEarlyState := some ⟨s.getSlots.length - 1, values⟩ }
    | _ => .error .assertionFailed
  else .ok s

/-- `continueSimulation`, without the bool that it returns. -/
def continueSimulation : Except Failure (CFGWithFuturesImpl F) :=
  if s.mustBailEarly then .ok s
  else
    match s.nextHead with
    | .fails failure => .error failure
    | .null => .ok s
    | .value head => do bailOnRepeat (← s.advanceSimulationHead head) head

/-- `implValsToFutureValues`. -/
def implValsToFutureValues (values : List F.ImplValContainer) : List (FutureValue F) :=
  values.map fun value => .current value false none

/-- `createCfgWithFutures`. -/
def createCfgWithFutures (graph : ControlFlowGraph F) (label : Option String)
    (currentValues : List F.ImplValContainer) : Outcome (CFGWithFuturesImpl F) :=
  if currentValues.all F.isCST then do
    let head ← nextSimulationHead graph label (implValsToFutureValues currentValues)
    match SimulationState.create head with
    | .ok state => return countVisit { mSimulationState := state } head
    | .error failure => .fails failure
  else .null

/-! ## Slots -/

/-- `isSubmittable`. -/
def isSubmittable (slotIndex : ℕ) : Bool := decide (slotIndex ∈ s.mSimulationState.mIndicesOfSubmittableFutures)

/-- Whether a call is an apply, and its signature. -/
def signatureOf : ControlFlowNodeBody F → Outcome (Bool × List (TupleArg F.Symbol Unit))
  | .apply args _ _ => .value (true, args.map (TupleArg.map fun _ => ()))
  | .cached _ _ _ => .value (false, [.normal none ()])
  | _ => .fails .assertionFailed

/-- `asSubmittable`. -/
def asSubmittable (slotIndex : ℕ) : Outcome (SubmittableArgs F) :=
  if s.isSubmittable slotIndex then do
    match ← Outcome.get s.getSlots slotIndex with
    | .future label _ applyArgs =>
      let node ← Outcome.require (s.simulationHead.graph.get label)
      let (isApply, signature) ← signatureOf node.body
      let values ← futureValuesToImplVals s.getSlots applyArgs
      if signature.length = values.length then return ⟨isApply, signature, values⟩
      else .fails .assertionFailed
    | _ => .fails .assertionFailed
  else .null

/-- `registerExceptionOrMutable`. -/
def registerExceptionOrMutable (slotIndex : ℕ) (continuationArgs : List (FutureValue F)) : CFGWithFuturesImpl F :=
  if s.mBailEarlyState.all fun bail => decide (slotIndex < bail.slotIndex) then
    { s with mBailEarlyState := some ⟨slotIndex, continuationArgs⟩ }
  else s

/-- `slotCompleted`, for an exception or a result. -/
def slotCompleted (s : CFGWithFuturesImpl F) (slotIndex : ℕ) (result : F.ImplValContainer × Bool) :
    Except Failure (CFGWithFuturesImpl F) :=
  match s.getSlots[slotIndex]? with
  | none => .error .outOfRange
  | some (.future _ values _) => do
    let state ← s.mSimulationState.slotCompleted slotIndex result.1 result.2
    let s := { s with mSimulationState := state }
    if SimulationState.isKept result.1 result.2 then return s.registerExceptionOrMutable slotIndex values
    else return s
  | some _ => .error .assertionFailed

/-! ## The final result -/

/-- `hasResolvedToSimpleState`. -/
def hasResolvedToSimpleState : Outcome Bool :=
  match s.mBailEarlyState with
  | none => .value (s.getSlots.all fun slot => !slot.isFuture)
  | some bail =>
    if bail.slotIndex < s.getSlots.length then
      .value ((s.getSlots.take (bail.slotIndex + 1)).all fun slot => !slot.isFuture)
    else .fails .outOfRange

/-- The first match of `getFinalResultAtNode`. -/
def finalContinuation (body : ControlFlowNodeBody F) (result : Option (F.ImplValContainer × Bool)) :
    Outcome (ControlFlowContinuation F × Option (TupleExpandInfo F)) :=
  match body with
  | .cached _ normal exception => do return (if (← Outcome.require result).2 then exception else normal, none)
  | .apply _ normal exception => do return (if (← Outcome.require result).2 then exception else normal, none)
  | .jump continuation => .value (continuation, none)
  | body => followDecision s.mEnableIfSplit s.getSlots s.simulationHead.values body

/-- `getFinalResultAtNode`. What a `Return` uses are the values at the head, not `nodeArgs`. -/
def getFinalResultAtNode (body : ControlFlowNodeBody F) (nodeArgs : List (FutureValue F))
    (result : Option (F.ImplValContainer × Bool)) : Outcome (SimulationResult F) := do
  let (continuation, tupleExpandInfo) ← s.finalContinuation body result
  match continuation with
  | .ret arg isException => do
    let values ← futureValuesToImplVals s.getSlots s.simulationHead.values
    return .result (← controlFlowContinuationArgAndValuesToImplVal arg values (result.map Prod.fst) tupleExpandInfo)
      isException
  | .node label args => do
    let values ← futureValuesToImplVals s.getSlots nodeArgs
    return .paused (some label)
      (← controlFlowContinuationArgsAndValuesToImplvals args values (result.map Prod.fst) tupleExpandInfo)

/-- `getFinalResultAtSlot`. -/
def getFinalResultAtSlot (slot : FutureSlot F) (nodeArgs : List (FutureValue F)) : Outcome (SimulationResult F) :=
  match slot with
  | .current label result isException => do
    let node ← Outcome.require (s.simulationHead.graph.get label)
    s.getFinalResultAtNode node.body nodeArgs (some (result, isException))
  | _ => .fails .assertionFailed

/-- `getFinalResult`. -/
def getFinalResult : Outcome (SimulationResult F) := do
  if ← s.hasResolvedToSimpleState then
    match s.mBailEarlyState with
    | some bail => do s.getFinalResultAtSlot (← Outcome.get s.getSlots bail.slotIndex) bail.args
    | none => do
      let body ← s.simulationHead.body
      if body.makesSlot then
        s.getFinalResultAtSlot (← Outcome.require s.getSlots.getLast?) s.simulationHead.values
      else s.getFinalResultAtNode body s.simulationHead.values none
  else .null

end CFGWithFuturesImpl

end ControlFlow
