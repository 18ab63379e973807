import Ufora.Futures.CFGWithFutures

/-!
# Evaluating one node after another

What a control flow graph means: at each node the evaluation makes the node's call, if it has one, and goes on to
the continuation that the result or the node's values select. `eval` are the results of the calls, by their number
in program order and their arguments.
-/

namespace ControlFlow

open Outcome

variable {F : ForaValues}

/-- The value of an argument. -/
def ControlFlowArg.value (values : List F.ImplValContainer) : ControlFlowArg F → Outcome F.ImplValContainer
  | .arg index => get values index
  | .constant value => .value (F.ofCSTValue value)

/-- Where branches, switches and tuple expansions go on to; with `split`, the branches on the constant that
`enableIfSplit` is about go the normal way. -/
def decision (split : Bool) (values : List F.ImplValContainer) :
    ControlFlowNodeBody F → Outcome (ControlFlowContinuation F × Option (TupleExpandInfo F))
  | .branch arg normal exception => do
    if split && arg.isSplit then return (normal, none)
    else return (whichContinuationForBranch (← arg.value values) normal exception, none)
  | .switch arg branches otherwise => do
    return (whichContinuationForSwitch (← arg.value values) branches otherwise, none)
  | .tupleExpand argIndex ifMatch ifNoMatch => do
    return whichContinuationForTupleExpand (← get values argIndex) ifMatch ifNoMatch
  | _ => .fails .assertionFailed

/-- Where a continuation leads to. -/
def ControlFlowContinuation.follow (continuation : ControlFlowContinuation F) (values : List F.ImplValContainer)
    (result : Option F.ImplValContainer) (info : Option (TupleExpandInfo F)) : Outcome (SimulationResult F) :=
  match continuation with
  | .ret arg isException => do
    return .result (← controlFlowContinuationArgAndValuesToImplVal arg values result info) isException
  | .node label args => do
    return .paused (some label) (← controlFlowContinuationArgsAndValuesToImplvals args values result info)

/-- The call that is made at a node. -/
def callAt (values : List F.ImplValContainer) : ControlFlowNodeBody F → Outcome (SubmittableArgs F)
  | .apply args _ _ => do
    return ⟨true, args.map (TupleArg.map fun _ => ()), ← args.mapM fun applyArg => applyArg.arg.value values⟩
  | .cached arg _ _ => do return ⟨false, [.normal none ()], [← arg.value values]⟩
  | _ => .fails .assertionFailed

/-- Where the evaluation goes on to after a call. -/
def afterCall (result : F.ImplValContainer × Bool) : ControlFlowNodeBody F → Outcome (ControlFlowContinuation F)
  | .apply _ normal exception => .value (if result.2 then exception else normal)
  | .cached _ normal exception => .value (if result.2 then exception else normal)
  | _ => .fails .assertionFailed

/-- The results of calls. -/
abbrev Calls (F : ForaValues) := ℕ → SubmittableArgs F → F.ImplValContainer × Bool

/-- Evaluates a node, before which there were `calls` calls: the result of the call that it makes, and where the
evaluation is then. -/
def evaluateNode (graph : ControlFlowGraph F) (split : Bool) (eval : Calls F) (calls : ℕ) (label : Option String)
    (values : List F.ImplValContainer) :
    Outcome (Option (F.ImplValContainer × Bool) × SimulationResult F) := do
  let node ← require (graph.get label)
  if node.body.makesSlot then
    let result := eval calls (← callAt values node.body)
    let continuation ← afterCall result node.body
    return (some result, ← continuation.follow values (some result.1) none)
  else
    let (continuation, info) ← match node.body with
      | .jump continuation => value (continuation, none)
      | body => decision split values body
    return (none, ← continuation.follow values none info)

/-- The evaluation gets to a node after so many calls, all of which returned constants normally. -/
inductive Reaches (graph : ControlFlowGraph F) (split : Bool) (eval : Calls F) (startLabel : Option String)
    (startValues : List F.ImplValContainer) : ℕ → Option String → List F.ImplValContainer → Prop
  | start : Reaches graph split eval startLabel startValues 0 startLabel startValues
  | step {calls : ℕ} {label label' : Option String} {values values' : List F.ImplValContainer}
      {call : Option (F.ImplValContainer × Bool)}
      (h : Reaches graph split eval startLabel startValues calls label values)
      (hstep : evaluateNode graph split eval calls label values = .value (call, .paused label' values'))
      (hnormal : ∀ result ∈ call, SimulationState.isKept result.1 result.2 = false) :
      Reaches graph split eval startLabel startValues (calls + call.toList.length) label' values'

end ControlFlow
