import Ufora.Futures.Refcounts
import Ufora.Futures.Sequential

/-!
# The simulation follows the evaluation

Where the results of the slots are what the calls return, the values at the head of a simulation come to the values
that the evaluation has at that node, as long as every call before it returns a constant normally.
-/

open Ordered Effect List Function Option Prod ControlFlow.FutureValue ControlFlow.Outcome
  ControlFlow.ControlFlowNodeBody ControlFlow.SimulationState

namespace ControlFlow

variable {F : ForaValues} {graph : ControlFlowGraph F} {split : Bool} {eval : Calls F} {start : Option String}
  {vals : List F.ImplValContainer} {slots : List (FutureSlot F)} {ρ : ℕ → F.ImplValContainer}
  {values : List (FutureValue F)} {bound n : ℕ}

/-! ## Arguments and decisions -/

theorem resolve_applyArgToFutureValue (arg : ControlFlowArg F) (values : List (FutureValue F)) :
    FutureValue.resolve ρ <$> applyArgToFutureValue values arg = arg.value (values.map (FutureValue.resolve ρ)) := by
  cases arg with
  | arg index => exact Outcome.map_get _ values index
  | constant value => rfl

section
variable (hρ : Agrees ρ slots bound) (hbelow : ∀ value ∈ values, value.Below bound)
include hρ hbelow

/-- An argument that is known is the value that the evaluation has. -/
theorem value_of_controlFlowArgToImplVal (hgc : Uncollected slots) {arg : ControlFlowArg F} {v : F.ImplValContainer}
    (h : controlFlowArgToImplVal slots values arg = .value v) :
    arg.value (values.map (FutureValue.resolve ρ)) = .value v := by
  cases arg with
  | constant value => exact h
  | arg index =>
    obtain ⟨value, hget, hv⟩ := Outcome.bind_eq_value.1 h
    show Outcome.get (values.map _) index = _
    rw [← Outcome.map_get, hget, Outcome.map_value]
    have hmem : value ∈ values := Outcome.mem_of_get hget
    rw [resolve_eq_of_futureToImplVal hgc hρ value v (hbelow value hmem) hv]

/-- Where all slots are known, an argument is what the evaluation has, also where it fails. -/
theorem controlFlowArgToImplVal_eq_value (hknown : Known slots bound) (arg : ControlFlowArg F) :
    controlFlowArgToImplVal slots values arg = arg.value (values.map (FutureValue.resolve ρ)) := by
  cases arg with
  | constant value => rfl
  | arg index =>
    show (Outcome.get values index >>= futureToImplVal slots) = Outcome.get (values.map _) index
    rw [← map_get]
    cases hget : get values index with
    | value value => exact futureToImplVal_eq_resolve hknown hρ value (hbelow value (mem_of_get hget))
    | null => rfl
    | fails failure => rfl

theorem decision_of_followDecision (hgc : Uncollected slots) {body : ControlFlowNodeBody F}
    {r : ControlFlowContinuation F × Option (TupleExpandInfo F)}
    (h : followDecision split slots values body = .value r) :
    decision split (values.map (FutureValue.resolve ρ)) body = .value r := by
  cases body with
  | branch arg normal exception =>
    simp only [followDecision] at h
    simp only [decision]
    split at h
    · next hsplit => rwa [if_pos hsplit]
    · next hsplit =>
      rw [if_neg hsplit]
      obtain ⟨v, hv, h⟩ := Outcome.bind_eq_value.1 h
      rw [value_of_controlFlowArgToImplVal hρ hbelow hgc hv]
      exact h
  | switch arg branches otherwise =>
    obtain ⟨v, hv, h⟩ := Outcome.bind_eq_value.1 h
    simp only [decision]
    rw [value_of_controlFlowArgToImplVal hρ hbelow hgc hv]
    exact h
  | tupleExpand argIndex ifMatch ifNoMatch =>
    obtain ⟨value, hget, h⟩ := Outcome.bind_eq_value.1 h
    obtain ⟨v, hv, h⟩ := bind_eq_value.1 h
    simp only [decision]
    rw [← map_get, hget, map_value,
      resolve_eq_of_futureToImplVal hgc hρ value v (hbelow value (mem_of_get hget)) hv]
    exact h
  | apply => cases h
  | cached => cases h
  | jump => cases h

theorem followDecision_eq_decision (hknown : Known slots bound) (body : ControlFlowNodeBody F) :
    followDecision split slots values body = decision split (values.map (FutureValue.resolve ρ)) body := by
  cases body with
  | branch arg | switch arg =>
    simp only [followDecision, decision]
    rw [controlFlowArgToImplVal_eq_value hρ hbelow hknown]
  | tupleExpand argIndex ifMatch ifNoMatch =>
    simp only [followDecision, decision]
    rw [← Outcome.map_get]
    cases hget : Outcome.get values argIndex with
    | value value =>
      simp [futureToImplVal_eq_resolve hknown hρ value (hbelow value (Outcome.mem_of_get hget))]
    | null => rfl
    | fails failure => rfl
  | apply => rfl
  | cached => rfl
  | jump => rfl

end

/-! ## Continuations -/

/-- The values that a continuation hands on come to what the evaluation hands on. -/
theorem follow_of_args {args : List (ControlFlowContinuationArg F)} {r : Option (FutureValue F)}
    {info : Option (TupleExpandInfo F)} {values' : List (FutureValue F)} {l : String}
    (h : controlFlowContinuationArgsToFutureValues args values r info = .value values') :
    (ControlFlowContinuation.node l args).follow (values.map (FutureValue.resolve ρ))
        (r.map (FutureValue.resolve ρ)) info =
      .value (.paused (some l) (values'.map (FutureValue.resolve ρ))) := by
  simp only [ControlFlowContinuation.follow]
  rw [← resolve_controlFlowContinuationArgsToFutureValues, h]
  rfl

variable {cont : ControlFlowContinuation F} {vs : List F.ImplValContainer}

/-- A jump that the evaluation gets to. -/
theorem Reaches.jump {l label' : Option String} {vs' : List F.ImplValContainer}
    {node : ControlFlowNode F} (h : Reaches graph split eval start vals n l vs)
    (hnode : graph.get l = some node) (hbody : node.body = .jump cont)
    (hfollow : cont.follow vs none none = .value (.paused label' vs')) :
    Reaches graph split eval start vals n label' vs' := by
  refine @Reaches.step _ _ _ _ _ _ _ _ _ _ _ none h ?_ (by simp)
  unfold evaluateNode
  simp [Outcome.require, hnode, hbody, ControlFlowNodeBody.makesSlot, hfollow]

variable {head : SimulationHead F}

/-- A head that is gone on to depends on no slot that was not there. -/
theorem followJumps_below {n : ℕ} (hbelow : ∀ value ∈ values, value.Below bound)
    (h : followJumps graph n cont values = .value head) :
    head.graph = graph ∧ ∀ value ∈ head.values, value.Below bound := by
  induction n generalizing cont values with
  | zero => cases h
  | succ n ih =>
    cases cont with
    | ret arg isException => cases h
    | node label args =>
      obtain ⟨values', hvalues', h⟩ := Outcome.bind_eq_value.1 h
      obtain ⟨node, hnode, h⟩ := bind_eq_value.1 h
      have hbelow' := below_controlFlowContinuationArgsToFutureValues hbelow (by simp) hvalues'
      cases hbody : node.body with
      | jump cont =>
        rw [hbody] at h
        exact ih hbelow' h
      | _ =>
        rw [hbody] at h
        cases h
        exact ⟨rfl, hbelow'⟩

theorem nextSimulationHead_below {l : Option String}
    (hbelow : ∀ value ∈ values, value.Below bound) (h : nextSimulationHead graph l values = .value head) :
    head.graph = graph ∧ ∀ value ∈ head.values, value.Below bound := by
  obtain ⟨node, hnode, h⟩ := Outcome.bind_eq_value.1 h
  split at h
  · cases hbody : node.body with
    | jump cont =>
      rw [hbody] at h
      exact followJumps_below hbelow h
    | _ =>
      rw [hbody] at h
      cases h
      exact ⟨rfl, hbelow⟩
  · cases h

/-- The evaluation gets to the node that a chain of jumps ends at. -/
theorem followJumps_reaches {limit : ℕ}
    (hnext : ∀ label' vs', cont.follow (values.map (FutureValue.resolve ρ)) none none =
      .value (.paused label' vs') → Reaches graph split eval start vals n label' vs')
    (h : followJumps graph limit cont values = .value head) :
    Reaches graph split eval start vals n head.label (head.values.map (FutureValue.resolve ρ)) := by
  induction limit generalizing cont values with
  | zero => cases h
  | succ limit ih =>
    cases cont with
    | ret arg isException => cases h
    | node label args =>
      obtain ⟨values', hvalues', h⟩ := Outcome.bind_eq_value.1 h
      obtain ⟨node, hnode, h⟩ := Outcome.bind_eq_value.1 h
      have hget := Outcome.eq_some_of_require hnode
      have hreach := hnext _ _ (follow_of_args hvalues')
      cases hbody : node.body with
      | jump cont =>
        rw [hbody] at h
        exact ih (fun label' vs' hfollow => hreach.jump hget hbody hfollow) h
      | _ =>
        rw [hbody] at h
        cases h
        exact hreach

theorem nextSimulationHead_reaches {l : Option String}
    (hreach : Reaches graph split eval start vals n l (values.map (FutureValue.resolve ρ)))
    (h : nextSimulationHead graph l values = .value head) :
    Reaches graph split eval start vals n head.label (head.values.map (FutureValue.resolve ρ)) := by
  obtain ⟨node, hnode, h⟩ := Outcome.bind_eq_value.1 h
  have hget := Outcome.eq_some_of_require hnode
  split at h
  · cases hbody : node.body with
    | jump cont =>
      rw [hbody] at h
      exact followJumps_reaches (fun label' vs' hfollow => hreach.jump hget hbody hfollow) h
    | _ =>
      rw [hbody] at h
      cases h
      exact hreach
  · cases h

/-! ## Calls -/

/-- A call, as it was made: the node, its values, and the arguments of the call. -/
structure Made (F : ForaValues) where
  label : Option String
  values : List (FutureValue F)
  args : List (FutureValue F)
  isApply : Bool
  signature : List (TupleArg F.Symbol Unit)

/-- What is submitted for the call. -/
def Made.submittableArgs (made : Made F) (values : List F.ImplValContainer) : SubmittableArgs F :=
  ⟨made.isApply, made.signature, values⟩

/-- The call is that of its node. -/
structure MadeAt (graph : ControlFlowGraph F) (made : Made F) (node : ControlFlowNode F) : Prop where
  get : graph.get made.label = some node
  signature : CFGWithFuturesImpl.signatureOf node.body = .value (made.isApply, made.signature)
  args : SimulationHead.futureApplyArgs ⟨graph, made.label, made.values⟩ = .value made.args

section
variable {made : Made F} {node : ControlFlowNode F} (h : MadeAt graph made node)
include h

theorem MadeAt.body : SimulationHead.body ⟨graph, made.label, made.values⟩ = .value node.body := by
  unfold SimulationHead.body Outcome.require
  rw [h.get]
  rfl

theorem MadeAt.makesSlot : node.body.makesSlot := by
  have hsignature := h.signature
  cases hbody : node.body <;> rw [hbody] at hsignature <;> first | rfl | cases hsignature

theorem MadeAt.below (hbelow : ∀ value ∈ made.values, value.Below bound) : ∀ value ∈ made.args, value.Below bound := by
  have hargs := h.args
  unfold SimulationHead.futureApplyArgs at hargs
  rw [h.body] at hargs
  cases hbody : node.body with
  | apply applyArgs normal exception =>
    rw [hbody] at hargs
    intro value hv
    obtain ⟨arg, -, harg⟩ := Outcome.exists_of_mapM_eq_value hargs value hv
    exact below_applyArgToFutureValue hbelow harg
  | cached arg normal exception =>
    simp only [hbody, Outcome.value_bind, Outcome.bind_eq_value, Outcome.pure_eq] at hargs
    obtain ⟨value, hvalue, hargs⟩ := hargs
    rw [← Outcome.value.inj hargs]
    intro value' hv
    rw [mem_singleton.1 hv]
    exact below_applyArgToFutureValue hbelow hvalue
  | branch => simp [hbody] at hargs
  | tupleExpand => simp [hbody] at hargs
  | switch => simp [hbody] at hargs
  | jump => simp [hbody] at hargs

/-- The evaluation makes the call with what its arguments come to. -/
theorem MadeAt.callAt : callAt (made.values.map (FutureValue.resolve ρ)) node.body =
    .value (made.submittableArgs (made.args.map (FutureValue.resolve ρ))) := by
  have hargs := h.args
  have hsignature := h.signature
  unfold SimulationHead.futureApplyArgs at hargs
  rw [h.body] at hargs
  cases hbody : node.body with
  | apply applyArgs normal exception =>
    rw [hbody] at hargs hsignature
    have hvalues : (applyArgs.mapM fun applyArg => applyArg.arg.value (made.values.map (FutureValue.resolve ρ))) =
        .value (made.args.map (FutureValue.resolve ρ)) := by
      simp only [← resolve_applyArgToFutureValue]
      rw [← Outcome.map_mapM]
      have hmapM : (applyArgs.mapM fun applyArg => applyArgToFutureValue made.values applyArg.arg) =
          .value made.args := hargs
      rw [hmapM]
      rfl
    obtain ⟨hisApply, hsig⟩ := mk.inj (Outcome.value.inj hsignature)
    simp only [ControlFlow.callAt, hvalues, Made.submittableArgs, Outcome.value_bind, ← hisApply, ← hsig]
    rfl
  | cached arg normal exception =>
    simp only [hbody, Outcome.value_bind, Outcome.bind_eq_value, Outcome.pure_eq] at hargs
    obtain ⟨value, hvalue, hargs⟩ := hargs
    have hargs := Outcome.value.inj hargs
    rw [hbody] at hsignature
    obtain ⟨hisApply, hsig⟩ := mk.inj (Outcome.value.inj hsignature)
    have hresolve := resolve_applyArgToFutureValue (ρ := ρ) arg made.values
    rw [hvalue, Outcome.map_value] at hresolve
    simp only [ControlFlow.callAt, ← hresolve, Made.submittableArgs, Outcome.value_bind, ← hisApply, ← hsig, ← hargs]
    rfl
  | branch => simp [hbody] at hargs
  | tupleExpand => simp [hbody] at hargs
  | switch => simp [hbody] at hargs
  | jump => simp [hbody] at hargs

end

/-! ## What the slots and the head are -/

/-- Results of the calls: each is what `eval` gives for the arguments that the results before it make. -/
def Consistent (eval : Calls F) (made : List (Made F)) (ρ : ℕ → F.ImplValContainer × Bool) : Prop :=
  ∀ (i : ℕ) m, made[i]? = some m → ρ i = eval i (m.submittableArgs (m.args.map (FutureValue.resolve fun j => (ρ j).1)))

/-- Every call before this one returned a constant normally. -/
def NormalBefore (n : ℕ) (ρ : ℕ → F.ImplValContainer × Bool) : Prop :=
  ∀ j < n, SimulationState.isKept (ρ j).1 (ρ j).2 = false

/-- The slots are those of the calls that were made, with the results that the calls return. -/
structure Traced (graph : ControlFlowGraph F) (split : Bool) (eval : Calls F) (start : Option String)
    (vals : List F.ImplValContainer) (slots : List (FutureSlot F)) (made : List (Made F)) : Prop where
  length : made.length = slots.length
  future : ∀ (i : ℕ) label values args, slots[i]? = some (FutureSlot.future label values args) →
    ∃ m, made[i]? = some m ∧ m.label = label ∧ m.values = values ∧ m.args = args
  current : ∀ (i : ℕ) label result isException, slots[i]? = some (FutureSlot.current label result isException) →
    ∃ m vs, made[i]? = some m ∧ m.label = label ∧ futureValuesToImplVals slots m.args = .value vs ∧
      (result, isException) = eval i (m.submittableArgs vs)
  madeAt : ∀ m ∈ made, ∃ node, MadeAt graph m node
  below : ∀ (i : ℕ) m, made[i]? = some m → ∀ value ∈ m.values, value.Below i
  reaches : ∀ ρ, Consistent eval made ρ → ∀ (i : ℕ) m, made[i]? = some m → NormalBefore i ρ →
    Reaches graph split eval start vals i m.label
      (m.values.map (FutureValue.resolve fun j => (ρ j).1))

/-- The evaluation gets to the head after the calls. -/
structure ReachesHead (graph : ControlFlowGraph F) (split : Bool) (eval : Calls F) (start : Option String)
    (vals : List F.ImplValContainer) (made : List (Made F)) (head : SimulationHead F) : Prop where
  sameGraph : head.graph = graph
  below : ∀ value ∈ head.values, value.Below made.length
  reaches : ∀ ρ, Consistent eval made ρ → NormalBefore made.length ρ →
    Reaches graph split eval start vals made.length head.label
      (head.values.map (FutureValue.resolve fun j => (ρ j).1))

/-- The head is where the last call was made, or at a node that the evaluation gets to after the calls. -/
inductive AtHead (graph : ControlFlowGraph F) (split : Bool) (eval : Calls F) (start : Option String)
    (vals : List F.ImplValContainer) (made : List (Made F)) (head : SimulationHead F) : Prop
  | call (m : Made F) (hm : made.getLast? = some m) (hhead : head = ⟨graph, m.label, m.values⟩)
  | other (body : ControlFlowNodeBody F) (hbody : head.body = .value body) (hnone : body.makesSlot = false)
      (h : ReachesHead graph split eval start vals made head)

theorem AtHead.sameGraph {made : List (Made F)}
    (h : AtHead graph split eval start vals made head) : head.graph = graph := by
  cases h with
  | call m hm hhead => rw [hhead]
  | other body hbody hnone h => exact h.sameGraph

variable {made : List (Made F)} {results : ℕ → F.ImplValContainer × Bool}

/-- The results that are known are those that the calls return. -/
theorem Traced.agrees (h : Traced graph split eval start vals slots made) (hgc : Uncollected slots)
    (hresults : Consistent eval made results) (i : ℕ) : ∀ label result isException,
      slots[i]? = some (.current label result isException) → results i = (result, isException) := by
  induction i using Nat.strongRecOn with
  | ind i ih =>
    intro label result isException hslot
    obtain ⟨m, vs, hm, -, hvs, hresult⟩ := h.current i label result isException hslot
    obtain ⟨node, hnode⟩ := h.madeAt m (mem_of_getElem? hm)
    have hargs := resolve_eq_of_futureValuesToImplVals hgc
      (fun j hj label result isException hslot => congrArg fst (ih j hj label result isException hslot))
      (hnode.below (h.below i m hm)) hvs
    rw [hresults i m hm, hresult, hargs]

theorem Traced.agrees_fst (h : Traced graph split eval start vals slots made) (hgc : Uncollected slots)
    (hresults : Consistent eval made results) (bound : ℕ) : Agrees (fun j => (results j).1) slots bound :=
  fun i _ label result isException hslot =>
    congrArg fst (h.agrees hgc hresults i label result isException hslot)

/-- What evaluating the node of a call gives. -/
theorem MadeAt.evaluateNode {m : Made F} {node : ControlFlowNode F} (h : MadeAt graph m node) {i : ℕ}
    (hresults : Consistent eval made results) (hm : made[i]? = some m) :
    evaluateNode graph split eval i m.label (m.values.map (FutureValue.resolve fun j => (results j).1)) = do
      let cont ← afterCall (results i) node.body
      return (some (results i), ← cont.follow (m.values.map (FutureValue.resolve fun j => (results j).1))
        (some (results i).1) none) := by
  unfold ControlFlow.evaluateNode Outcome.require
  simp only [h.get, Outcome.value_bind, h.makesSlot, if_true, h.callAt]
  rw [← hresults i m hm]

theorem Consistent.of_append {made' : List (Made F)} (h : Consistent eval (made ++ made') results) :
    Consistent eval made results := fun i m hm =>
  h i m ((getElem?_append_left (List.getElem?_eq_some_iff.1 hm).1).trans hm)

/-- There are results of the calls, since each depends on those before it. -/
theorem exists_consistent (h : ∀ (i : ℕ) m, made[i]? = some m → ∀ value ∈ m.args, value.Below i) :
    ∃ results, Consistent eval made results := by
  induction made using reverseRecOn with
  | nil => exact ⟨fun i => eval i ⟨false, [], []⟩, fun i m hm => by simp at hm⟩
  | append_singleton made m ih =>
    have hold : ∀ (i : ℕ) m', made[i]? = some m' → (made ++ [m])[i]? = some m' := fun i m' hm' =>
      (getElem?_append_left (List.getElem?_eq_some_iff.1 hm').1).trans hm'
    obtain ⟨results, hresults⟩ := ih fun i m' hm' => h i m' (hold i m' hm')
    refine ⟨Function.update results made.length
      (eval made.length (m.submittableArgs (m.args.map (FutureValue.resolve fun j => (results j).1)))),
      fun i m' hm' => ?_⟩
    have hargs : m'.args.map (FutureValue.resolve fun j => (Function.update results made.length
        (eval made.length (m.submittableArgs (m.args.map (FutureValue.resolve fun j => (results j).1)))) j).1) =
        m'.args.map (FutureValue.resolve fun j => (results j).1) := by
      refine map_congr_left fun value hv => FutureValue.resolve_congr value fun j hj => ?_
      have hlt := h i m' hm' value hv j hj
      have hi := (List.getElem?_eq_some_iff.1 hm').1
      rw [length_append, length_singleton] at hi
      rw [update_of_ne (by omega)]
    rw [hargs]
    by_cases hi : i < made.length
    · rw [getElem?_append_left hi] at hm'
      rw [update_of_ne hi.ne, hresults i m' hm']
    · have hi' := (List.getElem?_eq_some_iff.1 hm').1
      rw [length_append, length_singleton] at hi'
      obtain rfl : i = made.length := by omega
      rw [getElem?_concat_length, some.injEq] at hm'
      rw [update_self, hm']

theorem Traced.exists_consistent (h : Traced graph split eval start vals slots made) :
    ∃ results, Consistent eval made results :=
  ControlFlow.exists_consistent fun i m hm => by
    obtain ⟨node, hnode⟩ := h.madeAt m (mem_of_getElem? hm)
    exact hnode.below (h.below i m hm)

/-- Where the evaluation goes on to at a node that makes no call. -/
def otherDecision (split : Bool) (values : List F.ImplValContainer) :
    ControlFlowNodeBody F → Outcome (ControlFlowContinuation F × Option (TupleExpandInfo F))
  | .jump cont => .value (cont, none)
  | body => decision split values body

/-- What evaluating a node that makes no call gives. -/
theorem evaluateNode_of_other {body : ControlFlowNodeBody F} (hgraph : head.graph = graph)
    (hbody : head.body = .value body) (hnone : body.makesSlot = false) :
    evaluateNode graph split eval n head.label vs =
      otherDecision split vs body >>= fun r => mk none <$> r.1.follow vs none r.2 := by
  subst hgraph
  unfold SimulationHead.body Outcome.require at hbody
  unfold evaluateNode require
  cases hget : head.graph.get head.label with
  | none => simp [hget] at hbody
  | some node =>
    simp only [hget, map_value, value.injEq] at hbody
    simp only [value_bind, hbody, hnone]
    have hreturn : ∀ r : ControlFlowContinuation F × Option (TupleExpandInfo F),
        (do return (none, ← r.1.follow vs none r.2) :
          Outcome (Option (F.ImplValContainer × Bool) × SimulationResult F)) =
            mk none <$> r.1.follow vs none r.2 := fun r => by
      cases r.1.follow vs none r.2 <;> rfl
    cases body <;> rfl

/-! ## The next head -/

section
variable {s : CFGWithFuturesImpl F} (hsplit : s.mEnableIfSplit = split)
  (ht : Traced graph split eval start vals s.getSlots made) (hgc : Uncollected s.getSlots)
include ht hgc

/-- The result of the last call is what the call returns. -/
theorem Traced.currentResultAtLastSlot {value : FutureValue F} (h : s.currentResultAtLastSlot = .value value)
    (hresults : Consistent eval made results) :
    value.Below s.getSlots.length ∧ value.resolve (fun j => (results j).1) = (results (s.getSlots.length - 1)).1 := by
  unfold CFGWithFuturesImpl.currentResultAtLastSlot at h
  cases hlast : s.getSlots.getLast? with
  | none => simp [hlast] at h
  | some slot =>
    have hget := hlast
    rw [getLast?_eq_getElem?] at hget
    have hlt := (List.getElem?_eq_some_iff.1 hget).1
    rw [hlast] at h
    cases slot with
    | future label values args =>
      cases h
      exact ⟨by simpa [Below, dependentSlotIndices] using hlt, rfl⟩
    | current label result isException =>
      cases h
      refine ⟨by simpa [Below, dependentSlotIndices] using hlt, ?_⟩
      exact (congrArg fst (ht.agrees hgc hresults _ label result isException hget)).symm
    | garbageCollected label => cases h

include hsplit

variable (hhead : AtHead graph split eval start vals made s.simulationHead)
include hhead

/-- The continuation that is followed is the one that the evaluation takes, if the last call returns normally. -/
theorem continuationToFollow_spec
    {cont : ControlFlowContinuation F} {result : Option (FutureValue F)} {info : Option (TupleExpandInfo F)}
    (h : s.continuationToFollow = .value (cont, result, info)) (hresults : Consistent eval made results) :
    (∀ value ∈ result, value.Below made.length) ∧ (NormalBefore made.length results → ∀ label' vs',
        cont.follow (s.simulationHead.values.map (resolve fun j => (results j).1))
            (result.map (resolve fun j => (results j).1)) info = .value (.paused label' vs') →
          Reaches graph split eval start vals made.length label' vs') := by
  unfold CFGWithFuturesImpl.continuationToFollow at h
  cases hhead with
  | call m hm hhead =>
    obtain ⟨node, hnode⟩ := ht.madeAt m (mem_of_getLast? hm)
    rw [getLast?_eq_getElem?] at hm
    have hlt := (List.getElem?_eq_some_iff.1 hm).1
    have hlen := ht.length
    rw [hhead, hnode.body] at h
    have hcall : ∃ value, s.currentResultAtLastSlot = .value value ∧ result = some value ∧ info = none ∧
        ∀ r, r.2 = false → afterCall r node.body = .value cont := by
      have hmakes := hnode.makesSlot
      cases hb : node.body with
      | apply _ normal exception | cached _ normal exception =>
        simp only [hb, value_bind, bind_eq_value, pure_eq] at h
        obtain ⟨value, hvalue, h⟩ := h
        cases h
        exact ⟨value, hvalue, rfl, rfl, fun r hr => by simp [afterCall, hr]⟩
      | branch | tupleExpand | switch | jump => simp [hb, makesSlot] at hmakes
    obtain ⟨value, hvalue, rfl, rfl, hafter⟩ := hcall
    obtain ⟨hbelow, hresolve⟩ := ht.currentResultAtLastSlot hgc hvalue hresults
    refine ⟨fun value' hv => ?_, fun hnormal label' vs' hfollow => ?_⟩
    · cases hv
      rwa [hlen]
    · have hlast := hnormal (made.length - 1) (by omega)
      have hnoException : (results (made.length - 1)).2 = false := by
        simp only [isKept, Bool.or_eq_false_iff] at hlast
        exact hlast.1
      have hreach := ht.reaches results hresults _ m hm fun j hj => hnormal j (by omega)
      have heval := @MadeAt.evaluateNode _ graph split eval made results m node hnode _ hresults hm
      rw [hafter _ hnoException, value_bind] at heval
      rw [hhead, map_some, hresolve, ← hlen] at hfollow
      rw [hfollow] at heval
      have hstep := hreach.step heval fun r hr => by
        cases hr
        exact hlast
      have hsum : made.length - 1 + (some (results (made.length - 1))).toList.length = made.length := by
        simp only [toList_some, length_singleton]
        omega
      rwa [hsum] at hstep
  | other body hbody hnone hhead =>
    rw [hbody, value_bind] at h
    have hdecision : followDecision s.mEnableIfSplit s.getSlots s.simulationHead.values body =
        .value (cont, info) ∧ result = none := by
      cases body with
      | apply | cached => simp [makesSlot] at hnone
      | jump => cases h
      | _ =>
        obtain ⟨⟨continuation', info'⟩, hr, h⟩ := bind_eq_value.1 h
        cases h
        exact ⟨hr, rfl⟩
    obtain ⟨hdecision, rfl⟩ := hdecision
    refine ⟨by simp, fun hnormal label' vs' hfollow => ?_⟩
    rw [hsplit] at hdecision
    have hbelow : ∀ value ∈ s.simulationHead.values, value.Below s.getSlots.length := ht.length ▸ hhead.below
    have hdec := decision_of_followDecision (ht.agrees_fst hgc hresults _) hbelow hgc hdecision
    have hother : otherDecision split (s.simulationHead.values.map (resolve fun j => (results j).1))
        body = .value (cont, info) := by
      cases body with
      | jump => cases hdec
      | _ => exact hdec
    refine @Reaches.step _ _ _ _ _ _ _ _ _ _ _ none (hhead.reaches results hresults hnormal) ?_ (by simp)
    rw [evaluateNode_of_other hhead.sameGraph hbody hnone, hother]
    exact congrArg (mk none <$> ·) hfollow

/-- The evaluation gets to the head that the simulation goes on to. -/
theorem nextHead_spec {head : SimulationHead F} (h : s.nextHead = .value head) :
    ReachesHead graph split eval start vals made head := by
  obtain ⟨hgraph, hvalues⟩ : s.simulationHead.graph = graph ∧
      ∀ value ∈ s.simulationHead.values, value.Below made.length := by
    cases hhead with
    | call m hm hhead =>
      rw [getLast?_eq_getElem?] at hm
      rw [hhead]
      exact ⟨rfl, fun value hv => (ht.below _ m hm value hv).mono (Nat.sub_le _ _)⟩
    | other body hbody hnone hhead => exact ⟨hhead.sameGraph, hhead.below⟩
  obtain ⟨⟨cont, result, info⟩, hcontinuation, h⟩ := bind_eq_value.1 h
  cases cont with
  | ret arg isException => cases h
  | node label args =>
    obtain ⟨values, hargs, h⟩ := bind_eq_value.1 h
    rw [hgraph] at h
    obtain ⟨results₀, hresults₀⟩ := ht.exists_consistent
    have hresult := (continuationToFollow_spec hsplit ht hgc hhead hcontinuation hresults₀).1
    have hbelow := below_controlFlowContinuationArgsToFutureValues hvalues hresult hargs
    obtain ⟨hsame, hnext⟩ := nextSimulationHead_below hbelow h
    refine ⟨hsame, hnext, fun results hresults hnormal => ?_⟩
    have hfollow := (continuationToFollow_spec hsplit ht hgc hhead hcontinuation hresults).2 hnormal
    exact nextSimulationHead_reaches (hfollow _ _ (follow_of_args hargs)) h

end

/-! ## New slots, and slots that are completed -/

theorem extends_append (slots slots' : List (FutureSlot F)) : Extends slots (slots ++ slots') :=
  fun _ _ hslot _ => (getElem?_append_left (List.getElem?_eq_some_iff.1 hslot).1).trans hslot

theorem extends_set {i : ℕ} {slot : FutureSlot F} (hslot : slots[i]? = some slot) (hfuture : slot.isFuture)
    (slot' : FutureSlot F) : Extends slots (slots.set i slot') := by
  intro j slot'' hj hnot
  have hne : i ≠ j := by
    rintro rfl
    cases hslot.symm.trans hj
    simp [hfuture] at hnot
  rw [getElem?_set_ne hne, hj]

/-- The call that is made at a node. -/
theorem exists_madeAt (hgraph : head.graph = graph) {args : List (FutureValue F)}
    (hargs : head.futureApplyArgs = .value args) :
    ∃ isApply signature node, MadeAt graph ⟨head.label, head.values, args, isApply, signature⟩ node := by
  subst hgraph
  have hbody : ∃ node, head.graph.get head.label = some node ∧ head.body = .value node.body := by
    obtain ⟨body, hbody, -⟩ := bind_eq_value.1 hargs
    unfold SimulationHead.body Outcome.require at hbody ⊢
    cases hget : head.graph.get head.label with
    | none => simp [hget] at hbody
    | some node => exact ⟨node, rfl, rfl⟩
  obtain ⟨node, hget, hbody⟩ := hbody
  have hmakes := (makesSlot_of_futureApplyArgs hbody).2 args hargs
  cases hb : node.body with
  | apply _ normal exception | cached _ normal exception => exact ⟨_, _, node, hget, by rw [hb]; rfl, hargs⟩
  | branch | tupleExpand | switch | jump => simp [hb, makesSlot] at hmakes

/-- A new slot at a head that the evaluation gets to. -/
theorem Traced.append (h : Traced graph split eval start vals slots made) {m : Made F}
    {node : ControlFlowNode F} (hm : MadeAt graph m node)
    (hhead : ReachesHead graph split eval start vals made ⟨graph, m.label, m.values⟩) :
    Traced graph split eval start vals (slots ++ [.future m.label m.values m.args]) (made ++ [m]) := by
  have hlen := h.length
  have hold : ∀ (i : ℕ) m', made[i]? = some m' → (made ++ [m])[i]? = some m' := fun i m' hm' =>
    (getElem?_append_left (List.getElem?_eq_some_iff.1 hm').1).trans hm'
  have hmade : ∀ (i : ℕ) m', (made ++ [m])[i]? = some m' → made[i]? = some m' ∨ (i = made.length ∧ m' = m) := by
    intro i m' hm'
    by_cases hi : i < made.length
    · exact .inl ((getElem?_append_left hi).symm.trans hm')
    · have hi' := (List.getElem?_eq_some_iff.1 hm').1
      rw [length_append, length_singleton] at hi'
      obtain rfl : i = made.length := by omega
      rw [getElem?_concat_length, some.injEq] at hm'
      exact .inr ⟨rfl, hm'.symm⟩
  have hslots : ∀ (i : ℕ) slot, (slots ++ [.future m.label m.values m.args])[i]? = some slot →
      slots[i]? = some slot ∨ (i = made.length ∧ slot = .future m.label m.values m.args) := by
    intro i slot hslot
    by_cases hi : i < slots.length
    · exact .inl ((getElem?_append_left hi).symm.trans hslot)
    · have hi' := (List.getElem?_eq_some_iff.1 hslot).1
      rw [length_append, length_singleton] at hi'
      obtain rfl : i = slots.length := by omega
      rw [getElem?_concat_length, some.injEq] at hslot
      exact .inr ⟨hlen.symm, hslot.symm⟩
  refine ⟨by simp [hlen], ?_, ?_, ?_, ?_, ?_⟩
  · intro i label values args hslot
    rcases hslots i _ hslot with hslot | ⟨rfl, he⟩
    · obtain ⟨m', hm', hrest⟩ := h.future i label values args hslot
      exact ⟨m', hold i m' hm', hrest⟩
    · cases he
      exact ⟨m, getElem?_concat_length, rfl, rfl, rfl⟩
  · intro i label result isException hslot
    rcases hslots i _ hslot with hslot | ⟨-, he⟩
    · obtain ⟨m', vs, hm', hlabel, hvs, hresult⟩ := h.current i label result isException hslot
      exact ⟨m', vs, hold i m' hm', hlabel, (extends_append slots _).futureValuesToImplVals hvs, hresult⟩
    · cases he
  · intro m' hm'
    rcases mem_append.1 hm' with hm' | hm'
    · exact h.madeAt m' hm'
    · rw [mem_singleton.1 hm']
      exact ⟨node, hm⟩
  · intro i m' hm' value hv
    rcases hmade i m' hm' with hm' | ⟨rfl, rfl⟩
    · exact h.below i m' hm' value hv
    · exact hhead.below value hv
  · intro results hresults i m' hm' hnormal
    rcases hmade i m' hm' with hm' | ⟨rfl, rfl⟩
    · exact h.reaches results hresults.of_append i m' hm' hnormal
    · exact hhead.reaches results hresults.of_append hnormal

/-- The slots and the head after going on to a head that the evaluation gets to. -/
theorem Traced.advance {s s' : SimulationState F} (h : Traced graph split eval start vals s.mSlots made)
    (hhead : ReachesHead graph split eval start vals made head)
    (hadvanced : Advanced s head s') :
    ∃ made', made <+: made' ∧ Traced graph split eval start vals s'.mSlots made' ∧
      AtHead graph split eval start vals made' s'.mSimulationHead := by
  rw [hadvanced.atHead, hadvanced.slots]
  unfold newSlots
  cases hargs : head.futureApplyArgs with
  | fails failure => exact absurd hargs (hadvanced.returns failure)
  | null =>
    have hbody : ∃ body, head.body = .value body := by
      unfold SimulationHead.futureApplyArgs at hargs
      unfold SimulationHead.body require at hargs ⊢
      cases hget : head.graph.get head.label with
      | none => simp [hget] at hargs
      | some node => exact ⟨node.body, rfl⟩
    obtain ⟨body, hbody⟩ := hbody
    have hnone := (makesSlot_of_futureApplyArgs hbody).1 hargs
    exact ⟨made, prefix_refl made, by simpa using h, .other body hbody hnone hhead⟩
  | value args =>
    obtain ⟨isApply, signature, node, hnode⟩ := exists_madeAt hhead.sameGraph hargs
    obtain rfl := hhead.sameGraph
    refine ⟨made ++ [⟨head.label, head.values, args, isApply, signature⟩], prefix_append _ _, h.append hnode hhead, ?_⟩
    exact .call _ getLast?_concat rfl

/-- A slot is completed with what its call returns. -/
theorem Traced.set (h : Traced graph split eval start vals slots made) {i : ℕ} {slot : FutureSlot F}
    (hslot : slots[i]? = some slot) (hfuture : slot.isFuture) {m : Made F} (hm : made[i]? = some m)
    (hvs : futureValuesToImplVals slots m.args = .value vs)
    {r : F.ImplValContainer × Bool} (hresult : r = eval i (m.submittableArgs vs)) :
    Traced graph split eval start vals (slots.set i (.current slot.label r.1 r.2)) made := by
  have hext := extends_set hslot hfuture (.current slot.label r.1 r.2)
  have hlt := (List.getElem?_eq_some_iff.1 hslot).1
  refine ⟨by simp [h.length], ?_, ?_, h.madeAt, h.below, h.reaches⟩
  · intro j label values args hj
    by_cases hij : i = j
    · subst hij
      rw [getElem?_set_self hlt] at hj
      cases hj
    · rw [getElem?_set_ne hij] at hj
      exact h.future j label values args hj
  · intro j label value isException hj
    by_cases hij : i = j
    · subst hij
      rw [getElem?_set_self hlt] at hj
      cases hj
      refine ⟨m, vs, hm, ?_, hext.futureValuesToImplVals hvs, hresult⟩
      cases slot with
      | future label values args =>
        obtain ⟨m', hm', hlabel, -⟩ := h.future i label values args hslot
        cases hm.symm.trans hm'
        exact hlabel
      | current => cases hfuture
      | garbageCollected => cases hfuture
    · rw [getElem?_set_ne hij] at hj
      obtain ⟨m', vs', hm', hlabel, hvs', hresult'⟩ := h.current j label value isException hj
      exact ⟨m', vs', hm', hlabel, hext.futureValuesToImplVals hvs', hresult'⟩

end ControlFlow
