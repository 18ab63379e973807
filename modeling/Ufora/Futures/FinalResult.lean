import Ufora.Futures.Speculation
import Ufora.Lib.Run

/-!
# The final result of a simulation

`getFinalResult` should give what the evaluation reaches at the first call that does not return a constant
normally, or after all the calls that were made. It does, except that a `Return` after a call that was bailed out
at is given the values at the head: the result is right where these are the values that were saved for the call.
-/

open Ordered Effect Run List Finset Option Except Prod ControlFlow.SimulationState ControlFlow.Outcome
  ControlFlow.FutureValue

namespace ControlFlow

variable {F : ForaValues}

namespace CFGWithFuturesImpl

/-- A simulation, with the calls that were submitted. -/
structure System (F : ForaValues) where
  cfg : CFGWithFuturesImpl F
  submitted : List (ℕ × SubmittableArgs F)

namespace System

/-- What the users of a simulation do: a slot is submitted, and its call returns. -/
inductive Op
  | continueSimulation
  | setMaxRepeatNodesAllowed (count : ℕ)
  | submit (slotIndex : ℕ)
  | complete (slotIndex : ℕ)

/-- The call of a slot that was submitted returns. -/
def complete (eval : Calls F) (sys : System F) (slotIndex : ℕ) : Option (System F) := do
  let entry ← sys.submitted.find? fun entry => entry.1 = slotIndex
  let cfg ← (sys.cfg.slotCompleted slotIndex (eval slotIndex entry.2)).toOption
  return { sys with cfg := cfg }

/-- A step that returns. -/
def step (eval : Calls F) (sys : System F) : Op → Option (System F)
  | .continueSimulation => do return { sys with cfg := ← sys.cfg.continueSimulation.toOption }
  | .setMaxRepeatNodesAllowed count => some { sys with cfg := { sys.cfg with mMaxRepeatNodesAllowed := some count } }
  | .submit slotIndex =>
    match sys.cfg.asSubmittable slotIndex with
    | .value args => some { sys with submitted := sys.submitted ++ [(slotIndex, args)] }
    | _ => none
  | .complete slotIndex => sys.complete eval slotIndex

/-- A new simulation, with `enableIfSplit` or not. -/
def create (graph : ControlFlowGraph F) (split : Bool) (label : Option String) (values : List F.ImplValContainer) :
    Outcome (System F) := do
  let cfg ← createCfgWithFutures graph label values
  return ⟨{ cfg with mEnableIfSplit := split }, []⟩

/-- The evaluation stops after a node: the node's call does not return a constant normally, or it is the last. -/
def StopsAfter (sys : System F) (calls : ℕ) (call : Option (F.ImplValContainer × Bool)) : Prop :=
  (∃ result ∈ call, isKept result.1 result.2) ∨ calls + call.toList.length = sys.cfg.getSlots.length

/-- Once the slots that it depends on are completed, the final result is what the evaluation reaches. -/
structure FinalResultRight (graph : ControlFlowGraph F) (split : Bool) (eval : Calls F) (start : Option String)
    (vals : List F.ImplValContainer) (sys : System F) : Prop where
  resolves : (∀ slot ∈ sys.cfg.getSlots, slot.isFuture = false) → sys.cfg.hasResolvedToSimpleState = .value true
  right : sys.cfg.hasResolvedToSimpleState = .value true →
    ∃ calls label values, Reaches graph split eval start vals calls label values ∧
      sys.cfg.getFinalResult = snd <$> evaluateNode graph split eval calls label values ∧
      ∀ call next, evaluateNode graph split eval calls label values = .value (call, next) → sys.StopsAfter calls call

end System

end CFGWithFuturesImpl

/-! ## The values that a continuation's argument uses -/

mutual

/-- The indices of the node's values that an argument mentions. -/
def ControlFlowContinuationArg.valueIndices : ControlFlowContinuationArg F → Finset ℕ
  | .arg (.arg index) => {index}
  | .arg (.constant _) => ∅
  | .result => ∅
  | .tupleElement _ => ∅
  | .tupleRemainingElements => ∅
  | .makeTuple args => valueIndicesOfTuple args

def valueIndicesOfTuple : List (TupleArg F.Symbol (ControlFlowContinuationArg F)) → Finset ℕ
  | [] => ∅
  | .normal _ arg :: args => arg.valueIndices ∪ valueIndicesOfTuple args
  | .tupleCall arg :: args => arg.valueIndices ∪ valueIndicesOfTuple args

end

section
variable {A : Type} {ofValue : F.ImplValContainer → A} {makeTuple : List (TupleArg F.Symbol A) → A}
  {values values' : List A} {result : Option A} {info : Option (TupleExpandInfo F)}

mutual

/-- An argument comes to the same for values that are the same where it mentions them. -/
theorem ControlFlowContinuationArg.evaluate_congr :
    ∀ arg : ControlFlowContinuationArg F, (∀ i ∈ arg.valueIndices, values[i]? = values'[i]?) →
      arg.evaluate ofValue makeTuple values result info = arg.evaluate ofValue makeTuple values' result info
  | .arg (.arg index), h => by
    have hget := h index (Finset.mem_singleton_self index)
    simp only [ControlFlowContinuationArg.evaluate, Outcome.get, hget]
  | .arg (.constant _), _ => rfl
  | .result, _ => rfl
  | .tupleElement _, _ => rfl
  | .tupleRemainingElements, _ => rfl
  | .makeTuple args, h => by
    simp only [ControlFlowContinuationArg.evaluate, evaluateTupleArgs_congr args h]

theorem evaluateTupleArgs_congr : ∀ args : List (TupleArg F.Symbol (ControlFlowContinuationArg F)),
      (∀ i ∈ valueIndicesOfTuple args, values[i]? = values'[i]?) →
        evaluateTupleArgs ofValue makeTuple values result info args =
          evaluateTupleArgs ofValue makeTuple values' result info args
  | [], _ => rfl
  | .normal _ arg :: args, h | .tupleCall arg :: args, h => by
    simp only [evaluateTupleArgs, arg.evaluate_congr fun i hi => h i (mem_union_left _ hi),
      evaluateTupleArgs_congr args fun i hi => h i (mem_union_right _ hi)]

end

end

namespace CFGWithFuturesImpl.System

/-- Where the simulation bailed out at a call after which the graph is left, the values at the head are known, and
are the call's values where the returned argument mentions them. -/
def ReturnsOwnValues (sys : System F) : Prop :=
  ∀ bail ∈ sys.cfg.mBailEarlyState, ∀ label result isException node arg isExceptionReturned,
    sys.cfg.getSlots[bail.slotIndex]? = some (.current label result isException) →
      sys.cfg.simulationHead.graph.get label = some node →
        afterCall (result, isException) node.body = .value (.ret arg isExceptionReturned) →
          ∃ headValues values, futureValuesToImplVals sys.cfg.getSlots sys.cfg.simulationHead.values =
          .value headValues ∧
            futureValuesToImplVals sys.cfg.getSlots bail.args = .value values ∧
              ∀ i ∈ arg.valueIndices, headValues[i]? = values[i]?

/-! ## What holds in every state -/

section
variable {graph : ControlFlowGraph F} {split : Bool} {eval : Calls F} {start : Option String}
  {vals : List F.ImplValContainer}

/-- Some call was made with these values, and either it did not return a constant normally or it is the last. -/
structure BailsAt (slots : List (FutureSlot F)) (made : List (Made F)) (bail : BailEarlyState F) : Prop where
  isMade : ∃ m, made[bail.slotIndex]? = some m ∧ m.values = bail.args
  stops : (∃ label result isException, slots[bail.slotIndex]? = some (.current label result isException) ∧
    isKept result isException) ∨ bail.slotIndex + 1 = slots.length

theorem BailsAt.mono {slots slots' : List (FutureSlot F)} {made : List (Made F)} {bail : BailEarlyState F}
    (h : BailsAt slots made bail) (hext : Extends slots slots') (hlength : slots'.length = slots.length) :
    BailsAt slots' made bail := by
  refine ⟨h.isMade, ?_⟩
  rcases h.stops with ⟨label, result, isException, hslot, hkept⟩ | hlast
  · exact .inl ⟨label, result, isException, hext _ _ hslot rfl, hkept⟩
  · exact .inr (hlast.trans hlength.symm)

/-- The calls that were made, and what is known about them. -/
structure Simulated (graph : ControlFlowGraph F) (split : Bool) (eval : Calls F) (start : Option String)
    (vals : List F.ImplValContainer) (made : List (Made F)) (sys : System F) : Prop where
  counted : Counted sys.cfg.mSimulationState
  sameSplit : sys.cfg.mEnableIfSplit = split
  traced : Traced graph split eval start vals sys.cfg.getSlots made
  atHead : AtHead graph split eval start vals made sys.cfg.simulationHead
  bails : ∀ (i : ℕ) label result isException, sys.cfg.getSlots[i]? = some (.current label result isException) →
    isKept result isException → ∃ bail ∈ sys.cfg.mBailEarlyState, bail.slotIndex ≤ i
  bailsAt : ∀ bail ∈ sys.cfg.mBailEarlyState, BailsAt sys.cfg.getSlots made bail
  submitted : ∀ entry ∈ sys.submitted, ∃ m vs, made[entry.1]? = some m ∧
    futureValuesToImplVals sys.cfg.getSlots m.args = .value vs ∧ entry.2 = m.submittableArgs vs

variable {made : List (Made F)} {sys sys' : System F}

/-! ## The final result -/

variable {cfg : CFGWithFuturesImpl F} {body : ControlFlowNodeBody F}

/-- The result is where the continuation leads to with the node's values. -/
theorem getFinalResultAtNode_eq_follow
    {nodeArgs : List (FutureValue F)} {values : List F.ImplValContainer} {result : Option (F.ImplValContainer × Bool)}
    {cont : ControlFlowContinuation F} {info : Option (TupleExpandInfo F)}
    (hcontinuation : cfg.finalContinuation body result = .value (cont, info))
    (hvalues : futureValuesToImplVals cfg.getSlots nodeArgs = .value values)
    (hret : ∀ arg isException, cont = .ret arg isException →
      ∃ headValues, futureValuesToImplVals cfg.getSlots cfg.simulationHead.values = .value headValues ∧
        ∀ i ∈ arg.valueIndices, headValues[i]? = values[i]?) :
    cfg.getFinalResultAtNode body nodeArgs result = cont.follow values (result.map fst) info := by
  unfold getFinalResultAtNode
  rw [hcontinuation, value_bind]
  cases cont with
  | ret arg isException =>
    obtain ⟨headValues, hhead, hsame⟩ := hret arg isException rfl
    simp only [hhead, value_bind, ControlFlowContinuation.follow, controlFlowContinuationArgAndValuesToImplVal]
    rw [arg.evaluate_congr hsame]
  | node label args =>
    simp only [hvalues, value_bind, ControlFlowContinuation.follow]

theorem finalContinuation_of_makesSlot (cfg : CFGWithFuturesImpl F)
    (h : body.makesSlot) (result : F.ImplValContainer × Bool) :
    ∃ cont, afterCall result body = .value cont ∧
      cfg.finalContinuation body (some result) = .value (cont, none) := by
  cases body with
  | apply args normal exception => exact ⟨_, rfl, rfl⟩
  | cached arg normal exception => exact ⟨_, rfl, rfl⟩
  | branch => cases h
  | tupleExpand => cases h
  | switch => cases h
  | jump => cases h

variable {bound i : ℕ}

/-- The slots up to here are known, with the results that the calls return. -/
theorem Simulated.known (h : Simulated graph split eval start vals made sys)
    (hcompleted : ∀ i < bound, ∃ slot, sys.cfg.getSlots[i]? = some slot ∧ slot.isFuture = false) :
    Known sys.cfg.getSlots bound := by
  intro i hi
  obtain ⟨slot, hslot, hfuture⟩ := hcompleted i hi
  refine ⟨slot, hslot, ?_⟩
  cases slot with
  | future => cases hfuture
  | current => rfl
  | garbageCollected label => exact absurd hslot (h.counted.uncollected i label)

variable {results : ℕ → F.ImplValContainer × Bool}

section

variable (h : Simulated graph split eval start vals made sys)
include h

/-- The calls before the one that is bailed out at returned normally. -/
theorem Simulated.normalBefore (hresults : Consistent eval made results)
    (hknown : Known sys.cfg.getSlots bound) (hbail : ∀ bail ∈ sys.cfg.mBailEarlyState, bound ≤ bail.slotIndex) :
    NormalBefore bound results := by
  intro j hj
  obtain ⟨slot, hslot, hcurrent⟩ := hknown j hj
  cases slot with
  | future => cases hcurrent
  | garbageCollected => cases hcurrent
  | current label result isException =>
    rw [h.traced.agrees h.counted.uncollected hresults j label result isException hslot]
    by_contra hkept
    rw [Bool.not_eq_false] at hkept
    obtain ⟨bail, hmem, hle⟩ := h.bails j label result isException hslot hkept
    have := hbail bail hmem
    omega

/-- The result at a slot is what evaluating its node gives. -/
theorem Simulated.getFinalResultAtSlot (hresults : Consistent eval made results) {n : ℕ} {m : Made F}
    (hm : made[n]? = some m) (hknown : Known sys.cfg.getSlots (n + 1))
    (hret : ∀ label result isException node arg isExceptionReturned values,
      sys.cfg.getSlots[n]? = some (.current label result isException) → graph.get label = some node →
        afterCall (result, isException) node.body = .value (.ret arg isExceptionReturned) →
          futureValuesToImplVals sys.cfg.getSlots m.values = .value values →
            ∃ headValues, futureValuesToImplVals sys.cfg.getSlots sys.cfg.simulationHead.values = .value headValues ∧
              ∀ i ∈ arg.valueIndices, headValues[i]? = values[i]?) :
    ∃ slot, sys.cfg.getSlots[n]? = some slot ∧ sys.cfg.getFinalResultAtSlot slot m.values =
      snd <$> evaluateNode graph split eval n m.label (m.values.map (resolve fun j => (results j).1)) := by
  obtain ⟨slot, hslot, hcurrent⟩ := hknown n (Nat.lt_succ_self n)
  cases slot with
  | future => cases hcurrent
  | garbageCollected => cases hcurrent
  | current label result isException =>
    refine ⟨_, hslot, ?_⟩
    have hresult := h.traced.agrees h.counted.uncollected hresults n label result isException hslot
    obtain ⟨m', -, hm', hlabel, -⟩ := h.traced.current n label result isException hslot
    cases hm.symm.trans hm'
    obtain ⟨node, hnode⟩ := h.traced.madeAt m (mem_of_getElem? hm)
    have hvalues := futureValuesToImplVals_eq_resolve hknown (h.traced.agrees_fst h.counted.uncollected hresults _)
      fun value hv => (h.traced.below n m hm value hv).mono (Nat.le_succ n)
    obtain ⟨cont, hafter, hcontinuation⟩ :=
      finalContinuation_of_makesSlot sys.cfg hnode.makesSlot (result, isException)
    have hgraph : sys.cfg.simulationHead.graph = graph := h.atHead.sameGraph
    unfold CFGWithFuturesImpl.getFinalResultAtSlot
    simp only [hgraph, ← hlabel, hnode.get, require, value_bind]
    rw [getFinalResultAtNode_eq_follow hcontinuation hvalues, hnode.evaluateNode hresults hm, hresult, hafter]
    · rw [value_bind]
      simp only [map_some]
      cases cont.follow _ (some result) none <;> rfl
    · rintro arg isExceptionReturned rfl
      exact hret label result isException node arg isExceptionReturned _ hslot (hlabel ▸ hnode.get) hafter hvalues

/-- The result at a head that makes no call is what evaluating its node gives. -/
theorem Simulated.getFinalResultAtHead
    {ρ : ℕ → F.ImplValContainer} (hknown : Known sys.cfg.getSlots made.length)
    (hρ : Agrees ρ sys.cfg.getSlots made.length)
    (hhead : ReachesHead graph split eval start vals made sys.cfg.simulationHead)
    (hbody : sys.cfg.simulationHead.body = .value body) (hnone : body.makesSlot = false) :
    sys.cfg.getFinalResultAtNode body sys.cfg.simulationHead.values none =
      snd <$> evaluateNode graph split eval made.length sys.cfg.simulationHead.label
        (sys.cfg.simulationHead.values.map (resolve ρ)) := by
  have hvalues := futureValuesToImplVals_eq_resolve hknown hρ hhead.below
  have hcontinuation : sys.cfg.finalContinuation body none =
      otherDecision split (sys.cfg.simulationHead.values.map (resolve ρ)) body := by
    have hdecision : followDecision split sys.cfg.getSlots sys.cfg.simulationHead.values body =
        decision split (sys.cfg.simulationHead.values.map (resolve ρ)) body :=
      followDecision_eq_decision hρ hhead.below hknown body
    rw [← h.sameSplit] at hdecision ⊢
    cases body with
    | apply => cases hnone
    | cached => cases hnone
    | jump => rfl
    | _ => exact hdecision
  rw [evaluateNode_of_other hhead.sameGraph hbody hnone]
  cases hother : otherDecision split (sys.cfg.simulationHead.values.map (resolve ρ)) body with
  | value r =>
    obtain ⟨cont, info⟩ := r
    rw [hother] at hcontinuation
    rw [getFinalResultAtNode_eq_follow hcontinuation hvalues fun _ _ _ => ⟨_, hvalues, fun _ _ => rfl⟩,
      value_bind]
    simp only [map_none]
    cases cont.follow _ none info <;> rfl
  | null | fails =>
    unfold getFinalResultAtNode
    rw [hcontinuation, hother]
    rfl

/-- Where the simulation bailed out, the result is that of the evaluation at that call. -/
theorem Simulated.right_of_bail
    (hown : sys.ReturnsOwnValues) {bail : BailEarlyState F} (hbail : sys.cfg.mBailEarlyState = some bail)
    (hres : sys.cfg.hasResolvedToSimpleState = .value true) :
    ∃ calls l values, Reaches graph split eval start vals calls l values ∧
      sys.cfg.getFinalResult = snd <$> evaluateNode graph split eval calls l values ∧
      ∀ call next, evaluateNode graph split eval calls l values = .value (call, next) →
        sys.StopsAfter calls call := by
  obtain ⟨⟨m, hm, hargs⟩, hstops⟩ := h.bailsAt bail hbail
  have hlt : bail.slotIndex < sys.cfg.getSlots.length := by
    rw [← h.traced.length]
    exact (List.getElem?_eq_some_iff.1 hm).1
  have hcompleted : ∀ i < bail.slotIndex + 1, ∃ slot, sys.cfg.getSlots[i]? = some slot ∧ slot.isFuture = false := by
    intro i hi
    have hres' := hres
    unfold hasResolvedToSimpleState at hres'
    rw [hbail] at hres'
    simp only [if_pos hlt, Outcome.value.injEq, List.all_eq_true, Bool.not_eq_true'] at hres'
    refine ⟨_, getElem?_eq_getElem (by omega), hres' _ ?_⟩
    exact mem_of_getElem? (i := i) (by rw [getElem?_take_of_lt hi]; exact getElem?_eq_getElem (by omega))
  have hknown := h.known hcompleted
  obtain ⟨results, hresults⟩ := h.traced.exists_consistent
  have hnormal : NormalBefore bail.slotIndex results :=
    h.normalBefore hresults (fun i hi => hknown i (by omega)) fun bail' hmem => by
      rw [hbail] at hmem
      cases hmem
      exact le_rfl
  have hreaches := h.traced.reaches results hresults _ m hm hnormal
  obtain ⟨slot, hslot, hfinal⟩ := h.getFinalResultAtSlot hresults hm hknown
    (fun l result isException node arg isExceptionReturned values hslot hget hafter hvalues => by
      rw [← h.atHead.sameGraph] at hget
      obtain ⟨headValues, values', hhead, hvalues', hsame⟩ :=
        hown bail hbail l result isException node arg isExceptionReturned hslot hget hafter
      rw [← hargs, hvalues] at hvalues'
      cases hvalues'
      exact ⟨headValues, hhead, hsame⟩)
  refine ⟨bail.slotIndex, m.label, _, hreaches, ?_, fun call next heval => ?_⟩
  · unfold getFinalResult
    rw [hres, hbail]
    simp only [Outcome.value_bind, if_true, Outcome.get, hslot, ← hargs]
    exact hfinal
  · obtain ⟨node, hnode⟩ := h.traced.madeAt m (mem_of_getElem? hm)
    rw [hnode.evaluateNode hresults hm] at heval
    obtain ⟨cont, -, heval⟩ := Outcome.bind_eq_value.1 heval
    obtain ⟨next', -, heval⟩ := Outcome.bind_eq_value.1 heval
    cases heval
    rcases hstops with ⟨l, result, isException, hcurrent, hkept⟩ | hlast
    · have hresult := h.traced.agrees h.counted.uncollected hresults _ l result isException hcurrent
      exact .inl ⟨_, rfl, hresult ▸ hkept⟩
    · exact .inr hlast

/-- Where it did not, the result is that of the evaluation after all the calls. -/
theorem Simulated.right_of_noBail
    (hbail : sys.cfg.mBailEarlyState = none) (hres : sys.cfg.hasResolvedToSimpleState = .value true) :
    ∃ calls label values, Reaches graph split eval start vals calls label values ∧
      sys.cfg.getFinalResult = snd <$> evaluateNode graph split eval calls label values ∧
      ∀ call next, evaluateNode graph split eval calls label values = .value (call, next) →
        sys.StopsAfter calls call := by
  have hlen := h.traced.length
  have hknown : Known sys.cfg.getSlots made.length := h.known fun i hi => by
    have hres' := hres
    unfold hasResolvedToSimpleState at hres'
    rw [hbail] at hres'
    simp only [Outcome.value.injEq, List.all_eq_true, Bool.not_eq_true'] at hres'
    have hlt : i < sys.cfg.getSlots.length := by omega
    exact ⟨_, getElem?_eq_getElem hlt, hres' _ (getElem_mem hlt)⟩
  obtain ⟨results, hresults⟩ := h.traced.exists_consistent
  have hagrees := h.traced.agrees_fst h.counted.uncollected hresults made.length
  have hnormal := h.normalBefore hresults hknown (by simp [hbail])
  cases h.atHead with
  | call m hm hhead =>
    have hlast := hm
    rw [getLast?_eq_getElem?] at hm
    have hlt := (List.getElem?_eq_some_iff.1 hm).1
    obtain ⟨node, hnode⟩ := h.traced.madeAt m (mem_of_getLast? hlast)
    have hreaches := h.traced.reaches results hresults _ m hm fun j hj => hnormal j (by omega)
    obtain ⟨slot, hslot, hfinal⟩ := h.getFinalResultAtSlot hresults hm (fun i hi => hknown i (by omega))
      (fun label result isException node arg isExceptionReturned values hslot hget hafter hvalues =>
        ⟨values, by rw [hhead]; exact hvalues, fun _ _ => rfl⟩)
    refine ⟨made.length - 1, m.label, _, hreaches, ?_, fun call next heval => ?_⟩
    · unfold getFinalResult
      have hslot' : sys.cfg.getSlots.getLast? = some slot := by rw [getLast?_eq_getElem?, ← hlen, hslot]
      rw [hres, hbail]
      simp only [Outcome.value_bind, if_true, hhead, hnode.body, hnode.makesSlot, hslot', Outcome.require]
      exact hfinal
    · rw [hnode.evaluateNode hresults hm] at heval
      obtain ⟨cont, -, heval⟩ := Outcome.bind_eq_value.1 heval
      obtain ⟨next', -, heval⟩ := Outcome.bind_eq_value.1 heval
      cases heval
      refine .inr ?_
      simp only [toList_some, length_singleton]
      omega
  | other body hbody hnone hhead =>
    refine ⟨made.length, _, _, hhead.reaches results hresults hnormal, ?_, fun call next heval => ?_⟩
    · unfold getFinalResult
      rw [hres, hbail]
      simp only [Outcome.value_bind, if_true, hbody, hnone]
      exact h.getFinalResultAtHead hknown hagrees hhead hbody hnone
    · have hcall : call = none := by
        rw [evaluateNode_of_other hhead.sameGraph hbody hnone] at heval
        obtain ⟨r, -, heval⟩ := Outcome.bind_eq_value.1 heval
        cases hfollow : r.1.follow (sys.cfg.simulationHead.values.map
            (FutureValue.resolve fun j => (results j).1)) none r.2 <;> rw [hfollow] at heval <;> cases heval
        rfl
      subst hcall
      exact .inr hlen

theorem Simulated.finalResultRight
    (hown : sys.ReturnsOwnValues) : FinalResultRight graph split eval start vals sys where
  resolves := by
    intro hcompleted
    unfold hasResolvedToSimpleState
    cases hbail : sys.cfg.mBailEarlyState with
    | none => simpa using hcompleted
    | some bail =>
      obtain ⟨⟨m, hm, -⟩, -⟩ := h.bailsAt bail hbail
      have hlt := (List.getElem?_eq_some_iff.1 hm).1
      rw [h.traced.length] at hlt
      simp only [if_pos hlt, value.injEq, List.all_eq_true, Bool.not_eq_true']
      exact fun slot hslot => hcompleted slot (mem_of_mem_take hslot)
  right := by
    intro hres
    cases hbail : sys.cfg.mBailEarlyState with
    | none => exact h.right_of_noBail hbail hres
    | some bail => exact h.right_of_bail hown hbail hres

/-! ## Steps -/

end

theorem countVisit_spec (cfg : CFGWithFuturesImpl F) (head : SimulationHead F) :
    ∃ counts, cfg.countVisit head = { cfg with mVisitedApplyAndCacheNodesCounts := counts } := by
  unfold countVisit
  split
  · split
    · exact ⟨_, rfl⟩
    · exact ⟨_, rfl⟩
  · exact ⟨_, rfl⟩

theorem bailOnRepeat_spec {cfg' : CFGWithFuturesImpl F} {head : SimulationHead F}
    (h : cfg.bailOnRepeat head = .ok cfg') :
    cfg' = cfg ∨ ∃ label values args, cfg.getSlots.getLast? = some (.future label values args) ∧
      cfg' = { cfg with mBailEarlyState := some ⟨cfg.getSlots.length - 1, values⟩ } := by
  unfold bailOnRepeat at h
  split at h
  · cases hlast : cfg.getSlots.getLast? with
    | none => simp [hlast] at h
    | some slot =>
      cases slot with
      | future label values args =>
        simp only [hlast, ok.injEq] at h
        exact .inr ⟨label, values, args, rfl, h.symm⟩
      | current => simp [hlast] at h
      | garbageCollected => simp [hlast] at h
  · exact .inl (ok.inj h).symm

section

variable (h : Simulated graph split eval start vals made sys)
include h

/-- The head moves on: the calls made are still those that were made, and maybe one more. -/
theorem Simulated.advance (hbail : sys.cfg.mBailEarlyState = none) {head : SimulationHead F}
    (hnext : sys.cfg.nextHead = .value head) (hcfg : sys.cfg.advanceSimulationHead head = .ok cfg) :
    ∃ made', Simulated graph split eval start vals made' { sys with cfg := cfg } ∧
      cfg.mBailEarlyState = none := by
  obtain ⟨state, hstate, hcfg⟩ := ok_of_bind hcfg
  obtain ⟨counts, hcount⟩ := countVisit_spec { sys.cfg with mSimulationState := state } head
  cases (ok.inj hcfg).symm.trans hcount
  have hadvanced := advance_spec h.counted hstate
  have hhead := nextHead_spec h.sameSplit h.traced h.counted.uncollected h.atHead hnext
  obtain ⟨made', hprefix, htraced, hatHead⟩ := h.traced.advance hhead hadvanced
  have hext : Extends sys.cfg.getSlots state.mSlots := hadvanced.slots ▸ extends_append _ _
  refine ⟨made', ⟨hadvanced.counted, h.sameSplit, htraced, hatHead, ?_, ?_, ?_⟩, hbail⟩
  · intro i label result isException hslot hkept
    have hold : sys.cfg.getSlots[i]? = some (.current label result isException) := by
      have hslot' : state.mSlots[i]? = some (.current label result isException) := hslot
      rw [hadvanced.slots] at hslot'
      by_cases hi : i < sys.cfg.mSimulationState.mSlots.length
      · rwa [getElem?_append_left hi] at hslot'
      · rw [getElem?_append_right (by omega)] at hslot'
        exact absurd (mem_of_getElem? hslot') (current_notMem_newSlots head)
    exact h.bails i label result isException hold hkept
  · intro bail hmem
    exact absurd (hbail.symm.trans hmem) (by simp)
  · intro entry hentry
    obtain ⟨m, vs, hm, hvs, hargs⟩ := h.submitted entry hentry
    obtain ⟨rest, rfl⟩ := hprefix
    exact ⟨m, vs, (getElem?_append_left (List.getElem?_eq_some_iff.1 hm).1).trans hm,
      hext.futureValuesToImplVals hvs, hargs⟩

theorem Simulated.continueSimulation (hcfg : sys.cfg.continueSimulation = .ok cfg) :
    ∃ made', Simulated graph split eval start vals made' { sys with cfg := cfg } := by
  unfold CFGWithFuturesImpl.continueSimulation at hcfg
  split at hcfg
  · cases hcfg
    exact ⟨made, h⟩
  · next hbail =>
    have hbail : sys.cfg.mBailEarlyState = none := by simpa [mustBailEarly] using hbail
    cases hnext : sys.cfg.nextHead with
    | fails failure => simp [hnext] at hcfg
    | null =>
      simp only [hnext, ok.injEq] at hcfg
      subst hcfg
      exact ⟨made, h⟩
    | value head =>
      rw [hnext] at hcfg
      obtain ⟨cfg', hadvance, hrepeat⟩ := ok_of_bind hcfg
      obtain ⟨made', h', hbail'⟩ := h.advance hbail hnext hadvance
      rcases bailOnRepeat_spec hrepeat with rfl | ⟨label, values, args, hlast, rfl⟩
      · exact ⟨made', h'⟩
      · have hget := hlast
        rw [getLast?_eq_getElem?] at hget
        have hlt := (List.getElem?_eq_some_iff.1 hget).1
        refine ⟨made', h'.counted, h'.sameSplit, h'.traced, h'.atHead, ?_, ?_, h'.submitted⟩
        · intro i label result isException hslot hkept
          obtain ⟨bail, hmem, -⟩ := h'.bails i label result isException hslot hkept
          exact absurd (hbail'.symm.trans hmem) (by simp)
        · intro bail hmem
          cases hmem
          obtain ⟨m, hm, -, hvalues, -⟩ := h'.traced.future _ label values args hget
          exact ⟨⟨m, hm, hvalues⟩, .inr (Nat.sub_add_cancel (by omega))⟩

theorem Simulated.submit {args : SubmittableArgs F} (hargs : sys.cfg.asSubmittable i = .value args) :
    Simulated graph split eval start vals made { sys with submitted := sys.submitted ++ [(i, args)] } := by
  refine ⟨h.counted, h.sameSplit, h.traced, h.atHead, h.bails, h.bailsAt, fun entry hentry => ?_⟩
  rcases mem_append.1 hentry with hentry | hentry
  · exact h.submitted entry hentry
  · rw [List.mem_singleton.1 hentry]
    unfold asSubmittable at hargs
    split at hargs
    · obtain ⟨slot, hslot, hargs₁⟩ := bind_eq_value.1 hargs
      cases slot with
      | future label values applyArgs =>
        obtain ⟨node, hnode, hargs₂⟩ := bind_eq_value.1 hargs₁
        obtain ⟨⟨isApply, signature⟩, hsignature, hargs₃⟩ := bind_eq_value.1 hargs₂
        obtain ⟨vs, hvs, hargs₄⟩ := bind_eq_value.1 hargs₃
        split at hargs₄
        · obtain ⟨m, hm, rfl, -, rfl⟩ := h.traced.future i label values applyArgs (eq_of_get hslot)
          obtain ⟨node', hmade⟩ := h.traced.madeAt m (mem_of_getElem? hm)
          have hget := eq_some_of_require hnode
          rw [h.atHead.sameGraph, hmade.get] at hget
          cases hget
          cases hsignature.symm.trans hmade.signature
          cases hargs₄
          exact ⟨m, vs, hm, hvs, rfl⟩
        · cases hargs₄
      | current => cases hargs₁
      | garbageCollected => cases hargs₁
    · cases hargs

/-- What completing a slot does to the state. -/
theorem Simulated.completedSlot
    {l : Option String} {values args : List (FutureValue F)} {result : F.ImplValContainer × Bool}
    (hslot : sys.cfg.getSlots[i]? = some (.future l values args)) {state : SimulationState F}
    (hstate : sys.cfg.mSimulationState.slotCompleted i result.1 result.2 = .ok state) :
    state.mSlots = sys.cfg.getSlots.set i (.current l result.1 result.2) ∧
      state.mSimulationHead = sys.cfg.simulationHead ∧ Counted state := by
  by_cases hi : i ∈ sys.cfg.mSimulationState.mIndicesOfSubmittableFutures
  · obtain ⟨state', hstate', hcompleted⟩ := slotCompleted_returns h.counted hi result.1 result.2
    cases hstate.symm.trans hstate'
    obtain ⟨slot, hslot', -, hslots⟩ := hcompleted.slots
    cases hslot.symm.trans hslot'
    exact ⟨hslots, hcompleted.atHead, hcompleted.counted⟩
  · obtain ⟨failure, hfails, -⟩ := slotCompleted_fails hi result.1 result.2
    cases hstate.symm.trans hfails

theorem Simulated.complete (hcomplete : sys.complete eval i = some sys') :
    Simulated graph split eval start vals made sys' := by
  obtain ⟨⟨i', args⟩, hfind, hcomplete⟩ := bind_eq_some_iff.1 hcomplete
  obtain ⟨cfg, hcfg, hcomplete⟩ := bind_eq_some_iff.1 hcomplete
  cases hcomplete
  obtain rfl : i' = i := by simpa using find?_some hfind
  obtain ⟨m, vs, hm, hvs, rfl⟩ := h.submitted _ (mem_of_find?_eq_some hfind)
  obtain ⟨result, hresult⟩ : ∃ result, result = eval i' (m.submittableArgs vs) := ⟨_, rfl⟩
  rw [← hresult] at hcfg
  unfold slotCompleted at hcfg
  cases hslot : sys.cfg.getSlots[i']? with
  | none => simp [hslot, Except.toOption] at hcfg
  | some slot =>
    cases slot with
    | current | garbageCollected => simp [hslot, Except.toOption] at hcfg
    | future label values applyArgs =>
      cases hstate : sys.cfg.mSimulationState.slotCompleted i' result.1 result.2 with
      | error failure =>
        simp only [hslot, hstate] at hcfg
        cases hcfg
      | ok state =>
        obtain ⟨hslots, hatHead, hcounted⟩ := h.completedSlot hslot hstate
        have htraced := h.traced.set hslot rfl hm hvs hresult
        rw [FutureSlot.label, ← hslots] at htraced
        have hext := extends_set hslot rfl (.current label result.1 result.2)
        have hmvalues : m.values = values := by
          obtain ⟨m', hm', -, hvalues, -⟩ := h.traced.future i' label values applyArgs hslot
          cases hm.symm.trans hm'
          exact hvalues
        have hbailsAt : ∀ bail ∈ sys.cfg.mBailEarlyState, BailsAt state.mSlots made bail := fun bail hbail =>
          (h.bailsAt bail hbail).mono (hslots ▸ hext) (by simp [hslots])
        have hold : ∀ (j : ℕ) label' value isException, j ≠ i' →
            state.mSlots[j]? = some (.current label' value isException) →
              sys.cfg.getSlots[j]? = some (.current label' value isException) :=
              fun j label' value isException hne hj => by
          rwa [hslots, getElem?_set_ne (Ne.symm hne)] at hj
        have hself : state.mSlots[i']? = some (.current label result.1 result.2) := by
          rw [hslots, getElem?_set_self (List.getElem?_eq_some_iff.1 hslot).1]
        have hsubmitted : ∀ entry ∈ sys.submitted, ∃ m vs, made[entry.1]? = some m ∧
            futureValuesToImplVals state.mSlots m.args = .value vs ∧ entry.2 = m.submittableArgs vs :=
          fun entry hentry => by
            obtain ⟨m', vs', hm', hvs', hargs'⟩ := h.submitted entry hentry
            exact ⟨m', vs', hm', hslots ▸ hext.futureValuesToImplVals hvs', hargs'⟩
        have hatHead' := h.atHead
        rw [← hatHead] at hatHead'
        have hcfg' : cfg = if isKept result.1 result.2 then
            registerExceptionOrMutable { sys.cfg with mSimulationState := state } i' values
            else { sys.cfg with mSimulationState := state } := by
          simp only [hslot, hstate] at hcfg
          by_cases hkept : isKept result.1 result.2 <;> simp only [hkept] at hcfg ⊢ <;>
            exact (some.inj hcfg).symm
        -- a slot that is kept bails the simulation out, unless an earlier one did
        by_cases hkept : isKept result.1 result.2
        · rw [if_pos hkept] at hcfg'
          unfold registerExceptionOrMutable at hcfg'
          split at hcfg'
          · next hall =>
            subst hcfg'
            refine ⟨hcounted, h.sameSplit, htraced, hatHead', fun j label' value isException hj hk => ?_,
              fun bail hbail => ?_, hsubmitted⟩
            · refine ⟨⟨i', values⟩, rfl, ?_⟩
              by_cases hne : j = i'
              · exact hne.ge
              · obtain ⟨bail, hbail, hle⟩ := h.bails j label' value isException
                  (hold j label' value isException hne hj) hk
                have hlt : i' < bail.slotIndex := by
                  rw [mem_def.1 hbail] at hall
                  simpa using hall
                exact (hlt.trans_le hle).le
            · cases hbail
              exact ⟨⟨m, hm, hmvalues⟩, .inl ⟨label, result.1, result.2, hself, hkept⟩⟩
          · next hall =>
            subst hcfg'
            refine ⟨hcounted, h.sameSplit, htraced, hatHead', fun j label' value isException hj hk => ?_,
              hbailsAt, hsubmitted⟩
            by_cases hne : j = i'
            · cases hbail : sys.cfg.mBailEarlyState with
              | none => simp [hbail] at hall
              | some bail =>
                refine ⟨bail, rfl, ?_⟩
                simpa [hbail, hne] using hall
            · exact h.bails j label' value isException (hold j label' value isException hne hj) hk
        · rw [if_neg hkept] at hcfg'
          subst hcfg'
          refine ⟨hcounted, h.sameSplit, htraced, hatHead', fun j label' value isException hj hk => ?_,
            hbailsAt, hsubmitted⟩
          by_cases hne : j = i'
          · subst hne
            have hj' : state.mSlots[j]? = some (.current label' value isException) := hj
            cases hself.symm.trans hj'
            exact absurd hk hkept
          · exact h.bails j label' value isException (hold j label' value isException hne hj) hk

theorem Simulated.step {op : Op} (hstep : sys.step eval op = some sys') :
    ∃ made', Simulated graph split eval start vals made' sys' := by
  cases op with
  | continueSimulation =>
    cases hcfg : sys.cfg.continueSimulation with
    | error failure => simp [System.step, hcfg, Except.toOption] at hstep
    | ok cfg =>
      simp only [System.step, hcfg, Except.toOption] at hstep
      cases hstep
      exact h.continueSimulation hcfg
  | setMaxRepeatNodesAllowed count =>
    cases hstep
    exact ⟨made, h.counted, h.sameSplit, h.traced, h.atHead, h.bails, h.bailsAt, h.submitted⟩
  | submit i =>
    cases hargs : sys.cfg.asSubmittable i with
    | value args =>
      simp only [System.step, hargs] at hstep
      cases hstep
      exact ⟨made, h.submit hargs⟩
    | null | fails => simp [System.step, hargs] at hstep
  | complete i => exact ⟨made, h.complete hstep⟩

end

/-- What a new simulation is. -/
theorem simulated_create (hcreate : create graph split start vals = .value sys) :
    ∃ made, Simulated graph split eval start vals made sys := by
  obtain ⟨cfg, hcfg, hcreate⟩ := bind_eq_value.1 hcreate
  cases hcreate
  unfold createCfgWithFutures at hcfg
  split at hcfg
  · obtain ⟨head, hhead, hcfg⟩ := bind_eq_value.1 hcfg
    cases hstate : SimulationState.create head with
    | error failure => simp [hstate] at hcfg
    | ok state =>
      simp only [hstate, pure_eq, value.injEq] at hcfg
      obtain ⟨counts, hcount⟩ := countVisit_spec { mSimulationState := state } head
      cases hcfg.symm.trans hcount
      have hadvanced := create_spec hstate
      have hempty : Traced graph split eval start vals [] [] :=
        ⟨rfl, by simp, by simp, by simp, by simp, by simp⟩
      have hvalues : ∀ ρ, (implValsToFutureValues vals).map (resolve ρ) = vals := fun ρ => by
        simp [implValsToFutureValues, resolve, Function.comp_def]
      have hbelow : ∀ value ∈ implValsToFutureValues vals, value.Below (length (α := Made F) []) := by
        intro value hv
        obtain ⟨v, -, rfl⟩ := mem_map.1 hv
        simp [Below, dependentSlotIndices]
      obtain ⟨hgraph, hheadBelow⟩ := nextSimulationHead_below hbelow hhead
      have hreaches : ReachesHead graph split eval start vals [] head :=
        ⟨hgraph, hheadBelow, fun results hresults hnormal =>
          nextSimulationHead_reaches (by rw [hvalues]; exact .start) hhead⟩
      obtain ⟨made, -, htraced, hatHead⟩ := hempty.advance hreaches hadvanced
      refine ⟨made, hadvanced.counted, rfl, htraced, hatHead, ?_, by simp, by simp⟩
      intro i label result isException hslot
      have hslot' : state.mSlots[i]? = some (.current label result isException) := hslot
      rw [hadvanced.slots, nil_append] at hslot'
      exact absurd (mem_of_getElem? hslot') (current_notMem_newSlots head)
  · cases hcfg

/-- For every graph, start, results of the calls and run: in every state, once the slots that the final result
depends on are completed, it is what the evaluation reaches, if a call that was bailed out at returns its own values. -/
theorem always_finalResultRight (eval : Calls F) (hcreate : create graph split start vals = .value sys)
    (ops : List Op) : Always (step eval)
      (fun sys => sys.ReturnsOwnValues → FinalResultRight graph split eval start vals sys) sys ops := by
  have hsimulated : Always (step eval) (fun sys => ∃ made, Simulated graph split eval start vals made sys)
      sys ops := always (simulated_create hcreate) fun s op s' ⟨_, h⟩ hstep => h.step hstep
  intro pre s' hp hr hown
  obtain ⟨made, h⟩ := hsimulated pre s' hp hr
  exact h.finalResultRight hown

/-- In every run, the simulation is what the sequential evaluation makes of its slots. -/
theorem always_simulated (eval : Calls F) (hcreate : create graph split start vals = .value sys)
    (ops : List Op) : Always (step eval)
      (fun sys => ∃ made, Simulated graph split eval start vals made sys) sys ops :=
  always (simulated_create hcreate) fun _ _ _ ⟨_, h⟩ hstep => h.step hstep

end

/-! ## A value of another node -/

/-- Values of which there are two, all of them constants. -/
abbrev twoValues : ForaValues where
  Symbol := Unit
  CSTValue := Bool
  ImplValContainer := Bool
  Hash := Bool
  nothing := false
  ofCSTValue := id
  isCST := fun _ => true
  convertToBoolean := id
  isSplit := fun _ => false
  hash := id
  hashCSTValue := id
  decidableEqHash := inferInstance
  tupleContents := fun _ => none
  createTupleFromIterators := fun _ => false
  tupleGetSlice := fun _ _ _ => false

/-- A call; after an exception its node returns the value that it has, and else the next node has another one. -/
def callAndReturn : ControlFlowGraph twoValues where
  entryNode := ⟨1, .apply [] (.node "next" [.arg (.constant false)]) (.ret (.arg (.arg 0)) true)⟩
  subnodes := (∅ : StdMap String (ControlFlowNode twoValues)).insert "next"
    ⟨1, .apply [] (.ret .result false) (.ret .result true)⟩

/-- The first call raises an exception. -/
def firstRaises : Calls twoValues := fun i _ => (false, i = 0)

/-- Whether a simulation bailed out at a call whose values are those at the head. -/
def bailedWithHeadValues (sys : System twoValues) : Bool :=
  match sys.cfg.mBailEarlyState with
  | none => false
  | some bail =>
    match futureValuesToImplVals sys.cfg.getSlots sys.cfg.simulationHead.values,
      futureValuesToImplVals sys.cfg.getSlots bail.args with
    | .value headValues, .value values => headValues = values
    | _, _ => false

theorem exists_bailedWithHeadValues {sys : System twoValues} {ops : List Op}
    (h : (run (step firstRaises) sys ops).any bailedWithHeadValues) :
    ∃ s, run (step firstRaises) sys ops = some s ∧ s.cfg.mBailEarlyState.isSome ∧ s.ReturnsOwnValues := by
  obtain ⟨s, hr, h⟩ := (Option.any_eq_true _ _).1 h
  refine ⟨s, hr, ?_⟩
  unfold bailedWithHeadValues at h
  split at h
  · cases h
  · next bail hbail =>
    refine ⟨by rw [hbail]; rfl, fun b hb label result isException node arg isExceptionReturned _ _ _ => ?_⟩
    obtain rfl := Option.some.inj (hbail.symm.trans hb)
    split at h
    · next headValues values hhead hargs => exact ⟨headValues, values, hhead, hargs, by simp_all⟩
    · cases h

/-- The first call is submitted and returns before the simulation goes on, which then bails out: the condition holds. -/
theorem always_finalResultRight_early : ∃ sys, create callAndReturn false none [true] = .value sys ∧
    Always (step firstRaises)
      (fun sys => sys.ReturnsOwnValues → FinalResultRight callAndReturn false firstRaises none [true] sys) sys
      [.submit 0, .complete 0, .continueSimulation] ∧
    ∃ s, run (step firstRaises) sys [.submit 0, .complete 0, .continueSimulation] = some s ∧
      s.cfg.mBailEarlyState.isSome ∧ s.ReturnsOwnValues :=
  ⟨_, rfl, always_finalResultRight firstRaises rfl _, exists_bailedWithHeadValues (by decide +kernel)⟩

/-- So it does where the run is taken as a simulation of the evaluation. -/
theorem always_simulated_early : ∃ sys, create callAndReturn false none [true] = .value sys ∧ Always (step firstRaises)
    (fun sys => ∃ made, Simulated callAndReturn false firstRaises none [true] made sys) sys
      [.submit 0, .complete 0, .continueSimulation] :=
  ⟨_, rfl, always_simulated firstRaises rfl _⟩

theorem reaches_callAndReturn {calls : ℕ} {l : Option String} {values : List twoValues.ImplValContainer}
    (h : Reaches callAndReturn false firstRaises none [true] calls l values) :
    calls = 0 ∧ l = none ∧ values = [true] := by
  induction h with
  | start => exact ⟨rfl, rfl, rfl⟩
  | step h hstep hnormal ih =>
    obtain ⟨rfl, rfl, rfl⟩ := ih
    cases hstep

/-- Whether a simulation is completed and returned the value of the next node. -/
def returnsOther (sys : System twoValues) : Bool :=
  match sys.cfg.hasResolvedToSimpleState, sys.cfg.getFinalResult with
  | .value true, .value (.result false _) => true
  | _, _ => false

theorem spec_of_returnsOther {sys : System twoValues} (h : returnsOther sys) :
    sys.cfg.hasResolvedToSimpleState = .value true ∧
      ∃ isException, sys.cfg.getFinalResult = .value (.result false isException) := by
  unfold returnsOther at h
  split at h
  · next isException hres hfinal => exact ⟨hres, isException, hfinal⟩
  · cases h

theorem not_always_of_returnsOther {sys : System twoValues} {ops : List Op}
    (h : (run (step firstRaises) sys ops).any returnsOther) :
    ¬ Always (step firstRaises) (FinalResultRight callAndReturn false firstRaises none [true]) sys ops := by
  intro hright
  obtain ⟨s', hright, hs'⟩ := hright.any h
  obtain ⟨hres, isException, hfinal⟩ := spec_of_returnsOther hs'
  obtain ⟨calls, label, values, hreaches, hresult, -⟩ := hright.right hres
  obtain ⟨rfl, rfl, rfl⟩ := reaches_callAndReturn hreaches
  cases hfinal.symm.trans hresult

/-- The simulation goes on to the next node, and then the first call raises an exception: what is returned is the
value of the next node. -/
theorem not_finalResultRight : ∃ sys, create callAndReturn false none [true] = .value sys ∧
    ¬ Always (step firstRaises) (FinalResultRight callAndReturn false firstRaises none [true]) sys
      [.continueSimulation, .submit 0, .complete 0, .submit 1, .complete 1] :=
  ⟨_, rfl, not_always_of_returnsOther (by decide +kernel)⟩

end CFGWithFuturesImpl.System

end ControlFlow
