import Ufora.Futures.Refcounts
import Ufora.Lib.Run

/-!
# The lifetime of slots

A slot should be collected exactly when nothing needs it any more. The references of slots that left the head are
not given up (`updateSimulationHeadAndDependentSlotIndices` computes which they are and drops the result), so no
slot is collected at all, and this is right for as long as every slot is needed.
-/

open Ordered Effect Run

namespace ControlFlow.SimulationState

variable {F : ForaValues}

/-- A slot, as it was made and completed: the node's values that are saved for it, its arguments, and its result. -/
structure SlotRecord (F : ForaValues) where
  values : List (FutureValue F)
  applyArgs : List (FutureValue F)
  result : Option (F.ImplValContainer × Bool)

/-- The record of a slot that was made. -/
def SlotRecord.ofSlot : FutureSlot F → Option (SlotRecord F)
  | .future _ values applyArgs => some ⟨values, applyArgs, none⟩
  | _ => none

/-- Whether a slot is not completed, or kept because of its result. -/
def SlotRecord.holds (record : SlotRecord F) : Bool :=
  match record.result with
  | none => true
  | some (result, isException) => isKept result isException

/-- A `SimulationState`, with a record of every slot there was. -/
structure System (F : ForaValues) where
  state : SimulationState F
  records : List (SlotRecord F)

namespace System

/-- The calls. -/
inductive Op (F : ForaValues)
  | advance (newSimulationHead : SimulationHead F)
  | slotCompleted (slotIndex : ℕ) (result : F.ImplValContainer) (isException : Bool)

variable (sys : System F)

/-- A call, with the records that it adds or completes. -/
def exec : Op F → Except Failure (System F)
  | .advance newSimulationHead => do
    let state ← sys.state.advanceSimulationHeadAndRegisterDependencies newSimulationHead
    let newSlots := state.mSlots.drop sys.state.mSlots.length
    return ⟨state, sys.records ++ newSlots.filterMap SlotRecord.ofSlot⟩
  | .slotCompleted slotIndex result isException => do
    let state ← sys.state.slotCompleted slotIndex result isException
    return ⟨state, sys.records.modify slotIndex fun record => { record with result := some (result, isException) }⟩

/-- A call that returns. -/
def step (op : Op F) : Option (System F) := (sys.exec op).toOption

/-- The constructor. -/
def create (simulationHead : SimulationHead F) : Except Failure (System F) := do
  let state ← SimulationState.create simulationHead
  return ⟨state, state.mSlots.filterMap SlotRecord.ofSlot⟩

/-- The head mentions the slot, or a slot that is not completed or is kept has it among its arguments or saved
values. -/
def Needed (slotIndex : ℕ) : Prop := slotIndex ∈ computeDependentSlotIndices sys.state.mSimulationHead.values ∨
    ∃ record ∈ sys.records, record.holds ∧
      slotIndex ∈ computeDependentSlotIndices record.applyArgs ∪ computeDependentSlotIndices record.values

instance (slotIndex : ℕ) : Decidable (sys.Needed slotIndex) := by
  unfold Needed
  infer_instance

/-- The slot is completed, with a constant that is no exception. -/
def CompletedNormally (slotIndex : ℕ) : Prop :=
  ∃ record value, sys.records[slotIndex]? = some record ∧ record.result = some (value, false) ∧ F.isCST value

/-- None of the assertions about lifetimes fails, and what is collected is what is not needed. -/
structure LifetimesCorrect (sys : System F) : Prop where
  asserts : ∀ op failure, sys.exec op = .error failure → failure.isOfLifetime = false
  collects : ∀ slotIndex, sys.CompletedNormally slotIndex →
    ((∃ label, sys.state.mSlots[slotIndex]? = some (.garbageCollected label)) ↔ ¬ sys.Needed slotIndex)

/-- No slot that is completed with a constant has become garbage. -/
def NoGarbage : Prop := ∀ slotIndex, sys.CompletedNormally slotIndex → sys.Needed slotIndex

theorem exec_counted {sys sys' : System F} {op : Op F} (hs : Counted sys.state) (h : sys.exec op = .ok sys') :
    Counted sys'.state := by
  cases op with
  | advance head =>
    obtain ⟨state, hstate, h⟩ := ok_of_bind h
    cases h
    exact (advance_spec hs hstate).counted
  | slotCompleted i result isException =>
    obtain ⟨state, hstate, h⟩ := ok_of_bind h
    cases h
    by_cases hi : i ∈ sys.state.mIndicesOfSubmittableFutures
    · obtain ⟨state', hstate', hcompleted⟩ := slotCompleted_returns hs hi result isException
      cases hstate.symm.trans hstate'
      exact hcompleted.counted
    · obtain ⟨failure, hfails, -⟩ := slotCompleted_fails hi result isException
      cases hstate.symm.trans hfails

/-- A call fails none of the assertions about lifetimes. -/
theorem isOfLifetime_of_exec {sys : System F} {op : Op F} {failure : Failure} (hs : Counted sys.state)
    (h : sys.exec op = .error failure) : failure.isOfLifetime = false := by
  cases op with
  | advance head =>
    cases hstate : sys.state.advanceSimulationHeadAndRegisterDependencies head with
    | ok state => simp [exec, hstate] at h
    | error failure' =>
      have := error_of_advance hstate
      simp only [exec, hstate] at h
      cases h
      exact this
  | slotCompleted i result isException =>
    by_cases hi : i ∈ sys.state.mIndicesOfSubmittableFutures
    · obtain ⟨state, hstate, -⟩ := slotCompleted_returns hs hi result isException
      simp only [exec, hstate] at h
      cases h
    · obtain ⟨failure', hfails, hkind⟩ := slotCompleted_fails hi result isException
      simp only [exec, hfails] at h
      cases h
      exact hkind

theorem lifetimesCorrect_iff_noGarbage {sys : System F} (hs : Counted sys.state) :
    sys.LifetimesCorrect ↔ sys.NoGarbage := by
  have hgc : ∀ i, ¬ ∃ label, sys.state.mSlots[i]? = some (FutureSlot.garbageCollected label) :=
    fun i ⟨label, h⟩ => hs.uncollected i label h
  constructor
  · intro h i hi
    by_contra hneeded
    exact hgc i ((h.collects i hi).2 hneeded)
  · intro h
    exact ⟨fun op failure => isOfLifetime_of_exec hs, fun i hi =>
      ⟨fun hc => absurd hc (hgc i), fun hneeded => absurd (h i hi) hneeded⟩⟩

theorem counted_always {simulationHead : SimulationHead F} {sys : System F} (h : create simulationHead = .ok sys)
    (ops : List (Op F)) : Always step (fun sys => Counted sys.state) sys ops := by
  obtain ⟨state, hstate, h⟩ := ok_of_bind h
  cases h
  refine always (create_spec hstate).counted fun s op s' hs hstep => @exec_counted F s s' op hs ?_
  unfold step at hstep
  cases hexec : s.exec op with
  | error failure => simp [hexec, Except.toOption] at hstep
  | ok s'' =>
    simp only [hexec, Except.toOption, Option.some.injEq] at hstep
    rw [hstep]

/-- For every start and every order of calls: the constructor fails no assertion about lifetimes, and the slots are
collected right in every state reached exactly if no state that is reached has garbage. -/
theorem lifetimesCorrect_iff (simulationHead : SimulationHead F) :
    (∀ failure, create simulationHead = .error failure → failure.isOfLifetime = false) ∧
      ∀ sys, create simulationHead = .ok sys → ∀ ops,
        (Always step LifetimesCorrect sys ops ↔ Always step NoGarbage sys ops) := by
  refine ⟨fun failure h => ?_, fun sys h ops => ?_⟩
  · cases hstate : SimulationState.create simulationHead with
    | ok state =>
      unfold create at h
      rw [hstate] at h
      cases h
    | error failure' =>
      unfold create at h
      rw [hstate] at h
      cases h
      exact error_of_create hstate
  · have hcounted := counted_always h ops
    constructor
    · intro hcorrect pre s' hp hr
      exact (lifetimesCorrect_iff_noGarbage (hcounted pre s' hp hr)).1 (hcorrect pre s' hp hr)
    · intro hneeded pre s' hp hr
      exact (lifetimesCorrect_iff_noGarbage (hcounted pre s' hp hr)).2 (hneeded pre s' hp hr)

/-! ## A slot that the head leaves -/

/-- Values of which there is one each, all of them constants. -/
abbrev unitValues : ForaValues where
  Symbol := Unit
  CSTValue := Unit
  ImplValContainer := Unit
  Hash := Unit
  nothing := ()
  ofCSTValue := id
  isCST := fun _ => true
  convertToBoolean := fun _ => true
  isSplit := fun _ => false
  hash := id
  hashCSTValue := id
  decidableEqHash := inferInstance
  tupleContents := fun _ => none
  createTupleFromIterators := fun _ => ()
  tupleGetSlice := fun _ _ _ => ()

/-- A call, and then a branch that does not use its result. -/
def callAndBranch : ControlFlowGraph unitValues where
  entryNode := ⟨0, .apply [] (.node "branch" []) (.ret .result true)⟩
  subnodes := (∅ : StdMap String (ControlFlowNode unitValues)).insert "branch"
    ⟨0, .branch (.constant ()) (.ret (.arg (.constant ())) false) (.ret (.arg (.constant ())) false)⟩

/-- The slot of the call is completed, and the head goes on to the branch: nothing needs the slot, and it stays. -/
theorem not_lifetimesCorrect : ∃ sys, create ⟨callAndBranch, none, []⟩ = .ok sys ∧
    ¬ Always step LifetimesCorrect sys [.slotCompleted 0 () false, .advance ⟨callAndBranch, some "branch", []⟩] := by
  refine ⟨_, rfl, fun h => ?_⟩
  have hlast := (h.last rfl).collects 0 ⟨_, (), rfl, rfl, rfl⟩
  obtain ⟨label, hlabel⟩ := hlast.2 (by decide +kernel)
  cases hlabel

end System

end ControlFlow.SimulationState
