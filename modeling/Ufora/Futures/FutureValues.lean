import Ufora.Futures.ControlFlowGraph

/-!
# Values that are not known yet

`FutureValue` and `FutureSlot` (`FORA/ControlFlowGraph/CFGWithFutures.hppml`), the arguments of nodes and
continuations over them, and what they come to once the slots are known
(`FORA/ControlFlowGraph/CFGWithFuturesImpl.cppml`).
-/

open List Finset ControlFlow

namespace ControlFlow

/-! ## Functions that return a `Nullable` -/

/-- Why a call does not return: the three assertions about the lifetime of slots, the other assertions, and an
index or a label that is not there. -/
inductive Failure
  | refcountNotPositive
  | decrefOfNonCurrent
  | dependencyGarbageCollected
  | notSubmittable
  | stoppedAtJump
  | assertionFailed
  | outOfRange
  deriving DecidableEq

/-- What a call returns. -/
inductive Outcome (α : Type)
  | value (a : α)
  | null
  | fails (failure : Failure)

/-- One of the three assertions about the lifetime of slots. -/
def Failure.isOfLifetime : Failure → Bool
  | .refcountNotPositive => true
  | .decrefOfNonCurrent => true
  | .dependencyGarbageCollected => true
  | _ => false

namespace Outcome

variable {α β : Type}

instance : Monad Outcome where
  pure := value
  bind x f := match x with
    | value a => f a
    | null => null
    | fails failure => fails failure
  map f x := match x with
    | value a => value (f a)
    | null => null
    | fails failure => fails failure

@[simp] theorem pure_eq (a : α) : (pure a : Outcome α) = value a := rfl
@[simp] theorem value_bind (a : α) (f : α → Outcome β) : (value a >>= f) = f a := rfl
@[simp] theorem null_bind (f : α → Outcome β) : (null >>= f) = null := rfl
@[simp] theorem fails_bind (failure : Failure) (f : α → Outcome β) : (fails failure >>= f) = fails failure := rfl
@[simp] theorem map_value (f : α → β) (a : α) : f <$> value a = value (f a) := rfl
@[simp] theorem map_null (f : α → β) : f <$> (null : Outcome α) = null := rfl
@[simp] theorem map_fails (f : α → β) (failure : Failure) : f <$> (fails failure : Outcome α) = fails failure := rfl

instance : LawfulMonad Outcome :=
  LawfulMonad.mk' _ (fun x => by cases x <;> rfl) (fun _ _ => rfl) (fun x _ _ => by cases x <;> rfl)
    (fun _ _ => rfl) (fun x _ => by cases x <;> rfl) (fun x _ => by cases x <;> rfl)
    (fun _ x => by cases x <;> rfl) fun _ _ => rfl

theorem bind_eq_value {x : Outcome α} {f : α → Outcome β} {b : β} :
    (x >>= f) = value b ↔ ∃ a, x = value a ∧ f a = value b := by
  cases x <;> simp

theorem mapM_cons (f : α → Outcome β) (x : α) (xs : List α) :
    (x :: xs).mapM f = f x >>= fun y => xs.mapM f >>= fun ys => value (y :: ys) := List.mapM_cons

variable {xs : List α}

theorem mapM_eq_value {f : α → Outcome β} {g : α → β} (h : ∀ x ∈ xs, f x = value (g x)) :
    xs.mapM f = value (xs.map g) := by
  induction xs with
  | nil => rfl
  | cons x xs ih => simp [h x (.head _), ih fun y hy => h y (.tail _ hy)]

/-- A loop that returns a list computes its elements one by one. -/
theorem mapM_eq_value_iff {f : α → Outcome β} {ys : List β} :
    xs.mapM f = value ys ↔ List.Forall₂ (fun x y => f x = value y) xs ys := by
  induction xs generalizing ys with
  | nil =>
    rw [mapM_nil, pure_eq, value.injEq, forall₂_nil_left_iff]
    exact eq_comm
  | cons x xs ih =>
    rw [mapM_cons, bind_eq_value, forall₂_cons_left_iff]
    simp only [bind_eq_value, ih, value.injEq]
    constructor
    · rintro ⟨y, hy, ys', hys, rfl⟩
      exact ⟨y, ys', hy, hys, rfl⟩
    · rintro ⟨y, ys', hy, hys, rfl⟩
      exact ⟨y, hy, ys', hys, rfl⟩

theorem exists_of_mapM_eq_value {f : α → Outcome β} {ys : List β} (h : xs.mapM f = value ys) :
    ∀ y ∈ ys, ∃ x ∈ xs, f x = value y := by
  have hall := mapM_eq_value_iff.1 h
  induction hall with
  | nil => simp
  | @cons x y xs ys hxy hrest ih =>
    intro z hz
    rcases mem_cons.1 hz with rfl | hz
    · exact ⟨x, .head _, hxy⟩
    · obtain ⟨x', hx', hz⟩ := ih (mapM_eq_value_iff.2 hrest) z hz
      exact ⟨x', .tail _ hx', hz⟩

theorem mapM_ne_null {f : α → Outcome β} (h : ∀ x, f x ≠ null) (xs : List α) : xs.mapM f ≠ null := by
  induction xs with
  | nil => simp
  | cons x xs ih =>
    rw [mapM_cons]
    cases hx : f x with
    | value y => cases hxs : xs.mapM f <;> simp_all
    | null => exact absurd hx (h x)
    | fails => simp

theorem exists_of_mapM_eq_fails {f : α → Outcome β} {failure : Failure}
    (h : xs.mapM f = fails failure) : ∃ x ∈ xs, f x = fails failure := by
  induction xs with
  | nil => simp at h
  | cons x xs ih =>
    rw [mapM_cons] at h
    cases hx : f x with
    | fails failure' =>
      simp only [hx, fails_bind, fails.injEq] at h
      exact ⟨x, .head _, h ▸ hx⟩
    | null => simp [hx] at h
    | value y =>
      cases hxs : xs.mapM f with
      | fails failure' =>
        simp only [hx, hxs, value_bind, fails_bind, fails.injEq] at h
        obtain ⟨x', hx', hfails⟩ := ih (h ▸ hxs)
        exact ⟨x', .tail _ hx', hfails⟩
      | null => simp [hx, hxs] at h
      | value ys => simp [hx, hxs] at h

/-- A map over the results is one over what computes them. -/
theorem map_mapM {γ : Type} (g : β → γ) (f : α → Outcome β) (xs : List α) :
    map g <$> xs.mapM f = xs.mapM fun x => g <$> f x := by
  induction xs with
  | nil => rfl
  | cons x xs ih =>
    rw [mapM_cons, mapM_cons, ← ih]
    cases f x <;> cases xs.mapM f <;> simp

/-- `lassert(!x.isNull())`, and its value. -/
def require (x : Option α) : Outcome α :=
  match x with
  | some a => value a
  | none => fails .assertionFailed

/-- `operator[]` and `at`. -/
def get (xs : List α) (index : ℕ) : Outcome α :=
  match xs[index]? with
  | some a => value a
  | none => fails .outOfRange

theorem get_ne_null (xs : List α) (i : ℕ) : get xs i ≠ null := by
  unfold get
  cases xs[i]? <;> simp

theorem eq_of_get {i : ℕ} {a : α} (h : get xs i = value a) : xs[i]? = some a := by
  unfold get at h
  cases hget : xs[i]? with
  | none => simp [hget] at h
  | some b =>
    simp only [hget, value.injEq] at h
    rw [h]

theorem mem_of_get {i : ℕ} {a : α} (h : get xs i = value a) : a ∈ xs := mem_of_getElem? (eq_of_get h)

theorem eq_some_of_require {x : Option α} {a : α} (h : require x = value a) : x = some a := by
  cases x with
  | none => cases h
  | some b =>
    cases h
    rfl

theorem map_require (f : α → β) (x : Option α) : f <$> require x = require (x.map f) := by
  cases x <;> rfl

theorem map_get (f : α → β) (xs : List α) (index : ℕ) : f <$> get xs index = get (xs.map f) index := by
  unfold get
  rw [getElem?_map]
  cases xs[index]? <;> rfl

end Outcome

/-! ## Tuples -/

variable {F : ForaValues}

/-- What an element adds to the names and values of a tuple. -/
def ForaValues.namesAndValues (F : ForaValues) :
    TupleArg F.Symbol F.ImplValContainer → List (Option F.Symbol × F.ImplValContainer)
  | .normal fieldName value => [(fieldName, value)]
  | .tupleCall value => (F.tupleContents value).getD [(none, value)]

/-- `createTupleFromIterators` of these elements. -/
def ForaValues.makeTuple (F : ForaValues) (args : List (TupleArg F.Symbol F.ImplValContainer)) : F.ImplValContainer :=
  F.createTupleFromIterators (args.flatMap F.namesAndValues)

/-- `ImplValContainerUtilities::tupleSize`. -/
def ForaValues.tupleSize (F : ForaValues) (value : F.ImplValContainer) : ℕ := ((F.tupleContents value).getD []).length

/-- `ImplValContainerUtilities::tupleGetItem`. -/
def ForaValues.tupleGetItem (F : ForaValues) (value : F.ImplValContainer) (index : ℕ) : Outcome F.ImplValContainer :=
  Prod.snd <$> Outcome.get ((F.tupleContents value).getD []) index

/-- `valueMatchesTupleContinuation`. -/
def valueMatchesTupleContinuation (toExpand : F.ImplValContainer) (tupleCont : ControlFlowTupleContinuation F) : Bool :=
  match F.tupleContents toExpand with
  | none => false
  | some contents =>
    if tupleCont.arityIsExact then contents.length = tupleCont.arity else contents.length ≥ tupleCont.arity

/-- `TupleExpandInfo`. -/
structure TupleExpandInfo (F : ForaValues) where
  valueToExpand : F.ImplValContainer
  arity : ℕ

/-! ## Arguments of continuations -/

mutual

/-- What a continuation's argument comes to, where values are made by `ofValue` and tuples by `makeTuple`. -/
def ControlFlowContinuationArg.evaluate {A : Type} (ofValue : F.ImplValContainer → A)
    (makeTuple : List (TupleArg F.Symbol A) → A) (current : List A) (currentResult : Option A)
    (expand : Option (TupleExpandInfo F)) : ControlFlowContinuationArg F → Outcome A
  | .arg (.arg index) => Outcome.get current index
  | .arg (.constant value) => .value (ofValue (F.ofCSTValue value))
  | .result => Outcome.require currentResult
  | .tupleElement index => do
    let info ← Outcome.require expand
    return ofValue (← F.tupleGetItem info.valueToExpand index)
  | .tupleRemainingElements => do
    let info ← Outcome.require expand
    return ofValue (F.tupleGetSlice info.valueToExpand info.arity (F.tupleSize info.valueToExpand))
  | .makeTuple args => makeTuple <$> evaluateTupleArgs ofValue makeTuple current currentResult expand args

/-- The same for the elements of a tuple. -/
def evaluateTupleArgs {A : Type} (ofValue : F.ImplValContainer → A)
    (makeTuple : List (TupleArg F.Symbol A) → A) (current : List A) (currentResult : Option A)
    (expand : Option (TupleExpandInfo F)) :
    List (TupleArg F.Symbol (ControlFlowContinuationArg F)) → Outcome (List (TupleArg F.Symbol A))
  | [] => .value []
  | .normal fieldName arg :: args => do
    let a ← arg.evaluate ofValue makeTuple current currentResult expand
    return .normal fieldName a ::
      (← evaluateTupleArgs ofValue makeTuple current currentResult expand args)
  | .tupleCall arg :: args => do
    let a ← arg.evaluate ofValue makeTuple current currentResult expand
    return .tupleCall a ::
      (← evaluateTupleArgs ofValue makeTuple current currentResult expand args)

end

variable (arg : ControlFlowContinuationArg F)

/-- `controlFlowContinuationArgAndValuesToImplVal`. -/
def controlFlowContinuationArgAndValuesToImplVal
    (currentNodeValues : List F.ImplValContainer) (applyResult : Option F.ImplValContainer)
    (expand : Option (TupleExpandInfo F)) : Outcome F.ImplValContainer :=
  arg.evaluate id F.makeTuple currentNodeValues applyResult expand

variable (args : List (ControlFlowContinuationArg F))

/-- `controlFlowContinuationArgsAndValuesToImplvals`. -/
def controlFlowContinuationArgsAndValuesToImplvals
    (currentNodeValues : List F.ImplValContainer) (applyResult : Option F.ImplValContainer)
    (expand : Option (TupleExpandInfo F)) : Outcome (List F.ImplValContainer) :=
  args.mapM fun arg =>
    controlFlowContinuationArgAndValuesToImplVal arg currentNodeValues applyResult expand

section
variable {A B : Type} {ofValue : F.ImplValContainer → A} {ofValue' : F.ImplValContainer → B}
  {makeTuple : List (TupleArg F.Symbol A) → A} {makeTuple' : List (TupleArg F.Symbol B) → B} {f : A → B}

mutual

/-- Evaluating commutes with a map that commutes with making values and tuples. -/
theorem ControlFlowContinuationArg.map_evaluate (hvalue : ∀ v, f (ofValue v) = ofValue' v)
    (htuple : ∀ args, f (makeTuple args) = makeTuple' (args.map (TupleArg.map f))) (vs : List A)
    (r : Option A) (info : Option (TupleExpandInfo F)) :
    ∀ arg : ControlFlowContinuationArg F, f <$> arg.evaluate ofValue makeTuple vs r info =
      arg.evaluate ofValue' makeTuple' (vs.map f) (r.map f) info
  | .arg (.arg index) => Outcome.map_get f vs index
  | .arg (.constant value) => by simp [ControlFlowContinuationArg.evaluate, hvalue]
  | .result => Outcome.map_require f r
  | .tupleElement index => by
    cases info with
    | none => rfl
    | some info =>
      simp only [ControlFlowContinuationArg.evaluate, Outcome.require, Outcome.value_bind]
      cases F.tupleGetItem info.valueToExpand index <;> simp [hvalue]
  | .tupleRemainingElements => by
    cases info with
    | none => rfl
    | some info => simp [ControlFlowContinuationArg.evaluate, Outcome.require, hvalue]
  | .makeTuple args => by
    have h := map_evaluateTupleArgs hvalue htuple vs r info args
    simp only [ControlFlowContinuationArg.evaluate, ← h]
    cases evaluateTupleArgs ofValue makeTuple vs r info args <;> simp [htuple]

theorem map_evaluateTupleArgs (hvalue : ∀ v, f (ofValue v) = ofValue' v)
    (htuple : ∀ args, f (makeTuple args) = makeTuple' (args.map (TupleArg.map f))) (vs : List A)
    (r : Option A) (info : Option (TupleExpandInfo F)) :
    ∀ args : List (TupleArg F.Symbol (ControlFlowContinuationArg F)),
      map (TupleArg.map f) <$> evaluateTupleArgs ofValue makeTuple vs r info args =
        evaluateTupleArgs ofValue' makeTuple' (vs.map f) (r.map f) info args
  | [] => rfl
  | .normal _ arg :: args | .tupleCall arg :: args => by
    have h := arg.map_evaluate hvalue htuple vs r info
    have hargs := map_evaluateTupleArgs hvalue htuple vs r info args
    simp only [evaluateTupleArgs, ← h, ← hargs]
    cases arg.evaluate ofValue makeTuple vs r info <;>
      cases evaluateTupleArgs ofValue makeTuple vs r info args <;> simp [TupleArg.map]

end

end

/-! ## Future values -/

/-- `FutureValue`. -/
inductive FutureValue (F : ForaValues)
  | current (value : F.ImplValContainer) (isException : Bool) (index : Option ℕ)
  | future (index : ℕ)
  | tuple (args : List (TupleArg F.Symbol (FutureValue F)))

/-- `FutureSlot`. -/
inductive FutureSlot (F : ForaValues)
  | future (label : Option String) (valuesNeededIfWeGetAnException applyArgs : List (FutureValue F))
  | current (label : Option String) (result : F.ImplValContainer) (isException : Bool)
  | garbageCollected (label : Option String)

/-- `label()`. -/
def FutureSlot.label : FutureSlot F → Option String
  | .future label _ _ => label
  | .current label _ _ => label
  | .garbageCollected label => label

/-- `isFuture()`. -/
def FutureSlot.isFuture : FutureSlot F → Bool
  | .future .. => true
  | _ => false

/-- `isCurrent()`. -/
def FutureSlot.isCurrent : FutureSlot F → Bool
  | .current .. => true
  | _ => false

mutual

/-- `futureToImplVal`. -/
def futureToImplVal (slots : List (FutureSlot F)) : FutureValue F → Outcome F.ImplValContainer
  | .current value _ _ => .value value
  | .future index => do
    match ← Outcome.get slots index with
    | .current _ value _ => .value value
    | .future .. => .null
    | .garbageCollected _ => .value F.nothing
  | .tuple args => F.makeTuple <$> tupleArgsToImplVals slots args

/-- The loop of `futureToImplVal` over the elements of a tuple. -/
def tupleArgsToImplVals (slots : List (FutureSlot F)) :
    List (TupleArg F.Symbol (FutureValue F)) → Outcome (List (TupleArg F.Symbol F.ImplValContainer))
  | [] => .value []
  | .normal fieldName arg :: args => do
    let value ← futureToImplVal slots arg
    return .normal fieldName value :: (← tupleArgsToImplVals slots args)
  | .tupleCall arg :: args => do
    let value ← futureToImplVal slots arg
    return .tupleCall value :: (← tupleArgsToImplVals slots args)

end

/-- `futureValuesToImplVals`. -/
def futureValuesToImplVals (slots : List (FutureSlot F)) (futureValues : List (FutureValue F)) :
    Outcome (List F.ImplValContainer) :=
  futureValues.mapM (futureToImplVal slots)

variable (current : List (FutureValue F))

/-- `applyArgToFutureValue`. -/
def applyArgToFutureValue : ControlFlowArg F → Outcome (FutureValue F)
  | .arg index => Outcome.get current index
  | .constant value => .value (.current (F.ofCSTValue value) false none)

theorem applyArgToFutureValue_ne_null (arg : ControlFlowArg F) : applyArgToFutureValue current arg ≠ .null := by
  cases arg with
  | arg index => exact Outcome.get_ne_null current index
  | constant value => simp [applyArgToFutureValue]

theorem failure_of_applyArgToFutureValue {current : List (FutureValue F)} {arg : ControlFlowArg F}
    {failure : Failure} (h : applyArgToFutureValue current arg = .fails failure) : failure = .outOfRange := by
  cases arg with
  | arg index =>
    unfold applyArgToFutureValue Outcome.get at h
    cases hget : current[index]? with
    | none =>
      simp only [hget, Outcome.fails.injEq] at h
      exact h.symm
    | some value => simp [hget] at h
  | constant value => simp [applyArgToFutureValue] at h

/-- `controlFlowArgToImplVal`. -/
def controlFlowArgToImplVal (slots : List (FutureSlot F)) (values : List (FutureValue F)) :
    ControlFlowArg F → Outcome F.ImplValContainer
  | .arg index => do futureToImplVal slots (← Outcome.get values index)
  | .constant value => .value (F.ofCSTValue value)

/-- `controlFlowContinuationArgToFutureValue`. -/
def controlFlowContinuationArgToFutureValue (currentResult : Option (FutureValue F))
    (expand : Option (TupleExpandInfo F)) : Outcome (FutureValue F) :=
  arg.evaluate (fun value => .current value false none) .tuple current currentResult expand

/-- `controlFlowContinuationArgsToFutureValues`. -/
def controlFlowContinuationArgsToFutureValues (currentResult : Option (FutureValue F))
    (expand : Option (TupleExpandInfo F)) : Outcome (List (FutureValue F)) :=
  args.mapM fun arg => controlFlowContinuationArgToFutureValue arg current currentResult expand

mutual

/-- `computeDependentSlotIndices` of a future value. -/
def FutureValue.dependentSlotIndices : FutureValue F → Finset ℕ
  | .current _ _ indexOrNull => indexOrNull.toFinset
  | .future index => {index}
  | .tuple args => dependentSlotIndicesOfTuple args

def dependentSlotIndicesOfTuple : List (TupleArg F.Symbol (FutureValue F)) → Finset ℕ
  | [] => ∅
  | .normal _ arg :: args => arg.dependentSlotIndices ∪ dependentSlotIndicesOfTuple args
  | .tupleCall arg :: args => arg.dependentSlotIndices ∪ dependentSlotIndicesOfTuple args

end

variable (values : List (FutureValue F))

/-- `computeDependentSlotIndices` of a vector. -/
def computeDependentSlotIndices : Finset ℕ := values.foldr (fun value indices => value.dependentSlotIndices ∪ indices) ∅

@[simp] theorem mem_computeDependentSlotIndices {values : List (FutureValue F)} {i : ℕ} :
    i ∈ computeDependentSlotIndices values ↔ ∃ value ∈ values, i ∈ value.dependentSlotIndices := by
  unfold computeDependentSlotIndices
  induction values with
  | nil => simp
  | cons value values ih => simp [ih]

/-- All slots that the future value depends on are below the bound. -/
def FutureValue.Below (bound : ℕ) (value : FutureValue F) : Prop := ∀ i ∈ value.dependentSlotIndices, i < bound

theorem FutureValue.Below.mono {bound bound' : ℕ} {v : FutureValue F} (h : v.Below bound)
    (hle : bound ≤ bound') : v.Below bound' := fun i hi => (h i hi).trans_le hle

/-! ## What a future value comes to -/

mutual

/-- The value, where `ρ` are the results of the slots. -/
def FutureValue.resolve (ρ : ℕ → F.ImplValContainer) : FutureValue F → F.ImplValContainer
  | .current value _ _ => value
  | .future index => ρ index
  | .tuple args => F.makeTuple (resolveTuple ρ args)

/-- The elements of a tuple, likewise. -/
def resolveTuple (ρ : ℕ → F.ImplValContainer) :
    List (TupleArg F.Symbol (FutureValue F)) → List (TupleArg F.Symbol F.ImplValContainer)
  | [] => []
  | .normal fieldName arg :: args => .normal fieldName (arg.resolve ρ) :: resolveTuple ρ args
  | .tupleCall arg :: args => .tupleCall (arg.resolve ρ) :: resolveTuple ρ args

end

variable {ρ : ℕ → F.ImplValContainer} {slots slots' : List (FutureSlot F)} {bound : ℕ}

theorem resolveTuple_eq (args : List (TupleArg F.Symbol (FutureValue F))) :
    resolveTuple ρ args = args.map (TupleArg.map (FutureValue.resolve ρ)) := by
  induction args with
  | nil => rfl
  | cons arg args ih => cases arg <;> simp [resolveTuple, TupleArg.map, ih]

mutual

/-- What a value comes to depends on the results of its slots only. -/
theorem FutureValue.resolve_congr {ρ' : ℕ → F.ImplValContainer} :
    ∀ value : FutureValue F, (∀ i ∈ value.dependentSlotIndices, ρ i = ρ' i) → value.resolve ρ = value.resolve ρ'
  | .current _ _ _, _ => rfl
  | .future index, h => h index (Finset.mem_singleton_self index)
  | .tuple args, h => congrArg F.makeTuple (resolveTuple_congr args h)

theorem resolveTuple_congr {ρ' : ℕ → F.ImplValContainer} :
    ∀ args : List (TupleArg F.Symbol (FutureValue F)), (∀ i ∈ dependentSlotIndicesOfTuple args, ρ i = ρ' i) →
      resolveTuple ρ args = resolveTuple ρ' args
  | [], _ => rfl
  | .normal _ arg :: args, h | .tupleCall arg :: args, h => by
    rw [resolveTuple, resolveTuple, arg.resolve_congr fun i hi => h i (mem_union_left _ hi),
      resolveTuple_congr args fun i hi => h i (mem_union_right _ hi)]

end

/-- These are the results of the slots below the bound that are known. -/
def Agrees (ρ : ℕ → F.ImplValContainer) (slots : List (FutureSlot F)) (bound : ℕ) : Prop :=
  ∀ i < bound, ∀ label value isException, slots[i]? = some (.current label value isException) → ρ i = value

/-- The slots below the bound are known. -/
def Known (slots : List (FutureSlot F)) (bound : ℕ) : Prop := ∀ i < bound,
    ∃ slot, slots[i]? = some slot ∧ slot.isCurrent

/-- No slot was garbage collected. -/
def Uncollected (slots : List (FutureSlot F)) : Prop :=
  ∀ (i : ℕ) (label : Option String), slots[i]? ≠ some (FutureSlot.garbageCollected label)

mutual

/-- A future value all of whose slots are known is known. -/
theorem futureToImplVal_eq_resolve (hknown : Known slots bound) (hρ : Agrees ρ slots bound) :
    ∀ value, value.Below bound → futureToImplVal slots value = .value (value.resolve ρ)
  | .current _ _ _, _ => rfl
  | .future index, h => by
    have hlt := h index (Finset.mem_singleton_self index)
    obtain ⟨slot, hslot, hcurrent⟩ := hknown index hlt
    cases slot with
    | current label value isException =>
      simp [futureToImplVal, Outcome.get, hslot, FutureValue.resolve, hρ index hlt label value isException hslot]
    | future => cases hcurrent
    | garbageCollected => cases hcurrent
  | .tuple args, h => by
    have hargs := tupleArgsToImplVals_eq_resolve hknown hρ args h
    simp only [futureToImplVal, hargs, Outcome.map_value, FutureValue.resolve]

theorem tupleArgsToImplVals_eq_resolve (hknown : Known slots bound) (hρ : Agrees ρ slots bound) :
    ∀ args, (∀ i ∈ dependentSlotIndicesOfTuple args, i < bound) →
      tupleArgsToImplVals slots args = .value (resolveTuple ρ args)
  | [], _ => rfl
  | .normal _ arg :: args, h | .tupleCall arg :: args, h => by
    have harg := futureToImplVal_eq_resolve hknown hρ arg fun i hi => h i (mem_union_left _ hi)
    have hargs := tupleArgsToImplVals_eq_resolve hknown hρ args fun i hi => h i (mem_union_right _ hi)
    simp [tupleArgsToImplVals, harg, hargs, resolveTuple]

end

mutual

/-- What a future value is known to be is what it comes to. -/
theorem resolve_eq_of_futureToImplVal (hgc : Uncollected slots) (hρ : Agrees ρ slots bound) :
    ∀ (value : FutureValue F) (v : F.ImplValContainer), value.Below bound →
      futureToImplVal slots value = .value v → value.resolve ρ = v
  | .current _ _ _, v, _, h => by
    cases h
    rfl
  | .future index, v, hbelow, h => by
    have hlt := hbelow index (Finset.mem_singleton_self index)
    unfold futureToImplVal Outcome.get at h
    cases hslot : slots[index]? with
    | none => simp [hslot] at h
    | some slot =>
      cases slot with
      | current label value isException =>
        simp only [hslot, Outcome.value_bind, Outcome.value.injEq] at h
        exact (hρ index hlt label value isException hslot).trans h
      | future => simp [hslot] at h
      | garbageCollected label => exact absurd hslot (hgc index label)
  | .tuple args, v, hbelow, h => by
    unfold futureToImplVal at h
    cases hargs : tupleArgsToImplVals slots args with
    | value vs =>
      simp only [hargs, Outcome.map_value, Outcome.value.injEq] at h
      rw [FutureValue.resolve, resolveTuple_eq_of_tupleArgsToImplVals hgc hρ args vs hbelow hargs, h]
    | null => simp [hargs] at h
    | fails => simp [hargs] at h

theorem resolveTuple_eq_of_tupleArgsToImplVals (hgc : Uncollected slots) (hρ : Agrees ρ slots bound) : ∀ args vs,
      (∀ i ∈ dependentSlotIndicesOfTuple args, i < bound) → tupleArgsToImplVals slots args = .value vs →
        resolveTuple ρ args = vs
  | [], vs, _, h => by
    cases h
    rfl
  | .normal _ arg :: args, vs, hbelow, h | .tupleCall arg :: args, vs, hbelow, h => by
    simp only [tupleArgsToImplVals, Outcome.bind_eq_value, Outcome.pure_eq] at h
    obtain ⟨v, hv, vs', hvs, h⟩ := h
    cases h
    rw [resolveTuple, resolve_eq_of_futureToImplVal hgc hρ arg v (fun i hi => hbelow i (mem_union_left _ hi)) hv,
      resolveTuple_eq_of_tupleArgsToImplVals hgc hρ args vs' (fun i hi => hbelow i (mem_union_right _ hi)) hvs]

end

/-- Slots that are known stay as they are. -/
def Extends (slots slots' : List (FutureSlot F)) : Prop :=
  ∀ (i : ℕ) (slot : FutureSlot F), slots[i]? = some slot → slot.isFuture = false → slots'[i]? = some slot

mutual

/-- A future value that is known stays as it is. -/
theorem Extends.futureToImplVal (h : Extends slots slots') :
    ∀ (value : FutureValue F) (v : F.ImplValContainer), futureToImplVal slots value = .value v →
      futureToImplVal slots' value = .value v
  | .current _ _ _, v, hv => hv
  | .future index, v, hv => by
    unfold ControlFlow.futureToImplVal Outcome.get at hv ⊢
    cases hslot : slots[index]? with
    | none => simp [hslot] at hv
    | some slot =>
      cases slot with
      | future => simp [hslot] at hv
      | current label | garbageCollected label => rwa [h index _ hslot rfl, ← hslot]
  | .tuple args, v, hv => by
    unfold ControlFlow.futureToImplVal at hv ⊢
    cases hargs : ControlFlow.tupleArgsToImplVals slots args with
    | value vs => rw [h.tupleArgsToImplVals args vs hargs, ← hargs, hv]
    | null => simp [hargs] at hv
    | fails => simp [hargs] at hv

theorem Extends.tupleArgsToImplVals (h : Extends slots slots') :
    ∀ (args : List (TupleArg F.Symbol (FutureValue F))) (vs : List (TupleArg F.Symbol F.ImplValContainer)),
      tupleArgsToImplVals slots args = .value vs → tupleArgsToImplVals slots' args = .value vs
  | [], vs, hvs => hvs
  | .normal _ arg :: args, vs, hvs | .tupleCall arg :: args, vs, hvs => by
    simp only [ControlFlow.tupleArgsToImplVals, Outcome.bind_eq_value, Outcome.pure_eq] at hvs
    obtain ⟨v, hv, vs', hvs, he⟩ := hvs
    cases he
    simp [ControlFlow.tupleArgsToImplVals, h.futureToImplVal arg v hv, h.tupleArgsToImplVals args vs' hvs]

end

variable {vs : List F.ImplValContainer}

theorem Extends.futureValuesToImplVals (h : Extends slots slots') {values : List (FutureValue F)}
    (hvs : futureValuesToImplVals slots values = .value vs) :
    futureValuesToImplVals slots' values = .value vs :=
  Outcome.mapM_eq_value_iff.2 ((Outcome.mapM_eq_value_iff.1 hvs).imp fun value v => h.futureToImplVal value v)

/-- What future values all of whose slots are known are known to be. -/
theorem futureValuesToImplVals_eq_resolve (hknown : Known slots bound) (hρ : Agrees ρ slots bound)
    {values : List (FutureValue F)} (h : ∀ value ∈ values, value.Below bound) :
    futureValuesToImplVals slots values = .value (values.map (FutureValue.resolve ρ)) :=
  Outcome.mapM_eq_value fun value hv => futureToImplVal_eq_resolve hknown hρ value (h value hv)

theorem resolve_eq_of_futureValuesToImplVals (hgc : Uncollected slots) (hρ : Agrees ρ slots bound)
    {values : List (FutureValue F)} (hbelow : ∀ value ∈ values, value.Below bound)
    (h : futureValuesToImplVals slots values = .value vs) : values.map (FutureValue.resolve ρ) = vs := by
  have hall := Outcome.mapM_eq_value_iff.1 h
  induction hall with
  | nil => rfl
  | @cons value v values vs hv hrest ih =>
    rw [List.map_cons, resolve_eq_of_futureToImplVal hgc hρ value v (hbelow value (.head _)) hv,
      ih (fun value' hv' => hbelow value' (.tail _ hv')) (Outcome.mapM_eq_value_iff.2 hrest)]

/-- The argument of a continuation comes to what it is for the values that the node's values come to. -/
theorem resolve_controlFlowContinuationArgToFutureValue
    (r : Option (FutureValue F)) (info : Option (TupleExpandInfo F)) :
    FutureValue.resolve ρ <$> controlFlowContinuationArgToFutureValue arg values r info =
      controlFlowContinuationArgAndValuesToImplVal arg (values.map (FutureValue.resolve ρ))
        (r.map (FutureValue.resolve ρ)) info :=
  arg.map_evaluate (fun _ => rfl) (fun args => by rw [FutureValue.resolve, resolveTuple_eq]) values r info

theorem resolve_controlFlowContinuationArgsToFutureValues
    (r : Option (FutureValue F)) (info : Option (TupleExpandInfo F)) :
    map (FutureValue.resolve ρ) <$> controlFlowContinuationArgsToFutureValues args values r info =
      controlFlowContinuationArgsAndValuesToImplvals args (values.map (FutureValue.resolve ρ))
        (r.map (FutureValue.resolve ρ)) info := by
  unfold controlFlowContinuationArgsToFutureValues controlFlowContinuationArgsAndValuesToImplvals
  rw [Outcome.map_mapM]
  simp only [resolve_controlFlowContinuationArgToFutureValue]

/-! ## The slots that a future value depends on -/

variable {values} {result : Option (FutureValue F)} {info : Option (TupleExpandInfo F)}

mutual

/-- The argument of a continuation depends on no slot that the node's values do not depend on. -/
theorem ControlFlowContinuationArg.below_evaluate (hvalues : ∀ value ∈ values, value.Below bound)
    (hresult : ∀ value ∈ result, value.Below bound) : ∀ (arg : ControlFlowContinuationArg F) (value : FutureValue F),
      arg.evaluate (fun value => .current value false none) .tuple values result info = .value value → value.Below bound
  | .arg (.arg index), value, h => by
    unfold ControlFlowContinuationArg.evaluate Outcome.get at h
    cases hget : values[index]? with
    | none => simp [hget] at h
    | some value' =>
      simp only [hget, Outcome.value.injEq] at h
      exact h ▸ hvalues value' (mem_of_getElem? hget)
  | .arg (.constant c), value, h => by
    cases h
    simp [FutureValue.Below, FutureValue.dependentSlotIndices]
  | .result, value, h => by
    cases result with
    | none => cases h
    | some value' =>
      cases h
      exact hresult value rfl
  | .tupleElement index, value, h => by
    simp only [ControlFlowContinuationArg.evaluate, Outcome.bind_eq_value, Outcome.pure_eq] at h
    obtain ⟨_, -, _, -, h⟩ := h
    cases h
    simp [FutureValue.Below, FutureValue.dependentSlotIndices]
  | .tupleRemainingElements, value, h => by
    simp only [ControlFlowContinuationArg.evaluate, Outcome.bind_eq_value, Outcome.pure_eq] at h
    obtain ⟨_, -, h⟩ := h
    cases h
    simp [FutureValue.Below, FutureValue.dependentSlotIndices]
  | .makeTuple args, value, h => by
    unfold ControlFlowContinuationArg.evaluate at h
    cases hargs : evaluateTupleArgs (fun value => .current value false none) .tuple values result info args with
    | value vs =>
      simp only [hargs, Outcome.map_value, Outcome.value.injEq] at h
      exact h ▸ below_evaluateTupleArgs hvalues hresult args vs hargs
    | null => simp [hargs] at h
    | fails => simp [hargs] at h

/-- So do the elements of a tuple. -/
theorem below_evaluateTupleArgs (hvalues : ∀ value ∈ values, value.Below bound)
    (hresult : ∀ value ∈ result, value.Below bound) :
    ∀ (args : List (TupleArg F.Symbol (ControlFlowContinuationArg F))) (vs : List (TupleArg F.Symbol (FutureValue F))),
      evaluateTupleArgs (fun value => .current value false none) .tuple values result info args = .value vs →
        ∀ i ∈ dependentSlotIndicesOfTuple vs, i < bound
  | [], vs, h => by
    cases h
    simp [dependentSlotIndicesOfTuple]
  | .normal _ arg :: args, vs, h | .tupleCall arg :: args, vs, h => by
    simp only [evaluateTupleArgs, Outcome.bind_eq_value, Outcome.pure_eq] at h
    obtain ⟨v, hv, vs', hvs, h⟩ := h
    cases h
    intro i hi
    rcases mem_union.1 hi with hi | hi
    · exact arg.below_evaluate hvalues hresult v hv i hi
    · exact below_evaluateTupleArgs hvalues hresult args vs' hvs i hi

end

theorem below_controlFlowContinuationArgsToFutureValues (hvalues : ∀ value ∈ values, value.Below bound)
    (hresult : ∀ value ∈ result, value.Below bound) {args : List (ControlFlowContinuationArg F)}
    {values' : List (FutureValue F)}
    (h : controlFlowContinuationArgsToFutureValues args values result info = .value values') :
    ∀ value ∈ values', value.Below bound := by
  intro value hv
  obtain ⟨arg, -, harg⟩ := Outcome.exists_of_mapM_eq_value h value hv
  exact arg.below_evaluate hvalues hresult value harg

theorem below_applyArgToFutureValue (hvalues : ∀ v ∈ values, v.Below bound) {arg : ControlFlowArg F}
    {v : FutureValue F} (h : applyArgToFutureValue values arg = .value v) : v.Below bound := by
  cases arg with
  | arg index =>
    unfold applyArgToFutureValue Outcome.get at h
    cases hget : values[index]? with
    | none => simp [hget] at h
    | some value' =>
      simp only [hget, Outcome.value.injEq] at h
      exact h ▸ hvalues value' (mem_of_getElem? hget)
  | constant c =>
    cases h
    simp [FutureValue.Below, FutureValue.dependentSlotIndices]

end ControlFlow
