import Ufora.Lib.Simulation
import Ufora.NativeCode.Flattened

/-!
# The meaning of flattened native code

A function runs from one of its blocks on: it makes the definitions of the block in order, which may have
effects, and then the terminator goes on to another block or leaves the function. Who was left may come
back to a continuation that was made before, with a result. What memory, other functions and interrupts do
is a parameter, the `Surroundings`; they see everything that the code shows them, and their state stands
for all that can be observed.

A variable has the value of its last definition, wherever it is read. Which variables are live on input or
are dumped to slots says where the compiled code finds this value and does not change it; the sets are
worked out anew before the code is compiled. A variable that has no value yet must not be read.
-/

open Simulation List Finmap Function

namespace NativeCodeFlattened

/-! ## Inputs that are known -/

section
variable {S : Signature} {I V : Type}

mutual

/-- The input with the values of its parts. -/
def CompositeInput.evaluate (f : I → Option V) : CompositeInput I → Option (CompositeInput V)
  | .leaf i => (f i).map .leaf
  | .node subs => (evaluateAll f subs).map .node
  | .valueExtract args sub => (sub.evaluate f).map (.valueExtract args)

def CompositeInput.evaluateAll (f : I → Option V) : List (CompositeInput I) → Option (List (CompositeInput V))
  | [] => some []
  | sub :: subs => do return (← sub.evaluate f) :: (← evaluateAll f subs)

end

def VarMetadata.evaluate (f : I → Option V) (v : VarMetadata S I) : Option (VarMetadata S V) := do
  return { dataVar := ← v.dataVar.evaluate f, layout := v.layout }

def Metadata.evaluate (f : I → Option V) (m : Metadata S I) : Option (Metadata S V) := do
  return { instruction := m.instruction, vars := ← m.vars.mapM (VarMetadata.evaluate f) }

def JumpPoint.evaluate (f : I → Option V) (j : JumpPoint I) : Option (JumpPoint V) := do
  return { block := j.block, args := ← j.args.mapM f, dumpToSlots := j.dumpToSlots }

/-- The expression with the values of its inputs. -/
def Expression.evaluate (f : I → Option V) : Expression S I → Option (Expression S V)
  | .var c => do return .var (← f c)
  | .createComposite subs => do return .createComposite (← subs.mapM f)
  | .load v isVolatile => do return .load (← f v) isVolatile
  | .alloc t count forceInitialize => some (.alloc t count forceInitialize)
  | .store address valueToStore => do return .store (← f address) (← f valueToStore)
  | .selector condition ifTrue ifFalse => do return .selector (← f condition) (← f ifTrue) (← f ifFalse)
  | .binaryOp opcode lhs rhs => do return .binaryOp opcode (← f lhs) (← f rhs)
  | .unaryOp opcode elt => do return .unaryOp opcode (← f elt)
  | .cast dest source forceBitcast => do return .cast dest (← f source) forceBitcast
  | .elementAddress element source => do return .elementAddress (← element.mapM f) (← f source)
  | .valueExtract args source => do return .valueExtract args (← f source)
  | .callLibraryFunction name retType args => do return .callLibraryFunction name retType (← args.mapM f)
  | .continuations continuation metaData contMetas => do
    return .continuations continuation (← metaData.mapM (Metadata.evaluate f)) contMetas

/-- The terminator with the values of its inputs. -/
def Term.evaluate (f : I → Option V) : Term S I → Option (Term S V)
  | .jump target => do return .jump (← target.evaluate f)
  | .branch v ifTrue ifFalse => do return .branch (← f v) (← ifTrue.evaluate f) (← ifFalse.evaluate f)
  | .halt reason => some (.halt reason)
  | .call targetName blockID continuation contMetas metaData args dumpToSlots => do
    return .call targetName blockID continuation contMetas (← metaData.mapM (Metadata.evaluate f)) (← args.mapM f)
      dumpToSlots
  | .transfer targetName blockID continuations args => do
    return .transfer targetName blockID continuations (← args.mapM f)
  | .callGeneric targetName args dumpToSlots destroyLocalFrame isInternal => do
    return .callGeneric (← f targetName) (← args.mapM f) dumpToSlots destroyLocalFrame isInternal
  | .follow cont result dumpToSlots indexInContinuation destroyLocalFrame => do
    return .follow (← f cont) (← f result) dumpToSlots indexInContinuation destroyLocalFrame
  | .exit index value => do return .exit index (← f value)
  | .interruptOrKickCheck ifDoingInterrupt ifPassing => do
    return .interruptOrKickCheck (← ifDoingInterrupt.evaluate f) (← ifPassing.evaluate f)

end

/-! ## Steps -/

variable {S : Signature}

/-- What happens once the function is left: nobody comes back, or somebody follows a continuation. -/
inductive Reply (Value World : Type)
  | gone (world : World)
  | resumed (block : NativeBlockID) (result : Value) (world : World)

/-- What the code runs in. -/
structure Surroundings (S : Signature) where
  Value : Type
  World : Type
  constant : S.NativeConstant → Value
  zero : S.NativeType → Value
  returnContinuation : List (ℕ × S.NativeType) → Value
  isTrue : Value → Bool
  /-- What an expression does and gives, or that it never returns. -/
  perform : Expression S Value → World → Option (Value × World)
  /-- Whether an interrupt is being done. -/
  interrupted : World → Bool × World
  leave : Term S Value → World → Reply Value World

/-- How a run ends. -/
inductive Outcome (M : Surroundings S)
  | left (term : Term S M.Value) (world : M.World)
  | trapped (expression : Expression S M.Value) (world : M.World)

/-- A function that runs: what is left of the block it is in, the values of the variables, and the blocks
of the continuations made so far. -/
structure Config (M : Surroundings S) where
  defs : List (NativeVariable × Expression S (Input S))
  term : Term S (Input S)
  env : NativeVariable → Option M.Value
  offered : List NativeBlockID
  world : M.World

variable (M : Surroundings S)

/-- The value of an input. -/
def read (env : NativeVariable → Option M.Value) : Input S → Option M.Value
  | .constant c => some (M.constant c)
  | .zero t => some (M.zero t)
  | .var v => env v
  | .returnContinuation indexAndTypePairs => some (M.returnContinuation indexAndTypePairs)

/-- Variables that get values. -/
def assign {V : Type} (env : NativeVariable → Option V) (args : List NativeVariable) (values : List V) :
    NativeVariable → Option V :=
  (args.zip values).foldl (fun env p => update env p.1 (some p.2)) env

variable (blocks : Blocks S)

/-- The start of a block; there is none without the block or with another number of arguments. -/
def enter (id : NativeBlockID) (values : List M.Value)
    (env : NativeVariable → Option M.Value) (offered : List NativeBlockID) (world : M.World) :
    Option (Config M) := do
  let block ← lookup id blocks
  guard (block.args.length = values.length)
  return { defs := block.defs, term := block.term.dontWriteAnyVariables, env := assign env block.args values,
           offered, world }

/-- What a configuration does next: a step within its block, the start of a block, or an end. -/
inductive Action (M : Surroundings S)
  | within (c : Config M)
  | start (id : NativeBlockID) (values : List M.Value) (env : NativeVariable → Option M.Value)
      (offered : List NativeBlockID) (world : M.World)
  | done (o : Outcome M)
  | stuck

variable (c : Config M)

/-- The jump to a block. -/
def goto (j : JumpPoint (Input S)) (world : M.World) : Action M :=
  match j.args.mapM (read M c.env) with
  | some values => .start j.block values c.env c.offered world
  | none => .stuck

/-- What an expression does. -/
inductive Computed (M : Surroundings S)
  /-- It has a value, and it made continuations to blocks. -/
  | value (x : M.Value) (made : List NativeBlockID) (world : M.World)
  | trapped (o : Outcome M)
  | stuck

def compute (env : NativeVariable → Option M.Value) (world : M.World) (e : Expression S (Input S)) : Computed M :=
  match e.evaluate (read M env) with
  | none => .stuck
  | some (.var x) => .value x [] world
  | some e' =>
    match M.perform e' world with
    | none => .trapped (.trapped e' world)
    | some (x, world) => .value x (e.conts.map (·.block)) world

/-- The next definition. -/
def define (v : NativeVariable) (e : Expression S (Input S))
    (defs : List (NativeVariable × Expression S (Input S))) : Action M :=
  match compute M c.env c.world e with
  | .value x made world =>
    .within { c with defs, env := update c.env v (some x), offered := c.offered ++ made, world }
  | .trapped o => .done o
  | .stuck => .stuck

/-- A terminator that leaves the function. -/
def depart : Action M :=
  let offered := c.offered ++ c.term.conts.map (·.block)
  match c.term.evaluate (read M c.env) with
  | none => .stuck
  | some term =>
    match M.leave term c.world with
    | .gone world => .done (.left term world)
    | .resumed block result world => if block ∈ offered then .start block [result] c.env offered world else .stuck

/-- The terminator. -/
def finish : Action M :=
  match c.term with
  | .jump target => goto M c target c.world
  | .branch v ifTrue ifFalse =>
    match read M c.env v with
    | none => .stuck
    | some x => goto M c (if M.isTrue x then ifTrue else ifFalse) c.world
  | .interruptOrKickCheck ifDoingInterrupt ifPassing =>
    let (interrupted, world) := M.interrupted c.world
    goto M c (if interrupted then ifDoingInterrupt else ifPassing) world
  | _ => depart M c

/-- What a configuration does: the next definition or the terminator. -/
def act : Action M :=
  match c.defs with
  | (v, e) :: defs => define M c v e defs
  | [] => finish M c

/-- A step. -/
def step (c : Config M) : Next (Config M) (Outcome M) :=
  match act M c with
  | .within c => .next c
  | .start id values env offered world =>
    match enter M blocks id values env offered world with
    | some c => .next c
    | none => .stuck
  | .done o => .done o
  | .stuck => .stuck

/-- The machine that runs a function. -/
def machine : Machine (Config M) (Outcome M) M.World where
  step := step M blocks
  shows := Config.world

/-- Executions from the external blocks are the same: whatever the surroundings and the arguments, as long
as no variable is read that has no value, the effects are the same, in the same order, and so is the
outcome. -/
def Preserves (blocks' : Blocks S) : Prop := ∀ M id, id.isInternal = false → ∀ values world c,
      enter M blocks id values (fun _ => none) [] world = some c →
        ∃ c', enter M blocks' id values (fun _ => none) [] world = some c' ∧
          Alike (machine M blocks) (machine M blocks') c c'

section
variable {M} {c c' : Config M} {blocks} {id : NativeBlockID} {values : List M.Value}
  {env : NativeVariable → Option M.Value} {offered : List NativeBlockID} {world : M.World}

theorem enter_eq_some : enter M blocks id values env offered world = some c ↔
    ∃ block, lookup id blocks = some block ∧ block.args.length = values.length ∧
      c = ⟨block.defs, block.term.dontWriteAnyVariables, assign env block.args values, offered, world⟩ := by
  unfold enter
  cases lookup id blocks with
  | none => simp
  | some block =>
    simp only [Option.bind_eq_bind, Option.bind_some, Option.some.injEq, exists_eq_left', guard]
    split
    · next hlen => simp [hlen, eq_comm]
    · next hlen => simp [hlen]

theorem step_eq_next : step M blocks c = .next c' ↔ act M c = .within c' ∨
    ∃ id values env offered world, act M c = .start id values env offered world ∧
      enter M blocks id values env offered world = some c' := by
  unfold step
  cases act M c with
  | within d => simp
  | start id values env offered world => cases h : enter M blocks id values env offered world <;> simp [h]
  | done o => simp
  | stuck => simp

theorem step_eq_done {o : Outcome M} : step M blocks c = .done o ↔ act M c = .done o := by
  unfold step
  cases act M c with
  | start id values env offered world => cases h : enter M blocks id values env offered world <;> simp [h]
  | within d => simp
  | done o => simp
  | stuck => simp

theorem assign_of_notMem {V : Type} {args : List NativeVariable} {v : NativeVariable} (hv : v ∉ args) :
    ∀ (env : NativeVariable → Option V) (values : List V), assign env args values v = env v := by
  induction args with
  | nil => exact fun _ _ => rfl
  | cons a args ih =>
    intro env values
    cases values with
    | nil => rfl
    | cons x values =>
      rw [assign, zip_cons_cons, foldl_cons]
      refine (ih (fun h => hv (.tail _ h)) _ _).trans (update_of_ne ?_ _ _)
      rintro rfl
      exact hv (.head _)

theorem goto_eq_start {j : JumpPoint (Input S)} {w : M.World} (h : goto M c j w = .start id values env offered world) :
    id = j.block ∧ j.args.mapM (read M c.env) = some values ∧ env = c.env ∧ offered = c.offered ∧ world = w := by
  unfold goto at h
  split at h
  · next hvalues =>
    cases h
    exact ⟨rfl, hvalues, rfl, rfl, rfl⟩
  · cases h

theorem goto_ne_done (c : Config M) (j : JumpPoint (Input S)) (w : M.World) (o : Outcome M) :
    goto M c j w ≠ .done o := by
  unfold goto
  split <;> exact nofun

/-- Where the next block comes from: a jump of the terminator, or a continuation made before. -/
theorem act_eq_start (h : act M c = .start id values env offered world) : env = c.env ∧ c.defs = [] ∧
    ((∃ j ∈ c.term.jumpPoints, id = j.block ∧ j.args.mapM (read M c.env) = some values ∧ offered = c.offered) ∨
      id ∈ offered ∧ offered = c.offered ++ c.term.conts.map (·.block)) := by
  unfold act at h
  cases hdefs : c.defs with
  | cons d defs =>
    rw [hdefs] at h
    replace h : define M c d.1 d.2 defs = .start id values env offered world := h
    unfold define at h
    split at h <;> cases h
  | nil =>
    rw [hdefs] at h
    replace h : finish M c = .start id values env offered world := h
    have hdepart : depart M c = .start id values env offered world → env = c.env ∧
        id ∈ offered ∧ offered = c.offered ++ c.term.conts.map (·.block) := by
      intro h
      unfold depart at h
      simp only at h
      split at h
      · cases h
      · split at h
        · cases h
        · split at h
          · next hmem =>
            cases h
            exact ⟨rfl, hmem, rfl⟩
          · cases h
    unfold finish at h
    split at h
    · next target hterm =>
      obtain ⟨rfl, hvalues, rfl, rfl, -⟩ := goto_eq_start h
      exact ⟨rfl, rfl, .inl ⟨target, by simp [hterm, Term.jumpPoints], rfl, hvalues, rfl⟩⟩
    · next v ifTrue ifFalse hterm =>
      split at h
      · cases h
      · obtain ⟨rfl, hvalues, rfl, rfl, -⟩ := goto_eq_start h
        refine ⟨rfl, rfl, .inl ⟨_, ?_, rfl, hvalues, rfl⟩⟩
        rw [hterm]
        split <;> simp [Term.jumpPoints]
    · next ifDoing ifPassing hterm =>
      obtain ⟨rfl, hvalues, rfl, rfl, -⟩ := goto_eq_start h
      refine ⟨rfl, rfl, .inl ⟨_, ?_, rfl, hvalues, rfl⟩⟩
      rw [hterm]
      split <;> simp [Term.jumpPoints]
    · obtain ⟨rfl, hmem, hoffered⟩ := hdepart h
      exact ⟨rfl, rfl, .inr ⟨hmem, hoffered⟩⟩

theorem goto_ne_within (c c' : Config M) (j : JumpPoint (Input S)) (w : M.World) : goto M c j w ≠ .within c' := by
  unfold goto
  split <;> exact nofun

/-- A terminator is not within its block. -/
theorem finish_ne_within (c c' : Config M) : finish M c ≠ .within c' := by
  have hdepart : depart M c ≠ .within c' := by
    unfold depart
    simp only
    split
    · exact nofun
    · split
      · exact nofun
      · split <;> exact nofun
  unfold finish
  split
  · exact goto_ne_within c c' _ _
  · split
    · exact nofun
    · exact goto_ne_within c c' _ _
  · exact goto_ne_within c c' _ _
  · exact hdepart

theorem compute_eq_value {e : Expression S (Input S)} {x : M.Value} {made : List NativeBlockID} {w : M.World}
    (h : compute M env world e = .value x made w) : ∀ b ∈ made, ∃ y ∈ e.conts, y.block = b := by
  unfold compute at h
  split at h
  · cases h
  · cases h
    exact nofun
  · split at h
    · cases h
    · cases h
      exact fun b hb => mem_map.1 hb

/-- A step within a block makes its next definition. -/
theorem act_eq_within (h : act M c = .within c') : ∃ v e, c.defs = (v, e) :: c'.defs ∧ c'.term = c.term ∧
    (∃ x, c'.env = update c.env v (some x)) ∧
    ∀ b ∈ c'.offered, b ∈ c.offered ∨ ∃ y ∈ e.conts, y.block = b := by
  unfold act at h
  cases hdefs : c.defs with
  | nil =>
    rw [hdefs] at h
    exact absurd h (finish_ne_within c c')
  | cons d defs =>
    rw [hdefs] at h
    replace h : define M c d.1 d.2 defs = .within c' := h
    unfold define at h
    split at h
    · next hvalue =>
      cases h
      exact ⟨d.1, d.2, rfl, rfl, ⟨_, rfl⟩, fun b hb => (mem_append.1 hb).imp_right (compute_eq_value hvalue b)⟩
    · cases h
    · cases h

end

theorem Preserves.refl : Preserves blocks blocks := fun _ _ _ _ _ c hc => ⟨c, hc, .refl c⟩

theorem Preserves.trans {blocks blocks' blocks'' : Blocks S} (h : Preserves blocks blocks')
    (h' : Preserves blocks' blocks'') : Preserves blocks blocks'' := by
  intro M id hid values world c hc
  obtain ⟨c', hc', halike⟩ := h M id hid values world c hc
  obtain ⟨c'', hc'', halike'⟩ := h' M id hid values world c' hc'
  exact ⟨c'', hc'', halike.trans halike'⟩

end NativeCodeFlattened
