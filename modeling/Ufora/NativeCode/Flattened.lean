import Mathlib.Data.Prod.Lex
import Ufora.Containers.TwoWaySetMap

/-!
# Flattened native code

`NativeCodeFlattened` (`FORA/Native/NativeCodeFlattened.{hppml,cppml}`): blocks of definitions that end
in a terminator. The types, constants, opcodes and other labels that are only copied are parameters, a
`Signature`; frequencies and the types of variables, which nothing here reads, are left out. Expressions
and terminators are generic in their inputs, so that what they are once their inputs are known has the
same shape.
-/

open Ordered List TwoWaySetMap LinearOrder

/-- `NativeBlockID`. -/
structure NativeBlockID where
  isInternal : Bool
  index : ℕ

namespace NativeBlockID

/-- The tuple that the comparison operators of `NativeBlockID` compare. -/
def fields (id : NativeBlockID) : Bool ×ₗ ℕ := toLex (id.isInternal, id.index)

theorem fields_injective : Function.Injective fields := by
  rintro ⟨a, b⟩ ⟨a', b'⟩ h
  cases h
  rfl

instance : LinearOrder NativeBlockID := lift' fields fields_injective

end NativeBlockID

/-- `NativeVariable`: variables are compared by `varID`. -/
structure NativeVariable where
  varID : ℕ

namespace NativeVariable

theorem varID_injective : Function.Injective varID := by
  rintro ⟨a⟩ ⟨b⟩ h
  cases h
  rfl

instance : LinearOrder NativeVariable := lift' varID varID_injective

end NativeVariable

namespace NativeCodeFlattened

/-- The labels of native code that nothing here looks into. -/
structure Signature where
  NativeType : Type
  NativeConstant : Type
  NativeBinaryOpcode : Type
  NativeUnaryOpcode : Type
  NativeLibraryFunctionTarget : Type
  NativeContinuationMetadataInstruction : Type
  NativeIndividualContinuationMetadata : Type
  /-- `CPPMLOpaqueHandle<TypedFora::Type>`. -/
  Layout : Type

/-- `Input`. -/
inductive Input (S : Signature)
  | constant (c : S.NativeConstant)
  | zero (t : S.NativeType)
  | var (v : NativeVariable)
  | returnContinuation (indexAndTypePairs : List (ℕ × S.NativeType))

/-- `CompositeInput`. -/
inductive CompositeInput (I : Type)
  | leaf (i : I)
  | node (subs : List (CompositeInput I))
  | valueExtract (args : List ℕ) (sub : CompositeInput I)

/-- `VarMetadata`. -/
structure VarMetadata (S : Signature) (I : Type) where
  dataVar : CompositeInput I
  layout : Option S.Layout

/-- `Metadata`. -/
structure Metadata (S : Signature) (I : Type) where
  instruction : S.NativeContinuationMetadataInstruction
  vars : List (VarMetadata S I)

/-- `JumpPoint`; `VariablesToDump` is the set of its variables. -/
structure JumpPoint (I : Type) where
  block : NativeBlockID
  args : List I
  dumpToSlots : Finset NativeVariable

/-- `Cont`. -/
structure Cont (S : Signature) where
  result : S.NativeType
  block : NativeBlockID

/-- `Expression`. -/
inductive Expression (S : Signature) (I : Type)
  | var (c : I)
  | createComposite (subs : List I)
  | load (v : I) (isVolatile : Bool)
  | alloc (t : S.NativeType) (count : ℕ) (forceInitialize : Bool)
  | store (address valueToStore : I)
  | selector (condition ifTrue ifFalse : I)
  | binaryOp (opcode : S.NativeBinaryOpcode) (lhs rhs : I)
  | unaryOp (opcode : S.NativeUnaryOpcode) (elt : I)
  | cast (dest : S.NativeType) (source : I) (forceBitcast : Bool)
  | elementAddress (element : List I) (source : I)
  | valueExtract (args : List ℕ) (source : I)
  | callLibraryFunction (name : S.NativeLibraryFunctionTarget) (retType : S.NativeType) (args : List I)
  | continuations (continuation : List (Cont S)) (metaData : List (Metadata S I))
      (contMetas : List S.NativeIndividualContinuationMetadata)

/-- `Term`. -/
inductive Term (S : Signature) (I : Type)
  | jump (target : JumpPoint I)
  | branch (v : I) (ifTrue ifFalse : JumpPoint I)
  | halt (reason : String)
  | call (targetName : String) (blockID : ℕ) (continuation : List (Cont S))
      (contMetas : List S.NativeIndividualContinuationMetadata) (metaData : List (Metadata S I))
      (args : List I) (dumpToSlots : Finset NativeVariable)
  | transfer (targetName : String) (blockID : ℕ) (continuations : List (ℕ × S.NativeType)) (args : List I)
  | callGeneric (targetName : I) (args : List I) (dumpToSlots : Finset NativeVariable)
      (destroyLocalFrame isInternal : Bool)
  | follow (cont result : I) (dumpToSlots : Finset NativeVariable) (indexInContinuation : ℤ)
      (destroyLocalFrame : Bool)
  | exit (index : ℕ) (value : I)
  | interruptOrKickCheck (ifDoingInterrupt ifPassing : JumpPoint I)

/-- `Block`. -/
structure Block (S : Signature) where
  args : List NativeVariable
  defs : List (NativeVariable × Expression S (Input S))
  liveOnInput : Finset NativeVariable
  term : Term S (Input S)

instance {S : Signature} : Inhabited (Block S) := ⟨⟨[], [], ∅, .halt ""⟩⟩

/-- The blocks of a function. -/
abbrev Blocks (S : Signature) := StdMap NativeBlockID (Block S)

variable {S : Signature} {I : Type}

/-! ## What a block refers to -/

/-- The jump points of a terminator. -/
def Term.jumpPoints : Term S I → List (JumpPoint I)
  | .jump target => [target]
  | .branch _ ifTrue ifFalse => [ifTrue, ifFalse]
  | .interruptOrKickCheck ifDoingInterrupt ifPassing => [ifDoingInterrupt, ifPassing]
  | _ => []

def Term.isInterruptOrKickCheck : Term S I → Bool
  | .interruptOrKickCheck .. => true
  | _ => false

/-- `getJump().target()`; it fails where the terminator is another one. -/
def Term.getJump : Term S I → Option (JumpPoint I)
  | .jump target => some target
  | _ => none

/-- The continuations of a terminator. -/
def Term.conts : Term S I → List (Cont S)
  | .call _ _ continuation _ _ _ _ => continuation
  | _ => []

/-- The continuations that a definition makes. -/
def Expression.conts : Expression S I → List (Cont S)
  | .continuations continuation _ _ => continuation
  | _ => []

def Block.conts (block : Block S) : List (Cont S) := block.defs.flatMap (fun d => d.2.conts) ++ block.term.conts

/-! ## The variables that a terminator dumps to slots -/

def JumpPoint.mapDump (f : Finset NativeVariable → Finset NativeVariable) (j : JumpPoint I) : JumpPoint I :=
  { j with dumpToSlots := f j.dumpToSlots }

/-- Changes the variables to dump, as `dontWriteAnyVariables`, `dontWriteVariable` and `writeVariable` do. -/
def Term.mapDump (f : Finset NativeVariable → Finset NativeVariable) : Term S I → Term S I
  | .branch v ifTrue ifFalse => .branch v (ifTrue.mapDump f) (ifFalse.mapDump f)
  | .jump target => .jump (target.mapDump f)
  | .call targetName blockID continuation contMetas metaData args dumpToSlots =>
    .call targetName blockID continuation contMetas metaData args (f dumpToSlots)
  | .callGeneric targetName args dumpToSlots destroyLocalFrame isInternal =>
    .callGeneric targetName args (f dumpToSlots) destroyLocalFrame isInternal
  | .follow cont result dumpToSlots indexInContinuation destroyLocalFrame =>
    .follow cont result (f dumpToSlots) indexInContinuation destroyLocalFrame
  | term => term

/-- `dontWriteAnyVariables`, of the terminator. -/
def Term.dontWriteAnyVariables (term : Term S I) : Term S I := term.mapDump fun _ => ∅

/-- `writeVariable`. -/
def Block.writeVariable (block : Block S) (v : NativeVariable) : Block S :=
  { block with term := block.term.mapDump (insert v) }

section
variable (f g : Finset NativeVariable → Finset NativeVariable) (term : Term S I)

@[simp] theorem Term.dontWriteAnyVariables_mapDump :
    (term.mapDump f).dontWriteAnyVariables = term.dontWriteAnyVariables := by
  cases term <;> rfl

@[simp] theorem Term.conts_mapDump : (term.mapDump f).conts = term.conts := by
  cases term <;> rfl

/-- Where a terminator may jump to and with what. -/
def Term.jumps (term : Term S I) : List (NativeBlockID × List I) := term.jumpPoints.map fun j => (j.block, j.args)

@[simp] theorem Term.jumps_mapDump : (term.mapDump f).jumps = term.jumps := by
  cases term <;> rfl

theorem Term.getJump_mapDump : (term.mapDump f).getJump = term.getJump.map (JumpPoint.mapDump f) := by
  cases term <;> rfl

end

/-! ## The flow between blocks -/

/-- `BlockFlowVisitor`. -/
structure BlockFlowVisitor where
  edges : TwoWaySetMap NativeBlockID NativeBlockID := ∅
  continuationEdges : TwoWaySetMap NativeBlockID NativeBlockID := ∅
  interrupts : Finset NativeBlockID := ∅

namespace BlockFlowVisitor

/-- What the visitor does for one block: `cur` is the block it is in. -/
def processBlock (vis : BlockFlowVisitor) (cur : NativeBlockID) (block : Block S) : BlockFlowVisitor :=
  { edges := block.term.jumpPoints.foldl (fun edges j => edges.insert cur j.block) vis.edges
    continuationEdges := block.conts.foldl (fun edges c => edges.insert cur c.block) vis.continuationEdges
    interrupts := if block.term.isInterruptOrKickCheck then insert cur vis.interrupts else vis.interrupts }

/-- `visit(blocks, vis)`. -/
def visit (blocks : Blocks S) : BlockFlowVisitor :=
  blocks.ascendingEntries.foldl (fun vis entry => vis.processBlock entry.1 entry.2) {}

theorem contains_foldl_insert {α : Type*} (tgt : α → NativeBlockID) (l : List α)
    (m : TwoWaySetMap NativeBlockID NativeBlockID) (cur a b : NativeBlockID) :
    (l.foldl (fun m x => m.insert cur (tgt x)) m).contains a b ↔
      m.contains a b ∨ a = cur ∧ ∃ x ∈ l, tgt x = b := by
  induction l generalizing m with
  | nil => simp
  | cons x l ih =>
    rw [foldl_cons, ih, TwoWaySetMap.contains_insert, exists_mem_cons_iff]
    grind

theorem visit_contains (blocks : Blocks S) (a b : NativeBlockID) : ((visit blocks).edges.contains a b ↔
      ∃ block, Finmap.lookup a blocks = some block ∧ ∃ j ∈ block.term.jumpPoints, j.block = b) ∧
    ((visit blocks).continuationEdges.contains a b ↔
      ∃ block, Finmap.lookup a blocks = some block ∧ ∃ c ∈ block.conts, c.block = b) := by
  have hfold : ∀ (l : List (NativeBlockID × Block S)) (vis : BlockFlowVisitor),
      ((l.foldl (fun vis entry => vis.processBlock entry.1 entry.2) vis).edges.contains a b ↔
        vis.edges.contains a b ∨ ∃ block, (a, block) ∈ l ∧ ∃ j ∈ block.term.jumpPoints, j.block = b) ∧
      ((l.foldl (fun vis entry => vis.processBlock entry.1 entry.2) vis).continuationEdges.contains a b ↔
        vis.continuationEdges.contains a b ∨ ∃ block, (a, block) ∈ l ∧ ∃ c ∈ block.conts, c.block = b) := by
    intro l
    induction l with
    | nil => simp
    | cons entry l ih =>
      intro vis
      obtain ⟨id, block⟩ := entry
      rw [foldl_cons, (ih _).1, (ih _).2]
      simp only [processBlock, contains_foldl_insert, mem_cons, Prod.mk.injEq]
      constructor <;> grind
  have hvisit := hfold blocks.ascendingEntries {}
  simp only [StdMap.mem_ascendingEntries] at hvisit
  exact ⟨hvisit.1.trans (or_iff_right contains_empty), hvisit.2.trans (or_iff_right contains_empty)⟩

end BlockFlowVisitor

end NativeCodeFlattened
