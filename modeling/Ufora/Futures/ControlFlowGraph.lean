import Ufora.Lib.Ordered

/-!
# Control flow graphs

`FORA/ControlFlowGraph/ControlFlowGraph.{hppml,cppml}`: nodes with a number of values each, which do one
operation and go on to another node or leave the graph. Values are a parameter, `ForaValues`. The name and the
hash of a graph, and the places in the code that nodes come from, are left out.
-/

open Ordered

namespace ControlFlow

/-- The values of FORA, and what the code asks of them. -/
structure ForaValues where
  Symbol : Type
  CSTValue : Type
  ImplValContainer : Type
  Hash : Type
  /-- `ImplValContainer()`. -/
  nothing : ImplValContainer
  /-- `ImplValContainer(value)` of a constant. -/
  ofCSTValue : CSTValue → ImplValContainer
  isCST : ImplValContainer → Bool
  convertToBoolean : ImplValContainer → Bool
  /-- The comparison with `CSTValue(Symbol("split"))`. -/
  isSplit : CSTValue → Bool
  hash : ImplValContainer → Hash
  hashCSTValue : CSTValue → Hash
  decidableEqHash : DecidableEq Hash
  /-- What `iterateTupleContentsWithNames` goes over, for a value whose type `isTuple`. -/
  tupleContents : ImplValContainer → Option (List (Option Symbol × ImplValContainer))
  createTupleFromIterators : List (Option Symbol × ImplValContainer) → ImplValContainer
  tupleGetSlice : ImplValContainer → ℕ → ℕ → ImplValContainer

instance (F : ForaValues) : DecidableEq F.Hash := F.decidableEqHash

/-- An element of a tuple to be made, or a tuple to be spliced in: the shape of `ControlFlowApplyArg`, of
`ControlFlowContinuationTupleArg` and of `FutureValueTupleArg`. -/
inductive TupleArg (S A : Type)
  | normal (fieldName : Option S) (arg : A)
  | tupleCall (arg : A)

/-- The argument. -/
def TupleArg.arg {S A : Type} : TupleArg S A → A
  | .normal _ arg => arg
  | .tupleCall arg => arg

/-- The same element of another argument. -/
def TupleArg.map {S A B : Type} (f : A → B) : TupleArg S A → TupleArg S B
  | .normal fieldName arg => .normal fieldName (f arg)
  | .tupleCall arg => .tupleCall (f arg)

/-- `ControlFlowArg`. -/
inductive ControlFlowArg (F : ForaValues)
  | arg (index : ℕ)
  | constant (value : F.CSTValue)

/-- `ControlFlowContinuationArg`. -/
inductive ControlFlowContinuationArg (F : ForaValues)
  | arg (arg : ControlFlowArg F)
  | result
  | tupleElement (index : ℕ)
  | tupleRemainingElements
  | makeTuple (arg : List (TupleArg F.Symbol (ControlFlowContinuationArg F)))

/-- `ControlFlowContinuation`. -/
inductive ControlFlowContinuation (F : ForaValues)
  | ret (arg : ControlFlowContinuationArg F) (isException : Bool)
  | node (label : String) (args : List (ControlFlowContinuationArg F))

/-- `ControlFlowTupleContinuation`. -/
structure ControlFlowTupleContinuation (F : ForaValues) where
  arity : ℕ
  arityIsExact : Bool
  continuation : ControlFlowContinuation F

/-- `ControlFlowNodeBody`. -/
inductive ControlFlowNodeBody (F : ForaValues)
  | apply (args : List (TupleArg F.Symbol (ControlFlowArg F))) (normal exception : ControlFlowContinuation F)
  | cached (arg : ControlFlowArg F) (normal exception : ControlFlowContinuation F)
  | branch (arg : ControlFlowArg F) (normal exception : ControlFlowContinuation F)
  | tupleExpand (argIndex : ℕ) (ifMatch : ControlFlowTupleContinuation F) (ifNoMatch : ControlFlowContinuation F)
  | switch (arg : ControlFlowArg F) (branches : List (F.CSTValue × ControlFlowContinuation F))
      (otherwise : ControlFlowContinuation F)
  | jump (continuation : ControlFlowContinuation F)

/-- Whether the body `isApply()` or `isCached()`. -/
def ControlFlowNodeBody.makesSlot {F : ForaValues} : ControlFlowNodeBody F → Bool
  | .apply .. => true
  | .cached .. => true
  | _ => false

/-- `ControlFlowNode`. -/
structure ControlFlowNode (F : ForaValues) where
  argCount : ℕ
  body : ControlFlowNodeBody F

/-- `ControlFlowGraph`. -/
structure ControlFlowGraph (F : ForaValues) where
  entryNode : ControlFlowNode F
  subnodes : StdMap String (ControlFlowNode F)

/-- `operator[]`; it fails where there is no such block. -/
def ControlFlowGraph.get {F : ForaValues} (graph : ControlFlowGraph F) : Option String → Option (ControlFlowNode F)
  | none => some graph.entryNode
  | some label => Finmap.lookup label graph.subnodes

end ControlFlow
