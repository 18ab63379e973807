import Ufora.Containers.MapWithIndex
import Ufora.Lib.Effect

/-!
# `GraphCycles`

`core/math/GraphCycles.hppml`: a graph whose edges come and go, with its nodes sorted into cycles. Each
cycle has an id, the edges between cycles are held apart, and each cycle has a depth above its
successors. An edge that is added starts a search through the parents of a cycle whose depth changes,
and the search collapses what it takes for a cycle; an edge that is dropped inside a cycle takes the
cycle apart.
-/

open Ordered Effect Finmap

/-- A `GraphCycles<node_type>`. -/
structure GraphCycles (α : Type) [LinearOrder α] where
  mNodes : Finset α := ∅
  mAllCycles : Finset ℤ := ∅
  mEdges : TwoWaySetMap α α := ∅
  mNodeToCycle : MapWithIndex α ℤ := ∅
  mCycleEdges : TwoWaySetMap ℤ ℤ := ∅
  mCycleIndex : ℤ := 0
  mCycleDepth : StdMap ℤ ℤ := ∅

namespace GraphCycles

variable {α : Type} [LinearOrder α]

/-- The assertions that fail. `recursionLimit` stands for a search that does not end. -/
inductive GraphError where
  | sourceIsDest
  | noCycle
  | noDepth (cycle : ℤ)
  | noCycleEdge (parentCycle childCycle : ℤ)
  | cycleEdgeBack (parentCycle childCycle : ℤ)
  | recursionLimit

/-- What a member function calls back, `mOnCycleCreate` and `mOnCycleDestroy`, and the stacks that it
collapses, with the edges between the cycles. -/
inductive CycleEvent where
  | create (cycle : ℤ)
  | destroy (cycle : ℤ)
  | collapse (stack : List ℤ) (mCycleEdges : TwoWaySetMap ℤ ℤ)

/-- A graph and what happened in it. -/
structure Observed (α : Type) [LinearOrder α] where
  graph : GraphCycles α := {}
  events : List CycleEvent := []

/-- A member function. -/
abbrev Action (α : Type) [LinearOrder α] := EStateM GraphError (Observed α)

/-- A change of the graph. -/
def modifyGraph (f : GraphCycles α → GraphCycles α) : Action α Unit := modify fun s => { s with graph := f s.graph }

/-- A call back. -/
def observe (event : CycleEvent) : Action α Unit := modify fun s => { s with events := s.events ++ [event] }

/-- `mNodeToCycle.getValue(node)`. -/
def cycleFor (node : α) : Action α ℤ := do
  match (← get).graph.mNodeToCycle.tryGetValue node with
  | some cycle => return cycle
  | none => throw .noCycle

/-- `mCycleIndex++`, for a new cycle. -/
def createCycle : Action α ℤ := do
  let cycle := (← get).graph.mCycleIndex
  observe (.create cycle)
  modifyGraph fun g =>
    { g with
      mCycleIndex := cycle + 1
      mAllCycles := insert cycle g.mAllCycles }
  return cycle

/-- The edges out of nodes, in the order of nested loops. -/
def edgesFrom (mEdges : TwoWaySetMap α α) (nodes : List α) : List (α × α) :=
  nodes.flatMap fun node => (ascending (mEdges.getValues node)).map fun child => (node, child)

/-- The edges into nodes, in the order of nested loops. -/
def edgesInto (mEdges : TwoWaySetMap α α) (nodes : List α) : List (α × α) :=
  nodes.flatMap fun node => (ascending (mEdges.getKeys node)).map fun parent => (parent, node)

/-! ## Depths -/

/-- `depthForCycle(cycle)`. -/
def depthForCycle (mCycleEdges : TwoWaySetMap ℤ ℤ) (mCycleDepth : StdMap ℤ ℤ) (cycle : ℤ) : Option ℤ :=
  (ascending (mCycleEdges.getValues cycle)).foldlM
    (fun curDepth subcycle => (lookup subcycle mCycleDepth).map fun depth =>
      max curDepth (depth + 1)) 0

/-- What a search writes. -/
structure Search where
  mCycleDepth : StdMap ℤ ℤ
  ioStack : List ℤ

/-- `updateCycleDepth(cycle, ioStack)`. Where the depth is the old one, `cycle` stays on the stack. -/
def updateCycleDepth (mCycleEdges : TwoWaySetMap ℤ ℤ) : ℕ → ℤ → EStateM GraphError Search Bool
  | 0, _ => throw .recursionLimit
  | limit + 1, cycle => do
    let ioStack := (← get).ioStack
    if 1 < ioStack.length ∧ ioStack.head? = ioStack.getLast? then
      return true
    let mCycleDepth := (← get).mCycleDepth
    match depthForCycle mCycleEdges mCycleDepth cycle with
    | none => throw (.noDepth cycle)
    | some newDepth =>
      modify fun s => { s with mCycleDepth := insert cycle newDepth s.mCycleDepth }
      if newDepth = mCycleDepth.get cycle then
        return false
      let found ← (ascending (mCycleEdges.getKeys cycle)).anyM fun parentCycle => do
        modify fun s => { s with ioStack := s.ioStack ++ [parentCycle] }
        updateCycleDepth mCycleEdges limit parentCycle
      if found then
        return true
      modify fun s => { s with ioStack := s.ioStack.dropLast }
      return false

/-- `mAllCycles.erase(cycle)`, with all that is held about the cycle. -/
def destroyCycle (cycle : ℤ) : Action α Unit := do
  modifyGraph fun g => { g with mCycleDepth := erase cycle g.mCycleDepth }
  observe (.destroy cycle)
  modifyGraph fun g =>
    { g with
      mAllCycles := g.mAllCycles.erase cycle
      mCycleEdges := (g.mCycleEdges.dropKey cycle).dropValue cycle }

/-- The body of the loop of `updateCycleDepth(cycle)`: collapses the cycles in the stack into one. -/
def collapse (stack : List ℤ) : Action α ℤ := do
  let g := (← get).graph
  observe (.collapse stack g.mCycleEdges)
  let nodes := ascending (stack.flatMap fun cycle => ascending (g.mNodeToCycle.getKeys cycle)).toFinset
  stack.forM fun otherCycle => do
    if otherCycle ∈ (← get).graph.mAllCycles then destroyCycle otherCycle
  let cycle ← createCycle
  nodes.forM fun node =>
    modifyGraph fun g => { g with mNodeToCycle := g.mNodeToCycle.set node cycle }
  (edgesFrom g.mEdges nodes).forM fun e => do
    let subcycle ← cycleFor e.2
    if subcycle ≠ cycle then
      modifyGraph fun g => { g with mCycleEdges := g.mCycleEdges.insert cycle subcycle }
  (edgesInto g.mEdges nodes).forM fun e => do
    let parentcycle ← cycleFor e.1
    if parentcycle ≠ cycle then
      modifyGraph fun g => { g with mCycleEdges := g.mCycleEdges.insert parentcycle cycle }
  modifyGraph fun g => { g with mCycleDepth := insert cycle (-1) g.mCycleDepth }
  return cycle

/-- The loop of `updateCycleDepth(cycle)`. -/
def updateCycleDepths : ℕ → ℤ → Action α Unit
  | 0, _ => throw .recursionLimit
  | limit + 1, cycle => do
    let g := (← get).graph
    match (updateCycleDepth g.mCycleEdges (g.mAllCycles.card + 3) cycle).run
        ⟨g.mCycleDepth, [cycle]⟩ with
    | .error e search =>
      modifyGraph fun g => { g with mCycleDepth := search.mCycleDepth }
      throw e
    | .ok found search =>
      modifyGraph fun g => { g with mCycleDepth := search.mCycleDepth }
      if found then
        let cycle ← collapse search.ioStack
        updateCycleDepths limit cycle

/-- `updateCycleDepth(cycle)`. -/
def updateCycle (cycle : ℤ) : Action α Unit := do
  updateCycleDepths ((← get).graph.mAllCycles.card + 1) cycle

/-! ## Edges -/

/-- `ensureNode(node)`. -/
def ensureNode (node : α) : Action α Unit := do
  if node ∉ (← get).graph.mNodes then
    modifyGraph fun g => { g with mNodes := insert node g.mNodes }
    let cycle ← createCycle
    modifyGraph fun g =>
      { g with
        mNodeToCycle := g.mNodeToCycle.set node cycle
        mCycleDepth := insert cycle 0 g.mCycleDepth }

/-- `addEdge(source, dest)`. -/
def addEdge (source dest : α) : Action α Unit := do
  lassert (source ≠ dest) .sourceIsDest
  ensureNode source
  ensureNode dest
  if ¬ (← get).graph.mEdges.contains source dest then
    modifyGraph fun g => { g with mEdges := g.mEdges.insert source dest }
    let sourceCycle ← cycleFor source
    let destCycle ← cycleFor dest
    if sourceCycle ≠ destCycle then
      modifyGraph fun g => { g with mCycleEdges := g.mCycleEdges.insert sourceCycle destCycle }
    updateCycle sourceCycle

/-- What an `int` makes of an `int64_t`. -/
def toInt (cycle : ℤ) : ℤ := cycle.bmod (2 ^ 32)

/-- The loop of `dropEdge` that takes the edges of the nodes of a cycle out of the graph: the edges
that are taken, and those that are left. -/
def takeEdges : List α → TwoWaySetMap α α → List (α × α) × TwoWaySetMap α α
  | [], mEdges => ([], mEdges)
  | n :: cycle, mEdges =>
    let rest := takeEdges cycle ((mEdges.dropValue n).dropKey n)
    (edgesFrom mEdges [n] ++ edgesInto mEdges [n] ++ rest.1, rest.2)

/-- `dropEdge(source, dest)` where both nodes are in one cycle: puts each node in its own cycle again.
The nodes reachable from `source` are never visited, so `dest` is not among them. -/
def splitCycle (cycleIx : ℤ) : Action α Unit := do
  let cycle := ascending ((← get).graph.mNodeToCycle.getKeys cycleIx)
  modifyGraph fun g => { g with mNodeToCycle := g.mNodeToCycle.dropValue cycleIx }
  destroyCycle cycleIx
  cycle.forM fun n => do
    let newCycleIndex ← createCycle
    modifyGraph fun g =>
      { g with
        mNodeToCycle := g.mNodeToCycle.set n newCycleIndex
        mCycleDepth := insert newCycleIndex 0 g.mCycleDepth }
  let (relevantEdges, mEdges) := takeEdges cycle (← get).graph.mEdges
  modifyGraph fun g => { g with mEdges := mEdges }
  relevantEdges.forM fun e => addEdge e.1 e.2

/-- `dropEdge(source, dest)` where the nodes are in different cycles. -/
def dropCycleEdge (parentCycle childCycle : ℤ) : Action α Unit := do
  lassert ((← get).graph.mCycleEdges.contains parentCycle childCycle)
    (.noCycleEdge parentCycle childCycle)
  lassert (¬ (← get).graph.mCycleEdges.contains childCycle parentCycle)
    (.cycleEdgeBack parentCycle childCycle)
  let g := (← get).graph
  let childCycles ← (edgesFrom g.mEdges (ascending (g.mNodeToCycle.getKeys parentCycle))).mapM fun e =>
    cycleFor e.2
  if childCycle ∉ childCycles then
    modifyGraph fun g =>
      { g with
        mCycleDepth := insert childCycle (g.mCycleDepth.get childCycle) g.mCycleDepth
        mCycleEdges := g.mCycleEdges.drop parentCycle childCycle }
    updateCycle parentCycle

/-- `dropEdge(source, dest)`. -/
def dropEdge (source dest : α) : Action α Unit := do
  if (← get).graph.mEdges.contains source dest then
    modifyGraph fun g => { g with mEdges := g.mEdges.drop source dest }
    let sourceCycle ← cycleFor source
    let destCycle ← cycleFor dest
    if sourceCycle = destCycle then
      splitCycle (toInt destCycle)
    else
      dropCycleEdge (toInt sourceCycle) (toInt destCycle)

/-! ## Runs -/

variable (α) in
/-- The calls that change the edges. -/
inductive Op where
  | addEdge (source dest : α) (ne : source ≠ dest)
  | dropEdge (source dest : α)

/-- One call. -/
def Op.call : Op α → Action α Unit
  | .addEdge source dest _ => GraphCycles.addEdge source dest
  | .dropEdge source dest => GraphCycles.dropEdge source dest

/-- What a call leaves, whether it returns or throws. -/
def step (s : Observed α) (op : Op α) : Observed α := exec op.call s

/-- The call returns. -/
def Returns (s : Observed α) (op : Op α) : Prop := (returned op.call s).isSome

end GraphCycles
