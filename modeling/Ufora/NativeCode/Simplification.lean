import Ufora.Lib.Fuel
import Ufora.NativeCode.Execution

/-!
# Linear and unused blocks

`collapseLinearBlocks` and `removeUnusedBlocks` (`FORA/Native/NativeCodeSimplification.cppml`). A pass is
`none` where an accessor or an `lassert` of it fails or where it uses a block that does not exist.
-/

open Ordered

namespace NativeCodeFlattened

variable {S : Signature}

/-! ## `collapseLinearBlocks` -/

variable (edges : TwoWaySetMap NativeBlockID NativeBlockID)

/-- A round of the loop over the flow graph: `it` are a block and the blocks that it flows to. -/
def addLinear (collapse : Finset NativeBlockID) (it : NativeBlockID × Finset NativeBlockID) : Finset NativeBlockID :=
  if it.2.card = 1 then
    match (ascending it.2).head? with
    | some b =>
      if b ≠ it.1 then
        if (edges.getKeys b).card = 1 ∧ b.isInternal then insert b collapse else collapse
      else collapse
    | none => collapse
  else collapse

/-- The blocks to merge into the block before them: that one flows nowhere else, and nothing else flows to
them. -/
def collapse : Finset NativeBlockID := edges.mKeysToValues.ascendingEntries.foldl (addLinear edges) ∅

/-- `Input::Variable(v)` of this variable. -/
def Input.isVariable (v : NativeVariable) : Input S → Bool
  | .var w => w = v
  | _ => false

/-- The "let" for an argument, unless it has its value already. -/
def addArgument (sourceB : Block S) (p : NativeVariable × Input S) : Block S :=
  if p.2.isVariable p.1 then sourceB
  else Block.writeVariable { sourceB with defs := sourceB.defs ++ [(p.1, .var p.2)] } p.1

/-- The block that a block and the one it jumps to are merged to. -/
def merge (sourceB targB : Block S) : Option (Block S) := do
  let j ← sourceB.term.getJump
  guard (j.args.length = targB.args.length)
  let sourceB := (targB.args.zip j.args).foldl addArgument { sourceB with term := targB.term }
  return (ascending j.dumpToSlots).foldl Block.writeVariable { sourceB with defs := sourceB.defs ++ targB.defs }

/-- A round of the loop over the blocks to merge. -/
def collapseBlock (state : Blocks S × TwoWaySetMap NativeBlockID NativeBlockID) (targID : NativeBlockID) :
    Option (Blocks S × TwoWaySetMap NativeBlockID NativeBlockID) := do
  let (outBlocks, edges) := state
  let sourceID ← (ascending (edges.getKeys targID)).head?
  let merged ← merge (← Finmap.lookup sourceID outBlocks) (← Finmap.lookup targID outBlocks)
  let outs := edges.getValues targID
  return ((outBlocks.insert sourceID merged).erase targID,
    ((edges.update sourceID outs).dropKey targID).dropValue targID)

/-- `collapseLinearBlocks`. -/
def collapseLinearBlocks (outBlocks : Blocks S) : Option (Blocks S) := do
  let vis := BlockFlowVisitor.visit outBlocks
  return (← (ascending (collapse vis.edges)).foldlM collapseBlock (outBlocks, vis.edges)).1

/-! ## `removeUnusedBlocks` -/

/-- The two sets of the loop. -/
structure Search where
  reachable : Finset NativeBlockID
  toCheck : Finset NativeBlockID

/-- A round of the loop, for the block `id` that `pop` takes from `toCheck`. -/
def Search.visitBlock (vis : BlockFlowVisitor) (s : Search) (id : NativeBlockID) : Search :=
  let reachable := insert id s.reachable
  let toCheck := s.toCheck.erase id
  let toCheck := (ascending (vis.edges.getValues id)).foldl
    (fun toCheck b => if b ∉ reachable then insert b toCheck else toCheck) toCheck
  let toCheck := (ascending (vis.continuationEdges.getValues id)).foldl
    (fun toCheck b => if b ∉ reachable then insert b toCheck else toCheck) toCheck
  { reachable, toCheck }

/-- The loop, for a bounded number of rounds. -/
def Search.run (vis : BlockFlowVisitor) : ℕ → Search → Option Search
  | 0, _ => none
  | limit + 1, s =>
    match (ascending s.toCheck).head? with
    | none => some s
    | some id => Search.run vis limit (s.visitBlock vis id)

/-- The loop that drops the other blocks. -/
def keepReachable (reachable : Finset NativeBlockID) (outBlocks : Blocks S) : Blocks S :=
  (ascending outBlocks.keys).foldl
    (fun outBlocks id => if id ∉ reachable then outBlocks.erase id else outBlocks) outBlocks

/-- `removeUnusedBlocks`. -/
def removeUnusedBlocks (limit : ℕ) (outBlocks : Blocks S) : Option (Blocks S) := do
  let vis := BlockFlowVisitor.visit outBlocks
  let external := outBlocks.keys.filter fun id => ¬ id.isInternal
  let found ← Search.run vis limit { reachable := ∅, toCheck := external }
  return keepReachable found.reachable outBlocks

/-! ## What the passes are for -/

/-- The variables that a block defines. -/
def Block.defined (block : Block S) : List NativeVariable := block.args ++ block.defs.map Prod.fst

/-- Every jump, branch and continuation has a block to go to, with matching arguments. -/
structure TargetsPresent (blocks : Blocks S) : Prop where
  jumps : ∀ id block, Finmap.lookup id blocks = some block → ∀ j ∈ block.term.jumpPoints,
    ∃ target, Finmap.lookup j.block blocks = some target ∧ j.args.length = target.args.length
  conts : ∀ id block, Finmap.lookup id blocks = some block → ∀ c ∈ block.conts,
    ∃ target, Finmap.lookup c.block blocks = some target ∧ target.args.length = 1

/-- No variable is defined twice. -/
structure DefinedOnce (blocks : Blocks S) : Prop where
  within : ∀ id block, Finmap.lookup id blocks = some block → block.defined.Nodup
  across : ∀ id block id' block', Finmap.lookup id blocks = some block → Finmap.lookup id' blocks = some block' →
    id ≠ id' → ∀ v ∈ block.defined, v ∉ block'.defined

/-- The code that the passes are given. -/
structure WellFormed (blocks : Blocks S) : Prop where
  definedOnce : DefinedOnce blocks
  targetsPresent : TargetsPresent blocks

/-- A result that has all its targets and does what the code did before. -/
structure Simplifies (blocks blocks' : Blocks S) : Prop where
  targetsPresent : TargetsPresent blocks'
  preserves : Preserves blocks blocks'

end NativeCodeFlattened
