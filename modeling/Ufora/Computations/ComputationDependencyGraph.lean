import Ufora.Computations.ComputationPriority
import Ufora.Containers.TwoWaySetMap
import Ufora.Lib.Run

/-!
# `ComputationDependencyGraph`

`cumulus/ComputationDependencyGraph.cpp`: which root computations depend on which, what priorities
the clients ask for, and the priority of every computation that follows. A change marks the roots
whose priority may have changed as dirty; `update` recomputes them, and what depends on them, pass
by pass, and then the splits of the roots that changed.

`update` has two loops whose conditions the passes themselves change. Here each goes round at most
`limit` times, and `none` says that it wanted to go round once more, or that an `lassert` failed.
-/

open Ordered Finmap

namespace Cumulus

/-- `ComputationDependencyGraph`. -/
structure ComputationDependencyGraph where
  mDependencies : TwoWaySetMap ComputationId ComputationId
  mDirtyPriorities : Finset ComputationId
  mDirtySplitPriorities : Finset ComputationId
  mOrphanedLocalSplitComputations : Finset ComputationId
  mOrphanedSplitComputations : Finset ComputationId
  mClientPriorities : StdMap (CumulusClientId × ComputationId) ComputationPriority
  mClientIdToRootComputations : TwoWaySetMap CumulusClientId ComputationId
  mAllPriorities : StdMap ComputationId ComputationPriority
  mRootToRootDependencies : TwoWaySetMap ComputationId ComputationId
  mRootToSplitDependencies : TwoWaySetMap ComputationId ComputationId
  mLocalComputations : Finset ComputationId

namespace ComputationDependencyGraph

/-- `ComputationDependencyGraph()`. -/
def new : ComputationDependencyGraph where
  mDependencies := ∅
  mDirtyPriorities := ∅
  mDirtySplitPriorities := ∅
  mOrphanedLocalSplitComputations := ∅
  mOrphanedSplitComputations := ∅
  mClientPriorities := ∅
  mClientIdToRootComputations := ∅
  mAllPriorities := ∅
  mRootToRootDependencies := ∅
  mRootToSplitDependencies := ∅
  mLocalComputations := ∅

/-! ## Edits -/

variable (g : ComputationDependencyGraph) (inId : ComputationId)

/-- `ensureComputationInList_(inId)`: lists a split under its root. -/
def ensureComputationInList_ : ComputationDependencyGraph :=
  if inId.isRoot then g
  else if g.mRootToSplitDependencies.hasValue inId then g
  else { g with
    mRootToSplitDependencies := g.mRootToSplitDependencies.insert inId.rootComputation inId
    mDirtySplitPriorities := insert inId g.mDirtySplitPriorities }

/-- `setCumulusClientPriority(inId, inClientId, priority)`: a null priority withdraws the one that
the client had. -/
def setCumulusClientPriority
    (inClientId : CumulusClientId) (priority : ComputationPriority) : Option ComputationDependencyGraph :=
  if inId.isRoot then
    let g :=
      if priority.isNull then
        { g with
          mClientIdToRootComputations := g.mClientIdToRootComputations.drop inClientId inId
          mClientPriorities := erase (inClientId, inId) g.mClientPriorities }
      else
        { g with
          mClientIdToRootComputations := g.mClientIdToRootComputations.insert inClientId inId
          mClientPriorities := Finmap.insert (inClientId, inId) priority g.mClientPriorities }
    some { g with
      mDirtyPriorities := insert inId g.mDirtyPriorities }
  else none

/-- `addRootToRootDependency(source, dest)`. -/
def addRootToRootDependency (source dest : ComputationId) : Option ComputationDependencyGraph :=
  if source.isRoot ∧ dest.isRoot then
    if g.mRootToRootDependencies.contains source dest then some g
    else some { g with
      mRootToRootDependencies := g.mRootToRootDependencies.insert source dest
      mDirtyPriorities := insert dest g.mDirtyPriorities }
  else none

/-- `dropCumulusClient(inClientId)`. -/
def dropCumulusClient (inClientId : CumulusClientId) : ComputationDependencyGraph :=
  let current := g.mClientIdToRootComputations.getValues inClientId
  { g with
    mDirtyPriorities := g.mDirtyPriorities ∪ current
    mClientPriorities := (ascending current).foldl
      (fun priorities id => erase (inClientId, id) priorities) g.mClientPriorities
    mClientIdToRootComputations := g.mClientIdToRootComputations.dropKey inClientId }

/-- `setDependencies(inId, ids)`: the splits that `inId` was the last to depend on are orphans. -/
def setDependencies (ids : Finset ComputationId) : ComputationDependencyGraph :=
  let g := g.ensureComputationInList_ inId
  let current := g.mDependencies.getValues inId
  if current = ids then g
  else
    let orphans := current.filter fun id =>
      id.isRoot = false ∧ id ∉ ids ∧ (g.mDependencies.getKeys id).card = 1
    let g := (ascending ids).foldl ensureComputationInList_ { g with
      mOrphanedSplitComputations := g.mOrphanedSplitComputations ∪ orphans
      mOrphanedLocalSplitComputations := g.mOrphanedLocalSplitComputations ∪ orphans.filter (· ∈ g.mLocalComputations) }
    { g with
      mOrphanedLocalSplitComputations := g.mOrphanedLocalSplitComputations \ ids
      mOrphanedSplitComputations := g.mOrphanedSplitComputations \ ids
      mDependencies := g.mDependencies.update inId ids }

/-- `markComputationLocal(inId)`. -/
def markComputationLocal : ComputationDependencyGraph :=
  let g := { g with mLocalComputations := insert inId g.mLocalComputations }
  let g := g.ensureComputationInList_ inId
  if inId.isRoot = false ∧ inId ∈ g.mOrphanedSplitComputations then
    { g with
      mOrphanedLocalSplitComputations := insert inId g.mOrphanedLocalSplitComputations }
  else g

/-- `markComputationNonlocal(inId)`. -/
def markComputationNonlocal : ComputationDependencyGraph := { g with
    mOrphanedLocalSplitComputations := g.mOrphanedLocalSplitComputations.erase inId
    mLocalComputations := g.mLocalComputations.erase inId }

/-- `dropComputation(inId)`: the priorities that clients have for it stay. -/
def dropComputation : ComputationDependencyGraph :=
  let g :=
    if inId.isRoot then
      { g with
        mDirtyPriorities := g.mDirtyPriorities ∪ g.mRootToRootDependencies.getValues inId
        mDirtySplitPriorities := g.mDirtySplitPriorities ∪ g.mRootToSplitDependencies.getValues inId }
    else g
  { g with
    mAllPriorities := erase inId g.mAllPriorities
    mLocalComputations := g.mLocalComputations.erase inId
    mDependencies := (g.mDependencies.dropValue inId).dropKey inId
    mRootToSplitDependencies := (g.mRootToSplitDependencies.dropValue inId).dropKey inId
    mDirtySplitPriorities := g.mDirtySplitPriorities.erase inId
    mOrphanedLocalSplitComputations := g.mOrphanedLocalSplitComputations.erase inId
    mOrphanedSplitComputations := g.mOrphanedSplitComputations.erase inId
    mRootToRootDependencies := (g.mRootToRootDependencies.dropValue inId).dropKey inId }

/-- `clearOrphans()`. -/
def clearOrphans : ComputationDependencyGraph := { g with
    mOrphanedLocalSplitComputations := ∅
    mOrphanedSplitComputations := ∅ }

/-! ## Priorities -/

/-- `getPriority(inId)`. -/
def getPriority : ComputationPriority := (lookup inId g.mAllPriorities).getD default

/-- `computePriorityFor(inId)` at a root: the deepest of the priorities that the clients and the
roots that depend on it hand to it. -/
def computeRootPriorityFor : ComputationPriority :=
  let clients := ascending (g.mClientIdToRootComputations.getKeys inId)
  let parents := ascending (g.mRootToRootDependencies.getKeys inId)
  let priority := ComputationPriority.deepest default <| clients.map fun client =>
    (g.mClientPriorities.get (client, inId)).priorityForDependentComputation
  priority.deepest <| parents.map fun parent =>
    (g.getPriority parent).priorityForDependentComputation

/-- `computePriorityFor(inId)`: that of a split follows from that of its root. -/
def computePriorityFor : ComputationPriority :=
  if inId.isSplit then
    (g.computeRootPriorityFor inId.rootComputation).priorityForSplitComputation inId.treeDepth
  else g.computeRootPriorityFor inId

/-- `checkInternalState()`: `none` where it asserts that there is no dirty root and there is one. -/
def checkInternalState : Option Bool :=
  if g.mDirtyPriorities = ∅ then
    let storedAreValid := (ascending g.mAllPriorities.keys).all fun id =>
      !(g.mAllPriorities.get id != g.computePriorityFor id)
    let dependenciesAreValid := (ascending g.mRootToRootDependencies.mKeysToValues.keys).all fun id =>
        !(decide (id ∉ g.mAllPriorities) && !(g.computePriorityFor id).isNull)
    some (storedAreValid && dependenciesAreValid)
  else none

/-! ## `update` -/

/-- The graph and the two sets that `update` reports. -/
structure Updating where
  graph : ComputationDependencyGraph
  outLocalComputationsWithChangedPriorities : Finset ComputationId
  outAllComputationsWithChangedPriorities : Finset ComputationId

/-- `mAllPriorities[id]`, which makes a default priority where there is none. -/
def Updating.touch (u : Updating) (id : ComputationId) : Updating := { u with
    graph := { u.graph with
      mAllPriorities := Finmap.insert id (u.graph.getPriority id) u.graph.mAllPriorities } }

/-- `updatePriority(id, newPriority, ..)`. `update` has the same lines twice more in its body. -/
def Updating.updatePriority (u : Updating) (id : ComputationId) (newPriority : ComputationPriority) : Updating where
  graph := { u.graph with
    mAllPriorities := Finmap.insert id newPriority u.graph.mAllPriorities }
  outAllComputationsWithChangedPriorities := insert id u.outAllComputationsWithChangedPriorities
  outLocalComputationsWithChangedPriorities :=
    if id ∈ u.graph.mLocalComputations then insert id u.outLocalComputationsWithChangedPriorities
    else u.outLocalComputationsWithChangedPriorities

/-- One pass over the dirty roots: those found dirty for the next pass, and those still to check. -/
structure Pass where
  updating : Updating
  newDirty : Finset ComputationId
  toCheck : Finset ComputationId

/-- The loop over the children of a root that changed: each not found dirty yet is, and is
checked in this pass. -/
def Pass.addChildren (p : Pass) (children : List ComputationId) : Pass := children.foldl (fun p child =>
    if child ∈ p.newDirty then p
    else { p with
      newDirty := insert child p.newDirty
      toCheck := insert child p.toCheck }) p

/-- The body of the inner loop of `update`. -/
def Pass.check (p : Pass) (id : ComputationId) : Pass :=
  let newPriority := p.updating.graph.computePriorityFor id
  let updating := p.updating.touch id
  let toCheck := p.toCheck.erase id
  if newPriority != updating.graph.getPriority id then
    addChildren
      { updating := updating.updatePriority id newPriority
        newDirty := insert id p.newDirty
        toCheck := toCheck }
      (ascending (updating.graph.mRootToRootDependencies.getValues id))
  else { p with
    updating := updating
    toCheck := toCheck }

/-- The inner loop of `update`, which takes the least root first. -/
def Pass.run : ℕ → Pass → Option Pass
  | 0, p => if p.toCheck = ∅ then some p else none
  | limit + 1, p =>
    match ascending p.toCheck with
    | [] => some p
    | id :: _ => if id.isRoot then Pass.run limit (p.check id) else none

/-- The dirty roots, all made circular. -/
def Updating.makeCircular (u : Updating) : Updating :=
  let u := (ascending u.graph.mDirtyPriorities).foldl
    (fun u id => u.updatePriority id (u.graph.getPriority id).makeCircular) u
  { u with
    graph := { u.graph with mDirtyPriorities := ∅ } }

/-- The outer loop of `update`. After two passes in a row that left the set of dirty roots as it was
this set is taken to be circular. -/
def Updating.updateRoots (limit : ℕ) : ℕ → ℕ → Updating → Option Updating
  | 0, _, u => if u.graph.mDirtyPriorities = ∅ then some u else none
  | rounds + 1, passesWhereSetIsStable, u =>
    if u.graph.mDirtyPriorities = ∅ then some u
    else do
      let p ← Pass.run limit
        { updating := u
          newDirty := ∅
          toCheck := u.graph.mDirtyPriorities }
      if p.updating.graph.mDirtyPriorities ≠ p.newDirty then
        updateRoots limit rounds 0
          { p.updating with
            graph := { p.updating.graph with mDirtyPriorities := p.newDirty } }
      else if passesWhereSetIsStable + 1 > 1 then
        updateRoots limit rounds (passesWhereSetIsStable + 1) p.updating.makeCircular
      else updateRoots limit rounds (passesWhereSetIsStable + 1) p.updating

/-- The body of the loop of `update` over the dirty splits. -/
def Updating.updateSplit (u : Updating) (split : ComputationId) : Updating :=
  let newPri := u.graph.computePriorityFor split
  let u := u.touch split
  if u.graph.getPriority split != newPri then u.updatePriority split newPri else u

/-- The rest of `update`: the splits of the roots that changed, and the other dirty ones. -/
def Updating.updateSplits (u : Updating) : Updating :=
  let dirtySplits := u.graph.mDirtySplitPriorities ∪
    u.outAllComputationsWithChangedPriorities.biUnion u.graph.mRootToSplitDependencies.getValues
  let u := (ascending dirtySplits).foldl updateSplit u
  { u with
    graph := { u.graph with mDirtySplitPriorities := ∅ } }

/-- `update(..)`. -/
def update (limit : ℕ) (g : ComputationDependencyGraph) : Option Updating := (Updating.updateRoots limit limit 0
    { graph := g
      outLocalComputationsWithChangedPriorities := ∅
      outAllComputationsWithChangedPriorities := ∅ }).map Updating.updateSplits

/-! ## Runs -/

/-- The calls that change a graph. -/
inductive Op
  | setCumulusClientPriority (inId : ComputationId) (inClientId : CumulusClientId)
      (priority : ComputationPriority)
  | addRootToRootDependency (source dest : ComputationId)
  | dropCumulusClient (inClientId : CumulusClientId)
  | setDependencies (inId : ComputationId) (ids : Finset ComputationId)
  | markComputationLocal (inId : ComputationId)
  | markComputationNonlocal (inId : ComputationId)
  | dropComputation (inId : ComputationId)
  | clearOrphans
  | update (limit : ℕ)

/-- The graph after a call that returns. -/
def step : Op → Option ComputationDependencyGraph
  | .setCumulusClientPriority inId inClientId priority =>
    g.setCumulusClientPriority inId inClientId priority
  | .addRootToRootDependency source dest => g.addRootToRootDependency source dest
  | .dropCumulusClient inClientId => some (g.dropCumulusClient inClientId)
  | .setDependencies inId ids => some (g.setDependencies inId ids)
  | .markComputationLocal inId => some (g.markComputationLocal inId)
  | .markComputationNonlocal inId => some (g.markComputationNonlocal inId)
  | .dropComputation inId => some (g.dropComputation inId)
  | .clearOrphans => some g.clearOrphans
  | .update limit => (g.update limit).map Updating.graph

end ComputationDependencyGraph

end Cumulus
