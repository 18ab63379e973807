import Ufora.Graphs.Quotient

/-!
# `GraphWithCalculatedProperty`

`core/math/GraphWithCalculatedProperty.hppml`: a graph of cycles with a property for each cycle, calculated
from the nodes of the cycle and the properties of its successors. The graph calls back when it creates or
destroys a cycle, which makes the new cycle dirty and forgets the old one. `update` calculates the
properties of the dirty cycles, and marks the parents of those that change. It ends where the edges between
the cycles are acyclic, and then no cycle is dirty and every property is right (`Tracked.update`).
-/

open Ordered Effect List Finset Finmap Option MapWithIndex GraphCycles GraphCycles.CycleEvent

/-- `mInitializeFunction` and `mMergeFunction`. -/
structure PropertyFunctions (α π : Type) where
  mInitializeFunction : Finset α → π
  mMergeFunction : π → π → π

/-- A `GraphWithCalculatedProperty<node_type, property_type>`. -/
structure GraphWithCalculatedProperty (α π : Type) [LinearOrder α] where
  mGraphWithCycles : Observed α := {}
  mNodeValues : StdMap α π := ∅
  mCycleProperties : StdMap ℤ π := ∅
  mDirtyCycles : Finset ℤ := ∅

namespace GraphWithCalculatedProperty

variable {α π : Type} [LinearOrder α]

/-- The assertions that fail. `recursionLimit` stands for an `update` that does not end. -/
inductive PropertyError where
  | graph (e : GraphError)
  | noNode
  | recursionLimit

/-- A member function. -/
abbrev Call (α π : Type) [LinearOrder α] := EStateM PropertyError (GraphWithCalculatedProperty α π)

/-- `addCycle_(cycle)` and `dropCycle_(cycle)`. -/
def callBack (s : GraphWithCalculatedProperty α π) : CycleEvent → GraphWithCalculatedProperty α π
  | .create cycle => { s with mDirtyCycles := insert cycle s.mDirtyCycles }
  | .destroy cycle =>
    { s with
      mDirtyCycles := s.mDirtyCycles.erase cycle
      mCycleProperties := erase cycle s.mCycleProperties }
  | .collapse .. => s

/-- What a call of the graph leaves, with what it calls back. The graph reads nothing of what the call backs
write. -/
def calledBack (s : GraphWithCalculatedProperty α π) (g : Observed α) : GraphWithCalculatedProperty α π :=
  (g.events.drop s.mGraphWithCycles.events.length).foldl callBack { s with mGraphWithCycles := g }

/-- A call of `mGraphWithCycles`. -/
def onCycles {β : Type} (call : Action α β) : Call α π β := fun s =>
  match call s.mGraphWithCycles with
  | .ok b g => .ok b (s.calledBack g)
  | .error e g => .error (.graph e) (s.calledBack g)

/-- `mDirtyCycles.insert(mGraphWithCycles.cycleFor(node))`. -/
def dirtyCycleFor (node : α) : Call α π Unit := do
  let cycle ← onCycles (cycleFor node)
  modify fun s => { s with mDirtyCycles := insert cycle s.mDirtyCycles }

/-- `addEdge(source, dest)`. -/
def addEdge (source dest : α) : Call α π Unit := do
  onCycles (GraphCycles.addEdge source dest)
  dirtyCycleFor source

/-- `dropEdge(source, dest)`. -/
def dropEdge (source dest : α) : Call α π Unit := do
  dirtyCycleFor source
  onCycles (GraphCycles.dropEdge source dest)

/-- The edges that `dropNode` drops. -/
def edgesOf (node : α) (g : GraphCycles α) : List (α × α) := edgesFrom g.mEdges [node] ++ edgesInto g.mEdges [node]

/-- `dropNode(node)`. -/
def dropNode (node : α) : Call α π Unit := do
  (edgesOf node (← get).mGraphWithCycles.graph).forM fun e => dropEdge e.1 e.2

/-- `markNodeDirty(node)`. -/
def markNodeDirty (node : α) : Call α π Unit := do
  lassert (node ∈ (← get).mGraphWithCycles.graph.mNodes) .noNode
  dirtyCycleFor node

/-- `calcPropertyFor(cycleIndex)`. -/
def calcPropertyFor (f : PropertyFunctions α π) (s : GraphWithCalculatedProperty α π) (cycleIndex : ℤ) : π :=
  (ascending (s.mGraphWithCycles.graph.mCycleEdges.getValues cycleIndex)).foldl
    (fun base subcycle =>
      match lookup subcycle s.mCycleProperties with
      | none => base
      | some p => f.mMergeFunction base p)
    (f.mInitializeFunction (s.mGraphWithCycles.graph.mNodeToCycle.getKeys cycleIndex))

section
variable [DecidableEq π]

/-- `updateCycle(cycleIndex)`. -/
def updateCycle (f : PropertyFunctions α π) (cycleIndex : ℤ) : Call α π Bool := do
  let p := calcPropertyFor f (← get) cycleIndex
  if lookup cycleIndex (← get).mCycleProperties ≠ some p then
    modify fun s => { s with mCycleProperties := Finmap.insert cycleIndex p s.mCycleProperties }
    return true
  else
    return false

/-- The first loop of `update`, with the cycles that have changed so far. -/
def updateDirtyCycles (f : PropertyFunctions α π) : ℕ → Finset ℤ → Call α π (Finset ℤ)
  | 0, _ => throw .recursionLimit
  | limit + 1, changedCycles => do
    match (ascending (← get).mDirtyCycles).head? with
    | none => return changedCycles
    | some cycle =>
      modify fun s => { s with mDirtyCycles := s.mDirtyCycles.erase cycle }
      if ← updateCycle f cycle then
        modify fun s => { s with
          mDirtyCycles := s.mDirtyCycles ∪ s.mGraphWithCycles.graph.mCycleEdges.getKeys cycle }
        updateDirtyCycles f limit (insert cycle changedCycles)
      else
        updateDirtyCycles f limit changedCycles

/-- The second loop of `update`, over the nodes of one cycle. A cycle that has changed has a property, so
`operator[]` makes none. -/
def updateNodeValues [Inhabited π] (outNodesWithNewValues : Finset α) (cycle : ℤ) : Call α π (Finset α) := do
  (ascending ((← get).mGraphWithCycles.graph.mNodeToCycle.getKeys cycle)).foldlM
    (fun out node => do
      let p := (← get).mCycleProperties.get cycle
      if lookup node (← get).mNodeValues ≠ some p then
        modify fun s => { s with mNodeValues := Finmap.insert node p s.mNodeValues }
        return insert node out
      else
        return out) outNodesWithNewValues

/-- `update(outNodesWithNewValues)`, for a set that is empty before. -/
def update [Inhabited π] (f : PropertyFunctions α π) : Call α π (Finset α) := do
  let changedCycles ← updateDirtyCycles f (2 ^ (← get).mGraphWithCycles.graph.mAllCycles.card) ∅
  (ascending changedCycles).foldlM updateNodeValues ∅

end

/-! ## The call backs -/

section
variable {s : GraphWithCalculatedProperty α π} (events : List CycleEvent)

theorem foldl_callBack_graph : (events.foldl callBack s).mGraphWithCycles = s.mGraphWithCycles := by
  induction events generalizing s with
  | nil => rfl
  | cons e events ih =>
    rw [foldl_cons, ih]
    cases e <;> rfl

theorem foldl_callBack_dirty : (events.foldl callBack s).mDirtyCycles = events.foldl mark s.mDirtyCycles := by
  induction events generalizing s with
  | nil => rfl
  | cons e events ih =>
    rw [foldl_cons, ih, foldl_cons]
    cases e <;> rfl

/-- A cycle that is destroyed loses its property. -/
theorem lookup_foldl_callBack (c : ℤ) :
    (.destroy c ∈ events → lookup c (events.foldl callBack s).mCycleProperties = none) ∧
    (.destroy c ∉ events → lookup c (events.foldl callBack s).mCycleProperties = lookup c s.mCycleProperties) := by
  induction events generalizing s with
  | nil => exact ⟨nofun, fun _ => rfl⟩
  | cons e events ih =>
    rw [foldl_cons, List.mem_cons, not_or]
    by_cases hlater : .destroy c ∈ events
    · exact ⟨fun _ => ih.1 hlater, fun h => absurd hlater h.2⟩
    · rw [ih.2 hlater, or_iff_left hlater, and_iff_left hlater]
      cases e with
      | create | collapse => exact ⟨nofun, fun _ => rfl⟩
      | destroy d =>
        show (_ → lookup c (erase d s.mCycleProperties) = none) ∧ (_ → lookup c (erase d s.mCycleProperties) = _)
        rw [StdMap.lookup_erase, destroy.injEq]
        exact ⟨fun hc => if_pos hc, fun hc => if_neg hc⟩

variable {E : PropertyError → GraphWithCalculatedProperty α π → Prop}

theorem wp_onCycles {β : Type} {Q : β → GraphWithCalculatedProperty α π → Prop} (call : Action α β) :
    wp (onCycles call) Q E s ↔ wp call (fun b g => Q b (s.calledBack g))
      (fun e g => E (.graph e) (s.calledBack g)) s.mGraphWithCycles := by
  unfold wp onCycles
  cases call s.mGraphWithCycles <;> exact Iff.rfl

/-- Where nothing is called back, only the graph changes. -/
theorem calledBack_of_events {g : Observed α} (h : g.events = s.mGraphWithCycles.events) :
    s.calledBack g = { s with mGraphWithCycles := g } := by
  unfold calledBack
  rw [h, drop_length]
  rfl

/-- A call that leaves the graph as it is calls nothing back. -/
theorem calledBack_self : s.calledBack s.mGraphWithCycles = s := calledBack_of_events rfl

variable {Q : Unit → GraphWithCalculatedProperty α π → Prop}

theorem wp_dirtyCycleFor {node : α} {c : ℤ} (h : s.mGraphWithCycles.graph.mNodeToCycle.tryGetValue node = some c) :
    wp (dirtyCycleFor node) Q E s ↔ Q () { s with mDirtyCycles := insert c s.mDirtyCycles } := by
  unfold dirtyCycleFor
  rw [wp_bind, wp_onCycles, wp_cycleFor h, calledBack_self, wp_modify]

/-- A node that is none has no cycle to be dirty. -/
theorem wp_dirtyCycleFor_of_none {node : α} (h : s.mGraphWithCycles.graph.mNodeToCycle.tryGetValue node = none) :
    wp (dirtyCycleFor node) Q E s ↔ E (.graph .noCycle) s := by
  unfold dirtyCycleFor
  rw [wp_bind, wp_onCycles]
  unfold cycleFor
  rw [wp_bind, wp_get, h]
  show E (.graph .noCycle) (s.calledBack s.mGraphWithCycles) ↔ _
  rw [calledBack_self]

end

/-! ## What is tracked -/

variable {f : PropertyFunctions α π} {s s' : GraphWithCalculatedProperty α π} {exempt : α → Prop}

/-- Between two calls, but for the cycles of the `exempt` nodes: a live cycle is dirty, or one of its
successors has no property yet, or its property is right. -/
structure Tracked (f : PropertyFunctions α π) (exempt : α → Prop) (s : GraphWithCalculatedProperty α π) : Prop where
  dirty : s.mDirtyCycles ⊆ s.mGraphWithCycles.graph.mAllCycles
  keys : ∀ c p, lookup c s.mCycleProperties = some p → c ∈ s.mGraphWithCycles.graph.mAllCycles
  unset : ∀ c ∈ s.mGraphWithCycles.graph.mAllCycles, lookup c s.mCycleProperties = none → c ∈ s.mDirtyCycles
  right : ∀ c ∈ s.mGraphWithCycles.graph.mAllCycles,
    (∃ n, exempt n ∧ s.mGraphWithCycles.graph.mNodeToCycle.tryGetValue n = some c) ∨ c ∈ s.mDirtyCycles ∨
    (∃ d, s.mGraphWithCycles.graph.mCycleEdges.contains c d ∧ lookup d s.mCycleProperties = none) ∨
    lookup c s.mCycleProperties = some (calcPropertyFor f s c)

/-- No node is exempt. -/
abbrev nobody : α → Prop := fun _ => False

/-- A property depends on the nodes of the cycle and on the properties of its successors. -/
theorem calcPropertyFor_congr {c : ℤ}
    (hcontents : s'.mGraphWithCycles.graph.mNodeToCycle.getKeys c = s.mGraphWithCycles.graph.mNodeToCycle.getKeys c)
    (hedges : s'.mGraphWithCycles.graph.mCycleEdges.getValues c = s.mGraphWithCycles.graph.mCycleEdges.getValues c)
    (hlookup : ∀ d, s.mGraphWithCycles.graph.mCycleEdges.contains c d →
      lookup d s'.mCycleProperties = lookup d s.mCycleProperties) :
    calcPropertyFor f s' c = calcPropertyFor f s c := by
  unfold calcPropertyFor
  rw [hcontents, hedges]
  refine foldl_ext _ _ _ fun base d hd => ?_
  rw [hlookup d (TwoWaySetMap.mem_getValues.1 (mem_ascending.1 hd))]

theorem Tracked.congr (h : Tracked f exempt s) (hgraph : s'.mGraphWithCycles = s.mGraphWithCycles)
    (hdirty : s'.mDirtyCycles = s.mDirtyCycles) (hprops : s'.mCycleProperties = s.mCycleProperties) :
    Tracked f exempt s' := by
  obtain ⟨g, values, props, dirty⟩ := s
  obtain ⟨g', values', props', dirty'⟩ := s'
  obtain rfl : g' = g := hgraph
  obtain rfl : dirty' = dirty := hdirty
  obtain rfl : props' = props := hprops
  exact ⟨h.dirty, h.keys, h.unset, h.right⟩

variable {g : Observed α}

/-- The dirty cycles after a call of the graph are those that stay, and the new ones. -/
theorem mem_dirtyCycles_calledBack (hsub : s.mDirtyCycles ⊆ s.mGraphWithCycles.graph.mAllCycles)
    (he : Evolves exempt s.mGraphWithCycles g) (c : ℤ) :
    c ∈ (s.calledBack g).mDirtyCycles ↔
      c ∈ g.graph.mAllCycles ∧ (c ∈ s.mDirtyCycles ∨ s.mGraphWithCycles.graph.mCycleIndex ≤ c) := by
  obtain ⟨events, hevents, hf⟩ := he.events
  unfold calledBack
  rw [hevents, drop_left, foldl_callBack_dirty]
  exact hf.marked _ hsub c

theorem calledBack_graph : (s.calledBack g).mGraphWithCycles = g := foldl_callBack_graph _

/-- What a call of the graph leaves, where only what the graph calls back is written. -/
theorem Tracked.calledBack (h : Tracked f nobody s) (hi : s.mGraphWithCycles.graph.Indexed) (hg : g.graph.Indexed)
    (he : Evolves exempt s.mGraphWithCycles g) : Tracked f exempt (s.calledBack g) := by
  obtain ⟨events, hevents, hf⟩ := he.events
  have hcalled : s.calledBack g = events.foldl callBack { s with mGraphWithCycles := g } := by
    unfold GraphWithCalculatedProperty.calledBack
    rw [hevents, drop_left]
  have hdirty := mem_dirtyCycles_calledBack h.dirty he
  have hlive : ∀ c ∈ g.graph.mAllCycles, lookup c (s.calledBack g).mCycleProperties = lookup c s.mCycleProperties := by
    intro c hc
    rw [hcalled]
    exact (lookup_foldl_callBack events c).2 fun hd => (hf.destroyed c hd).1 hc
  have hnew : ∀ c, s.mGraphWithCycles.graph.mCycleIndex ≤ c → lookup c s.mCycleProperties = none := by
    intro c hle
    refine eq_none_iff_forall_ne_some.2 fun p hp => ?_
    exact absurd (hi.lt c (h.keys c p hp)) (not_lt.2 hle)
  refine ⟨fun c hc => ?_, fun c p hp => ?_, fun c hc hn => ?_, fun c hc => ?_⟩
  · rw [calledBack_graph]
    exact ((hdirty c).1 hc).1
  · rw [calledBack_graph]
    by_contra hc
    by_cases hd : .destroy c ∈ events
    · rw [hcalled, (lookup_foldl_callBack events c).1 hd] at hp
      cases hp
    · rw [hcalled, (lookup_foldl_callBack events c).2 hd] at hp
      exact hd (hf.gone c (h.keys c p hp) hc)
  · rw [calledBack_graph] at hc
    rw [hlive c hc] at hn
    refine (hdirty c).2 ⟨hc, ?_⟩
    rcases lt_or_ge c s.mGraphWithCycles.graph.mCycleIndex with hlt | hle
    · exact .inl (h.unset c (he.live c hc hlt) hn)
    · exact .inr hle
  · rw [calledBack_graph] at hc ⊢
    rcases lt_or_ge c s.mGraphWithCycles.graph.mCycleIndex with hlt | hle
    · rcases he.successors c hc hlt with hex | hsame | ⟨d, hd, hle⟩
      · exact .inl hex
      · refine .inr ?_
        rcases h.right c (he.live c hc hlt) with ⟨_, hno, -⟩ | hdirt | ⟨d, hd, hnone⟩ | hright
        · exact hno.elim
        · exact .inl ((hdirty c).2 ⟨hc, .inl hdirt⟩)
        · have hd' := (hsame d).2 hd
          refine .inr (.inl ⟨d, hd', ?_⟩)
          rw [hlive d (hg.joins.right c d hd'), hnone]
        · refine .inr (.inr ?_)
          rw [hlive c hc, hright, @calcPropertyFor_congr _ _ _ _ _ (s.calledBack g) _]
          · rw [calledBack_graph]
            ext n
            rw [mem_getKeys, mem_getKeys]
            exact he.contents c hc hlt n
          · rw [calledBack_graph]
            ext d
            exact hsame d
          · exact fun d hd => hlive d (hg.joins.right c d ((hsame d).2 hd))
      · refine .inr (.inr (.inl ⟨d, hd, ?_⟩))
        rw [hlive d (hg.joins.right c d hd), hnew d hle]
    · exact .inr (.inl ((hdirty c).2 ⟨hc, .inr hle⟩))

/-- The same, where the cycles of the nodes whose edges change are dirty before. -/
theorem Tracked.calledBack_of_dirty (h : Tracked f nobody s) (hi : s.mGraphWithCycles.graph.Indexed)
    (hg : g.graph.Indexed) (he : Evolves exempt s.mGraphWithCycles g)
    (hdirt : ∀ n c, exempt n → s.mGraphWithCycles.graph.mNodeToCycle.tryGetValue n = some c →
      c ∈ s.mDirtyCycles) : Tracked f nobody (s.calledBack g) := by
  have hcalled := h.calledBack hi hg he
  refine ⟨hcalled.dirty, hcalled.keys, hcalled.unset, fun c hc => .inr ?_⟩
  rcases hcalled.right c hc with ⟨n, hn, hl⟩ | hwhy
  · rw [calledBack_graph] at hc hl
    refine .inl ((mem_dirtyCycles_calledBack h.dirty he c).2 ⟨hc, ?_⟩)
    rcases lt_or_ge c s.mGraphWithCycles.graph.mCycleIndex with hlt | hle
    · exact .inl (hdirt n c hn ((he.contents c hc hlt n).1 hl))
    · exact .inr hle
  · exact hwhy

/-- The cycle of an exempt node becomes dirty. -/
theorem Tracked.dirtyCycle (h : Tracked f exempt s) {c : ℤ} (hc : c ∈ s.mGraphWithCycles.graph.mAllCycles)
    (hexempt : ∀ n, exempt n → s.mGraphWithCycles.graph.mNodeToCycle.tryGetValue n = some c) :
    Tracked f nobody { s with mDirtyCycles := insert c s.mDirtyCycles } where
  dirty := insert_subset hc h.dirty
  keys := h.keys
  unset d hd hn := mem_insert_of_mem (h.unset d hd hn)
  right d hd := by
    rcases h.right d hd with ⟨n, hn, hl⟩ | hdirt | hwhy
    · obtain rfl := some.inj ((hexempt n hn).symm.trans hl)
      exact .inr (.inl (mem_insert_self _ _))
    · exact .inr (.inl (mem_insert_of_mem hdirt))
    · exact .inr (.inr hwhy)

end GraphWithCalculatedProperty
