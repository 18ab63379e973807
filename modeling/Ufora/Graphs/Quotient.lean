import Ufora.Graphs.Split
import Ufora.Lib.Run

/-!
# The edges between cycles

In every run, as long as the ids of the cycles fit an `int`, every call returns, the edges between the
cycles are the quotient of the edges, and they are acyclic with the depths they should have
(`quotiented_of_fitsInt`). `dropEdge` keeps ids in an `int`: from `2 ^ 31` cycles on it looks for
edges that are not there (`not_quotiented`).
-/

open Ordered Effect Finmap Option MapWithIndex Run TwoWaySetMap

namespace GraphCycles

variable {α : Type} [LinearOrder α]

/-- What is stored as the depth of a cycle: `0` without successors, else one more than the largest of
their depths. -/
def HasDepth (g : GraphCycles α) (c : ℤ) : Prop := ∃ d, lookup c g.mCycleDepth = some d ∧
    ((¬ ∃ b, g.mCycleEdges.contains c b) → d = 0) ∧
    ((∃ b, g.mCycleEdges.contains c b) → IsGreatest
      {x | ∃ b e, g.mCycleEdges.contains c b ∧ lookup b g.mCycleDepth = some e ∧ x = e + 1} d)

/-- The edges between the cycles are the quotient of the edges by the cycles, join cycles that exist,
are acyclic, and the cycles have the depths that follow from them. -/
structure Quotiented (g : GraphCycles α) : Prop where
  edge : ∀ a b, g.mCycleEdges.contains a b ↔ Digraph.quotient g.mEdges.contains g.mNodeToCycle.tryGetValue a b
  live : ∀ a b, g.mCycleEdges.contains a b → a ∈ g.mAllCycles ∧ b ∈ g.mAllCycles
  acyclic : Digraph.Acyclic g.mCycleEdges.contains
  hasDepth : ∀ n c, g.mNodeToCycle.tryGetValue n = some c → HasDepth g c

/-- The ids of the cycles that a call drops an edge between fit an `int`. -/
def Op.FitsInt (s : Observed α) : Op α → Prop
  | .addEdge _ _ _ => True
  | .dropEdge source dest =>
    s.graph.mEdges.contains source dest → GraphCycles.FitsInt s.graph source dest

instance (s : Observed α) : ∀ op : Op α, Decidable (op.FitsInt s)
  | .addEdge _ _ _ => .isTrue trivial
  | .dropEdge source dest => inferInstanceAs
    (Decidable (s.graph.mEdges.contains source dest → GraphCycles.FitsInt s.graph source dest))

variable {s : Observed α}

theorem Stable.hasDepth (h : Stable [] s) {c : ℤ} (hc : c ∈ s.graph.mAllCycles) : HasDepth s.graph c := by
  have hlookup : ∀ b ∈ s.graph.mAllCycles, lookup b s.graph.mCycleDepth = some (s.graph.mCycleDepth.get b) := by
    intro b hb
    rw [← h.indexed.keys, StdMap.mem_keys_iff] at hb
    obtain ⟨d, hd⟩ := hb
    rw [StdMap.get, hd]
    rfl
  have hdepth : ∀ b, s.graph.mCycleDepth.get b = depth s.graph.mCycleEdges s.graph.mCycleDepth b := by
    intro b
    refine (h.settled b).resolve_right fun hspared => ?_
    obtain ⟨e, he, -⟩ := hspared.1
    exact absurd he List.not_mem_nil
  refine ⟨_, hlookup c hc, fun hno => ?_, fun hsome => ⟨?_, ?_⟩⟩
  · rw [hdepth]
    exact le_antisymm (depth_le_iff.2 ⟨le_rfl, fun b hb => absurd ⟨b, hb⟩ hno⟩) depth_nonneg
  · obtain ⟨b, hb⟩ := hsome
    have hb0 : 0 ≤ s.graph.mCycleDepth.get b := hdepth b ▸ depth_nonneg
    obtain ⟨b, hb, he⟩ := @exists_depth _ s.graph.mCycleDepth _ _ hb hb0
    exact ⟨b, _, hb, hlookup b (h.indexed.joins.right c b hb), (hdepth c).trans he⟩
  · rintro x ⟨b, e, hb, he, rfl⟩
    rw [hlookup b (h.indexed.joins.right c b hb)] at he
    obtain rfl := some.inj he
    exact (h.settled c).lt hb

theorem Stable.quotiented (h : Stable [] s) : Quotiented s.graph where
  edge := h.indexed.edge
  live a b hab := ⟨h.indexed.joins.left a b hab, h.indexed.joins.right a b hab⟩
  acyclic := h.acyclic
  hasDepth _ _ hn := h.hasDepth (h.indexed.mem_cycle hn)

theorem stable_empty : Stable [] ({} : Observed α) where
  indexed :=
    { source_mem := fun u v huv => absurd huv contains_empty
      dest_mem := fun u v huv => absurd huv contains_empty
      ne := fun u v huv => absurd huv contains_empty
      node := fun n => by simp
      cycle := fun c => by simp
      edge := fun a b => by simp [Digraph.quotient]
      keys := rfl
      lt := fun c hc => absurd hc (Finset.notMem_empty c) }
  settled c := .inl <| le_antisymm depth_nonneg <|
    depth_le_iff.2 ⟨le_rfl, fun _ hb => absurd hb contains_empty⟩
  connected _ u v a hu := by cases (tryGetValue_empty (k := u)).symm.trans hu

/-- One call. -/
theorem Stable.call (h : Stable [] s) (op : Op α) (hop : op.FitsInt s) :
    wp op.call (fun _ s' => Stable [] s') (fun _ _ => False) s := by
  cases op with
  | addEdge u v hne =>
    by_cases huv : s.graph.mEdges.contains u v
    · exact (h.addEdge_of_contains hne huv).imp fun _ s' hs' => hs'.1
    · exact ((h.spare (u, v)).addEdge hne huv).imp fun _ s' hs' => hs'.1
  | dropEdge u v => exact (h.dropEdge hop).imp fun _ s' hs' => hs'.1

/-! ## Runs -/

/-- In every run whose calls find ids that fit an `int`, every call returns, and the edges between the
cycles and the depths are right in every state. -/
theorem quotiented_of_fitsInt (ops : List (Op α))
    (h : EveryStep (total step) (fun s op => op.FitsInt s) {} ops) :
    EveryStep (total step) Returns {} ops ∧
      Always (total step) (fun s => Quotiented s.graph) {} ops := by
  have hstable : Always (total step) (Stable []) {} ops := by
    refine always_of_everyStep stable_empty (fun s op s' hs hop he => ?_) h
    obtain rfl := total_eq_some.1 he
    exact ((hs.call op hop).mono (fun _ _ => id) fun _ _ => False.elim).exec
  refine ⟨h.of_always hstable fun s op hs hop => ?_, hstable.mono fun s hs => hs.quotiented⟩
  obtain ⟨s', he, -⟩ := (hs.call op hop).exists_returned
  rw [Returns, he]
  rfl

/-- A cycle of three nodes that is made and taken apart. -/
theorem quotiented_of_fitsInt_triangle : let ops : List (Op ℕ) := [.addEdge 0 1 (by decide), .addEdge 1 2 (by decide),
      .addEdge 2 0 (by decide), .dropEdge 1 2]
    EveryStep (total step) (fun s op => op.FitsInt s) {} ops ∧ EveryStep (total step) Returns {} ops ∧
        Always (total step) (fun s => Quotiented s.graph) {} ops := by
  intro ops
  have hfits : Run.EveryStep (Run.total step) (fun s op => op.FitsInt s) {} ops := by decide +kernel
  exact ⟨hfits, quotiented_of_fitsInt ops hfits⟩

/-! ## Too many cycles -/

/-- A cycle without parents: only its depth is updated. -/
theorem wp_updateCycle_of_noParents {c : ℤ}
    (hchild : ∀ b, s.graph.mCycleEdges.contains c b → b ∈ s.graph.mCycleDepth.keys)
    (hno : ∀ p, ¬ s.graph.mCycleEdges.contains p c) :
    wp (updateCycle c) (fun _ s' => ∃ mCycleDepth,
      s' = { s with graph := { s.graph with mCycleDepth := mCycleDepth } }) (fun _ _ => False) s := by
  have hparents : ascending (s.graph.mCycleEdges.getKeys c) = [] := by
    refine List.eq_nil_iff_forall_not_mem.2 fun p hp => hno p ?_
    exact mem_getKeys.1 (mem_ascending.1 hp)
  have hsearch : wp (updateCycleDepth s.graph.mCycleEdges (s.graph.mAllCycles.card + 3) c)
      (fun found _ => found = false) (fun _ _ => False) ⟨s.graph.mCycleDepth, [c]⟩ := by
    unfold updateCycleDepth
    rw [wp_bind, wp_get, wp_ite, if_neg fun hlt => absurd hlt.1 (lt_irrefl 1)]
    simp only [wp_bind, wp_get, depthForCycle_eq hchild, wp_modify, wp_ite, wp_pure, hparents]
    split
    · trivial
    · rw [List.anyM, wp_pure, if_neg Bool.false_ne_true]
      trivial
  unfold updateCycle updateCycleDepths
  rw [wp_bind, wp_get, wp_bind, wp_get]
  dsimp only
  split
  · next hr => exact (hsearch.of_error hr).elim
  · next found search hr =>
    rw [wp_bind, wp_modifyGraph, wp_ite, if_neg (by rw [hsearch.of_ok hr]; exact Bool.false_ne_true)]
    exact ⟨_, rfl⟩

/-- The calls that add edges between new nodes, two by two. -/
def pairs : ℕ → List (Op ℕ)
  | 0 => []
  | n + 1 => pairs n ++ [.addEdge (2 * n) (2 * n + 1) (Nat.succ_ne_self _).symm]

/-- The graph after `pairs n`: the id of the cycle of a node is the node. -/
structure Paired (n : ℕ) (s : Observed ℕ) : Prop where
  stable : Stable [] s
  node : ∀ m, m ∈ s.graph.mNodes ↔ m < 2 * n
  edge : ∀ m, m + 1 = n → s.graph.mEdges.contains (2 * m) (2 * m + 1)
  label : ∀ m < 2 * n, s.graph.mNodeToCycle.tryGetValue m = some (m : ℤ)
  index : s.graph.mCycleIndex = 2 * n

theorem Paired.step {n : ℕ} {s : Observed ℕ} (h : Paired n s) : Paired (n + 1)
      (GraphCycles.step s (.addEdge (2 * n) (2 * n + 1) (Nat.succ_ne_self _).symm)) := by
  have hcall := h.stable.call (.addEdge (2 * n) (2 * n + 1) (Nat.succ_ne_self _).symm) trivial
  have hn₀ : 2 * n ∉ s.graph.mNodes := by
    rw [h.node]
    omega
  set s₁ := s.withNode (2 * n) with hs₁
  have h₁ : Stable [] s₁ := h.stable.withNode hn₀
  have hn₁ : 2 * n + 1 ∉ s₁.graph.mNodes := by
    rw [Finset.mem_insert, h.node]
    omega
  set s₂ := s₁.withNode (2 * n + 1) with hs₂
  have h₂ : Stable [] s₂ := h₁.withNode hn₁
  have hlabel : ∀ m, s₂.graph.mNodeToCycle.tryGetValue m =
      if m = 2 * n + 1 then some (2 * n + 1 : ℤ) else if m = 2 * n then some (2 * n : ℤ)
        else s.graph.mNodeToCycle.tryGetValue m := by
    intro m
    show ((s.graph.mNodeToCycle.set (2 * n) s.graph.mCycleIndex).set (2 * n + 1)
      (s.graph.mCycleIndex + 1)).tryGetValue m = _
    rw [tryGetValue_set, tryGetValue_set, h.index]
  have hu : s₂.graph.mNodeToCycle.tryGetValue (2 * n) = some (2 * n : ℤ) := by
    rw [hlabel, if_neg (Nat.succ_ne_self _).symm, if_pos rfl]
  have hv : s₂.graph.mNodeToCycle.tryGetValue (2 * n + 1) = some (2 * n + 1 : ℤ) := by
    rw [hlabel, if_pos rfl]
  have hedges : ¬ s₂.graph.mEdges.contains (2 * n) (2 * n + 1) := fun huv =>
    hn₀ (h.stable.indexed.source_mem _ _ huv)
  have hne : (2 * n : ℤ) ≠ 2 * n + 1 := by omega
  have hedge : ∀ x y, (s₂.graph.mCycleEdges.insert (2 * n) (2 * n + 1)).contains x y ↔
      ((2 * n : ℤ) ≠ 2 * n + 1 ∧ x = 2 * n ∧ y = 2 * n + 1) ∨ s.graph.mCycleEdges.contains x y := by
    intro x y
    rw [contains_insert]
    exact or_congr (and_iff_right hne).symm Iff.rfl
  have h₃ := (h₂.spare (2 * n, 2 * n + 1)).withEdge (Nat.succ_ne_self _).symm hu hv hedge
  set s₃ : Observed ℕ := { s₂ with
    graph := { s₂.graph with mEdges := s₂.graph.mEdges.insert (2 * n) (2 * n + 1) } } with hs₃
  have hwp : wp (addEdge (2 * n) (2 * n + 1)) (fun _ s' =>
      s'.graph.mNodes = s₂.graph.mNodes ∧ s'.graph.mEdges = s₃.graph.mEdges ∧
        s'.graph.mNodeToCycle = s₂.graph.mNodeToCycle ∧
          s'.graph.mCycleIndex = s₂.graph.mCycleIndex) (fun _ _ => False) s := by
    unfold addEdge
    rw [wp_bind, wp_lassert, if_pos (Nat.succ_ne_self _).symm, wp_bind, wp_ensureNode_of_new hn₀,
      wp_bind, ← hs₁, wp_ensureNode_of_new hn₁, ← hs₂, wp_bind, wp_get, wp_ite, if_pos hedges, wp_bind,
      wp_modifyGraph, ← hs₃, wp_bind, wp_cycleFor (s := s₃) hu, wp_bind, wp_cycleFor (s := s₃) hv]
    rw [wp_ite, if_pos hne, wp_bind, wp_modifyGraph]
    refine (wp_updateCycle_of_noParents (fun b hb => ?_) fun p hp => ?_).imp fun _ s' hs' => ?_
    · rw [h₃.indexed.keys]
      exact h₃.indexed.joins.right _ b hb
    · rcases (hedge p _).1 hp with he | hp
      · exact hne he.2.2
      · have hlt := h.stable.indexed.lt _ (h.stable.indexed.joins.right p _ hp)
        rw [h.index] at hlt
        exact hlt.false
    · obtain ⟨D, rfl⟩ := hs'
      exact ⟨rfl, rfl, rfl, rfl⟩
  refine ((hcall.and hwp).mono (fun _ s' hs' => ?_) fun _ _ he => he.2.elim).exec
  obtain ⟨hstable, hnodes, hedges', hlabels, hindex⟩ := hs'
  refine ⟨hstable, fun m => ?_, fun m hm => ?_, fun m hm => ?_, ?_⟩
  · rw [hnodes]
    rw [Finset.mem_insert, Finset.mem_insert, h.node]
    omega
  · obtain rfl : m = n := by omega
    rw [hedges']
    exact contains_insert.2 (.inl ⟨rfl, rfl⟩)
  · rw [hlabels, hlabel]
    split
    · next he => exact congrArg some (by omega)
    · split
      · next he => exact congrArg some (by omega)
      · exact h.label m (by omega)
  · rw [hindex]
    show s.graph.mCycleIndex + 1 + 1 = _
    rw [h.index]
    omega

theorem Paired.run (n : ℕ) : ∃ s, Run.run (Run.total GraphCycles.step) {} (pairs n) = some s ∧ Paired n s := by
  induction n with
  | zero =>
    refine ⟨{}, rfl, stable_empty, fun m => ?_, fun m hm => ?_, fun m hm => ?_, rfl⟩
    · exact iff_of_false (Finset.notMem_empty m) (Nat.not_lt_zero m)
    · omega
    · omega
  | succ n ih =>
    obtain ⟨s, hr, hs⟩ := ih
    refine ⟨_, ?_, hs.step⟩
    rw [pairs, run_concat, hr]
    rfl

/-- The two nodes of the last edge have cycles of their own. -/
theorem Paired.labels {n : ℕ} {s : Observed ℕ} (h : Paired (n + 1) s) :
    s.graph.mNodeToCycle.tryGetValue (2 * n) = some (2 * n : ℤ) ∧
      s.graph.mNodeToCycle.tryGetValue (2 * n + 1) = some (2 * n + 1 : ℤ) := by
  constructor
  · rw [h.label _ (by omega)]
    exact congrArg some (by omega)
  · rw [h.label _ (by omega)]
    exact congrArg some (by omega)

/-- Where the ids do not fit, an edge is dropped and the edge between the cycles stays. -/
theorem Paired.wp_dropEdge {n : ℕ} {s : Observed ℕ} (h : Paired (n + 1) s) (hint : toInt (2 * n) < 0) :
    wp (dropEdge (2 * n) (2 * n + 1)) (fun _ _ => False) (fun _ s' => s' = { s with
        graph := { s.graph with mEdges := s.graph.mEdges.drop (2 * n) (2 * n + 1) } }) s := by
  have huv := h.edge n rfl
  obtain ⟨hu, hv⟩ := h.labels
  have hne : (2 * n : ℤ) ≠ 2 * n + 1 := by omega
  have hnegative : ∀ b, ¬ s.graph.mCycleEdges.contains (toInt (2 * n)) b := by
    intro b hb
    obtain ⟨m, hm⟩ := (h.stable.indexed.cycle _).1 (h.stable.indexed.joins.left _ b hb)
    have hlt := (h.node m).1 ((h.stable.indexed.node m).2 ⟨_, hm⟩)
    rw [h.label m hlt] at hm
    have he := some.inj hm
    omega
  set s₁ : Observed ℕ := { s with
    graph := { s.graph with mEdges := s.graph.mEdges.drop (2 * n) (2 * n + 1) } } with hs₁
  unfold dropEdge dropCycleEdge
  rw [wp_bind, wp_get, wp_ite, if_pos huv, wp_bind, wp_modifyGraph, ← hs₁, wp_bind,
    wp_cycleFor (s := s₁) hu, wp_bind, wp_cycleFor (s := s₁) hv, wp_ite, if_neg hne, wp_bind, wp_get,
    wp_bind, wp_lassert, if_neg (hnegative _)]

theorem Paired.not_quotiented {n : ℕ} {s : Observed ℕ} (h : Paired (n + 1) s) (hint : toInt (2 * n) < 0) :
    ¬ Quotiented (GraphCycles.step s (.dropEdge (2 * n) (2 * n + 1))).graph := by
  obtain ⟨hu, hv⟩ := h.labels
  have hne : (2 * n : ℤ) ≠ 2 * n + 1 := by omega
  have hedge : s.graph.mCycleEdges.contains (2 * n) (2 * n + 1) :=
    (h.stable.indexed.edge _ _).2 ⟨hne, _, _, h.edge n rfl, hu, hv⟩
  intro hq
  have hafter : (GraphCycles.step s (.dropEdge (2 * n) (2 * n + 1))) = { s with
      graph := { s.graph with mEdges := s.graph.mEdges.drop (2 * n) (2 * n + 1) } } :=
    wp.exec ((h.wp_dropEdge hint).imp fun _ _ => False.elim)
  rw [hafter] at hq
  obtain ⟨-, u, v, hdrop, hu', hv'⟩ := (hq.edge _ _).1 hedge
  obtain ⟨hold, hother⟩ := contains_drop.1 hdrop
  have hlabel : ∀ {m k : ℕ}, m ∈ s.graph.mNodes → s.graph.mNodeToCycle.tryGetValue m = some (k : ℤ) → m = k := by
    intro m k hm he
    rw [h.label m ((h.node m).1 hm)] at he
    exact_mod_cast some.inj he
  refine hother ⟨hlabel (h.stable.indexed.source_mem u v hold) ?_, hlabel (h.stable.indexed.dest_mem u v hold) ?_⟩
  · exact Eq.trans hu' (congrArg some (by omega))
  · exact Eq.trans hv' (congrArg some (by omega))

/-- `2 ^ 30 + 1` edges between new nodes, and the last of them dropped. -/
theorem not_quotiented : ¬ ∀ ops : List (Op ℕ), Run.EveryStep (Run.total step) Returns {} ops ∧
    Run.Always (Run.total step) (fun s => Quotiented s.graph) {} ops := by
  intro h
  have hall := (h (pairs (2 ^ 30 + 1) ++ [.dropEdge (2 * 2 ^ 30) (2 * 2 ^ 30 + 1)])).2
  obtain ⟨s, hr, hs⟩ := Paired.run (2 ^ 30 + 1)
  refine hs.not_quotiented (by decide) (hall.last ?_)
  rw [run_concat, hr]
  rfl

end GraphCycles
