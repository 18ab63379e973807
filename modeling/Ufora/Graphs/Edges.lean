import Ufora.Graphs.Update

/-!
# Adding and dropping edges

A call of `addEdge` or `dropEdge` goes from a state in which all depths are right to another one
(`Stable.addEdge`, `Stable.dropEdge`), where the ids of the cycles fit an `int`.
-/

open Ordered Effect List Finset TwoWaySetMap MapWithIndex Option StdMap Digraph Relation.ReflTransGen Relation

namespace GraphCycles

variable {α : Type} [LinearOrder α]

/-! ## Adding an edge -/

section
variable {s : Observed α} {pending : List (α × α)} {exempt : α → Prop}

/-- A cycle that has only a new node. -/
abbrev Observed.withNode (s : Observed α) (node : α) : Observed α where
  graph := { s.graph with
      mNodes := insert node s.graph.mNodes
      mCycleIndex := s.graph.mCycleIndex + 1
      mAllCycles := insert s.graph.mCycleIndex s.graph.mAllCycles
      mNodeToCycle := s.graph.mNodeToCycle.set node s.graph.mCycleIndex
      mCycleDepth := Finmap.insert s.graph.mCycleIndex 0 s.graph.mCycleDepth }
  events := s.events ++ [.create s.graph.mCycleIndex]

theorem Stable.withNode (h : Stable pending s) {node : α} (hn : node ∉ s.graph.mNodes) :
    Stable pending (s.withNode node) := by
  have hi := h.indexed
  have hfresh : s.graph.mCycleIndex ∉ s.graph.mAllCycles := fun hc => (hi.lt _ hc).false
  have hold : ∀ {u c}, s.graph.mNodeToCycle.tryGetValue u = some c → u ≠ node ∧ c ≠ s.graph.mCycleIndex :=
    fun hu => ⟨fun he => hn (he ▸ (hi.node _).2 ⟨_, hu⟩), fun he => hfresh (he ▸ hi.mem_cycle hu)⟩
  have hlabel : ∀ {u c}, c ≠ s.graph.mCycleIndex →
      ((s.graph.mNodeToCycle.set node s.graph.mCycleIndex).tryGetValue u = some c ↔
        s.graph.mNodeToCycle.tryGetValue u = some c) := by
    intro u c hc
    rw [tryGetValue_set]
    split
    · next he => exact iff_of_false (fun hs => hc (some.inj hs).symm) fun hu => (hold hu).1 he
    · exact Iff.rfl
  have hnew : ∀ {u}, (s.graph.mNodeToCycle.set node s.graph.mCycleIndex).tryGetValue u =
      some s.graph.mCycleIndex ↔ u = node := by
    intro u
    rw [tryGetValue_set]
    split
    · next he => exact iff_of_true rfl he
    · next he => exact iff_of_false (fun hu => (hold hu).2 rfl) he
  have hget : ∀ c, s.graph.mCycleDepth.get c = get (Finmap.insert s.graph.mCycleIndex 0 s.graph.mCycleDepth) c := by
    intro c
    rw [get_insert]
    split
    · next he => rw [he, get_of_notMem (hi.keys ▸ hfresh)]; rfl
    · rfl
  refine ⟨⟨fun u v huv => ?_, fun u v huv => ?_, hi.ne, fun n => ?_, fun c => ?_, fun a b => ?_, ?_,
    fun c hc => ?_⟩, fun c => ?_, fun hclean u v a hu hv => ?_⟩
  · exact mem_insert_of_mem (hi.source_mem u v huv)
  · exact mem_insert_of_mem (hi.dest_mem u v huv)
  · rw [mem_insert, hi.node, tryGetValue_set]
    split
    · next he => exact iff_of_true (.inl he) ⟨_, rfl⟩
    · next he => exact or_iff_right he
  · rw [mem_insert]
    by_cases hc : c = s.graph.mCycleIndex
    · exact iff_of_true (.inl hc) ⟨node, hc ▸ hnew.2 rfl⟩
    · rw [or_iff_right hc, hi.cycle]
      exact exists_congr fun n => (hlabel hc).symm
  · rw [show _ ↔ _ from hi.edge a b]
    refine and_congr_right fun _ => exists_congr fun u => exists_congr fun v => ?_
    refine and_congr_right fun huv => ?_
    obtain ⟨c, hu⟩ := hi.source huv
    obtain ⟨d, hv⟩ := hi.dest huv
    rw [tryGetValue_set, tryGetValue_set, if_neg (hold hu).1, if_neg (hold hv).1]
  · ext c
    rw [mem_keys_iff, lookup_insert, mem_insert, ← hi.keys, mem_keys_iff]
    split
    · next he => exact iff_of_true ⟨_, rfl⟩ (.inl he)
    · next he => exact (or_iff_right he).symm
  · show c < s.graph.mCycleIndex + 1
    rcases mem_insert.1 hc with rfl | hc
    · omega
    · have hlt := hi.lt c hc
      omega
  · refine (h.settled c).of_eq (fun _ => Iff.rfl) (hget c) (fun b _ => hget b) ?_
    rintro ⟨e, he, hl⟩
    exact ⟨e, he, (hlabel (hold hl).2).2 hl⟩
  · by_cases ha : a = s.graph.mCycleIndex
    · subst ha
      rw [hnew.1 hu, hnew.1 hv]
    · exact h.connected (fun e he => hclean e (mem_append_left _ he)) u v a ((hlabel ha).1 hu) ((hlabel ha).1 hv)

/-- A new node leaves the other cycles as they are. -/
theorem Stable.evolves_withNode (h : Stable pending s) {node : α} (hn : node ∉ s.graph.mNodes) :
    Evolves exempt s (s.withNode node) where
  index := Int.le.intro 1 rfl
  live c hc hlt := (mem_insert.1 hc).resolve_left hlt.ne
  contents c _ hlt n := by
    rw [tryGetValue_set]
    split
    · next he =>
      refine iff_of_false (fun hi => hlt.ne (some.inj hi).symm) fun hl => hn ?_
      exact he ▸ (h.indexed.node n).2 ⟨c, hl⟩
    · exact Iff.rfl
  successors _ _ _ := .inr (.inl fun _ => Iff.rfl)
  events := by
    refine ⟨_, rfl, .of_lists h.indexed (fun _ => rfl : ∀ _, _ = foldl _ _ (map _ [] ++ map _ [_]))
      (fun c => by simp) nofun (Int.le.intro 1 rfl) (fun c => ?_) fun c => ?_⟩
    · rw [List.mem_singleton]
      show _ ↔ _ ∧ c < s.graph.mCycleIndex + 1
      omega
    · rw [mem_insert, List.mem_singleton, or_comm]
      exact or_congr (and_iff_left not_mem_nil).symm Iff.rfl

/-- `ensureNode` where the node is new. -/
theorem wp_ensureNode_of_new {Q : Unit → Observed α → Prop} {E : GraphError → Observed α → Prop}
    {node : α} (hn : node ∉ s.graph.mNodes) :
    wp (ensureNode node) Q E s ↔ Q () (s.withNode node) := by
  unfold ensureNode
  rw [wp_bind, wp_get, wp_ite, if_pos hn, wp_bind, wp_modifyGraph, wp_bind, wp_createCycle, wp_modifyGraph]

/-- A node that is not there gets a cycle of its own. -/
theorem Stable.ensureNode (h : Stable pending s) (node : α) : wp (ensureNode node) (fun _ s' => Stable pending s' ∧
        (s'.graph.mNodes = insert node s.graph.mNodes ∧ s'.graph.mEdges = s.graph.mEdges) ∧
          (∀ exempt, Evolves exempt s s') ∧ (node ∈ s.graph.mNodes → s' = s) ∧
          (s.Clean → s'.Clean))
      (fun _ _ => False) s := by
  by_cases hn : node ∈ s.graph.mNodes
  · unfold GraphCycles.ensureNode
    rw [wp_bind, wp_get, wp_ite, if_neg (not_not.2 hn), wp_pure]
    exact ⟨h, ⟨(insert_eq_of_mem hn).symm, rfl⟩, fun _ => .refl h.indexed, fun _ => rfl, id⟩
  · rw [wp_ensureNode_of_new hn]
    refine ⟨h.withNode hn, ⟨rfl, rfl⟩, fun _ => h.evolves_withNode hn, fun hmem => absurd hmem hn, fun hclean => ?_⟩
    exact List.forall_mem_append.2 ⟨hclean, by simp [CycleEvent.Clean]⟩

/-- An edge that is put in leaves its source to be updated. -/
theorem Stable.withEdge {u v : α} {a b : ℤ} (h : Stable ((u, v) :: pending) s) (hne : u ≠ v)
    (hu : s.graph.mNodeToCycle.tryGetValue u = some a)
    (hv : s.graph.mNodeToCycle.tryGetValue v = some b) {CE : TwoWaySetMap ℤ ℤ}
    (hCE : ∀ x y, CE.contains x y ↔ (a ≠ b ∧ x = a ∧ y = b) ∨ s.graph.mCycleEdges.contains x y) :
    Updating pending a
      { s with
        graph := { s.graph with
          mEdges := s.graph.mEdges.insert u v
          mCycleEdges := CE } } where
  indexed := by
    have hi := h.indexed
    refine ⟨fun x y hxy => ?_, fun x y hxy => ?_, fun x y hxy => ?_, hi.node, hi.cycle, fun x y => ?_, hi.keys, hi.lt⟩
    · rcases contains_insert.1 hxy with ⟨rfl, -⟩ | hxy
      · exact (hi.node _).2 ⟨a, hu⟩
      · exact hi.source_mem x y hxy
    · rcases contains_insert.1 hxy with ⟨-, rfl⟩ | hxy
      · exact (hi.node _).2 ⟨b, hv⟩
      · exact hi.dest_mem x y hxy
    · rcases contains_insert.1 hxy with ⟨rfl, rfl⟩ | hxy
      · exact hne
      · exact hi.ne x y hxy
    · rw [hCE, hi.edge]
      constructor
      · rintro (⟨hab, rfl, rfl⟩ | ⟨hxy, w, z, hwz, hw, hz⟩)
        · exact ⟨hab, u, v, contains_insert.2 (.inl ⟨rfl, rfl⟩), hu, hv⟩
        · exact ⟨hxy, w, z, contains_insert.2 (.inr hwz), hw, hz⟩
      · rintro ⟨hxy, w, z, hwz, hw, hz⟩
        rcases contains_insert.1 hwz with ⟨rfl, rfl⟩ | hwz
        · obtain rfl := some.inj (hu.symm.trans hw)
          obtain rfl := some.inj (hv.symm.trans hz)
          exact .inl ⟨hxy, rfl, rfl⟩
        · exact .inr ⟨hxy, w, z, hwz, hw, hz⟩
  live := h.indexed.mem_cycle hu
  acyclic := h.acyclic.mono fun x y ⟨hx, _, hxy⟩ =>
    ((hCE x y).1 hxy).resolve_left fun he => hx he.2.1
  settled := by
    intro x
    by_cases hx : x = a
    · exact .inl (.inl hx)
    · refine .inr ((h.settled x).of_eq (fun y => ?_) rfl (fun _ _ => rfl) ?_)
      · rw [hCE]
        exact (or_iff_right fun he => hx he.2.1).symm
      · rintro ⟨e, he, hl⟩
        rcases mem_cons.1 he with rfl | he
        · exact absurd (some.inj (hl.symm.trans hu)) hx
        · exact ⟨e, he, hl⟩
  connected := fun hclean x y c hx hy =>
    mono (fun w z hwz => contains_insert.2 (.inr hwz)) _ _ (h.connected hclean x y c hx hy)

/-- The edge closes no cycle of cycles, or one into which nothing leads from outside. -/
def ClosesAlone (mEdges : TwoWaySetMap α α) (u v : α) : Prop :=
  ReflTransGen mEdges.contains v u → ReflTransGen mEdges.contains u v ∨
    ∀ w, ReflTransGen mEdges.contains w u → ReflTransGen mEdges.contains v w

/-- Both nodes are there, and the edge would close a ring of cycles. -/
def ClosesRing (g : GraphCycles α) (u v : α) : Prop := u ∈ g.mNodes ∧ v ∈ g.mNodes ∧
  ∀ a ∈ g.mNodeToCycle.tryGetValue u, ∀ b ∈ g.mNodeToCycle.tryGetValue v, Ring g.mCycleEdges g.mCycleDepth b a

/-- The depths fall along the paths between cycles. -/
theorem Stable.get_le {x y : ℤ} (h : Stable pending s)
    (hxy : ReflTransGen s.graph.mCycleEdges.contains x y) :
    s.graph.mCycleDepth.get y ≤ s.graph.mCycleDepth.get x := by
  induction hxy with
  | refl => exact le_rfl
  | tail _ hab ih => exact ((h.settled _).lt hab).le.trans ih

/-- After an edge that closes no cycle, or one alone or a ring, the search takes together only what belongs together. -/
theorem Stable.closable {u v : α} {a b : ℤ} (h : Stable ((u, v) :: pending) s)
    (hclean : s.Clean) (hu : s.graph.mNodeToCycle.tryGetValue u = some a)
    (hv : s.graph.mNodeToCycle.tryGetValue v = some b) {CE : TwoWaySetMap ℤ ℤ}
    (hCE : ∀ x y, CE.contains x y ↔ (a ≠ b ∧ x = a ∧ y = b) ∨ s.graph.mCycleEdges.contains x y)
    (hcloses : ClosesAlone s.graph.mEdges u v ∨ Ring s.graph.mCycleEdges s.graph.mCycleDepth b a) :
    Closable { s.graph with mEdges := s.graph.mEdges.insert u v, mCycleEdges := CE } a := by
  have hconn := h.connected hclean
  have hquotient := fun x y => h.indexed.edge x y
  by_cases hab : a = b
  · exact .inl (h.acyclic.mono fun x y hxy => ((hCE x y).1 hxy).resolve_left fun he => he.1 hab)
  have hedge : ∀ x y, CE.contains x y ↔ (x = a ∧ y = b) ∨ s.graph.mCycleEdges.contains x y := fun x y => by
    rw [hCE, and_iff_right hab]
  by_cases hback : ReflTransGen s.graph.mCycleEdges.contains b a
  · have hvu := reaches_of_quotient hconn (mono (fun x y => (hquotient x y).1) _ _ hback) hv hu
    rcases hcloses with halone | hring
    · refine .inr (.inl fun n m hm hnm => ?_)
      have hin : ∀ x y, (s.graph.mEdges.insert u v).contains x y ↔ _ := fun x y => contains_insert
      have hlift := fun {x y} => mono (fun x y hxy => (hin x y).2 (.inr hxy)) x y
      have hnew := (halone hvu).resolve_left fun huv => hab <| (label_eq_iff (fun _ _ huv => h.indexed.dest huv)
        hconn (h.acyclic.mono fun x y => (hquotient x y).2) hu hv).2 ⟨huv, hvu⟩
      have hnu : ReflTransGen s.graph.mEdges.contains n u :=
        reaches_source (mono (fun x y => (hin x y).1) _ _ (hnm.trans (hlift (hconn m u a hm hu))))
      exact (hlift (hconn m u a hm hu)).trans (.head ((hin u v).2 (.inl ⟨rfl, rfl⟩)) (hlift (hnew n hnu)))
    · refine .inr (.inr ⟨hring.inserted hedge hback h.acyclic, fun c hc => ?_⟩)
      exact (h.get_le (hc.of_inserted hedge hback).1).trans_lt (lt_depth ((hedge a b).2 (.inl ⟨rfl, rfl⟩)))
  · refine .inl ((h.acyclic.insert hback).mono fun x y => (hedge x y).1)

/-- A call that adds an edge settles its source. -/
theorem Stable.addEdge {u v : α} (h : Stable ((u, v) :: pending) s) (hne : u ≠ v)
    (hnew : ¬ s.graph.mEdges.contains u v) :
    wp (addEdge u v)
      (fun _ s' => Stable pending s' ∧ s'.graph.mEdges = s.graph.mEdges.insert u v ∧ Evolves (· = u) s s' ∧
        (ClosesAlone s.graph.mEdges u v ∨ ClosesRing s.graph u v →
          s.Clean → s'.Clean))
      (fun _ _ => False) s := by
  unfold GraphCycles.addEdge
  rw [wp_bind, wp_lassert, if_pos hne, wp_bind]
  refine (h.ensureNode u).imp fun _ s₁ h₁ => ?_
  rw [wp_bind]
  refine (h₁.1.ensureNode v).imp fun _ s₂ h₂ => ?_
  obtain ⟨h₂, ⟨hnodes, hedges⟩, hevolves₂, hsame₂, hclean₂⟩ := h₂
  rw [h₁.2.1.2] at hedges
  rw [h₁.2.1.1] at hnodes
  have hevolves := (h₁.2.2.1 (· = u)).trans (hevolves₂ _)
  obtain ⟨a, hu⟩ := (h₂.indexed.node u).1 (by rw [hnodes]; simp)
  obtain ⟨b, hv⟩ := (h₂.indexed.node v).1 (by rw [hnodes]; simp)
  have hcloses : ClosesAlone s₂.graph.mEdges u v ∨ ClosesRing s.graph u v →
      ClosesAlone s₂.graph.mEdges u v ∨ Ring s₂.graph.mCycleEdges s₂.graph.mCycleDepth b a := by
    rintro (halone | ⟨hun, hvn, hring⟩)
    · exact .inl halone
    · obtain rfl := h₁.2.2.2.1 hun
      obtain rfl := hsame₂ hvn
      exact .inr (hring a hu b hv)
  set s₃ : Observed α := { s₂ with
    graph := { s₂.graph with mEdges := s₂.graph.mEdges.insert u v } } with hs₃
  rw [wp_bind, wp_get, wp_ite, if_pos (hedges ▸ hnew), wp_bind, wp_modifyGraph, ← hs₃, wp_bind,
    wp_cycleFor (s := s₃) hu, wp_bind, wp_cycleFor (s := s₃) hv, ← hedges]
  rw [wp_ite]
  split
  · next hab =>
    rw [wp_bind, wp_modifyGraph]
    have hCE : ∀ x y, (s₂.graph.mCycleEdges.insert a b).contains x y ↔
        (a ≠ b ∧ x = a ∧ y = b) ∨ s₂.graph.mCycleEdges.contains x y := fun x y => by
      rw [TwoWaySetMap.contains_insert, and_iff_right hab]
    refine (h₂.withEdge hne hu hv hCE).updateCycle.imp fun _ s' hs' =>
      ⟨hs'.1, hs'.2.2.1, hevolves.trans (.trans ?_ (hs'.2.2.2.1 _)), fun hcond hclean => ?_⟩
    · refine .of_same h₂.indexed rfl rfl rfl rfl fun c hc d => ?_
      rw [TwoWaySetMap.contains_insert]
      exact or_iff_right fun he => hc u rfl (he.1 ▸ hu)
    · have hclean' := hclean₂ (h₁.2.2.2.2 hclean)
      exact hs'.2.2.2.2 (h₂.closable hclean' hu hv hCE (hcloses hcond)) hclean'
  · next hab =>
    have hCE : ∀ x y, s₂.graph.mCycleEdges.contains x y ↔
        (a ≠ b ∧ x = a ∧ y = b) ∨ s₂.graph.mCycleEdges.contains x y := fun x y =>
      (or_iff_right fun he => hab he.1).symm
    refine (h₂.withEdge hne hu hv hCE).updateCycle.imp fun _ s' hs' =>
      ⟨hs'.1, hs'.2.2.1, hevolves.trans (.trans ?_ (hs'.2.2.2.1 _)), fun hcond hclean => ?_⟩
    · exact .of_same h₂.indexed rfl rfl rfl rfl fun _ _ _ => Iff.rfl
    · have hclean' := hclean₂ (h₁.2.2.2.2 hclean)
      exact hs'.2.2.2.2 (h₂.closable hclean' hu hv hCE (hcloses hcond)) hclean'

/-- A call that finds the edge there changes nothing between the cycles. -/
theorem Stable.addEdge_of_contains {u v : α} (h : Stable pending s) (hne : u ≠ v) (huv : s.graph.mEdges.contains u v) :
    wp (GraphCycles.addEdge u v) (fun _ s' => Stable pending s' ∧
      s'.graph.mEdges = s.graph.mEdges ∧ (∀ exempt, Evolves exempt s s') ∧
      (s.Clean → s'.Clean)) (fun _ _ => False) s := by
  unfold GraphCycles.addEdge
  rw [wp_bind, wp_lassert, if_pos hne, wp_bind]
  refine (h.ensureNode u).imp fun _ s₁ h₁ => ?_
  rw [wp_bind]
  refine (h₁.1.ensureNode v).imp fun _ s₂ h₂ => ?_
  have hedges := h₂.2.1.2.trans h₁.2.1.2
  rw [wp_bind, wp_get, wp_ite, if_neg (not_not.2 (hedges ▸ huv))]
  exact ⟨h₂.1, hedges, fun exempt => (h₁.2.2.1 exempt).trans (h₂.2.2.1 exempt), fun hclean =>
    h₂.2.2.2.2 (h₁.2.2.2.2 hclean)⟩

/-- One more edge may be about to be added. -/
theorem Stable.spare (h : Stable pending s) (e : α × α) : Stable (e :: pending) s where
  indexed := h.indexed
  settled c := (h.settled c).of_eq (fun _ => Iff.rfl) rfl (fun _ _ => rfl)
    fun ⟨e', he', hl⟩ => ⟨e', mem_cons_of_mem _ he', hl⟩
  connected := h.connected

end

/-! ## Dropping an edge between cycles -/

/-- The loop that looks up the cycles of children. -/
theorem wp_mapM_cycleFor {s : Observed α} (l : List (α × α))
    (hl : ∀ e ∈ l, ∃ c, s.graph.mNodeToCycle.tryGetValue e.2 = some c) :
    wp (l.mapM fun e => cycleFor e.2) (fun cs s' => s' = s ∧
      ∀ c, c ∈ cs ↔ ∃ e ∈ l, s.graph.mNodeToCycle.tryGetValue e.2 = some c)
      (fun _ _ => False) s := by
  induction l with
  | nil => exact ⟨rfl, fun c => by simp⟩
  | cons e l ih =>
    rw [List.forall_mem_cons] at hl
    obtain ⟨⟨c, hc⟩, hl⟩ := hl
    rw [mapM_cons, wp_bind, wp_cycleFor hc, wp_bind]
    refine (ih hl).imp fun cs s' hs' => ?_
    obtain ⟨rfl, hcs⟩ := hs'
    refine ⟨rfl, fun d => ?_⟩
    rw [List.mem_cons, hcs, exists_mem_cons_iff, hc, some_inj, eq_comm]

variable {s : Observed α} {u v : α}

/-- Fewer edges, that are still those inside all cycles but one. -/
theorem Stable.reaches {pending : List (α × α)} (h : Stable pending s) {E : TwoWaySetMap α α}
    {c : ℤ} (hclean : s.Clean)
    (hE : ∀ x y, s.graph.mEdges.contains x y → s.graph.mNodeToCycle.tryGetValue x = some c →
      s.graph.mNodeToCycle.tryGetValue y = some c → E.contains x y) {x y : α}
    (hx : s.graph.mNodeToCycle.tryGetValue x = some c) (hy : s.graph.mNodeToCycle.tryGetValue y = some c) :
    ReflTransGen E.contains x y :=
  reaches_within (fun _ _ huv => h.indexed.dest huv)
    (h.acyclic.mono fun a b hab => (h.indexed.edge a b).2 hab) hE (h.connected hclean x y c hx hy) hx hy

/-- A dropped edge that leaves the edges between the cycles what they should be. -/
theorem Indexed.drop {g : GraphCycles α} (h : g.Indexed) {CE : TwoWaySetMap ℤ ℤ}
    (hCE : ∀ a b, CE.contains a b ↔ quotient (g.mEdges.drop u v).contains g.mNodeToCycle.tryGetValue a b) :
    ({ g with
      mEdges := g.mEdges.drop u v
      mCycleEdges := CE } : GraphCycles α).Indexed where
  source_mem x y hxy := h.source_mem x y (contains_drop.1 hxy).1
  dest_mem x y hxy := h.dest_mem x y (contains_drop.1 hxy).1
  ne x y hxy := h.ne x y (contains_drop.1 hxy).1
  node := h.node
  cycle := h.cycle
  edge := hCE
  keys := h.keys
  lt := h.lt

/-- An edge between two cycles: another one between them, or none. -/
theorem Stable.quotient_drop {pending : List (α × α)} (h : Stable pending s) {a b : ℤ}
    (huv : s.graph.mEdges.contains u v) (hu : s.graph.mNodeToCycle.tryGetValue u = some a)
    (hv : s.graph.mNodeToCycle.tryGetValue v = some b) (x y : ℤ) :
    quotient (s.graph.mEdges.drop u v).contains s.graph.mNodeToCycle.tryGetValue x y ↔
      s.graph.mCycleEdges.contains x y ∧ (x = a ∧ y = b → ∃ w z, (s.graph.mEdges.drop u v).contains w z ∧
          s.graph.mNodeToCycle.tryGetValue w = some a ∧ s.graph.mNodeToCycle.tryGetValue z = some b) := by
  rw [h.indexed.edge]
  constructor
  · rintro ⟨hxy, w, z, hwz, hw, hz⟩
    refine ⟨⟨hxy, w, z, (contains_drop.1 hwz).1, hw, hz⟩, ?_⟩
    rintro ⟨rfl, rfl⟩
    exact ⟨w, z, hwz, hw, hz⟩
  · rintro ⟨⟨hxy, w, z, hwz, hw, hz⟩, hother⟩
    by_cases he : w = u ∧ z = v
    · obtain ⟨rfl, rfl⟩ := he
      obtain rfl := some.inj (hu.symm.trans hw)
      obtain rfl := some.inj (hv.symm.trans hz)
      exact ⟨hxy, hother ⟨rfl, rfl⟩⟩
    · exact ⟨hxy, w, z, contains_drop.2 ⟨hwz, he⟩, hw, hz⟩

theorem Stable.dropCycleEdge (h : Stable [] s) {a b : ℤ} (huv : s.graph.mEdges.contains u v)
    (hu : s.graph.mNodeToCycle.tryGetValue u = some a)
    (hv : s.graph.mNodeToCycle.tryGetValue v = some b) (hab : a ≠ b) :
    wp (dropCycleEdge a b) (fun _ s' => Stable [] s' ∧ s'.graph.mEdges = s.graph.mEdges.drop u v ∧
        Evolves (· = u) s s' ∧ (s.Clean → s'.Clean)) (fun _ _ => False)
      { s with graph := { s.graph with mEdges := s.graph.mEdges.drop u v } } := by
  have hedge : s.graph.mCycleEdges.contains a b := (h.indexed.edge a b).2 ⟨hab, u, v, huv, hu, hv⟩
  have hback : ¬ s.graph.mCycleEdges.contains b a := fun hba =>
    h.acyclic a (.tail (.single hedge) hba)
  have hconn : s.Clean → Digraph.ClassesConnected
      (s.graph.mEdges.drop u v).contains s.graph.mNodeToCycle.tryGetValue := by
    intro hclean x y c hx hy
    refine h.reaches hclean (fun w z hwz hw hz => contains_drop.2 ⟨hwz, ?_⟩) hx hy
    rintro ⟨rfl, rfl⟩
    exact hab (some.inj ((hu.symm.trans hw).trans (hz.symm.trans hv)))
  have hq := h.quotient_drop huv hu hv
  unfold GraphCycles.dropCycleEdge
  rw [wp_bind, wp_get, wp_bind, wp_lassert, if_pos hedge, wp_bind, wp_get, wp_bind, wp_lassert,
    if_pos hback, wp_bind, wp_get, wp_bind]
  refine (wp_mapM_cycleFor _ fun e he => ?_).imp fun cs s' hs' => ?_
  · exact (h.indexed.node _).1 (h.indexed.dest_mem _ _ (contains_drop.1 (mem_edgesFrom.1 he).2).1)
  obtain ⟨rfl, hcs⟩ := hs'
  have hmem : b ∈ cs ↔ ∃ w z, (s.graph.mEdges.drop u v).contains w z ∧ s.graph.mNodeToCycle.tryGetValue w = some a ∧
        s.graph.mNodeToCycle.tryGetValue z = some b := by
    rw [hcs]
    constructor
    · rintro ⟨⟨w, z⟩, he, hz⟩
      obtain ⟨hw, hwz⟩ := mem_edgesFrom.1 he
      exact ⟨w, z, hwz, mem_getKeys.1 (mem_ascending.1 hw), hz⟩
    · rintro ⟨w, z, hwz, hw, hz⟩
      exact ⟨(w, z), mem_edgesFrom.2 ⟨mem_ascending.2 (mem_getKeys.2 hw), hwz⟩, hz⟩
  rw [wp_ite]
  split
  · next hno =>
    rw [hmem] at hno
    have hkey : b ∈ s.graph.mCycleDepth := by
      rw [← Finmap.mem_keys, h.indexed.keys]
      exact h.indexed.mem_cycle hv
    have hup : Updating [] a
        { s with
          graph := { s.graph with
            mEdges := s.graph.mEdges.drop u v
            mCycleEdges := s.graph.mCycleEdges.drop a b } } := by
      refine ⟨h.indexed.drop fun x y => ?_, h.indexed.mem_cycle hu,
        h.acyclic.mono fun x y hxy => (contains_drop.1 hxy.2.2).1, fun x => ?_, hconn⟩
      · rw [hq, contains_drop]
        refine and_congr_right fun _ => ⟨fun hne he => absurd he hne, fun hx he => ?_⟩
        exact hno (hx he)
      · by_cases hx : x = a
        · exact .inl (.inl hx)
        · refine .inr ((h.settled x).of_eq (fun y => ?_) rfl (fun _ _ => rfl) id)
          rw [contains_drop]
          exact (and_iff_left fun he => hx he.1).symm
    rw [wp_bind, wp_modifyGraph]
    rw [insert_get hkey]
    refine hup.updateCycle.imp fun _ s' hs' => ⟨hs'.1, hs'.2.2.1, .trans ?_ (hs'.2.2.2.1 _),
      hs'.2.2.2.2 (.inl (h.acyclic.mono fun x y hxy => (contains_drop.1 hxy).1))⟩
    refine .of_same h.indexed rfl rfl rfl rfl fun c hc d => ?_
    rw [contains_drop]
    exact and_iff_left fun he => hc u rfl (he.1 ▸ hu)
  · next hyes =>
    rw [not_not, hmem] at hyes
    refine ⟨⟨h.indexed.drop fun x y => ?_, h.settled, hconn⟩, rfl,
      .of_same h.indexed rfl rfl rfl rfl fun _ _ _ => Iff.rfl, id⟩
    rw [hq]
    exact (and_iff_left fun _ => hyes).symm

end GraphCycles
