import Ufora.Graphs.Search

/-!
# Collapsing cycles

`collapse` puts the nodes of some cycles into a new one and rebuilds the edges between the cycles.
These stay the quotient of the edges by the cycles (`Indexed.collapse`).
-/

open Ordered Effect List Finmap TwoWaySetMap StdMap Digraph

namespace GraphCycles

variable {α : Type} [LinearOrder α]

/-- The edges join nodes, every node has a cycle, and all that is held about the cycles is about those
that have nodes: the edges between the cycles are the quotient of the edges. -/
structure Indexed (g : GraphCycles α) : Prop where
  source_mem : ∀ u v, g.mEdges.contains u v → u ∈ g.mNodes
  dest_mem : ∀ u v, g.mEdges.contains u v → v ∈ g.mNodes
  ne : ∀ u v, g.mEdges.contains u v → u ≠ v
  node : ∀ n, n ∈ g.mNodes ↔ ∃ c, g.mNodeToCycle.tryGetValue n = some c
  cycle : ∀ c, c ∈ g.mAllCycles ↔ ∃ n, g.mNodeToCycle.tryGetValue n = some c
  edge : ∀ a b, g.mCycleEdges.contains a b ↔ quotient g.mEdges.contains g.mNodeToCycle.tryGetValue a b
  keys : g.mCycleDepth.keys = g.mAllCycles
  lt : ∀ c ∈ g.mAllCycles, c < g.mCycleIndex

section
variable {g : GraphCycles α}

theorem Indexed.mem_cycle (h : g.Indexed) {n : α} {c : ℤ}
    (hn : g.mNodeToCycle.tryGetValue n = some c) : c ∈ g.mAllCycles := (h.cycle c).2 ⟨n, hn⟩

/-- Both ends of an edge have cycles. -/
theorem Indexed.source (h : g.Indexed) {u v : α} (huv : g.mEdges.contains u v) :
    ∃ c, g.mNodeToCycle.tryGetValue u = some c := (h.node u).1 (h.source_mem u v huv)

theorem Indexed.dest (h : g.Indexed) {u v : α} (huv : g.mEdges.contains u v) :
    ∃ c, g.mNodeToCycle.tryGetValue v = some c := (h.node v).1 (h.dest_mem u v huv)

theorem Indexed.joins (h : g.Indexed) : Joins g.mCycleEdges g.mAllCycles where
  left a b hab := by
    obtain ⟨-, u, v, -, hu, -⟩ := (h.edge a b).1 hab
    exact h.mem_cycle hu
  right a b hab := by
    obtain ⟨-, u, v, -, -, hv⟩ := (h.edge a b).1 hab
    exact h.mem_cycle hv
  ne a b hab := ((h.edge a b).1 hab).1

/-- A new depth of a cycle. -/
theorem Indexed.withDepth (h : g.Indexed) {mCycleDepth : StdMap ℤ ℤ} (hk : mCycleDepth.keys = g.mAllCycles) :
    ({ g with mCycleDepth := mCycleDepth } : GraphCycles α).Indexed :=
  { h with keys := hk }

end

theorem mem_edgesFrom {mEdges : TwoWaySetMap α α} {nodes : List α} {u v : α} :
    (u, v) ∈ edgesFrom mEdges nodes ↔ u ∈ nodes ∧ mEdges.contains u v := by
  unfold edgesFrom
  simp only [mem_flatMap, mem_map, mem_ascending, mem_getValues, Prod.mk.injEq]
  constructor
  · rintro ⟨n, hn, c, hc, rfl, rfl⟩
    exact ⟨hn, hc⟩
  · exact fun h => ⟨u, h.1, v, h.2, rfl, rfl⟩

theorem mem_edgesInto {mEdges : TwoWaySetMap α α} {nodes : List α} {u v : α} :
    (u, v) ∈ edgesInto mEdges nodes ↔ v ∈ nodes ∧ mEdges.contains u v := by
  unfold edgesInto
  simp only [mem_flatMap, mem_map, mem_ascending, mem_getKeys, Prod.mk.injEq]
  constructor
  · rintro ⟨n, hn, c, hc, rfl, rfl⟩
    exact ⟨hn, hc⟩
  · exact fun h => ⟨v, h.1, u, h.2, rfl, rfl⟩

/-! ## The steps -/

section
variable {s : Observed α} {Q : Unit → Observed α → Prop} {E : GraphError → Observed α → Prop}

@[simp] theorem wp_modifyGraph (f : GraphCycles α → GraphCycles α) :
    wp (modifyGraph f) Q E s ↔ Q () { s with graph := f s.graph } := Iff.rfl

@[simp] theorem wp_observe (e : CycleEvent) :
    wp (observe e) Q E s ↔ Q () { s with events := s.events ++ [e] } := Iff.rfl

theorem wp_cycleFor {Q : ℤ → Observed α → Prop} {node : α} {c : ℤ}
    (h : s.graph.mNodeToCycle.tryGetValue node = some c) : wp (cycleFor node) Q E s ↔ Q c s := by
  unfold cycleFor
  rw [wp_bind, wp_get, h]
  exact Iff.rfl

theorem wp_createCycle {Q : ℤ → Observed α → Prop} : wp createCycle Q E s ↔ Q s.graph.mCycleIndex
      { graph := { s.graph with
          mCycleIndex := s.graph.mCycleIndex + 1
          mAllCycles := insert s.graph.mCycleIndex s.graph.mAllCycles }
        events := s.events ++ [.create s.graph.mCycleIndex] } := Iff.rfl

theorem wp_destroyCycle {c : ℤ} : wp (destroyCycle c) Q E s ↔ Q ()
      { graph := { s.graph with
          mCycleDepth := erase c s.graph.mCycleDepth
          mAllCycles := s.graph.mAllCycles.erase c
          mCycleEdges := (s.graph.mCycleEdges.dropKey c).dropValue c }
        events := s.events ++ [.destroy c] } := Iff.rfl

end

/-- What is left of a graph when cycles are destroyed. -/
structure Destroyed (g : GraphCycles α) (stack : List ℤ) (g' : GraphCycles α) : Prop where
  nodes : g'.mNodes = g.mNodes
  edges : g'.mEdges = g.mEdges
  nodeToCycle : g'.mNodeToCycle = g.mNodeToCycle
  index : g'.mCycleIndex = g.mCycleIndex
  allCycles : ∀ c, c ∈ g'.mAllCycles ↔ c ∈ g.mAllCycles ∧ c ∉ stack
  cycleEdges : ∀ a b, g'.mCycleEdges.contains a b ↔ g.mCycleEdges.contains a b ∧ a ∉ stack ∧ b ∉ stack
  depth : ∀ c, lookup c g'.mCycleDepth = if c ∈ stack then none else lookup c g.mCycleDepth

theorem wp_destroyCycles (stack : List ℤ) {s : Observed α} (hj : Joins s.graph.mCycleEdges s.graph.mAllCycles)
    (hk : s.graph.mCycleDepth.keys = s.graph.mAllCycles) :
    wp (stack.forM fun otherCycle => do
        if otherCycle ∈ (← get).graph.mAllCycles then destroyCycle otherCycle)
      (fun _ s' => Destroyed s.graph stack s'.graph ∧ ∃ destroyed : List ℤ,
        s'.events = s.events ++ destroyed.map CycleEvent.destroy ∧
        ∀ c, c ∈ destroyed ↔ c ∈ stack ∧ c ∈ s.graph.mAllCycles)
      (fun _ _ => False) s := by
  induction stack generalizing s with
  | nil =>
    exact ⟨⟨rfl, rfl, rfl, rfl, by simp, by simp, by simp⟩, [], (append_nil _).symm, by simp⟩
  | cons c stack ih =>
    show wp (_ >>= fun _ => stack.forM _) _ _ s
    rw [wp_bind, wp_bind, wp_get, wp_ite]
    split
    · next hc =>
      rw [wp_destroyCycle]
      refine (ih ⟨fun a b hab => ?_, fun a b hab => ?_, fun a b hab => ?_⟩ ?_).imp fun _ s' hs' => ?_
      · simp only [contains_dropValue, contains_dropKey] at hab
        exact Finset.mem_erase.2 ⟨hab.1.2, hj.left a b hab.1.1⟩
      · simp only [contains_dropValue, contains_dropKey] at hab
        exact Finset.mem_erase.2 ⟨hab.2, hj.right a b hab.1.1⟩
      · simp only [contains_dropValue, contains_dropKey] at hab
        exact hj.ne a b hab.1.1
      · rw [← hk]
        exact keys_erase c s.graph.mCycleDepth
      · obtain ⟨hd, destroyed, hev, hdestroyed⟩ := hs'
        refine ⟨⟨hd.nodes, hd.edges, hd.nodeToCycle, hd.index, fun x => ?_, fun a b => ?_,
          fun x => ?_⟩, c :: destroyed, by rw [hev, append_assoc]; rfl, fun x => ?_⟩
        · rw [hd.allCycles, Finset.mem_erase, mem_cons]
          tauto
        · rw [hd.cycleEdges, contains_dropValue, contains_dropKey, mem_cons, mem_cons]
          tauto
        · rw [hd.depth, StdMap.lookup_erase]
          by_cases hx : x = c <;> simp [hx]
        · rw [mem_cons, hdestroyed, mem_cons, Finset.mem_erase]
          by_cases hx : x = c <;> simp [hx, hc]
    · next hc =>
      refine (ih hj hk).imp fun _ s' hs' => ?_
      obtain ⟨hd, destroyed, hev, hdestroyed⟩ := hs'
      refine ⟨⟨hd.nodes, hd.edges, hd.nodeToCycle, hd.index, fun x => ?_, fun a b => ?_,
        fun x => ?_⟩, destroyed, hev, fun x => ?_⟩
      · rw [hd.allCycles, mem_cons]
        have hne : x ∈ s.graph.mAllCycles → x ≠ c := fun hx he => hc (he ▸ hx)
        tauto
      · rw [hd.cycleEdges, mem_cons, mem_cons]
        have ha : s.graph.mCycleEdges.contains a b → a ≠ c := fun h he => hc (he ▸ hj.left a b h)
        have hb : s.graph.mCycleEdges.contains a b → b ≠ c := fun h he => hc (he ▸ hj.right a b h)
        tauto
      · rw [hd.depth]
        by_cases hx : x = c
        · have hnone : lookup c s.graph.mCycleDepth = none := by
            rw [lookup_eq_none, ← Finmap.mem_keys, hk]
            exact hc
          subst hx
          simp [hnone]
        · simp [hx]
      · rw [hdestroyed, mem_cons]
        have hne : x ∈ s.graph.mAllCycles → x ≠ c := fun hx he => hc (he ▸ hx)
        tauto

/-- The loop that puts nodes into a cycle. -/
theorem wp_setCycles (nodes : List α) (c : ℤ) {s : Observed α} : wp (nodes.forM fun node =>
        modifyGraph fun g => { g with mNodeToCycle := g.mNodeToCycle.set node c })
      (fun _ s' => ∃ m, s' = { s with graph := { s.graph with mNodeToCycle := m } } ∧
        ∀ n, m.tryGetValue n = if n ∈ nodes then some c else s.graph.mNodeToCycle.tryGetValue n)
      (fun _ _ => False) s := by
  induction nodes generalizing s with
  | nil => exact ⟨s.graph.mNodeToCycle, rfl, fun n => by simp⟩
  | cons node nodes ih =>
    show wp (_ >>= fun _ => nodes.forM _) _ _ s
    rw [wp_bind, wp_modifyGraph]
    refine ih.imp fun _ s' hs' => ?_
    obtain ⟨m, rfl, hm⟩ := hs'
    refine ⟨m, rfl, fun n => ?_⟩
    rw [hm, MapWithIndex.tryGetValue_set]
    by_cases h1 : n ∈ nodes <;> by_cases h2 : n = node <;> simp [h1, h2]

/-- The loops that rebuild the edges of a cycle: `pick` is the other end of an edge and `join` puts its
cycle beside the new one. -/
theorem wp_joinCycles (l : List (α × α)) (pick : α × α → α) (join : ℤ → ℤ × ℤ) (cycle : ℤ)
    {s : Observed α} (hl : ∀ e ∈ l, ∃ c, s.graph.mNodeToCycle.tryGetValue (pick e) = some c) :
    wp (l.forM fun e => do
        let other ← cycleFor (pick e)
        if other ≠ cycle then
          modifyGraph fun g =>
            { g with mCycleEdges := g.mCycleEdges.insert (join other).1 (join other).2 })
      (fun _ s' => ∃ CE, s' = { s with graph := { s.graph with mCycleEdges := CE } } ∧
        ∀ a b, CE.contains a b ↔ s.graph.mCycleEdges.contains a b ∨
          ∃ e ∈ l, ∃ c, s.graph.mNodeToCycle.tryGetValue (pick e) = some c ∧ c ≠ cycle ∧ join c = (a, b))
      (fun _ _ => False) s := by
  induction l generalizing s with
  | nil => exact ⟨s.graph.mCycleEdges, rfl, fun a b => by simp⟩
  | cons e l ih =>
    rw [forall_mem_cons] at hl
    obtain ⟨⟨c, hc⟩, hl⟩ := hl
    show wp (_ >>= fun _ => l.forM _) _ _ s
    rw [wp_bind, wp_bind, wp_cycleFor hc, wp_ite]
    split
    · next hne =>
      rw [wp_modifyGraph]
      refine (ih (s := { s with
        graph := { s.graph with
          mCycleEdges := s.graph.mCycleEdges.insert (join c).1 (join c).2 } }) hl).imp fun _ s' hs' => ?_
      obtain ⟨CE, rfl, hcontains⟩ := hs'
      refine ⟨CE, rfl, fun a b => ?_⟩
      have hjoin : (a = (join c).1 ∧ b = (join c).2) ↔ ∃ c',
          s.graph.mNodeToCycle.tryGetValue (pick e) = some c' ∧ c' ≠ cycle ∧ join c' = (a, b) := by
        rw [hc]
        constructor
        · rintro ⟨rfl, rfl⟩
          exact ⟨c, rfl, hne, rfl⟩
        · rintro ⟨c', he, -, hj⟩
          rw [Option.some.inj he, hj]
          exact ⟨rfl, rfl⟩
      rw [hcontains, TwoWaySetMap.contains_insert, exists_mem_cons_iff, hjoin, or_assoc, or_left_comm]
    · next heq =>
      refine (ih hl).imp fun _ s' hs' => ?_
      obtain ⟨CE, rfl, hcontains⟩ := hs'
      refine ⟨CE, rfl, fun a b => ?_⟩
      have hno : ¬ ∃ c', s.graph.mNodeToCycle.tryGetValue (pick e) = some c' ∧ c' ≠ cycle ∧ join c' = (a, b) := by
        rintro ⟨c', he, hne, -⟩
        exact heq (Option.some.inj (hc.symm.trans he) ▸ hne)
      rw [hcontains, exists_mem_cons_iff, or_iff_right hno]

/-! ## The collapse -/

/-- What a collapse makes of a graph. -/
structure Collapsed (s : Observed α) (stack : List ℤ) (cycle : ℤ) (s' : Observed α) : Prop where
  fresh : cycle = s.graph.mCycleIndex
  index : s'.graph.mCycleIndex = cycle + 1
  nodes : s'.graph.mNodes = s.graph.mNodes
  edges : s'.graph.mEdges = s.graph.mEdges
  label : ∀ n, s'.graph.mNodeToCycle.tryGetValue n =
    if ∃ c ∈ stack, s.graph.mNodeToCycle.tryGetValue n = some c then some cycle
    else s.graph.mNodeToCycle.tryGetValue n
  depth : ∀ c, s'.graph.mCycleDepth.get c = if c = cycle then -1 else if c ∈ stack then 0 else s.graph.mCycleDepth.get c
  indexed : s'.graph.Indexed
  events : ∀ e ∈ s.events, e ∈ s'.events
  logged : .collapse stack s.graph.mCycleEdges ∈ s'.events

/-- The edges between the cycles after a collapse: those between other cycles, and those that the loops
put there. -/
theorem quotient_collapse {g : GraphCycles α} (h : g.Indexed) {stack : List ℤ} {cycle : ℤ}
    (hfresh : cycle ∉ g.mAllCycles) {l : α → Option ℤ}
    (hlabel : ∀ n, l n = if ∃ c ∈ stack, g.mNodeToCycle.tryGetValue n = some c then some cycle
      else g.mNodeToCycle.tryGetValue n) (a b : ℤ) :
    quotient g.mEdges.contains l a b ↔ (g.mCycleEdges.contains a b ∧ a ∉ stack ∧ b ∉ stack) ∨
      (a = cycle ∧ b ≠ cycle ∧ ∃ u v, g.mEdges.contains u v ∧ l u = some cycle ∧ l v = some b) ∨
      (b = cycle ∧ a ≠ cycle ∧ ∃ u v, g.mEdges.contains u v ∧ l v = some cycle ∧ l u = some a) := by
  have hold : ∀ {n c}, c ≠ cycle → (l n = some c ↔ g.mNodeToCycle.tryGetValue n = some c ∧ c ∉ stack) := by
    intro n c hc
    rw [hlabel]
    split
    · next hn =>
      obtain ⟨d, hd, hnd⟩ := hn
      refine ⟨fun he => absurd (Option.some.inj he).symm hc, fun ⟨he, hcs⟩ => ?_⟩
      exact absurd (Option.some.inj (hnd.symm.trans he) ▸ hd) hcs
    · next hn => exact ⟨fun he => ⟨he, fun hcs => hn ⟨c, hcs, he⟩⟩, And.left⟩
  have hne : ∀ {n c}, g.mNodeToCycle.tryGetValue n = some c → c ≠ cycle := fun hn he => hfresh (he ▸ h.mem_cycle hn)
  constructor
  · rintro ⟨hab, u, v, huv, hu, hv⟩
    by_cases ha : a = cycle
    · subst ha
      exact .inr (.inl ⟨rfl, hab.symm, u, v, huv, hu, hv⟩)
    · by_cases hb : b = cycle
      · subst hb
        exact .inr (.inr ⟨rfl, hab, u, v, huv, hv, hu⟩)
      · rw [hold ha] at hu
        rw [hold hb] at hv
        exact .inl ⟨(h.edge a b).2 ⟨hab, u, v, huv, hu.1, hv.1⟩, hu.2, hv.2⟩
  · rintro (⟨hab, ha, hb⟩ | ⟨rfl, hb, u, v, huv, hu, hv⟩ | ⟨rfl, ha, u, v, huv, hv, hu⟩)
    · obtain ⟨hne', u, v, huv, hu, hv⟩ := (h.edge a b).1 hab
      exact ⟨hne', u, v, huv, (hold (hne hu)).2 ⟨hu, ha⟩, (hold (hne hv)).2 ⟨hv, hb⟩⟩
    · exact ⟨hb.symm, u, v, huv, hu, hv⟩
    · exact ⟨ha, u, v, huv, hu, hv⟩

theorem Indexed.collapse {s : Observed α} (h : s.graph.Indexed) {stack : List ℤ}
    (hstack : ∃ c ∈ stack, c ∈ s.graph.mAllCycles) :
    wp (collapse stack) (fun cycle s' => Collapsed s stack cycle s' ∧ ∃ destroyed : List ℤ,
      s'.events = s.events ++ .collapse stack s.graph.mCycleEdges ::
        (destroyed.map CycleEvent.destroy ++ [.create cycle]) ∧
      ∀ c, c ∈ destroyed ↔ c ∈ stack ∧ c ∈ s.graph.mAllCycles) (fun _ _ => False) s := by
  unfold GraphCycles.collapse
  rw [wp_bind, wp_get, wp_bind, wp_observe]
  set nodes := ascending
    (stack.flatMap fun cycle => ascending (s.graph.mNodeToCycle.getKeys cycle)).toFinset with hnodes
  have hmem : ∀ n, n ∈ nodes ↔ ∃ c ∈ stack, s.graph.mNodeToCycle.tryGetValue n = some c := by
    intro n
    rw [hnodes, mem_ascending, mem_toFinset, mem_flatMap]
    simp only [mem_ascending, MapWithIndex.mem_getKeys]
  rw [wp_bind]
  refine (wp_destroyCycles stack (s := { s with
    events := s.events ++ [.collapse stack s.graph.mCycleEdges] }) h.joins h.keys).imp fun _ s₁ h₁ => ?_
  obtain ⟨hd, destroyed, hdev, hdestroyed⟩ := h₁
  have hev : s.events ++ [.collapse stack s.graph.mCycleEdges] <+: s₁.events := ⟨_, hdev.symm⟩
  rw [wp_bind, wp_createCycle, wp_bind]
  refine (wp_setCycles _ _).imp fun _ s₂ h₂ => ?_
  obtain ⟨m, rfl, hlabel⟩ := h₂
  rw [hd.nodeToCycle] at hlabel
  replace hlabel : ∀ n, m.tryGetValue n = if ∃ c ∈ stack, s.graph.mNodeToCycle.tryGetValue n = some c
      then some s₁.graph.mCycleIndex else s.graph.mNodeToCycle.tryGetValue n :=
    fun n => (hlabel n).trans (if_congr (hmem n) rfl rfl)
  have hlabelled : ∀ n ∈ s.graph.mNodes, ∃ c, m.tryGetValue n = some c := by
    intro n hn
    rw [hlabel]
    split
    · exact ⟨_, rfl⟩
    · exact (h.node n).1 hn
  rw [wp_bind]
  refine (wp_joinCycles _ Prod.snd (fun c => (_, c)) _ fun e he => ?_).imp fun _ s₃ h₃ => ?_
  · exact hlabelled _ (h.dest_mem _ _ (mem_edgesFrom.1 he).2)
  obtain ⟨CE₁, rfl, hfrom⟩ := h₃
  rw [wp_bind]
  refine (wp_joinCycles _ Prod.fst (fun c => (c, _)) _ fun e he => ?_).imp fun _ s₄ h₄ => ?_
  · exact hlabelled _ (h.source_mem _ _ (mem_edgesInto.1 he).2)
  obtain ⟨CE₂, rfl, hinto⟩ := h₄
  rw [wp_bind, wp_modifyGraph, wp_pure]
  have hfresh : s₁.graph.mCycleIndex ∉ s.graph.mAllCycles := fun hc => (h.lt _ hc).ne hd.index
  have hnew : ∀ n, m.tryGetValue n = some s₁.graph.mCycleIndex ↔ n ∈ nodes := by
    intro n
    rw [hlabel, hmem]
    split
    · next hn => exact iff_of_true rfl hn
    · next hn => exact iff_of_false (fun he => hfresh (h.mem_cycle he)) hn
  have hedge : ∀ a b, CE₂.contains a b ↔ quotient s.graph.mEdges.contains m.tryGetValue a b := by
    intro a b
    rw [quotient_collapse h hfresh hlabel, hinto, hfrom, hd.cycleEdges, or_assoc]
    refine or_congr Iff.rfl (or_congr ⟨?_, ?_⟩ ⟨?_, ?_⟩)
    · rintro ⟨⟨u, v⟩, he, c, hv, hc, hj⟩
      obtain ⟨rfl, rfl⟩ := Prod.mk.inj hj
      obtain ⟨hu, huv⟩ := mem_edgesFrom.1 he
      exact ⟨rfl, hc, u, v, huv, (hnew u).2 hu, hv⟩
    · rintro ⟨rfl, hb, u, v, huv, hu, hv⟩
      exact ⟨(u, v), mem_edgesFrom.2 ⟨(hnew u).1 hu, huv⟩, b, hv, hb, rfl⟩
    · rintro ⟨⟨u, v⟩, he, c, hu, hc, hj⟩
      obtain ⟨rfl, rfl⟩ := Prod.mk.inj hj
      obtain ⟨hv, huv⟩ := mem_edgesInto.1 he
      exact ⟨rfl, hc, u, v, huv, (hnew v).2 hv, hu⟩
    · rintro ⟨rfl, ha, u, v, huv, hv, hu⟩
      exact ⟨(u, v), mem_edgesInto.2 ⟨(hnew v).1 hv, huv⟩, a, hu, ha, rfl⟩
  have hcycle : ∀ c, c ∈ insert s₁.graph.mCycleIndex s₁.graph.mAllCycles ↔ ∃ n, m.tryGetValue n = some c := by
    intro c
    rw [Finset.mem_insert, hd.allCycles]
    constructor
    · rintro (rfl | ⟨hc, hcs⟩)
      · obtain ⟨c, hc, hlive⟩ := hstack
        obtain ⟨n, hn⟩ := (h.cycle c).1 hlive
        exact ⟨n, (hnew n).2 ((hmem n).2 ⟨c, hc, hn⟩)⟩
      · obtain ⟨n, hn⟩ := (h.cycle c).1 hc
        refine ⟨n, ?_⟩
        rw [hlabel, if_neg, hn]
        rintro ⟨d, hds, hnd⟩
        exact hcs (Option.some.inj (hn.symm.trans hnd) ▸ hds)
    · rintro ⟨n, hn⟩
      rw [hlabel] at hn
      split at hn
      · exact .inl (Option.some.inj hn).symm
      · next hno => exact .inr ⟨h.mem_cycle hn, fun hcs => hno ⟨c, hcs, hn⟩⟩
  refine ⟨⟨hd.index, rfl, hd.nodes, hd.edges, hlabel, fun c => ?_, ⟨?_, ?_, ?_, ?_, hcycle, ?_, ?_, ?_⟩,
    fun e he => mem_append_left _ (hev.subset (mem_append_left _ he)),
    mem_append_left _ (hev.subset (mem_append_right _ (mem_singleton_self _)))⟩,
    destroyed, ?_, hdestroyed⟩
  · rw [get_insert]
    refine if_congr Iff.rfl rfl ?_
    rw [StdMap.get, hd.depth]
    split <;> rfl
  · exact fun u v huv => hd.nodes ▸ h.source_mem u v (hd.edges ▸ huv)
  · exact fun u v huv => hd.nodes ▸ h.dest_mem u v (hd.edges ▸ huv)
  · exact fun u v huv => h.ne u v (hd.edges ▸ huv)
  · intro n
    rw [hd.nodes]
    refine ⟨hlabelled n, fun hsome => ?_⟩
    obtain ⟨c, hc⟩ := hsome
    rw [hlabel] at hc
    split at hc
    · next hn =>
      obtain ⟨d, -, hd⟩ := hn
      exact (h.node n).2 ⟨d, hd⟩
    · exact (h.node n).2 ⟨c, hc⟩
  · intro a b
    rw [hd.edges]
    exact hedge a b
  · ext c
    rw [mem_keys_iff, StdMap.lookup_insert, Finset.mem_insert, hd.allCycles, hd.depth, ← h.keys, mem_keys_iff]
    split
    · next hc => exact iff_of_true ⟨_, rfl⟩ (.inl hc)
    · next hc =>
      rw [or_iff_right hc]
      split
      · next hcs => exact iff_of_false (by simp) fun h => h.2 hcs
      · next hcs => exact (and_iff_left hcs).symm
  · show ∀ c ∈ insert _ s₁.graph.mAllCycles, c < s₁.graph.mCycleIndex + 1
    intro c hc
    rcases Finset.mem_insert.1 hc with rfl | hc
    · omega
    · have hlt : c < s₁.graph.mCycleIndex := hd.index ▸ h.lt c ((hd.allCycles c).1 hc).1
      omega
  · rw [hdev, append_assoc, append_assoc, singleton_append]

end GraphCycles
