import Ufora.Graphs.Edges

/-!
# Splitting a cycle

An edge dropped inside a cycle takes the cycle apart: each node gets a cycle of its own, the edges of
the nodes are taken out, and then put in again (`Stable.splitCycle`).
-/

open Ordered Effect List Finmap TwoWaySetMap StdMap MapWithIndex Option Digraph

namespace GraphCycles

variable {α : Type} [LinearOrder α]

/-! ## The nodes -/

/-- What is left of a graph when nodes get cycles of their own. -/
structure Singled (g : GraphCycles α) (nodes : List α) (g' : GraphCycles α) : Prop where
  sameNodes : g'.mNodes = g.mNodes
  edges : g'.mEdges = g.mEdges
  cycleEdges : g'.mCycleEdges = g.mCycleEdges
  index : g.mCycleIndex ≤ g'.mCycleIndex
  old : ∀ n ∉ nodes, g'.mNodeToCycle.tryGetValue n = g.mNodeToCycle.tryGetValue n
  new : ∀ n ∈ nodes, ∃ c, g'.mNodeToCycle.tryGetValue n = some c ∧ g.mCycleIndex ≤ c ∧ c < g'.mCycleIndex
  inj : ∀ n ∈ nodes, ∀ m ∈ nodes, g'.mNodeToCycle.tryGetValue n = g'.mNodeToCycle.tryGetValue m → n = m
  onto : ∀ c, g.mCycleIndex ≤ c → c < g'.mCycleIndex → ∃ n ∈ nodes, g'.mNodeToCycle.tryGetValue n = some c
  allCycles : ∀ c, c ∈ g'.mAllCycles ↔ c ∈ g.mAllCycles ∨ g.mCycleIndex ≤ c ∧ c < g'.mCycleIndex
  depth : ∀ c, lookup c g'.mCycleDepth =
    if g.mCycleIndex ≤ c ∧ c < g'.mCycleIndex then some 0 else lookup c g.mCycleDepth

theorem wp_singleNodes {nodes : List α} (hnodup : nodes.Nodup) {s : Observed α} : wp (nodes.forM fun n => do
        let newCycleIndex ← createCycle
        modifyGraph fun g =>
          { g with
            mNodeToCycle := g.mNodeToCycle.set n newCycleIndex
            mCycleDepth := Finmap.insert newCycleIndex 0 g.mCycleDepth })
      (fun _ s' => Singled s.graph nodes s'.graph ∧ ∃ created : List ℤ,
        s'.events = s.events ++ created.map CycleEvent.create ∧
        ∀ c, c ∈ created ↔ s.graph.mCycleIndex ≤ c ∧ c < s'.graph.mCycleIndex)
      (fun _ _ => False) s := by
  induction nodes generalizing s with
  | nil =>
    refine ⟨⟨rfl, rfl, rfl, le_rfl, fun _ _ => rfl, nofun, nofun, fun c h h' => ?_, fun c => ?_,
      fun c => ?_⟩, [], (append_nil _).symm, fun c => ?_⟩
    · exact absurd h' (not_lt.2 h)
    · exact (or_iff_left fun h => absurd h.2 (not_lt.2 h.1)).symm
    · rw [if_neg fun h => absurd h.2 (not_lt.2 h.1)]
    · exact iff_of_false not_mem_nil fun h => absurd h.2 (not_lt.2 h.1)
  | cons n nodes ih =>
    rw [nodup_cons] at hnodup
    show wp (_ >>= fun _ => nodes.forM _) _ _ s
    rw [wp_bind, wp_bind, wp_createCycle, wp_modifyGraph]
    refine (ih hnodup.2).imp fun _ s' hs' => ?_
    obtain ⟨hs, created, hev, hcreated⟩ := hs'
    have hidx : s.graph.mCycleIndex + 1 ≤ s'.graph.mCycleIndex := hs.index
    have hn : s'.graph.mNodeToCycle.tryGetValue n = some s.graph.mCycleIndex := by
      rw [hs.old n hnodup.1]
      rw [tryGetValue_set, if_pos rfl]
    have hnew : ∀ m ∈ nodes, s'.graph.mNodeToCycle.tryGetValue m ≠ some s.graph.mCycleIndex := by
      intro m hm he
      obtain ⟨c, hc, hlt, -⟩ := hs.new m hm
      obtain rfl := some.inj (hc.symm.trans he)
      exact absurd hlt (not_le.2 (Int.lt_succ _))
    refine ⟨⟨hs.sameNodes, hs.edges, hs.cycleEdges, by omega, fun m hm => ?_, fun m hm => ?_,
      fun m hm k hk he => ?_, fun c hc hlt => ?_, fun c => ?_, fun c => ?_⟩,
      s.graph.mCycleIndex :: created, by rw [hev, append_assoc]; rfl, fun c => ?_⟩
    · rw [mem_cons, not_or] at hm
      rw [hs.old m hm.2]
      rw [tryGetValue_set, if_neg hm.1]
    · rcases mem_cons.1 hm with rfl | hm
      · exact ⟨_, hn, le_rfl, by omega⟩
      · obtain ⟨c, hc, hle, hlt⟩ := hs.new m hm
        replace hle : s.graph.mCycleIndex + 1 ≤ c := hle
        exact ⟨c, hc, by omega, hlt⟩
    · rcases mem_cons.1 hm with hm | hm <;> rcases mem_cons.1 hk with hk | hk
      · rw [hm, hk]
      · exact absurd ((hm ▸ he).symm.trans hn) (hnew k hk)
      · exact absurd ((hk ▸ he).trans hn) (hnew m hm)
      · exact hs.inj m hm k hk he
    · rcases eq_or_lt_of_le hc with rfl | hc
      · exact ⟨n, mem_cons_self, hn⟩
      · obtain ⟨m, hm, he⟩ := hs.onto c hc hlt
        exact ⟨m, mem_cons_of_mem _ hm, he⟩
    · rw [hs.allCycles, Finset.mem_insert]
      show _ ∨ s.graph.mCycleIndex + 1 ≤ c ∧ _ ↔ _
      constructor
      · rintro ((rfl | hc) | hc)
        · exact .inr ⟨le_rfl, by omega⟩
        · exact .inl hc
        · exact .inr ⟨by omega, hc.2⟩
      · rintro (hc | hc)
        · exact .inl (.inr hc)
        · rcases eq_or_lt_of_le hc.1 with rfl | hlt
          · exact .inl (.inl rfl)
          · exact .inr ⟨hlt, hc.2⟩
    · rw [hs.depth, StdMap.lookup_insert]
      show (if s.graph.mCycleIndex + 1 ≤ c ∧ _ then _ else _) = _
      by_cases hc : c = s.graph.mCycleIndex
      · subst hc
        rw [if_neg (by omega), if_pos rfl, if_pos ⟨le_rfl, by omega⟩]
      · rw [if_neg hc]
        refine if_congr ?_ rfl rfl
        omega
    · rw [mem_cons, hcreated]
      show _ ∨ s.graph.mCycleIndex + 1 ≤ c ∧ _ ↔ _
      omega

/-! ## The edges -/

theorem edgesFrom_singleton (mEdges : TwoWaySetMap α α) (n : α) : (edgesFrom mEdges [n]).Nodup := by
  rw [edgesFrom, flatMap_singleton]
  exact (ascending_nodup _).map fun _ _ he => (Prod.mk.inj he).2

theorem edgesInto_singleton (mEdges : TwoWaySetMap α α) (n : α) : (edgesInto mEdges [n]).Nodup := by
  rw [edgesInto, flatMap_singleton]
  exact (ascending_nodup _).map fun _ _ he => (Prod.mk.inj he).1

variable {mEdges : TwoWaySetMap α α}

/-- The edges that are left do not touch the nodes. -/
theorem contains_takeEdges {nodes : List α} {u v : α} :
    (takeEdges nodes mEdges).2.contains u v ↔ mEdges.contains u v ∧ u ∉ nodes ∧ v ∉ nodes := by
  induction nodes generalizing mEdges with
  | nil => simp [takeEdges]
  | cons n nodes ih =>
    rw [takeEdges]
    rw [ih, contains_dropKey, contains_dropValue, mem_cons, mem_cons, not_or, not_or]
    tauto

/-- The edges that are taken touch the nodes. -/
theorem mem_takeEdges {nodes : List α} {u v : α} :
    (u, v) ∈ (takeEdges nodes mEdges).1 ↔ mEdges.contains u v ∧ (u ∈ nodes ∨ v ∈ nodes) := by
  induction nodes generalizing mEdges with
  | nil => simp [takeEdges]
  | cons n nodes ih =>
    rw [takeEdges]
    rw [mem_append, mem_append, mem_edgesFrom, mem_edgesInto, ih,
      contains_dropKey, contains_dropValue, List.mem_singleton,
      List.mem_singleton, mem_cons, mem_cons]
    tauto

/-- No edge is taken twice. -/
theorem takeEdges_nodup {nodes : List α}
    (hne : ∀ u v, mEdges.contains u v → u ≠ v) : (takeEdges nodes mEdges).1.Nodup := by
  induction nodes generalizing mEdges with
  | nil => exact nodup_nil
  | cons n nodes ih =>
    rw [takeEdges]
    have hrest : ∀ u v, ((mEdges.dropValue n).dropKey n).contains u v → mEdges.contains u v ∧ u ≠ n ∧ v ≠ n := by
      intro u v huv
      rw [contains_dropKey, contains_dropValue] at huv
      exact ⟨huv.1.1, huv.2, huv.1.2⟩
    refine (List.Nodup.append (edgesFrom_singleton mEdges n) (edgesInto_singleton mEdges n) ?_).append
      (ih fun u v huv => hne u v (hrest u v huv).1) ?_
    · rintro ⟨u, v⟩ hfrom hinto
      obtain ⟨hu, huv⟩ := mem_edgesFrom.1 hfrom
      obtain ⟨hv, -⟩ := mem_edgesInto.1 hinto
      exact hne u v huv ((mem_singleton.1 hu).trans (mem_singleton.1 hv).symm)
    · rintro ⟨u, v⟩ hhere htaken
      obtain ⟨-, hu, hv⟩ := hrest u v (mem_takeEdges.1 htaken).1
      rcases mem_append.1 hhere with hfrom | hinto
      · exact hu (mem_singleton.1 (mem_edgesFrom.1 hfrom).1)
      · exact hv (mem_singleton.1 (mem_edgesInto.1 hinto).1)

/-! ## The cycle -/

/-- Before a cycle is split: its nodes may not reach each other, all else is as between two calls. -/
structure Splitting (cycle : ℤ) (s : Observed α) : Prop where
  indexed : s.graph.Indexed
  live : cycle ∈ s.graph.mAllCycles
  settled : ∀ c, Settled s.graph.mCycleEdges s.graph.mCycleDepth (Spared s.graph []) c
  connected : s.Clean → ∀ c ≠ cycle, ∀ u v,
    s.graph.mNodeToCycle.tryGetValue u = some c → s.graph.mNodeToCycle.tryGetValue v = some c →
      Relation.ReflTransGen s.graph.mEdges.contains u v

theorem Splitting.acyclic {c : ℤ} {s : Observed α} (h : Splitting c s) :
    Digraph.Acyclic s.graph.mCycleEdges.contains :=
  acyclic_of_rank s.graph.mCycleDepth.get fun a _ hab => (h.settled a).lt hab

/-- The graph whose cycle is destroyed. -/
def withoutCycle (g : GraphCycles α) (cycle : ℤ) : GraphCycles α := { g with
    mNodeToCycle := g.mNodeToCycle.dropValue cycle
    mCycleDepth := erase cycle g.mCycleDepth
    mAllCycles := g.mAllCycles.erase cycle
    mCycleEdges := (g.mCycleEdges.dropKey cycle).dropValue cycle }

variable {s : Observed α} {cycle : ℤ} {g' : GraphCycles α} {nodes : List α}

section
variable (hs : Singled (s.graph.withoutCycle cycle) nodes g')
include hs

/-- The nodes of the other cycles stay in them. -/
theorem Singled.label_old (hnodes : ∀ n, n ∈ nodes ↔ s.graph.mNodeToCycle.tryGetValue n = some cycle) {n : α} {c : ℤ}
    (hc : c < s.graph.mCycleIndex) :
    g'.mNodeToCycle.tryGetValue n = some c ↔ s.graph.mNodeToCycle.tryGetValue n = some c ∧ c ≠ cycle := by
  by_cases hn : n ∈ nodes
  · obtain ⟨d, hd, hle, -⟩ := hs.new n hn
    refine iff_of_false (fun he => ?_) fun ⟨he, hne⟩ => ?_
    · obtain rfl := some.inj (hd.symm.trans he)
      exact absurd hc (not_lt.2 hle)
    · exact hne (some.inj (he.symm.trans ((hnodes n).1 hn)))
  · rw [hs.old n hn]
    show (MapWithIndex.dropValue _ _).tryGetValue n = _ ↔ _
    rw [tryGetValue_dropValue, if_neg fun he => hn ((hnodes n).2 he)]
    exact ⟨fun he => ⟨he, fun hc => hn ((hnodes n).2 (hc ▸ he))⟩, And.left⟩

/-- The new cycles have the nodes of the old one. -/
theorem Splitting.label_new (h : Splitting cycle s)
    (hnodes : ∀ n, n ∈ nodes ↔ s.graph.mNodeToCycle.tryGetValue n = some cycle) {n : α} {c : ℤ}
    (hc : s.graph.mCycleIndex ≤ c) (he : g'.mNodeToCycle.tryGetValue n = some c) : n ∈ nodes := by
  by_contra hn
  rw [hs.old n hn] at he
  replace he : (s.graph.mNodeToCycle.dropValue cycle).tryGetValue n = some c := he
  rw [tryGetValue_dropValue, if_neg fun he => hn ((hnodes n).2 he)] at he
  exact absurd (h.indexed.lt c (h.indexed.mem_cycle he)) (not_lt.2 hc)

theorem Singled.mem_allCycles (c : ℤ) : c ∈ g'.mAllCycles ↔
    (c ∈ s.graph.mAllCycles ∧ c ≠ cycle) ∨ s.graph.mCycleIndex ≤ c ∧ c < g'.mCycleIndex := by
  rw [hs.allCycles, and_comm (a := c ∈ _)]
  exact or_congr Finset.mem_erase Iff.rfl

theorem Singled.contains_cycleEdges (a b : ℤ) :
    g'.mCycleEdges.contains a b ↔ s.graph.mCycleEdges.contains a b ∧ a ≠ cycle ∧ b ≠ cycle := by
  rw [hs.cycleEdges]
  show (TwoWaySetMap.dropValue _ _).contains a b ↔ _
  rw [contains_dropValue, contains_dropKey, and_assoc]

/-- Once its nodes have their own cycles, only the edges of the old one have to be put in again. -/
theorem Splitting.stable (h : Splitting cycle s)
    (hnodes : ∀ n, n ∈ nodes ↔ s.graph.mNodeToCycle.tryGetValue n = some cycle) {es : List CycleEvent}
    (hev : s.events <+: es) : Stable (takeEdges nodes s.graph.mEdges).1
    ⟨{ g' with mEdges := (takeEdges nodes s.graph.mEdges).2 }, es⟩ := by
  have hi := h.indexed
  have hlt : cycle < s.graph.mCycleIndex := hi.lt cycle h.live
  have hindex : s.graph.mCycleIndex ≤ g'.mCycleIndex := hs.index
  have hold := fun {n c} => Singled.label_old hs hnodes (n := n) (c := c)
  have hnew := fun {n c} => h.label_new hs hnodes (n := n) (c := c)
  have hall := Singled.mem_allCycles (s := s) hs
  have hedges := Singled.contains_cycleEdges (s := s) hs
  have hdepth : ∀ c, g'.mCycleDepth.get c =
      if s.graph.mCycleIndex ≤ c ∨ c = cycle then 0 else s.graph.mCycleDepth.get c := by
    intro c
    have herase : lookup c (s.graph.withoutCycle cycle).mCycleDepth =
        if c = cycle then none else lookup c s.graph.mCycleDepth := lookup_erase _ _ _
    rw [StdMap.get, hs.depth, herase]
    by_cases hc : s.graph.mCycleIndex ≤ c ∨ c = cycle
    · rw [if_pos hc]
      split
      · rfl
      · split
        · rfl
        · next hne =>
          have hle := hc.resolve_right hne
          have hdead : c ∉ s.graph.mCycleDepth := by
            rw [← Finmap.mem_keys, hi.keys]
            exact fun hlive => absurd (hi.lt c hlive) (not_lt.2 hle)
          rw [lookup_eq_none.2 hdead]
          rfl
    · rw [if_neg hc, if_neg fun he => hc (.inl he.1), if_neg fun he => hc (.inr he)]
      rfl
  refine ⟨⟨fun u v huv => ?_, fun u v huv => ?_, fun u v huv => ?_, fun n => ?_, fun c => ?_,
    fun a b => ?_, ?_, fun c hc => ?_⟩, fun c => ?_, fun hclean u v a hu hv => ?_⟩
  · rw [hs.sameNodes]
    exact hi.source_mem u v (contains_takeEdges.1 huv).1
  · rw [hs.sameNodes]
    exact hi.dest_mem u v (contains_takeEdges.1 huv).1
  · exact hi.ne u v (contains_takeEdges.1 huv).1
  · rw [hs.sameNodes, show n ∈ (s.graph.withoutCycle cycle).mNodes ↔ _ from hi.node n]
    constructor
    · rintro ⟨c, hc⟩
      by_cases hn : n ∈ nodes
      · obtain ⟨d, hd, -⟩ := hs.new n hn
        exact ⟨d, hd⟩
      · refine ⟨c, (hold (hi.lt c (hi.mem_cycle hc))).2 ⟨hc, fun he => hn ((hnodes n).2 ?_)⟩⟩
        rw [hc, he]
    · rintro ⟨c, hc⟩
      by_cases hlt : c < s.graph.mCycleIndex
      · exact ⟨c, ((hold hlt).1 hc).1⟩
      · exact ⟨cycle, (hnodes n).1 (hnew (not_lt.1 hlt) hc)⟩
  · rw [hall]
    constructor
    · rintro (⟨hc, hne⟩ | ⟨hle, hlt⟩)
      · obtain ⟨n, hn⟩ := (hi.cycle c).1 hc
        exact ⟨n, (hold (hi.lt c hc)).2 ⟨hn, hne⟩⟩
      · obtain ⟨n, -, hn⟩ := hs.onto c hle hlt
        exact ⟨n, hn⟩
    · rintro ⟨n, hn⟩
      by_cases hlt : c < s.graph.mCycleIndex
      · obtain ⟨hn, hne⟩ := (hold hlt).1 hn
        exact .inl ⟨hi.mem_cycle hn, hne⟩
      · obtain ⟨d, hd, hle, hlt'⟩ := hs.new n (hnew (not_lt.1 hlt) hn)
        obtain rfl := some.inj (hd.symm.trans hn)
        exact .inr ⟨hle, hlt'⟩
  · rw [hedges, hi.edge]
    constructor
    · rintro ⟨⟨hab, u, v, huv, hu, hv⟩, ha, hb⟩
      refine ⟨hab, u, v, contains_takeEdges.2 ⟨huv, fun hn => ?_, fun hn => ?_⟩, ?_, ?_⟩
      · exact ha (some.inj (hu.symm.trans ((hnodes u).1 hn)))
      · exact hb (some.inj (hv.symm.trans ((hnodes v).1 hn)))
      · exact (hold (hi.lt a (hi.mem_cycle hu))).2 ⟨hu, ha⟩
      · exact (hold (hi.lt b (hi.mem_cycle hv))).2 ⟨hv, hb⟩
    · rintro ⟨hab, u, v, huv, hu, hv⟩
      obtain ⟨huv, hun, hvn⟩ := contains_takeEdges.1 huv
      have ha : a < s.graph.mCycleIndex := not_le.1 fun hle => hun (hnew hle hu)
      have hb : b < s.graph.mCycleIndex := not_le.1 fun hle => hvn (hnew hle hv)
      rw [hold ha] at hu
      rw [hold hb] at hv
      exact ⟨⟨hab, u, v, huv, hu.1, hv.1⟩, hu.2, hv.2⟩
  · ext c
    rw [mem_keys_iff, hs.depth, hs.allCycles]
    split
    · next hc => exact iff_of_true ⟨_, rfl⟩ (.inr hc)
    · next hc =>
      rw [or_iff_left hc, ← mem_keys_iff]
      show c ∈ Finmap.keys (erase _ _) ↔ c ∈ Finset.erase _ _
      rw [keys_erase, hi.keys]
  · rcases (hall c).1 hc with hc | hc
    · exact (hi.lt c hc.1).trans_le hindex
    · exact hc.2
  · by_cases hc : s.graph.mCycleIndex ≤ c ∨ c = cycle
    · have hno : ∀ b, ¬ g'.mCycleEdges.contains c b := by
        intro b hcb
        obtain ⟨hcb, hne, -⟩ := (hedges c b).1 hcb
        exact hc.elim (fun hle => absurd (hi.lt c (hi.joins.left c b hcb)) (not_lt.2 hle)) hne
      left
      rw [hdepth, if_pos hc]
      exact le_antisymm depth_nonneg (depth_le_iff.2 ⟨le_rfl, fun b hb => absurd hb (hno b)⟩)
    · have hkept : ∀ b, s.graph.mCycleEdges.contains c b → b ≠ cycle →
          s.graph.mCycleDepth.get b = g'.mCycleDepth.get b := by
        intro b hb hne
        rw [hdepth, if_neg]
        rintro (hle | he)
        · exact absurd (hi.lt b (hi.joins.right c b hb)) (not_lt.2 hle)
        · exact hne he
      have hself : s.graph.mCycleDepth.get c = g'.mCycleDepth.get c := by rw [hdepth, if_neg hc]
      by_cases hparent : s.graph.mCycleEdges.contains c cycle
      · right
        obtain ⟨-, u, v, huv, hu, hv⟩ := (hi.edge c cycle).1 hparent
        refine ⟨⟨(u, v), mem_takeEdges.2 ⟨huv, .inr ((hnodes v).2 hv)⟩,
          (hold (not_le.1 fun hle => hc (.inl hle))).2 ⟨hu, fun he => hc (.inr he)⟩⟩, ?_⟩
        rw [depth_le_iff, ← hself]
        refine ⟨?_, fun b hb => ?_⟩
        · rcases h.settled c with he | he
          · exact he ▸ depth_nonneg
          · exact depth_nonneg.trans he.2
        · obtain ⟨hb, -, hne⟩ := (hedges c b).1 hb
          rw [← hkept b hb hne]
          exact (h.settled c).lt hb
      · have hne : ∀ b, s.graph.mCycleEdges.contains c b → b ≠ cycle := fun b hb he =>
          hparent (he ▸ hb)
        refine (h.settled c).of_eq (fun b => ?_) hself (fun b hb => hkept b hb (hne b hb)) ?_
        · rw [hedges]
          exact ⟨fun hb => ⟨hb, fun he => hc (.inr he), hne b hb⟩, And.left⟩
        · rintro ⟨e, he, -⟩
          exact absurd he not_mem_nil
  · by_cases ha : a < s.graph.mCycleIndex
    · obtain ⟨hu, hne⟩ := (hold ha).1 hu
      obtain ⟨hv, -⟩ := (hold ha).1 hv
      refine reaches_within (fun _ _ huv => hi.dest huv)
        (h.acyclic.mono fun a b hab => (hi.edge a b).2 hab) (fun w z hwz hw hz => ?_)
        (h.connected (fun e he => hclean e (hev.subset he)) a hne u v hu hv) hu hv
      refine contains_takeEdges.2 ⟨hwz, fun hn => ?_, fun hn => ?_⟩
      · exact hne (some.inj (hw.symm.trans ((hnodes w).1 hn)))
      · exact hne (some.inj (hz.symm.trans ((hnodes z).1 hn)))
    · have hun := hnew (not_lt.1 ha) hu
      have hvn := hnew (not_lt.1 ha) hv
      rw [hs.inj u hun v hvn (hu.trans hv.symm)]

/-- The cycle is gone and each of its nodes has a new one. Where edges are taken out, the successors of the
cycle they start from are those that are left. -/
theorem Splitting.evolves (h : Splitting cycle s)
    (hnodes : ∀ n, n ∈ nodes ↔ s.graph.mNodeToCycle.tryGetValue n = some cycle) {created : List ℤ}
    (hcreated : ∀ c, c ∈ created ↔ s.graph.mCycleIndex ≤ c ∧ c < g'.mCycleIndex) :
    Evolves (fun u => ∃ e ∈ (takeEdges nodes s.graph.mEdges).1, e.1 = u) s
      ⟨{ g' with mEdges := (takeEdges nodes s.graph.mEdges).2 },
        s.events ++ .destroy cycle :: created.map CycleEvent.create⟩ where
  index := hs.index
  live c hc hlt := (((hs.mem_allCycles c).1 hc).resolve_right fun he => absurd he.1 (not_le.2 hlt)).1
  contents c hc hlt n := by
    have hne := (((hs.mem_allCycles c).1 hc).resolve_right fun he => absurd he.1 (not_le.2 hlt)).2
    exact (Singled.label_old hs hnodes hlt).trans (and_iff_left hne)
  successors c hc hlt := by
    have hne := (((hs.mem_allCycles c).1 hc).resolve_right fun he => absurd he.1 (not_le.2 hlt)).2
    by_cases hparent : s.graph.mCycleEdges.contains c cycle
    · obtain ⟨-, u, v, huv, hu, hv⟩ := (h.indexed.edge c cycle).1 hparent
      exact .inl ⟨u, ⟨(u, v), mem_takeEdges.2 ⟨huv, .inr ((hnodes v).2 hv)⟩, rfl⟩,
        (Singled.label_old hs hnodes hlt).2 ⟨hu, hne⟩⟩
    · refine .inr (.inl fun d => (hs.contains_cycleEdges c d).trans (and_iff_left_of_imp fun hcd => ?_))
      exact ⟨hne, fun he => hparent (he ▸ hcd)⟩
  events := by
    refine ⟨_, rfl, .of_lists h.indexed (fun _ => rfl : ∀ _, _ = List.foldl _ _ (List.map _ [_] ++ _))
      (fun c => by simp) (fun c hc => List.mem_singleton.1 hc ▸ h.live) hs.index hcreated fun c => ?_⟩
    rw [List.mem_singleton, hcreated]
    exact hs.mem_allCycles c

end

/-- Each edge of a list closes no cycle when it is put in, or one into which nothing leads from outside. -/
def AllCloseAlone : TwoWaySetMap α α → List (α × α) → Prop
  | _, [] => True
  | mEdges, e :: l => ClosesAlone mEdges e.1 e.2 ∧ AllCloseAlone (mEdges.insert e.1 e.2) l

/-- The edges that were taken out are put in again. -/
theorem Stable.addEdges {l : List (α × α)} (h : Stable l s) (hnodup : l.Nodup)
    (hl : ∀ e ∈ l, e.1 ≠ e.2 ∧ ¬ s.graph.mEdges.contains e.1 e.2) :
    wp (l.forM fun e => GraphCycles.addEdge e.1 e.2) (fun _ s' => Stable [] s' ∧
      (∀ u v, s'.graph.mEdges.contains u v ↔ (u, v) ∈ l ∨ s.graph.mEdges.contains u v) ∧
      Evolves (fun u => ∃ e ∈ l, e.1 = u) s s' ∧
      (AllCloseAlone s.graph.mEdges l → s.Clean → s'.Clean))
      (fun _ _ => False) s := by
  induction l generalizing s with
  | nil => exact ⟨h, fun u v => (or_iff_right not_mem_nil).symm, .refl h.indexed, fun _ => id⟩
  | cons e l ih =>
    rw [forall_mem_cons] at hl
    rw [nodup_cons] at hnodup
    show wp (GraphCycles.addEdge e.1 e.2 >>= fun _ => l.forM _) _ _ s
    rw [wp_bind]
    refine (h.addEdge hl.1.1 hl.1.2).imp fun _ s' hs' => ?_
    obtain ⟨hstable, hedges, hevolves, hclean⟩ := hs'
    refine (ih hstable hnodup.2 fun e' he' => ⟨(hl.2 e' he').1, ?_⟩).imp fun _ s'' hs'' => ?_
    · rw [hedges, TwoWaySetMap.contains_insert]
      rintro (he | hin)
      · exact hnodup.1 (Prod.ext he.1 he.2 ▸ he')
      · exact (hl.2 e' he').2 hin
    · refine ⟨hs''.1, fun u v => ?_, .trans (hevolves.mono fun u hu => ⟨e, mem_cons_self, hu.symm⟩)
        (hs''.2.2.1.mono fun u ⟨e', he', hu⟩ => ⟨e', mem_cons_of_mem _ he', hu⟩),
        fun halone h₀ => hs''.2.2.2 (hedges ▸ halone.2) (hclean (.inl halone.1) h₀)⟩
      rw [hs''.2.1, hedges, TwoWaySetMap.contains_insert, mem_cons, ← Prod.mk.injEq]
      tauto

/-- The edges that are put in again when a cycle is split close nothing but what stands alone. -/
def SplitsAlone (g : GraphCycles α) (cycle : ℤ) : Prop :=
  AllCloseAlone (takeEdges (ascending (g.mNodeToCycle.getKeys cycle)) g.mEdges).2
    (takeEdges (ascending (g.mNodeToCycle.getKeys cycle)) g.mEdges).1

/-- A split leaves the edges what they were. -/
theorem Splitting.splitCycle (h : Splitting cycle s) : wp (splitCycle cycle) (fun _ s' => Stable [] s' ∧
      (∀ u v, s'.graph.mEdges.contains u v ↔ s.graph.mEdges.contains u v) ∧ (∀ exempt, Evolves exempt s s') ∧
      (s.graph.SplitsAlone cycle → s.Clean → s'.Clean))
      (fun _ _ => False) s := by
  unfold GraphCycles.splitCycle
  rw [wp_bind, wp_get, wp_bind, wp_modifyGraph, wp_bind, wp_destroyCycle, wp_bind]
  refine (wp_singleNodes (ascending_nodup _) (s := ⟨s.graph.withoutCycle cycle,
    s.events ++ [.destroy cycle]⟩)).imp fun _ s₁ h₁ => ?_
  obtain ⟨hs, created, hev, hcreated⟩ := h₁
  have hedges : s₁.graph.mEdges = s.graph.mEdges := hs.edges
  have hnodes : ∀ n, n ∈ ascending (s.graph.mNodeToCycle.getKeys cycle) ↔
      s.graph.mNodeToCycle.tryGetValue n = some cycle := fun n => by
    rw [mem_ascending, MapWithIndex.mem_getKeys]
  rw [append_assoc] at hev
  have hstable := @Splitting.stable _ _ _ _ _ _ hs h hnodes s₁.events ⟨_, hev.symm⟩
  have htaken := h.evolves hs hnodes hcreated
  rw [← singleton_append, ← hev] at htaken
  rw [wp_bind, wp_get, hedges]
  rw [wp_bind, wp_modifyGraph]
  refine (hstable.addEdges (takeEdges_nodup h.indexed.ne) ?_).imp fun _ s' hs' => ?_
  · rintro ⟨u, v⟩ he
    obtain ⟨huv, hmem⟩ := mem_takeEdges.1 he
    refine ⟨h.indexed.ne u v huv, fun hleft => ?_⟩
    obtain ⟨-, hun, hvn⟩ := contains_takeEdges.1 hleft
    exact hmem.elim hun hvn
  · obtain ⟨hstable', hcontains, hput, hclean⟩ := hs'
    refine ⟨hstable', fun u v => ?_, fun exempt => ?_, fun halone h₀ => hclean halone ?_⟩
    · rw [hcontains, mem_takeEdges, contains_takeEdges]
      tauto
    · have hall := htaken.trans hput
      refine hall.of_exempt fun u c hu hlt hl => ?_
      obtain ⟨⟨u, v⟩, he, rfl⟩ := hu
      -- the cycle is not the one that is split, so the edge is one into it
      have hlive := hstable'.indexed.mem_cycle hl
      have hold := (hall.contents c hlive hlt u).1 hl
      have hgone : ∀ n, s'.graph.mNodeToCycle.tryGetValue n ≠ some cycle := by
        intro n hn
        have hmid := htaken.live_mid hput (hstable'.indexed.mem_cycle hn) (h.indexed.lt cycle h.live)
        rcases (hs.mem_allCycles cycle).1 hmid with he | he
        · exact he.2 rfl
        · exact absurd he.1 (not_le.2 (h.indexed.lt cycle h.live))
      obtain ⟨huv, hmem⟩ := mem_takeEdges.1 he
      have hv : s.graph.mNodeToCycle.tryGetValue v = some cycle := by
        refine (hnodes v).1 (hmem.resolve_left fun hun => hgone u ?_)
        rw [hl, ← hold, (hnodes u).1 hun]
      have hput' := (hcontains u v).2 (.inl he)
      obtain ⟨d, hd⟩ := hstable'.indexed.dest hput'
      have hle : s.graph.mCycleIndex ≤ d := by
        refine not_lt.1 fun hlt' => hgone v ?_
        rw [hd, ← (hall.contents d (hstable'.indexed.mem_cycle hd) hlt' v).1 hd, hv]
      exact ⟨d, (hstable'.indexed.edge c d).2 ⟨(hlt.trans_le hle).ne, u, v, hput', hl, hd⟩, hle⟩
    · show ∀ e ∈ s₁.events, e.Clean
      rw [hev]
      simpa [Observed.Clean, CycleEvent.Clean, or_imp, forall_and] using h₀

/-! ## Dropping an edge -/

/-- The ids of the cycles of the two ends of an edge fit an `int`. -/
def FitsInt (g : GraphCycles α) (source dest : α) : Prop :=
  ∀ node ∈ [source, dest], ∀ c ∈ g.mNodeToCycle.tryGetValue node, toInt c = c
deriving Decidable

/-- A dropped edge inside a cycle leaves edges that close nothing but what stands alone. -/
def DropsAlone (g : GraphCycles α) (u v : α) : Prop := g.mEdges.contains u v →
  ∀ c ∈ g.mNodeToCycle.tryGetValue u, g.mNodeToCycle.tryGetValue v = some c →
    SplitsAlone { g with mEdges := g.mEdges.drop u v } c

/-- A call that drops an edge. -/
theorem Stable.dropEdge {u v : α} (h : Stable [] s) (hfits : s.graph.mEdges.contains u v → FitsInt s.graph u v) :
    wp (dropEdge u v) (fun _ s' => Stable [] s' ∧
      (∀ x y, s'.graph.mEdges.contains x y ↔ s.graph.mEdges.contains x y ∧ ¬ (x = u ∧ y = v)) ∧
      Evolves (· = u) s s' ∧
      (s.graph.DropsAlone u v → s.Clean → s'.Clean)) (fun _ _ => False) s := by
  unfold GraphCycles.dropEdge
  rw [wp_bind, wp_get, wp_ite]
  split
  · next huv =>
    set s₁ : Observed α := { s with
      graph := { s.graph with mEdges := s.graph.mEdges.drop u v } } with hs₁
    obtain ⟨a, hu⟩ := h.indexed.source huv
    obtain ⟨b, hv⟩ := h.indexed.dest huv
    have ha : toInt a = a := hfits huv u (by simp) a hu
    have hb : toInt b = b := hfits huv v (by simp) b hv
    rw [wp_bind, wp_modifyGraph, ← hs₁, wp_bind, wp_cycleFor (s := s₁) hu, wp_bind,
      wp_cycleFor (s := s₁) hv, wp_ite, ha, hb]
    split
    · next hab =>
      subst hab
      have hsplitting : Splitting a s₁ := ⟨h.indexed.drop fun x y => ?_, h.indexed.mem_cycle hv,
        h.settled, fun hclean c hne x y hx hy => ?_⟩
      · refine hsplitting.splitCycle.imp fun _ s' hs' => ⟨hs'.1, fun x y => ?_, .trans ?_ (hs'.2.2.1 _),
          fun halone => hs'.2.2.2 (halone huv a hu hv)⟩
        · rw [hs'.2.1]
          exact contains_drop
        · exact .of_same h.indexed rfl rfl rfl rfl fun _ _ _ => Iff.rfl
      · rw [h.quotient_drop huv hu hv]
        refine (and_iff_left_of_imp fun hxy he => ?_).symm
        exact absurd (he.1.trans he.2.symm) (h.indexed.joins.ne x y hxy)
      · refine h.reaches hclean (fun w z hwz hw hz => contains_drop.2 ⟨hwz, ?_⟩) hx hy
        rintro ⟨rfl, rfl⟩
        exact hne (some.inj (hw.symm.trans hu))
    · next hab =>
      refine (h.dropCycleEdge huv hu hv hab).imp fun _ s' hs' => ⟨hs'.1, fun x y => ?_, hs'.2.2.1, fun _ => hs'.2.2.2⟩
      rw [hs'.2.1]
      exact contains_drop
  · next huv =>
    refine ⟨h, fun x y => (and_iff_left_of_imp fun hxy he => huv ?_).symm, .refl h.indexed, fun _ => id⟩
    exact he.1 ▸ he.2 ▸ hxy

end GraphCycles
