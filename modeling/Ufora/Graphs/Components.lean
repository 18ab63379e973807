import Ufora.Graphs.Quotient

/-!
# The strongly connected components

The cycles of a graph are its strongly connected components as long as every edge that closes a cycle closes
one into which nothing leads from outside, or a ring that each cycle outside has one way into
(`components_of_closes`). Otherwise a parent whose depth does not change may stay on the stack, and where a cycle
is found later it is taken into it (`not_components`).
-/

open Ordered Effect Relation.ReflTransGen Run TwoWaySetMap

namespace GraphCycles

variable {α : Type} [LinearOrder α]

/-- Two nodes are in one cycle when each reaches the other. -/
def Components (g : GraphCycles α) : Prop := ∀ u v, u ≠ v →
    ((∃ c, g.mNodeToCycle.tryGetValue u = some c ∧ g.mNodeToCycle.tryGetValue v = some c) ↔
      Digraph.StronglyConnected g.mEdges.contains u v)

/-- Every edge that a call puts in closes no cycle of cycles, or one into which nothing leads from outside, or, where
the call adds one edge, a ring. -/
def Op.Closes (s : Observed α) : Op α → Prop
  | .addEdge source dest _ => ClosesAlone s.graph.mEdges source dest ∨ s.graph.ClosesRing source dest
  | .dropEdge source dest => s.graph.DropsAlone source dest

/-- The cycles are the components where the nodes of each reach each other. -/
theorem Stable.components {s : Observed α} (h : Stable [] s) (hclean : s.Clean) :
    Components s.graph := by
  intro u v hne
  have hlabel := fun {a b} => Digraph.label_eq_iff (a := a) (b := b) (u := u) (v := v)
    (fun x y hxy => h.indexed.dest hxy) (h.connected hclean)
    (h.acyclic.mono fun a b hab => (h.indexed.edge a b).2 hab)
  constructor
  · rintro ⟨c, hu, hv⟩
    exact (hlabel hu hv).1 rfl
  · intro huv
    rcases cases_head huv.1 with he | ⟨x, hux, -⟩
    · exact absurd he hne
    · rcases cases_head huv.2 with he | ⟨y, hvy, -⟩
      · exact absurd he.symm hne
      · obtain ⟨a, hu⟩ := h.indexed.source hux
        obtain ⟨b, hv⟩ := h.indexed.source hvy
        obtain rfl := (hlabel hu hv).2 huv
        exact ⟨a, hu, hv⟩

/-- One call collapses only cycles that reach each other. -/
theorem Stable.call_clean {s : Observed α} (h : Stable [] s) (hclean : s.Clean) (op : Op α)
    (hfits : op.FitsInt s) (hcloses : op.Closes s) :
    wp op.call (fun _ s' => Stable [] s' ∧ s'.Clean) (fun _ _ => False) s := by
  cases op with
  | addEdge u v hne =>
    by_cases huv : s.graph.mEdges.contains u v
    · exact (h.addEdge_of_contains hne huv).imp fun _ s' hs' => ⟨hs'.1, hs'.2.2.2 hclean⟩
    · exact ((h.spare (u, v)).addEdge hne huv).imp fun _ s' hs' => ⟨hs'.1, hs'.2.2.2 hcloses hclean⟩
  | dropEdge u v => exact (h.dropEdge hfits).imp fun _ s' hs' => ⟨hs'.1, hs'.2.2.2 hcloses hclean⟩

/-- In every run whose calls find ids that fit an `int`, and close cycles into which nothing leads from outside or
rings, the cycles are the strongly connected components in every state. -/
theorem components_of_closes (ops : List (Op α))
    (h : Run.EveryStep (total step) (fun s op => op.FitsInt s ∧ op.Closes s) {} ops) :
    Run.Always (total step) (fun s => Components s.graph) {} ops := by
  have hstable : Run.Always (total step)
      (fun s => Stable [] s ∧ s.Clean) {} ops := by
    refine always_of_everyStep ⟨stable_empty, nofun⟩ (fun s op s' hs hop he => ?_) h
    obtain rfl := total_eq_some.1 he
    exact ((hs.1.call_clean hs.2 op hop.1 hop.2).mono (fun _ _ => id) fun _ _ => False.elim).exec
  exact hstable.mono fun s hs => hs.1.components hs.2

section
variable {mEdges : TwoWaySetMap α α}

/-- An edge to a node without successors closes nothing. -/
theorem closesAlone_of_getValues {u v : α} (hne : u ≠ v) (h : mEdges.getValues v = ∅) : ClosesAlone mEdges u v := by
  intro hvu
  rcases cases_head hvu with he | ⟨x, hvx, -⟩
  · exact absurd he.symm hne
  · rw [← mem_getValues, h] at hvx
    exact absurd hvx (Finset.notMem_empty x)

/-- Nor do edges to nodes that none of them starts from. -/
theorem allCloseAlone_of_getValues {l : List (α × α)}
    (h : ∀ e ∈ l, mEdges.getValues e.2 = ∅ ∧ ∀ e' ∈ l, e'.1 ≠ e.2) : AllCloseAlone mEdges l := by
  induction l generalizing mEdges with
  | nil => trivial
  | cons e l ih =>
    have hhead := h e List.mem_cons_self
    refine ⟨closesAlone_of_getValues (hhead.2 e List.mem_cons_self) hhead.1, ih fun e' he' => ?_⟩
    have htail := h e' (List.mem_cons_of_mem _ he')
    refine ⟨Finset.eq_empty_of_forall_notMem fun x hx => ?_, fun e'' he'' => htail.2 e'' (List.mem_cons_of_mem _ he'')⟩
    rw [mem_getValues, contains_insert, ← mem_getValues, htail.1] at hx
    rcases hx with ⟨he, -⟩ | hx
    · exact htail.2 e List.mem_cons_self he.symm
    · exact Finset.notMem_empty x hx

end

/-- Where no cycle has two parents, and each that is not the last one has one child and is no deeper than this makes it,
the cycles are a ring. -/
theorem ring_of_chain {mCycleEdges : TwoWaySetMap ℤ ℤ} {mCycleDepth : StdMap ℤ ℤ} {cycles : Finset ℤ} {a b : ℤ}
    (hin : ∀ x ∈ cycles, mCycleEdges.getKeys x ⊆ cycles) (ha : a ∈ cycles) (hba : mCycleEdges.contains b a)
    (hpred : ∀ z ∈ cycles, ∀ x ∈ mCycleEdges.getKeys z, ∀ y ∈ mCycleEdges.getKeys z, x = y)
    (hway : ∀ q ∈ cycles, q ≠ a → ∃ y ∈ mCycleEdges.getValues q, mCycleDepth.get q ≤ mCycleDepth.get y + 1 ∧
      ∀ x ∈ mCycleEdges.getValues q, x = y) : Ring mCycleEdges mCycleDepth b a := by
  have hmem : ∀ {q}, Relation.ReflTransGen mCycleEdges.contains q a → q ∈ cycles := by
    intro q hq
    induction hq using Relation.ReflTransGen.head_induction_on with
    | refl => exact ha
    | head hxy _ ih => exact hin _ ih (mem_getKeys.2 hxy)
  refine ⟨fun x y z _ _ hz hxz hyz => ?_, fun q hq => ?_⟩
  · exact hpred z (hmem hz.2) x (mem_getKeys.2 hxz) y (mem_getKeys.2 hyz)
  · obtain ⟨y, hqy, hle, hy⟩ := hway q (hmem hq.1) fun he => hq.2 (he ▸ .single hba)
    exact ⟨y, hqy, hle, fun x hqx _ => hy x hqx⟩

/-- A node before two others, which get an edge each way, of which one is dropped again. -/
theorem components_of_closes_tail :
    let ops : List (Op ℕ) := [.addEdge 0 1 (by decide), .addEdge 1 2 (by decide), .addEdge 2 1 (by decide),
      .dropEdge 1 2]
    Run.EveryStep (total step) (fun s op => op.FitsInt s ∧ op.Closes s) {} ops ∧
      Run.Always (total step) (fun s => Components s.graph) {} ops := by
  intro ops
  have hfits : Run.EveryStep (total step) (fun s op => op.FitsInt s) {} ops := by decide +kernel
  have hcloses : Run.EveryStep (total step) (fun s op => op.Closes s) {} ops := by
    refine everyStep_cons.2 ⟨.inl (closesAlone_of_getValues (by decide) (by decide +kernel)), ?_⟩
    rintro _ ⟨⟩
    refine everyStep_cons.2 ⟨.inl (closesAlone_of_getValues (by decide) (by decide +kernel)), ?_⟩
    rintro _ ⟨⟩
    refine everyStep_cons.2 ⟨.inr ⟨by decide +kernel, by decide +kernel, fun a ha b hb => ?_⟩, ?_⟩
    · obtain rfl : a = 2 := Option.some.inj (ha.symm.trans (by decide +kernel))
      obtain rfl : b = 1 := Option.some.inj (hb.symm.trans (by decide +kernel))
      exact @ring_of_chain _ _ {0, 1, 2} _ _ (by decide +kernel) (by decide) (by decide +kernel) (by decide +kernel)
        (by decide +kernel)
    rintro _ ⟨⟩
    refine everyStep_cons.2 ⟨fun _ c hc _ => ?_, fun _ _ => everyStep_nil⟩
    obtain rfl : c = 3 := Option.some.inj (hc.symm.trans (by decide +kernel))
    exact allCloseAlone_of_getValues (by decide +kernel)
  exact ⟨hfits.and hcloses, components_of_closes ops (hfits.and hcloses)⟩

/-- A node `0` whose child `4` is on a cycle with `5`, and whose depth does not change when that cycle is
found. -/
theorem not_components : ¬ ∀ ops : List (Op ℕ), Run.Always (total step) (fun s => Components s.graph) {} ops := by
  intro h
  have hall := h [.addEdge 0 1 (by decide), .addEdge 1 2 (by decide), .addEdge 2 3 (by decide),
    .addEdge 0 4 (by decide), .addEdge 5 4 (by decide), .addEdge 4 5 (by decide)]
  have hrun : ∃ s, run (total step) {} [.addEdge 0 1 (by decide), .addEdge 1 2 (by decide),
      .addEdge 2 3 (by decide), .addEdge 0 4 (by decide), .addEdge 5 4 (by decide),
      .addEdge 4 5 (by decide)] = some s ∧ s.graph.mNodeToCycle.tryGetValue 0 = some 6 ∧
      s.graph.mNodeToCycle.tryGetValue 4 = some 6 ∧ s.graph.mEdges.getKeys 0 = ∅ :=
    ⟨_, rfl, by decide +kernel⟩
  obtain ⟨s, hr, h0, h4, hno⟩ := hrun
  have hreach := ((hall.last hr 0 4 (by decide)).1 ⟨6, h0, h4⟩).2
  rcases cases_tail hreach with he | ⟨x, -, hx⟩
  · cases he
  · rw [← mem_getKeys, hno] at hx
    exact absurd hx (Finset.notMem_empty x)

end GraphCycles
