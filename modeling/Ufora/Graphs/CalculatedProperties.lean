import Ufora.Graphs.GraphWithCalculatedProperty

/-!
# The properties after `update`

`update` ends and leaves every property right, after every sequence of calls that finds the ids of cycles it
drops edges between to fit an `int` (`calculated_of_fitsInt`). Where they do not fit, an edge between two
cycles is taken out of the graph and stays between the cycles, so that the property of the one is still merged
over that of the other (`not_calculated`).
-/

open Ordered Effect List Finset Finmap TwoWaySetMap Option Run False GraphCycles

namespace GraphWithCalculatedProperty

variable {α π : Type} [LinearOrder α] {f : PropertyFunctions α π} {s s' : GraphWithCalculatedProperty α π}

/-! ## `update` -/

section
variable [DecidableEq π]

section
variable (hj : Joins s.mGraphWithCycles.graph.mCycleEdges s.mGraphWithCycles.graph.mAllCycles)
include hj

/-- One turn of the loop: the cycle is right now, and where it has changed, its parents are dirty. -/
theorem Tracked.updateCycle (h : Tracked f nobody s) {c : ℤ} (hc : c ∈ s.mDirtyCycles) :
    wp (updateCycle f c) (fun changed s' => s'.mGraphWithCycles = s.mGraphWithCycles ∧
        s'.mDirtyCycles = s.mDirtyCycles.erase c ∧ (changed = false → Tracked f nobody s') ∧
        (changed = true → Tracked f nobody { s' with
          mDirtyCycles := s'.mDirtyCycles ∪ s'.mGraphWithCycles.graph.mCycleEdges.getKeys c }))
      (fun _ _ => False) { s with mDirtyCycles := s.mDirtyCycles.erase c } := by
  have hlive := h.dirty hc
  have hno : ∀ d, s.mGraphWithCycles.graph.mCycleEdges.contains c d → d ≠ c := fun d hd he =>
    hj.ne c d hd he.symm
  have hkeep : ∀ s', s'.mGraphWithCycles = s.mGraphWithCycles →
      s'.mCycleProperties = Finmap.insert c (calcPropertyFor f s c) s.mCycleProperties → ∀ d,
      ¬ s.mGraphWithCycles.graph.mCycleEdges.contains d c → calcPropertyFor f s' d = calcPropertyFor f s d := by
    intro s' hgraph hprops d hd
    refine calcPropertyFor_congr (by rw [hgraph]) (by rw [hgraph]) fun x hx => ?_
    rw [hprops, StdMap.lookup_insert, if_neg]
    exact fun he => hd (he ▸ hx)
  have hcalc : calcPropertyFor f { s with mDirtyCycles := s.mDirtyCycles.erase c } c = calcPropertyFor f s c := rfl
  unfold GraphWithCalculatedProperty.updateCycle
  rw [wp_bind, wp_get, wp_bind, wp_get, hcalc, wp_ite]
  split
  · next hne =>
    rw [wp_bind, wp_modify]
    refine ⟨rfl, rfl, nofun, fun _ => ⟨?_, fun d p hd => ?_, fun d hd hn => ?_, fun d hd => .inr ?_⟩⟩
    · refine union_subset ((erase_subset _ _).trans h.dirty) fun d hd => ?_
      exact hj.left d c (mem_getKeys.1 hd)
    · rw [StdMap.lookup_insert] at hd
      split at hd
      · next he => exact he ▸ hlive
      · exact h.keys d p hd
    · rw [StdMap.lookup_insert] at hn
      split at hn
      · cases hn
      · next hdc => exact mem_union_left _ (mem_erase.2 ⟨hdc, h.unset d hd hn⟩)
    · by_cases hdc : d = c
      · subst hdc
        refine .inr (.inr ?_)
        rw [StdMap.lookup_insert, if_pos rfl]
        refine congrArg some (Eq.symm ?_)
        exact hkeep _ (by rfl) (by rfl) d fun hd => hno d hd rfl
      by_cases hparent : s.mGraphWithCycles.graph.mCycleEdges.contains d c
      · exact .inl (mem_union_right _ (mem_getKeys.2 hparent))
      · have hother : ∀ x, s.mGraphWithCycles.graph.mCycleEdges.contains d x → x ≠ c := fun x hx he => hparent (he ▸ hx)
        rcases h.right d hd with ⟨_, hno, -⟩ | hdirt | ⟨x, hx, hnone⟩ | hright
        · exact hno.elim
        · exact .inl (mem_union_left _ (mem_erase.2 ⟨hdc, hdirt⟩))
        · refine .inr (.inl ⟨x, hx, ?_⟩)
          rw [StdMap.lookup_insert, if_neg (hother x hx), hnone]
        · refine .inr (.inr ?_)
          rw [StdMap.lookup_insert, if_neg hdc, hright]
          refine congrArg some (Eq.symm ?_)
          exact hkeep _ (by rfl) (by rfl) d hparent
  · next heq =>
    rw [not_not] at heq
    refine ⟨rfl, rfl, fun _ => ⟨(erase_subset _ _).trans h.dirty, h.keys, fun d hd hn => ?_,
      fun d hd => .inr ?_⟩, nofun⟩
    · refine mem_erase.2 ⟨?_, h.unset d hd hn⟩
      rintro rfl
      cases hn.symm.trans heq
    · by_cases hdc : d = c
      · subst hdc
        exact .inr (.inr heq)
      · rcases h.right d hd with ⟨_, hno, -⟩ | hdirt | hwhy
        · exact hno.elim
        · exact .inl (mem_erase.2 ⟨hdc, hdirt⟩)
        · exact .inr hwhy

/-- The loop ends: each turn takes a cycle that weighs more than all its parents. -/
theorem Tracked.updateDirtyCycles {n : ℕ} {changedCycles : Finset ℤ} (h : Tracked f nobody s)
    (weight : ℤ → ℕ) (hweight : ∀ c ∈ s.mGraphWithCycles.graph.mAllCycles,
      ∑ p ∈ s.mGraphWithCycles.graph.mCycleEdges.getKeys c, weight p < weight c)
    (hlimit : ∑ c ∈ s.mDirtyCycles, weight c < n) :
    wp (updateDirtyCycles f n changedCycles) (fun _ s' => Tracked f nobody s' ∧
        s'.mDirtyCycles = ∅ ∧ s'.mGraphWithCycles = s.mGraphWithCycles) (fun _ _ => False) s := by
  induction n generalizing s changedCycles with
  | zero => omega
  | succ n ih =>
    unfold GraphWithCalculatedProperty.updateDirtyCycles
    rw [wp_bind, wp_get]
    cases hhead : (ascending s.mDirtyCycles).head? with
    | none =>
      refine ⟨h, eq_empty_of_forall_notMem fun c hc => ?_, rfl⟩
      rw [← mem_ascending, head?_eq_none_iff.1 hhead] at hc
      cases hc
    | some c =>
      have hc : c ∈ s.mDirtyCycles := mem_ascending.1 (mem_of_mem_head? hhead)
      have hless := add_sum_erase s.mDirtyCycles weight hc
      have hwc := hweight c (h.dirty hc)
      rw [wp_bind, wp_modify, wp_bind]
      refine (h.updateCycle hj hc).imp fun changed s' hs' => ?_
      obtain ⟨hgraph, hdirty, hsame, hchanged⟩ := hs'
      cases changed with
      | false =>
        rw [if_neg Bool.false_ne_true]
        refine (ih (by rw [hgraph]; exact hj) (hsame rfl) (by rw [hgraph]; exact hweight) ?_).imp
          fun _ s'' hs'' => ⟨hs''.1, hs''.2.1, hs''.2.2.trans hgraph⟩
        rw [hdirty]
        omega
      | true =>
        rw [if_pos rfl, wp_bind, wp_modify]
        refine (ih (by rw [hgraph]; exact hj) (hchanged rfl) (by rw [hgraph]; exact hweight) ?_).imp
          fun _ s'' hs'' => ⟨hs''.1, hs''.2.1, hs''.2.2.trans hgraph⟩
        show ∑ x ∈ s'.mDirtyCycles ∪ s'.mGraphWithCycles.graph.mCycleEdges.getKeys c, weight x < n
        rw [hdirty, hgraph]
        have hle := @sum_union_inter _ _ (s.mDirtyCycles.erase c)
          (s.mGraphWithCycles.graph.mCycleEdges.getKeys c) _ weight _
        omega

end

/-- The second loop writes values of nodes only. -/
theorem wp_updateNodeValues [Inhabited π] (changedCycles : Finset ℤ) :
    wp ((ascending changedCycles).foldlM updateNodeValues ∅ : Call α π (Finset α))
      (fun _ s' => s'.mGraphWithCycles = s.mGraphWithCycles ∧ s'.mDirtyCycles = s.mDirtyCycles ∧
        s'.mCycleProperties = s.mCycleProperties) (fun _ _ => False) s := by
  refine wp_foldlM (fun _ (s' : GraphWithCalculatedProperty α π) =>
    s'.mGraphWithCycles = s.mGraphWithCycles ∧ s'.mDirtyCycles = s.mDirtyCycles ∧
      s'.mCycleProperties = s.mCycleProperties) (fun cycle out s' hs' => ?_) _ ⟨rfl, rfl, rfl⟩
  unfold updateNodeValues
  rw [wp_bind, wp_get]
  refine wp_foldlM (fun _ (s' : GraphWithCalculatedProperty α π) =>
    s'.mGraphWithCycles = s.mGraphWithCycles ∧ s'.mDirtyCycles = s.mDirtyCycles ∧
      s'.mCycleProperties = s.mCycleProperties) (fun node out s' hs' => ?_) _ hs'
  rw [wp_bind, wp_get, wp_bind, wp_get, wp_ite]
  split
  · exact hs'
  · exact hs'

/-- The edges between the cycles are acyclic, so that `update` ends. -/
theorem Tracked.update [Inhabited π] (h : Tracked f nobody s)
    (hj : Joins s.mGraphWithCycles.graph.mCycleEdges s.mGraphWithCycles.graph.mAllCycles)
    (hdepth : ∀ a b, s.mGraphWithCycles.graph.mCycleEdges.contains a b →
      s.mGraphWithCycles.graph.mCycleDepth.get b < s.mGraphWithCycles.graph.mCycleDepth.get a) :
    wp (update f) (fun _ s' => Tracked f nobody s' ∧ s'.mDirtyCycles = ∅ ∧
      s'.mGraphWithCycles = s.mGraphWithCycles) (fun _ _ => False) s := by
  set g := s.mGraphWithCycles.graph with hg
  obtain ⟨weight, hweight, htotal⟩ := Digraph.exists_weight (r := g.mCycleEdges.contains)
    g.mCycleDepth.get hdepth g.mAllCycles
  have hparents : ∀ c, g.mCycleEdges.getKeys c = {p ∈ g.mAllCycles | g.mCycleEdges.contains p c} := by
    intro c
    ext p
    rw [mem_getKeys, Finset.mem_filter]
    exact (and_iff_right_of_imp (hj.left p c)).symm
  unfold GraphWithCalculatedProperty.update
  rw [wp_bind, wp_get, wp_bind]
  refine (h.updateDirtyCycles hj weight (fun c hc => ?_) ?_).imp fun changed s' hs' => ?_
  · rw [← hg, hparents]
    exact hweight c hc
  · exact (sum_le_sum_of_subset h.dirty).trans_lt htotal
  · obtain ⟨htracked, hclean, hgraph⟩ := hs'
    refine (wp_updateNodeValues changed).imp fun _ s'' hs'' => ?_
    obtain ⟨hgraph', hdirty', hprops'⟩ := hs''
    exact ⟨htracked.congr hgraph' hdirty' hprops', hdirty'.trans hclean, hgraph'.trans hgraph⟩

end

/-! ## Every property is right -/

/-- The initial property of a cycle, merged over the properties of the cycles in `successors`, which must
all have one. -/
def mergedOver (f : PropertyFunctions α π) (s : GraphWithCalculatedProperty α π) (cycle : ℤ)
    (successors : Finset ℤ) : Option π :=
  (ascending successors).foldlM
    (fun base c => (lookup c s.mCycleProperties).map (f.mMergeFunction base))
    (f.mInitializeFunction (s.mGraphWithCycles.graph.mNodeToCycle.getKeys cycle))

/-- No cycle is dirty, only cycles that exist have a property, and the property of each is its initial
property merged over all its successors: over the cycles that the edges of the graph lead to from it. -/
structure Calculated (f : PropertyFunctions α π) (s : GraphWithCalculatedProperty α π) : Prop where
  clean : s.mDirtyCycles = ∅
  keys : ∀ c p, lookup c s.mCycleProperties = some p → c ∈ s.mGraphWithCycles.graph.mAllCycles
  right : ∀ c ∈ s.mGraphWithCycles.graph.mAllCycles, ∃ p successors,
    lookup c s.mCycleProperties = some p ∧ mergedOver f s c successors = some p ∧
    ∀ d, d ∈ successors ↔ Digraph.quotient s.mGraphWithCycles.graph.mEdges.contains
      s.mGraphWithCycles.graph.mNodeToCycle.tryGetValue c d

/-- Where all successors have a property, `calcPropertyFor` merges over all of them. -/
theorem mergedOver_getValues {c : ℤ}
    (hall : ∀ d, s.mGraphWithCycles.graph.mCycleEdges.contains c d → ∃ p, lookup d s.mCycleProperties = some p) :
    mergedOver f s c (s.mGraphWithCycles.graph.mCycleEdges.getValues c) = some (calcPropertyFor f s c) := by
  have hall' : ∀ d ∈ ascending (s.mGraphWithCycles.graph.mCycleEdges.getValues c),
      ∃ p, lookup d s.mCycleProperties = some p :=
    fun d hd => hall d (mem_getValues.1 (mem_ascending.1 hd))
  unfold mergedOver calcPropertyFor
  generalize f.mInitializeFunction _ = base
  generalize ascending (s.mGraphWithCycles.graph.mCycleEdges.getValues c) = l at hall' ⊢
  induction l generalizing base with
  | nil => rfl
  | cons d l ih =>
    obtain ⟨p, hp⟩ := hall' d mem_cons_self
    rw [foldlM_cons, foldl_cons, hp]
    exact ih _ fun x hx => hall' x (mem_cons_of_mem d hx)

/-- Once no cycle is dirty, every cycle has the property that is calculated for it. -/
theorem Tracked.lookup_of_clean (h : Tracked f nobody s)
    (hj : Joins s.mGraphWithCycles.graph.mCycleEdges s.mGraphWithCycles.graph.mAllCycles)
    (hclean : s.mDirtyCycles = ∅) {c : ℤ} (hc : c ∈ s.mGraphWithCycles.graph.mAllCycles) :
    lookup c s.mCycleProperties = some (calcPropertyFor f s c) := by
  have hno : ∀ d, d ∉ s.mDirtyCycles := fun d => hclean ▸ notMem_empty d
  rcases h.right c hc with ⟨_, hfalse, -⟩ | hdirt | ⟨d, hd, hnone⟩ | hright
  · exact hfalse.elim
  · exact absurd hdirt (hno c)
  · exact absurd (h.unset d (hj.right c d hd) hnone) (hno d)
  · exact hright

theorem Tracked.calculated (h : Tracked f nobody s) (hs : Stable [] s.mGraphWithCycles)
    (hclean : s.mDirtyCycles = ∅) : Calculated f s where
  clean := hclean
  keys := h.keys
  right c hc := by
    have hlookup := h.lookup_of_clean hs.indexed.joins hclean hc
    refine ⟨_, _, hlookup, mergedOver_getValues fun d hd => ?_, fun d => ?_⟩
    · exact ⟨_, h.lookup_of_clean hs.indexed.joins hclean (hs.indexed.joins.right c d hd)⟩
    · rw [mem_getValues]
      exact hs.indexed.edge c d

/-! ## The calls -/

variable (α) in
/-- The calls. -/
inductive Op where
  | addEdge (source dest : α)
  | dropEdge (source dest : α)
  | dropNode (node : α)
  | markNodeDirty (node : α)
  | update

/-- One call. -/
def Op.call [DecidableEq π] [Inhabited π] (f : PropertyFunctions α π) : Op α → Call α π Unit
  | .addEdge source dest => GraphWithCalculatedProperty.addEdge source dest
  | .dropEdge source dest => GraphWithCalculatedProperty.dropEdge source dest
  | .dropNode node => GraphWithCalculatedProperty.dropNode node
  | .markNodeDirty node => GraphWithCalculatedProperty.markNodeDirty node
  | .update => do let _ ← GraphWithCalculatedProperty.update f

/-- What a call leaves, whether it returns or throws. -/
def step [DecidableEq π] [Inhabited π] (f : PropertyFunctions α π) (s : GraphWithCalculatedProperty α π)
    (op : Op α) : GraphWithCalculatedProperty α π := exec (op.call f) s

/-- What a call of `dropEdge` leaves. -/
def stepDropEdge (s : GraphWithCalculatedProperty α π) (e : α × α) : GraphWithCalculatedProperty α π :=
  exec (dropEdge e.1 e.2) s

/-- Where the edge is in the graph, the ids of the cycles of its two ends fit an `int`. -/
def EdgeFitsInt (s : GraphWithCalculatedProperty α π) (e : α × α) : Prop :=
  s.mGraphWithCycles.graph.mEdges.contains e.1 e.2 → FitsInt s.mGraphWithCycles.graph e.1 e.2
deriving Decidable

/-- The ids of the cycles that a call drops edges between fit an `int`. -/
def Op.FitsInt (s : GraphWithCalculatedProperty α π) : Op α → Prop
  | .dropEdge source dest => EdgeFitsInt s (source, dest)
  | .dropNode node =>
    EveryStep (total stepDropEdge) EdgeFitsInt s (edgesOf node s.mGraphWithCycles.graph)
  | _ => True

instance (s : GraphWithCalculatedProperty α π) : ∀ op : Op α, Decidable (op.FitsInt s)
  | .addEdge _ _ => .isTrue trivial
  | .dropEdge source dest => inferInstanceAs (Decidable (EdgeFitsInt s (source, dest)))
  | .dropNode node => inferInstanceAs (Decidable (EveryStep (total stepDropEdge) EdgeFitsInt s
    (edgesOf node s.mGraphWithCycles.graph)))
  | .markNodeDirty _ => .isTrue trivial
  | .update => .isTrue trivial

/-- Between two calls. -/
structure Sound (f : PropertyFunctions α π) (s : GraphWithCalculatedProperty α π) : Prop where
  stable : Stable [] s.mGraphWithCycles
  tracked : Tracked f nobody s

section

variable (h : Sound f s)
include h

theorem Sound.markNodeDirty (node : α) :
    wp (dirtyCycleFor node) (fun _ s' => Sound f s' ∧ s'.mGraphWithCycles = s.mGraphWithCycles)
      (fun _ s' => s' = s) s := by
  cases hc : s.mGraphWithCycles.graph.mNodeToCycle.tryGetValue node with
  | none =>
    rw [wp_dirtyCycleFor_of_none hc]
  | some c =>
    rw [wp_dirtyCycleFor hc]
    exact ⟨⟨h.stable, h.tracked.dirtyCycle (h.stable.indexed.mem_cycle hc) fun _ hno => hno.elim⟩, rfl⟩

theorem Sound.addEdge (u v : α) : wp (addEdge u v) (fun _ s' => Sound f s') (fun _ s' => Sound f s') s := by
  unfold GraphWithCalculatedProperty.addEdge
  rw [wp_bind, wp_onCycles]
  by_cases hne : u = v
  · unfold GraphCycles.addEdge
    rw [wp_bind, wp_lassert, if_neg (not_not.2 hne), calledBack_self]
    exact h
  · have hcall : wp (GraphCycles.addEdge u v) (fun _ g => GraphCycles.Stable [] g ∧
        g.graph.mEdges.contains u v ∧ Evolves (· = u) s.mGraphWithCycles g)
        (fun _ _ => False) s.mGraphWithCycles := by
      by_cases huv : s.mGraphWithCycles.graph.mEdges.contains u v
      · refine (h.stable.addEdge_of_contains hne huv).imp fun _ g hg => ?_
        exact ⟨hg.1, hg.2.1 ▸ huv, hg.2.2.1 _⟩
      · refine ((h.stable.spare (u, v)).addEdge hne huv).imp fun _ g hg => ?_
        exact ⟨hg.1, hg.2.1 ▸ contains_insert.2 (.inl ⟨rfl, rfl⟩), hg.2.2.1⟩
    refine hcall.mono (fun _ g hg => ?_) fun _ _ => elim
    obtain ⟨hstable, huv, he⟩ := hg
    obtain ⟨c, hc⟩ := hstable.indexed.source huv
    have htracked := h.tracked.calledBack h.stable.indexed hstable.indexed he
    rw [← calledBack_graph (s := s) (g := g)] at hstable hc
    rw [wp_dirtyCycleFor hc]
    refine ⟨hstable, htracked.dirtyCycle (hstable.indexed.mem_cycle hc) ?_⟩
    rintro _ rfl
    exact hc

theorem Sound.dropEdge {u v : α} (hfits : EdgeFitsInt s (u, v)) :
    wp (dropEdge u v) (fun _ s' => Sound f s') (fun _ s' => Sound f s') s := by
  unfold GraphWithCalculatedProperty.dropEdge
  rw [wp_bind]
  cases hu : s.mGraphWithCycles.graph.mNodeToCycle.tryGetValue u with
  | none =>
    rw [wp_dirtyCycleFor_of_none hu]
    exact h
  | some a =>
    rw [wp_dirtyCycleFor hu, wp_onCycles]
    have hdirty := h.tracked.dirtyCycle (h.stable.indexed.mem_cycle hu) fun _ hno => hno.elim
    refine (h.stable.dropEdge hfits).mono (fun _ g hg => ?_) fun _ _ => elim
    obtain ⟨hstable, -, he, -⟩ := hg
    refine ⟨by rw [calledBack_graph]; exact hstable, hdirty.calledBack_of_dirty h.stable.indexed hstable.indexed he ?_⟩
    rintro _ c rfl hc
    obtain rfl := some.inj (hu.symm.trans hc)
    exact mem_insert_self _ _

theorem Sound.dropEdges {edges : List (α × α)}
    (hfits : EveryStep (total stepDropEdge) EdgeFitsInt s edges) :
    wp (edges.forM fun e => GraphWithCalculatedProperty.dropEdge e.1 e.2 : Call α π Unit)
      (fun _ s' => Sound f s') (fun _ s' => Sound f s') s := by
  induction edges generalizing s with
  | nil => exact h
  | cons e edges ih =>
    obtain ⟨hfit, hrest⟩ := everyStep_cons.1 hfits
    show wp (GraphWithCalculatedProperty.dropEdge e.1 e.2 >>= fun _ =>
      edges.forM fun e => GraphWithCalculatedProperty.dropEdge e.1 e.2) _ _ s
    rw [wp_bind]
    refine ((h.dropEdge hfit).and (wp_exec _ s)).mono (fun _ s' hs' => ?_) fun _ _ hs' => hs'.1
    exact ih hs'.1 (hrest s' (total_eq_some.2 hs'.2))

/-- One call, but for `update`. -/
theorem Sound.call [DecidableEq π] [Inhabited π] (op : Op α) (hfits : op.FitsInt s) :
    wp (op.call f) (fun _ s' => Sound f s') (fun _ s' => Sound f s') s := by
  cases op with
  | addEdge u v => exact h.addEdge u v
  | dropEdge u v => exact h.dropEdge hfits
  | dropNode n =>
    show wp (dropNode n) _ _ s
    unfold dropNode
    rw [wp_bind, wp_get]
    exact h.dropEdges hfits
  | markNodeDirty n =>
    show wp (GraphWithCalculatedProperty.markNodeDirty n) _ _ s
    unfold GraphWithCalculatedProperty.markNodeDirty
    rw [wp_bind, wp_get, wp_bind, wp_lassert]
    split
    · exact (h.markNodeDirty n).mono (fun _ s' hs' => hs'.1) fun _ s' hs' => hs' ▸ h
    · exact h
  | update =>
    show wp (GraphWithCalculatedProperty.update f >>= fun _ => pure ()) _ _ s
    rw [wp_bind]
    refine (h.tracked.update h.stable.indexed.joins fun a _ hab => (h.stable.settled a).lt hab).mono
      (fun _ s' hs' => ?_) fun _ _ => elim
    exact ⟨hs'.2.2 ▸ h.stable, hs'.1⟩

/-- `update` returns, and every property is right. -/
theorem Sound.update [DecidableEq π] [Inhabited π] :
    wp (update f) (fun _ s' => Calculated f s') (fun _ _ => False) s := by
  refine (h.tracked.update h.stable.indexed.joins fun a _ hab => (h.stable.settled a).lt hab).imp fun _ s' hs' => ?_
  exact hs'.1.calculated (hs'.2.2 ▸ h.stable) hs'.2.1

end

theorem sound_empty : Sound f {} where
  stable := stable_empty
  tracked :=
    { dirty := empty_subset _
      keys := fun c p hp => by cases (lookup_empty c).symm.trans hp
      unset := fun c hc => absurd hc (notMem_empty c)
      right := fun c hc => absurd hc (notMem_empty c) }

theorem sound_of_fitsInt [DecidableEq π] [Inhabited π] {ops : List (Op α)}
    (h : EveryStep (total (step f)) (fun s op => op.FitsInt s) {} ops) :
    Always (total (step f)) (Sound f) {} ops := by
  refine always_of_everyStep sound_empty (fun s op s' hs hop he => ?_) h
  obtain rfl := total_eq_some.1 he
  exact (hs.call op hop).exec

/-- In every run whose calls find ids that fit an `int`, `update` returns in every state, and every property
is right. -/
theorem calculated_of_fitsInt [DecidableEq π] [Inhabited π] (f : PropertyFunctions α π) (ops : List (Op α))
    (h : EveryStep (total (step f)) (fun s op => op.FitsInt s) {} ops) :
    Always (total (step f)) (fun s => wp (update f) (fun _ s' => Calculated f s') (fun _ _ => False) s) {} ops :=
  (sound_of_fitsInt h).mono fun _ hs => hs.update

/-- Which cycles reach the node `2`, while a cycle is made and taken apart. -/
theorem calculated_of_fitsInt_triangle : let f : PropertyFunctions ℕ Bool := ⟨fun nodes => decide (2 ∈ nodes), or⟩
    let ops : List (Op ℕ) := [.addEdge 0 1, .addEdge 1 2, .update, .addEdge 2 0, .dropEdge 1 2,
      .dropNode 0, .markNodeDirty 1]
    EveryStep (total (step f)) (fun s op => op.FitsInt s) {} ops ∧ Always (total (step f))
        (fun s => wp (update f) (fun _ s' => Calculated f s') (fun _ _ => False) s) {} ops := by
  intro f ops
  have hfits : Run.EveryStep (total (step f)) (fun s op => op.FitsInt s) {} ops := by decide +kernel
  exact ⟨hfits, calculated_of_fitsInt f ops hfits⟩

/-! ## Too many cycles -/

variable {f : PropertyFunctions ℕ Bool} {s : GraphWithCalculatedProperty ℕ Bool}

theorem step_addEdge_graph {u v : ℕ} (hne : u ≠ v) :
    (step f s (.addEdge u v)).mGraphWithCycles = GraphCycles.step s.mGraphWithCycles (.addEdge u v hne) := by
  have hdirty : ∀ s : GraphWithCalculatedProperty ℕ Bool, wp (dirtyCycleFor u)
      (fun _ s' => s'.mGraphWithCycles = s.mGraphWithCycles)
      (fun _ s' => s'.mGraphWithCycles = s.mGraphWithCycles) s := by
    intro s
    cases hu : s.mGraphWithCycles.graph.mNodeToCycle.tryGetValue u with
    | none => rw [wp_dirtyCycleFor_of_none hu]
    | some c => rw [wp_dirtyCycleFor hu]
  refine wp.exec (P := fun s' : GraphWithCalculatedProperty ℕ Bool => s'.mGraphWithCycles =
    GraphCycles.step s.mGraphWithCycles (.addEdge u v hne)) ?_
  show wp (addEdge u v) _ _ s
  unfold addEdge
  rw [wp_bind, wp_onCycles]
  refine (wp_exec (GraphCycles.addEdge u v) s.mGraphWithCycles).mono (fun _ g hg => ?_) fun _ g hg => ?_
  · refine (hdirty _).mono (fun _ s' hs' => ?_) fun _ s' hs' => ?_
    · exact hs'.trans (calledBack_graph.trans hg.symm)
    · exact hs'.trans (calledBack_graph.trans hg.symm)
  · exact calledBack_graph.trans hg.symm

/-- A cycle that leads to one with the property has it. -/
theorem calcPropertyFor_eq_true {p : Finset ℕ → Bool} {c : ℤ}
    (h : p (s.mGraphWithCycles.graph.mNodeToCycle.getKeys c) = true ∨
      ∃ d, s.mGraphWithCycles.graph.mCycleEdges.contains c d ∧
        lookup d s.mCycleProperties = some true) : calcPropertyFor ⟨p, or⟩ s c = true := by
  have h' : p (s.mGraphWithCycles.graph.mNodeToCycle.getKeys c) = true ∨
      ∃ d ∈ ascending (s.mGraphWithCycles.graph.mCycleEdges.getValues c), lookup d s.mCycleProperties = some true :=
    h.imp_right fun ⟨d, hd, hl⟩ => ⟨d, mem_ascending.2 (mem_getValues.2 hd), hl⟩
  unfold calcPropertyFor
  dsimp only
  generalize p (s.mGraphWithCycles.graph.mNodeToCycle.getKeys c) = base at h' ⊢
  generalize ascending (s.mGraphWithCycles.graph.mCycleEdges.getValues c) = l at h' ⊢
  induction l generalizing base with
  | nil => exact h'.resolve_right fun ⟨d, hd, _⟩ => absurd hd not_mem_nil
  | cons d l ih =>
    refine ih _ ?_
    dsimp only
    rcases h' with rfl | ⟨x, hx, hl⟩
    · left
      split
      · rfl
      · exact Bool.true_or _
    · rcases mem_cons.1 hx with rfl | hx
      · left
        rw [hl]
        exact Bool.or_true _
      · exact .inr ⟨x, hx, hl⟩

/-- An edge between two new nodes is added and dropped, and its end is still merged over. -/
theorem not_calculated_of_paired {n : ℕ} (h : Sound f s) (hp : GraphCycles.Paired n s.mGraphWithCycles)
    (hint : GraphCycles.toInt (2 * n) < 0) (hf : f = ⟨fun nodes => decide (2 * n + 1 ∈ nodes), or⟩) :
    ¬ wp (update f) (fun _ s' => Calculated f s') (fun _ _ => False)
      (step f (step f s (.addEdge (2 * n) (2 * n + 1))) (.dropEdge (2 * n) (2 * n + 1))) := by
  have hne := (Nat.succ_ne_self (2 * n)).symm
  have hnode : 2 * n ∉ s.mGraphWithCycles.graph.mNodes := fun hmem => ((hp.node _).1 hmem).false
  have hnew : ∀ v, ¬ s.mGraphWithCycles.graph.mEdges.contains (2 * n) v := fun v hv =>
    hnode (h.stable.indexed.source_mem _ v hv)
  have hsound : Sound f (step f s (.addEdge (2 * n) (2 * n + 1))) := (h.addEdge _ _).exec
  have hpaired := hp.step
  have hedges : (GraphCycles.step s.mGraphWithCycles (.addEdge (2 * n) (2 * n + 1) hne)).graph.mEdges =
      s.mGraphWithCycles.graph.mEdges.insert (2 * n) (2 * n + 1) :=
    wp.exec (P := fun g : GraphCycles.Observed ℕ => g.graph.mEdges = _)
      (((h.stable.spare (2 * n, 2 * n + 1)).addEdge hne (hnew _)).mono (fun _ g hg => hg.2.1) fun _ _ => elim)
  rw [← step_addEdge_graph (f := f) hne] at hpaired hedges
  generalize step f s (.addEdge (2 * n) (2 * n + 1)) = s₁ at *
  obtain ⟨hu, hv⟩ := hpaired.labels
  have hlive := hsound.stable.indexed.mem_cycle hu
  have hedge : s₁.mGraphWithCycles.graph.mCycleEdges.contains (2 * n) (2 * n + 1) :=
    (hsound.stable.indexed.edge _ _).2 ⟨by omega, _, _, hpaired.edge n rfl, hu, hv⟩
  set g : GraphCycles.Observed ℕ := { s₁.mGraphWithCycles with
    graph := { s₁.mGraphWithCycles.graph with
      mEdges := s₁.mGraphWithCycles.graph.mEdges.drop (2 * n) (2 * n + 1) } } with hg
  have hafter : step f s₁ (.dropEdge (2 * n) (2 * n + 1)) =
      { s₁ with mGraphWithCycles := g, mDirtyCycles := insert (2 * n : ℤ) s₁.mDirtyCycles } := by
    refine wp.exec (P := fun s' : GraphWithCalculatedProperty ℕ Bool => s' = _) ?_
    show wp (dropEdge _ _) _ _ s₁
    unfold dropEdge
    rw [wp_bind, wp_dirtyCycleFor hu, wp_onCycles]
    refine (hpaired.wp_dropEdge hint).mono (fun _ _ => elim) ?_
    rintro _ _ rfl
    exact calledBack_of_events rfl
  have htracked : Tracked f nobody
      { s₁ with mGraphWithCycles := g, mDirtyCycles := insert (2 * n : ℤ) s₁.mDirtyCycles } := by
    have h' := hsound.tracked.dirtyCycle hlive fun _ hno => hno.elim
    exact ⟨h'.dirty, h'.keys, h'.unset, h'.right⟩
  rw [hafter]
  intro hcalculated
  obtain ⟨_, s', -, ⟨htracked', hclean, hgraph⟩, hright⟩ := (((htracked.update hsound.stable.indexed.joins
    fun a _ hab => (hsound.stable.settled a).lt hab).and hcalculated).mono (fun _ _ => id)
      fun _ _ he => he.1).exists_run
  have hlookup : ∀ c ∈ s₁.mGraphWithCycles.graph.mAllCycles,
      lookup c s'.mCycleProperties = some (calcPropertyFor f s' c) := fun c hc =>
    htracked'.lookup_of_clean (by rw [hgraph]; exact hsound.stable.indexed.joins) hclean (by rw [hgraph]; exact hc)
  -- The edge between the cycles is still there, and the end of it has the property.
  have htrue : lookup (2 * n : ℤ) s'.mCycleProperties = some true := by
    rw [hlookup _ hlive, hf, calcPropertyFor_eq_true (.inr ⟨2 * n + 1, by rw [hgraph]; exact hedge, ?_⟩)]
    rw [hlookup _ (hsound.stable.indexed.mem_cycle hv), hf, calcPropertyFor_eq_true (.inl ?_)]
    rw [hgraph]
    exact decide_eq_true (MapWithIndex.mem_getKeys.2 hv)
  obtain ⟨p, successors, hp', hmerged, hsuccessors⟩ := hright.right (2 * n) (by rw [hgraph]; exact hlive)
  obtain rfl := some.inj (htrue.symm.trans hp')
  -- But no edge of the graph starts from it.
  have hempty : successors = ∅ := by
    refine eq_empty_of_forall_notMem fun d hd => ?_
    obtain ⟨-, u, v, huv, hlu, -⟩ := (hsuccessors d).1 hd
    rw [hgraph] at huv hlu
    obtain ⟨hold, hother⟩ := contains_drop.1 huv
    have hlt := (hpaired.node u).1 (hsound.stable.indexed.source_mem u v hold)
    have hu2 : u = 2 * n := by
      have he := some.inj ((hpaired.label u hlt).symm.trans hlu)
      omega
    rw [hedges, TwoWaySetMap.contains_insert] at hold
    subst hu2
    rcases hold with hold | hold
    · exact hother hold
    · exact hnew v hold
  rw [hempty, hf] at hmerged
  have hown : 2 * n + 1 ∈ s'.mGraphWithCycles.graph.mNodeToCycle.getKeys (2 * n) := of_decide_eq_true (some.inj hmerged)
  rw [hgraph, MapWithIndex.mem_getKeys] at hown
  have he := some.inj (hv.symm.trans hown)
  omega

/-- The calls that add edges between new nodes, two by two. -/
def pairs : ℕ → List (Op ℕ)
  | 0 => []
  | n + 1 => pairs n ++ [.addEdge (2 * n) (2 * n + 1)]

theorem run_pairs (f : PropertyFunctions ℕ Bool) (n : ℕ) : ∃ s,
    run (total (step f)) {} (pairs n) = some s ∧ Sound f s ∧ GraphCycles.Paired n s.mGraphWithCycles := by
  induction n with
  | zero =>
    obtain ⟨g, hr, hg⟩ := GraphCycles.Paired.run 0
    obtain rfl : {} = g := some.inj hr
    exact ⟨{}, rfl, sound_empty, hg⟩
  | succ n ih =>
    obtain ⟨s, hr, hs, hp⟩ := ih
    refine ⟨_, ?_, (hs.addEdge (2 * n) (2 * n + 1)).exec, ?_⟩
    · rw [pairs, run_concat, hr]
      rfl
    · show GraphCycles.Paired (n + 1) (step f s (.addEdge (2 * n) (2 * n + 1))).mGraphWithCycles
      rw [step_addEdge_graph (Nat.succ_ne_self _).symm]
      exact hp.step

/-- `2 ^ 30 + 1` edges between new nodes, and the last of them dropped: which cycles reach its end. -/
theorem not_calculated : ¬ ∀ (f : PropertyFunctions ℕ Bool) (ops : List (Op ℕ)), Always (total (step f))
      (fun s => wp (update f) (fun _ s' => Calculated f s') (fun _ _ => False) s) {} ops := by
  intro h
  set f : PropertyFunctions ℕ Bool := ⟨fun nodes => decide (2 * 2 ^ 30 + 1 ∈ nodes), or⟩ with hf
  obtain ⟨s, hr, hs, hp⟩ := run_pairs f (2 ^ 30)
  refine not_calculated_of_paired hs hp (by decide) hf ((h f (pairs (2 ^ 30) ++
    [.addEdge (2 * 2 ^ 30) (2 * 2 ^ 30 + 1)] ++ [.dropEdge (2 * 2 ^ 30) (2 * 2 ^ 30 + 1)])).last ?_)
  rw [run_concat, run_concat, hr]
  rfl

end GraphWithCalculatedProperty
