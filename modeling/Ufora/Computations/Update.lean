import Ufora.Computations.Passes

/-!
# `update`

The rounds of the outer loop of `update`, and the loop over the splits. `Settling` is the invariant
of the rounds where no priority reaches a cycle: each pass raises the least rank at which a priority
does not follow, so the set of dirty roots is not the same after two passes in a row, no root is made
circular, and the rounds end (`Settling.exists_updateRoots`) with priorities that follow.
`Growing` is the invariant where every priority is supported by a client: the first pass gives a
priority to every root that a client reaches, and no root loses one.
-/

open Ordered Relation Finset Finmap List Cumulus.ComputationDependencyGraph.Pass Propagation

namespace Cumulus.ComputationDependencyGraph.Updating

open Propagation (Network)

variable {u u₀ u' : Updating} {x id : ComputationId} {limit rounds stable : ℕ}

/-- The pass that starts a round. -/
def startPass (u : Updating) : Pass where
  updating := u
  newDirty := ∅
  toCheck := u.graph.mDirtyPriorities

/-- The graph with the dirty roots that a pass found. -/
def withDirty (u : Updating) (dirty : Finset ComputationId) : Updating := { u with
    graph := { u.graph with mDirtyPriorities := dirty } }

/-- What each kind of round keeps holds where the rounds end. -/
theorem updateRoots_induction {I : ℕ → Updating → Prop} (hsane : ∀ stable u, I stable u → Sane u.graph)
    (hchanged : ∀ stable u p, I stable u → Runs u.startPass p → p.toCheck = ∅ →
      u.graph.mDirtyPriorities ≠ p.newDirty → I 0 (p.updating.withDirty p.newDirty))
    (hstable : ∀ u p, I 0 u → Runs u.startPass p → p.toCheck = ∅ →
      u.graph.mDirtyPriorities = p.newDirty → p.newDirty ≠ ∅ → I 1 p.updating)
    (hcircular : ∀ stable u p, I (stable + 1) u → Runs u.startPass p → p.toCheck = ∅ →
      u.graph.mDirtyPriorities = p.newDirty → p.newDirty ≠ ∅ →
      I (stable + 2) p.updating.makeCircular) (hI : I stable u) (hr : updateRoots limit rounds stable u = some u') :
    ∃ stable', I stable' u' ∧ u'.graph.mDirtyPriorities = ∅ := by
  induction rounds generalizing stable u with
  | zero =>
    unfold updateRoots at hr
    split at hr
    · next he =>
      cases hr
      exact ⟨stable, hI, he⟩
    · cases hr
  | succ rounds ih =>
    unfold updateRoots at hr
    split at hr
    · next he =>
      cases hr
      exact ⟨stable, hI, he⟩
    · next he =>
      obtain ⟨p, hp, hr⟩ := Option.bind_eq_some_iff.1 hr
      obtain ⟨hruns, hq⟩ : Runs u.startPass p ∧ _ := run_spec (hsane _ _ hI) hp
      have hd : p.updating.graph.mDirtyPriorities = u.graph.mDirtyPriorities := hruns.dirty
      rw [hd] at hr
      split at hr
      · next hne => exact ih (hchanged _ _ _ hI hruns hq hne) hr
      · next heq =>
        rw [not_not] at heq
        have hne : p.newDirty ≠ ∅ := heq ▸ he
        cases stable with
        | zero =>
          rw [if_neg (by decide)] at hr
          exact ih (hstable _ _ hI hruns hq heq hne) hr
        | succ stable =>
          rw [if_pos (by omega)] at hr
          exact ih (hcircular _ _ _ hI hruns hq heq hne) hr

/-! ## Where no priority reaches a cycle -/

section
variable {E : ComputationPriority → ComputationPriority → Prop} {rank : ComputationId → ℕ}

/-- The invariant of the rounds where no priority reaches a cycle. `E` is how priorities agree. -/
structure Settling (u₀ : Updating) (E : ComputationPriority → ComputationPriority → Prop)
    (rank : ComputationId → ℕ) (stable : ℕ) (u : Updating) : Prop where
  sane : Sane u.graph
  kept : Kept u₀ u
  confined : Confined u₀.graph u.graph.rootPriorities
  agrees : ∀ x, E (u₀.graph.network.recompute u.graph.rootPriorities x)
    (u.graph.rootPriorities x) ∨ x ∈ u.graph.mDirtyPriorities
  stable : stable = 0 ∨ stable = 1 ∧ ∃ z ∈ u.graph.mDirtyPriorities, ∀ x ∈ u.graph.mDirtyPriorities,
      ¬ u₀.graph.network.Settled u.graph.rootPriorities x → rank z < rank x
  downstream : ∀ x ∈ u.graph.mDirtyPriorities, Downstream u₀.graph x
  untouched : ∀ x, ¬ Downstream u₀.graph x → u.graph.rootPriorities x = u₀.graph.rootPriorities x

/-- The steps of a pass, in the network of the graph before the first round. -/
theorem steps_startPass {p : Pass} (h : Kept u₀ u) (hr : Runs u.startPass p) :
    u₀.graph.network.Steps u.startPass.propagation p.propagation := by
  have hsteps := hr.steps
  rwa [show u.startPass.updating.graph.network = u₀.graph.network from h.edits.network] at hsteps

/-- The roots that a pass finds dirty are roots, and the rest of the graph stays in order. -/
theorem sane_withDirty {p : Pass} (hr : Runs u.startPass p) (hs : Sane u.graph) :
    Sane (p.updating.withDirty p.newDirty).graph := by
  obtain ⟨-, hroots, -⟩ := hr.steps.confined (S := fun x : ComputationId => x.isRoot)
    (fun x y _ hxy => (hs.parentsRoots x y hxy).2) hs.dirtyRoots (by simp [startPass, propagation])
  exact (Kept.setDirty p.updating p.newDirty).edits.sane hr.sane hroots hr.sane.dirtySplits hr.sane.tame

namespace Settling
variable {p : Pass} (hs : Sane u₀.graph)
  (hrank : ∀ x y, LiveReached u₀.graph x → Parent u₀.graph x y → rank x < rank y)
include hs hrank

/-- After a pass the priorities are still null where no live root reaches, and the roots found dirty
lie above those that were unsettled, and above one of them if there is any. -/
theorem afterPass (h : Settling u₀ E rank stable u) (hr : Runs u.startPass p) (hq : p.toCheck = ∅) :
    Confined u₀.graph p.updating.graph.rootPriorities ∧ (p.newDirty ≠ ∅ → ∃ z ∈ p.newDirty, ∀ x ∈ p.newDirty,
        ¬ u₀.graph.network.Settled p.updating.graph.rootPriorities x → rank z < rank x) ∧
      ∀ k, (∀ x ∈ u.graph.mDirtyPriorities, ¬ u₀.graph.network.Settled u.graph.rootPriorities x → k ≤ rank x) →
        (∀ x ∈ p.newDirty, k ≤ rank x) ∧ ∀ x ∈ p.newDirty,
          ¬ u₀.graph.network.Settled p.updating.graph.rootPriorities x → k < rank x := by
  have hranked := hs.ranked hrank
  have hsteps := steps_startPass h.kept hr
  refine ⟨?_, hranked.exists_settled hsteps h.confined rfl hq, fun k hk => ?_⟩
  · exact (hranked.pass hsteps h.confined rfl hq fun x _ _ => Nat.zero_le _).1
  · exact (hranked.pass hsteps h.confined rfl hq hk).2

omit hs hrank in
/-- Where a priority does not agree with those of the parents, the root is dirty. -/
theorem agrees_afterPass (hE : ∀ a b, a == b → E a b) (h : Settling u₀ E rank stable u)
    (hr : Runs u.startPass p) (hq : p.toCheck = ∅) (x : ComputationId) :
    E (u₀.graph.network.recompute p.updating.graph.rootPriorities x)
      (p.updating.graph.rootPriorities x) ∨ x ∈ p.newDirty := by
  have hsteps := steps_startPass h.kept hr
  rcases hsteps.agrees hE (y := x) ((h.agrees x).imp_right .inl) with ha | hc | hd
  · exact .inl ha
  · rw [show p.propagation.toCheck = p.toCheck from rfl, hq] at hc
    exact absurd hc (notMem_empty x)
  · exact .inr hd

omit hs hrank in
/-- A pass stays among the roots that a dirty one reaches. -/
theorem downstream_afterPass (h : Settling u₀ E rank stable u) (hr : Runs u.startPass p) :
    (∀ x ∈ p.newDirty, Downstream u₀.graph x) ∧ ∀ x, ¬ Downstream u₀.graph x →
      p.updating.graph.rootPriorities x = u₀.graph.rootPriorities x := by
  have hclosed : ∀ x y, Downstream u₀.graph x → u₀.graph.network.edge x y → Downstream u₀.graph y := by
    rintro x y ⟨z, hz, hzx⟩ hxy
    exact ⟨z, hz, hzx.tail hxy⟩
  obtain ⟨-, hdirty, hvalue⟩ := (steps_startPass h.kept hr).confined hclosed h.downstream
    (by simp [startPass, propagation])
  exact ⟨hdirty, fun x hx => (hvalue x hx).trans (h.untouched x hx)⟩

variable (hE : ∀ a b, a == b → E a b)
include hE

theorem changed (h : Settling u₀ E rank stable u) (hr : Runs u.startPass p) (hq : p.toCheck = ∅) :
    Settling u₀ E rank 0 (p.updating.withDirty p.newDirty) where
  sane := sane_withDirty hr h.sane
  kept := (h.kept.trans hr.kept).trans (.setDirty _ _)
  confined := (h.afterPass hs hrank hr hq).1
  agrees := h.agrees_afterPass hE hr hq
  stable := .inl rfl
  downstream := (h.downstream_afterPass hr).1
  untouched := (h.downstream_afterPass hr).2

/-- A set of dirty roots that a pass leaves as it was is left as it was for the first time. -/
theorem unchanged (h : Settling u₀ E rank stable u) (hr : Runs u.startPass p) (hq : p.toCheck = ∅)
    (heq : u.graph.mDirtyPriorities = p.newDirty) (hne : p.newDirty ≠ ∅) :
    stable = 0 ∧ Settling u₀ E rank 1 p.updating := by
  obtain ⟨hconfined, hexists, hbelow⟩ := h.afterPass hs hrank hr hq
  have hdirty : p.updating.graph.mDirtyPriorities = p.newDirty := hr.dirty.trans heq
  obtain ⟨hdownstream, huntouched⟩ := h.downstream_afterPass hr
  refine ⟨?_, hr.sane, h.kept.trans hr.kept, hconfined, ?_, .inr ⟨rfl, ?_⟩,
    fun x hx => hdownstream x (hdirty ▸ hx), huntouched⟩
  · rcases h.stable with h0 | ⟨-, z, hz, hlt⟩
    · exact h0
    · have hz' := (hbelow (rank z + 1) hlt).1 z (heq ▸ hz)
      omega
  · rw [hdirty]
    exact h.agrees_afterPass hE hr hq
  · rw [hdirty]
    exact hexists hne

/-- Where no priority reaches a cycle, the rounds end with priorities that agree. -/
theorem updateRoots_spec (h : Settling u₀ E rank stable u) (hr : updateRoots limit rounds stable u = some u') :
    (∃ stable', Settling u₀ E rank stable' u') ∧ u'.graph.mDirtyPriorities = ∅ := by
  obtain ⟨stable', h', hd⟩ := updateRoots_induction (I := Settling u₀ E rank)
    (fun _ _ h => h.sane) (fun _ _ _ h hr hq _ => h.changed hs hrank hE hr hq)
    (fun _ _ h hr hq heq hne => (h.unchanged hs hrank hE hr hq heq hne).2)
    (fun _ _ _ h hr hq heq hne => absurd (h.unchanged hs hrank hE hr hq heq hne).1 (by simp)) h hr
  exact ⟨⟨stable', h'⟩, hd⟩

/-- Where no priority reaches a cycle, the rounds end: each of them raises the least rank at which
a dirty root is unsettled. -/
theorem exists_updateRoots {W : Finset ComputationId} {bound k : ℕ}
    (hW : ∀ x y, Parent u₀.graph x y → y ∈ W) (hbound : ∀ x, rank x ≤ bound)
    (hlimit : 2 * W.card ≤ limit) (h : Settling u₀ E rank stable u) (hdirty : u.graph.mDirtyPriorities ⊆ W)
    (hrankDirty : ∀ x ∈ u.graph.mDirtyPriorities, k ≤ rank x + 1)
    (hunsettled : ∀ x ∈ u.graph.mDirtyPriorities, ¬ u₀.graph.network.Settled u.graph.rootPriorities x → k ≤ rank x)
    (hrounds : bound + 2 ≤ k + rounds) : ∃ u', updateRoots limit rounds stable u = some u' := by
  induction rounds generalizing k stable u with
  | zero =>
    have hempty : u.graph.mDirtyPriorities = ∅ := by
      refine eq_empty_of_forall_notMem fun x hx => ?_
      have hx' := hrankDirty x hx
      have hxb := hbound x
      omega
    exact ⟨u, by rw [updateRoots, if_pos hempty]⟩
  | succ rounds ih =>
    unfold updateRoots
    split
    · exact ⟨u, rfl⟩
    · next hne =>
      have hweight : weight W u.startPass.propagation ≤ limit := by
        have hcard := card_le_card hdirty
        have hempty : (u.startPass.propagation.newDirty : Finset ComputationId) = ∅ := rfl
        unfold weight
        rw [hempty, sdiff_empty]
        show u.graph.mDirtyPriorities.card + W.card ≤ limit
        omega
      obtain ⟨p, hp⟩ : ∃ p, run limit u.startPass = some p := by
        refine exists_run h.sane (fun x y hxy => ?_) h.sane.dirtyRoots (by simp [startPass]) hweight
        rw [show u.startPass.updating.graph = u.graph from rfl, h.kept.edits.parent] at hxy
        exact hW x y hxy
      obtain ⟨hr, hq⟩ : Runs u.startPass p ∧ _ := run_spec h.sane hp
      obtain ⟨-, -, hbelow⟩ := h.afterPass hs hrank hr hq
      obtain ⟨hlow, hlow'⟩ := hbelow k hunsettled
      have hnewW : p.newDirty ⊆ W := by
        have hsteps := steps_startPass h.kept hr
        exact (hsteps.confined (S := fun x => x ∈ W) (fun x y _ hxy => hW x y hxy) hdirty
          (by simp [startPass, propagation])).2.1
      have hd : p.updating.graph.mDirtyPriorities = u.graph.mDirtyPriorities := hr.dirty
      rw [show run limit { updating := u, newDirty := ∅, toCheck := u.graph.mDirtyPriorities } = some p from hp]
      show ∃ u', (if p.updating.graph.mDirtyPriorities ≠ p.newDirty then _ else _) = some u'
      rw [hd]
      split
      · refine ih (k := k + 1) (h.changed hs hrank hE hr hq) hnewW (fun x hx => ?_) hlow' (by omega)
        exact Nat.succ_le_succ (hlow x hx)
      · next heq =>
        rw [not_not] at heq
        obtain ⟨rfl, h'⟩ := h.unchanged hs hrank hE hr hq heq (heq ▸ hne)
        rw [if_neg (by decide)]
        have hdirty' : p.updating.graph.mDirtyPriorities = p.newDirty := hd.trans heq
        refine ih (k := k + 1) h' (hdirty' ▸ hnewW) (fun x hx => ?_) (fun x hx => ?_) (by omega)
        · exact Nat.succ_le_succ (hlow x (hdirty' ▸ hx))
        · exact hlow' x (hdirty' ▸ hx)

end Settling

end

/-! ## Where every priority is supported -/

/-- A root keeps a priority only by way of clients and of roots that have one. -/
def AllSupported (g : ComputationDependencyGraph) : Prop := ∀ x, NotNull (g.rootPriorities x) →
    Supported g.network NotNull (Requested g) g.rootPriorities x

/-- The invariant of the rounds where every priority is supported by a client. -/
structure Growing (u₀ u : Updating) : Prop where
  sane : Sane u.graph
  kept : Kept u₀ u
  supported : AllSupported u.graph
  lagging : ∀ x, NotNull (u₀.graph.network.recompute u.graph.rootPriorities x) →
    ¬ NotNull (u.graph.rootPriorities x) → x ∈ u.graph.mDirtyPriorities

/-- Making the dirty roots circular keeps which priorities are null. -/
theorem makeCircular_spec (hs : Sane u.graph) : Sane u.makeCircular.graph ∧ Kept u u.makeCircular ∧ ∀ x,
      NotNull (u.graph.rootPriorities x) ↔ NotNull (u.makeCircular.graph.rootPriorities x) := by
  have hloop : ∀ (l : List ComputationId) (u : Updating), (∀ x ∈ l, x.isRoot) → (∀ x, (u.graph.getPriority x).Tame) →
      Kept u (l.foldl (fun u id => u.updatePriority id (u.graph.getPriority id).makeCircular) u) ∧
        ∀ x, ((l.foldl (fun u id => u.updatePriority id
          (u.graph.getPriority id).makeCircular) u).graph.getPriority x).Tame ∧
          ((l.foldl (fun u id => u.updatePriority id
            (u.graph.getPriority id).makeCircular) u).graph.getPriority x).isNull = (u.graph.getPriority x).isNull := by
    intro l
    induction l with
    | nil => exact fun u _ ht => ⟨.refl u, fun x => ⟨ht x, rfl⟩⟩
    | cons id l ih =>
      intro u hl ht
      rw [List.forall_mem_cons] at hl
      have hnext : ∀ x, ((u.updatePriority id (u.graph.getPriority id).makeCircular).graph.getPriority
          x).Tame ∧ ((u.updatePriority id
            (u.graph.getPriority id).makeCircular).graph.getPriority x).isNull = (u.graph.getPriority x).isNull := by
        intro x
        rw [getPriority_updatePriority]
        split
        · next hx => exact hx ▸ ⟨(ht x).makeCircular, rfl⟩
        · exact ⟨ht x, rfl⟩
      obtain ⟨hkept, hrest⟩ := ih (u.updatePriority id (u.graph.getPriority id).makeCircular) hl.2 fun x => (hnext x).1
      exact ⟨(kept_updatePriority hl.1).trans hkept, fun x => ⟨(hrest x).1, (hrest x).2.trans (hnext x).2⟩⟩
  obtain ⟨hkept, hnull⟩ := hloop (ascending u.graph.mDirtyPriorities) u
    (fun x hx => hs.dirtyRoots x (mem_ascending.1 hx)) hs.tame
  have hkept' : Kept u u.makeCircular := hkept.trans (.setDirty _ ∅)
  refine ⟨hkept'.edits.sane hs ?_ ?_ fun x => (hnull x).1, hkept', fun x => ?_⟩
  · exact fun x hx => absurd hx (notMem_empty x)
  · exact fun x hx => hs.dirtySplits x (hkept'.dirtySplits ▸ hx)
  · unfold rootPriorities NotNull
    split
    · exact not_congr (Bool.eq_iff_iff.1 (hnull x).2.symm)
    · exact Iff.rfl

namespace Growing
variable {p : Pass}

/-- After a pass every root that a client reaches has a priority, and no other. -/
theorem afterPass (h : Growing u₀ u) (hs : Sane u₀.graph) (hr : Runs u.startPass p)
    (hq : p.toCheck = ∅) : Spread u₀.graph.network NotNull (Requested u₀.graph)
      p.updating.graph.rootPriorities := by
  have hsteps := steps_startPass h.kept hr
  have hsupp := h.supported
  unfold AllSupported at hsupp
  rw [h.kept.edits.network, h.kept.edits.requested] at hsupp
  exact (hs.spreads.pass hsteps h.sane.tame_rootPriorities rfl hq hsupp h.lagging).2

/-- Whatever is dirty after a pass, the invariant holds then. -/
theorem of_spread (hsane : Sane u.graph) (hkept : Kept u₀ u)
    (h : Spread u₀.graph.network NotNull (Requested u₀.graph) u.graph.rootPriorities) :
    Growing u₀ u := by
  refine ⟨hsane, hkept, ?_, fun x hx hn => absurd (h.complete x hx) hn⟩
  unfold AllSupported
  rw [hkept.edits.network, hkept.edits.requested]
  exact h.supported

/-- Where every priority is supported, the rounds end with priorities at exactly the roots that a
client reaches, whether or not some roots were made circular. -/
theorem updateRoots_spec (hs : Sane u₀.graph) (h : Growing u₀ u) (hr : updateRoots limit rounds stable u = some u') :
    Growing u₀ u' ∧ u'.graph.mDirtyPriorities = ∅ := by
  have hcircular : ∀ (stable : ℕ) (u : Updating) (p : Pass), Growing u₀ u →
      Runs u.startPass p → p.toCheck = ∅ → u.graph.mDirtyPriorities = p.newDirty →
      p.newDirty ≠ ∅ → Growing u₀ p.updating.makeCircular := by
    intro _ u p h hr hq _ _
    obtain ⟨hsane, hkept, hnull⟩ := makeCircular_spec hr.sane
    refine of_spread hsane ((h.kept.trans hr.kept).trans hkept) ?_
    exact hs.spreads.spread_congr hr.sane.tame_rootPriorities hsane.tame_rootPriorities hnull (h.afterPass hs hr hq)
  obtain ⟨-, h', hd⟩ := updateRoots_induction (I := fun _ => Growing u₀) (fun _ _ h => h.sane)
    (fun _ u p h hr hq _ => of_spread (sane_withDirty hr h.sane)
      ((h.kept.trans hr.kept).trans (.setDirty _ _)) (h.afterPass hs hr hq))
    (fun u p h hr hq _ _ => of_spread hr.sane (h.kept.trans hr.kept) (h.afterPass hs hr hq))
    hcircular h hr
  exact ⟨h', hd⟩

end Growing

/-! ## The splits -/

/-- Roots have the same computed priorities where roots have the same priorities. -/
theorem computePriorityFor_congr {g g' : ComputationDependencyGraph} (h : SameEdits g g')
    (hs : Sane g) (hs' : Sane g') (hroots : ∀ x, x.isRoot → g'.getPriority x = g.getPriority x)
    (x : ComputationId) : g'.computePriorityFor x = g.computePriorityFor x := by
  have hvalue : g'.rootPriorities = g.rootPriorities := by
    funext y
    unfold rootPriorities
    split
    · next hy => exact hroots y hy
    · rfl
  have hroot : ∀ y, g'.computeRootPriorityFor y = g.computeRootPriorityFor y := by
    intro y
    rw [← hs.recompute_rootPriorities, ← hs'.recompute_rootPriorities, h.network, hvalue]
  unfold computePriorityFor
  rw [hroot, hroot]

/-- What the loop over some splits does. -/
structure SplitsUpdated (u : Updating) (splits : ComputationId → Prop) (u' : Updating) : Prop where
  sane : Sane u'.graph
  edits : SameEdits u.graph u'.graph
  dirty : u'.graph.mDirtyPriorities = u.graph.mDirtyPriorities
  others : ∀ x, ¬ splits x → lookup x u'.graph.mAllPriorities = lookup x u.graph.mAllPriorities
  computed : ∀ x, splits x → u'.graph.getPriority x == u.graph.computePriorityFor x

theorem updateSplit_spec (hs : Sane u.graph) (hid : id.isSplit) : SplitsUpdated u (· = id) (u.updateSplit id) ∧
      (u.updateSplit id).graph.mDirtySplitPriorities = u.graph.mDirtySplitPriorities := by
  have hpri : (u.graph.computePriorityFor id).Tame := by
    unfold computePriorityFor
    rw [if_pos hid, ← hs.recompute_rootPriorities]
    exact ComputationPriority.Tame.priorityForSplitComputation (hs.recompute_spec hs.tame_rootPriorities _).1 _
  have hlookup : ∀ (u : Updating) (p : ComputationPriority) x, ¬ x = id →
      lookup x (Finmap.insert id p u.graph.mAllPriorities) = lookup x u.graph.mAllPriorities := by
    intro u p x hx
    rw [StdMap.lookup_insert, if_neg hx]
  unfold updateSplit
  dsimp only
  rw [getPriority_touch]
  split
  · refine ⟨⟨?_, rfl, rfl, fun x hx => ?_, fun x hx => ?_⟩, rfl⟩
    · refine SameEdits.sane (g := u.graph) rfl hs hs.dirtyRoots hs.dirtySplits fun x => ?_
      rw [getPriority_updatePriority, getPriority_touch]
      split
      exacts [hpri, hs.tame x]
    · exact (hlookup (u.touch id) _ x hx).trans (hlookup u _ x hx)
    · subst hx
      rw [getPriority_updatePriority, if_pos rfl]
      exact ComputationPriority.beq_refl _
  · next heq =>
    refine ⟨⟨?_, rfl, rfl, fun x hx => hlookup u _ x hx, fun x hx => ?_⟩, rfl⟩
    · refine SameEdits.sane (g := u.graph) rfl hs hs.dirtyRoots hs.dirtySplits fun x => ?_
      rw [getPriority_touch]
      exact hs.tame x
    · subst hx
      rw [getPriority_touch]
      simpa [bne] using heq

theorem foldl_updateSplit_spec (l : List ComputationId) (hl : ∀ x ∈ l, x.isSplit)
    (hs : Sane u.graph) : SplitsUpdated u (· ∈ l) (l.foldl updateSplit u) ∧
      (l.foldl updateSplit u).graph.mDirtySplitPriorities = u.graph.mDirtySplitPriorities := by
  induction l generalizing u with
  | nil =>
    exact ⟨⟨hs, .refl _, rfl, fun _ _ => rfl, fun x hx => absurd hx not_mem_nil⟩, rfl⟩
  | cons id l ih =>
    rw [List.forall_mem_cons] at hl
    obtain ⟨h, hd⟩ := updateSplit_spec hs hl.1
    obtain ⟨h', hd'⟩ := ih hl.2 h.sane
    have hcompute := computePriorityFor_congr h.edits hs h.sane fun x hx => by
      unfold getPriority
      rw [h.others x ?_]
      rintro rfl
      have hid := hl.1
      unfold ComputationId.isSplit at hid
      rw [hx] at hid
      cases hid
    refine ⟨⟨h'.sane, h.edits.trans h'.edits, h'.dirty.trans h.dirty, fun x hx => ?_, fun x hx => ?_⟩, hd'.trans hd⟩
    · rw [List.mem_cons, not_or] at hx
      exact (h'.others x hx.2).trans (h.others x hx.1)
    · by_cases hxl : x ∈ l
      · exact hcompute x ▸ h'.computed x hxl
      · obtain rfl := (mem_cons.1 hx).resolve_right hxl
        have hsame : ((l.foldl updateSplit (u.updateSplit x)).graph).getPriority x =
            (u.updateSplit x).graph.getPriority x := by
          unfold getPriority
          rw [h'.others x hxl]
        rw [foldl_cons, hsame]
        exact h.computed x rfl

/-- The splits that the end of `update` recomputes. -/
def dirtySplits (u : Updating) : Finset ComputationId := u.graph.mDirtySplitPriorities ∪
    u.outAllComputationsWithChangedPriorities.biUnion u.graph.mRootToSplitDependencies.getValues

theorem updateSplits_spec (hs : Sane u.graph) : SplitsUpdated u (· ∈ u.dirtySplits) u.updateSplits ∧
    u.updateSplits.graph.mDirtySplitPriorities = ∅ := by
  have hsplits : ∀ x ∈ ascending u.dirtySplits, x.isSplit := by
    intro x hx
    rcases mem_union.1 (mem_ascending.1 hx) with hx | hx
    · exact hs.dirtySplits x hx
    · obtain ⟨y, -, hy⟩ := mem_biUnion.1 hx
      exact (hs.splitsListed y x hy).1
  obtain ⟨h, -⟩ := foldl_updateSplit_spec (ascending u.dirtySplits) hsplits hs
  have hedits : SameEdits ((ascending u.dirtySplits).foldl updateSplit u).graph
      u.updateSplits.graph := rfl
  refine ⟨⟨?_, h.edits.trans hedits, h.dirty, fun x hx => ?_, fun x hx => ?_⟩, rfl⟩
  · exact hedits.sane h.sane h.sane.dirtyRoots (fun x hx => absurd hx (notMem_empty x)) h.sane.tame
  · exact h.others x fun hc => hx (mem_ascending.1 hc)
  · exact h.computed x (mem_ascending.2 hx)

end Cumulus.ComputationDependencyGraph.Updating
