import Ufora.Computations.FixedPoint

/-!
# Computations that no client asks for

After an update a root should have a priority exactly when a client reaches it along the
dependencies. Circular priorities break this: the roots of a cycle hand them to each other, so a
cycle keeps them when the last client withdraws. Where an update starts with no cycle that a priority
can reach, it ends and leaves the right priorities. Where it starts with no priority that a client
does not support, the priorities are right if it ends, whatever the cycles are.
-/

open Ordered Relation Run Finset Option

namespace Cumulus.ComputationDependencyGraph

open Updating (AllSupported Growing Settling)

variable {g g' : ComputationDependencyGraph} {x : ComputationId} {limit : ℕ}

/-- Both priorities are null or neither is. -/
def NullTogether (a b : ComputationPriority) : Prop := NotNull a ↔ NotNull b

theorem nullTogether_of_beq (a b : ComputationPriority) (h : a == b) : NullTogether a b := by
  unfold NullTogether NotNull
  rw [ComputationPriority.isNull_congr h]

/-- The condition on the graph under which an update gives a priority to exactly the roots that a
client reaches. -/
structure Explainable (g : ComputationDependencyGraph) : Prop where
  requestedKept : RequestedKept g
  cyclesSupported : NoLiveCycle g ∨ AllSupported g

/-- Each update meets the condition. -/
def Explainably (g : ComputationDependencyGraph) : Op → Prop
  | .update _ => Explainable g
  | _ => True

/-- After the rounds the roots that have a priority are those that a client reaches. -/
theorem Explainable.spread (hs : Sane g) (ha : RootsAgree NullTogether g) (hg : Explainable g)
    {u : Updating} (hu : Updating.updateRoots limit limit 0 g.startUpdate = some u) :
    Sane u.graph ∧ SameEdits g u.graph ∧ u.graph.mDirtyPriorities = ∅ ∧
      Propagation.Spread g.network NotNull (Requested g) u.graph.rootPriorities := by
  rcases hg.cyclesSupported with hcycle | hsupp
  · obtain ⟨rank, -, -, hrank⟩ := hcycle.exists_rank
    have hstart := settling_startUpdate nullTogether_of_beq hs ha hg.requestedKept rank
    obtain ⟨⟨stable, h⟩, hd⟩ := Settling.updateRoots_spec hs hrank nullTogether_of_beq hstart hu
    refine ⟨h.sane, h.kept.edits, hd, ?_⟩
    refine hs.spreads.spread_of_rank h.confined.1 (fun x => ?_) rank fun p x hp hpx => ?_
    · exact (h.agrees x).resolve_right (by rw [hd]; exact notMem_empty x)
    · exact hrank p x (h.confined.2 p hp) hpx
  · have hstart : Growing g.startUpdate g.startUpdate := by
      refine ⟨hs, .refl _, hsupp, fun x hr hn => ?_⟩
      have hx := ha.agrees nullTogether_of_beq hs hg.requestedKept x
      exact hx.resolve_left fun hiff => hn (hiff.1 hr)
    obtain ⟨h, hd⟩ := Growing.updateRoots_spec hs hstart hu
    have hsupp' := h.supported
    have hlag := h.lagging
    unfold AllSupported at hsupp'
    rw [h.kept.edits.network, h.kept.edits.requested] at hsupp'
    refine ⟨h.sane, h.kept.edits, hd, hsupp', fun x hr => by_contra fun hn => ?_⟩
    have hx := hlag x hr hn
    rw [hd] at hx
    exact notMem_empty x hx

/-- After an update a root has a priority exactly when a client reaches it, and the roots agree. -/
theorem explained_of_update (hs : Sane g) (ha : RootsAgree NullTogether g) (hg : Explainable g)
    {u : Updating} (hu : g.update limit = some u) : Sane u.graph ∧ RootsAgree NullTogether u.graph ∧
      ∀ x, x.isRoot → ((u.graph.getPriority x).isNull ↔ ¬ Reached u.graph x) := by
  obtain ⟨v, hv, rfl⟩ := exists_of_update hu
  obtain ⟨hsane, hedits, hd, hspread⟩ := hg.spread hs ha hv
  have hiff := fun x => hs.spreads.spread_iff (x := x) hsane.tame_rootPriorities hspread
  have hroots : ∀ x, x.isRoot → NullTogether (v.graph.computeRootPriorityFor x)
      (v.graph.getPriority x) := by
    intro x hx
    have hr := hs.spreads.recompute (x := x) hsane.tame_rootPriorities
    rw [← hedits.network, hsane.recompute_rootPriorities, hedits.network] at hr
    unfold NullTogether
    rw [hr, ← rootPriorities_of_isRoot hx]
    refine ⟨fun h => hspread.complete x ?_, fun h => ?_⟩
    · exact (hs.spreads.recompute hsane.tame_rootPriorities).2 h
    · cases hspread.supported x h with
      | source hx => exact .inl hx
      | parent _ hp hpx => exact .inr ⟨_, hpx, hp⟩
  have hup := updated_updateSplits hsane hd hroots
  refine ⟨hup.sane, fun x hx _ _ => hup.roots x hx, fun x hx => ?_⟩
  have hedits' := hedits.trans (Updating.updateSplits_spec hsane).1.edits
  have hx' := hiff x
  rw [rootPriorities_of_isRoot hx] at hx'
  rw [getPriority_updateSplits hsane hx]
  unfold Reached
  rw [hedits'.requested, hedits'.parent]
  exact (not_iff_comm.1 hx').symm.trans Iff.rfl

/-- What the next update of a graph that meets the condition does: it ends if no priority can reach a
cycle, and where it ends a root has a priority exactly when a client reaches it. -/
def Explained (g : ComputationDependencyGraph) : Prop := Explainable g →
    (NoLiveCycle g → ∃ bound, ∀ limit ≥ bound, ∃ u, g.update limit = some u) ∧
    ∀ limit u, g.update limit = some u → ∀ x, x.isRoot → ((u.graph.getPriority x).isNull ↔ ¬ Reached u.graph x)

/-- In a run whose updates all start where no priority reaches a cycle or every priority is supported
by a client, and where no dropped root is asked for, every further update from such a state leaves a
priority at exactly the roots that a client reaches, and it ends where no priority reaches a cycle. -/
theorem always_explained (ops : List Op) (h : EveryStep step Explainably new ops) : Always step Explained new ops := by
  have ht : Always step (fun g => Sane g ∧ RootsAgree NullTogether g) new ops := by
    refine always_of_everyStep ⟨sane_new, rootsAgree_new nullTogether_of_beq⟩ ?_ h
    rintro g op g' ⟨hs, ha⟩ hc hg
    by_cases hedit : op.IsEdit
    · exact ⟨hs.edit hedit hg, ha.edit nullTogether_of_beq hedit hs hg⟩
    · cases op with
      | update limit =>
        obtain ⟨u, hu, rfl⟩ := map_eq_some_iff.1 hg
        obtain ⟨hs', ha', -⟩ := explained_of_update hs ha hc hu
        exact ⟨hs', ha'⟩
      | _ => exact absurd trivial hedit
  refine ht.mono fun g ht hg => ⟨fun hc => ?_, fun limit u hu => ?_⟩
  · exact exists_update nullTogether_of_beq ht.1 ht.2 hg.requestedKept hc
  · exact (explained_of_update ht.1 ht.2 hg hu).2.2

/-- A client asks for a root on a cycle. -/
def clientOnCycle : List Op :=
  [.addRootToRootDependency (.Root 1) (.Root 2), .addRootToRootDependency (.Root 2) (.Root 1),
    .setCumulusClientPriority (.Root 1) ⟨0⟩ ⟨0, some 1, 0, 0⟩, .update 10]

theorem everyStep_clientOnCycle : EveryStep step Explainably new clientOnCycle := by
  refine everyStep_cons.2 ⟨trivial, fun g hg => everyStep_cons.2 ⟨trivial, fun g' hg' =>
    everyStep_cons.2 ⟨trivial, fun g'' hg'' => everyStep_cons.2 ⟨?_, fun _ _ => everyStep_nil⟩⟩⟩⟩
  cases hg
  cases hg'
  cases hg''
  refine ⟨fun x hx => .inr ?_, .inr fun x hx => ?_⟩
  · rw [requested_insert rfl hx]
    exact mem_insert_self _ _
  · refine absurd ?_ hx
    unfold rootPriorities
    split <;> rfl

/-- A state that an update settles is one in which it explains the priorities. -/
theorem Settleable.explainable (h : Settleable g) : Explainable g := ⟨h.requestedKept, .inl h.noLiveCycle⟩

/-- A cycle that a client supports, and no cycle. -/
theorem always_explained_clientOnCycle : Always step Explained new clientOnCycle ∧
    Always step Explained new oneDependency := by
  refine ⟨always_explained _ everyStep_clientOnCycle, always_explained _ ?_⟩
  intro pre op g hp hr
  have hc := everyStep_oneDependency pre op g hp hr
  cases op with
  | update limit => exact hc.explainable
  | _ => trivial

/-- The client withdraws, and the cycle keeps the priorities that its roots hand to each other. -/
theorem not_always_explained : ¬ ∀ ops g, run step new ops = some g → ∀ limit u, g.update limit = some u →
      ∀ x, x.isRoot → ((u.graph.getPriority x).isNull ↔ ¬ Reached u.graph x) := by
  intro h
  have hbad : ((run step new (clientOnCycle ++
      [.setCumulusClientPriority (.Root 1) ⟨0⟩ default])).bind fun g => g.update 10).map
        (fun u => (u.graph.mClientPriorities.keys, (u.graph.getPriority (.Root 1)).isNull)) =
      some (∅, false) := by decide
  obtain ⟨u, hu, he⟩ := map_eq_some_iff.1 hbad
  obtain ⟨g, hg, hu⟩ := bind_eq_some_iff.1 hu
  obtain ⟨hclients, hnull⟩ := Prod.mk.inj he
  have hiff := h _ g hg 10 u hu (.Root 1) rfl
  rw [hnull] at hiff
  refine absurd (hiff.2 ?_) (by decide)
  rintro ⟨y, ⟨client, p, hp, -⟩, -⟩
  have hmem := StdMap.mem_keys_iff.2 ⟨p, hp⟩
  rw [hclients] at hmem
  exact notMem_empty _ hmem

end Cumulus.ComputationDependencyGraph
