import Ufora.Computations.ComputationDependencyGraph
import Ufora.Lib.Propagation
import Ufora.Lib.Digraph

/-!
# What priorities follow from

`ComputationDependencyGraph` as a network in which the priority of a root follows from those of the
roots that depend on it. A priority that is not null spreads from the roots that clients ask for
(`spreads`). Where no cycle of dependencies can be reached from a root that is asked for or has a
priority, the roots whose priority changes have ranks that grow along the dependencies (`ranked`).
-/

open Ordered Relation Finmap TwoWaySetMap Function Cumulus.ComputationPriority Propagation.Network

namespace Cumulus.ComputationDependencyGraph

variable {g g' : ComputationDependencyGraph} {x y : ComputationId}

/-- A root hands its priority to another, which it depends on. -/
def Parent (g : ComputationDependencyGraph) (source dest : ComputationId) : Prop :=
  g.mRootToRootDependencies.contains source dest

/-- A client has a priority for the computation that is not null. -/
def Requested (g : ComputationDependencyGraph) (x : ComputationId) : Prop :=
  ∃ client priority, lookup (client, x) g.mClientPriorities = some priority ∧ ¬ priority.isNull

/-- A client that has a priority for some computation reaches this one along the dependencies. -/
def Reached (g : ComputationDependencyGraph) (x : ComputationId) : Prop :=
  ∃ y, Requested g y ∧ ReflTransGen (Parent g) y x

/-- What every call keeps: the two records of client priorities agree, no client has a null one,
and the tables of roots and of splits hold roots and splits. -/
structure Sane (g : ComputationDependencyGraph) : Prop where
  clientsListed : ∀ client x, g.mClientIdToRootComputations.contains client x ↔
    ∃ priority, lookup (client, x) g.mClientPriorities = some priority
  clientsNotNull : ∀ client x priority, lookup (client, x) g.mClientPriorities = some priority → ¬ priority.isNull
  clientsRoots : ∀ client x, g.mClientIdToRootComputations.contains client x → x.isRoot
  parentsRoots : ∀ x y, Parent g x y → x.isRoot ∧ y.isRoot
  splitsListed : ∀ x y, g.mRootToSplitDependencies.contains x y → y.isSplit ∧ x = y.rootComputation
  dirtyRoots : ∀ x ∈ g.mDirtyPriorities, x.isRoot
  dirtySplits : ∀ x ∈ g.mDirtySplitPriorities, x.isSplit
  tame : ∀ x, (g.getPriority x).Tame

/-- A client has asked for a root exactly when it is recorded. -/
theorem Sane.requested_iff (h : Sane g) : Requested g x ↔ ∃ client,
    g.mClientIdToRootComputations.contains client x := by
  constructor
  · rintro ⟨client, priority, hp, -⟩
    exact ⟨client, (h.clientsListed client x).2 ⟨priority, hp⟩⟩
  · rintro ⟨client, hc⟩
    obtain ⟨priority, hp⟩ := (h.clientsListed client x).1 hc
    exact ⟨client, priority, hp, h.clientsNotNull client x priority hp⟩

/-- `getPriority` at roots, and null at splits. -/
def rootPriorities (g : ComputationDependencyGraph) (x : ComputationId) : ComputationPriority :=
  if x.isRoot then g.getPriority x else default

theorem rootPriorities_of_isRoot (h : x.isRoot) : g.rootPriorities x = g.getPriority x := if_pos h

theorem Sane.tame_rootPriorities (h : Sane g) (x : ComputationId) : (g.rootPriorities x).Tame := by
  unfold rootPriorities
  split
  · exact h.tame x
  · exact tame_default

/-- The roots as a network: a priority follows from the clients and from the parents. -/
def network (g : ComputationDependencyGraph) : Propagation.Network ComputationId ComputationPriority where
  edge := Parent g
  recompute v x :=
    let clients := ascending (g.mClientIdToRootComputations.getKeys x)
    let parents := ascending (g.mRootToRootDependencies.getKeys x)
    let priority := deepest default <| clients.map fun client =>
      (g.mClientPriorities.get (client, x)).priorityForDependentComputation
    priority.deepest <| parents.map fun parent => (v parent).priorityForDependentComputation
  same a b := a == b
  same_refl := beq_refl
  recompute_congr := by
    intro v w x h
    dsimp only
    congr 1
    refine List.map_congr_left fun p hp => ?_
    rw [h p (mem_getKeys.1 (mem_ascending.1 hp))]

/-- `computePriorityFor` recomputes a root in the network. -/
theorem Sane.recompute_rootPriorities (h : Sane g) (x : ComputationId) :
    g.network.recompute g.rootPriorities x = g.computeRootPriorityFor x := by
  refine g.network.recompute_congr fun p hp => ?_
  exact rootPriorities_of_isRoot (h.parentsRoots p x hp).1

theorem Sane.settled_iff (h : Sane g) (hx : x.isRoot) :
    g.network.Settled g.rootPriorities x ↔ g.computeRootPriorityFor x == g.getPriority x := by
  unfold Settled
  rw [h.recompute_rootPriorities, rootPriorities_of_isRoot hx]
  rfl

/-- A priority that is not null. -/
def NotNull (p : ComputationPriority) : Prop := ¬ p.isNull

/-- What a recomputation makes of tame priorities is tame, and null where there is no client and no
parent with a priority. -/
theorem Sane.recompute_spec (h : Sane g) {v : ComputationId → ComputationPriority}
    (hv : ∀ x, (v x).Tame) (x : ComputationId) : (g.network.recompute v x).Tame ∧
      (NotNull (g.network.recompute v x) ↔ Requested g x ∨ ∃ p, Parent g p x ∧ NotNull (v p)) := by
  have hclient : ∀ client ∈ ascending (g.mClientIdToRootComputations.getKeys x),
      ¬ (g.mClientPriorities.get (client, x)).isNull := by
    intro client hc
    rw [mem_ascending, mem_getKeys] at hc
    obtain ⟨priority, hp⟩ := (h.clientsListed client x).1 hc
    unfold StdMap.get
    rw [hp]
    exact h.clientsNotNull client x priority hp
  obtain ⟨htame, hnull⟩ := deepest_map_spec
    tame_default (ascending (g.mClientIdToRootComputations.getKeys x))
    (fun client => g.mClientPriorities.get (client, x))
    fun client hc hn => absurd hn (hclient client hc)
  obtain ⟨htame', hnull'⟩ := deepest_map_spec htame
    (ascending (g.mRootToRootDependencies.getKeys x)) v fun p _ => hv p
  refine ⟨htame', ?_⟩
  refine (not_congr hnull').trans ?_
  rw [hnull, not_and_or, not_and_or, h.requested_iff]
  refine or_congr ?_ ?_
  · simp only [isNull_default, not_true_eq_false, false_or, not_forall, exists_prop]
    refine exists_congr fun client => ⟨fun ⟨hc, _⟩ => ?_, fun hc => ?_⟩
    · rwa [mem_ascending, mem_getKeys] at hc
    · have hmem := mem_ascending.2 (mem_getKeys.2 hc)
      exact ⟨hmem, hclient client hmem⟩
  · simp only [not_forall, exists_prop]
    refine exists_congr fun p => ?_
    rw [mem_ascending, mem_getKeys]
    exact Iff.rfl

/-- Priorities that are not null spread from the roots that clients ask for. -/
theorem Sane.spreads (h : Sane g) : Propagation.Spreads g.network NotNull (Requested g) (fun v => ∀ x, (v x).Tame) where
  keeps := by
    intro v x hv _ y
    unfold Propagation.Network.set
    by_cases hyx : y = x
    · subst hyx
      rw [update_self]
      exact (h.recompute_spec hv y).1
    · rw [update_of_ne hyx]
      exact hv y
  congr := by
    intro a b hab
    unfold NotNull
    rw [isNull_congr hab]
  recompute hv := (h.recompute_spec hv _).2
  settled := by
    intro v x hv hr hn
    exact (h.recompute_spec hv x).1.beq_of_isNull (hv x) (not_not.1 hr) (not_not.1 hn)

/-! ## Where no priority reaches a cycle -/

/-- The root is asked for or has a priority. -/
def Live (g : ComputationDependencyGraph) (x : ComputationId) : Prop := Requested g x ∨ NotNull (g.rootPriorities x)

/-- A root that is asked for or has a priority reaches this one. -/
def LiveReached (g : ComputationDependencyGraph) (x : ComputationId) : Prop :=
  ∃ y, Live g y ∧ ReflTransGen (Parent g) y x

/-- No cycle of dependencies is reached from a root that is asked for or has a priority. -/
def NoLiveCycle (g : ComputationDependencyGraph) : Prop := ∀ x, LiveReached g x → ¬ TransGen (Parent g) x x

/-- A dirty root reaches this one along the dependencies. -/
def Downstream (g : ComputationDependencyGraph) (x : ComputationId) : Prop :=
  ∃ y ∈ g.mDirtyPriorities, ReflTransGen (Parent g) y x

/-- Tame priorities, null wherever no live root reaches. -/
def Confined (g : ComputationDependencyGraph) (v : ComputationId → ComputationPriority) : Prop :=
  (∀ x, (v x).Tame) ∧ ∀ x, NotNull (v x) → LiveReached g x

theorem Sane.confined (h : Sane g) : Confined g g.rootPriorities :=
  ⟨h.tame_rootPriorities, fun x hx => ⟨x, .inr hx, .refl⟩⟩

/-- A live root reaches every root whose priority does not follow. -/
theorem Sane.liveReached_of_not_settled (h : Sane g) {v : ComputationId → ComputationPriority}
    (hv : Confined g v) (hx : ¬ g.network.Settled v x) : LiveReached g x := by
  by_cases hn : NotNull (v x)
  · exact hv.2 x hn
  · have hr : NotNull (g.network.recompute v x) := by
      by_contra hr
      exact hx (h.spreads.settled hv.1 hr hn)
    rcases (h.spreads.recompute hv.1).1 hr with hr | ⟨p, hpx, hp⟩
    · exact ⟨x, .inl hr, .refl⟩
    · obtain ⟨y, hy, hyp⟩ := hv.2 p hp
      exact ⟨y, hy, hyp.tail hpx⟩

/-- Where no priority reaches a cycle, the roots that a live root reaches have ranks that grow along
the dependencies. -/
theorem NoLiveCycle.exists_rank (h : NoLiveCycle g) : ∃ (rank : ComputationId → ℕ) (bound : ℕ),
    (∀ x, rank x ≤ bound) ∧ ∀ x y, LiveReached g x → Parent g x y → rank x < rank y := by
  have hacyclic : Digraph.Acyclic fun x y => LiveReached g x ∧ Parent g x y := by
    intro x hx
    obtain ⟨y, hxy, -⟩ := TransGen.head'_iff.1 hx
    exact h x hxy.1 (TransGen.mono (fun _ _ h => h.2) _ _ hx)
  obtain ⟨rank, hle, hlt⟩ := Digraph.exists_rank hacyclic g.mRootToRootDependencies.mKeysToValues.keys
    fun x y hxy => mem_keys.2 (hasKey_iff.2 ⟨y, hxy.2⟩)
  exact ⟨rank, _, hle, fun x y hx hxy => hlt x y ⟨hx, hxy⟩⟩

theorem Sane.ranked (h : Sane g) {rank : ComputationId → ℕ}
    (hr : ∀ x y, LiveReached g x → Parent g x y → rank x < rank y) :
    Propagation.Ranked g.network rank (Confined g) where
  keeps := by
    intro v x hv hx
    refine ⟨h.spreads.keeps hv.1 hx, fun y hy => ?_⟩
    by_cases hyx : y = x
    · exact hyx ▸ h.liveReached_of_not_settled hv hx
    · rw [set_of_ne hyx] at hy
      exact hv.2 y hy
  grows hv hx hxy := hr _ _ (h.liveReached_of_not_settled hv hx) hxy

end Cumulus.ComputationDependencyGraph
