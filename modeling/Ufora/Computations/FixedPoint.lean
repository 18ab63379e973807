import Ufora.Computations.Edits

/-!
# The priorities after an update

`checkInternalState` asserts that every stored priority is the one that `computePriorityFor` gives.
It is where no cycle of dependencies can be reached from a root that is asked for or has a priority,
no root was dropped that is asked for and has not become dirty since, and no split was dropped from
the lists with its root that may still change. Elsewhere `update` may take a set of dirty roots to
be circular that is not: it marks every root in it without computing its priority once more.
-/

open Ordered Relation Run Finset Finmap Option TwoWaySetMap Cumulus.ComputationId
  Cumulus.ComputationPriority Cumulus.ComputationDependencyGraph.Updating

namespace Cumulus.ComputationDependencyGraph

variable {g g' : ComputationDependencyGraph} {x : ComputationId} {limit : ℕ}

/-- Every root that is asked for has a priority or is dirty: none was dropped since it became so. -/
def RequestedKept (g : ComputationDependencyGraph) : Prop :=
  ∀ x, Requested g x → x ∈ g.mAllPriorities ∨ x ∈ g.mDirtyPriorities

/-- Every split that has a priority is listed or dirty, or follows from its root, which no dirty
root reaches. -/
def SplitsKept (g : ComputationDependencyGraph) : Prop := ∀ x, x.isSplit → x ∈ g.mAllPriorities →
    g.mRootToSplitDependencies.contains x.rootComputation x ∨ x ∈ g.mDirtySplitPriorities ∨
      g.getPriority x == g.splitPriority x ∧ ¬ Downstream g x.rootComputation

/-- The condition on the graph under which an update settles it. -/
structure Settleable (g : ComputationDependencyGraph) : Prop where
  noLiveCycle : NoLiveCycle g
  requestedKept : RequestedKept g
  splitsKept : SplitsKept g

/-- Each update meets the condition. -/
def Settleably (g : ComputationDependencyGraph) : Op → Prop
  | .update _ => Settleable g
  | _ => True

/-- The stored priorities are a fixed point: `checkInternalState` holds, and every root has the
priority that is computed for it. -/
def FixedPoint (g : ComputationDependencyGraph) : Prop := g.checkInternalState = some true ∧
    ∀ x, x.isRoot → g.getPriority x == g.computePriorityFor x

/-- The state in which `update` starts. -/
def startUpdate (g : ComputationDependencyGraph) : Updating where
  graph := g
  outLocalComputationsWithChangedPriorities := ∅
  outAllComputationsWithChangedPriorities := ∅

/-- A split has no clients and no parents. -/
theorem Sane.isNull_recompute_of_isSplit (h : Sane g) {v : ComputationId → ComputationPriority}
    (hv : ∀ x, (v x).Tame) (hx : x.isSplit) : (g.network.recompute v x).isNull := by
  by_contra hn
  rcases (h.recompute_spec hv x).2.1 hn with ⟨client, priority, hp, -⟩ | ⟨p, hp, -⟩
  · have hroot := h.clientsRoots client x ((h.clientsListed client x).2 ⟨priority, hp⟩)
    unfold isSplit at hx
    rw [hroot] at hx
    cases hx
  · have hroot := (h.parentsRoots p x hp).2
    unfold isSplit at hx
    rw [hroot] at hx
    cases hx

variable {E : ComputationPriority → ComputationPriority → Prop}

/-- Where no dropped root is asked for, what does not agree is dirty. -/
theorem RootsAgree.agrees
    (hE : ∀ a b, a == b → E a b) (hs : Sane g) (h : RootsAgree E g) (hr : RequestedKept g)
    (x : ComputationId) : E (g.network.recompute g.rootPriorities x) (g.rootPriorities x) ∨ x ∈ g.mDirtyPriorities := by
  cases hx : x.isRoot with
  | true =>
    rw [hs.recompute_rootPriorities, rootPriorities_of_isRoot hx, or_iff_not_imp_right]
    refine fun hd => h x hx hd ?_
    by_cases hreq : Requested g x
    · exact .inl ((hr x hreq).resolve_right hd)
    · exact .inr hreq
  | false =>
    have hsplit : x.isSplit := by rw [isSplit, hx]; rfl
    have hnull := hs.isNull_recompute_of_isSplit hs.tame_rootPriorities hsplit
    have hdefault : g.rootPriorities x = default := by rw [rootPriorities, hx]; rfl
    refine .inl (hE _ _ ?_)
    rw [hdefault]
    exact (hs.recompute_spec hs.tame_rootPriorities x).1.beq_of_isNull tame_default hnull rfl

/-- The rounds start in their invariant. -/
theorem settling_startUpdate
    (hE : ∀ a b, a == b → E a b) (hs : Sane g) (h : RootsAgree E g) (hr : RequestedKept g)
    (rank : ComputationId → ℕ) : Settling g.startUpdate E rank 0 g.startUpdate where
  sane := hs
  kept := .refl _
  confined := hs.confined
  agrees := h.agrees hE hs hr
  stable := .inl rfl
  downstream x hx := ⟨x, hx, .refl⟩
  untouched _ _ := rfl

/-- What holds after an update that settles the graph. -/
structure Updated (E : ComputationPriority → ComputationPriority → Prop)
    (g : ComputationDependencyGraph) : Prop where
  sane : Sane g
  dirty : g.mDirtyPriorities = ∅
  roots : ∀ x, x.isRoot → E (g.computeRootPriorityFor x) (g.getPriority x)

/-- The loop over the splits leaves the roots as they are. -/
theorem getPriority_updateSplits {u : Updating} (hs : Sane u.graph) (hx : x.isRoot) :
    u.updateSplits.graph.getPriority x = u.graph.getPriority x := by
  obtain ⟨h, -⟩ := updateSplits_spec hs
  have hnot : x ∉ u.dirtySplits := by
    intro hd
    have hsplit : x.isSplit := by
      rcases mem_union.1 hd with hd | hd
      · exact hs.dirtySplits x hd
      · obtain ⟨y, -, hy⟩ := mem_biUnion.1 hd
        exact (hs.splitsListed y x hy).1
    unfold isSplit at hsplit
    rw [hx] at hsplit
    cases hsplit
  unfold getPriority
  rw [h.others x hnot]

/-- An update is the rounds over the roots and then the loop over the splits. -/
theorem exists_of_update {u : Updating} (hu : g.update limit = some u) :
    ∃ u', updateRoots limit limit 0 g.startUpdate = some u' ∧ u'.updateSplits = u :=
  map_eq_some_iff.1 hu

/-- Where the rounds end with roots that agree, so does the update. -/
theorem updated_updateSplits {u : Updating} (hs : Sane u.graph) (hd : u.graph.mDirtyPriorities = ∅)
    (ha : ∀ x, x.isRoot → E (u.graph.computeRootPriorityFor x) (u.graph.getPriority x)) :
    Updated E u.updateSplits.graph := by
  obtain ⟨h, -⟩ := updateSplits_spec hs
  have hroots : ∀ x, x.isRoot → u.updateSplits.graph.getPriority x = u.graph.getPriority x :=
    fun x hx => getPriority_updateSplits hs hx
  refine ⟨h.sane, h.dirty.trans hd, fun x hx => ?_⟩
  have hcompute := computePriorityFor_congr h.edits hs h.sane hroots x
  unfold computePriorityFor isSplit at hcompute
  rw [hx, if_neg (by decide), if_neg (by decide)] at hcompute
  rw [hcompute, hroots x hx]
  exact ha x hx

section
variable (hs : Sane g) (ha : RootsAgree (fun a b => a == b) g) (hg : Settleable g)
include hs ha hg

/-- The roots after the rounds. -/
theorem exists_settling {u : Updating} (hu : updateRoots limit limit 0 g.startUpdate = some u) :
    (∃ rank stable, Settling g.startUpdate (fun a b => a == b) rank stable u) ∧ u.graph.mDirtyPriorities = ∅ ∧
      ∀ x, x.isRoot → u.graph.computeRootPriorityFor x == u.graph.getPriority x := by
  obtain ⟨rank, -, -, hrank⟩ := hg.noLiveCycle.exists_rank
  have hstart := settling_startUpdate (fun _ _ h => h) hs ha hg.requestedKept rank
  obtain ⟨⟨stable, h⟩, hd⟩ := Updating.Settling.updateRoots_spec hs hrank (fun _ _ h => h) hstart hu
  refine ⟨⟨rank, stable, h⟩, hd, fun x hx => ?_⟩
  have hagree := (h.agrees x).resolve_right (by rw [hd]; exact notMem_empty x)
  have hnetwork : u.graph.network = g.network := h.kept.edits.network
  rw [show g.startUpdate.graph = g from rfl, ← hnetwork, h.sane.recompute_rootPriorities,
    rootPriorities_of_isRoot hx] at hagree
  exact hagree

/-- After the rounds and the loop over the splits every split that has a priority follows from its
root. -/
theorem splits_update (hsplits : SplitsAgree g) {u : Updating}
    (hu : updateRoots limit limit 0 g.startUpdate = some u) (hx : x.isSplit)
    (hm : x ∈ u.updateSplits.graph.mAllPriorities) :
    u.updateSplits.graph.getPriority x == u.updateSplits.graph.computePriorityFor x := by
  obtain ⟨⟨rank, stable, h⟩, -, hroots⟩ := exists_settling hs ha hg hu
  obtain ⟨hsp, -⟩ := updateSplits_spec h.sane
  have hcompute := computePriorityFor_congr hsp.edits h.sane hsp.sane
    (fun x hx => getPriority_updateSplits h.sane hx) x
  rw [hcompute]
  by_cases hd : x ∈ u.dirtySplits
  · exact hsp.computed x hd
  · -- A split that is not recomputed has the priority that it had, and so has its root.
    have hlookup := (hsp.others x hd).trans (h.kept.splits x hx)
    have hpri : u.updateSplits.graph.getPriority x = g.getPriority x := by
      unfold getPriority
      rw [hlookup]
      rfl
    have hmem : x ∈ g.mAllPriorities := by
      rw [← lookup_isSome] at hm ⊢
      rw [hlookup] at hm
      exact hm
    have hclean : x ∉ g.mDirtySplitPriorities := by
      intro hxd
      refine hd (mem_union_left _ ?_)
      rw [h.kept.dirtySplits]
      exact hxd
    have hsame : g.getPriority x == g.splitPriority x ∧
        u.graph.getPriority x.rootComputation = g.getPriority x.rootComputation := by
      rcases hg.splitsKept x hx hmem with hl | hxd | ⟨heq, hdown⟩
      · refine ⟨hsplits x hl hclean hmem, h.kept.unreported _ fun hrep => hd ?_⟩
        refine mem_union_right _ (mem_biUnion.2 ⟨_, hrep, ?_⟩)
        rw [h.kept.edits.splits]
        exact hl
      · exact absurd hxd hclean
      · have hunt := h.untouched x.rootComputation hdown
        rw [rootPriorities_of_isRoot x.isRoot_rootComputation,
          rootPriorities_of_isRoot x.isRoot_rootComputation] at hunt
        exact ⟨heq, hunt⟩
    rw [hpri, computePriorityFor, if_pos hx]
    refine beq_trans hsame.1 ?_
    unfold splitPriority
    rw [← hsame.2]
    exact priorityForSplitComputation_congr
      (beq_symm (hroots _ x.isRoot_rootComputation)) _

/-- An update settles the graph. -/
theorem fixedPoint_of_update (hsplits : SplitsAgree g) {u : Updating}
    (hu : g.update limit = some u) : FixedPoint u.graph ∧ Updated (fun a b => a == b) u.graph ∧
    SplitsAgree u.graph := by
  obtain ⟨v, hv, rfl⟩ := exists_of_update hu
  obtain ⟨⟨rank, stable, h⟩, hd, hroots⟩ := exists_settling hs ha hg hv
  have hup := updated_updateSplits (E := fun a b => a == b) h.sane hd hroots
  have hsplit := fun x => splits_update (x := x) hs ha hg hsplits hv
  have hroot : ∀ x, x.isRoot → v.updateSplits.graph.getPriority x ==
      v.updateSplits.graph.computePriorityFor x := by
    intro x hx
    have hx' := beq_symm (hup.roots x hx)
    unfold computePriorityFor isSplit
    rw [hx, if_neg (by decide)]
    exact hx'
  refine ⟨⟨?_, hroot⟩, hup, fun x hx _ hm => ?_⟩
  · unfold checkInternalState
    rw [if_pos hup.dirty, some.injEq, Bool.and_eq_true, List.all_eq_true, List.all_eq_true]
    refine ⟨fun x hx => ?_, fun x hx => ?_⟩
    · have hm := mem_keys.1 (mem_ascending.1 hx)
      have heq : v.updateSplits.graph.getPriority x ==
          v.updateSplits.graph.computePriorityFor x := by
        cases hr : x.isRoot with
        | true => exact hroot x hr
        | false => exact hsplit x (by rw [isSplit, hr]; rfl) hm
      unfold getPriority at heq
      unfold StdMap.get bne
      rw [heq]
      rfl
    · obtain ⟨y, hxy⟩ := hasKey_iff.1 (mem_keys.1 (mem_ascending.1 hx))
      have heq := hroot x (hup.sane.parentsRoots x y hxy).1
      by_cases hm : x ∈ v.updateSplits.graph.mAllPriorities
      · simp [hm]
      · have hnone : v.updateSplits.graph.getPriority x = default := by
          unfold getPriority
          rw [lookup_eq_none.2 hm]
          rfl
        rw [hnone] at heq
        have hnull := isNull_congr heq
        rw [isNull_default] at hnull
        rw [← hnull]
        simp
  · have hsp := (hup.sane.splitsListed _ x hx).1
    have heq := hsplit x hsp hm
    rw [computePriorityFor, if_pos hsp] at heq
    exact beq_trans heq (priorityForSplitComputation_congr
        (hup.roots _ x.isRoot_rootComputation) _)

end

/-- Where no priority reaches a cycle and no dropped root is asked for, an update ends. -/
theorem exists_update (hE : ∀ a b, a == b → E a b) (hs : Sane g) (ha : RootsAgree E g)
    (hr : RequestedKept g) (hc : NoLiveCycle g) : ∃ bound, ∀ limit ≥ bound, ∃ u, g.update limit = some u := by
  obtain ⟨rank, bound, hbound, hrank⟩ := hc.exists_rank
  let W := g.mDirtyPriorities ∪ g.mRootToRootDependencies.mValuesToKeys.keys
  refine ⟨2 * W.card + bound + 2, fun limit hlimit => ?_⟩
  have hW : ∀ x y, Parent g x y → y ∈ W := fun x y hxy =>
    mem_union_right _ (mem_keys.2 (hasValue_iff.2 ⟨x, hxy⟩))
  obtain ⟨u, hu⟩ := Updating.Settling.exists_updateRoots hs hrank hE hW hbound
    (W := W) (k := 0) (show 2 * W.card ≤ limit by omega)
    (settling_startUpdate hE hs ha hr rank)
    (subset_union_left) (fun _ _ => Nat.zero_le _) (fun _ _ _ => Nat.zero_le _)
    (show bound + 2 ≤ 0 + limit by omega)
  exact ⟨u.updateSplits, congrArg (Option.map updateSplits) hu⟩

/-! ## Runs -/

/-- What holds between calls. -/
structure Tended (g : ComputationDependencyGraph) : Prop where
  sane : Sane g
  roots : RootsAgree (fun a b => a == b) g
  splits : SplitsAgree g

theorem sane_new : Sane new where
  clientsListed client x := by
    rw [show new.mClientPriorities = ∅ from rfl, lookup_empty]
    refine ⟨fun hc => absurd hc contains_empty, ?_⟩
    rintro ⟨p, hp⟩
    cases hp
  clientsNotNull client x p hp := by
    rw [show new.mClientPriorities = ∅ from rfl, lookup_empty] at hp
    cases hp
  clientsRoots client x hc := absurd hc contains_empty
  parentsRoots x y hxy := absurd hxy contains_empty
  splitsListed x y hxy := absurd hxy contains_empty
  dirtyRoots x hx := absurd hx (notMem_empty x)
  dirtySplits x hx := absurd hx (notMem_empty x)
  tame x := by
    rw [getPriority, show new.mAllPriorities = ∅ from rfl, lookup_empty]
    exact tame_default

/-- In the new graph nothing is asked for and nothing has a priority. -/
theorem rootsAgree_new
    (hE : ∀ a b, a == b → E a b) : RootsAgree E new := by
  intro x hx _ _
  obtain ⟨htame, hnull⟩ := sane_new.recompute_spec sane_new.tame_rootPriorities x
  rw [sane_new.recompute_rootPriorities] at htame hnull
  have hdefault : new.getPriority x = default := by
    rw [getPriority, show new.mAllPriorities = ∅ from rfl, lookup_empty]
    rfl
  refine hE _ _ (htame.beq_of_isNull (sane_new.tame x) (by_contra fun hn => ?_) ?_)
  · rcases hnull.1 hn with ⟨client, p, hp, -⟩ | ⟨p, hp, -⟩
    · rw [show new.mClientPriorities = ∅ from rfl, lookup_empty] at hp
      cases hp
    · exact absurd hp contains_empty
  · rw [hdefault]
    rfl

theorem tended_new : Tended new where
  sane := sane_new
  roots := rootsAgree_new fun _ _ h => h
  splits _ hx := absurd hx contains_empty

theorem Tended.step {op : Op} (h : Tended g) (hop : Settleably g op) (hg : g.step op = some g') : Tended g' := by
  by_cases hedit : op.IsEdit
  · exact ⟨h.sane.edit hedit hg, h.roots.edit (fun _ _ h => h) hedit h.sane hg, h.splits.edit hedit hg⟩
  · cases op with
    | update limit =>
      obtain ⟨u, hu, rfl⟩ := map_eq_some_iff.1 hg
      obtain ⟨-, hup, hsp⟩ := fixedPoint_of_update h.sane h.roots hop h.splits hu
      exact ⟨hup.sane, fun x hx _ _ => hup.roots x hx, hsp⟩
    | _ => exact absurd trivial hedit

/-- In a run whose updates all start where no priority reaches a cycle, where no dropped root is
asked for and no split was left behind, every further update from such a state ends, and leaves
priorities that are a fixed point. -/
theorem always_fixedPoint (ops : List Op) (h : EveryStep step Settleably new ops) :
    Always step (fun g => Settleable g → (∃ bound, ∀ limit ≥ bound, ∃ u, g.update limit = some u) ∧
        ∀ limit u, g.update limit = some u → FixedPoint u.graph) new ops := by
  have ht : Always step Tended new ops := always_of_everyStep tended_new (fun g op g' ht hc hg => ht.step hc hg) h
  refine ht.mono fun g ht hg =>
    ⟨exists_update (fun _ _ h => h) ht.sane ht.roots hg.requestedKept hg.noLiveCycle, fun limit u hu => ?_⟩
  exact (fixedPoint_of_update ht.sane ht.roots hg ht.splits hu).1

/-- Where one client has asked for one root, this root alone is requested. -/
theorem requested_insert {key : CumulusClientId × ComputationId} {p : ComputationPriority}
    (hg : g.mClientPriorities = Finmap.insert key p ∅) (hx : Requested g x) : x = key.2 := by
  obtain ⟨client, q, hq, -⟩ := hx
  rw [hg, StdMap.lookup_insert, lookup_empty] at hq
  split at hq
  · next he => exact congrArg Prod.snd he
  · cases hq

/-- A client asks for a root that depends on another one. -/
def oneDependency : List Op := [.setCumulusClientPriority (.Root 1) ⟨0⟩ ⟨0, some 1, 0, 0⟩,
    .addRootToRootDependency (.Root 1) (.Root 2), .update 4]

theorem everyStep_oneDependency : EveryStep step Settleably new oneDependency := by
  refine everyStep_cons.2 ⟨trivial, fun g hg => everyStep_cons.2 ⟨trivial, fun g' hg' =>
    everyStep_cons.2 ⟨?_, fun _ _ => everyStep_nil⟩⟩⟩
  cases hg
  cases hg'
  have hparent : ∀ x y, ((∅ : TwoWaySetMap ComputationId ComputationId).insert (.Root 1) (.Root 2)).contains x y →
        x = .Root 1 ∧ y = .Root 2 :=
    fun x y hxy => (contains_insert.1 hxy).resolve_right contains_empty
  refine ⟨fun x _ hx => ?_, fun x hx => .inr ?_, fun x _ hm => ?_⟩
  · obtain ⟨y, hxy, hyx⟩ := TransGen.head'_iff.1 hx
    obtain ⟨-, rfl⟩ := hparent x y hxy
    rcases ReflTransGen.cases_head hyx with rfl | ⟨z, hz, -⟩
    · exact absurd (hparent _ _ hxy).1 (by decide)
    · exact absurd (hparent _ z hz).1 (by decide)
  · rw [requested_insert rfl hx]
    exact mem_insert_of_mem (mem_insert_self _ _)
  · exact absurd hm (notMem_empty)

/-- The priority of the root is handed on to the other one. -/
theorem always_fixedPoint_oneDependency : Always step (fun g => Settleable g →
    (∃ bound, ∀ limit ≥ bound, ∃ u, g.update limit = some u) ∧
      ∀ limit u, g.update limit = some u → FixedPoint u.graph) new oneDependency :=
  always_fixedPoint oneDependency everyStep_oneDependency

/-- A client asks for a root on a cycle, and at a higher level for a root outside it that the first
one depends on: that one is marked as circular together with the cycle. -/
def levelAboveCycle : List Op :=
  [.addRootToRootDependency (.Root 1) (.Root 2), .addRootToRootDependency (.Root 2) (.Root 1),
    .addRootToRootDependency (.Root 1) (.Root 3),
    .setCumulusClientPriority (.Root 1) ⟨0⟩ ⟨0, some 1, 0, 0⟩,
    .setCumulusClientPriority (.Root 3) ⟨0⟩ ⟨0, some 2, 0, 0⟩]

/-- The update returns, but the priorities that it leaves are no fixed point. -/
theorem not_always_fixedPoint : ¬ ∀ ops g,
    run step new ops = some g → ∀ limit u, g.update limit = some u → FixedPoint u.graph := by
  intro h
  have hbad : ((run step new levelAboveCycle).bind fun g => g.update 10).map
      (fun u => u.graph.checkInternalState) = some (some false) := by decide
  obtain ⟨u, hu, hcheck⟩ := map_eq_some_iff.1 hbad
  obtain ⟨g, hg, hu⟩ := bind_eq_some_iff.1 hu
  have htrue := (h levelAboveCycle g hg 10 u hu).1
  rw [hcheck] at htrue
  exact absurd htrue (by decide)

end Cumulus.ComputationDependencyGraph
