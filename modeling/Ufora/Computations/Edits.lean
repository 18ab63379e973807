import Ufora.Computations.Update

/-!
# Edits between updates

What every call that edits the graph keeps: the tables stay in order (`Sane.edit`), a root that is
not dirty agrees with its clients and parents unless it was dropped while a client asks for it
(`RootsAgree.edit`), and a listed split that is not dirty follows from its root (`SplitsAgree.edit`).
-/

open Ordered Relation Finset Finmap TwoWaySetMap Option

namespace Cumulus.ComputationDependencyGraph

variable {g g' : ComputationDependencyGraph} {x : ComputationId}

/-- The calls that edit the graph are all but `update`. -/
def Op.IsEdit : Op → Prop
  | .update _ => False
  | _ => True

/-- A root that is not dirty agrees with its clients and parents. The priority of a root that was
dropped is not stored, so it may not where a client still asks for it. -/
def RootsAgree (E : ComputationPriority → ComputationPriority → Prop) (g : ComputationDependencyGraph) : Prop :=
  ∀ x, x.isRoot → x ∉ g.mDirtyPriorities → x ∈ g.mAllPriorities ∨ ¬ Requested g x →
    E (g.computeRootPriorityFor x) (g.getPriority x)

/-- The priority of a split that follows from the stored one of its root. -/
def splitPriority (g : ComputationDependencyGraph) (x : ComputationId) : ComputationPriority :=
  (g.getPriority x.rootComputation).priorityForSplitComputation x.treeDepth

/-- A listed split that is not dirty and has a priority follows from its root. -/
def SplitsAgree (g : ComputationDependencyGraph) : Prop :=
  ∀ x, g.mRootToSplitDependencies.contains x.rootComputation x → x ∉ g.mDirtySplitPriorities →
    x ∈ g.mAllPriorities → g.getPriority x == g.splitPriority x

/-! ## Calls that list splits -/

/-- Nothing about the roots changes, and the splits that are listed anew are dirty. -/
structure Lists (g g' : ComputationDependencyGraph) : Prop where
  dirty : g'.mDirtyPriorities = g.mDirtyPriorities
  clientPriorities : g'.mClientPriorities = g.mClientPriorities
  clients : g'.mClientIdToRootComputations = g.mClientIdToRootComputations
  priorities : g'.mAllPriorities = g.mAllPriorities
  dependencies : g'.mRootToRootDependencies = g.mRootToRootDependencies
  listed : ∀ x y, g'.mRootToSplitDependencies.contains x y → g.mRootToSplitDependencies.contains x y ∨
      y ∈ g'.mDirtySplitPriorities ∧ y.isSplit ∧ x = y.rootComputation
  dirtySplits : g.mDirtySplitPriorities ⊆ g'.mDirtySplitPriorities
  newSplits : ∀ x ∈ g'.mDirtySplitPriorities, x ∈ g.mDirtySplitPriorities ∨ x.isSplit

namespace Lists

theorem refl (g : ComputationDependencyGraph) : Lists g g :=
  ⟨rfl, rfl, rfl, rfl, rfl, fun _ _ => .inl, fun _ h => h, fun _ => .inl⟩

theorem trans {g'' : ComputationDependencyGraph} (h : Lists g g') (h' : Lists g' g'') : Lists g g'' where
  dirty := h'.dirty.trans h.dirty
  clientPriorities := h'.clientPriorities.trans h.clientPriorities
  clients := h'.clients.trans h.clients
  priorities := h'.priorities.trans h.priorities
  dependencies := h'.dependencies.trans h.dependencies
  listed x y hxy := by
    rcases h'.listed x y hxy with hxy | hxy
    · exact (h.listed x y hxy).imp_right fun ⟨hd, hs⟩ => ⟨h'.dirtySplits hd, hs⟩
    · exact .inr hxy
  dirtySplits := h.dirtySplits.trans h'.dirtySplits
  newSplits x hx := (h'.newSplits x hx).elim (h.newSplits x) .inr

theorem ensureComputationInList_ (g : ComputationDependencyGraph) (inId : ComputationId) :
    Lists g (g.ensureComputationInList_ inId) := by
  unfold ComputationDependencyGraph.ensureComputationInList_
  split
  · exact .refl g
  · next hroot =>
    split
    · exact .refl g
    · have hsplit : inId.isSplit := by
        unfold ComputationId.isSplit
        rw [Bool.not_eq_true _ |>.mp hroot]
        rfl
      refine ⟨rfl, rfl, rfl, rfl, rfl, fun x y hxy => ?_, subset_insert _ _, fun x hx => ?_⟩
      · rcases contains_insert.1 hxy with ⟨rfl, rfl⟩ | hxy
        · exact .inr ⟨mem_insert_self _ _, hsplit, rfl⟩
        · exact .inl hxy
      · rcases mem_insert.1 hx with rfl | hx
        exacts [.inr hsplit, .inl hx]

theorem foldl (l : List ComputationId) (g : ComputationDependencyGraph) :
    Lists g (l.foldl ComputationDependencyGraph.ensureComputationInList_ g) := by
  induction l generalizing g with
  | nil => exact .refl g
  | cons a l ih => exact (ensureComputationInList_ g a).trans (ih _)

/-- Calls that touch neither roots nor the lists of splits. -/
theorem of_eq (hdirty : g'.mDirtyPriorities = g.mDirtyPriorities) (hcp : g'.mClientPriorities = g.mClientPriorities)
    (hc : g'.mClientIdToRootComputations = g.mClientIdToRootComputations) (hp : g'.mAllPriorities = g.mAllPriorities)
    (hd : g'.mRootToRootDependencies = g.mRootToRootDependencies)
    (hl : g'.mRootToSplitDependencies = g.mRootToSplitDependencies)
    (hs : g'.mDirtySplitPriorities = g.mDirtySplitPriorities) : Lists g g' :=
  ⟨hdirty, hcp, hc, hp, hd, fun _ _ hxy => .inl (hl ▸ hxy), fun _ hx => hs ▸ hx, fun _ hx => .inl (hs ▸ hx)⟩

/-- The same after a loop that lists splits. -/
theorem of_eq_foldl {g'' : ComputationDependencyGraph} (l : List ComputationId)
    (hdirty : g''.mDirtyPriorities = (l.foldl ComputationDependencyGraph.ensureComputationInList_
      g').mDirtyPriorities) (hcp : g''.mClientPriorities = (l.foldl ComputationDependencyGraph.ensureComputationInList_
      g').mClientPriorities) (hc : g''.mClientIdToRootComputations =
      (l.foldl ComputationDependencyGraph.ensureComputationInList_ g').mClientIdToRootComputations)
    (hp : g''.mAllPriorities = (l.foldl ComputationDependencyGraph.ensureComputationInList_
      g').mAllPriorities) (hd : g''.mRootToRootDependencies =
      (l.foldl ComputationDependencyGraph.ensureComputationInList_ g').mRootToRootDependencies)
    (hl : g''.mRootToSplitDependencies =
      (l.foldl ComputationDependencyGraph.ensureComputationInList_ g').mRootToSplitDependencies)
    (hs : g''.mDirtySplitPriorities =
      (l.foldl ComputationDependencyGraph.ensureComputationInList_ g').mDirtySplitPriorities) :
    Lists g' g'' := (foldl l g').trans (of_eq hdirty hcp hc hp hd hl hs)

theorem setDependencies (g : ComputationDependencyGraph) (inId : ComputationId)
    (ids : Finset ComputationId) : Lists g (g.setDependencies inId ids) := by
  unfold ComputationDependencyGraph.setDependencies
  dsimp only
  split
  · exact ensureComputationInList_ g inId
  · refine (ensureComputationInList_ g inId).trans ?_
    refine Lists.trans ?_ (of_eq_foldl (ascending ids) rfl rfl rfl rfl rfl rfl rfl)
    exact of_eq rfl rfl rfl rfl rfl rfl rfl

theorem markComputationLocal (g : ComputationDependencyGraph) (inId : ComputationId) :
    Lists g (g.markComputationLocal inId) := by
  unfold ComputationDependencyGraph.markComputationLocal
  have hlocal : Lists g { g with mLocalComputations := insert inId g.mLocalComputations } :=
    of_eq rfl rfl rfl rfl rfl rfl rfl
  dsimp only
  split
  · exact (hlocal.trans (ensureComputationInList_ _ inId)).trans (of_eq rfl rfl rfl rfl rfl rfl rfl)
  · exact hlocal.trans (ensureComputationInList_ _ inId)

theorem getPriority (h : Lists g g') (x : ComputationId) : g'.getPriority x = g.getPriority x := by
  unfold ComputationDependencyGraph.getPriority
  rw [h.priorities]

theorem sane (h : Lists g g') (hs : Sane g) : Sane g' where
  clientsListed := by rw [h.clients, h.clientPriorities]; exact hs.clientsListed
  clientsNotNull := by rw [h.clientPriorities]; exact hs.clientsNotNull
  clientsRoots := by rw [h.clients]; exact hs.clientsRoots
  parentsRoots := by unfold Parent; rw [h.dependencies]; exact hs.parentsRoots
  splitsListed x y hxy := (h.listed x y hxy).elim (hs.splitsListed x y) fun h => h.2
  dirtyRoots := by rw [h.dirty]; exact hs.dirtyRoots
  dirtySplits x hx := (h.newSplits x hx).elim (hs.dirtySplits x) id
  tame x := by rw [h.getPriority]; exact hs.tame x

theorem rootsAgree {E : ComputationPriority → ComputationPriority → Prop} (h : Lists g g')
    (ha : RootsAgree E g) : RootsAgree E g' := by
  intro x hx hd hr
  rw [h.dirty] at hd
  have hreq : Requested g' x ↔ Requested g x := by unfold Requested; rw [h.clientPriorities]
  have hcompute : g'.computeRootPriorityFor x = g.computeRootPriorityFor x := by
    unfold computeRootPriorityFor
    simp only [h.clients, h.clientPriorities, h.dependencies, h.getPriority]
  rw [h.priorities, hreq] at hr
  rw [hcompute, h.getPriority]
  exact ha x hx hd hr

theorem splitsAgree (h : Lists g g') (ha : SplitsAgree g) : SplitsAgree g' := by
  intro x hx hd hm
  rw [h.getPriority, splitPriority, h.getPriority]
  rw [h.priorities] at hm
  rcases h.listed _ x hx with hx | ⟨hx, -⟩
  · exact ha x hx (fun hxd => hd (h.dirtySplits hxd)) hm
  · exact absurd hx hd

end Lists

/-! ## Calls that change roots -/

/-- The computed priority of a root is a matter of its clients and of its parents. -/
theorem computeRootPriorityFor_congr
    (hc : ∀ client, g'.mClientIdToRootComputations.contains client x ↔ g.mClientIdToRootComputations.contains client x)
    (hl : ∀ client, g.mClientIdToRootComputations.contains client x →
      lookup (client, x) g'.mClientPriorities = lookup (client, x) g.mClientPriorities)
    (hp : ∀ p, Parent g' p x ↔ Parent g p x) (hv : ∀ p, Parent g p x → g'.getPriority p = g.getPriority p) :
    g'.computeRootPriorityFor x = g.computeRootPriorityFor x := by
  have hclients : g'.mClientIdToRootComputations.getKeys x = g.mClientIdToRootComputations.getKeys x := by
    ext client
    rw [mem_getKeys, mem_getKeys, hc]
  have hparents : g'.mRootToRootDependencies.getKeys x = g.mRootToRootDependencies.getKeys x := by
    ext p
    rw [mem_getKeys, mem_getKeys]
    exact hp p
  unfold computeRootPriorityFor
  rw [hclients, hparents]
  dsimp only
  congr 1
  · congr 1
    refine List.map_congr_left fun client hm => ?_
    unfold StdMap.get
    rw [hl client (mem_getKeys.1 (mem_ascending.1 hm))]
  · refine List.map_congr_left fun p hm => ?_
    rw [hv p (mem_getKeys.1 (mem_ascending.1 hm))]

/-- What a call that changes roots keeps of the lists of splits. -/
theorem SplitsAgree.of_eq (h : SplitsAgree g) (hl : g'.mRootToSplitDependencies = g.mRootToSplitDependencies)
    (hs : g'.mDirtySplitPriorities = g.mDirtySplitPriorities)
    (hp : g'.mAllPriorities = g.mAllPriorities) : SplitsAgree g' := by
  unfold SplitsAgree splitPriority getPriority at *
  rw [hl, hs, hp]
  exact h

section
variable {E : ComputationPriority → ComputationPriority → Prop} {source dest inId : ComputationId}
  {inClientId client : CumulusClientId} {priority : ComputationPriority}

theorem Sane.setCumulusClientPriority (h : Sane g)
    (hg : g.setCumulusClientPriority inId inClientId priority = some g') : Sane g' := by
  unfold ComputationDependencyGraph.setCumulusClientPriority at hg
  split at hg
  · next hroot =>
    cases hg
    have hdirty : ∀ x ∈ insert inId g.mDirtyPriorities, x.isRoot := by
      intro x hx
      rcases mem_insert.1 hx with rfl | hx
      exacts [hroot, h.dirtyRoots x hx]
    split
    · refine ⟨fun client x => ?_, fun client x p hp => ?_, fun client x hc => ?_, h.parentsRoots,
        h.splitsListed, hdirty, h.dirtySplits, h.tame⟩
      · rw [contains_drop, StdMap.lookup_erase, h.clientsListed]
        split <;> simp_all
      · rw [StdMap.lookup_erase] at hp
        split at hp
        · cases hp
        · exact h.clientsNotNull client x p hp
      · exact h.clientsRoots client x (contains_drop.1 hc).1
    · next hnull =>
      refine ⟨fun client x => ?_, fun client x p hp => ?_, fun client x hc => ?_, h.parentsRoots,
        h.splitsListed, hdirty, h.dirtySplits, h.tame⟩
      · rw [contains_insert, StdMap.lookup_insert, h.clientsListed]
        split <;> simp_all
      · rw [StdMap.lookup_insert] at hp
        split at hp
        · exact some.inj hp ▸ hnull
        · exact h.clientsNotNull client x p hp
      · rcases contains_insert.1 hc with ⟨-, rfl⟩ | hc
        exacts [hroot, h.clientsRoots client x hc]
  · cases hg

/-- A root that keeps its clients, its parents and the priorities of these and its own agrees as
before. -/
theorem RootsAgree.transfer (h : RootsAgree E g) (hx : x.isRoot) (hd : x ∉ g.mDirtyPriorities)
    (hr : x ∈ g'.mAllPriorities ∨ ¬ Requested g' x) (hm : x ∈ g'.mAllPriorities → x ∈ g.mAllPriorities)
    (hc : ∀ client, g'.mClientIdToRootComputations.contains client x ↔ g.mClientIdToRootComputations.contains client x)
    (hl : ∀ client, lookup (client, x) g'.mClientPriorities = lookup (client, x) g.mClientPriorities)
    (hp : ∀ p, Parent g' p x ↔ Parent g p x) (hv : ∀ p, Parent g p x ∨ p = x → g'.getPriority p = g.getPriority p) :
    E (g'.computeRootPriorityFor x) (g'.getPriority x) := by
  have hreq : Requested g' x ↔ Requested g x := by
    unfold Requested
    simp only [hl]
  rw [computeRootPriorityFor_congr hc (fun client _ => hl client) hp fun p hpx => hv p (.inl hpx), hv x (.inr rfl)]
  exact h x hx hd (hr.imp hm (mt hreq.2))

/-- The root that a client asks for is dirty, and the others keep their clients. -/
theorem RootsAgree.setCumulusClientPriority (h : RootsAgree E g)
    (hg : g.setCumulusClientPriority inId inClientId priority = some g') : RootsAgree E g' := by
  unfold ComputationDependencyGraph.setCumulusClientPriority at hg
  split at hg
  · by_cases hnull : priority.isNull = true
    all_goals
      simp only [hnull, if_true] at hg
      cases hg
      intro x hx hd hr
      obtain ⟨hne, hxd⟩ := not_or.1 (mt Finset.mem_insert.2 hd)
      refine h.transfer hx hxd hr id (fun client => by simp [hne]) (fun client => ?_) (fun _ => Iff.rfl) fun _ _ => rfl
    · exact (StdMap.lookup_erase _ _ _).trans (if_neg (by simp [hne]))
    · exact (StdMap.lookup_insert _ _ _ _).trans (if_neg (by simp [hne]))
  · cases hg

theorem SplitsAgree.setCumulusClientPriority (h : SplitsAgree g)
    (hg : g.setCumulusClientPriority inId inClientId priority = some g') : SplitsAgree g' := by
  unfold ComputationDependencyGraph.setCumulusClientPriority at hg
  split at hg
  · cases hg
    split <;> exact h.of_eq rfl rfl rfl
  · cases hg

section
variable (hg : g.addRootToRootDependency source dest = some g')
include hg

theorem Sane.addRootToRootDependency (h : Sane g) : Sane g' := by
  unfold ComputationDependencyGraph.addRootToRootDependency at hg
  split at hg
  · next hroots =>
    split at hg
    · exact some.inj hg ▸ h
    · cases hg
      refine { h with parentsRoots := fun x y hxy => ?_, dirtyRoots := fun x hx => ?_ }
      · rcases contains_insert.1 hxy with ⟨rfl, rfl⟩ | hxy
        exacts [hroots, h.parentsRoots x y hxy]
      · rcases mem_insert.1 hx with rfl | hx
        exacts [hroots.2, h.dirtyRoots x hx]
  · cases hg

/-- The root that is depended on is dirty, and the others keep their parents. -/
theorem RootsAgree.addRootToRootDependency (h : RootsAgree E g) : RootsAgree E g' := by
  unfold ComputationDependencyGraph.addRootToRootDependency at hg
  split at hg
  · split at hg
    · exact some.inj hg ▸ h
    · cases hg
      intro x hx hd hr
      obtain ⟨hne, hxd⟩ := not_or.1 (mt Finset.mem_insert.2 hd)
      refine h.transfer hx hxd hr id (fun _ => Iff.rfl) (fun _ => rfl) (fun p => ?_) fun _ _ => rfl
      unfold Parent
      simp [hne]
  · cases hg

theorem SplitsAgree.addRootToRootDependency (h : SplitsAgree g) : SplitsAgree g' := by
  unfold ComputationDependencyGraph.addRootToRootDependency at hg
  split at hg
  · split at hg
    · exact some.inj hg ▸ h
    · cases hg
      exact h.of_eq rfl rfl rfl
  · cases hg

end

/-- A loop that erases what a client asked for. -/
theorem lookup_foldl_erase (l : List ComputationId)
    (m : StdMap (CumulusClientId × ComputationId) ComputationPriority) (x : ComputationId) :
    lookup (client, x) (l.foldl (fun priorities id => erase (inClientId, id) priorities) m) =
      if client = inClientId ∧ x ∈ l then none else lookup (client, x) m := by
  induction l generalizing m with
  | nil => simp
  | cons a l ih =>
    rw [List.foldl_cons, ih, StdMap.lookup_erase]
    by_cases hc : client = inClientId <;> by_cases hx : x ∈ l <;> by_cases ha : x = a <;>
      simp [hc, hx, ha]

theorem Sane.dropCumulusClient (h : Sane g) (inClientId : CumulusClientId) : Sane (g.dropCumulusClient inClientId) := by
  refine ⟨fun client x => ?_, fun client x p hp => ?_, fun client x hc => ?_, h.parentsRoots,
    h.splitsListed, fun x hx => ?_, h.dirtySplits, h.tame⟩
  · show (g.mClientIdToRootComputations.dropKey inClientId).contains client x ↔ _
    rw [contains_dropKey, ComputationDependencyGraph.dropCumulusClient]
    simp only [lookup_foldl_erase, mem_ascending, mem_getValues]
    by_cases hc : client = inClientId
    · subst hc
      have hlisted := h.clientsListed client x
      by_cases hx : g.mClientIdToRootComputations.contains client x
      · simp [hx]
      · simp only [hx, false_iff] at hlisted
        simp [hx, hlisted]
    · simp [hc, h.clientsListed]
  · unfold ComputationDependencyGraph.dropCumulusClient at hp
    rw [lookup_foldl_erase] at hp
    split at hp
    · cases hp
    · exact h.clientsNotNull client x p hp
  · exact h.clientsRoots client x (contains_dropKey.1 hc).1
  · rcases mem_union.1 hx with hx | hx
    · exact h.dirtyRoots x hx
    · exact h.clientsRoots inClientId x hx

/-- The roots that the client asked for are dirty, and the others keep their clients. -/
theorem RootsAgree.dropCumulusClient (h : RootsAgree E g) (inClientId : CumulusClientId) :
    RootsAgree E (g.dropCumulusClient inClientId) := by
  intro x hx hd hr
  obtain ⟨hxd, hne⟩ := not_or.1 (mt Finset.mem_union.2 hd)
  rw [mem_getValues] at hne
  refine h.transfer hx hxd hr id (fun client => ?_) (fun client => ?_) (fun _ => Iff.rfl) fun _ _ => rfl
  · show (g.mClientIdToRootComputations.dropKey inClientId).contains client x ↔ _
    rw [contains_dropKey]
    refine and_iff_left_of_imp fun hc hci => ?_
    exact hne (hci ▸ hc)
  · unfold ComputationDependencyGraph.dropCumulusClient
    simp only [lookup_foldl_erase, mem_ascending, mem_getValues]
    exact if_neg fun h => hne h.2

/-- Dropping a computation drops what depends on it and what it depends on. -/
theorem parent_dropComputation {y : ComputationId} :
    Parent (g.dropComputation inId) x y ↔ Parent g x y ∧ x ≠ inId ∧ y ≠ inId := by
  have hdep : (g.dropComputation inId).mRootToRootDependencies =
      (g.mRootToRootDependencies.dropValue inId).dropKey inId := by
    unfold dropComputation
    split <;> rfl
  unfold Parent
  rw [hdep, contains_dropKey, contains_dropValue]
  tauto

theorem getPriority_dropComputation :
    (g.dropComputation inId).getPriority x = if x = inId then default else g.getPriority x := by
  have hall : (g.dropComputation inId).mAllPriorities = erase inId g.mAllPriorities := by
    unfold dropComputation
    split <;> rfl
  unfold getPriority
  rw [hall, StdMap.lookup_erase]
  split <;> rfl

theorem Sane.dropComputation (h : Sane g) (inId : ComputationId) : Sane (g.dropComputation inId) := by
  have hparents : ∀ x y, Parent (g.dropComputation inId) x y → x.isRoot ∧ y.isRoot :=
    fun x y hxy => h.parentsRoots x y (parent_dropComputation.1 hxy).1
  have htame : ∀ x, ((g.dropComputation inId).getPriority x).Tame := by
    intro x
    rw [getPriority_dropComputation]
    split
    exacts [ComputationPriority.tame_default, h.tame x]
  have hsplits : ∀ x y, ((g.mRootToSplitDependencies.dropValue inId).dropKey inId).contains x y →
        y.isSplit ∧ x = y.rootComputation := by
    intro x y hxy
    rw [contains_dropKey, contains_dropValue] at hxy
    exact h.splitsListed x y hxy.1.1
  by_cases hroot : inId.isRoot = true
  · unfold ComputationDependencyGraph.dropComputation at hparents htame ⊢
    rw [if_pos hroot] at hparents htame ⊢
    refine ⟨h.clientsListed, h.clientsNotNull, h.clientsRoots, hparents, hsplits, fun x hx => ?_, fun x hx => ?_, htame⟩
    · rcases mem_union.1 hx with hx | hx
      exacts [h.dirtyRoots x hx, (h.parentsRoots inId x hx).2]
    · rcases mem_union.1 (mem_of_mem_erase hx) with hx | hx
      exacts [h.dirtySplits x hx, (h.splitsListed inId x hx).1]
  · unfold ComputationDependencyGraph.dropComputation at hparents htame ⊢
    rw [if_neg hroot] at hparents htame ⊢
    exact ⟨h.clientsListed, h.clientsNotNull, h.clientsRoots, hparents, hsplits, h.dirtyRoots,
      fun x hx => h.dirtySplits x (mem_of_mem_erase hx), htame⟩

/-- The roots that a dropped root handed its priority to are dirty. A dropped root has no priority
and no parents, so it agrees where no client asks for it. -/
theorem RootsAgree.dropComputation (hs : Sane g) (hE : ∀ a b, a == b → E a b)
    (h : RootsAgree E g) (inId : ComputationId) : RootsAgree E (g.dropComputation inId) := by
  have hdirty : ∀ y, y ∉ (g.dropComputation inId).mDirtyPriorities → y ∉ g.mDirtyPriorities ∧ ¬ Parent g inId y := by
    intro y hy
    by_cases hroot : inId.isRoot = true
    · unfold ComputationDependencyGraph.dropComputation at hy
      rw [if_pos hroot] at hy
      exact not_or.1 (mt mem_union.2 hy)
    · unfold ComputationDependencyGraph.dropComputation at hy
      rw [if_neg hroot] at hy
      exact ⟨hy, fun hp => hroot (hs.parentsRoots inId y hp).1⟩
  have hall : (g.dropComputation inId).mAllPriorities = erase inId g.mAllPriorities := by
    unfold ComputationDependencyGraph.dropComputation
    split <;> rfl
  have hclients : (g.dropComputation inId).mClientIdToRootComputations = g.mClientIdToRootComputations ∧
        (g.dropComputation inId).mClientPriorities = g.mClientPriorities := by
    unfold ComputationDependencyGraph.dropComputation
    split <;> exact ⟨rfl, rfl⟩
  intro x hx hd hr
  obtain ⟨hxd, hchild⟩ := hdirty x hd
  by_cases hxi : x = inId
  · subst hxi
    have hreq : ¬ Requested (g.dropComputation x) x := by
      refine hr.resolve_left fun hm => ?_
      rw [hall, Finmap.mem_erase] at hm
      exact hm.1 rfl
    have hsane := hs.dropComputation x
    obtain ⟨htame, hnull⟩ := hsane.recompute_spec hsane.tame_rootPriorities x
    rw [hsane.recompute_rootPriorities] at htame hnull
    have hdefault : (g.dropComputation x).getPriority x = default := by
      rw [getPriority_dropComputation, if_pos rfl]
    refine hE _ _ (htame.beq_of_isNull (hsane.tame x) (by_contra fun hn => ?_) ?_)
    · rcases hnull.1 hn with hn | ⟨p, hp, -⟩
      · exact hreq hn
      · exact (parent_dropComputation.1 hp).2.2 rfl
    · rw [hdefault]
      rfl
  · refine h.transfer hx hxd hr (fun hm => ?_) (fun _ => by rw [hclients.1])
      (fun _ => by rw [hclients.2]) (fun p => ?_) fun p hp => ?_
    · rw [hall, Finmap.mem_erase] at hm
      exact hm.2
    · rw [parent_dropComputation]
      refine and_iff_left_of_imp fun hp => ⟨?_, hxi⟩
      rintro rfl
      exact hchild hp
    · rw [getPriority_dropComputation, if_neg]
      rintro rfl
      rcases hp with hp | hp
      exacts [hchild hp, hxi hp.symm]

/-- The splits of a dropped root are not listed any more. -/
theorem SplitsAgree.dropComputation (h : SplitsAgree g) (inId : ComputationId) :
    SplitsAgree (g.dropComputation inId) := by
  intro x hx hd hm
  have hlisted : g.mRootToSplitDependencies.contains x.rootComputation x ∧ x ≠ inId ∧ x.rootComputation ≠ inId := by
    unfold ComputationDependencyGraph.dropComputation at hx
    dsimp only at hx
    have hsame : (if inId.isRoot = true then
        { g with
          mDirtyPriorities := g.mDirtyPriorities ∪ g.mRootToRootDependencies.getValues inId
          mDirtySplitPriorities := g.mDirtySplitPriorities ∪ g.mRootToSplitDependencies.getValues inId }
      else g).mRootToSplitDependencies = g.mRootToSplitDependencies := by split <;> rfl
    rw [hsame, contains_dropKey, contains_dropValue] at hx
    exact ⟨hx.1.1, hx.1.2, hx.2⟩
  obtain ⟨hx, hxi, hri⟩ := hlisted
  have hdirty : x ∉ g.mDirtySplitPriorities := by
    intro hxd
    refine hd ?_
    refine mem_erase.2 ⟨hxi, ?_⟩
    split
    exacts [mem_union_left _ hxd, hxd]
  have hall : (g.dropComputation inId).mAllPriorities = erase inId g.mAllPriorities := by
    unfold ComputationDependencyGraph.dropComputation
    split <;> rfl
  rw [hall, Finmap.mem_erase] at hm
  rw [splitPriority, getPriority_dropComputation, getPriority_dropComputation, if_neg hxi, if_neg hri]
  exact h x hx hdirty hm.2

end

/-! ## All edits -/

/-- An edit changes no priority, or is one of the four that do. -/
theorem edit_cases {op : Op} (hop : op.IsEdit) (hg : g.step op = some g') :
    Lists g g' ∨ (∃ inId inClientId priority, op = .setCumulusClientPriority inId inClientId priority) ∨
      (∃ source dest, op = .addRootToRootDependency source dest) ∨
      (∃ inClientId, op = .dropCumulusClient inClientId) ∨ ∃ inId, op = .dropComputation inId := by
  cases op with
  | setDependencies inId ids => exact .inl (some.inj hg ▸ .setDependencies g inId ids)
  | markComputationLocal inId => exact .inl (some.inj hg ▸ .markComputationLocal g inId)
  | markComputationNonlocal inId =>
    cases hg
    exact .inl (.of_eq rfl rfl rfl rfl rfl rfl rfl)
  | clearOrphans =>
    cases hg
    exact .inl (.of_eq rfl rfl rfl rfl rfl rfl rfl)
  | update limit => exact hop.elim
  | _ => simp

theorem Sane.edit {op : Op} (hop : op.IsEdit) (h : Sane g) (hg : g.step op = some g') : Sane g' := by
  obtain hl | ⟨_, _, _, rfl⟩ | ⟨_, _, rfl⟩ | ⟨_, rfl⟩ | ⟨_, rfl⟩ := edit_cases hop hg
  · exact hl.sane h
  · exact h.setCumulusClientPriority hg
  · exact h.addRootToRootDependency hg
  · exact some.inj hg ▸ h.dropCumulusClient _
  · exact some.inj hg ▸ h.dropComputation _

theorem RootsAgree.edit {E : ComputationPriority → ComputationPriority → Prop}
    (hE : ∀ a b, a == b → E a b) {op : Op} (hop : op.IsEdit) (hs : Sane g) (h : RootsAgree E g)
    (hg : g.step op = some g') : RootsAgree E g' := by
  obtain hl | ⟨_, _, _, rfl⟩ | ⟨_, _, rfl⟩ | ⟨_, rfl⟩ | ⟨_, rfl⟩ := edit_cases hop hg
  · exact hl.rootsAgree h
  · exact h.setCumulusClientPriority hg
  · exact h.addRootToRootDependency hg
  · exact some.inj hg ▸ h.dropCumulusClient _
  · exact some.inj hg ▸ h.dropComputation hs hE _

theorem SplitsAgree.edit {op : Op} (hop : op.IsEdit) (h : SplitsAgree g)
    (hg : g.step op = some g') : SplitsAgree g' := by
  obtain hl | ⟨_, _, _, rfl⟩ | ⟨_, _, rfl⟩ | ⟨_, rfl⟩ | ⟨_, rfl⟩ := edit_cases hop hg
  · exact hl.splitsAgree h
  · exact h.setCumulusClientPriority hg
  · exact h.addRootToRootDependency hg
  · exact some.inj hg ▸ h.of_eq rfl rfl rfl
  · exact some.inj hg ▸ h.dropComputation _

end Cumulus.ComputationDependencyGraph
