import Ufora.Computations.Dependencies

/-!
# The passes of `update`

Each check of the inner loop of `update` is a step of propagation in the network of the roots
(`Pass.check_step`), so a pass is a run of such steps (`Pass.run_spec`), and it ends
(`Pass.exists_run`). The passes change the priorities of roots only, and report every root whose
priority they change (`Kept`).
-/

open Ordered Relation List Finset Finmap Propagation.Network Propagation Cumulus.ComputationId
  Cumulus.ComputationDependencyGraph.Updating

namespace Cumulus.ComputationDependencyGraph

variable {g g' : ComputationDependencyGraph} {x y id : ComputationId}

/-! ## What `update` leaves alone -/

/-- Everything but the priorities and the dirty sets is the same. -/
def SameEdits (g g' : ComputationDependencyGraph) : Prop := g' = { g with
    mAllPriorities := g'.mAllPriorities
    mDirtyPriorities := g'.mDirtyPriorities
    mDirtySplitPriorities := g'.mDirtySplitPriorities }

theorem SameEdits.refl (g : ComputationDependencyGraph) : SameEdits g g := rfl

section

variable (h : SameEdits g g')
include h

theorem SameEdits.trans {g'' : ComputationDependencyGraph} (h' : SameEdits g' g'') : SameEdits g g'' := by
  rw [h] at h'
  exact h'

theorem SameEdits.network : g'.network = g.network := by
  rw [h]
  rfl

theorem SameEdits.parent : Parent g' = Parent g := by
  rw [h]
  rfl

theorem SameEdits.requested : Requested g' = Requested g := by
  rw [h]
  rfl

theorem SameEdits.splits : g'.mRootToSplitDependencies = g.mRootToSplitDependencies := by rw [h]

theorem SameEdits.sane (hs : Sane g) (hdirty : ∀ x ∈ g'.mDirtyPriorities, x.isRoot)
    (hsplits : ∀ x ∈ g'.mDirtySplitPriorities, x.isSplit) (htame : ∀ x, (g'.getPriority x).Tame) : Sane g' := by
  rw [h]
  exact ⟨hs.clientsListed, hs.clientsNotNull, hs.clientsRoots, hs.parentsRoots, hs.splitsListed, hdirty, hsplits, htame⟩

end

/-- What the loops over the roots keep: the edits, the priorities of splits, and the priorities of
the roots that they do not report. -/
structure Kept (u u' : Updating) : Prop where
  edits : SameEdits u.graph u'.graph
  dirtySplits : u'.graph.mDirtySplitPriorities = u.graph.mDirtySplitPriorities
  splits : ∀ x, x.isSplit → lookup x u'.graph.mAllPriorities = lookup x u.graph.mAllPriorities
  reported : u.outAllComputationsWithChangedPriorities ⊆ u'.outAllComputationsWithChangedPriorities
  unreported : ∀ x ∉ u'.outAllComputationsWithChangedPriorities, u'.graph.getPriority x = u.graph.getPriority x

namespace Kept
variable {u u' u'' : Updating}

theorem refl (u : Updating) : Kept u u := ⟨.refl _, rfl, fun _ _ => rfl, fun _ h => h, fun _ _ => rfl⟩

theorem trans (h : Kept u u') (h' : Kept u' u'') : Kept u u'' where
  edits := h.edits.trans h'.edits
  dirtySplits := h'.dirtySplits.trans h.dirtySplits
  splits x hx := (h'.splits x hx).trans (h.splits x hx)
  reported := h.reported.trans h'.reported
  unreported x hx := (h'.unreported x hx).trans (h.unreported x fun h => hx (h'.reported h))

/-- A change of the dirty roots only. -/
theorem setDirty (u : Updating) (dirty : Finset ComputationId) : Kept u { u with
    graph := { u.graph with mDirtyPriorities := dirty } } :=
  ⟨rfl, rfl, fun _ _ => rfl, fun _ h => h, fun _ _ => rfl⟩

end Kept

namespace Updating
variable {u : Updating} {newPriority : ComputationPriority}

@[simp] theorem getPriority_touch : (u.touch id).graph.getPriority x = u.graph.getPriority x := by
  change (lookup x (Finmap.insert _ _ _)).getD default = _
  rw [StdMap.lookup_insert]
  split
  · next h => rw [h]; rfl
  · rfl

@[simp] theorem getPriority_updatePriority : (u.updatePriority id newPriority).graph.getPriority x =
      if x = id then newPriority else u.graph.getPriority x := by
  change (lookup x (Finmap.insert _ _ _)).getD default = _
  rw [StdMap.lookup_insert]
  split <;> rfl

theorem kept_touch (hid : id.isRoot) : Kept u (u.touch id) where
  edits := rfl
  dirtySplits := rfl
  splits x hx := by
    refine (StdMap.lookup_insert _ _ _ _).trans (if_neg ?_)
    rintro rfl
    simp [isSplit, hid] at hx
  reported := Finset.Subset.refl _
  unreported x _ := getPriority_touch

theorem kept_updatePriority (hid : id.isRoot) : Kept u (u.updatePriority id newPriority) where
  edits := rfl
  dirtySplits := rfl
  splits x hx := by
    refine (StdMap.lookup_insert _ _ _ _).trans (if_neg ?_)
    rintro rfl
    simp [isSplit, hid] at hx
  reported := subset_insert _ _
  unreported x hx := by
    rw [getPriority_updatePriority, if_neg]
    rintro rfl
    exact hx (mem_insert_self _ _)

end Updating

/-! ## One check -/

namespace Pass
variable {p q : Pass}

/-- The loop over the children leaves the graph as it is. -/
@[simp] theorem updating_addChildren (l : List ComputationId) : (p.addChildren l).updating = p.updating := by
  unfold addChildren
  induction l generalizing p with
  | nil => rfl
  | cons a l ih =>
    rw [foldl_cons, ih]
    split <;> rfl

/-- The loop over the children makes each of them dirty, and checks those that it made so. -/
theorem mem_addChildren (l : List ComputationId) : (x ∈ (p.addChildren l).newDirty ↔ x ∈ p.newDirty ∨ x ∈ l) ∧
      (x ∈ (p.addChildren l).toCheck ↔ x ∈ p.toCheck ∨ x ∈ l ∧ x ∉ p.newDirty) := by
  unfold addChildren
  induction l generalizing p with
  | nil => simp
  | cons a l ih =>
    rw [foldl_cons, ih.1, ih.2, List.mem_cons]
    by_cases ha : a ∈ p.newDirty
    · by_cases hx : x = a
      · simp [ha, hx]
      · simp [ha, hx]
    · by_cases hx : x = a
      · simp [ha, hx]
      · simp [ha, hx]

/-- The state of propagation that a pass is in. -/
def propagation (p : Pass) : Propagation.Pass ComputationId ComputationPriority where
  value := p.updating.graph.rootPriorities
  newDirty := p.newDirty
  toCheck := p.toCheck

/-- A check of a root is a step of propagation. -/
theorem check_step (hs : Sane p.updating.graph) (hid : id.isRoot) :
    p.updating.graph.network.Step p.propagation id (p.check id).propagation := by
  have hcompute : p.updating.graph.computePriorityFor id =
      p.updating.graph.computeRootPriorityFor id := if_neg (by simp [isSplit, hid])
  have hset := hs.settled_iff hid
  unfold check
  dsimp only
  rw [hcompute, getPriority_touch]
  split
  · next hne =>
    have hn : ¬ p.updating.graph.network.Settled p.propagation.value id := by
      rw [propagation, hset]
      simpa [bne] using hne
    have hvalue : rootPriorities ((p.updating.touch id).updatePriority id
        (p.updating.graph.computeRootPriorityFor id)).graph =
          p.updating.graph.network.set p.updating.graph.rootPriorities id := by
      funext x
      by_cases hx : x = id
      · subst hx
        rw [set_self, hs.recompute_rootPriorities, rootPriorities_of_isRoot hid,
          getPriority_updatePriority, if_pos rfl]
      · rw [set_of_ne hx]
        unfold rootPriorities
        rw [getPriority_updatePriority, if_neg hx, getPriority_touch]
    unfold propagation
    rw [updating_addChildren, hvalue]
    refine .changed _ _ hn (fun y => ?_) fun y => ?_
    · rw [(mem_addChildren _).1, Finset.mem_insert, mem_ascending, or_assoc]
      exact Iff.rfl
    · rw [(mem_addChildren _).2, Finset.mem_erase, Finset.mem_insert, mem_ascending, not_or]
      exact Iff.rfl
  · next heq =>
    have hvalue : rootPriorities (p.updating.touch id).graph = p.updating.graph.rootPriorities := by
      funext x
      unfold rootPriorities
      rw [getPriority_touch]
    unfold propagation
    rw [hvalue]
    refine .unchanged (hset.2 ?_)
    simpa [bne] using heq

/-- A check keeps what the loops over the roots keep, and does not mark roots as dirty itself. -/
theorem kept_check (hid : id.isRoot) : Kept p.updating (p.check id).updating ∧
    (p.check id).updating.graph.mDirtyPriorities = p.updating.graph.mDirtyPriorities := by
  unfold check
  dsimp only
  split
  · rw [updating_addChildren]
    exact ⟨(kept_touch hid).trans (kept_updatePriority hid), rfl⟩
  · exact ⟨kept_touch hid, rfl⟩

/-! ## One pass -/

/-- What every check of a root keeps, the whole pass keeps. -/
theorem run_induction {I : Pass → Prop} {n : ℕ} (hI : I p)
    (hcheck : ∀ p id, I p → id ∈ p.toCheck → id.isRoot → I (p.check id))
    (hr : run n p = some q) : I q ∧ q.toCheck = ∅ := by
  induction n generalizing p with
  | zero =>
    unfold run at hr
    split at hr
    · next he =>
      cases hr
      exact ⟨hI, he⟩
    · cases hr
  | succ n ih =>
    unfold run at hr
    split at hr
    · next he =>
      cases hr
      exact ⟨hI, by rw [← toFinset_ascending q.toCheck, he, toFinset_nil]⟩
    · next id l he =>
      split at hr
      · next hid =>
        have hmem : id ∈ p.toCheck := mem_ascending.1 (he ▸ mem_cons_self)
        exact ih (hcheck p id hI hmem hid) hr
      · cases hr

/-- What a pass over the dirty roots of a graph does. -/
structure Runs (p q : Pass) : Prop where
  steps : p.updating.graph.network.Steps p.propagation q.propagation
  kept : Kept p.updating q.updating
  dirty : q.updating.graph.mDirtyPriorities = p.updating.graph.mDirtyPriorities
  sane : Sane q.updating.graph

theorem Runs.check {p' : Pass} (h : Runs p p') (hmem : id ∈ p'.toCheck) (hid : id.isRoot) : Runs p (p'.check id) := by
  obtain ⟨hkept, hdirty⟩ : Kept p'.updating (p'.check id).updating ∧ _ := kept_check hid
  have hstep := check_step h.sane hid
  have htame : ∀ x, ((p'.check id).propagation.value x).Tame := by
    have hi := Propagation.Network.Steps.invariant (I := fun p => ∀ x, (p.value x).Tame)
      (.single ⟨id, hmem, hstep⟩) h.sane.tame_rootPriorities
    refine hi fun p x q hp _ hq => ?_
    cases hq with
    | unchanged => exact hp
    | changed _ _ hn => exact h.sane.spreads.keeps hp hn
  rw [h.kept.edits.network] at hstep
  refine ⟨h.steps.tail ⟨id, hmem, hstep⟩, h.kept.trans hkept, hdirty.trans h.dirty, ?_⟩
  refine hkept.edits.sane h.sane (hdirty ▸ h.sane.dirtyRoots) ?_ fun x => ?_
  · exact hkept.dirtySplits ▸ h.sane.dirtySplits
  · cases hx : x.isRoot with
    | true => exact rootPriorities_of_isRoot hx ▸ htame x
    | false =>
      unfold getPriority
      rw [hkept.splits x (by rw [isSplit, hx]; rfl)]
      exact h.sane.tame x

theorem run_spec {n : ℕ} (hs : Sane p.updating.graph) (hr : run n p = some q) : Runs p q ∧ q.toCheck = ∅ := by
  refine run_induction ⟨.refl, .refl _, rfl, hs⟩ ?_ hr
  exact fun p' id h hmem hid => h.check hmem hid

/-- A pass over roots ends. -/
theorem exists_run {W : Finset ComputationId} {n : ℕ} (hs : Sane p.updating.graph)
    (hW : ∀ x y, Parent p.updating.graph x y → y ∈ W) (hroots : ∀ x ∈ p.toCheck, x.isRoot)
    (hdirty : ∀ x ∈ p.newDirty, x.isRoot) (hl : weight W p.propagation ≤ n) : ∃ q, run n p = some q := by
  have hI : ∀ n p', Runs p p' → (∀ x ∈ p'.toCheck, x.isRoot) → (∀ x ∈ p'.newDirty, x.isRoot) →
      weight W p'.propagation ≤ n → ∃ q, run n p' = some q := by
    intro n
    induction n with
    | zero =>
      intro p' hp' _ _ hl
      have hempty : p'.toCheck = ∅ := by
        exact card_eq_zero.1 (Nat.eq_zero_of_add_eq_zero_right (Nat.le_zero.1 hl))
      exact ⟨p', by rw [run, if_pos hempty]⟩
    | succ n ih =>
      intro p' hp' hroots hdirty hl
      unfold run
      split
      · exact ⟨p', rfl⟩
      · next id l he =>
        have hmem : id ∈ p'.toCheck := mem_ascending.1 (he ▸ mem_cons_self)
        have hid := hroots id hmem
        rw [if_pos hid]
        have hstep := check_step hp'.sane hid
        rw [hp'.kept.edits.network] at hstep
        have hone : p.updating.graph.network.Steps p'.propagation (p'.check id).propagation := .single ⟨id, hmem, hstep⟩
        obtain ⟨hroots', hdirty', -⟩ := hone.confined (S := fun x : ComputationId => x.isRoot)
          (fun x y _ hxy => (hs.parentsRoots x y hxy).2) hroots hdirty
        refine ih (p'.check id) (hp'.check hmem hid) hroots' hdirty' ?_
        exact Nat.le_of_lt_succ ((hstep.weight_lt hW hmem).trans_le hl)
  exact hI n p ⟨.refl, .refl _, rfl, hs⟩ hroots hdirty hl

end Pass

end Cumulus.ComputationDependencyGraph
