import Ufora.PersistentCache.PersistentCacheCalculations

/-!
# What the constructor of `PersistentCacheCalculations` leaves valid

The constructor spreads invalidity to the objects that depend on an invalid one, and then reachability
from the valid checkpoint summaries to what they depend on. The invalid objects are closed before the
second search starts, so that it comes to no invalid object. What it does not reach is invalid in the end,
and that spreads to no object it has reached. So an object that stays valid depends on valid objects of the
cache only, and a valid summary reaches it (`construct_sound`), whatever the graph of dependencies is.
-/

open Ordered Effect

namespace Cumulus.PersistentCacheCalculations

variable {index : PersistentCacheIndex} {s s' : PersistentCacheCalculations}
  {o child : PersistentCacheKey} {all : List PersistentCacheKey}

/-! ## What is valid -/

variable (index) (s)

/-- Every dependency of a valid object is in the cache and valid. The keys without a storage path, those
of scripts and of the configuration, are no objects. -/
def DependenciesValid : Prop := ∀ o ∈ index.getAllObjects, o.hasStoragePath → o ∉ s.mInvalidObjects →
    ∀ child ∈ index.objectsDependedOn o, index.objectExists child ∧ child ∉ s.mInvalidObjects

/-- The second object is the first one or one that it depends on, through others or not. -/
def Reaches : PersistentCacheKey → PersistentCacheKey → Prop :=
  Relation.ReflTransGen fun o child => child ∈ index.objectsDependedOn o

/-- A checkpoint summary of the cache with the property reaches the object. -/
def ReachedFrom (P : PersistentCacheKey → Prop) (o : PersistentCacheKey) : Prop :=
  ∃ summary ∈ index.getAllObjects, summary.isCheckpointSummary ∧ P summary ∧ Reaches index summary o

/-- A valid checkpoint summary reaches every valid object. -/
def ObjectsReached : Prop := ∀ o ∈ index.getAllObjects, o.hasStoragePath → o ∉ s.mInvalidObjects →
    ReachedFrom index (· ∉ s.mInvalidObjects) o

/-! ## Invalidity -/

/-- More objects are invalid, and the same are reachable. -/
structure Grows (s s' : PersistentCacheCalculations) : Prop where
  invalid : s.mInvalidObjects ⊆ s'.mInvalidObjects
  reachable : s'.mReachable = s.mReachable

instance : IsPreorder PersistentCacheCalculations Grows where
  refl _ := ⟨Finset.Subset.refl _, rfl⟩
  trans _ _ _ h h' := ⟨h.invalid.trans h'.invalid, h'.reachable.trans h.reachable⟩

/-- The parents of the invalid objects are invalid. -/
abbrev InvalidClosed : Prop := ParentsInvalid index s.mInvalidObjects

variable {index} {s}

/-- An object that is marked invalid is so afterwards, with all that depend on it and nothing else. -/
theorem InvalidClosed.wp_mark (h : InvalidClosed index s) :
    wp (markObjectInvalid index o) (fun _ s' => InvalidClosed index s' ∧ Grows s s' ∧
      (o.isScript = false → o ∈ s'.mInvalidObjects) ∧ ∀ P : PersistentCacheKey → Prop, P o →
        (∀ child parent, index.mObjectDependencies.pairs.contains parent child → P child → P parent) →
        (∀ b ∈ s.mInvalidObjects, P b) → ∀ b ∈ s'.mInvalidObjects, P b) (fun _ _ => True) s := by
  refine (wp_markObjectInvalid (I := fun s' => s'.mReachable = s.mReachable) (fun _ _ hs => hs)
    rfl).mono (fun _ s' h' => ?_) fun _ _ => False.elim
  obtain ⟨hmarked, hreach⟩ := h'
  refine ⟨parentsInvalid_iff.2 (hmarked.closed _ ?_),
    ⟨(lawful_invalidity.mono hmarked.visits).1, hreach⟩, hmarked.mem, fun P ho hup hs => ?_⟩
  · exact (parentsInvalid_iff.1 h).mono fun _ _ _ _ => False.elim
  · refine lawful_invalidity.forall_marked hmarked.visits ho (fun c b hc hb => ?_) hs
    exact hup c b (mem_objectsDependingOn.1 (mem_ascending.1 hb)) hc

/-- The same where only the growth matters. -/
theorem InvalidClosed.grows_mark (h : InvalidClosed index s) :
    wp (markObjectInvalid index o) (fun _ s' => InvalidClosed index s' ∧ Grows s s') (fun _ _ => True) s :=
  h.wp_mark.imp fun _ _ h' => ⟨h'.1, h'.2.1⟩

theorem InvalidClosed.markInvalid (h : InvalidClosed index s) :
    wp (markInvalid index) (fun _ s' => InvalidClosed index s' ∧ Grows s s') (fun _ _ => True) s :=
  (wp_forM_achieves (P := fun _ _ => True) (fun _ _ _ _ => id) _
    (fun _ _ _ ht => ht.grows_mark.imp fun _ _ h' => ⟨h'.1, h'.2, trivial⟩) h).imp fun _ _ h' => ⟨h'.1, h'.2.1⟩

/-- The dependency is in the cache, or the object that has it is invalid. -/
def Found (index : PersistentCacheIndex) (o child : PersistentCacheKey) (s : PersistentCacheCalculations) : Prop :=
  index.objectExists child ∨ o ∈ s.mInvalidObjects

theorem Found.mono (h : Found index o child s) (hg : Grows s s') : Found index o child s' :=
  h.imp_right fun ho => hg.invalid ho

/-- An object with a dependency that is not in the cache becomes invalid. -/
theorem InvalidClosed.addDependencies (h : InvalidClosed index s) (all : List PersistentCacheKey) :
    wp (addDependencies index all) (fun _ s' => InvalidClosed index s' ∧ Grows s s' ∧
      ∀ o ∈ all, o.hasStoragePath → ∀ child ∈ index.objectsDependedOn o, Found index o child s')
      (fun _ _ => True) s := by
  refine wp_forM_achieves (fun o _ _ hg hf hk child hc => (hf hk child hc).mono hg) all (fun o _ s h => ?_) h
  rw [wp_ite]
  split
  · next hk =>
    have hscript : o.isScript = false := by cases o <;> first | rfl | cases hk
    refine (wp_forM_achieves (P := fun child => Found index o child)
      (fun child _ _ hg hf => hf.mono hg) _ (fun child _ s h => ?_) h).imp fun _ s' h' =>
      ⟨h'.1, h'.2.1, fun _ child hc => h'.2.2 child (mem_ascending.2 hc)⟩
    rw [wp_bind, onDependencies, wp_onPart, wp_adaptExcept]
    refine wp_of_forall (fun _ g => ?_) fun _ _ => trivial
    rw [wp_ite]
    split
    · have h₁ : InvalidClosed index { s with mDependencies := g } := h
      exact h₁.wp_mark.imp fun _ s' h' =>
        ⟨h'.1, ⟨h'.2.1.1, h'.2.1.2⟩, .inr (h'.2.2.1 hscript)⟩
    · next he => exact ⟨h, ⟨Finset.Subset.refl _, rfl⟩, .inl (not_not.1 he)⟩
  · next hk => exact ⟨h, refl_of Grows s, fun hk' => absurd hk' hk⟩

theorem InvalidClosed.markCycles (h : InvalidClosed index s) (all : List PersistentCacheKey) :
    wp (markCycles index all) (fun _ s' => InvalidClosed index s' ∧ Grows s s') (fun _ _ => True) s := by
  refine (wp_forM_achieves (P := fun _ _ => True) (fun _ _ _ _ => id) all (fun o _ s h => ?_) h).imp fun _ _ h' =>
    ⟨h'.1, h'.2.1⟩
  rw [wp_bind, onDependencies, wp_onPart, wp_adaptExcept]
  refine wp_of_forall (fun _ g => ?_) fun _ _ => trivial
  rw [wp_ite]
  split
  · have h₁ : InvalidClosed index { s with mDependencies := g } := h
    exact h₁.grows_mark.imp fun _ s' h' => ⟨h'.1, ⟨h'.2.1, h'.2.2⟩, trivial⟩
  · exact ⟨h, ⟨Finset.Subset.refl _, rfl⟩, trivial⟩

/-! ## Reachability -/

/-- Where the search from the valid summaries stands: it has come to no invalid object, what the
reachable objects depend on is reachable, and a reachable summary reaches each of them. -/
structure Reaching (index : PersistentCacheIndex) (s : PersistentCacheCalculations) : Prop where
  invalidClosed : InvalidClosed index s
  closed : ∀ o ∈ s.mReachable, ∀ child ∈ index.objectsDependedOn o, child ∈ s.mReachable
  valid : ∀ o ∈ s.mReachable, o ∉ s.mInvalidObjects
  reached : ∀ o ∈ s.mReachable, ReachedFrom index (· ∈ s.mReachable) o

theorem closed_reachability : Marking.Closed (reachability index) (fun _ => False) s ↔
    ∀ o ∈ s.mReachable, ∀ child ∈ index.objectsDependedOn o, child ∈ s.mReachable := by
  constructor
  · intro h o ho child hc
    obtain ⟨hash, hd⟩ := index.mObjectDependencies.kinds o child (mem_objectsDependedOn.1 hc)
    exact (h o ho child (mem_ascending.2 hc) rfl (PersistentCacheKey.isScript_of_dependency hd)).resolve_right id
  · exact fun h o ho child hc _ _ => .inl (h o ho child (mem_ascending.1 hc))

/-- The search from one valid summary. -/
theorem Reaching.wp_mark (h : Reaching index s) (ho : o ∈ index.getAllObjects)
    (hs : o.isCheckpointSummary) (hv : o ∉ s.mInvalidObjects) :
    wp (markReachable index o) (fun _ s' => Reaching index s' ∧ s'.mInvalidObjects = s.mInvalidObjects)
      (fun _ _ => True) s := by
  refine (@wp_search _ _ _ _ lawful_reachability (fun c b hb => ?_)
    (fun s' => s'.mInvalidObjects = s.mInvalidObjects) (fun _ _ hs _ => hs) (fun _ => True)
    (fun _ _ _ _ => trivial) rfl trivial).mono (fun _ s' h' => ?_) fun _ _ _ => trivial
  · exact (PersistentCacheIndex.mem_dependents (mem_objectsDependedOn.1 (mem_ascending.1 hb))).2
  · obtain ⟨hmarked, hinvalid⟩ := h'
    have hsub : s.mReachable ⊆ s'.mReachable := (lawful_reachability.mono hmarked.visits).1
    have hmem : o ∈ s'.mReachable := hmarked.mem (by cases o <;> first | rfl | cases hs)
    refine ⟨⟨fun o child => hinvalid ▸ h.invalidClosed o child, closed_reachability.1 (hmarked.closed _ ?_),
      hinvalid ▸ ?_, ?_⟩, hinvalid⟩
    · exact (closed_reachability.2 h.closed).mono fun _ _ _ _ => False.elim
    · refine lawful_reachability.forall_marked hmarked.visits hv (fun c b hc hb hbi => hc ?_) h.valid
      exact h.invalidClosed c b (mem_objectsDependedOn.1 (mem_ascending.1 hb)) hbi
    · refine lawful_reachability.forall_marked hmarked.visits ⟨o, ho, hs, hmem, .refl⟩
        (fun c b hc hb => ?_) fun b hb => ?_
      · obtain ⟨summary, hm, hs, hr, hreaches⟩ := hc
        exact ⟨summary, hm, hs, hr, hreaches.tail (mem_ascending.1 hb)⟩
      · obtain ⟨summary, hm, hs, hr, hreaches⟩ := h.reached b hb
        exact ⟨summary, hm, hs, hsub hr, hreaches⟩

theorem Reaching.markSummaries (h : Reaching index s) : wp (markSummaries index (ascending index.getAllObjects))
      (fun _ s' => Reaching index s' ∧ s'.mInvalidObjects = s.mInvalidObjects) (fun _ _ => True) s := by
  refine (wp_forM (fun rest s' => (Reaching index s' ∧ s'.mInvalidObjects = s.mInvalidObjects) ∧
    rest ⊆ ascending index.getAllObjects) (fun o rest t ht => ?_) _
    ⟨⟨h, rfl⟩, List.Subset.refl _⟩).imp fun _ _ h' => h'.1
  obtain ⟨⟨ht, hi⟩, hsub⟩ := ht
  have hrest : rest ⊆ ascending index.getAllObjects := fun x hx => hsub (List.mem_cons_of_mem o hx)
  rw [wp_bind, wp_get, wp_ite]
  split
  · next ho =>
    refine (ht.wp_mark (mem_ascending.1 (hsub List.mem_cons_self)) ho.1 ?_).imp fun _ _ h' =>
      ⟨⟨h'.1, h'.2.trans hi⟩, hrest⟩
    simpa [isInvalid] using ho.2
  · exact ⟨⟨ht, hi⟩, hrest⟩

/-- The objects that no summary reaches become invalid, and no reachable one does. -/
theorem Reaching.markUnreachable (h : Reaching index s) (all : List PersistentCacheKey) :
    wp (markUnreachable index all) (fun _ s' => Reaching index s' ∧ Grows s s' ∧
      ∀ o ∈ all, o.hasStoragePath → o ∈ s'.mReachable ∨ o ∈ s'.mInvalidObjects) (fun _ _ => True) s := by
  refine wp_forM_achieves (fun o s s' hg ho hk => ?_) all (fun o _ s h => ?_) h
  · rw [hg.reachable]
    exact (ho hk).imp_right fun hi => hg.invalid hi
  · rw [wp_bind, wp_get, wp_ite]
    split
    · next ho =>
      have hscript : o.isScript = false := by cases o <;> first | rfl | cases ho.1
      refine h.invalidClosed.wp_mark.imp fun _ s' h' => ?_
      obtain ⟨hclosed, hg, hmem, honly⟩ := h'
      have hdisjoint : ∀ b ∈ s'.mInvalidObjects, b ∉ s.mReachable := by
        refine honly (· ∉ s.mReachable) ho.2 (fun child parent hc hchild hparent => ?_) fun b hb hr => h.valid b hr hb
        exact hchild (h.closed parent hparent child (mem_objectsDependedOn.2 hc))
      refine ⟨⟨hclosed, ?_, ?_, ?_⟩, hg, fun _ => .inr (hmem hscript)⟩ <;> rw [hg.reachable]
      · exact h.closed
      · exact fun b hb hi => hdisjoint b hi hb
      · exact h.reached
    · next ho =>
      refine ⟨h, refl_of Grows s, fun hk => .inl ?_⟩
      by_contra hn
      exact ho ⟨hk, hn⟩

/-! ## The constructor -/

variable {invalid : Finset PersistentCacheKey}

theorem invalid_markScriptReferenced {reachable : ComputationId → Bool} (hs : s.mInvalidObjects = invalid)
    (all : List PersistentCacheKey) : wp (markScriptReferenced reachable all)
      (fun _ s' => s'.mInvalidObjects = invalid) (fun _ _ => True) s := by
  refine wp_forM (fun _ t => mInvalidObjects t = invalid) (fun o _ s hs => ?_) all hs
  cases o with
  | CheckpointSummary checkpoint =>
    rw [wp_ite]
    split <;> exact hs
  | _ => exact hs

theorem invalid_collectSummaries (hs : s.mInvalidObjects = invalid) (all : List PersistentCacheKey) :
    wp (collectSummaries all) (fun _ s' => s'.mInvalidObjects = invalid) (fun _ _ => True) s := by
  refine wp_forM (fun _ t => mInvalidObjects t = invalid) (fun o _ s hs => ?_) all hs
  cases o with
  | CheckpointSummary checkpoint =>
    rw [wp_bind, wp_get, wp_ite]
    split <;> exact hs
  | _ => exact hs

/-- What the constructor leaves valid, where it returns. -/
theorem wp_construct {reachable : ComputationId → Bool} : wp (construct index reachable)
    (fun _ s => DependenciesValid index s ∧ ObjectsReached index s) (fun _ _ => True) {} := by
  have h₀ : InvalidClosed index {} := fun _ _ _ hc => absurd hc (Finset.notMem_empty _)
  unfold construct
  rw [wp_bind]
  refine h₀.markInvalid.imp fun _ s₁ h₁ => ?_
  rw [wp_bind]
  refine (h₁.1.addDependencies _).imp fun _ s₂ h₂ => ?_
  rw [wp_bind]
  refine (h₂.1.markCycles _).imp fun _ s₃ h₃ => ?_
  obtain ⟨h₃, hg₃⟩ := h₃
  have hnone : s₃.mReachable = ∅ := by rw [hg₃.reachable, h₂.2.1.reachable, h₁.2.reachable]
  have hreach : Reaching index s₃ := ⟨h₃, by simp [hnone], by simp [hnone], by simp [hnone]⟩
  rw [wp_bind]
  refine hreach.markSummaries.imp fun _ s₄ h₄ => ?_
  obtain ⟨h₄, hi₄⟩ := h₄
  rw [wp_bind]
  refine (h₄.markUnreachable _).imp fun _ s₅ h₅ => ?_
  obtain ⟨h₅, hg₅, hcover⟩ := h₅
  rw [wp_bind]
  refine (invalid_markScriptReferenced rfl _).imp fun _ s₆ h₆ => ?_
  refine (invalid_collectSummaries h₆ _).imp fun _ s₇ h₇ => ⟨?_, ?_⟩
  · intro o ho hk hv child hc
    rw [h₇] at hv ⊢
    have hfound := (h₂.2.2 o (mem_ascending.2 ho) hk child hc).mono hg₃
    rw [Found, ← hi₄] at hfound
    exact ⟨hfound.resolve_right fun hi => hv (hg₅.invalid hi),
      fun hi => hv (h₅.invalidClosed o child (mem_objectsDependedOn.1 hc) hi)⟩
  · intro o ho hk hv
    simp only [h₇] at hv ⊢
    obtain ⟨summary, hm, hs, hr, hreaches⟩ := h₅.reached o ((hcover o (mem_ascending.2 ho) hk).resolve_right hv)
    exact ⟨summary, hm, hs, h₅.valid summary hr, hreaches⟩

/-- Whatever the index is, the constructor returns without a failed assertion, what a valid object depends
on is in the cache and valid, and a valid checkpoint summary reaches every valid object. -/
theorem construct_sound (index : PersistentCacheIndex) (reachable : ComputationId → Bool) :
    wp (construct index reachable) (fun _ s => DependenciesValid index s ∧ ObjectsReached index s)
      (fun _ _ => False) {} :=
  (constructed.and wp_construct).mono (fun _ _ h => h.2) fun _ _ h => h.1

end Cumulus.PersistentCacheCalculations
