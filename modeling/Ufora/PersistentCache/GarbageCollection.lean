import Ufora.PersistentCache.PersistentCacheCalculations

/-!
# What `performGc` collects

Of the checkpoints of a computation that is active or reachable from a script, the most recent valid one is
no candidate for collection. What the search for collectable objects comes to is a candidate or has lost
the last object that depends on it, so nothing that such a checkpoint reaches is collected, and what is
collected of the other objects is what only collected objects depend on (`performGc_safe`).
-/

open Ordered Effect List Finset Finmap TwoWaySetMap StdMap

namespace Cumulus.PersistentCacheCalculations

variable {index : PersistentCacheIndex} {s s' : PersistentCacheCalculations} {o : PersistentCacheKey}
  {cp : CheckpointRequest} {computation : ComputationId}

/-- The bytes of objects. -/
def bytesOf (index : PersistentCacheIndex) (objects : Finset PersistentCacheKey) : ℤ :=
  ∑ o ∈ objects, (((index.objectBytecount o).getD 0).toNat : ℤ)

/-- `performGc` keeps the most recent checkpoint of the computation. -/
def IsKept (active : Finset ComputationId) (s : PersistentCacheCalculations)
    (computation : ComputationId) : Prop :=
  (∃ computationHash ∈ computation.computationHash, computationHash ∈ s.mScriptReferencedComputations) ∨
    computation ∈ active

/-- A checkpoint that may be collected: the most recent one of a kept computation is none. -/
def IsCandidate (active : Finset ComputationId) (s : PersistentCacheCalculations)
    (cp : CheckpointRequest) : Prop :=
  ∃ computation, s.mSummariesByComputation.contains computation cp ∧ (s.IsKept active computation →
      ∃ later, s.mSummariesByComputation.contains computation later ∧ cp < later)

/-! ## The buckets -/

variable {buckets : StdMap ℤ (Finset CheckpointRequest)}

/-- What the loop over the summaries of one computation puts into buckets: where the computation is kept,
all but the first. -/
theorem mem_fillBuckets {kept : Bool} {seen : ℕ} {l : List CheckpointRequest} {bucket : ℤ}
    (h : cp ∈ (fillBuckets kept seen l buckets).get bucket) :
    cp ∈ buckets.get bucket ∨ cp ∈ l ∧ (kept → seen = 0 → cp ∈ l.tail) := by
  induction l generalizing seen buckets with
  | nil => exact .inl h
  | cons c l ih =>
    rw [fillBuckets] at h
    rcases ih h with hmem | ⟨hmem, -⟩
    · cases hb : bucketFor kept seen with
      | none =>
        rw [hb] at hmem
        exact .inl hmem
      | some b =>
        rw [hb] at hmem
        rcases mem_insertInto.1 hmem with ⟨-, rfl⟩ | hmem
        · refine .inr ⟨mem_cons_self, fun hk hs => ?_⟩
          simp [bucketFor, hk, hs] at hb
        · exact .inl hmem
    · exact .inr ⟨mem_cons_of_mem _ hmem, fun _ _ => hmem⟩

theorem fillBuckets_noEmpty {kept : Bool} {seen : ℕ} {l : List CheckpointRequest} (h : ∀ b, lookup b buckets ≠ some ∅) :
    ∀ b, lookup b (fillBuckets kept seen l buckets) ≠ some ∅ := by
  induction l generalizing seen buckets with
  | nil => exact h
  | cons c l ih =>
    rw [fillBuckets]
    refine ih ?_
    split
    · exact h
    · exact insertInto_noEmpty h _ _

/-- From the most recent one on, every checkpoint has a later one. -/
theorem exists_lt_of_mem_tail {summaries : Finset CheckpointRequest}
    (h : cp ∈ (ascending summaries).reverse.tail) : ∃ later ∈ summaries, cp < later := by
  have hsorted : (ascending summaries).reverse.Pairwise (· ≥ ·) := pairwise_reverse.2 (pairwise_ascending summaries)
  have hnodup := nodup_reverse.2 (ascending_nodup summaries)
  have hmem : ∀ c, c ∈ (ascending summaries).reverse ↔ c ∈ summaries := fun c => by simp
  generalize (ascending summaries).reverse = l at h hsorted hnodup hmem
  cases l with
  | nil => cases h
  | cons later l =>
    refine ⟨later, (hmem later).1 mem_cons_self, ?_⟩
    refine lt_of_le_of_ne ((pairwise_cons.1 hsorted).1 cp h) ?_
    rintro rfl
    exact (nodup_cons.1 hnodup).1 h

variable {reachable : ComputationId → Bool}

/-- The buckets hold candidates. -/
theorem wp_sortCheckpoints {active : Finset ComputationId} (h : Constructed index reachable s) :
    wp (sortCheckpoints active) (fun _ s' => ∃ buckets : StdMap ℤ (Finset CheckpointRequest),
      s' = { s with mCollectableCheckpoints := buckets } ∧ (∀ b, lookup b buckets ≠ some ∅) ∧
      ∀ b, ∀ c ∈ buckets.get b, s.IsCandidate active c) (fun _ _ => False) s := by
  unfold sortCheckpoints
  rw [wp_bind, wp_get]
  refine (wp_forM (fun rest s' => (∀ e ∈ rest, e ∈ s.mSummariesByComputation.mKeysToValues.ascendingEntries) ∧
    ∃ buckets : StdMap ℤ (Finset CheckpointRequest), s' = { s with mCollectableCheckpoints := buckets } ∧
      (∀ b, lookup b buckets ≠ some ∅) ∧
      ∀ b, ∀ c ∈ buckets.get b, s.IsCandidate active c) (fun e rest s' h' => ?_) _
    ⟨fun _ => id, ∅, ?_, ?_, ?_⟩).imp fun _ _ h' => h'.2
  · obtain ⟨hentries, buckets, rfl, hne, hcand⟩ := h'
    obtain ⟨computation, summaries⟩ := e
    have hlookup : lookup computation s.mSummariesByComputation.mKeysToValues = some summaries :=
      mem_ascendingEntries.1 (hentries _ mem_cons_self)
    have hget : s.mSummariesByComputation.getValues computation = summaries := by
      unfold getValues StdMap.get
      rw [hlookup]
      rfl
    have hcontains : ∀ c, c ∈ summaries ↔ s.mSummariesByComputation.contains computation c := fun c => by
      rw [← hget]
      exact mem_getValues
    obtain ⟨some₀, hsome₀⟩ : summaries.Nonempty := by
      refine nonempty_iff_ne_empty.2 fun he => ?_
      exact s.mSummariesByComputation.noEmptyValues computation (he ▸ hlookup)
    obtain ⟨hroot, -⟩ := (h.summaries _ _).1 ((hcontains some₀).1 hsome₀)
    have hhash : computation.computationHash = some some₀.computationHash := by rw [hroot]; rfl
    simp only [hhash]
    rw [wp_bind, wp_get, wp_modify]
    refine ⟨fun e he => hentries e (mem_cons_of_mem _ he), _, rfl, fillBuckets_noEmpty hne, fun b c hc => ?_⟩
    rcases mem_fillBuckets hc with hc | ⟨hc, htail⟩
    · exact hcand b c hc
    · refine ⟨computation, (hcontains c).1 (by simpa using hc), fun hkept => ?_⟩
      obtain ⟨later, hl, hlt⟩ := exists_lt_of_mem_tail (htail (by simpa [IsKept, hhash] using hkept) rfl)
      exact ⟨later, (hcontains later).1 hl, hlt⟩
  · rw [← h.checkpoints]
  · intro b hb
    rw [lookup_empty] at hb
    cases hb
  · intro b c hc
    rw [get_empty] at hc
    exact absurd hc (notMem_empty _)

/-! ## The cascade -/

/-- While garbage is collected. What is collectable is a candidate, or what depends on it is collectable. -/
structure Collecting (index : PersistentCacheIndex) (active : Finset ComputationId)
    (s₀ s : PersistentCacheCalculations) : Prop where
  invalid : s.mInvalidObjects = s₀.mInvalidObjects
  buckets : ∀ b, ∀ c ∈ s.mCollectableCheckpoints.get b, s₀.IsCandidate active c
  noEmpty : ∀ b, lookup b s.mCollectableCheckpoints ≠ some ∅
  sound : ∀ o ∈ s.mCollectableObjects, (∃ c, s₀.IsCandidate active c ∧ o = .CheckpointSummary c) ∨
      (∃ p, index.mObjectDependencies.pairs.contains p o) ∧
        ∀ p, index.mObjectDependencies.pairs.contains p o → p ∈ s.mCollectableObjects
  closed : Marking.Closed (collectability index) (fun _ => False) s
  bytes : s.mBytesMarkedCollectable = bytesOf index s.mCollectableObjects

variable {active : Finset ComputationId} {s₀ : PersistentCacheCalculations}

/-- The visits of a search from a candidate. -/
theorem Collecting.sound_visits (h : Collecting index active s₀ s)
    (hc : s₀.IsCandidate active cp)
    (hv : Relation.ReflTransGen (Marking.Visits (collectability index) (.CheckpointSummary cp)) s s') :
    ∀ o ∈ s'.mCollectableObjects, (∃ c, s₀.IsCandidate active c ∧ o = .CheckpointSummary c) ∨
        (∃ p, index.mObjectDependencies.pairs.contains p o) ∧
          ∀ p, index.mObjectDependencies.pairs.contains p o → p ∈ s'.mCollectableObjects := by
  induction hv with
  | refl => exact h.sound
  | tail _ hv ih =>
    obtain ⟨b, -, -, hwhy, rfl⟩ := hv
    intro o ho
    rcases mem_insert.1 ho with rfl | ho
    · rcases hwhy with rfl | ⟨p, -, hp, hadmits⟩
      · exact .inl ⟨cp, hc, rfl⟩
      · refine .inr ⟨⟨p, mem_objectsDependedOn.1 (mem_ascending.1 hp)⟩, fun q hq => ?_⟩
        exact mem_insert_of_mem (admits_collectability.1 hadmits (mem_objectsDependingOn.2 hq))
    · exact (ih o ho).imp_right fun hall => ⟨hall.1, fun p hp => mem_insert_of_mem (hall.2 p hp)⟩

/-- A candidate and what only it and collectable objects reach become collectable. -/
theorem Collecting.markObjectCollectable (h : Collecting index active s₀ s)
    (hc : s₀.IsCandidate active cp) :
    wp (markObjectCollectable index (.CheckpointSummary cp))
      (fun _ s' => Collecting index active s₀ s' ∧ s'.mCollectableCheckpoints = s.mCollectableCheckpoints)
      (fun e _ => e = .badMatch ∧ ∃ o, index.objectBytecount o = none) s := by
  refine (@wp_search _ _ _ _ lawful_collectability (fun c b hb => ?_) (fun s' =>
    s'.mInvalidObjects = s.mInvalidObjects ∧ s'.mCollectableCheckpoints = s.mCollectableCheckpoints ∧
      s'.mBytesMarkedCollectable = bytesOf index s'.mCollectableObjects)
    (fun s' b hs' hb => ?_) (fun _ => True) (fun _ _ _ _ => trivial)
    ⟨rfl, rfl, h.bytes⟩ trivial).mono (fun _ s' h' => ?_) fun e _ he => ?_
  · exact (PersistentCacheIndex.mem_dependents (mem_objectsDependedOn.1 (mem_ascending.1 hb))).2
  · refine ⟨hs'.1, hs'.2.1, ?_⟩
    show s'.mBytesMarkedCollectable + _ = bytesOf index (insert b s'.mCollectableObjects)
    rw [bytesOf, sum_insert (show b ∉ s'.mCollectableObjects from hb), hs'.2.2, bytesOf, add_comm]
  · obtain ⟨hmarked, hinv, hbuckets, hbytes⟩ := h'
    refine ⟨⟨hinv.trans h.invalid, hbuckets ▸ h.buckets, hbuckets ▸ h.noEmpty,
      h.sound_visits hc hmarked.visits, hmarked.closed _ ?_, hbytes⟩, hbuckets⟩
    exact h.closed.mono fun _ _ _ _ => False.elim
  · obtain ⟨he, _, b, -, -, -, hassert⟩ := he
    exact ⟨he, b, Option.isNone_iff_eq_none.1 (by simpa [collectability] using hassert)⟩

/-! ## The loop -/

theorem mem_candidates {b : ℤ} : (b, cp) ∈ candidates buckets ↔ cp ∈ buckets.get b := by
  unfold candidates
  simp only [mem_biUnion, mem_image, Prod.mk.injEq]
  constructor
  · rintro ⟨_, -, _, hc, rfl, rfl⟩
    exact hc
  · intro hc
    refine ⟨b, ?_, cp, hc, rfl, rfl⟩
    by_contra hb
    rw [get_of_notMem hb] at hc
    exact absurd hc (notMem_empty _)

/-- One candidate less. -/
theorem card_candidates_eraseFrom {b : ℤ} (h : cp ∈ buckets.get b) :
    (candidates (eraseFrom buckets b cp)).card < (candidates buckets).card := by
  refine card_lt_card (Finset.ssubset_iff_subset_ne.2 ⟨fun ⟨b', c⟩ hc => ?_, fun he => ?_⟩)
  · exact mem_candidates.2 (mem_eraseFrom.1 (mem_candidates.1 hc)).1
  · have hmem : (b, cp) ∈ candidates (eraseFrom buckets b cp) := he ▸ mem_candidates.2 h
    exact (mem_eraseFrom.1 (mem_candidates.1 hmem)).2 ⟨rfl, rfl⟩

/-- The first element of a set that is not empty. -/
theorem exists_head_ascending {α : Type} [LinearOrder α] {t : Finset α} (h : t.Nonempty) :
    ∃ a ∈ t, (ascending t).head? = some a := by
  cases hl : ascending t with
  | nil =>
    obtain ⟨a, ha⟩ := h
    rw [← mem_ascending, hl] at ha
    cases ha
  | cons a l => exact ⟨a, mem_ascending.1 (hl ▸ mem_cons_self), rfl⟩

theorem Collecting.collect {n : ℕ} (h : Collecting index active s₀ s)
    (hlimit : (candidates s.mCollectableCheckpoints).card < n) :
    wp (collect index n) (fun _ s' => Collecting index active s₀ s')
      (fun e _ => e = .badMatch ∧ ∃ o, index.objectBytecount o = none) s := by
  induction n generalizing s with
  | zero => omega
  | succ n ih =>
    unfold PersistentCacheCalculations.collect
    rw [wp_bind, wp_get, wp_bind, wp_get, wp_ite]
    split
    · next hmore =>
      have hkeys : s.mCollectableCheckpoints.keys.Nonempty := by
        refine nonempty_iff_ne_empty.2 fun he => ?_
        simp [stillHasSomethingToGc, he] at hmore
      obtain ⟨b, hb, hhead⟩ := exists_head_ascending hkeys
      have hne : (s.mCollectableCheckpoints.get b).Nonempty := (mem_iff_get_nonempty h.noEmpty b).1 (mem_keys.1 hb)
      obtain ⟨c, hc, hhead'⟩ := exists_head_ascending hne
      simp only [hhead, hhead']
      rw [wp_bind, wp_modify, wp_bind]
      have herased : Collecting index active s₀
          { s with
            mCollectableCheckpoints := eraseFrom s.mCollectableCheckpoints b c } :=
        ⟨h.invalid, fun b' c' hc' => h.buckets b' c' (mem_eraseFrom.1 hc').1,
          eraseFrom_noEmpty h.noEmpty b c, h.sound, h.closed, h.bytes⟩
      refine (herased.markObjectCollectable (h.buckets b c hc)).imp fun _ s' h' => ?_
      refine ih h'.1 ?_
      rw [h'.2]
      exact (card_candidates_eraseFrom hc).trans_le (Nat.le_of_lt_succ hlimit)
    · exact h

/-! ## What is collected -/

/-- The summary of the checkpoint is stored and not invalid. -/
def IsValid (index : PersistentCacheIndex) (s : PersistentCacheCalculations) (cp : CheckpointRequest) : Prop :=
  .CheckpointSummary cp ∈ index.getAllObjects ∧ ¬ s.isInvalid (.CheckpointSummary cp)

/-- The most recent valid checkpoint of its computation. -/
def IsMostRecentValid (index : PersistentCacheIndex) (s : PersistentCacheCalculations)
    (cp : CheckpointRequest) : Prop :=
  IsValid index s cp ∧ ∀ c, IsValid index s c → c.rootComputation = cp.rootComputation → c ≤ cp

/-- Garbage collection is safe. -/
structure Safe (index : PersistentCacheIndex) (computationIsReachableFromAnyScript : ComputationId → Bool)
    (active : Finset ComputationId) (s : PersistentCacheCalculations) : Prop where
  /-- Nothing is collected that the most recent valid checkpoint of a computation in use reaches. -/
  spared : ∀ cp, IsMostRecentValid index s cp → cp.rootComputation ∈ active ∨
      computationIsReachableFromAnyScript cp.rootComputation →
    ∀ o, Relation.ReflTransGen index.mObjectDependencies.pairs.contains (.CheckpointSummary cp) o →
      o ∉ s.mCollectableObjects
  /-- An object that others depend on is collected with the last of them. -/
  shared : ∀ o, o.isCheckpointSummary = false → (o ∈ s.mCollectableObjects ↔
    (∃ p, index.mObjectDependencies.pairs.contains p o) ∧
      ∀ p, index.mObjectDependencies.pairs.contains p o → p ∈ s.mCollectableObjects)
  /-- The bytes are those that `objectBytecount` gives, cut to 32 bits. -/
  bytes : s.mBytesMarkedCollectable = ∑ o ∈ s.mCollectableObjects, (((index.objectBytecount o).getD 0).toNat : ℤ)

theorem isCheckpointSummary_of_contains {p : PersistentCacheKey}
    (h : index.mObjectDependencies.pairs.contains p o) : o.isCheckpointSummary = false := by
  obtain ⟨hash, hd⟩ := index.mObjectDependencies.kinds p o h
  exact PersistentCacheKey.not_isCheckpointSummary_of_dependency hd

theorem Collecting.safe (h₀ : Constructed index reachable s₀)
    (h : Collecting index active s₀ s) : Safe index reachable active s where
  spared cp hrecent hroot o ho := by
    obtain ⟨⟨hstored, hvalid⟩, hlast⟩ := hrecent
    induction ho with
    | refl =>
      intro hmem
      rcases h.sound _ hmem with ⟨c, ⟨computation, hc, hkept⟩, he⟩ | ⟨⟨p, hp⟩, -⟩
      · cases he
        obtain ⟨rfl, -, -⟩ := (h₀.summaries _ _).1 hc
        obtain ⟨later, hl, hlt⟩ := hkept (hroot.symm.imp (fun hr => ⟨_, rfl, h₀.scripts _ hstored hr⟩) id)
        obtain ⟨he, hl, hinv⟩ := (h₀.summaries _ _).1 hl
        refine absurd (hlast later ⟨hl, ?_⟩ he.symm) (not_le.2 hlt)
        simpa [isInvalid, h.invalid] using hinv
      · cases isCheckpointSummary_of_contains hp
    | tail _ hpo ih =>
      intro hmem
      rcases h.sound _ hmem with ⟨c, -, rfl⟩ | ⟨-, hall⟩
      · cases isCheckpointSummary_of_contains hpo
      · exact ih (hall _ hpo)
  shared o ho := by
    constructor
    · intro hmem
      rcases h.sound o hmem with ⟨c, -, rfl⟩ | hall
      · cases ho
      · exact hall
    · rintro ⟨⟨p, hp⟩, hall⟩
      obtain ⟨hash, hd⟩ := index.mObjectDependencies.kinds p o hp
      refine (h.closed p (hall p hp) o (mem_ascending.2 (mem_objectsDependedOn.2 hp)) ?_
        (PersistentCacheKey.isScript_of_dependency hd)).resolve_right id
      exact admits_collectability.2 fun q hq => hall q (mem_objectsDependingOn.1 hq)
  bytes := h.bytes

/-- For every state of the index, the constructor and `performGc` return, and the garbage collection is safe.
Only a configuration where the value of an object should be ends the count of the bytes early. -/
theorem performGc_safe (index : PersistentCacheIndex) (computationIsReachableFromAnyScript : ComputationId → Bool)
    (active : Finset ComputationId) :
    wp (do construct index computationIsReachableFromAnyScript; performGc index active)
      (fun _ s => Safe index computationIsReachableFromAnyScript active s)
      (fun e _ => e = .badMatch ∧ ¬ index.Kinded) {} := by
  rw [wp_bind]
  refine constructed.mono (fun _ s h => ?_) fun _ _ => False.elim
  unfold performGc
  rw [wp_bind]
  refine (wp_sortCheckpoints h).mono (fun _ s' h' => ?_) fun _ _ => False.elim
  obtain ⟨buckets, rfl, hne, hcand⟩ := h'
  rw [wp_bind, wp_get]
  have hcollecting : Collecting index active s { s with mCollectableCheckpoints := buckets } := by
    refine ⟨rfl, hcand, hne, fun o ho => ?_, fun o ho => ?_, ?_⟩
    · exact absurd (h.collectable ▸ ho) (notMem_empty _)
    · exact absurd (h.collectable ▸ ho) (notMem_empty _)
    · show s.mBytesMarkedCollectable = bytesOf index s.mCollectableObjects
      rw [h.bytes, h.collectable]
      rfl
  refine (hcollecting.collect (Nat.lt_succ_self _)).mono (fun _ s' h' => h'.safe h) fun e _ he => ⟨he.1, ?_⟩
  obtain ⟨o, ho⟩ := he.2
  intro hkinded
  have hsome := PersistentCacheIndex.objectBytecount_isSome hkinded o
  rw [ho] at hsome
  cases hsome

end Cumulus.PersistentCacheCalculations
