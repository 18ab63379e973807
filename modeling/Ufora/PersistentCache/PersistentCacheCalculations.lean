import Ufora.Graphs.Components
import Ufora.Lib.Marking
import Ufora.PersistentCache.PersistentCacheIndex

/-!
# `PersistentCacheCalculations`

`cumulus/PersistentCache/PersistentCacheCalculations.hppml`: which objects of the cache are invalid and
which may be collected, worked out once from the state of the index. Invalidity passes from an object to
those that depend on it, reachability from a checkpoint summary to what it depends on, and an object is
collectable with the last object that depends on it. Which computations a script reaches is the index's
answer to `computationIsReachableFromAnyScript`, a parameter here.
-/

open Ordered Effect List Finset Finmap TwoWaySetMap GraphCycles Cumulus.ObjectTable

namespace Cumulus

/-! ## What the index answers -/

namespace PersistentCacheIndex

variable (s : PersistentCacheIndex)

/-- `getInvalidObjects()`. -/
def getInvalidObjects : Finset PersistentCacheKey :=
  s.mPages.invalid.image .Page ∪ s.mBigvecs.invalid.image .BigvecDefinition ∪
    s.mCheckpoints.invalid.image .CheckpointSummary ∪
    s.mCheckpointFiles.invalid.image fun cf => .CheckpointFile (ofLex cf).1 (ofLex cf).2

/-- `getAllObjects()`. -/
def getAllObjects : Finset PersistentCacheKey := s.mKvState.keys

/-- `objectsDependedOn(key)`. -/
def objectsDependedOn (key : PersistentCacheKey) : Finset PersistentCacheKey :=
    s.mObjectDependencies.pairs.getValues key

/-- `objectsDependingOn(key)`. -/
def objectsDependingOn (key : PersistentCacheKey) : Finset PersistentCacheKey := s.mObjectDependencies.pairs.getKeys key

/-- `objectExists(key)`. A configuration has no case, and no object depends on one. -/
def objectExists : PersistentCacheKey → Bool
  | .Page p => p ∈ s.mPages.entries
  | .BigvecDefinition b => b ∈ s.mBigvecs.entries
  | .CheckpointFile c f => toLex (c, f) ∈ s.mCheckpointFiles.entries
  | .CheckpointSummary c => c ∈ s.mCheckpoints.entries
  | .Script script => script ∈ s.mScriptDependencies
  | .Configuration => false

/-- `pageBytecount(pageHash)`, `bigvecBytecount(bigvecHash)`, `checkpointBytecount(checkpoint)` and
`checkpointFileBytecount(checkpoint, filename)`: a `uint32_t`, where the value has a `uint64_t`. -/
def ObjectTable.bytecount {κ : Type} [DecidableEq κ] (t : ObjectTable κ) (k : κ) : Option UInt32 :=
  match lookup k t.entries with
  | none => some 0
  | some value => value.bytecount.map UInt64.toUInt32

/-- `objectBytecount(key)`. The implementation returns the `uint32_t` as an `int32_t`, which the index makes
a `uint32_t` again. -/
def objectBytecount : PersistentCacheKey → Option UInt32
  | .Page p => ObjectTable.bytecount s.mPages p
  | .BigvecDefinition b => ObjectTable.bytecount s.mBigvecs b
  | .CheckpointFile c f => ObjectTable.bytecount s.mCheckpointFiles (toLex (c, f))
  | .CheckpointSummary c => ObjectTable.bytecount s.mCheckpoints c
  | _ => some 0

/-- `maxBytesInCache()`. -/
def maxBytesInCache : Option ℤ :=
  match lookup .Configuration s.mKvState with
  | some (.Configuration maxTotalCacheBytes) => some maxTotalCacheBytes
  | _ => none

/-- `totalBytesInCache()`. -/
def totalBytesInCache : UInt64 := s.mTotalBytesInCache

theorem ObjectTable.bytecount_isSome {κ : Type} [DecidableEq κ] {t : ObjectTable κ}
    (h : Kinded t) (k : κ) : (bytecount t k).isSome := by
  unfold bytecount
  split
  · rfl
  · next value hl => rw [Option.isSome_map]; exact h k value hl

/-- Where every value is of the kind of its key, every object has a byte count. -/
theorem objectBytecount_isSome {s : PersistentCacheIndex} (h : Kinded s) (k : PersistentCacheKey) :
    (s.objectBytecount k).isSome := by
  cases k with
  | Page p => exact ObjectTable.bytecount_isSome h.mPages p
  | BigvecDefinition b => exact ObjectTable.bytecount_isSome h.mBigvecs b
  | CheckpointFile c f => exact ObjectTable.bytecount_isSome h.mCheckpointFiles (toLex (c, f))
  | CheckpointSummary c => exact ObjectTable.bytecount_isSome h.mCheckpoints c
  | Script => rfl
  | Configuration => rfl

/-- The objects that depend on another one or have one that depends on them. -/
def dependents : Finset PersistentCacheKey :=
  s.mObjectDependencies.pairs.mKeysToValues.keys ∪ s.mObjectDependencies.pairs.mValuesToKeys.keys

theorem mem_dependents {s : PersistentCacheIndex} {k c : PersistentCacheKey}
    (h : s.mObjectDependencies.pairs.contains k c) : k ∈ s.dependents ∧ c ∈ s.dependents :=
  ⟨mem_union_left _ (mem_keys.2 (hasKey_iff.2 ⟨c, h⟩)), mem_union_right _ (mem_keys.2 (hasValue_iff.2 ⟨k, h⟩))⟩

end PersistentCacheIndex

/-! ## The calculations -/

/-- What ends a calculation early. -/
inductive PersistentCacheCalculationsError where
  /-- A `@match` without a case for the value. -/
  | badMatch
  /-- The `lassert` of `markReachable`. -/
  | invalidIsReachable
  /-- An assertion of the graph of dependencies. -/
  | dependencies (e : GraphError)
  /-- `*computationHash()` of a computation that has none. -/
  | noComputationHash
  /-- The first checkpoint of an empty bucket. -/
  | emptyBucket
  /-- A recursion or a loop that does not end. -/
  | recursionLimit

/-- A `PersistentCacheCalculations`. -/
structure PersistentCacheCalculations where
  mScriptReferencedComputations : Finset Hash := ∅
  mSummariesByComputation : TwoWaySetMap ComputationId CheckpointRequest := ∅
  mInvalidObjects : Finset PersistentCacheKey := ∅
  mCollectableObjects : Finset PersistentCacheKey := ∅
  mReachable : Finset PersistentCacheKey := ∅
  mDependencies : Observed PersistentCacheKey := {}
  mCollectableCheckpoints : StdMap ℤ (Finset CheckpointRequest) := ∅
  mBytesMarkedCollectable : ℤ := 0

/-- `computationHash()`: a split has none. -/
def ComputationId.computationHash : ComputationId → Option Hash
  | Root computationHash => some computationHash
  | Split .. => none

namespace PersistentCacheCalculations

/-- A member function. -/
abbrev Call := EStateM PersistentCacheCalculationsError PersistentCacheCalculations

variable (index : PersistentCacheIndex)

/-- How deep a recursion over the objects goes at most. -/
def recursionLimit : ℕ := index.dependents.card + 2

variable (calculations : PersistentCacheCalculations)

/-- `isInvalid(o)`. -/
def isInvalid (o : PersistentCacheKey) : Bool := o ∈ calculations.mInvalidObjects

/-- What `markObjectInvalid` does at each object. It asserts nothing. -/
def invalidity : Marking PersistentCacheCalculationsError PersistentCacheCalculations PersistentCacheKey where
  marked s := s.mInvalidObjects
  visit object s := { s with mInvalidObjects := insert object s.mInvalidObjects }
  next object := ascending (index.objectsDependingOn object)
  admits _ _ := true
  skips object := object.isScript
  asserts _ _ := true
  failed := .recursionLimit
  limitReached := .recursionLimit

variable (object : PersistentCacheKey)

/-- `markObjectInvalid(object)`. -/
def markObjectInvalid : Call Unit := (invalidity index).mark (recursionLimit index) object

/-- What `markReachable` does at each object. -/
def reachability : Marking PersistentCacheCalculationsError PersistentCacheCalculations PersistentCacheKey where
  marked s := s.mReachable
  visit object s := { s with mReachable := insert object s.mReachable }
  next object := ascending (index.objectsDependedOn object)
  admits _ _ := true
  skips object := object.isScript
  asserts s object := object ∉ s.mInvalidObjects
  failed := .invalidIsReachable
  limitReached := .recursionLimit

/-- `markReachable(object)`. -/
def markReachable : Call Unit := (reachability index).mark (recursionLimit index) object

/-- `anyUncollectableParents(child)`. -/
def anyUncollectableParents (child : PersistentCacheKey) : Bool :=
  ¬ index.objectsDependingOn child ⊆ calculations.mCollectableObjects

/-- What `markObjectCollectable` does at each object. An object marked before had a byte count then. -/
def collectability : Marking PersistentCacheCalculationsError PersistentCacheCalculations PersistentCacheKey where
  marked s := s.mCollectableObjects
  visit object s := { s with
      mBytesMarkedCollectable := s.mBytesMarkedCollectable + ((index.objectBytecount object).getD 0).toNat
      mCollectableObjects := insert object s.mCollectableObjects }
  next object := ascending (index.objectsDependedOn object)
  admits s child := !anyUncollectableParents index s child
  skips object := object.isScript
  asserts _ object := (index.objectBytecount object).isSome
  failed := .badMatch
  limitReached := .recursionLimit

/-- `markObjectCollectable(object)`. -/
def markObjectCollectable : Call Unit := (collectability index).mark (recursionLimit index) object

/-- A call on `mDependencies`. -/
def onDependencies {α : Type} (call : Action PersistentCacheKey α) : Call α :=
  onPart (·.mDependencies) (fun g s => { s with mDependencies := g }) (EStateM.adaptExcept .dependencies call)

/-- `mDependencies.nodesInCycle(o)`. -/
def nodesInCycle (o : PersistentCacheKey) : Action PersistentCacheKey (Finset PersistentCacheKey) := do
  let g := (← get).graph
  if o ∉ g.mNodes then
    return ∅
  let cycle ← cycleFor o
  return g.mNodeToCycle.getKeys cycle

/-! ## The constructor -/

/-- The first loop of the constructor, over `getInvalidObjects()`. -/
def markInvalid : Call Unit := (ascending index.getInvalidObjects).forM fun o => markObjectInvalid index o

variable (all : List PersistentCacheKey)

/-- The loop of the constructor that fills `mDependencies`. -/
def addDependencies : Call Unit := all.forM fun o => do
    if o.hasStoragePath then
      (ascending (index.objectsDependedOn o)).forM fun child => do
        onDependencies (addEdge o child)
        if ¬ index.objectExists child then
          markObjectInvalid index o

/-- The loop of the constructor over the cycles of `mDependencies`. -/
def markCycles : Call Unit := all.forM fun o => do
    let nodes ← onDependencies (nodesInCycle o)
    if 1 < nodes.card then
      markObjectInvalid index o

/-- The loop of the constructor over the checkpoint summaries that are not invalid. -/
def markSummaries : Call Unit := all.forM fun o => do
    if o.isCheckpointSummary ∧ ¬ (← get).isInvalid o then
      markReachable index o

/-- The loop of the constructor over what no summary reaches. -/
def markUnreachable : Call Unit := all.forM fun o => do
    if o.hasStoragePath ∧ o ∉ (← get).mReachable then
      markObjectInvalid index o

variable (computationIsReachableFromAnyScript : ComputationId → Bool)

/-- The loop of the constructor that calls `markComputationScriptReferenced`. -/
def markScriptReferenced (all : List PersistentCacheKey) : Call Unit := all.forM fun
    | .CheckpointSummary checkpoint => do
      if computationIsReachableFromAnyScript checkpoint.rootComputation then
        modify fun s => { s with
          mScriptReferencedComputations := insert checkpoint.computationHash s.mScriptReferencedComputations }
    | _ => pure ()

/-- The last loop of the constructor. -/
def collectSummaries : Call Unit := all.forM fun
    | .CheckpointSummary checkpoint => do
      if ¬ (← get).isInvalid (.CheckpointSummary checkpoint) then
        modify fun s => { s with
          mSummariesByComputation := s.mSummariesByComputation.insert checkpoint.rootComputation checkpoint }
    | _ => pure ()

/-- `PersistentCacheCalculations(index)`. -/
def construct : Call Unit := do
  markInvalid index
  let all := ascending index.getAllObjects
  addDependencies index all
  markCycles index all
  markSummaries index all
  markUnreachable index all
  markScriptReferenced computationIsReachableFromAnyScript all
  collectSummaries all

/-! ## Garbage collection -/

/-- The bucket of a checkpoint that has `seen` others of its computation ahead of it, where the computation
is kept or not. -/
def bucketFor (kept : Bool) (seen : ℕ) : Option ℤ :=
  if kept then
    if seen = 0 then none else if seen = 1 then some 2 else some 0
  else
    if seen = 0 then some 3 else if seen = 1 then some 1 else some 0

/-- The loop of `performGc` over the summaries of one computation, the most recent first. -/
def fillBuckets (kept : Bool) : ℕ → List CheckpointRequest →
    StdMap ℤ (Finset CheckpointRequest) → StdMap ℤ (Finset CheckpointRequest)
  | _, [], buckets => buckets
  | seen, checkpoint :: rest, buckets =>
    fillBuckets kept (seen + 1) rest
      (match bucketFor kept seen with
      | none => buckets
      | some bucket => insertInto buckets bucket checkpoint)

/-- The first loop of `performGc`. -/
def sortCheckpoints (inActiveComputations : Finset ComputationId) : Call Unit := do
  (← get).mSummariesByComputation.mKeysToValues.ascendingEntries.forM fun compAndSummaries => do
    match compAndSummaries.1.computationHash with
    | none => throw .noComputationHash
    | some computationHash =>
      let kept := computationHash ∈ (← get).mScriptReferencedComputations ∨ compAndSummaries.1 ∈ inActiveComputations
      modify fun s => { s with
        mCollectableCheckpoints := fillBuckets kept 0 (ascending compAndSummaries.2).reverse s.mCollectableCheckpoints }

/-- `stillHasSomethingToGc()`. -/
def stillHasSomethingToGc : Bool :=
  if calculations.mCollectableCheckpoints.keys = ∅ then
    false
  else if 0 ∈ calculations.mCollectableCheckpoints then
    true
  else
    match index.maxBytesInCache with
    | none => false
    | some maxBytesInCache =>
      index.totalBytesInCache.toInt64.toInt - calculations.mBytesMarkedCollectable > maxBytesInCache

/-- The second loop of `performGc`. -/
def collect (index : PersistentCacheIndex) : ℕ → Call Unit
  | 0 => throw .recursionLimit
  | limit + 1 => do
    let buckets := (← get).mCollectableCheckpoints
    if stillHasSomethingToGc index (← get) then
      match (ascending buckets.keys).head? with
      | none => throw .emptyBucket
      | some bucket =>
        match (ascending (buckets.get bucket)).head? with
        | none => throw .emptyBucket
        | some checkpoint =>
          modify fun s => { s with
            mCollectableCheckpoints := eraseFrom s.mCollectableCheckpoints bucket checkpoint }
          markObjectCollectable index (.CheckpointSummary checkpoint)
          collect index limit

/-- The checkpoints in the buckets. -/
def candidates (buckets : StdMap ℤ (Finset CheckpointRequest)) : Finset (ℤ × CheckpointRequest) :=
  buckets.keys.biUnion fun bucket => (buckets.get bucket).image fun checkpoint => (bucket, checkpoint)

/-- `performGc(inActiveComputations)`. -/
def performGc (inActiveComputations : Finset ComputationId) : Call Unit := do
  sortCheckpoints inActiveComputations
  collect index ((candidates (← get).mCollectableCheckpoints).card + 1)

/-! ## The searches -/

variable {index} {s : PersistentCacheCalculations} {o child : PersistentCacheKey}

theorem mem_objectsDependedOn : child ∈ index.objectsDependedOn o ↔
    index.mObjectDependencies.pairs.contains o child := mem_getValues

theorem mem_objectsDependingOn : o ∈ index.objectsDependingOn child ↔
    index.mObjectDependencies.pairs.contains o child := mem_getKeys

theorem lawful_invalidity : (invalidity index).Lawful where
  marked_visit _ _ := rfl
  admits_visit _ _ _ h := h
  of_admits_visit _ _ _ h := .inl h

theorem lawful_reachability : (reachability index).Lawful where
  marked_visit _ _ := rfl
  admits_visit _ _ _ h := h
  of_admits_visit _ _ _ h := .inl h

theorem admits_collectability : (collectability index).admits s child ↔
    index.objectsDependingOn child ⊆ s.mCollectableObjects := by
  simp [collectability, anyUncollectableParents]

theorem lawful_collectability : (collectability index).Lawful where
  marked_visit _ _ := rfl
  admits_visit a b s h := by
    rw [admits_collectability] at h ⊢
    exact h.trans (subset_insert _ _)
  of_admits_visit a b s h := by
    rw [admits_collectability] at h ⊢
    by_cases ha : a ∈ index.objectsDependingOn b
    · exact .inr (mem_ascending.2 (mem_objectsDependedOn.2 (mem_objectsDependingOn.1 ha)))
    · exact .inl ((subset_insert_iff_of_notMem ha).1 h)

/-- A search among the objects that depend on each other stays below the limit. -/
theorem wp_search {m : Marking PersistentCacheCalculationsError PersistentCacheCalculations PersistentCacheKey}
    (hm : m.Lawful) (hnext : ∀ c, ∀ b ∈ m.next c, b ∈ index.dependents)
    {I : PersistentCacheCalculations → Prop} (hI : ∀ s b, I s → b ∉ m.marked s → I (m.visit b s))
    {ok : PersistentCacheKey → Prop} (hok : ∀ c, ok c → ∀ b ∈ m.next c, ok b) (hs : I s) (ho : ok o) :
    wp (m.mark (recursionLimit index) o) (fun _ s' => Marking.Marked m o s s' ∧ I s')
      (fun e _ => e = m.failed ∧ ∃ s b, I s ∧ ok b ∧ m.skips b = false ∧ m.asserts s b = false) s := by
  refine @Marking.wp_mark _ _ _ _ _ _ _ hm (insert o index.dependents)
    (fun c _ b hb => mem_insert_of_mem (hnext c b hb)) _ hI _ hok _ hs (mem_insert_self _ _) ho ?_
  have hle := card_le_card (sdiff_subset (s := insert o index.dependents) (t := m.marked s))
  have hins := card_insert_le o index.dependents
  unfold recursionLimit
  omega

theorem wp_markObjectInvalid {I : PersistentCacheCalculations → Prop}
    (hI : ∀ s b, I s → I { s with mInvalidObjects := insert b s.mInvalidObjects }) (hs : I s) :
    wp (markObjectInvalid index o) (fun _ s' => Marking.Marked (invalidity index) o s s' ∧ I s')
      (fun _ _ => False) s := by
  refine (@wp_search _ _ _ _ lawful_invalidity (fun c b hb => ?_) _ (fun s b h _ => hI s b h)
    (fun _ => True) (fun _ _ _ _ => trivial) hs trivial).mono (fun _ _ => id) fun _ _ h => ?_
  · exact (PersistentCacheIndex.mem_dependents (mem_objectsDependingOn.1 (mem_ascending.1 hb))).1
  · obtain ⟨-, _, _, -, -, -, hassert⟩ := h
    cases hassert

/-! ## The constructor -/

/-- The parents of what is invalid are invalid. -/
def ParentsInvalid (index : PersistentCacheIndex) (invalid : Finset PersistentCacheKey) : Prop :=
  ∀ o child, index.mObjectDependencies.pairs.contains o child → child ∈ invalid → o ∈ invalid

/-- The invalid objects are closed where the search for them has nothing pending. -/
theorem parentsInvalid_iff : ParentsInvalid index s.mInvalidObjects ↔
    Marking.Closed (invalidity index) (fun _ => False) s := by
  constructor
  · intro h c hc b hb _ _
    exact .inl (h b c (mem_objectsDependingOn.1 (mem_ascending.1 hb)) hc)
  · intro h o child hoc hchild
    obtain ⟨hash, hd⟩ := index.mObjectDependencies.kinds o child hoc
    refine (h child hchild o (mem_ascending.2 (mem_objectsDependingOn.2 hoc)) rfl ?_).resolve_right id
    have hpath := PersistentCacheKey.hasStoragePath_of_dependency hd
    cases o <;> first | rfl | cases hpath

/-- While objects are found invalid: nothing else is worked out but the graph and what is reachable. -/
structure Invalidating (index : PersistentCacheIndex) (s : PersistentCacheCalculations) : Prop where
  closed : ParentsInvalid index s.mInvalidObjects
  stable : Stable [] s.mDependencies
  scripts : s.mScriptReferencedComputations = ∅
  summaries : s.mSummariesByComputation = ∅
  collectable : s.mCollectableObjects = ∅
  checkpoints : s.mCollectableCheckpoints = ∅
  bytes : s.mBytesMarkedCollectable = 0

/-- One more object found invalid. -/
theorem Invalidating.markObjectInvalid (h : Invalidating index s) :
    wp (markObjectInvalid index o) (fun _ s' => Invalidating index s') (fun _ _ => False) s := by
  refine (wp_markObjectInvalid (I := fun s => Stable [] s.mDependencies ∧
    s.mScriptReferencedComputations = ∅ ∧ s.mSummariesByComputation = ∅ ∧ s.mCollectableObjects = ∅ ∧
    s.mCollectableCheckpoints = ∅ ∧ s.mBytesMarkedCollectable = 0) (fun _ _ hs => hs)
    ⟨h.stable, h.scripts, h.summaries, h.collectable, h.checkpoints, h.bytes⟩).imp fun _ s' h' => ?_
  obtain ⟨hmarked, hs, hsc, hsu, hco, hch, hby⟩ := h'
  refine ⟨parentsInvalid_iff.2 (hmarked.closed _ ?_), hs, hsc, hsu, hco, hch, hby⟩
  exact (parentsInvalid_iff.1 h.closed).mono fun _ _ _ _ => False.elim

theorem Invalidating.markInvalid (h : Invalidating index s) :
    wp (markInvalid index) (fun _ s' => Invalidating index s') (fun _ _ => False) s :=
  wp_forM (fun _ s => Invalidating index s) (fun _ _ _ h => h.markObjectInvalid) _ h

/-- An edge between two nodes is added, whether it is there or not. -/
theorem wp_addEdge {α : Type} [LinearOrder α] {g : Observed α} (h : Stable [] g)
    {u v : α} (hne : u ≠ v) :
    wp (addEdge u v) (fun _ g' => Stable [] g') (fun _ _ => False) g := by
  by_cases huv : g.graph.mEdges.contains u v
  · exact (h.addEdge_of_contains hne huv).imp fun _ _ h' => h'.1
  · exact ((h.spare (u, v)).addEdge hne huv).imp fun _ _ h' => h'.1

theorem Invalidating.withGraph (h : Invalidating index s) {g : Observed PersistentCacheKey}
    (hg : Stable [] g) : Invalidating index { s with mDependencies := g } :=
  ⟨h.closed, hg, h.scripts, h.summaries, h.collectable, h.checkpoints, h.bytes⟩

theorem Invalidating.addDependencies (h : Invalidating index s) (all : List PersistentCacheKey) :
    wp (addDependencies index all) (fun _ s' => Invalidating index s') (fun _ _ => False) s := by
  refine wp_forM (fun _ s => Invalidating index s) (fun o _ s h => ?_) all h
  rw [wp_ite]
  split
  · refine (wp_forM (fun rest s => (∀ child ∈ rest, child ∈ index.objectsDependedOn o) ∧
      Invalidating index s) (fun child rest s hs => ?_) _
      ⟨fun child => mem_ascending.1, h⟩).imp fun _ _ hs => hs.2
    obtain ⟨hash, hd⟩ := index.mObjectDependencies.kinds o child (mem_objectsDependedOn.1 (hs.1 child mem_cons_self))
    have hrest : ∀ c ∈ rest, c ∈ index.objectsDependedOn o := fun c hc => hs.1 c (mem_cons_of_mem _ hc)
    rw [wp_bind, onDependencies, wp_onPart, wp_adaptExcept]
    refine (wp_addEdge hs.2.stable (PersistentCacheKey.ne_of_dependency hd)).mono (fun _ g hg => ?_)
      fun _ _ => False.elim
    rw [wp_ite]
    split
    · exact (hs.2.withGraph hg).markObjectInvalid.imp fun _ _ h => ⟨hrest, h⟩
    · exact ⟨hrest, hs.2.withGraph hg⟩
  · exact h

/-- The nodes of the cycle of an object, which need not be a node. -/
theorem wp_nodesInCycle {g : Observed PersistentCacheKey} (h : Stable [] g) :
    wp (nodesInCycle o) (fun _ g' => g' = g) (fun _ _ => False) g := by
  unfold nodesInCycle
  rw [wp_bind, wp_get]
  by_cases ho : o ∈ g.graph.mNodes
  · obtain ⟨c, hc⟩ := (h.indexed.node o).1 ho
    rw [if_neg (not_not.2 ho), wp_bind, wp_cycleFor hc]
    exact rfl
  · rw [if_pos ho]
    exact rfl

theorem Invalidating.markCycles (h : Invalidating index s) (all : List PersistentCacheKey) :
    wp (markCycles index all) (fun _ s' => Invalidating index s') (fun _ _ => False) s := by
  refine wp_forM (fun _ s => Invalidating index s) (fun o _ s h => ?_) all h
  rw [wp_bind, onDependencies, wp_onPart, wp_adaptExcept]
  refine (wp_nodesInCycle h.stable).mono (fun nodes g hg => ?_) fun _ _ => False.elim
  subst hg
  rw [wp_ite]
  split
  · exact h.markObjectInvalid
  · exact h

/-- The search from a summary that is not invalid comes to no invalid object. -/
theorem Invalidating.markSummaries (h : Invalidating index s) (all : List PersistentCacheKey) :
    wp (markSummaries index all) (fun _ s' => Invalidating index s') (fun _ _ => False) s := by
  refine wp_forM (fun _ s => Invalidating index s) (fun o _ s h => ?_) all h
  rw [wp_bind, wp_get, wp_ite]
  split
  · next ho =>
    refine (@wp_search _ _ _ _ lawful_reachability (fun c b hb => ?_)
      (fun s' => Invalidating index s' ∧ s'.mInvalidObjects = s.mInvalidObjects) (fun s' b hs' _ => ?_)
      (· ∉ s.mInvalidObjects) (fun c hc b hb hbi => ?_) ⟨h, rfl⟩ ?_).mono (fun _ s' h' => h'.2.1) fun _ _ h' => ?_
    · exact (PersistentCacheIndex.mem_dependents (mem_objectsDependedOn.1 (mem_ascending.1 hb))).2
    · obtain ⟨⟨hc, hs, hsc, hsu, hco, hch, hby⟩, hi⟩ := hs'
      exact ⟨⟨hc, hs, hsc, hsu, hco, hch, hby⟩, hi⟩
    · exact hc (h.closed c b (mem_objectsDependedOn.1 (mem_ascending.1 hb)) hbi)
    · simpa [isInvalid] using ho.2
    · obtain ⟨-, s', b, ⟨-, hi⟩, hb, -, hassert⟩ := h'
      simp [reachability, hi, hb] at hassert
  · exact h

theorem Invalidating.markUnreachable (h : Invalidating index s) (all : List PersistentCacheKey) :
    wp (markUnreachable index all) (fun _ s' => Invalidating index s') (fun _ _ => False) s := by
  refine wp_forM (fun _ s => Invalidating index s) (fun o _ s h => ?_) all h
  rw [wp_bind, wp_get, wp_ite]
  split
  · exact h.markObjectInvalid
  · exact h

/-- The constructor is done with what is invalid, and no garbage is collected yet. -/
structure Settled (index : PersistentCacheIndex) (invalid : Finset PersistentCacheKey)
    (s : PersistentCacheCalculations) : Prop where
  closed : ParentsInvalid index s.mInvalidObjects
  invalid : s.mInvalidObjects = invalid
  collectable : s.mCollectableObjects = ∅
  checkpoints : s.mCollectableCheckpoints = ∅
  bytes : s.mBytesMarkedCollectable = 0

variable {reachable : ComputationId → Bool} {invalid : Finset PersistentCacheKey}

theorem Settled.markScriptReferenced (h : Settled index invalid s) (hs : s.mSummariesByComputation = ∅)
    (all : List PersistentCacheKey) :
    wp (markScriptReferenced reachable all) (fun _ s' => Settled index invalid s' ∧
      s'.mSummariesByComputation = ∅ ∧ ∀ checkpoint, .CheckpointSummary checkpoint ∈ all →
        reachable checkpoint.rootComputation → checkpoint.computationHash ∈ s'.mScriptReferencedComputations)
      (fun _ _ => False) s := by
  refine (wp_forM (fun rest s' => Settled index invalid s' ∧ s'.mSummariesByComputation = ∅ ∧
    ∀ checkpoint, .CheckpointSummary checkpoint ∈ all → reachable checkpoint.rootComputation →
      .CheckpointSummary checkpoint ∈ rest ∨ checkpoint.computationHash ∈ s'.mScriptReferencedComputations)
    (fun o rest s' h' => ?_) all ⟨h, hs, fun _ hm _ => .inl hm⟩).imp fun _ s' h' =>
    ⟨h'.1, h'.2.1, fun c hm hr => (h'.2.2 c hm hr).resolve_left not_mem_nil⟩
  obtain ⟨hset, hsum, hscripts⟩ := h'
  have hskip : (∀ checkpoint, o = .CheckpointSummary checkpoint → ¬ reachable checkpoint.rootComputation) →
      ∀ checkpoint, .CheckpointSummary checkpoint ∈ all → reachable checkpoint.rootComputation →
        .CheckpointSummary checkpoint ∈ rest ∨ checkpoint.computationHash ∈ s'.mScriptReferencedComputations := by
    intro hno checkpoint hm hr
    refine (hscripts checkpoint hm hr).imp_left fun hmem => ?_
    exact (mem_cons.1 hmem).resolve_left fun he => hno checkpoint he.symm hr
  cases o with
  | CheckpointSummary checkpoint =>
    rw [wp_ite]
    split
    · refine ⟨⟨hset.1, hset.2, hset.3, hset.4, hset.5⟩, hsum, fun c hm hr => ?_⟩
      rcases hscripts c hm hr with hmem | hc
      · rcases mem_cons.1 hmem with he | hmem
        · cases he
          exact .inr (mem_insert_self _ _)
        · exact .inl hmem
      · exact .inr (mem_insert_of_mem hc)
    · next hno => exact ⟨hset, hsum, hskip fun c he => by cases he; exact hno⟩
  | _ => exact ⟨hset, hsum, hskip nofun⟩

theorem Settled.collectSummaries (h : Settled index invalid s) (hs : s.mSummariesByComputation = ∅)
    (all : List PersistentCacheKey) :
    wp (collectSummaries all) (fun _ s' => Settled index invalid s' ∧
      s'.mScriptReferencedComputations = s.mScriptReferencedComputations ∧
      ∀ computation checkpoint, s'.mSummariesByComputation.contains computation checkpoint ↔
        computation = checkpoint.rootComputation ∧ .CheckpointSummary checkpoint ∈ all ∧
          .CheckpointSummary checkpoint ∉ invalid)
      (fun _ _ => False) s := by
  refine (wp_forM (fun rest s' => Settled index invalid s' ∧
    s'.mScriptReferencedComputations = s.mScriptReferencedComputations ∧ rest ⊆ all ∧
    ∀ computation checkpoint, (s'.mSummariesByComputation.contains computation checkpoint →
      computation = checkpoint.rootComputation ∧ .CheckpointSummary checkpoint ∈ all ∧
        .CheckpointSummary checkpoint ∉ invalid) ∧
      (.CheckpointSummary checkpoint ∈ all → .CheckpointSummary checkpoint ∉ invalid →
        .CheckpointSummary checkpoint ∈ rest ∨
          s'.mSummariesByComputation.contains checkpoint.rootComputation checkpoint))
    (fun o rest s' h' => ?_) all ⟨h, rfl, List.Subset.refl _, fun computation checkpoint => ⟨fun hc => ?_,
      fun hm _ => .inl hm⟩⟩).imp fun _ s' h' => ?_
  · obtain ⟨hset, hscripts, hsub, hsum⟩ := h'
    have ho := hsub mem_cons_self
    have hrest : rest ⊆ all := fun x hx => hsub (mem_cons_of_mem _ hx)
    cases o with
    | CheckpointSummary c =>
      rw [wp_bind, wp_get, wp_ite]
      split
      · next hvalid =>
        have hvalid : .CheckpointSummary c ∉ invalid := by simpa [isInvalid, hset.invalid] using hvalid
        refine ⟨⟨hset.1, hset.2, hset.3, hset.4, hset.5⟩, hscripts, hrest, fun computation checkpoint =>
          ⟨fun hc => ?_, fun hm hv => ?_⟩⟩
        · rcases contains_insert.1 hc with ⟨rfl, rfl⟩ | hc
          · exact ⟨rfl, ho, hvalid⟩
          · exact (hsum computation checkpoint).1 hc
        · rcases (hsum checkpoint.rootComputation checkpoint).2 hm hv with hmem | hc
          · rcases mem_cons.1 hmem with he | hmem
            · cases he
              exact .inr (contains_insert.2 (.inl ⟨rfl, rfl⟩))
            · exact .inl hmem
          · exact .inr (contains_insert.2 (.inr hc))
      · next hvalid =>
        have hinvalid : .CheckpointSummary c ∈ invalid := by simpa [isInvalid, hset.invalid] using hvalid
        refine ⟨hset, hscripts, hrest, fun computation checkpoint =>
          ⟨(hsum computation checkpoint).1, fun hm hv => ?_⟩⟩
        refine ((hsum computation checkpoint).2 hm hv).imp_left fun hmem => ?_
        refine (mem_cons.1 hmem).resolve_left fun he => hv ?_
        cases he
        exact hinvalid
    | _ =>
      refine ⟨hset, hscripts, hrest, fun computation checkpoint =>
        ⟨(hsum computation checkpoint).1, fun hm hv => ?_⟩⟩
      refine ((hsum computation checkpoint).2 hm hv).imp_left fun hmem => ?_
      exact (mem_cons.1 hmem).resolve_left nofun
  · rw [hs] at hc
    exact absurd hc contains_empty
  · obtain ⟨hset, hscripts, -, hsum⟩ := h'
    refine ⟨hset, hscripts, fun computation checkpoint => ⟨(hsum computation checkpoint).1, ?_⟩⟩
    rintro ⟨rfl, hm, hv⟩
    exact ((hsum checkpoint.rootComputation checkpoint).2 hm hv).resolve_left not_mem_nil

/-- What the constructor leaves for the garbage collection. -/
structure Constructed (index : PersistentCacheIndex) (reachable : ComputationId → Bool)
    (s : PersistentCacheCalculations) : Prop where
  scripts : ∀ checkpoint, .CheckpointSummary checkpoint ∈ index.getAllObjects →
    reachable checkpoint.rootComputation → checkpoint.computationHash ∈ s.mScriptReferencedComputations
  summaries : ∀ computation checkpoint, s.mSummariesByComputation.contains computation checkpoint ↔
    computation = checkpoint.rootComputation ∧ .CheckpointSummary checkpoint ∈ index.getAllObjects ∧
      .CheckpointSummary checkpoint ∉ s.mInvalidObjects
  collectable : s.mCollectableObjects = ∅
  checkpoints : s.mCollectableCheckpoints = ∅
  bytes : s.mBytesMarkedCollectable = 0

/-- The constructor returns: the assertion of `markReachable` holds. -/
theorem constructed : wp (construct index reachable) (fun _ s => Constructed index reachable s)
    (fun _ _ => False) {} := by
  have h : Invalidating index {} := ⟨fun _ _ _ hc => absurd hc (notMem_empty _), stable_empty, rfl, rfl, rfl, rfl, rfl⟩
  unfold construct
  rw [wp_bind]
  refine h.markInvalid.imp fun _ s₁ h₁ => ?_
  rw [wp_bind]
  refine (h₁.addDependencies _).imp fun _ s₂ h₂ => ?_
  rw [wp_bind]
  refine (h₂.markCycles _).imp fun _ s₃ h₃ => ?_
  rw [wp_bind]
  refine (h₃.markSummaries _).imp fun _ s₄ h₄ => ?_
  rw [wp_bind]
  refine (h₄.markUnreachable _).imp fun _ s₅ h₅ => ?_
  have hset : Settled index s₅.mInvalidObjects s₅ := ⟨h₅.closed, rfl, h₅.collectable, h₅.checkpoints, h₅.bytes⟩
  rw [wp_bind]
  refine (@Settled.markScriptReferenced _ _ reachable _ hset h₅.summaries _).imp fun _ s₆ h₆ => ?_
  obtain ⟨hset₆, hsum₆, hscripts⟩ := h₆
  refine (hset₆.collectSummaries hsum₆ _).imp fun _ s₇ h₇ => ?_
  obtain ⟨hset₇, hsame, hsum⟩ := h₇
  refine ⟨fun c hm hr => ?_, fun computation c => ?_, hset₇.collectable, hset₇.checkpoints, hset₇.bytes⟩
  · rw [hsame]
    exact hscripts c (mem_ascending.2 hm) hr
  · rw [hsum, mem_ascending, hset₇.invalid]

end PersistentCacheCalculations

end Cumulus
