import Ufora.Lib.Run
import Ufora.Lib.Totals
import Ufora.PersistentCache.PersistentCacheIndex

/-!
# The bytes in the cache

`mTotalBytesInCache` is kept up to date by `handleKey_` alone, which takes off the byte count of the value
that an object had and adds that of its new value. Marking an object invalid replaces its value by one that
has the same byte count: what is invalid still takes its bytes until it is dropped. So the counter is the
sum of the byte counts of all objects recorded (`always_counted`), and not of the valid ones
(`not_always_validBytes`).
-/

open Ordered Run Effect Finmap StdMap UInt64

namespace Cumulus.PersistentCacheIndex

/-! ## The calls -/

/-- `markPageInvalid(p)`, `markBigvecInvalid(b)` and `markCheckpointInvalid(c)`, and what
`markCheckpointFileInvalid` does to the file. -/
def markEntryInvalid {κ : Type} [DecidableEq κ] (table : PersistentCacheIndex → ObjectTable κ)
    (withTable : ObjectTable κ → PersistentCacheIndex → PersistentCacheIndex) (k : κ)
    (key : PersistentCacheKey) : Call Unit := do
  -- `operator[]` makes an entry where there is none
  modify fun s => withTable
    { table s with entries := insert k ((table s).entries.get k) (table s).entries } s
  let bytecount ← orBadMatch ((table (← get)).entries.get k).bytecount
  handleKey_ key (some (.Invalid bytecount))

/-- `markCheckpointInvalid(checkpoint)`. -/
def markCheckpointInvalid (checkpoint : CheckpointRequest) : Call Unit :=
  markEntryInvalid (·.mCheckpoints) (fun t s => { s with mCheckpoints := t }) checkpoint
    (.CheckpointSummary checkpoint)

/-- `markCheckpointFileInvalid(checkpoint, filename)`. -/
def markCheckpointFileInvalid (checkpoint : CheckpointRequest) (filename : Hash) : Call Unit := do
  markCheckpointInvalid checkpoint
  markEntryInvalid (·.mCheckpointFiles) (fun t s => { s with mCheckpointFiles := t })
    (toLex (checkpoint, filename)) (.CheckpointFile checkpoint filename)

/-- `markObjectInvalid(key)`: scripts and the configuration have no case. -/
def markObjectInvalid : PersistentCacheKey → Call Unit
  | .Page p => markEntryInvalid (·.mPages) (fun t s => { s with mPages := t }) p (.Page p)
  | .BigvecDefinition b =>
    markEntryInvalid (·.mBigvecs) (fun t s => { s with mBigvecs := t }) b (.BigvecDefinition b)
  | .CheckpointFile checkpoint filename => markCheckpointFileInvalid checkpoint filename
  | .CheckpointSummary checkpoint => markCheckpointInvalid checkpoint
  | .Script _ | .Configuration => throw .badMatch

/-- The calls that change the index. A value is set by this index or by the server, and dropping an object
sets no value. A `clearAllState_` with updates after it is a `resetView` that is still going on. -/
inductive Change where
  | setKeyValue (key : PersistentCacheKey) (value : Option ValueEntry)
  | markObjectInvalid (key : PersistentCacheKey)
  | resetView (changed : List (PersistentCacheKey × Option ValueEntry))
  | clearAllState_

/-- The call. -/
def Change.call : Change → Call Unit
  | .setKeyValue key value => handleKey_ key value
  | .markObjectInvalid key => PersistentCacheIndex.markObjectInvalid key
  | .resetView changed => PersistentCacheIndex.resetView changed
  | .clearAllState_ => modify PersistentCacheIndex.clearAllState_

variable (s : PersistentCacheIndex)

/-- What a call leaves, whether it returns or throws. -/
def change (c : Change) : PersistentCacheIndex := exec c.call s

/-! ## The sums -/

/-- The bytes of a value. A configuration has none. -/
def bytesOf (value : ValueEntry) : ℕ := (value.bytecount.map toNat).getD 0

/-- The bytes of a value that is valid. -/
def validBytesOf (value : ValueEntry) : ℕ := if value.isValid then bytesOf value else 0

/-- The sum over the pages, vectors, checkpoint summaries and checkpoint files recorded. -/
def sumOfObjects (bytes : ValueEntry → ℕ) (s : PersistentCacheIndex) : ℕ :=
  s.mPages.entries.total (fun _ => bytes) + s.mBigvecs.entries.total (fun _ => bytes) +
    s.mCheckpoints.entries.total (fun _ => bytes) + s.mCheckpointFiles.entries.total (fun _ => bytes)

/-- The bytes of the objects recorded. -/
def recordedBytes : ℕ := s.sumOfObjects bytesOf

/-- The bytes of the objects recorded as valid. -/
def validBytes : ℕ := s.sumOfObjects validBytesOf

/-- What `handleKey_` takes off the counter for a new value of the key. -/
def oldBytes : PersistentCacheKey → ℕ
  | .Page p => bytesOf (s.mPages.entries.get p)
  | .BigvecDefinition b => bytesOf (s.mBigvecs.entries.get b)
  | .CheckpointSummary checkpoint => bytesOf (s.mCheckpoints.entries.get checkpoint)
  | .CheckpointFile checkpoint hash => bytesOf (s.mCheckpointFiles.entries.get (toLex (checkpoint, hash)))
  | .Script _ | .Configuration => 0

/-- The counter, which has 64 bits, is the sum of the bytes of the objects recorded. -/
def Counted : Prop := s.mTotalBytesInCache = ofNat s.recordedBytes

theorem bytesOf_default : bytesOf default = 0 := rfl

/-- The bytes of no object are more than the sum. -/
theorem oldBytes_le (k : PersistentCacheKey) : s.oldBytes k ≤ s.recordedBytes := by
  have hp := fun p => le_total (fun _ => bytesOf_default) s.mPages.entries p
  have hb := fun b => le_total (fun _ => bytesOf_default) s.mBigvecs.entries b
  have hc := fun c => le_total (fun _ => bytesOf_default) s.mCheckpoints.entries c
  have hf := fun f => le_total (fun _ => bytesOf_default) s.mCheckpointFiles.entries f
  unfold recordedBytes sumOfObjects
  cases k with
  | Page p => have := hp p; simp only [oldBytes]; omega
  | BigvecDefinition b => have := hb b; simp only [oldBytes]; omega
  | CheckpointSummary checkpoint => have := hc checkpoint; simp only [oldBytes]; omega
  | CheckpointFile checkpoint hash => have := hf (toLex (checkpoint, hash)); simp only [oldBytes]; omega
  | _ => exact Nat.zero_le _

section
variable {s} {key : PersistentCacheKey} {valueEntry : Option ValueEntry}

theorem Counted.toNat_eq (h : Counted s) : s.mTotalBytesInCache.toNat = s.recordedBytes % 2 ^ 64 := by
  rw [h, toNat_ofNat']

/-- No update takes more off the counter than it has. -/
theorem Counted.oldBytes_le (h : Counted s) (hs : s.recordedBytes < 2 ^ 64) (key : PersistentCacheKey) :
    s.oldBytes key ≤ s.mTotalBytesInCache.toNat := by
  rw [h.toNat_eq, Nat.mod_eq_of_lt hs]
  exact PersistentCacheIndex.oldBytes_le s key

/-! ## One call -/

/-- The table is one of the four whose objects are counted. -/
structure Counts {κ : Type} [DecidableEq κ] (table : PersistentCacheIndex → ObjectTable κ)
    (withTable : ObjectTable κ → PersistentCacheIndex → PersistentCacheIndex) : Prop where
  table_withTable : ∀ t s, table (withTable t s) = t := by intros; rfl
  table_withTotal : ∀ s x, table { s with mTotalBytesInCache := x } = table s := by intros; rfl
  total_withTable : ∀ t s, (withTable t s).mTotalBytesInCache = s.mTotalBytesInCache := by intros; rfl
  recorded_withTable : ∀ t s, (withTable t s).recordedBytes + (table s).entries.total (fun _ => bytesOf) =
    s.recordedBytes + t.entries.total fun _ => bytesOf

theorem counts_mPages : Counts (·.mPages) (fun t s => { s with mPages := t }) where
  recorded_withTable t s := by simp only [recordedBytes, sumOfObjects]; omega

theorem counts_mBigvecs : Counts (·.mBigvecs) (fun t s => { s with mBigvecs := t }) where
  recorded_withTable t s := by simp only [recordedBytes, sumOfObjects]; omega

theorem counts_mCheckpoints : Counts (·.mCheckpoints) (fun t s => { s with mCheckpoints := t }) where
  recorded_withTable t s := by simp only [recordedBytes, sumOfObjects]; omega

theorem counts_mCheckpointFiles : Counts (·.mCheckpointFiles) (fun t s => { s with mCheckpointFiles := t }) where
  recorded_withTable t s := by simp only [recordedBytes, sumOfObjects]; omega

/-- The same bytes are in the cache and on the counter. -/
theorem Counted.of_eq {s' : PersistentCacheIndex} (h : Counted s)
    (ht : s'.mTotalBytesInCache = s.mTotalBytesInCache) (hr : s'.recordedBytes = s.recordedBytes) :
    Counted s' := by
  rw [Counted, ht, hr]
  exact h

/-- The counter follows a sum from which one value is taken and to which another one is added. -/
theorem ofNat_replace {pre after : ℕ} {old new : UInt64} (h : after + old.toNat = pre + new.toNat) :
    ofNat pre - old + new = ofNat after := by
  have hsum : ofNat after + old = ofNat pre + new := by
    simpa using congrArg ofNat h
  grind

variable {κ : Type} [DecidableEq κ] {table : PersistentCacheIndex → ObjectTable κ}
  {withTable : ObjectTable κ → PersistentCacheIndex → PersistentCacheIndex} {k : κ}

section

variable (h : Counts table withTable)
include h

/-- An entry of a table is replaced. -/
theorem Counts.recorded_insert {value : ValueEntry} {invalid : Finset κ} :
    (withTable ⟨insert k value (table s).entries, invalid⟩ s).recordedBytes +
      bytesOf ((table s).entries.get k) = s.recordedBytes + bytesOf value := by
  have hr := h.recorded_withTable ⟨insert k value (table s).entries, invalid⟩ s
  have hi := total_insert (w := fun _ => bytesOf) (m := (table s).entries) (k := k) (v := value)
    fun _ => bytesOf_default
  dsimp only at hr
  omega

/-- An entry of a table is removed. -/
theorem Counts.recorded_erase {invalid : Finset κ} : (withTable ⟨erase k (table s).entries, invalid⟩ s).recordedBytes +
      bytesOf ((table s).entries.get k) = s.recordedBytes := by
  have hr := h.recorded_withTable ⟨erase k (table s).entries, invalid⟩ s
  have hi := total_erase (w := fun _ => bytesOf) (m := (table s).entries) (k := k) fun _ => bytesOf_default
  dsimp only at hr
  omega

/-- `operator[]` records no bytes. -/
theorem Counts.counted_get (hs : Counted s) : Counted (withTable
    { table s with entries := insert k ((table s).entries.get k) (table s).entries } s) := by
  exact hs.of_eq (h.total_withTable _ _) (Nat.add_right_cancel h.recorded_insert)

/-- Other objects are marked invalid. -/
theorem Counts.counted_invalid (hs : Counted s) (invalid : Finset κ) :
    Counted (withTable ⟨(table s).entries, invalid⟩ s) :=
  hs.of_eq (h.total_withTable _ _) (Nat.add_right_cancel (h.recorded_withTable _ s))

end

/-- The bytes of an object's value are off the counter. -/
structure Owed (table : PersistentCacheIndex → ObjectTable κ) (k : κ) (s : PersistentCacheIndex) : Prop where
  owed : ∃ old, bytesOf ((table s).entries.get k) = old.toNat ∧ s.mTotalBytesInCache = ofNat s.recordedBytes - old

theorem Counts.owed (h : Counts table withTable) (hs : Counted s) {old : UInt64}
    (hold : ((table s).entries.get k).bytecount = some old) :
    Owed table k { s with mTotalBytesInCache := s.mTotalBytesInCache - old } := by
  refine ⟨old, ?_, congrArg (· - old) hs⟩
  rw [h.table_withTotal, bytesOf, hold]
  rfl

/-- The object goes whose bytes are off the counter. -/
theorem Counts.counted_erase (h : Counts table withTable) (hs : Owed table k s) (invalid : Finset κ) :
    Counted (withTable ⟨erase k (table s).entries, invalid⟩ s) := by
  obtain ⟨old, hold, htotal⟩ := hs.owed
  have hr : (withTable ⟨erase k (table s).entries, invalid⟩ s).recordedBytes + _ = _ := h.recorded_erase
  have hnext := @ofNat_replace s.recordedBytes _ old 0 (hold ▸ hr)
  rw [Counted, h.total_withTable, htotal, ← hnext, UInt64.add_zero]

/-- The object gets a new value, of which the bytes are still to be counted. -/
theorem Counts.insert_add (h : Counts table withTable) (hs : Owed table k s) {v : ValueEntry}
    (invalid : Finset κ) {new : UInt64} (hnew : bytesOf v = new.toNat) :
    (withTable ⟨insert k v (table s).entries, invalid⟩ s).mTotalBytesInCache + new =
      ofNat (withTable ⟨insert k v (table s).entries, invalid⟩ s).recordedBytes := by
  obtain ⟨old, hold, htotal⟩ := hs.owed
  have hr : (withTable ⟨insert k v (table s).entries, invalid⟩ s).recordedBytes + _ = _ := h.recorded_insert
  rw [hold, hnew] at hr
  rw [h.total_withTable, htotal, ofNat_replace hr]

theorem wp_orBadMatch_iff {α : Type} {Q : α → PersistentCacheIndex → Prop}
    {E : PersistentCacheIndexError → PersistentCacheIndex → Prop} {x : Option α} :
    wp (orBadMatch x) Q E s ↔ match x with
      | some a => Q a s
      | none => E .badMatch s := by
  cases x <;> exact Iff.rfl

/-- The branches for the four kinds of objects keep the counter right, also where they throw. -/
theorem Counts.handleObject (h : Counts table withTable) (hs : Counted s) :
    wp (handleObject table withTable k key valueEntry) (fun _ s' => Counted s') (fun _ s' => Counted s') s := by
  unfold PersistentCacheIndex.handleObject
  have h₁ := h.counted_get (k := k) hs
  simp only [wp_bind, wp_modify, wp_get]
  generalize withTable { table s with entries := insert k ((table s).entries.get k) (table s).entries } s = s₁ at h₁ ⊢
  rw [wp_orBadMatch_iff]
  split
  · next old hold =>
    have h₂ := h.owed h₁ hold
    generalize { s₁ with mTotalBytesInCache := s₁.mTotalBytesInCache - old } = s₂ at h₂ ⊢
    cases valueEntry with
    | none => exact h.counted_erase h₂ _
    | some value =>
      simp only [wp_bind, wp_modify, wp_orBadMatch_iff]
      split
      · next bytecount hb =>
        have hnew : bytesOf value = bytecount.toNat := by rw [bytesOf, hb]; rfl
        have h₃ := h.insert_add h₂ (table s₂).invalid hnew
        generalize withTable ⟨insert k value (table s₂).entries, (table s₂).invalid⟩ s₂ = s₃ at h₃ ⊢
        have h₄ : Counted { s₃ with mTotalBytesInCache := s₃.mTotalBytesInCache + bytecount } := h₃
        generalize { s₃ with mTotalBytesInCache := s₃.mTotalBytesInCache + bytecount } = s₄ at h₄ ⊢
        split
        · have h₅ : ∀ m, Counted { s₄ with mObjectDependencies := m } := fun _ => h₄
          refine wp_forM_insert _ ?_
          rw [wp_ite]
          split
          · exact h.counted_invalid (h₅ _) _
          · exact h.counted_invalid (h₅ _) _
        · exact h₄
      · next hb =>
        have hnew : bytesOf value = (0 : UInt64).toNat := by rw [bytesOf, hb]; rfl
        have h₃ := h.insert_add h₂ (table s₂).invalid hnew
        rwa [UInt64.add_zero] at h₃
  · exact h₁

theorem Counted.handleKind (hs : Counted s) :
    wp (handleKind key valueEntry) (fun _ s' => Counted s') (fun _ s' => Counted s') s := by
  cases key with
  | Page p => exact counts_mPages.handleObject hs
  | BigvecDefinition b => exact counts_mBigvecs.handleObject hs
  | CheckpointSummary checkpoint => exact counts_mCheckpoints.handleObject hs
  | CheckpointFile checkpoint hash => exact counts_mCheckpointFiles.handleObject hs
  | Script script =>
    cases valueEntry with
    | none => exact hs
    | some value =>
      simp only [PersistentCacheIndex.handleKind, handleScript, wp_bind, wp_modify, wp_orBadMatch_iff]
      split <;> exact hs
  | Configuration => exact hs

/-- An update keeps the counter right, also where it throws. -/
theorem Counted.handleKey_ (hs : Counted s) :
    wp (handleKey_ key valueEntry) (fun _ s' => Counted s') (fun _ s' => Counted s') s := by
  unfold PersistentCacheIndex.handleKey_
  simp only [wp_bind, wp_get, wp_ite, wp_modify]
  split_ifs
  · exact handleKind (by exact hs)
  · exact handleKind (by exact hs)
  · exact hs

/-- So does marking an object invalid. -/
theorem Counts.markEntryInvalid (h : Counts table withTable) (hs : Counted s) :
    wp (markEntryInvalid table withTable k key) (fun _ s' => Counted s') (fun _ s' => Counted s') s := by
  unfold PersistentCacheIndex.markEntryInvalid
  simp only [wp_bind, wp_modify, wp_get, wp_orBadMatch_iff]
  split
  · exact (h.counted_get hs).handleKey_
  · exact h.counted_get hs

theorem Counted.markObjectInvalid (hs : Counted s) :
    wp (markObjectInvalid key) (fun _ s' => Counted s') (fun _ s' => Counted s') s := by
  cases key with
  | Page p => exact counts_mPages.markEntryInvalid hs
  | BigvecDefinition b => exact counts_mBigvecs.markEntryInvalid hs
  | CheckpointSummary checkpoint => exact counts_mCheckpoints.markEntryInvalid hs
  | CheckpointFile checkpoint filename =>
    refine (wp_bind _ _).2 ?_
    exact (counts_mCheckpoints.markEntryInvalid hs).imp fun _ _ hs => counts_mCheckpointFiles.markEntryInvalid hs
  | _ => exact hs

/-- A cleared index has no bytes in the cache. -/
theorem counted_clearAllState_ (s : PersistentCacheIndex) : Counted s.clearAllState_ := by
  simp [Counted, recordedBytes, sumOfObjects, clearAllState_]

/-- A new view counts from nothing. -/
theorem counted_resetView (changed : List (PersistentCacheKey × Option ValueEntry)) :
    wp (resetView changed) (fun _ s' => Counted s') (fun _ s' => Counted s') s := by
  unfold resetView
  simp only [wp_bind, wp_get, wp_modify]
  refine (wp_forM (fun _ => Counted) (fun kv _ s hs => hs.handleKey_) changed
    (counted_clearAllState_ s)).imp fun _ s₁ h₁ => ?_
  refine (wp_forM (fun _ => Counted) (fun kv _ s hs => ?_) _ h₁).imp fun _ s₂ h₂ => ?_
  · simp only [wp_bind, wp_get, wp_ite]
    split
    · exact hs.handleKey_
    · exact hs
  refine (wp_forM (fun _ => Counted) (fun k _ s hs => hs.handleKey_) _ h₂).imp fun _ s₃ h₃ => ?_
  rw [wp_lassert]
  split <;> exact h₃

/-- No call breaks the counter. -/
theorem Counted.change (hs : Counted s) (c : Change) : Counted (s.change c) := by
  cases c with
  | setKeyValue key value => exact hs.handleKey_.exec
  | markObjectInvalid key => exact hs.markObjectInvalid.exec
  | resetView changed => exact (counted_resetView changed).exec
  | clearAllState_ => exact counted_clearAllState_ s

end

/-! ## Runs -/

/-- After every sequence of updates, overwrites, drops, invalidations and new views, and in the midst of a
new view, the counter is the sum of the bytes of the objects recorded, valid or not, up to the 64 bits it
has, and while that sum fits no update takes more off the counter than it has. -/
theorem always_counted (changes : List Change) : Always (total change) (fun s =>
    s.mTotalBytesInCache.toNat = s.recordedBytes % 2 ^ 64 ∧
      (s.recordedBytes < 2 ^ 64 → ∀ key, s.oldBytes key ≤ s.mTotalBytesInCache.toNat)) {} changes := by
  have h : Always (total change) Counted {} changes := by
    refine always (by simp [Counted, recordedBytes, sumOfObjects]) fun s c s' hs hc => ?_
    obtain rfl := total_eq_some.1 hc
    exact hs.change c
  exact h.mono fun s hs => ⟨hs.toNat_eq, hs.oldBytes_le⟩

/-- A page of eight bytes is recorded and marked invalid. Its bytes stay on the counter. -/
theorem not_always_validBytes : ¬ ∀ changes, Always (total change)
    (fun s => s.mTotalBytesInCache.toNat = s.validBytes) {} changes := by
  intro h
  have := (h [.setKeyValue (.Page 0) (some (.Valid ∅ 8 0 0 false 0 ∅)), .markObjectInvalid (.Page 0)]).last rfl
  revert this
  decide

end Cumulus.PersistentCacheIndex
