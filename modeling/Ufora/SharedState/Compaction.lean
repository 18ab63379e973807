import Ufora.Lib.Run
import Ufora.SharedState.KeyspaceCache

/-!
# Compaction and the values of keys

A new minimum id folds events into base values, which changes no value, and a key that is left with
no event and no base value is to be forgotten. But `compactMemory` erases everything under the name
of such a key, the states of other keys with that name among it. `KeepsSiblings` is the exact
condition under which no value changes (`always_neutral_iff`).
-/

open Ordered Effect Run List Finmap Option StdMap SharedState.KeyspaceCache SharedState.KeyspaceStorage

namespace SharedState.KeyspaceCache

variable {Json : Type} [LinearOrder Json]

/-! ## Values -/

variable (s : KeyspaceCache Json)

/-- The state that the cache has for a key. -/
def keyState (key : Key Json) : Option (KeyState Json) := (key.atDimension s.mIndex).bind fun name =>
    (lookup name s.mKeyStates).bind fun states => lookup key states

/-- The value that the cache shows for a key. -/
def value (key : Key Json) : Option (Json × UniqueId) :=
  (s.keyState key).bind fun keyState => shown (s.mKeyspace.type.computeValueForKeyState keyState)

/-- A new minimum id leaves every value alone. -/
def Neutral (minId : ℕ) (due : Bool) : Prop := ∀ key, (exec (newMinimumId minId due) s).value key = s.value key

/-- All events of a key are below the new minimum id, and the value they make is null. -/
def FoldsIntoNull (minId : ℕ) (key : Key Json) : Prop :=
  ∃ keyState ∈ s.keyState key, (∀ id ∈ keyState.events.keys, id < ⟨minId, 0⟩) ∧
    shown (s.mKeyspace.type.computeValueForKeyState keyState) = none

/-- No key whose events make a null value shares its name in the dimension of the cache with a key
that has a value. -/
def KeepsSiblings (minId : ℕ) : Prop :=
  ∀ key key', s.FoldsIntoNull minId key → key'.atDimension s.mIndex = key.atDimension s.mIndex → s.value key' = none

/-! ## What the calls keep -/

/-- Every key is under its own name. -/
def Placed : Prop := ∀ name states, lookup name s.mKeyStates = some states →
    ∀ key keyState, lookup key states = some keyState → key.atDimension s.mIndex = some name

/-- Every key is under its own name, and its state is well formed, in memory and in the store. -/
structure WellFormed (s : KeyspaceCache Json) : Prop where
  placed : ∀ name states, lookup name s.mKeyStates = some states → ∀ key keyState, lookup key states = some keyState →
      key.atDimension s.mIndex = some name ∧ keyState.WellFormed
  stored : ∀ store ∈ s.mDataStore, ∀ key keyState, lookup key store.state = some keyState → keyState.WellFormed

section
variable {s}

theorem WellFormed.names (h : s.WellFormed) : s.Placed :=
  fun name states hs key keyState hk => (h.placed name states hs key keyState hk).1

variable {key : Key Json}

/-- The state of a key is well formed. -/
theorem WellFormed.keyState (h : s.WellFormed) {keyState : KeyState Json}
    (hk : s.keyState key = some keyState) : keyState.WellFormed := by
  obtain ⟨name, -, hk⟩ := bind_eq_some_iff.1 hk
  obtain ⟨states, hs, hk⟩ := bind_eq_some_iff.1 hk
  exact (h.placed name states hs key keyState hk).2

theorem wellFormed_new (inKeyspace : Keyspace Json) (i : ℕ) (inStorage : Option (KeyspaceStorage Json))
    (h : ∀ store ∈ inStorage, ∀ key keyState, lookup key store.state = some keyState → keyState.WellFormed) :
    (new inKeyspace i inStorage).WellFormed :=
  ⟨nofun, h⟩

variable {states : StdMap (Key Json) (KeyState Json)}

/-- The state that `operator[]` finds or makes is well formed. -/
theorem wellFormed_get
    (h : ∀ key keyState, lookup key states = some keyState → keyState.WellFormed)
    (key : Key Json) : (states.get key).WellFormed := by
  unfold StdMap.get
  cases hk : lookup key states with
  | none => exact KeyState.wellFormed_default
  | some keyState => exact h key keyState hk

/-- Putting a well-formed state in its place. -/
theorem WellFormed.insert (h : s.WellFormed) {name : Json}
    {keyState : KeyState Json} (hn : key.atDimension s.mIndex = some name) (hk : keyState.WellFormed) :
    { s with
      mKeyStates := Finmap.insert name
        (Finmap.insert key keyState (s.mKeyStates.get name)) s.mKeyStates }.WellFormed := by
  refine ⟨fun name' states hs key' keyState' hk' => ?_, h.stored⟩
  rw [StdMap.lookup_insert] at hs
  split at hs
  · next he =>
    subst he
    rw [← some.inj hs, StdMap.lookup_insert] at hk'
    split at hk'
    · next he =>
      rw [he, ← some.inj hk']
      exact ⟨hn, hk⟩
    · unfold StdMap.get at hk'
      cases hl : lookup name' s.mKeyStates with
      | none =>
        rw [hl] at hk'
        cases hk'
      | some states' =>
        rw [hl] at hk'
        exact h.placed name' states' hl key' keyState' hk'
  · exact h.placed name' states hs key' keyState' hk'

theorem wp_keyDimensionValue {Q : Json → KeyspaceCache Json → Prop}
    {E : AssertionFailed Json → KeyspaceCache Json → Prop} :
    wp (keyDimensionValue key) Q E s ↔ match key.atDimension s.mIndex with
      | some name => Q name s
      | none => E (.invalidIndex s.mIndex key) s := by
  unfold keyDimensionValue
  rw [wp_bind, wp_get]
  cases key.atDimension s.mIndex <;> exact Iff.rfl

theorem WellFormed.loadEventInMemory (h : s.WellFormed) (e : PartialEvent Json) :
    wp (loadEventInMemory e) (fun _ => WellFormed) (fun _ => WellFormed) s := by
  unfold KeyspaceCache.loadEventInMemory
  rw [wp_bind, wp_keyDimensionValue]
  split
  · next name hn =>
    rw [wp_bind, wp_get, wp_onPart, wp_bind]
    have hget : ((s.mKeyStates.get name).get e.content.key).WellFormed := by
      refine wellFormed_get (fun key keyState hk => ?_) _
      unfold StdMap.get at hk
      cases hl : lookup name s.mKeyStates with
      | none =>
        rw [hl] at hk
        cases hk
      | some states =>
        rw [hl] at hk
        exact (h.placed name states hl key keyState hk).2
    exact (hget.insertEventIntoKeyState s.mKeyspace.type e false).mono
      (fun _ _ hk => h.insert hn hk) fun _ _ hk => h.insert hn hk
  · exact h

/-! ## Compaction -/

/-- A key that is erased in memory: some key with its name is deleted when compacted. -/
def Erased (s : KeyspaceCache Json) (id : ℕ) (key : Key Json) : Prop :=
  ∃ key' keyState, s.keyState key' = some keyState ∧ (s.mKeyspace.type.compactKeyState keyState ⟨id, 0⟩).wasDeleted ∧
    key'.atDimension s.mIndex = key.atDimension s.mIndex

/-- What compaction makes of the states: those of erased keys are gone, the others are compacted. -/
structure Compacted (s : KeyspaceCache Json) (id : ℕ) (s' : KeyspaceCache Json) : Prop where
  keyspace : s'.mKeyspace = s.mKeyspace
  index : s'.mIndex = s.mIndex
  erased : ∀ key, s.Erased id key → s'.keyState key = none
  kept : ∀ key, ¬ s.Erased id key → s'.keyState key =
    (s.keyState key).map fun keyState => s.mKeyspace.type.compactKeyState keyState ⟨id, 0⟩

/-- The loop that erases erases the names of the keys it lists. -/
theorem wp_forM_erase (l : List (Key Json)) (hl : ∀ key ∈ l, ∃ name, key.atDimension s.mIndex = some name) :
    wp (l.forM fun key => do
        let name ← keyDimensionValue key
        modify fun s : KeyspaceCache Json =>
          { s with mKeyStates := erase name s.mKeyStates })
      (fun _ s' => s' = { s with mKeyStates := s'.mKeyStates } ∧ ∀ name, lookup name s'.mKeyStates =
          if ∃ key ∈ l, key.atDimension s.mIndex = some name then none
          else lookup name s.mKeyStates)
      (fun _ _ => False) s := by
  induction l generalizing s with
  | nil => exact ⟨rfl, fun name => by simp⟩
  | cons key l ih =>
    rw [forall_mem_cons] at hl
    obtain ⟨⟨name, hn⟩, hl⟩ := hl
    change wp (_ >>= fun _ => l.forM _) _ _ s
    rw [wp_bind, wp_bind, wp_keyDimensionValue, hn]
    refine (ih (s := { s with mKeyStates := erase name s.mKeyStates }) hl).imp fun _ s' hs => ⟨hs.1, fun name' => ?_⟩
    rw [hs.2 name', StdMap.lookup_erase]
    simp only [exists_mem_cons_iff, hn, some.injEq]
    by_cases h1 : ∃ key ∈ l, key.atDimension s.mIndex = some name'
    · simp [h1]
    · by_cases h2 : name' = name
      · simp [h2]
      · simp [h1, h2, Ne.symm h2]

/-- The keys that `compactMemory` finds deleted. -/
theorem mem_deletedKeys : key ∈ s.deletedKeys ↔ ∃ name states keyState, lookup name s.mKeyStates = some states ∧
      lookup key states = some keyState ∧ keyState.wasDeleted := by
  unfold deletedKeys
  simp only [mem_flatMap, mem_filter, mem_ascending, decide_eq_true_eq]
  constructor
  · rintro ⟨name, hn, hk, hd⟩
    obtain ⟨states, hs⟩ := mem_keys_iff.1 hn
    obtain ⟨keyState, hks⟩ := mem_keys_iff.1 hk
    have hget : s.mKeyStates.get name = states := by rw [StdMap.get, hs]; rfl
    rw [hget] at hks hd
    refine ⟨name, states, keyState, hs, hks, ?_⟩
    rwa [StdMap.get, hks] at hd
  · rintro ⟨name, states, keyState, hs, hks, hd⟩
    have hget : s.mKeyStates.get name = states := by rw [StdMap.get, hs]; rfl
    refine ⟨name, mem_keys_iff.2 ⟨_, hs⟩, ?_⟩
    rw [hget, StdMap.get, hks]
    exact ⟨mem_keys_iff.2 ⟨_, hks⟩, hd⟩

/-- The states of the cache once each is compacted, before any is erased. -/
theorem lookup_compacted {f : KeyState Json → KeyState Json} {name : Json} :
    lookup name (s.mKeyStates.updateEach (updateEach f)) = some states ↔
      ∃ states', lookup name s.mKeyStates = some states' ∧ states = states'.updateEach f := by
  rw [lookup_updateEach, map_eq_some_iff]
  simp only [eq_comm]

/-- `compactMemory` does not throw, keeps every key under its own name and compacts the cache. -/
theorem Placed.compactMemory (h : s.Placed) (id : ℕ) : wp (compactMemory id)
      (fun _ s' => s'.Placed ∧ s.Compacted id s' ∧ s' = { s with mKeyStates := s'.mKeyStates })
      (fun _ _ => False) s := by
  unfold KeyspaceCache.compactMemory
  rw [wp_bind, wp_get, wp_bind, wp_modify, wp_bind, wp_get]
  set f : KeyState Json → KeyState Json := fun keyState => s.mKeyspace.type.compactKeyState keyState ⟨id, 0⟩ with hf
  set s₁ : KeyspaceCache Json := { s with mKeyStates := s.mKeyStates.updateEach (updateEach f) } with hs₁
  have hplaced : ∀ name states, lookup name s₁.mKeyStates = some states →
      ∀ key keyState, lookup key states = some keyState → key.atDimension s.mIndex = some name := by
    intro name states hstates key keyState hk
    obtain ⟨states', hs', rfl⟩ := lookup_compacted.1 hstates
    rw [lookup_updateEach] at hk
    obtain ⟨keyState', hk', rfl⟩ := map_eq_some_iff.1 hk
    exact h name states' hs' key keyState' hk'
  have hstate : ∀ key, s₁.keyState key = (s.keyState key).map f := by
    intro key
    unfold keyState
    rw [hs₁]
    cases key.atDimension s.mIndex with
    | none => rfl
    | some name =>
      simp only [bind_some, lookup_updateEach]
      cases lookup name s.mKeyStates with
      | none => rfl
      | some states => simp
  have herased : ∀ key name, key.atDimension s.mIndex = some name →
      ((∃ key' ∈ s₁.deletedKeys, key'.atDimension s₁.mIndex = some name) ↔ s.Erased id key) := by
    intro key name hkey
    constructor
    · rintro ⟨key', hd, hn⟩
      obtain ⟨name', states, keyState, hs, hk, hdel⟩ := mem_deletedKeys.1 hd
      have hname := hplaced name' states hs key' keyState hk
      have hks : s₁.keyState key' = some keyState := by
        change (key'.atDimension s.mIndex).bind _ = _
        rw [hname, bind_some, hs]
        exact hk
      rw [hstate] at hks
      obtain ⟨keyState', hks', rfl⟩ := map_eq_some_iff.1 hks
      exact ⟨key', keyState', hks', hdel, hn.trans hkey.symm⟩
    · rintro ⟨key', keyState, hks, hdel, hn⟩
      have hks₁ : s₁.keyState key' = some (f keyState) := by rw [hstate, hks]; rfl
      obtain ⟨name', hname, hs⟩ := bind_eq_some_iff.1 hks₁
      obtain ⟨states, hs, hk⟩ := bind_eq_some_iff.1 hs
      exact ⟨key', mem_deletedKeys.2 ⟨name', states, _, hs, hk, hdel⟩, hn.trans hkey⟩
  refine (wp_forM_erase _ fun key hd => ?_).imp fun _ s' hs' => ?_
  · obtain ⟨name, states, keyState, hs, hk, -⟩ := mem_deletedKeys.1 hd
    exact ⟨name, hplaced name states hs key keyState hk⟩
  · obtain ⟨heq, hlook⟩ := hs'
    have hindex : s'.mIndex = s.mIndex := by rw [heq]
    have hkeyState : ∀ key name, key.atDimension s.mIndex = some name → s'.keyState key =
        (if ∃ key' ∈ s₁.deletedKeys, key'.atDimension s₁.mIndex = some name then none
          else lookup name s₁.mKeyStates).bind fun states => lookup key states := by
      intro key name hkey
      rw [← hlook, keyState, hindex, hkey, bind_some]
    refine ⟨fun name states hs => ?_, ⟨?_, hindex, fun key he => ?_, fun key he => ?_⟩, heq⟩
    · rw [hlook] at hs
      rw [hindex]
      split at hs
      · cases hs
      · exact hplaced name states hs
    · rw [heq]
    · cases hkey : key.atDimension s.mIndex with
      | none => rw [keyState, hindex, hkey]; rfl
      | some name =>
        rw [hkeyState key name hkey, if_pos ((herased key name hkey).2 he)]
        rfl
    · rw [← hstate]
      cases hkey : key.atDimension s.mIndex with
      | none =>
        have hnone : s₁.keyState key = none := by
          change (key.atDimension s.mIndex).bind _ = _
          rw [hkey]
          rfl
        rw [hnone, keyState, hindex, hkey]
        rfl
      | some name =>
        rw [hkeyState key name hkey, if_neg fun hd => he ((herased key name hkey).1 hd)]
        change _ = (key.atDimension s.mIndex).bind _
        rw [hkey]
        rfl

/-- `compactMemory` keeps the cache well formed. -/
theorem WellFormed.compactMemory (h : s.WellFormed) (id : ℕ) :
    wp (compactMemory id) (fun _ s' => s'.WellFormed ∧ s.Compacted id s') (fun _ _ => False) s := by
  refine (h.names.compactMemory id).imp fun _ s' hs' => ⟨⟨?_, ?_⟩, hs'.2.1⟩
  · intro name states hs key keyState hk
    have hname := hs'.1 name states hs key keyState hk
    refine ⟨hname, ?_⟩
    have hstate : s'.keyState key = some keyState := by
      rw [KeyspaceCache.keyState, hname, bind_some, hs]
      exact hk
    by_cases he : s.Erased id key
    · rw [hs'.2.1.erased key he] at hstate
      cases hstate
    · rw [hs'.2.1.kept key he] at hstate
      obtain ⟨keyState', hk', rfl⟩ := map_eq_some_iff.1 hstate
      exact KeyType.wellFormed_compactKeyState _ (h.keyState hk')
  · rw [hs'.2.2]
    exact h.stored

/-! ## The store -/

/-- Compressing the store keeps its states well formed. -/
theorem wp_compress {store : KeyspaceStorage Json}
    (h : ∀ key keyState, lookup key store.state = some keyState → keyState.WellFormed) (t : KeyType) (due : Bool) :
    wp (compress t due)
      (fun _ store' => ∀ key keyState, lookup key store'.state = some keyState → keyState.WellFormed)
      (fun _ store' => ∀ key keyState, lookup key store'.state = some keyState → keyState.WellFormed) store := by
  unfold compress
  rw [wp_ite]
  split
  · rw [wp_bind, wp_get]
    have hloop := wp_forM (E := fun (_ : AssertionFailed Json) _ => True) (f := compressEntry t)
      (fun _ (states : StdMap (Key Json) (KeyState Json)) =>
        ∀ key keyState, lookup key states = some keyState → keyState.WellFormed)
      (fun entry _ states hs => ?_) store.log h
    · unfold wp at hloop
      unfold EStateM.run
      split at hloop
      · next hrun => rw [hrun]; exact hloop
      · next hrun => rw [hrun]; exact h
    · cases entry with
      | Event e =>
        rw [compressEntry, wp_onPart, wp_bind]
        refine ((wellFormed_get hs e.content.key).insertEventIntoKeyState t e false).mono
          (fun _ keyState hk key keyState' hk' => ?_) fun _ _ _ => trivial
        rw [StdMap.lookup_insert] at hk'
        split at hk'
        · exact some.inj hk' ▸ hk
        · exact hs key keyState' hk'
      | Id id =>
        rw [compressEntry, wp_modify]
        intro key keyState hk
        rw [lookup_updateEach] at hk
        obtain ⟨keyState', hk', rfl⟩ := map_eq_some_iff.1 hk
        exact KeyType.wellFormed_compactKeyState t (hs key keyState' hk')
  · exact h

/-- Only the store differs. -/
structure SameMemory (s s' : KeyspaceCache Json) : Prop where
  keyspace : s'.mKeyspace = s.mKeyspace
  index : s'.mIndex = s.mIndex
  keyStates : s'.mKeyStates = s.mKeyStates

theorem SameMemory.trans {s s' s'' : KeyspaceCache Json} (h : SameMemory s s')
    (h' : SameMemory s' s'') : SameMemory s s'' :=
  ⟨h'.keyspace.trans h.keyspace, h'.index.trans h.index, h'.keyStates.trans h.keyStates⟩

/-- A call on the store that keeps its states well formed keeps the cache so. -/
theorem WellFormed.onDataStore (h : s.WellFormed) {x : EStateM (AssertionFailed Json) (KeyspaceStorage Json) Unit}
    (hx : ∀ store : KeyspaceStorage Json,
      (∀ key keyState, lookup key store.state = some keyState → keyState.WellFormed) →
      wp x (fun _ store' => ∀ key keyState, lookup key store'.state = some keyState → keyState.WellFormed)
        (fun _ store' => ∀ key keyState, lookup key store'.state = some keyState → keyState.WellFormed) store) :
    wp (onDataStore x) (fun _ s' => s'.WellFormed ∧ s.SameMemory s')
      (fun _ s' => s'.WellFormed ∧ s.SameMemory s') s := by
  unfold KeyspaceCache.onDataStore
  rw [wp_bind, wp_get]
  cases hstore : s.mDataStore with
  | none => exact ⟨h, rfl, rfl, rfl⟩
  | some store =>
    rw [wp_onPart]
    have hkeep : ∀ store' : KeyspaceStorage Json,
        (∀ key keyState, lookup key store'.state = some keyState → keyState.WellFormed) →
        { s with mDataStore := some store' }.WellFormed ∧ s.SameMemory { s with mDataStore := some store' } :=
      fun store' hs => ⟨⟨h.placed, fun _ he => some.inj he ▸ hs⟩, rfl, rfl, rfl⟩
    exact (hx store (h.stored store hstore)).mono (fun _ store' hs => hkeep store' hs)
      fun _ store' hs => hkeep store' hs

/-! ## The calls -/

/-- `newMinimumId` compacts the memory, and the rest of it is about the store. -/
theorem WellFormed.newMinimumId (h : s.WellFormed) (minId : ℕ) (due : Bool) : wp (newMinimumId minId due)
      (fun _ s' => s'.WellFormed ∧ ∃ s₁, s.Compacted minId s₁ ∧ s₁.SameMemory s')
      (fun _ s' => s'.WellFormed ∧ ∃ s₁, s.Compacted minId s₁ ∧ s₁.SameMemory s') s := by
  unfold KeyspaceCache.newMinimumId
  rw [wp_bind]
  refine (h.compactMemory minId).mono (fun _ s₁ hs₁ => ?_) fun _ _ he => he.elim
  rw [wp_bind, wp_get, wp_bind]
  refine (hs₁.1.onDataStore fun store hs => ?_).mono (fun _ s₂ hs₂ => ?_) fun _ s₂ hs₂ => ⟨hs₂.1, s₁, hs₁.2, hs₂.2⟩
  · exact hs
  · exact (hs₂.1.onDataStore fun store hs => wp_compress hs _ due).mono
      (fun _ s₃ hs₃ => ⟨hs₃.1, s₁, hs₁.2, hs₂.2.trans hs₃.2⟩)
      fun _ s₃ hs₃ => ⟨hs₃.1, s₁, hs₁.2, hs₂.2.trans hs₃.2⟩

theorem WellFormed.loadFromDisk (h : s.WellFormed) : wp loadFromDisk (fun _ => WellFormed) (fun _ => WellFormed) s := by
  unfold KeyspaceCache.loadFromDisk
  rw [wp_bind, wp_get, wp_bind, wp_get, wp_bind, wp_lassert]
  split
  · rw [wp_bind, wp_get]
    cases hstore : s.mDataStore with
    | none => exact ⟨h.placed, h.stored⟩
    | some store =>
      rw [wp_bind]
      have hstates := wp_forM (E := fun _ => WellFormed) (f := loadKeyState store.state)
        (fun l s' => s'.WellFormed ∧ ∀ key ∈ l, key ∈ store.state.keys)
        (fun key l s' hs' => ?_) (ascending store.state.keys) (s := s) ⟨h, by simp⟩
      · refine hstates.imp fun _ s' hs' => ?_
        rw [wp_bind]
        have hlog := wp_forM (E := fun _ => WellFormed)
          (f := loadLogEntry) (fun _ => WellFormed) (fun entry _ s' hs' => ?_) store.log hs'.1
        · exact hlog.imp fun _ _ hs => ⟨hs.placed, hs.stored⟩
        · cases entry with
          | Event event => exact hs'.loadEventInMemory event
          | Id id => exact (hs'.compactMemory id).mono (fun _ _ h => h.1) fun _ _ he => he.elim
      · obtain ⟨hwf, hl⟩ := hs'
        rw [forall_mem_cons] at hl
        unfold loadKeyState
        rw [wp_bind, wp_keyDimensionValue]
        split
        · next name hn =>
          exact ⟨hwf.insert hn (wellFormed_get (h.stored store hstore) key), hl.2⟩
        · exact hwf
  · exact h

/-- Every call keeps the cache well formed. -/
theorem WellFormed.step (h : s.WellFormed) (op : Op Json) : (step s op).WellFormed := by
  cases op with
  | addEvent event =>
    refine wp.exec ?_
    have hstore : ∀ s' : KeyspaceCache Json, s'.WellFormed →
        wp (KeyspaceCache.onDataStore (KeyspaceStorage.writeLogEntry (.Event event)))
          (fun _ => WellFormed) (fun _ => WellFormed) s' := by
      intro s' hs'
      refine (hs'.onDataStore ?_).mono (fun _ _ h => h.1) fun _ _ h => h.1
      exact fun store hs => hs
    unfold addEvent
    rw [wp_bind, wp_get]
    split
    · rw [wp_bind]
      exact (h.loadEventInMemory event).imp fun _ s' hs' => hstore s' hs'
    · exact hstore s h
  | newMinimumId minId due =>
    exact wp.exec ((h.newMinimumId minId due).mono (fun _ _ h => h.1) fun _ _ h => h.1)
  | visitRangeContents =>
    refine wp.exec ?_
    unfold visitRangeContents
    rw [wp_bind, wp_get, wp_ite, wp_pure]
    split
    · exact h.loadFromDisk
    · exact h
  | restart => exact wellFormed_new _ _ _ h.stored

/-- A new minimum id leaves the values alone exactly when no key that it deletes has a sibling with
a value. -/
theorem WellFormed.neutral_iff (h : s.WellFormed) (minId : ℕ) (due : Bool) :
    s.Neutral minId due ↔ s.KeepsSiblings minId := by
  obtain ⟨s₁, hc, hm⟩ : ∃ s₁, s.Compacted minId s₁ ∧ s₁.SameMemory (exec (KeyspaceCache.newMinimumId minId due) s) :=
    wp.exec (P := fun s' => ∃ s₁, s.Compacted minId s₁ ∧ s₁.SameMemory s')
      ((h.newMinimumId minId due).mono (fun _ _ h => h.2) fun _ _ h => h.2)
  have hvalue : ∀ key, (exec (KeyspaceCache.newMinimumId minId due) s).value key =
      (s₁.keyState key).bind fun keyState =>
        shown (s.mKeyspace.type.computeValueForKeyState keyState) := by
    intro key
    unfold KeyspaceCache.value KeyspaceCache.keyState
    rw [hm.keyspace, hm.index, hm.keyStates, hc.keyspace]
  have herased : ∀ key, s.Erased minId key ↔ ∃ key', s.FoldsIntoNull minId key' ∧
      key.atDimension s.mIndex = key'.atDimension s.mIndex := by
    intro key
    refine exists_congr fun key' => ⟨?_, ?_⟩
    · rintro ⟨keyState, hk, hd, hn⟩
      exact ⟨⟨keyState, hk, (KeyType.wasDeleted_compactKeyState_iff _ (h.keyState hk)).1 hd⟩, hn.symm⟩
    · rintro ⟨⟨keyState, hk, hd⟩, hn⟩
      exact ⟨keyState, hk, (KeyType.wasDeleted_compactKeyState_iff _ (h.keyState hk)).2 hd, hn.symm⟩
  constructor
  · intro hn key key' hkey hsame
    rw [← hn key', hvalue, hc.erased key' ((herased key').2 ⟨key, hkey, hsame⟩)]
    rfl
  · intro hk key
    rw [hvalue]
    by_cases he : s.Erased minId key
    · obtain ⟨key', hkey', hsame⟩ := (herased key).1 he
      rw [hc.erased key he, hk key' key hkey' hsame]
      rfl
    · rw [hc.kept key he]
      unfold KeyspaceCache.value
      cases hks : s.keyState key with
      | none => rfl
      | some keyState => exact KeyType.shown_computeValueForKeyState_compact _ (h.keyState hks)

end

/-! ## Runs -/

/-- In every cache that a run of calls reaches, over a store that starts empty or without one, a new
minimum id leaves every value alone exactly when no key whose events make a null value, all of them
below the id, shares its name in the dimension of the cache with a key that has a value. -/
theorem always_neutral_iff (inKeyspace : Keyspace Json) (index : ℕ) (hasStore : Bool) (ops : List (Op Json)) :
    Always (Run.total step) (fun s => ∀ minId due, s.Neutral minId due ↔ s.KeepsSiblings minId)
      (new inKeyspace index (if hasStore then some {} else none)) ops := by
  refine (always (P := WellFormed) (wellFormed_new _ _ _ fun store hs key keyState hk => ?_)
    fun s op s' h he => ?_).mono fun s h => h.neutral_iff
  · split at hs
    · rw [← some.inj hs] at hk
      cases hk
    · cases hs
  · rw [← total_eq_some.1 he]
    exact h.step op

/-- In every run, a cache keeps each key under its name in the dimension, with a state that is well formed. -/
theorem always_wellFormed (inKeyspace : Keyspace Json) (index : ℕ) (hasStore : Bool) (ops : List (Op Json)) :
    Always (Run.total step) WellFormed (new inKeyspace index (if hasStore then some {} else none)) ops := by
  refine always (wellFormed_new _ _ _ fun store hs key keyState hk => ?_) fun _ op _ h he =>
    total_eq_some.1 he ▸ h.step op
  cases hasStore <;> cases hs
  cases hk

/-- In a keyspace with two dimensions a key whose value became null takes a key with the same first
name with it. -/
theorem not_always_neutral : ¬ Always (Run.total step) (fun s => ∀ minId due, s.Neutral minId due)
      (new ⟨.comparisonKeyType, 0, 2⟩ 0 none : KeyspaceCache ℕ)
      [.addEvent ⟨⟨⟨⟨.comparisonKeyType, 0, 2⟩, [1, 1], rfl⟩, none⟩, ⟨0, 1⟩⟩,
        .addEvent ⟨⟨⟨⟨.comparisonKeyType, 0, 2⟩, [1, 2], rfl⟩, some 5⟩, ⟨1, 1⟩⟩] := by
  intro h
  have := h.last rfl 3 false ⟨⟨.comparisonKeyType, 0, 2⟩, [1, 2], rfl⟩
  revert this
  decide

end SharedState.KeyspaceCache
