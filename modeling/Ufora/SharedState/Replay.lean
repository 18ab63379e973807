import Ufora.SharedState.Compaction

/-!
# Replaying a log

A cache that loads a log makes of it what the compressor makes, as long as it erases no state that is
not a deleted one (`Follows.forM`): the states of the keys have the same events and the same base
value. Only the id of a base value may be forgotten with a deleted state.
-/

open Ordered Effect Run Finmap Option StdMap SharedState.BaseKeyType SharedState.TakeHighestIdKeyType
  SharedState.KeyspaceStorage SharedState.KeyState

namespace SharedState

variable {Json : Type} [LinearOrder Json]

/-! ## States that forget the id of their base value -/

namespace KeyState

/-- The same state, but for the id of the base value, which may be forgotten. -/
structure Forgets (s s' : KeyState Json) : Prop where
  events : s.events = s'.events
  baseValue : s.baseValue = s'.baseValue
  baseValueID : ∀ id ∈ s.baseValueID, s'.baseValueID = some id

variable {s s' : KeyState Json} {t : KeyType}

omit [LinearOrder Json] in
theorem Forgets.refl (s : KeyState Json) : s.Forgets s := ⟨rfl, rfl, fun _ => id⟩

omit [LinearOrder Json] in
/-- A deleted state has nothing but the id. -/
theorem forgets_default (h : s.wasDeleted) : Forgets default s := by
  refine ⟨ext_lookup fun id => ?_, h.2.symm, nofun⟩
  show lookup id ∅ = _
  rw [lookup_empty, eq_comm, lookup_eq_none, ← mem_keys, h.1]
  exact Finset.notMem_empty id

theorem Forgets.computeValueForKeyState (h : s.Forgets s') :
    t.computeValueForKeyState s = t.computeValueForKeyState s' := by
  cases t with
  | comparisonKeyType =>
    simp only [KeyType.computeValueForKeyState, BaseKeyType.computeValueForKeyState, h.events, h.baseValue]
  | takeHighestIdKeyType =>
    simp only [KeyType.computeValueForKeyState, TakeHighestIdKeyType.computeValueForKeyState,
      TakeHighestIdKeyType.lastEvent, h.events, h.baseValue]

theorem Forgets.compactKeyState (h : s.Forgets s') (upToId : UniqueId) :
    (t.compactKeyState s upToId).Forgets (t.compactKeyState s' upToId) := by
  cases t with
  | comparisonKeyType =>
    have hloop : ∀ (l : List UniqueId) (s s' : KeyState Json), s.Forgets s' →
        (l.foldl (compactFirst ComparisonKeyType.applyEventToValue) s).Forgets
          (l.foldl (compactFirst ComparisonKeyType.applyEventToValue) s') := by
      intro l
      induction l with
      | nil => exact fun _ _ => id
      | cons id l ih =>
        intro s s' h
        refine ih _ _ ?_
        unfold compactFirst
        rw [h.events, h.baseValue]
        split
        · exact Forgets.refl _
        · exact h
    show Forgets (compactKeyState _ _ _) (compactKeyState _ _ _)
    unfold BaseKeyType.compactKeyState
    rw [h.events]
    exact hloop _ _ _ h
  | takeHighestIdKeyType =>
    have hlast : lastEvent s = lastEvent s' := by
      unfold lastEvent
      rw [h.events]
    have hvalue : TakeHighestIdKeyType.computeValueForKeyState s = TakeHighestIdKeyType.computeValueForKeyState s' :=
      h.computeValueForKeyState (t := .takeHighestIdKeyType)
    show Forgets (compactKeyState _ _) (compactKeyState _ _)
    unfold TakeHighestIdKeyType.compactKeyState
    rw [hlast, hvalue]
    split
    · exact h
    · split
      · split
        · exact Forgets.refl _
        · exact Forgets.refl _
      · exact h

omit [LinearOrder Json] in
theorem Forgets.wasDeleted (h : s.Forgets s') (hd : s.wasDeleted) : s'.wasDeleted :=
  ⟨h.events ▸ hd.1, h.baseValue ▸ hd.2⟩

omit [LinearOrder Json] in
theorem wasDeleted_default : (default : KeyState Json).wasDeleted := ⟨rfl, rfl⟩

/-- The state of a key that no event came for. -/
theorem compactKeyState_default (upToId : UniqueId) : t.compactKeyState (default : KeyState Json) upToId = default := by
  cases t with
  | comparisonKeyType => rfl
  | takeHighestIdKeyType => rfl

omit [LinearOrder Json] in
/-- An event that a state takes, one that forgets takes, too. -/
theorem Forgets.insertEventIntoKeyState (h : s.Forgets s') (event : PartialEvent Json) (dup : Bool) :
    wp (t.insertEventIntoKeyState event dup)
      (fun _ u' => wp (t.insertEventIntoKeyState event dup) (fun _ u => u.Forgets u') (fun _ _ => False) s)
      (fun _ _ => True) s' := by
  have hsame : ∀ u, wp (t.insertEventIntoKeyState event dup)
      (fun _ u' => wp (t.insertEventIntoKeyState event dup) (fun _ u => u.Forgets u') (fun _ _ => False) u)
      (fun _ _ => True) u := by
    intro u
    unfold wp
    split
    · exact Forgets.refl _
    · trivial
  obtain ⟨v, b, e⟩ := s
  obtain ⟨v', b', e'⟩ := s'
  obtain ⟨rfl, rfl, hid⟩ := h
  cases b with
  | some id =>
    obtain rfl := hid id rfl
    exact hsame _
  | none =>
    cases b' with
    | none => exact hsame _
    | some base =>
      cases t with
      | comparisonKeyType =>
        simp only [KeyType.insertEventIntoKeyState, BaseKeyType.insertEventIntoKeyState, wp_bind,
          wp_get, wp_lassert, wp_modify, wp_pure]
        split
        · split
          · exact ⟨rfl, rfl, by simp⟩
          · trivial
        · trivial
      | takeHighestIdKeyType =>
        simp only [KeyType.insertEventIntoKeyState, TakeHighestIdKeyType.insertEventIntoKeyState,
          wp_bind, wp_get, wp_lassert, wp_modify, wp_pure, wp_ite, TakeHighestIdKeyType.lastEvent]
        split
        · split
          · split <;> exact ⟨rfl, rfl, by simp⟩
          · trivial
        · trivial

end KeyState

/-! ## Caches that follow a compressor -/

namespace KeyspaceCache

variable (s : KeyspaceCache Json)

/-- What a new minimum id leaves of a key is deleted. -/
def CompactsToDeleted (id : ℕ) (name : Json) (key : Key Json) : Prop :=
  (s.mKeyspace.type.compactKeyState ((s.mKeyStates.get name).get key) ⟨id, 0⟩).wasDeleted
deriving Decidable

/-- A new minimum id erases no state but deleted ones: where it deletes a key, it deletes all keys with
the same name. -/
def ErasesOnlyDeleted (id : ℕ) : Prop :=
  ∀ name ∈ s.mKeyStates.keys, (∃ key ∈ (s.mKeyStates.get name).keys, s.CompactsToDeleted id name key) →
    ∀ key ∈ (s.mKeyStates.get name).keys, s.CompactsToDeleted id name key
deriving Decidable

/-- The turn of the loop of `loadFromDisk` over the log erases no state but deleted ones. -/
def ReplaysOnlyDeleted : LogEntry Json → Prop
  | .Event _ => True
  | .Id id => s.ErasesOnlyDeleted id

instance : ∀ entry, Decidable (s.ReplaysOnlyDeleted entry)
  | .Event _ => isTrue trivial
  | .Id id => inferInstanceAs (Decidable (s.ErasesOnlyDeleted id))

/-- The cache has for every key with a name in its dimension what the compressor has, but may have
forgotten a deleted state. -/
structure Follows (s : KeyspaceCache Json) (t : KeyType) (index : ℕ)
    (m : StdMap (Key Json) (KeyState Json)) : Prop where
  placed : s.Placed
  type : s.mKeyspace.type = t
  atIndex : s.mIndex = index
  state : ∀ key, (key.atDimension index).isSome → ((s.keyState key).getD default).Forgets (m.get key)

variable {s} {t : KeyType} {index : ℕ} {m : StdMap (Key Json) (KeyState Json)}

/-- What the cache shows is what the compressor has. -/
theorem Follows.value_eq (h : s.Follows t index m) (k : Key Json) :
    s.value k = if (k.atDimension index).isSome then
      shown (t.computeValueForKeyState (m.get k)) else none := by
  unfold value
  split
  · next hname =>
    rw [← (h.state k hname).computeValueForKeyState (t := t), h.type]
    cases s.keyState k with
    | none => cases t <;> rfl
    | some keyState => rfl
  · next hname =>
    rw [keyState, h.atIndex, not_isSome_iff_eq_none.1 hname]
    rfl

/-- The states after the state of one key is put in its place. -/
theorem keyState_insert {k : Key Json} {name : Json} (hn : k.atDimension s.mIndex = some name)
    (keyState : KeyState Json) (key' : Key Json) :
    { s with
      mKeyStates := insert name (insert k keyState (s.mKeyStates.get name)) s.mKeyStates }.keyState key' =
      if key' = k then some keyState else s.keyState key' := by
  unfold KeyspaceCache.keyState
  cases hn' : key'.atDimension s.mIndex with
  | none =>
    rw [if_neg fun he => by rw [he, hn] at hn'; cases hn']
    rfl
  | some name' =>
    simp only [bind_some, StdMap.lookup_insert]
    by_cases hname : name' = name
    · subst hname
      rw [if_pos rfl, bind_some, StdMap.lookup_insert]
      refine if_congr Iff.rfl rfl ?_
      unfold StdMap.get
      cases lookup name' s.mKeyStates with
      | none => exact lookup_empty key'
      | some states => rfl
    · rw [if_neg hname, if_neg fun he => ?_]
      rw [he, hn] at hn'
      exact hname (some.inj hn').symm

/-- The state that `operator[]` finds or makes for a key. -/
theorem get_get {k : Key Json} {name : Json} (hn : k.atDimension s.mIndex = some name) :
    (s.mKeyStates.get name).get k = (s.keyState k).getD default := by
  rw [keyState, hn, bind_some]
  unfold StdMap.get
  cases lookup name s.mKeyStates with
  | none => exact congrArg (getD · default) (lookup_empty k)
  | some states => rfl

/-- The state of a key whose name is erased is deleted. -/
theorem ErasesOnlyDeleted.wasDeleted {id : ℕ} (h : s.ErasesOnlyDeleted id) {k : Key Json}
    {keyState : KeyState Json} (he : s.Erased id k) (hk : s.keyState k = some keyState) :
    (s.mKeyspace.type.compactKeyState keyState ⟨id, 0⟩).wasDeleted := by
  have hplace : ∀ {k : Key Json} {keyState : KeyState Json}, s.keyState k = some keyState →
      ∃ name, k.atDimension s.mIndex = some name ∧ name ∈ s.mKeyStates.keys ∧
        k ∈ (s.mKeyStates.get name).keys ∧ (s.mKeyStates.get name).get k = keyState := by
    intro k keyState hk
    obtain ⟨name, hn, hs⟩ := bind_eq_some_iff.1 hk
    obtain ⟨states, hs, hk'⟩ := bind_eq_some_iff.1 hs
    have hget : s.mKeyStates.get name = states := by
      rw [StdMap.get, hs]
      rfl
    refine ⟨name, hn, mem_keys_iff.2 ⟨_, hs⟩, mem_keys_iff.2 ⟨keyState, hget ▸ hk'⟩, ?_⟩
    rw [get_get hn, hk, getD_some]
  obtain ⟨key', keyState', hk', hd, hsame⟩ := he
  obtain ⟨name', hn', hname', hkey', hget'⟩ := hplace hk'
  obtain ⟨name, hn, -, hkey, hget⟩ := hplace hk
  obtain rfl : name = name' := some.inj (hn.symm.trans (hsame.symm.trans hn'))
  have hall := h name hname' ⟨key', hkey', by rwa [CompactsToDeleted, hget']⟩ k hkey
  rwa [CompactsToDeleted, hget] at hall

/-- A state put in its place leaves every key under its own name. -/
theorem Placed.insert (h : s.Placed) {k : Key Json} {name : Json}
    (hn : k.atDimension s.mIndex = some name) (keyState : KeyState Json) :
    { s with
      mKeyStates := insert name (insert k keyState (s.mKeyStates.get name)) s.mKeyStates }.Placed := by
  intro name' states hs key' keyState' hk'
  rw [StdMap.lookup_insert] at hs
  split at hs
  · next he =>
    subst he
    rw [← some.inj hs, StdMap.lookup_insert] at hk'
    split at hk'
    · next he => exact he ▸ hn
    · unfold StdMap.get at hk'
      cases hl : lookup name' s.mKeyStates with
      | none =>
        rw [hl] at hk'
        cases hk'
      | some states' =>
        rw [hl] at hk'
        exact h name' states' hl key' keyState' hk'
  · exact h name' states hs key' keyState' hk'

/-- An event. -/
theorem Follows.loadEventInMemory (h : s.Follows t index m) (e : PartialEvent Json)
    (hname : (e.content.key.atDimension index).isSome) :
    wp (compressEntry t (.Event e))
      (fun _ m' => wp (loadEventInMemory e) (fun _ s' => s'.Follows t index m')
        (fun _ _ => False) s) (fun _ _ => True) m := by
  obtain ⟨name, hn⟩ := isSome_iff_exists.1 hname
  rw [← h.atIndex] at hn
  rw [compressEntry, wp_onPart, wp_bind]
  refine ((h.state _ hname).insertEventIntoKeyState e false).mono (fun _ keyState' hk => ?_) fun _ _ _ => trivial
  rw [wp_pure]
  unfold KeyspaceCache.loadEventInMemory
  rw [wp_bind, wp_keyDimensionValue, hn]
  show wp (_ >>= _) _ _ s
  rw [wp_bind, wp_get, wp_onPart, wp_bind, get_get hn, h.type]
  refine hk.imp fun _ keyState hforgets => ⟨h.placed.insert hn keyState, h.type, h.atIndex, ?_⟩
  intro key hkey
  rw [keyState_insert hn, get_insert]
  split
  · exact hforgets
  · exact h.state key hkey

/-- A new minimum id. -/
theorem Follows.compactMemory (h : s.Follows t index m) {id : ℕ} (hid : s.ErasesOnlyDeleted id) :
    wp (compactMemory id) (fun _ s' => s'.Follows t index
      (m.updateEach fun keyState => t.compactKeyState keyState ⟨id, 0⟩)) (fun _ _ => False) s := by
  refine (h.placed.compactMemory id).imp fun _ s' hs' => ?_
  obtain ⟨hplaced, hc, -⟩ := hs'
  refine ⟨hplaced, hc.keyspace ▸ h.type, hc.index.trans h.atIndex, fun key hkey => ?_⟩
  have hget : (m.updateEach fun keyState => t.compactKeyState keyState ⟨id, 0⟩).get key =
      t.compactKeyState (m.get key) ⟨id, 0⟩ := by
    rw [StdMap.get, lookup_updateEach, StdMap.get]
    cases lookup key m with
    | none => exact (compactKeyState_default _).symm
    | some keyState => rfl
  have hforgets := (h.state key hkey).compactKeyState (t := t) ⟨id, 0⟩
  rw [hget]
  by_cases he : s.Erased id key
  · rw [hc.erased key he]
    refine forgets_default (hforgets.wasDeleted ?_)
    cases hk : s.keyState key with
    | none =>
      rw [getD_none, compactKeyState_default]
      exact wasDeleted_default
    | some keyState => exact h.type ▸ hid.wasDeleted he hk
  · rw [hc.kept key he, h.type]
    cases hk : s.keyState key with
    | none =>
      rw [hk, getD_none, compactKeyState_default] at hforgets
      exact hforgets
    | some keyState =>
      rw [hk] at hforgets
      exact hforgets

/-- The log. -/
theorem Follows.forM {log : List (LogEntry Json)} (h : s.Follows t index m)
    (hname : ∀ event, .Event event ∈ log → (event.content.key.atDimension index).isSome)
    (hlog : EveryStep (fun s entry => returned (loadLogEntry entry) s) ReplaysOnlyDeleted s log) :
    wp (log.forM (compressEntry t))
      (fun _ m' => wp (log.forM loadLogEntry) (fun _ s' => s'.Follows t index m')
        (fun _ _ => False) s) (fun _ _ => True) m := by
  induction log generalizing s m with
  | nil => exact h
  | cons entry log ih =>
    rw [everyStep_cons] at hlog
    have hentry : wp (compressEntry t entry)
        (fun _ m' => wp (loadLogEntry entry) (fun _ s' => s'.Follows t index m')
          (fun _ _ => False) s) (fun _ _ => True) m := by
      cases entry with
      | Event event => exact h.loadEventInMemory event (hname event (.head _))
      | Id id =>
        rw [compressEntry, wp_modify]
        exact h.compactMemory hlog.1
    show wp (_ >>= fun _ => log.forM _) _ _ m
    rw [wp_bind]
    refine hentry.imp fun _ m' hm' => ?_
    cases hr : (loadLogEntry entry).run s with
    | error e s' => exact (hm'.of_error hr).elim
    | ok u s' =>
      have hret : returned (loadLogEntry entry) s = some s' := by
        unfold returned
        rw [show loadLogEntry entry s = .ok u s' from hr]
      refine (ih (hm'.of_ok hr) (fun event he => hname event (.tail _ he)) (hlog.2 s' hret)).imp fun _ m'' hm'' => ?_
      show wp (_ >>= fun _ => log.forM _) _ _ s
      rw [wp_bind, wp_of_ok hr]
      exact hm''

/-! ## Loading -/

/-- A cache in which the states of a state file are loaded, but not the log. -/
def loadedStates (keyspace : Keyspace Json) (index : ℕ) (store : KeyspaceStorage Json) : KeyspaceCache Json :=
  exec ((ascending store.state.keys).forM (loadKeyState store.state))
    (new keyspace index (some store))

/-- What a cache over the store shows for each key, unless loading it throws. -/
def replayed (keyspace : Keyspace Json) (index : ℕ) (store : KeyspaceStorage Json) :
    Option (Key Json → Option (Json × UniqueId)) :=
  (returned loadFromDisk (new keyspace index (some store))).map value

/-- Every key of the store has a name in the dimension of the cache. -/
def Named (index : ℕ) (store : KeyspaceStorage Json) : Prop :=
  (∀ key ∈ store.state.keys, (key.atDimension index).isSome) ∧
    ∀ event, .Event event ∈ store.log → (event.content.key.atDimension index).isSome

variable {store : KeyspaceStorage Json} {keyspace : Keyspace Json}

/-- Loading is loading the states and then the log. -/
theorem wp_loadFromDisk {Q : Unit → KeyspaceCache Json → Prop} {E : AssertionFailed Json → KeyspaceCache Json → Prop} :
    wp loadFromDisk Q E (new keyspace index (some store)) ↔
      wp ((ascending store.state.keys).forM (loadKeyState store.state)) (fun _ s₁ => wp (store.log.forM loadLogEntry)
          (fun _ s₂ => Q () { s₂ with mIsLoaded := true }) E s₁) E
        (new keyspace index (some store)) := by
  unfold loadFromDisk
  rw [wp_bind, wp_get, wp_bind, wp_get, wp_bind, wp_lassert, if_pos ⟨nofun, rfl⟩, wp_bind, wp_get]
  show wp (_ >>= fun _ => store.log.forM _ >>= _) _ _ _ ↔ _
  simp only [wp_bind, wp_modify]

/-- The states of a state file are loaded unless a key has no name. -/
theorem wp_loadStates (hname : ∀ key ∈ store.state.keys, (key.atDimension index).isSome) :
    wp ((ascending store.state.keys).forM (loadKeyState store.state))
      (fun _ s' => s'.Follows keyspace.type index store.state ∧ s'.mDataStore = some store)
      (fun _ _ => False) (new keyspace index (some store)) := by
  have hloop := wp_forM (E := fun _ _ => False) (f := loadKeyState store.state)
    (fun l s' => (∀ key ∈ l, key ∈ store.state.keys) ∧ s'.Placed ∧ s'.mKeyspace = keyspace ∧
      s'.mIndex = index ∧ s'.mDataStore = some store ∧ ∀ key, key ∉ l → (key.atDimension index).isSome →
        s'.keyState key = lookup key store.state)
    (fun key l s' hs' => ?_) (ascending store.state.keys) (s := new keyspace index (some store)) ?_
  · refine hloop.imp fun _ s' hs' => ?_
    obtain ⟨-, hplaced, hkeyspace, hindex, hstore, hstate⟩ := hs'
    refine ⟨⟨hplaced, congrArg _ hkeyspace, hindex, fun key hkey => ?_⟩, hstore⟩
    rw [hstate key List.not_mem_nil hkey]
    exact KeyState.Forgets.refl _
  · obtain ⟨hl, hplaced, hkeyspace, hindex, hstore, hstate⟩ := hs'
    rw [List.forall_mem_cons] at hl
    obtain ⟨name, hn⟩ := isSome_iff_exists.1 (hname key hl.1)
    rw [← hindex] at hn
    unfold loadKeyState
    rw [wp_bind, wp_keyDimensionValue, hn]
    refine ⟨hl.2, hplaced.insert hn _, hkeyspace, hindex, hstore, fun key' hkey' hsome => ?_⟩
    rw [keyState_insert hn]
    split
    · next he =>
      obtain ⟨keyState, hk⟩ := mem_keys_iff.1 hl.1
      rw [he, StdMap.get, hk]
      rfl
    · next he => exact hstate key' (by simp [he, hkey']) hsome
  · refine ⟨fun key => mem_ascending.1, by simp [Placed, new], rfl, rfl, rfl, fun key hkey _ => ?_⟩
    rw [mem_ascending, mem_keys, ← lookup_eq_none] at hkey
    rw [hkey]
    unfold keyState new
    cases key.atDimension index <;> rfl

theorem mIndex_compactMemory (minId : ℕ) (hs : s.mIndex = index) :
    wp (compactMemory minId) (fun _ s' => s'.mIndex = index) (fun _ _ => True) s := by
  unfold compactMemory
  rw [wp_bind, wp_get, wp_bind, wp_modify, wp_bind, wp_get]
  refine wp_forM (fun _ (s' : KeyspaceCache Json) => s'.mIndex = index) (fun key _ s' hs' => ?_) _ hs
  rw [wp_bind, wp_keyDimensionValue]
  split
  · exact hs'
  · trivial

/-- Loading succeeds only if every key has a name. -/
theorem named_of_returned {s' : KeyspaceCache Json}
    (h : returned loadFromDisk (new keyspace index (some store)) = some s') : Named index store := by
  have hload : wp loadFromDisk (fun _ _ => Named index store) (fun _ _ => True)
      (new keyspace index (some store)) := by
    rw [wp_loadFromDisk]
    have hstates := wp_forM_all (E := fun _ _ => True)
      (f := loadKeyState store.state) (P := fun key => (key.atDimension index).isSome)
      (J := fun s => s.mIndex = index) (fun key s hs => ?_) (ascending store.state.keys)
      (s := new keyspace index (some store)) rfl
    · refine hstates.imp fun _ s₁ hs₁ => ?_
      have hlog := wp_forM_all (E := fun _ _ => True) (f := loadLogEntry)
        (P := fun entry => ∀ event, entry = .Event event → (event.content.key.atDimension index).isSome)
        (J := fun s => s.mIndex = index) (fun entry s hs => ?_) store.log (s := s₁) hs₁.2
      · refine hlog.imp fun _ s₂ hs₂ => ?_
        exact ⟨fun key hk => hs₁.1 key (mem_ascending.2 hk), fun event he => hs₂.1 _ he event rfl⟩
      · cases entry with
        | Event event =>
          show wp (loadEventInMemory event) _ _ s
          unfold loadEventInMemory
          rw [wp_bind, wp_keyDimensionValue]
          split
          · next hn =>
            rw [wp_bind, wp_get, wp_onPart]
            refine wp_of_forall (fun _ _ => ⟨fun event' he => ?_, hs⟩) fun _ _ => trivial
            obtain rfl := LogEntry.Event.inj he
            rw [← hs, hn]
            rfl
          · trivial
        | Id minId =>
          exact (mIndex_compactMemory minId hs).imp fun _ s' hs' => ⟨by simp, hs'⟩
    · unfold loadKeyState
      rw [wp_bind, wp_keyDimensionValue]
      split
      · next hn =>
        refine ⟨?_, hs⟩
        rw [← hs, hn]
        rfl
      · trivial
  exact hload.returned h

/-- The compressor has a state for each key that has one in the store or that an event came for. -/
theorem wp_compress_keys (log : List (LogEntry Json)) (m : StdMap (Key Json) (KeyState Json)) :
    wp (log.forM (compressEntry t))
      (fun _ m' => ∀ key, key ∈ m'.keys ↔ key ∈ m.keys ∨ ∃ event, .Event event ∈ log ∧ event.content.key = key)
      (fun _ _ => True) m := by
  induction log generalizing m with
  | nil => exact fun key => by simp
  | cons entry log ih =>
    show wp (_ >>= fun _ => log.forM _) _ _ m
    rw [wp_bind]
    cases entry with
    | Event event =>
      rw [compressEntry, wp_onPart]
      refine wp_of_forall (fun _ keyState => ?_) fun _ _ => trivial
      refine (ih _).imp fun _ m' hm' key => ?_
      rw [hm', mem_keys, mem_insert, mem_keys]
      simp only [List.mem_cons, LogEntry.Event.injEq, or_and_right, exists_or, exists_eq_left, eq_comm (a := key)]
      tauto
    | Id minId =>
      rw [compressEntry, wp_modify]
      refine (ih _).imp fun _ m' hm' key => ?_
      rw [hm', mem_keys_iff, lookup_updateEach, mem_keys_iff]
      simp

variable {u : Unit} (hlog : EveryStep (fun s entry => returned (loadLogEntry entry) s) ReplaysOnlyDeleted
    (loadedStates keyspace index store) store.log)
  (hm : (store.log.forM (compressEntry keyspace.type)).run store.state = .ok u m)
include hlog hm

/-- What a cache over the store shows is what the compressor has. -/
theorem replayed_eq (hname : Named index store) : replayed keyspace index store = some fun key =>
    if (key.atDimension index).isSome then shown (keyspace.type.computeValueForKeyState (m.get key)) else none := by
  have hload : wp loadFromDisk (fun _ s' => s'.Follows keyspace.type index m) (fun _ _ => False)
      (new keyspace index (some store)) := by
    rw [wp_loadFromDisk]
    have hstates := @wp_loadStates _ _ _ _ keyspace hname.1
    cases hr : ((ascending store.state.keys).forM (loadKeyState store.state)).run
        (new keyspace index (some store)) with
    | error e s' => exact (hstates.of_error hr).elim
    | ok u s' =>
      have hs' : loadedStates keyspace index store = s' := by
        unfold loadedStates exec
        rw [show (ascending store.state.keys).forM (loadKeyState store.state)
          (new keyspace index (some store)) = .ok u s' from hr]
      rw [wp_of_ok hr]
      rw [hs'] at hlog
      refine (((hstates.of_ok hr).1.forM hname.2 hlog).of_ok hm).imp fun _ s'' h => ?_
      exact ⟨h.placed, h.type, h.atIndex, h.state⟩
  obtain ⟨s', hs', hf⟩ := hload.exists_returned
  rw [replayed, hs', map_some]
  exact congrArg some (funext hf.value_eq)

/-- A cache shows the same over a store and over what the compressor makes of it. -/
theorem replayed_compressed : replayed keyspace index { state := m } = replayed keyspace index store := by
  have hkeys := (wp_compress_keys store.log store.state).of_ok hm
  have hiff : Named index { state := m } ↔ Named index store := by
    constructor
    · exact fun h => ⟨fun key hk => h.1 key ((hkeys key).2 (.inl hk)),
        fun event he => h.1 _ ((hkeys _).2 (.inr ⟨event, he, rfl⟩))⟩
    · refine fun h => ⟨fun key hk => ?_, nofun⟩
      rcases (hkeys key).1 hk with hk | ⟨event, he, rfl⟩
      · exact h.1 key hk
      · exact h.2 event he
  by_cases hname : Named index store
  · rw [replayed_eq hlog hm hname, replayed_eq everyStep_nil (u := u) rfl (hiff.2 hname)]
  · have hnone : ∀ store, ¬ Named index store → replayed keyspace index store = none := by
      intro store hno
      rw [replayed, map_eq_none_iff, eq_none_iff_forall_ne_some]
      exact fun s' hs' => hno (named_of_returned hs')
    rw [hnone _ hname, hnone _ fun h => hname (hiff.1 h)]

end KeyspaceCache

end SharedState
