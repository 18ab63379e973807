import Ufora.SharedState.Replay
import Ufora.SharedState.Storage.Recovery

/-!
# `compress`

`compress` writes what the compressor makes of the stored state and the log. A cache shows the same over
the files before and after, as long as replaying the log erases no state that is not a deleted one
(`always_preservesMeaning`).
-/

open Ordered Effect Records Run Finmap Option SharedState.KeyspaceCache

namespace SharedState.FileKeyspaceStorage

variable {Json : Type} [LinearOrder Json] {S D : Type}

variable (o : OpenSerializers Json S D) (s : FileKeyspaceStorage Json S)

/-- What `readState` returns. -/
def stored : KeyspaceStorage Json where
  state := (readState o s).1
  log := (readState o s).2

/-- A cache shows the same for each key before and after `compress`. -/
def PreservesMeaning (keyspace : Keyspace Json) (index : ℕ) (due : Bool) : Prop :=
  replayed keyspace index (stored o (s.step o (.compress due))) =
    replayed keyspace index (stored o s)

/-- A cache that replays the log erases no state that is not a deleted one. -/
def ReplaysOnlyDeleted (s : FileKeyspaceStorage Json S) (keyspace : Keyspace Json) (index : ℕ) : Prop :=
  EveryStep (fun s entry => returned (loadLogEntry entry) s)
    KeyspaceCache.ReplaysOnlyDeleted (KeyspaceCache.loadedStates keyspace index (stored o s))
    (stored o s).log

instance (keyspace : Keyspace Json) (index : ℕ) : Decidable (s.ReplaysOnlyDeleted o keyspace index) :=
  inferInstanceAs (Decidable (EveryStep _ _ _ _))

/-- No log file comes after the current one. -/
def Logged : Prop := ∀ i ∈ s.logFiles.keys, i ≤ s.mCurrentIteration

variable {o} {InStep : S → D → Prop} {s}

theorem Logged.step (h : s.Logged) (op : Op Json) : (s.step o op).Logged := by
  cases op with
  | writeLogEntry entry =>
    refine wp.exec (P := Logged) ((wp_writeLogEntry s entry).mono (fun _ s' hs' => ?_) fun _ s' hs' => ?_)
    · obtain ⟨serializer, serialized, -, rfl⟩ := hs'
      intro i hi
      rw [mem_keys, append, mem_insert, ← mem_keys] at hi
      exact hi.elim le_of_eq (h i)
    · exact hs' ▸ h
  | writeStateExternal state =>
    refine wp.exec (P := Logged) ((wp_writeStateExternal s state).mono (fun _ s' hs' => ?_) fun _ s' hs' => ?_)
    · obtain ⟨-, serialized, -, rfl⟩ := hs'
      exact fun i hi => (h i hi).trans (Nat.le_succ _)
    · exact hs' ▸ h
  | compress due =>
    refine wp.exec (P := Logged) ((wp_compress s due).mono (fun _ s' hs' => ?_) fun _ s' hs' => ?_)
    · split at hs'
      · obtain ⟨-, newState, serialized, -, -, rfl⟩ := hs'
        exact fun i hi => (h i hi).trans (Nat.le_succ _)
      · exact hs' ▸ h
    · exact hs' ▸ h
  | crash p => exact fun i hi => (lt_of_lt_of_le (lt_next hi) (le_max_left _ _)).le

/-- After `compress` has written a state, that state is stored, without a log. -/
theorem Logged.stored_write (ho : o.Lawful InStep) (h : s.Logged)
    (hlt : ∀ i ∈ s.stateFiles.keys, i < s.mCurrentIteration)
    {state : StdMap (Key Json) (KeyState Json)} {serialized : List UInt8}
    (hs : o.serializeState state = some serialized) :
    stored o { s with
      mCurrentIteration := s.mCurrentIteration + 1
      mSerializers := erase s.mCurrentIteration s.mSerializers
      stateFiles := append s.stateFiles s.mCurrentIteration serialized } = { state := state } := by
  unfold stored readState
  rw [loadLatestValidStatefile_append ho hlt hs]
  have hlog : loadLogEntriesAfterIter o s.logFiles (some s.mCurrentIteration) = [] := by
    unfold loadLogEntriesAfterIter
    rw [List.filter_eq_nil_iff.2 fun i hi => ?_, List.flatMap_nil]
    have hle := h i (mem_ascending.1 hi)
    simpa using hle
  exact congrArg (KeyspaceStorage.mk state) hlog

/-- `compress` preserves the meaning of what is stored unless replaying the log erases a state that is
not a deleted one. -/
theorem Logged.preservesMeaning (ho : o.Lawful InStep) (h : s.Logged) {keyspace : Keyspace Json}
    (htype : keyspace.type = s.mKeyType) {i : ℕ} (hr : s.ReplaysOnlyDeleted o keyspace i)
    (due : Bool) : s.PreservesMeaning o keyspace i due := by
  refine wp.exec (P := fun s' => replayed keyspace i (stored o s') = _)
    ((wp_compress s due).mono (fun _ s' hs' => ?_) fun _ s' hs' => by rw [hs'])
  split at hs'
  · obtain ⟨hlt, newState, serialized, hc, hs, rfl⟩ := hs'
    rw [h.stored_write ho hlt hs]
    unfold compressKeyStates at hc
    split at hc
    · next hm =>
      obtain rfl := Except.ok.inj hc
      exact KeyspaceCache.replayed_compressed hr (htype ▸ hm)
    · cases hc
  · rw [hs']

/-! ## Runs -/

/-- In every state of a storage, whatever files it was made over, `compress` preserves the meaning of
what is stored unless replaying the log erases a state that is not a deleted one. -/
theorem always_preservesMeaning (ho : o.Lawful InStep) (type : KeyType)
    (logFiles stateFiles : StdMap ℕ (List UInt8)) (ops : List (Op Json)) :
    Always (total (step o))
      (fun s => ∀ name dimension index due, s.ReplaysOnlyDeleted o ⟨s.mKeyType, name, dimension⟩ index →
          s.PreservesMeaning o ⟨s.mKeyType, name, dimension⟩ index due)
      (new S type logFiles stateFiles) ops := by
  have hnew : (new S type logFiles stateFiles : FileKeyspaceStorage Json S).Logged :=
    fun i hi => (lt_of_lt_of_le (lt_next hi) (le_max_left _ _)).le
  refine (always (P := Logged) hnew fun s op s' h he => ?_).mono
    fun s h name dimension index due hr => h.preservesMeaning ho rfl hr due
  rw [← total_eq_some.1 he]
  exact h.step op

instance : DecidableEq (ValueType Json) := fun a b =>
  decidable_of_iff (a.value = b.value ∧ a.id = b.id) (by cases a; cases b; simp)

instance : DecidableEq (KeyUpdate Json) := fun a b =>
  decidable_of_iff (a.key = b.key ∧ a.update = b.update) (by cases a; cases b; simp)

instance : DecidableEq (PartialEvent Json) := fun a b =>
  decidable_of_iff (a.content = b.content ∧ a.id = b.id) (by cases a; cases b; simp)

instance : DecidableEq (KeyState Json) := fun a b =>
  decidable_of_iff (a.baseValue = b.baseValue ∧ a.baseValueID = b.baseValueID ∧ a.events = b.events)
    (by cases a; cases b; simp)

instance : DecidableEq (LogEntry Json)
  | .Event e, .Event e' => decidable_of_iff (e = e') (by simp)
  | .Id id, .Id id' => decidable_of_iff (id = id') (by simp)
  | .Event _, .Id _ => isFalse nofun
  | .Id _, .Event _ => isFalse nofun

/-- A stream that writes where entries stand in a table. -/
def tableSerializers
    (entries : List (LogEntry Json)) (states : List (StdMap (Key Json) (KeyState Json))) :
    OpenSerializers Json Unit Unit where
  newSerializer := ()
  serializeLogEntry _ entry :=
    (entries.idxOf? entry).bind fun n => if n < 2 ^ 64 then some ((), littleEndian 8 n) else none
  newDeserializer := ()
  deserializeLogEntry _ element := entries[ofLittleEndian element]?.map fun entry => ((), entry)
  serializeState state := (states.idxOf? state).bind fun n => if n < 2 ^ 64 then some (littleEndian 8 n) else none
  deserializeState element := states[ofLittleEndian element]?

theorem getElem?_of_idxOf? {α : Type} [DecidableEq α] {l : List α} {a : α} {n : ℕ}
    (h : l.idxOf? a = some n) : l[n]? = some a := by
  obtain ⟨hlt, heq, -⟩ := List.findIdx?_eq_some_iff_getElem.1 h
  rw [List.getElem?_eq_getElem hlt, eq_of_beq heq]

theorem lawful_tableSerializers (entries : List (LogEntry Json)) (states : List (StdMap (Key Json) (KeyState Json))) :
    (tableSerializers entries states).Lawful fun _ _ => True := by
  have hwrite : ∀ {α β : Type} [DecidableEq α] (l : List α) (a : α) (f : List UInt8 → β) (b : β),
      ((l.idxOf? a).bind fun n => if n < 2 ^ 64 then some (f (littleEndian 8 n)) else none) =
        some b → ∃ str, b = f str ∧ str.length = 8 ∧ l[ofLittleEndian str]? = some a := by
    intro α β _ l a f b h
    obtain ⟨n, hn, h⟩ := bind_eq_some_iff.1 h
    split at h
    · next hlt =>
      refine ⟨_, (some.inj h).symm, length_littleEndian 8 n, ?_⟩
      rw [ofLittleEndian_littleEndian hlt]
      exact getElem?_of_idxOf? hn
    · cases h
  have hsize : ∀ str : List UInt8, str.length = 8 → str.length < 2 ^ 64 := by
    intro str h
    rw [h]
    decide
  refine ⟨trivial, fun s d entry s' str _ h => ?_, fun s entry s' str h => ?_, fun m str h => ?_, fun m str h => ?_⟩
  · obtain ⟨str', he, -, hget⟩ := hwrite entries entry (Prod.mk ()) _ h
    obtain ⟨-, rfl⟩ := Prod.mk.inj he
    exact ⟨(), congrArg (Option.map _) hget, trivial⟩
  · obtain ⟨str', he, hlen, -⟩ := hwrite entries entry (Prod.mk ()) _ h
    obtain ⟨-, rfl⟩ := Prod.mk.inj he
    exact hsize _ hlen
  · obtain ⟨str', rfl, -, hget⟩ := hwrite states m id _ h
    exact hget
  · obtain ⟨str', rfl, hlen, -⟩ := hwrite states m id _ h
    exact hsize _ hlen

/-- A key of a keyspace of two dimensions. -/
def pair (a b : ℕ) : Key ℕ := ⟨⟨.comparisonKeyType, 0, 2⟩, [a, b], rfl⟩

variable (key : Key ℕ) (key' : Key ℕ)

/-- A key becomes null, another one five, and both events are folded. -/
def nullAndFive : List (LogEntry ℕ) := [.Event ⟨⟨key, none⟩, ⟨0, 1⟩⟩, .Event ⟨⟨key', some 5⟩, ⟨1, 1⟩⟩, .Id 3]

/-- What the compressor makes of that. -/
def nullAndFiveState : StdMap (Key ℕ) (KeyState ℕ) := Finmap.insert key { baseValueID := some ⟨0, 1⟩ }
    (Finmap.insert key' { baseValue := some ⟨some 5, ⟨1, 1⟩⟩, baseValueID := some ⟨1, 1⟩ } ∅)

/-- Serializers for these. -/
def nullAndFiveSerializers : OpenSerializers ℕ Unit Unit :=
  tableSerializers (nullAndFive key key') [nullAndFiveState key key']

/-- A storage that these were appended to. -/
def nullAndFiveStorage : FileKeyspaceStorage ℕ Unit :=
  ((nullAndFive key key').map .writeLogEntry).foldl (step (nullAndFiveSerializers key key'))
    (new Unit .comparisonKeyType ∅ ∅)

/-- The keys differ in the first name. -/
theorem preservesMeaning_nullAndFive : (nullAndFiveStorage (pair 1 1) (pair 2 2)).PreservesMeaning
      (nullAndFiveSerializers (pair 1 1) (pair 2 2)) ⟨.comparisonKeyType, 0, 2⟩ 0 true := by
  refine (always_preservesMeaning (lawful_tableSerializers _ _) .comparisonKeyType ∅ ∅
    ((nullAndFive (pair 1 1) (pair 2 2)).map .writeLogEntry)).last rfl 0 2 0 true ?_
  decide +kernel

/-- They share the first name: where the log is replayed the five is lost, where what is left of it is, it is not. -/
theorem not_preservesMeaning : ¬ (nullAndFiveStorage (pair 1 1) (pair 1 2)).PreservesMeaning
      (nullAndFiveSerializers (pair 1 1) (pair 1 2)) ⟨.comparisonKeyType, 0, 2⟩ 0 true := by
  intro h
  have hvalue := congrArg (Option.map fun value => value (pair 1 2)) h
  revert hvalue
  decide +kernel

end SharedState.FileKeyspaceStorage
