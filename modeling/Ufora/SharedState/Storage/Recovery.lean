import Ufora.Lib.Run
import Ufora.SharedState.Storage.FileKeyspaceStorage

/-!
# Recovery after a crash

A crash cuts the newest log file at some byte. `readState` then returns the stored state and the entries
that lie entirely before the cut exactly if the cut is at the end of an entry or goes through the first
one (`always_recovers_iff`): a log file with a torn entry is not read at all.
-/

open Ordered Effect Records List Finset Finmap Option StdMap Run Nat

namespace SharedState

variable {Json : Type} [LinearOrder Json] {S D : Type}

/-! ## Streams -/

namespace OpenSerializers

variable (o : OpenSerializers Json S D)

/-- The strings that a stream makes of entries, up to the first that is too long. -/
def strings : S → List (LogEntry Json) → List (List UInt8)
  | _, [] => []
  | s, entry :: entries =>
    match o.serializeLogEntry s entry with
    | some (s, str) => str :: strings s entries
    | none => []

/-- The stream after it has made strings of entries, if none was too long. -/
def serializeAll : S → List (LogEntry Json) → Option S
  | s, [] => some s
  | s, entry :: entries => (o.serializeLogEntry s entry).bind fun p => serializeAll p.1 entries

variable {o} {InStep : S → D → Prop} {entry : LogEntry Json} {entries : List (LogEntry Json)}
  {s s' : S} {d : D} {str : List UInt8}

theorem serializeAll_concat (h : o.serializeAll s entries = some s') :
    o.serializeAll s (entries ++ [entry]) = (o.serializeLogEntry s' entry).map Prod.fst := by
  induction entries generalizing s with
  | nil =>
    obtain rfl := some.inj h
    rw [nil_append, serializeAll]
    cases o.serializeLogEntry s entry <;> rfl
  | cons a entries ih =>
    rw [serializeAll, bind_eq_some_iff] at h
    obtain ⟨p, hp, h⟩ := h
    rw [cons_append, serializeAll, hp, bind_some, ih h]

theorem strings_concat {t : S} (h : o.serializeAll s entries = some s')
    (hs : o.serializeLogEntry s' entry = some (t, str)) :
    o.strings s (entries ++ [entry]) = o.strings s entries ++ [str] := by
  induction entries generalizing s with
  | nil =>
    obtain rfl := some.inj h
    simp only [nil_append, strings, hs]
  | cons a entries ih =>
    rw [serializeAll, bind_eq_some_iff] at h
    obtain ⟨p, hp, h⟩ := h
    rw [cons_append, strings, strings, hp]
    simp only
    rw [ih h]
    rfl

/-- The first of the entries have the first of the strings. -/
theorem strings_take (s : S) (entries : List (LogEntry Json)) (n : ℕ) :
    o.strings s (entries.take n) = (o.strings s entries).take n := by
  induction entries generalizing s n with
  | nil => rw [take_nil, strings, take_nil]
  | cons a entries ih =>
    cases n with
    | zero => rfl
    | succ n =>
      rw [take_succ_cons, strings, strings]
      cases o.serializeLogEntry s a with
      | none => rfl
      | some p => exact congrArg (p.2 :: ·) (ih p.1 n)

theorem isSome_serializeAll_take (h : (o.serializeAll s entries).isSome) (n : ℕ) :
    (o.serializeAll s (entries.take n)).isSome := by
  induction entries generalizing s n with
  | nil => rwa [take_nil]
  | cons a entries ih =>
    cases n with
    | zero => rfl
    | succ n =>
      rw [take_succ_cons, serializeAll]
      rw [serializeAll] at h
      cases hp : o.serializeLogEntry s a with
      | none =>
        rw [hp] at h
        cases h
      | some p =>
        rw [hp] at h
        exact ih h n

theorem length_strings (h : (o.serializeAll s entries).isSome) : (o.strings s entries).length = entries.length := by
  induction entries generalizing s with
  | nil => rfl
  | cons a entries ih =>
    rw [serializeAll] at h
    rw [strings]
    cases hp : o.serializeLogEntry s a with
    | none =>
      rw [hp] at h
      cases h
    | some p =>
      rw [hp] at h
      exact congrArg (· + 1) (ih h)

theorem Lawful.size_strings (ho : o.Lawful InStep) (s : S) (entries : List (LogEntry Json)) :
    ∀ str ∈ o.strings s entries, str.length < 2 ^ 64 := by
  induction entries generalizing s with
  | nil => exact nofun
  | cons a entries ih =>
    rw [strings]
    cases hp : o.serializeLogEntry s a with
    | none => exact nofun
    | some p => exact forall_mem_cons.2 ⟨ho.size s a p.1 p.2 hp, ih p.1⟩

/-- A stream reads back all that another one has written. -/
theorem Lawful.deserializeLog_strings (ho : o.Lawful InStep) (hsd : InStep s d)
    (h : (o.serializeAll s entries).isSome) :
    o.deserializeLog d (o.strings s entries) = entries := by
  induction entries generalizing s d with
  | nil => rfl
  | cons a entries ih =>
    rw [serializeAll] at h
    rw [strings]
    cases hp : o.serializeLogEntry s a with
    | none =>
      rw [hp] at h
      cases h
    | some p =>
      rw [hp] at h
      obtain ⟨d', hd, hin⟩ := ho.next s d a p.1 p.2 hsd hp
      rw [deserializeLog, hd]
      exact congrArg (a :: ·) (ih hin h)

end OpenSerializers

namespace FileKeyspaceStorage

/-! ## Log files -/

section
variable (o : OpenSerializers Json S D)

/-- The entries of a log file that lie entirely before a position. -/
def entriesBefore (p : ℕ) (entries : List (LogEntry Json)) : List (LogEntry Json) :=
  entries.take (before ChecksummedFile.record p (o.strings o.newSerializer entries)).length

/-- The content of a log file to which the entries have been appended. -/
structure Appended (content : List UInt8) (entries : List (LogEntry Json)) : Prop where
  serialized : (o.serializeAll o.newSerializer entries).isSome
  content : content = (o.strings o.newSerializer entries).flatMap ChecksummedFile.record
  nonempty : entries ≠ []

/-- However it is cut, the file cannot be read. -/
def Unreadable (content : List UInt8) : Prop := ∀ p, (ChecksummedFile.readAllToVector (content.take p)).1 = false

/-- The entries have been appended to the log file and not been cut off, unless there are none. -/
def LogFile (content : List UInt8) (entries : List (LogEntry Json)) : Prop :=
  Appended o content entries ∨ entries = [] ∧ Unreadable content

variable {o} {InStep : S → D → Prop} {content : List UInt8} {entries : List (LogEntry Json)}

theorem readLogFile_of_false (h : (ChecksummedFile.readAllToVector content).1 = false) :
    readLogFile o content = [] := by
  unfold readLogFile
  split
  · next he =>
    rw [he] at h
    cases h
  · rfl

/-- A log file is read back. -/
theorem LogFile.readLogFile_eq (ho : o.Lawful InStep) (h : LogFile o content entries) :
    readLogFile o content = entries := by
  rcases h with h | ⟨rfl, h⟩
  · have hne : o.strings o.newSerializer entries ≠ [] := by
      refine ne_nil_of_length_pos ?_
      rw [OpenSerializers.length_strings h.serialized]
      exact length_pos_iff.2 h.nonempty
    unfold readLogFile
    rw [h.content, ChecksummedFile.readAllToVector_records (ho.size_strings _ _) hne]
    exact ho.deserializeLog_strings ho.start h.serialized
  · have hread := h content.length
    rw [take_length] at hread
    exact readLogFile_of_false hread

/-- A cut file of which no entry is left cannot be read. -/
theorem unreadable_take {strs : List (List UInt8)} (hsize : ∀ str ∈ strs, str.length < 2 ^ 64) {p : ℕ}
    (hp : before ChecksummedFile.record p strs = []) :
    Unreadable ((strs.flatMap ChecksummedFile.record).take p) := by
  intro q
  rw [take_take]
  have hmin : before ChecksummedFile.record (min q p) strs = [] := by
    cases strs with
    | nil => rfl
    | cons str strs =>
      rw [before] at hp ⊢
      split at hp
      · cases hp
      · next hlt => exact if_neg (by omega)
  obtain ⟨torn, he, hb, ht⟩ := take_flatMap ChecksummedFile.record_ne_nil (min q p) strs
  rw [hmin, flatMap_nil, nil_append] at he
  rw [he]
  by_cases hbound : AtBoundary ChecksummedFile.record (min q p) strs
  · rw [hb hbound]
    rfl
  · exact @ChecksummedFile.readAllToVector_torn _ [] nofun _ hsize (ht hbound)

/-- A cut at the end of an entry, or through the first one, leaves a log file with the entries before
it. -/
theorem LogFile.take (ho : o.Lawful InStep) (h : LogFile o content entries) {p : ℕ}
    (hp : AtBoundary ChecksummedFile.record p (o.strings o.newSerializer entries) ∨
      before ChecksummedFile.record p (o.strings o.newSerializer entries) = []) :
    LogFile o (content.take p) (entriesBefore o p entries) := by
  rcases h with h | ⟨rfl, h⟩
  · by_cases hnil : before ChecksummedFile.record p (o.strings o.newSerializer entries) = []
    · right
      constructor
      · rw [entriesBefore, hnil]
        rfl
      · rw [h.content]
        exact unreadable_take (ho.size_strings _ _) hnil
    · have hb := hp.resolve_right hnil
      obtain ⟨torn, he, htorn, -⟩ := take_flatMap ChecksummedFile.record_ne_nil p (o.strings o.newSerializer entries)
      have hstrings : o.strings o.newSerializer (entriesBefore o p entries) =
          before ChecksummedFile.record p (o.strings o.newSerializer entries) := by
        rw [entriesBefore, OpenSerializers.strings_take]
        exact (prefix_iff_eq_take.1 before_initial).symm
      refine .inl ⟨OpenSerializers.isSome_serializeAll_take h.serialized _, ?_, fun hempty => hnil ?_⟩
      · rw [hstrings, h.content, he, htorn hb, append_nil]
      · rw [← hstrings, hempty]
        rfl
  · refine .inr ⟨rfl, fun q => ?_⟩
    rw [take_take]
    exact h _

/-- Any other cut leaves a file that cannot be read. -/
theorem Appended.readLogFile_take (ho : o.Lawful InStep) (h : Appended o content entries) {p : ℕ}
    (hp : ¬ AtBoundary ChecksummedFile.record p (o.strings o.newSerializer entries)) :
    readLogFile o (content.take p) = [] := by
  obtain ⟨torn, he, -, ht⟩ := take_flatMap ChecksummedFile.record_ne_nil p (o.strings o.newSerializer entries)
  rw [h.content, he]
  refine readLogFile_of_false (ChecksummedFile.readAllToVector_torn (fun str hstr => ?_) (ho.size_strings _ _) (ht hp))
  exact ho.size_strings _ _ str (before_initial.subset hstr)

end

/-! ## The directory -/

section
variable {o : OpenSerializers Json S D} {InStep : S → D → Prop} {s : FileKeyspaceStorage Json S}

/-- A file is not above the last one. -/
theorem le_last {files : StdMap ℕ (List UInt8)} {i : ℕ} (h : i ∈ files.keys) :
    ∃ last ∈ (ascending files.keys).getLast?, i ≤ last := by
  have hi := mem_ascending.2 h
  exact ⟨_, getLast?_eq_some_getLast (ne_nil_of_mem hi), (pairwise_ascending files.keys).rel_getLast hi⟩

/-- The iteration after the last one is above all. -/
theorem lt_next {files : StdMap ℕ (List UInt8)} {i : ℕ} (h : i ∈ files.keys) :
    i < ((ascending files.keys).getLast?.map (· + 1)).getD 0 := by
  obtain ⟨last, hlast, hi⟩ := le_last h
  rw [mem_def.1 hlast]
  exact lt_succ_of_le hi

/-- A state file that is written is the one that is read. -/
theorem loadLatestValidStatefile_append (ho : o.Lawful InStep) {files : StdMap ℕ (List UInt8)}
    {path : ℕ} (hpath : ∀ i ∈ files.keys, i < path) {state : StdMap (Key Json) (KeyState Json)}
    {serialized : List UInt8} (hs : o.serializeState state = some serialized) :
    loadLatestValidStatefile o (append files path serialized) = (some path, state) := by
  have hget : files.get path = [] := get_of_notMem fun h => lt_irrefl _ (hpath path h)
  have hread : readStateFile o ((append files path serialized).get path) = some state := by
    show readStateFile o (get (insert path _ _) path) = some state
    rw [get_insert, if_pos rfl, hget, nil_append]
    have hfile := @ChecksummedFile.readAllToVector_records [serialized]
      (fun str hstr => List.mem_singleton.1 hstr ▸ ho.stateSize _ _ hs) (cons_ne_nil _ _)
    rw [flatMap_cons, flatMap_nil, append_nil] at hfile
    unfold readStateFile
    rw [hfile]
    exact ho.state _ _ hs
  have hkeys : (append files path serialized).keys = insert path files.keys := by
    ext i
    rw [append, Finmap.mem_keys, Finmap.mem_insert, Finset.mem_insert, Finmap.mem_keys]
  unfold loadLatestValidStatefile
  rw [hkeys, ascending_insert_of_lt hpath, reverse_append, reverse_singleton, singleton_append, findSome?_cons, hread]
  rfl

theorem newest_mem {iteration : ℕ} (h : iteration ∈ s.newest) :
    iteration ∈ s.logFiles.keys := mem_ascending.1 (mem_of_mem_getLast? h)

theorem keys_truncated (p : ℕ) : (s.truncated p).keys = s.logFiles.keys := by
  unfold truncated
  split
  · next iteration h =>
    ext i
    rw [Finmap.mem_keys, Finmap.mem_insert, Finmap.mem_keys]
    refine or_iff_right_of_imp ?_
    rintro rfl
    exact mem_keys.1 (newest_mem h)
  · rfl

theorem get_truncated (p i : ℕ) : (s.truncated p).get i =
    if i ∈ s.newest then (s.logFiles.get i).take p else s.logFiles.get i := by
  unfold truncated
  cases h : s.newest with
  | none => rfl
  | some iteration =>
    rw [get_insert]
    by_cases hi : i = iteration
    · rw [if_pos hi, if_pos (hi ▸ rfl), hi]
    · rw [if_neg hi, if_neg fun he => hi (mem_some.1 he).symm]

/-! ## The calls -/

variable (s)

/-- `writeStateExternal` writes the state and starts a new log file, or leaves the storage as it is. -/
theorem wp_writeStateExternal (st : StdMap (Key Json) (KeyState Json)) : wp (writeStateExternal o st)
      (fun _ s' => (∀ i ∈ s.stateFiles.keys, i < s.mCurrentIteration) ∧
        ∃ serialized, o.serializeState st = some serialized ∧ s' = { s with
          mCurrentIteration := s.mCurrentIteration + 1
          mSerializers := erase s.mCurrentIteration s.mSerializers
          stateFiles := append s.stateFiles s.mCurrentIteration serialized })
      (fun _ s' => s' = s) s := by
  unfold writeStateExternal writeState startNextLogFile
  simp only [wp_bind, wp_get, wp_lassert]
  split
  · next hlast =>
    cases hs : o.serializeState st with
    | none => exact rfl
    | some serialized =>
      refine ⟨fun i hi => ?_, serialized, rfl, rfl⟩
      obtain ⟨last, hmem, hle⟩ := le_last hi
      exact lt_of_le_of_lt hle (hlast last hmem)
  · trivial

/-- `compress` is `writeStateExternal` of the compressed state. -/
theorem wp_compress (due : Bool) : wp (compress o due)
      (fun _ s' => if due then (∀ i ∈ s.stateFiles.keys, i < s.mCurrentIteration) ∧
          ∃ newState serialized, compressKeyStates s.mKeyType (readState o s).1 (readState o s).2 =
              .ok newState ∧ o.serializeState newState = some serialized ∧ s' = { s with
              mCurrentIteration := s.mCurrentIteration + 1
              mSerializers := erase s.mCurrentIteration s.mSerializers
              stateFiles := append s.stateFiles s.mCurrentIteration serialized }
        else s' = s)
      (fun _ s' => s' = s) s := by
  unfold compress
  cases due with
  | false => exact rfl
  | true =>
    simp only [if_true, wp_bind, wp_get]
    cases hc : compressKeyStates s.mKeyType (readState o s).1 (readState o s).2 with
    | error e => exact rfl
    | ok newState =>
      refine (wp_writeStateExternal s newState).imp fun _ s' h => ?_
      obtain ⟨hlt, serialized, hs, rfl⟩ := h
      exact ⟨hlt, newState, serialized, rfl, hs, rfl⟩

/-- `writeLogEntry` appends the entry to the current log file, or leaves the storage as it is. -/
theorem wp_writeLogEntry (entry : LogEntry Json) : wp (writeLogEntry o entry)
      (fun _ s' => ∃ serializer serialized, o.serializeLogEntry (s.getSerializerForPath o s.mCurrentIteration) entry =
            some (serializer, serialized) ∧ s' = { s with
            mSerializers := insert s.mCurrentIteration serializer s.mSerializers
            logFiles := append s.logFiles s.mCurrentIteration serialized })
      (fun _ s' => s' = s) s := by
  unfold writeLogEntry
  simp only [wp_bind, wp_get]
  cases hs : o.serializeLogEntry (s.getSerializerForPath o s.mCurrentIteration) entry with
  | none => exact rfl
  | some p => exact ⟨p.1, p.2, rfl, rfl⟩

end

/-! ## Journals -/

variable (Json S) in
/-- A storage, together with the last state that was stored in it and the entries that were appended to
its log files since and not lost. -/
structure Journal where
  storage : FileKeyspaceStorage Json S
  state : StdMap (Key Json) (KeyState Json) := ∅
  logs : StdMap ℕ (List (LogEntry Json)) := ∅

namespace Journal

variable (o : OpenSerializers Json S D) (s : Journal Json S)

/-- The entries that were appended and not lost. -/
def log : List (LogEntry Json) := (ascending s.storage.logFiles.keys).flatMap s.logs.get

/-- The entries of each log file when the newest one is cut. -/
def cutLogs (p : ℕ) : StdMap ℕ (List (LogEntry Json)) :=
  match s.storage.newest with
  | some iteration => insert iteration (entriesBefore o p (s.logs.get iteration)) s.logs
  | none => s.logs

/-- One operation. A call that throws leaves the storage at the throw. -/
def step : Op Json → Journal Json S
  | .writeLogEntry entry =>
    match (writeLogEntry o entry).run s.storage with
    | .ok _ storage =>
      { s with
        storage := storage
        logs := insert s.storage.mCurrentIteration
          (s.logs.get s.storage.mCurrentIteration ++ [entry]) s.logs }
    | .error _ storage => { s with storage := storage }
  | .writeStateExternal state =>
    match (writeStateExternal o state).run s.storage with
    | .ok _ storage => { storage := storage, state := state }
    | .error _ storage => { s with storage := storage }
  | .compress due =>
    match (FileKeyspaceStorage.compress o due).run s.storage, compressKeyStates s.storage.mKeyType s.state s.log with
    | .ok _ storage, .ok newState =>
      if due then { storage := storage, state := newState } else { s with storage := storage }
    | .ok _ storage, .error _ => { s with storage := storage }
    | .error _ storage, _ => { s with storage := storage }
  | .crash p => { s with storage := s.storage.crash p, logs := s.cutLogs o p }

/-- After a cut, `readState` returns the stored state and at least the entries that lie entirely before
the cut, in order. -/
def Recovers (p : ℕ) : Prop := (readState o { s.storage with logFiles := s.storage.truncated p }).1 = s.state ∧
    ((ascending s.storage.logFiles.keys).flatMap (s.cutLogs o p).get).Sublist
      (readState o { s.storage with logFiles := s.storage.truncated p }).2

/-- The cut is at the end of an entry of the newest log file, or goes through its first entry. -/
def CutsWhole (p : ℕ) : Prop := ∀ iteration ∈ s.storage.newest,
    AtBoundary ChecksummedFile.record p (o.strings o.newSerializer (s.logs.get iteration)) ∨
      before ChecksummedFile.record p (o.strings o.newSerializer (s.logs.get iteration)) = []
deriving Decidable

/-- A crash cuts the newest log file at the end of an entry, or through the first one. -/
def CrashesWhole : Op Json → Prop
  | .crash p => s.CutsWhole o p
  | _ => True

instance (s : Journal Json S) : ∀ op, Decidable (s.CrashesWhole o op)
  | .crash p => inferInstanceAs (Decidable (s.CutsWhole o p))
  | .writeLogEntry _ | .writeStateExternal _ | .compress _ => isTrue trivial

/-! ## What the files hold -/

/-- The last state file that can be read has the stored state, the log files after it have the entries,
and the stream of the current log file has written these. -/
structure Consistent (s : Journal Json S) (start : Option ℕ) : Prop where
  loaded : loadLatestValidStatefile o s.storage.stateFiles = (start, s.state)
  start_mem : ∀ i ∈ start, i ∈ s.storage.stateFiles.keys
  older : ∀ i ∈ s.storage.stateFiles.keys, i < s.storage.mCurrentIteration
  logged : ∀ i ∈ s.storage.logFiles.keys, i ≤ s.storage.mCurrentIteration
  file : ∀ i ∈ s.storage.logFiles.keys, (∀ j ∈ start, j < i) → LogFile o (s.storage.logFiles.get i) (s.logs.get i)
  outside : ∀ i, (i ∈ s.storage.logFiles.keys → ¬ ∀ j ∈ start, j < i) → s.logs.get i = []
  stream : o.serializeAll o.newSerializer (s.logs.get s.storage.mCurrentIteration) =
    some (s.storage.getSerializerForPath o s.storage.mCurrentIteration)
  content : s.storage.logFiles.get s.storage.mCurrentIteration =
    (o.strings o.newSerializer (s.logs.get s.storage.mCurrentIteration)).flatMap
      ChecksummedFile.record
  streams : ∀ i, s.storage.mCurrentIteration < i → lookup i s.storage.mSerializers = none

variable {o} {InStep : S → D → Prop} {s} {start : Option ℕ}

/-- The entries of the log files that are read are those of all the log files. -/
theorem loadLogEntries_eq {logFiles : StdMap ℕ (List UInt8)} {logs : ℕ → List (LogEntry Json)}
    (hread : ∀ i ∈ logFiles.keys, (∀ j ∈ start, j < i) → readLogFile o (logFiles.get i) = logs i)
    (houtside : ∀ i ∈ logFiles.keys, (¬ ∀ j ∈ start, j < i) → logs i = []) :
    loadLogEntriesAfterIter o logFiles start = (ascending logFiles.keys).flatMap logs := by
  have hlist : ∀ l : List ℕ, (∀ i ∈ l, i ∈ logFiles.keys) →
      (l.filter fun i => ∀ j ∈ start, j < i).flatMap (fun i => readLogFile o (logFiles.get i)) = l.flatMap logs := by
    intro l hl
    induction l with
    | nil => rfl
    | cons i l ih =>
      rw [List.forall_mem_cons] at hl
      rw [flatMap_cons, ← ih hl.2]
      by_cases hi : ∀ j ∈ start, j < i
      · simp only [List.filter_cons, decide_eq_true hi, if_true]
        rw [flatMap_cons, hread i hl.1 hi]
      · simp only [List.filter_cons, decide_eq_false hi, Bool.false_eq_true, if_false]
        rw [houtside i hl.1 hi, nil_append]
  exact hlist _ fun i => mem_ascending.1

/-- `readState` returns the stored state and the entries. -/
theorem Consistent.readState_eq (ho : o.Lawful InStep) (h : Consistent o s start) :
    readState o s.storage = (s.state, s.log) := by
  unfold readState log
  rw [h.loaded]
  refine Prod.ext rfl (loadLogEntries_eq (fun i hi hs => ?_) fun i _ hs => ?_)
  · exact (h.file i hi hs).readLogFile_eq ho
  · exact h.outside i fun _ => hs

theorem get_cutLogs (p i : ℕ) : (s.cutLogs o p).get i =
    if i ∈ s.storage.newest then entriesBefore o p (s.logs.get i) else s.logs.get i := by
  unfold cutLogs
  cases h : s.storage.newest with
  | none => rfl
  | some iteration =>
    rw [get_insert]
    by_cases hi : i = iteration
    · rw [if_pos hi, if_pos (hi ▸ rfl), hi]
    · rw [if_neg hi, if_neg fun he => hi (mem_some.1 he).symm]

section
variable (h : Consistent o s start)
include h

/-- After a cut at the end of an entry or through the first one, the log files have what is left of the
entries. -/
theorem Consistent.file_cut (ho : o.Lawful InStep) {p : ℕ}
    (hp : s.CutsWhole o p) : ∀ i ∈ s.storage.logFiles.keys, (∀ j ∈ start, j < i) →
      LogFile o ((s.storage.truncated p).get i) ((s.cutLogs o p).get i) := by
  intro i hi hs
  rw [get_truncated, get_cutLogs]
  split
  · next hn => exact (h.file i hi hs).take ho (hp i hn)
  · exact h.file i hi hs

theorem Consistent.outside_cut (p : ℕ) :
    ∀ i, (i ∈ s.storage.logFiles.keys → ¬ ∀ j ∈ start, j < i) → (s.cutLogs o p).get i = [] := by
  intro i hi
  rw [get_cutLogs, h.outside i hi]
  split
  · rfl
  · rfl


/-! ## One operation -/

/-- After a state is written, nothing is left to read from the log files. -/
theorem Consistent.write_state (ho : o.Lawful InStep)
    {state : StdMap (Key Json) (KeyState Json)} {serialized : List UInt8}
    (hs : o.serializeState state = some serialized) : Consistent o
      { storage := { s.storage with
          mCurrentIteration := s.storage.mCurrentIteration + 1
          mSerializers := erase s.storage.mCurrentIteration s.storage.mSerializers
          stateFiles := append s.storage.stateFiles s.storage.mCurrentIteration serialized }
        state := state } (some s.storage.mCurrentIteration) := by
  have hkeys : ∀ i, i ∈ (append s.storage.stateFiles s.storage.mCurrentIteration serialized).keys ↔
      i = s.storage.mCurrentIteration ∨ i ∈ s.storage.stateFiles.keys := by
    intro i
    rw [append, Finmap.mem_keys, Finmap.mem_insert, Finmap.mem_keys]
  have hnew : s.storage.mCurrentIteration + 1 ∉ s.storage.logFiles.keys := fun hi =>
    absurd (h.logged _ hi) (by omega)
  have hempty : ∀ i, get (∅ : StdMap ℕ (List (LogEntry Json))) i = [] := get_empty
  have hlookup : lookup (s.storage.mCurrentIteration + 1)
      (erase s.storage.mCurrentIteration s.storage.mSerializers) = none := by
    rw [StdMap.lookup_erase, if_neg (by omega)]
    exact h.streams _ (by omega)
  refine
    { loaded := loadLatestValidStatefile_append ho h.older hs
      start_mem := fun i hi => ?_
      older := fun i hi => ?_
      logged := fun i hi => (h.logged i hi).trans (le_succ _)
      file := fun i hi hlt => ?_
      outside := fun i _ => hempty i
      stream := ?_
      content := ?_
      streams := fun i hi => ?_ }
  · rw [← mem_some.1 hi]
    exact (hkeys _).2 (.inl rfl)
  · rcases (hkeys i).1 hi with rfl | hi
    · exact lt_succ_self _
    · exact (h.older i hi).trans (lt_succ_self _)
  · exact absurd (h.logged i hi) (Nat.not_le_of_lt (hlt _ rfl))
  · rw [hempty, getSerializerForPath, hlookup]
    rfl
  · rw [hempty]
    exact get_of_notMem hnew
  · rw [StdMap.lookup_erase]
    split
    · rfl
    · exact h.streams i ((lt_succ_self _).trans hi)

/-- The current log file has one more entry. -/
theorem Consistent.append_entry {entry : LogEntry Json} {serializer : S} {serialized : List UInt8}
    (hs : o.serializeLogEntry (s.storage.getSerializerForPath o s.storage.mCurrentIteration) entry =
      some (serializer, serialized)) : Consistent o
      { s with
        storage := { s.storage with
          mSerializers := insert s.storage.mCurrentIteration serializer s.storage.mSerializers
          logFiles := append s.storage.logFiles s.storage.mCurrentIteration serialized }
        logs := insert s.storage.mCurrentIteration
          (s.logs.get s.storage.mCurrentIteration ++ [entry]) s.logs } start := by
  have hkeys : ∀ i, i ∈ (append s.storage.logFiles s.storage.mCurrentIteration serialized).keys ↔
      i = s.storage.mCurrentIteration ∨ i ∈ s.storage.logFiles.keys := by
    intro i
    rw [append, Finmap.mem_keys, Finmap.mem_insert, Finmap.mem_keys]
  have hlogs : ∀ i, get (insert s.storage.mCurrentIteration
      (s.logs.get s.storage.mCurrentIteration ++ [entry]) s.logs) i =
        if i = s.storage.mCurrentIteration then s.logs.get s.storage.mCurrentIteration ++ [entry]
        else s.logs.get i := fun i => get_insert _ _ _ _
  have hfiles : ∀ i, (append s.storage.logFiles s.storage.mCurrentIteration serialized).get i =
      if i = s.storage.mCurrentIteration then
        s.storage.logFiles.get s.storage.mCurrentIteration ++ ChecksummedFile.record serialized
      else s.storage.logFiles.get i := fun i => get_insert _ _ _ _
  have hserialized : o.serializeAll o.newSerializer
      (s.logs.get s.storage.mCurrentIteration ++ [entry]) = some serializer := by
    rw [OpenSerializers.serializeAll_concat h.stream, hs]
    rfl
  have hcontent : s.storage.logFiles.get s.storage.mCurrentIteration ++
      ChecksummedFile.record serialized = (o.strings o.newSerializer
        (s.logs.get s.storage.mCurrentIteration ++ [entry])).flatMap ChecksummedFile.record := by
    rw [OpenSerializers.strings_concat h.stream hs, flatMap_append, ← h.content, flatMap_singleton]
  refine
    { loaded := h.loaded
      start_mem := h.start_mem
      older := h.older
      logged := fun i hi => ?_
      file := fun i hi hlt => ?_
      outside := fun i hi => ?_
      stream := ?_
      content := ?_
      streams := fun i hi => ?_ }
  · rcases (hkeys i).1 hi with rfl | hi
    · exact le_rfl
    · exact h.logged i hi
  · rw [hlogs, hfiles]
    split
    · refine .inl ⟨?_, hcontent, by simp⟩
      rw [hserialized]
      rfl
    · next hne => exact h.file i (((hkeys i).1 hi).resolve_left hne) hlt
  · rw [hlogs]
    split
    · next he =>
      refine absurd (fun j hj => ?_) (hi ((hkeys i).2 (.inl he)))
      rw [he]
      exact h.older j (h.start_mem j hj)
    · exact h.outside i fun hm => hi ((hkeys i).2 (.inr hm))
  · rw [hlogs, if_pos rfl, hserialized, getSerializerForPath, StdMap.lookup_insert, if_pos rfl]
    rfl
  · rw [hlogs, hfiles, if_pos rfl, if_pos rfl, hcontent]
  · rw [StdMap.lookup_insert, if_neg (ne_of_gt hi)]
    exact h.streams i hi

/-- A new process finds in the files what a cut at the end of an entry, or through the first one, has
left of them. -/
theorem Consistent.crash (ho : o.Lawful InStep) {p : ℕ} (hp : s.CutsWhole o p) :
    Consistent o { s with storage := s.storage.crash p, logs := s.cutLogs o p } start := by
  have hold : ∀ i ∈ s.storage.logFiles.keys,
      i < getInitialLogIteration (s.storage.truncated p) s.storage.stateFiles := by
    intro i hi
    rw [← keys_truncated p] at hi
    exact lt_of_lt_of_le (lt_next hi) (le_max_left _ _)
  have hnew : getInitialLogIteration (s.storage.truncated p) s.storage.stateFiles ∉
      s.storage.logFiles.keys := fun hi => lt_irrefl _ (hold _ hi)
  have hempty : (s.cutLogs o p).get
      (getInitialLogIteration (s.storage.truncated p) s.storage.stateFiles) = [] :=
    h.outside_cut p _ fun hi => absurd hi hnew
  refine
    { loaded := h.loaded
      start_mem := h.start_mem
      older := fun i hi => lt_of_lt_of_le (lt_next hi) (le_max_right _ _)
      logged := fun i hi => (hold i (keys_truncated (s := s.storage) p ▸ hi)).le
      file := fun i hi => h.file_cut ho hp i (keys_truncated (s := s.storage) p ▸ hi)
      outside := fun i hi => h.outside_cut p i fun hm => hi ((keys_truncated (s := s.storage) p).symm ▸ hm)
      stream := ?_
      content := ?_
      streams := fun _ _ => rfl }
  · rw [FileKeyspaceStorage.crash, new, hempty, getSerializerForPath, lookup_empty]
    rfl
  · rw [FileKeyspaceStorage.crash, new, hempty]
    exact get_of_notMem (keys_truncated (s := s.storage) p ▸ hnew)

theorem Consistent.step (ho : o.Lawful InStep) (op : Op Json)
    (hop : s.CrashesWhole o op) : ∃ start', Consistent o (s.step o op) start' := by
  cases op with
  | writeLogEntry entry =>
    have hwp := wp_writeLogEntry (o := o) s.storage entry
    rw [Journal.step]
    split
    · next hr =>
      obtain ⟨serializer, serialized, hs, rfl⟩ := hwp.of_ok hr
      exact ⟨start, h.append_entry hs⟩
    · next hr =>
      obtain rfl := hwp.of_error hr
      exact ⟨start, h⟩
  | writeStateExternal state =>
    have hwp := wp_writeStateExternal (o := o) s.storage state
    rw [Journal.step]
    split
    · next hr =>
      obtain ⟨-, serialized, hs, rfl⟩ := hwp.of_ok hr
      exact ⟨_, h.write_state ho hs⟩
    · next hr =>
      obtain rfl := hwp.of_error hr
      exact ⟨start, h⟩
  | compress due =>
    have hwp := wp_compress (o := o) s.storage due
    rw [h.readState_eq ho] at hwp
    rw [Journal.step]
    split
    · next newState hr hc =>
      have hok := hwp.of_ok hr
      cases due with
      | false =>
        obtain rfl := hok
        exact ⟨start, h⟩
      | true =>
        obtain ⟨-, newState', serialized, hc', hs, rfl⟩ := hok
        obtain rfl := Except.ok.inj (hc.symm.trans hc')
        exact ⟨_, h.write_state ho hs⟩
    · next hr hc =>
      have hok := hwp.of_ok hr
      cases due with
      | false =>
        obtain rfl := hok
        exact ⟨start, h⟩
      | true =>
        obtain ⟨-, newState', serialized, hc', hs, rfl⟩ := hok
        cases hc.symm.trans hc'
    · next hr =>
      obtain rfl := hwp.of_error hr
      exact ⟨start, h⟩
  | crash p => exact ⟨start, h.crash ho hop⟩

end

/-- The files that a first process finds. -/
theorem consistent_new (o : OpenSerializers Json S D) (type : KeyType) :
    Consistent o { storage := new S type ∅ ∅ : Journal Json S } none where
  loaded := rfl
  start_mem := nofun
  older := fun i hi => absurd hi (notMem_empty i)
  logged := fun i hi => absurd hi (notMem_empty i)
  file := fun i hi => absurd hi (notMem_empty i)
  outside := fun i _ => get_empty i
  stream := rfl
  content := rfl
  streams := fun _ _ => rfl

/-! ## Recovery -/

/-- A storage recovers from a cut exactly if the cut is at the end of an entry of the newest log file or
goes through the first one. -/
theorem Consistent.recovers_iff (ho : o.Lawful InStep) (h : Consistent o s start) (p : ℕ) :
    s.Recovers o p ↔ s.CutsWhole o p := by
  have hread : readState o { s.storage with logFiles := s.storage.truncated p } =
      (s.state, loadLogEntriesAfterIter o (s.storage.truncated p) start) := by
    unfold readState
    rw [h.loaded]
  unfold Recovers
  rw [hread, and_iff_right rfl, ← keys_truncated p]
  constructor
  · intro hsub n hn
    by_contra hp
    rw [not_or] at hp
    have hne : s.logs.get n ≠ [] := by
      intro hnil
      rw [hnil] at hp
      exact hp.2 rfl
    have hkey : n ∈ s.storage.logFiles.keys := newest_mem hn
    have hlt : ∀ j ∈ start, j < n := by
      by_contra hno
      exact hne (h.outside n fun _ => hno)
    have happ := (h.file n hkey hlt).resolve_right fun h => hne h.1
    obtain ⟨front, hfront⟩ := getLast?_eq_some_iff.1 hn
    have hnot : n ∉ front := by
      have hnodup := ascending_nodup s.storage.logFiles.keys
      rw [hfront, nodup_append] at hnodup
      exact fun hm => hnodup.2.2 n hm n (List.mem_singleton_self n) rfl
    have hfile : ∀ i ∈ front, i ≠ n := fun i hi he => hnot (he ▸ hi)
    have hlogs : loadLogEntriesAfterIter o (s.storage.truncated p) start =
        (ascending (s.storage.truncated p).keys).flatMap fun i => if i = n then [] else s.logs.get i := by
      refine loadLogEntries_eq (fun i hi hs => ?_) fun i hi hs => ?_
      · rw [get_truncated]
        split
        · next he =>
          obtain rfl := some.inj (hn.symm.trans he)
          rw [if_pos rfl]
          exact happ.readLogFile_take ho hp.1
        · next he =>
          rw [if_neg (show ¬ i = n from fun hi => he (hi ▸ hn))]
          exact (h.file i (keys_truncated (s := s.storage) p ▸ hi) hs).readLogFile_eq ho
      · rw [h.outside i fun _ => hs, ite_self]
    have hread : loadLogEntriesAfterIter o (s.storage.truncated p) start = front.flatMap s.logs.get := by
      rw [hlogs, keys_truncated, hfront, flatMap_append, flatMap_singleton, if_pos rfl, append_nil]
      exact flatMap_congr fun i hi => if_neg (hfile i hi)
    have hcut : (ascending (s.storage.truncated p).keys).flatMap (s.cutLogs o p).get =
        front.flatMap s.logs.get ++ entriesBefore o p (s.logs.get n) := by
      rw [keys_truncated, hfront, flatMap_append, flatMap_singleton, get_cutLogs, if_pos hn]
      refine congrArg (· ++ _) (flatMap_congr fun i hi => ?_)
      rw [get_cutLogs, if_neg fun he => hfile i hi (some.inj (he.symm.trans hn))]
    rw [hread, hcut] at hsub
    have hlen : _ ≤ (front.flatMap s.logs.get).length := hsub.length_le
    rw [length_append] at hlen
    have hpos : 0 < (entriesBefore o p (s.logs.get n)).length := by
      rw [entriesBefore, length_take, lt_min_iff]
      exact ⟨length_pos_iff.2 hp.2, length_pos_iff.2 hne⟩
    omega
  · intro hp
    have hlogs : loadLogEntriesAfterIter o (s.storage.truncated p) start =
        (ascending (s.storage.truncated p).keys).flatMap (s.cutLogs o p).get := by
      refine loadLogEntries_eq (fun i hi hs => ?_) fun i _ hs => h.outside_cut p i fun _ => hs
      exact (h.file_cut ho hp i (keys_truncated (s := s.storage) p ▸ hi) hs).readLogFile_eq ho
    rw [hlogs]

/-- In every run in which each crash cuts at the end of an entry or through the first one, a storage
recovers from a cut in every state exactly if the cut is such a one. -/
theorem always_recovers_iff (ho : o.Lawful InStep) (type : KeyType) (ops : List (Op Json))
    (h : Run.EveryStep (total (Journal.step o)) (CrashesWhole o)
      { storage := new S type ∅ ∅ } ops) :
    Run.Always (total (Journal.step o)) (fun s => ∀ p, s.Recovers o p ↔ s.CutsWhole o p)
      { storage := new S type ∅ ∅ } ops := by
  have hall : Run.Always (total (Journal.step o)) (fun s => ∃ start, Consistent o s start)
      { storage := new S type ∅ ∅ } ops := by
    refine always_of_everyStep ⟨none, consistent_new o type⟩ (fun s op s' hs hop ht => ?_) h
    obtain ⟨start, hs⟩ := hs
    rw [← total_eq_some.1 ht]
    exact hs.step ho op hop
  refine hall.mono fun s hs p => ?_
  obtain ⟨start, hs⟩ := hs
  exact hs.recovers_iff ho p

/-- What is written of minimum ids and of a keyspace without keys. -/
def idSerializers : OpenSerializers ℕ Unit Unit where
  newSerializer := ()
  serializeLogEntry _ entry :=
    match entry with
    | .Id id => if id < 2 ^ 64 then some ((), [1, 0] ++ littleEndian 8 id) else none
    | .Event _ => none
  newDeserializer := ()
  deserializeLogEntry _ element :=
    match element with
    | 1 :: 0 :: id => some ((), .Id (ofLittleEndian id))
    | _ => none
  serializeState m := if m.keys = ∅ then some (littleEndian 4 0) else none
  deserializeState element := if element = littleEndian 4 0 then some ∅ else none

theorem lawful_idSerializers : idSerializers.Lawful fun _ _ => True where
  start := trivial
  next s d entry s' str _ h := by
    cases entry with
    | Event event => cases h
    | Id id =>
      simp only [idSerializers] at h
      split at h
      · next hid =>
        obtain ⟨-, rfl⟩ := Prod.mk.inj (some.inj h)
        refine ⟨(), ?_, trivial⟩
        show some ((), LogEntry.Id (ofLittleEndian (littleEndian 8 id))) = _
        rw [ofLittleEndian_littleEndian hid]
      · cases h
  size s entry s' str h := by
    cases entry with
    | Event event => cases h
    | Id id =>
      simp only [idSerializers] at h
      split at h
      · obtain ⟨-, rfl⟩ := Prod.mk.inj (some.inj h)
        rw [length_append, length_littleEndian]
        decide
      · cases h
  state m str h := by
    simp only [idSerializers] at h
    split at h
    · next hm =>
      obtain rfl := some.inj h
      refine congrArg some (ext_lookup fun k => ?_)
      rw [lookup_empty, eq_comm, lookup_eq_none, ← Finmap.mem_keys, hm]
      exact notMem_empty k
    · cases h
  stateSize m str h := by
    simp only [idSerializers] at h
    split at h
    · obtain rfl := some.inj h
      rw [length_littleEndian]
      decide
    · cases h

/-- The second entry is cut by a crash, and another one is written after that. -/
theorem always_recovers_iff_idSerializers : Run.Always (total (Journal.step idSerializers))
      (fun s => ∀ p, s.Recovers idSerializers p ↔ s.CutsWhole idSerializers p)
      { storage := new Unit .comparisonKeyType ∅ ∅ }
      [.writeLogEntry (.Id 3), .writeLogEntry (.Id 5), .crash 22, .writeLogEntry (.Id 7)] :=
  always_recovers_iff lawful_idSerializers _ _ (by decide +kernel)

/-- A cut through the second entry loses the first one. -/
theorem not_always_recovers :
    ¬ Run.Always (total (Journal.step idSerializers)) (fun s => ∀ p, s.Recovers idSerializers p)
      { storage := new Unit .comparisonKeyType ∅ ∅ }
      [.writeLogEntry (.Id 3), .writeLogEntry (.Id 5)] := by
  intro h
  have hlen := (h.last rfl 30).2.length_le
  exact absurd hlen (by decide +kernel)

end Journal

end FileKeyspaceStorage

end SharedState
