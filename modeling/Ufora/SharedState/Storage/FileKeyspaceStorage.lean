import Ufora.SharedState.KeyspaceCache
import Ufora.SharedState.Storage.ChecksummedFile

/-!
# `FileKeyspaceStorage`

`distributed/SharedState/Storage/FileKeyspaceStorage.cppml` with `LogFileDirectory.cppml` and
`LogFileSerialization.hpp`: a keyspace is stored in a directory of numbered files. A state file holds
the states of the keys, the log files with higher numbers hold the entries since. Each process starts a
new log file, and so does `compress`, which writes a new state file first.
-/

open Ordered Effect Finmap SharedState.ChecksummedFile

namespace SharedState

variable {Json : Type} [LinearOrder Json]

/-- `OpenSerializers`: the streams that make strings of log entries and of states, and read them back.
What a stream makes of an entry depends on the entries before it in the file. -/
structure OpenSerializers (Json : Type) [LinearOrder Json] (S D : Type) where
  newSerializer : S
  /-- `serialize(in)`, which throws if the string is too long. -/
  serializeLogEntry : S → LogEntry Json → Option (S × List UInt8)
  newDeserializer : D
  /-- `deserialize<LogEntry>(element)`, which may throw. -/
  deserializeLogEntry : D → List UInt8 → Option (D × LogEntry Json)
  serializeState : StdMap (Key Json) (KeyState Json) → Option (List UInt8)
  deserializeState : List UInt8 → Option (StdMap (Key Json) (KeyState Json))

namespace OpenSerializers

variable {S D : Type} (o : OpenSerializers Json S D)

/-- A stream reads back what a stream in step with it has written, and strings have a size. -/
structure Lawful (InStep : S → D → Prop) : Prop where
  start : InStep o.newSerializer o.newDeserializer
  next : ∀ s d entry s' str, InStep s d → o.serializeLogEntry s entry = some (s', str) →
    ∃ d', o.deserializeLogEntry d str = some (d', entry) ∧ InStep s' d'
  size : ∀ s entry s' str, o.serializeLogEntry s entry = some (s', str) → str.length < 2 ^ 64
  state : ∀ m str, o.serializeState m = some str → o.deserializeState str = some m
  stateSize : ∀ m str, o.serializeState m = some str → str.length < 2 ^ 64

/-- The loop of `deserializeLog(elements, out)`, which stops at the first element that cannot be
read. -/
def deserializeLog : D → List (List UInt8) → List (LogEntry Json)
  | _, [] => []
  | d, element :: elements =>
    match o.deserializeLogEntry d element with
    | some (d, entry) => entry :: deserializeLog d elements
    | none => []

/-- `deserializeState(elements, out)`. -/
def deserializeStateFile (elements : List (List UInt8)) : Option (StdMap (Key Json) (KeyState Json)) :=
  match elements with
  | [element] => o.deserializeState element
  | _ => none

end OpenSerializers

/-- A `FileKeyspaceStorage` over its directory. Log files and state files go by their iteration. -/
structure FileKeyspaceStorage (Json : Type) [LinearOrder Json] (S : Type) where
  /-- The type of `mKeySpace`. -/
  mKeyType : KeyType
  /-- The iteration of `mCurrentLogFilePath`. -/
  mCurrentIteration : ℕ
  mSerializers : StdMap ℕ S := ∅
  logFiles : StdMap ℕ (List UInt8) := ∅
  stateFiles : StdMap ℕ (List UInt8) := ∅

variable (Json) in
/-- What the member functions throw. -/
inductive StorageError where
  | assertion (e : AssertionFailed Json)
  | stringTooLong
  | statePathTaken (iteration : ℕ)

namespace FileKeyspaceStorage

variable {S D : Type}

/-- A member function of the storage. -/
abbrev Action (Json : Type) [LinearOrder Json] (S : Type) := EStateM (StorageError Json) (FileKeyspaceStorage Json S)

/-! ## The directory -/

/-- `append(path, contents)`. -/
def append (files : StdMap ℕ (List UInt8)) (path : ℕ) (contents : List UInt8) : StdMap ℕ (List UInt8) :=
  insert path (files.get path ++ record contents) files

/-- `getInitialLogIteration()`. -/
def getInitialLogIteration (logFiles stateFiles : StdMap ℕ (List UInt8)) : ℕ :=
  max (((ascending logFiles.keys).getLast?.map (· + 1)).getD 0)
    (((ascending stateFiles.keys).getLast?.map (· + 1)).getD 0)

variable (S) in
/-- `FileKeyspaceStorage(cacheDirectory, inKeyspace, ..)`, over the files in the directory. -/
def new (type : KeyType) (logFiles stateFiles : StdMap ℕ (List UInt8)) : FileKeyspaceStorage Json S where
  mKeyType := type
  mCurrentIteration := getInitialLogIteration logFiles stateFiles
  logFiles := logFiles
  stateFiles := stateFiles

/-! ## Reading -/

section
variable (o : OpenSerializers Json S D)

/-- `readFileAsStringVector(path, ..)`, and what is made of the strings of a state file. -/
def readStateFile (content : List UInt8) : Option (StdMap (Key Json) (KeyState Json)) :=
  match readAllToVector content with
  | (true, outStringVec) => o.deserializeStateFile outStringVec
  | (false, _) => none

/-- `loadLatestValidStatefile(outState)`: the iteration of the last state file that can be read, and
the state. -/
def loadLatestValidStatefile (stateFiles : StdMap ℕ (List UInt8)) : Option ℕ × StdMap (Key Json) (KeyState Json) :=
  match (ascending stateFiles.keys).reverse.findSome? fun iteration =>
      (readStateFile o (stateFiles.get iteration)).map fun state => (iteration, state) with
  | some (iteration, state) => (some iteration, state)
  | none => (none, ∅)

/-- The entries that are read from a log file: none if it cannot be read as a whole. -/
def readLogFile (content : List UInt8) : List (LogEntry Json) :=
  match readAllToVector content with
  | (true, fileContents) => o.deserializeLog o.newDeserializer fileContents
  | (false, _) => []

/-- `loadLogEntriesAfterIter(startIter, out)`. -/
def loadLogEntriesAfterIter (logFiles : StdMap ℕ (List UInt8)) (startIter : Option ℕ) : List (LogEntry Json) :=
  ((ascending logFiles.keys).filter fun iteration => ∀ start ∈ startIter, start < iteration).flatMap
    fun iteration => readLogFile o (logFiles.get iteration)

/-- `readState(outState)`. -/
def readState (s : FileKeyspaceStorage Json S) : StdMap (Key Json) (KeyState Json) × List (LogEntry Json) :=
  let loaded := loadLatestValidStatefile o s.stateFiles
  (loaded.2, loadLogEntriesAfterIter o s.logFiles loaded.1)

/-! ## Writing -/

/-- `getSerializerForPath(path)`. -/
def getSerializerForPath (s : FileKeyspaceStorage Json S) (path : ℕ) : S :=
  (lookup path s.mSerializers).getD o.newSerializer

/-- `writeLogEntry(entry)`. -/
def writeLogEntry (entry : LogEntry Json) : Action Json S Unit := do
  let s ← get
  let path := s.mCurrentIteration
  match o.serializeLogEntry (s.getSerializerForPath o path) entry with
  | none => throw .stringTooLong
  | some (serializer, serialized) =>
    modify fun s =>
      { s with
        mSerializers := insert path serializer s.mSerializers
        logFiles := append s.logFiles path serialized }

/-- `writeState(state)`. -/
def writeState (state : StdMap (Key Json) (KeyState Json)) : Action Json S Unit := do
  let path := (← get).mCurrentIteration
  lassert (∀ last ∈ (ascending (← get).stateFiles.keys).getLast?, last < path) (.statePathTaken path)
  match o.serializeState state with
  | none => throw .stringTooLong
  | some serialized =>
    modify fun s => { s with stateFiles := append s.stateFiles path serialized }

/-- `startNextLogFile()`. -/
def startNextLogFile : Action Json S Unit := modify fun s =>
    { s with
      mCurrentIteration := s.mCurrentIteration + 1
      mSerializers := erase s.mCurrentIteration s.mSerializers }

/-- `writeStateExternal(state)`. -/
def writeStateExternal (state : StdMap (Key Json) (KeyState Json)) : Action Json S Unit := do
  writeState o state
  startNextLogFile

/-- `compressKeyStates(ioEntries, logs)`. -/
def compressKeyStates (t : KeyType) (ioEntries : StdMap (Key Json) (KeyState Json)) (logs : List (LogEntry Json)) :
    Except (AssertionFailed Json) (StdMap (Key Json) (KeyState Json)) :=
  match (logs.forM (KeyspaceStorage.compressEntry t)).run ioEntries with
  | .ok _ newState => .ok newState
  | .error e _ => .error e

/-- `compress()`, where the log is long enough, or there is more than one (`due`). -/
def compress (due : Bool) : Action Json S Unit := do
  if due then
    let curState := (← get).readState o
    match compressKeyStates (← get).mKeyType curState.1 curState.2 with
    | .error e => throw (.assertion e)
    | .ok newState =>
      writeState o newState
      startNextLogFile

end

/-! ## Crashes -/

variable (s : FileKeyspaceStorage Json S)

/-- The newest log file. -/
def newest : Option ℕ := (ascending s.logFiles.keys).getLast?

/-- The log files when the newest one is cut at a position. -/
def truncated (p : ℕ) : StdMap ℕ (List UInt8) :=
  match s.newest with
  | some iteration => insert iteration ((s.logFiles.get iteration).take p) s.logFiles
  | none => s.logFiles

/-- A process ends when the newest log file has got to a position, and another one is started. -/
def crash (p : ℕ) : FileKeyspaceStorage Json S := new S s.mKeyType (s.truncated p) s.stateFiles

variable (Json) in
/-- The calls on a storage, and its end when the newest log file has got to a position. -/
inductive Op where
  | writeLogEntry (entry : LogEntry Json)
  | writeStateExternal (state : StdMap (Key Json) (KeyState Json))
  | compress (due : Bool)
  | crash (p : ℕ)

/-- One operation. A call that throws leaves the storage at the throw. -/
def step (o : OpenSerializers Json S D) (s : FileKeyspaceStorage Json S) : Op Json → FileKeyspaceStorage Json S
  | .writeLogEntry entry => exec (writeLogEntry o entry) s
  | .writeStateExternal state => exec (writeStateExternal o state) s
  | .compress due => exec (compress o due) s
  | .crash p => s.crash p

end FileKeyspaceStorage

end SharedState
