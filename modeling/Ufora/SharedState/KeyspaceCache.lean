import Ufora.SharedState.KeyType

/-!
# `KeyspaceCache`

`distributed/SharedState/KeyspaceCache.cppml`: the states of the keys of a keyspace, by the name that
the keys have in one dimension, and the store that the events are logged in. The cache is loaded from
the store at the first visit. A new minimum id compacts the states and forgets the deleted ones.
-/

open Ordered Effect Finmap

namespace SharedState

/-- The store of a keyspace: the last state file and the log entries since. -/
structure KeyspaceStorage (Json : Type) [LinearOrder Json] where
  state : StdMap (Key Json) (KeyState Json) := ∅
  log : List (LogEntry Json) := []

/-- The state of a `KeyspaceCache`. -/
structure KeyspaceCache (Json : Type) [LinearOrder Json] where
  mKeyspace : Keyspace Json
  /-- `mKeyRange.index()`. -/
  mIndex : ℕ
  mIsLoaded : Bool
  mKeyStates : StdMap Json (StdMap (Key Json) (KeyState Json)) := ∅
  mDataStore : Option (KeyspaceStorage Json)

variable {Json : Type} [LinearOrder Json]

/-! ## The store -/

namespace KeyspaceStorage

/-- `writeLogEntry(entry)`. -/
def writeLogEntry (entry : LogEntry Json) : EStateM (AssertionFailed Json) (KeyspaceStorage Json) Unit :=
  modify fun s => { s with log := s.log ++ [entry] }

/-- One turn of the loop of `Compressor::compress`. -/
def compressEntry (t : KeyType) : LogEntry Json → EStateM (AssertionFailed Json)
    (StdMap (Key Json) (KeyState Json)) Unit
  | .Event e => onPart (fun ioState => ioState.get e.content.key)
      (fun keyState ioState => insert e.content.key keyState ioState)
      (do let _ ← t.insertEventIntoKeyState e false)
  | .Id id => modify (StdMap.updateEach fun keyState => t.compactKeyState keyState ⟨id, 0⟩)

/-- `compress()`: writes a new state file and starts a new log, where the log is long enough
(`due`). -/
def compress (t : KeyType) (due : Bool) : EStateM (AssertionFailed Json) (KeyspaceStorage Json) Unit := do
  if due then
    let s ← get
    match (s.log.forM (compressEntry t)).run s.state with
    | .ok _ newState => set { state := newState, log := [] : KeyspaceStorage Json }
    | .error e _ => throw e

end KeyspaceStorage

namespace KeyspaceCache

/-- A member function of the cache. -/
abbrev Action (Json : Type) [LinearOrder Json] := EStateM (AssertionFailed Json) (KeyspaceCache Json)

/-- `KeyspaceCache(inKeyRange, inStorage)`. -/
def new (inKeyspace : Keyspace Json) (index : ℕ) (inStorage : Option (KeyspaceStorage Json)) : KeyspaceCache Json where
  mKeyspace := inKeyspace
  mIndex := index
  mIsLoaded := inStorage.isNone
  mDataStore := inStorage

/-- A call on `mDataStore`, where there is one. -/
def onDataStore (x : EStateM (AssertionFailed Json) (KeyspaceStorage Json) Unit) : Action Json Unit := do
  match (← get).mDataStore with
  | some store => onPart (fun _ => store) (fun store s => { s with mDataStore := some store }) x
  | none => pure ()

/-- `key[mKeyRange.index()]`. -/
def keyDimensionValue (key : Key Json) : Action Json Json := do
  match key.atDimension (← get).mIndex with
  | some name => return name
  | none => throw (.invalidIndex (← get).mIndex key)

/-- `loadEventInMemory(event)`. -/
def loadEventInMemory (event : PartialEvent Json) : Action Json Unit := do
  let name ← keyDimensionValue event.content.key
  let t := (← get).mKeyspace.type
  onPart (fun s => (s.mKeyStates.get name).get event.content.key)
    (fun keyState s =>
      { s with
        mKeyStates := insert name
          (insert event.content.key keyState (s.mKeyStates.get name)) s.mKeyStates })
    (do let _ ← t.insertEventIntoKeyState event false)

/-- The keys whose states are deleted ones. -/
def deletedKeys (s : KeyspaceCache Json) : List (Key Json) := (ascending s.mKeyStates.keys).flatMap fun name =>
    (ascending (s.mKeyStates.get name).keys).filter fun key =>
      ((s.mKeyStates.get name).get key).wasDeleted

/-- `compactMemory(id)`. -/
def compactMemory (id : ℕ) : Action Json Unit := do
  let t := (← get).mKeyspace.type
  modify fun s =>
    { s with
      mKeyStates := s.mKeyStates.updateEach
        (StdMap.updateEach fun keyState => t.compactKeyState keyState ⟨id, 0⟩) }
  (← get).deletedKeys.forM fun key => do
    let name ← keyDimensionValue key
    modify fun s => { s with mKeyStates := erase name s.mKeyStates }

/-- `newMinimumId(minId)`; the size of the log decides whether it is compressed. -/
def newMinimumId (minId : ℕ) (due : Bool) : Action Json Unit := do
  compactMemory minId
  let t := (← get).mKeyspace.type
  onDataStore (KeyspaceStorage.writeLogEntry (.Id minId))
  onDataStore (KeyspaceStorage.compress t due)

/-- `addEvent(event)`. -/
def addEvent (event : PartialEvent Json) : Action Json Unit := do
  if (← get).mIsLoaded then
    loadEventInMemory event
  onDataStore (KeyspaceStorage.writeLogEntry (.Event event))

/-- `mKeyStates[keyDimensionValue][newKey] = ..` for one key of the state file. -/
def loadKeyState (states : StdMap (Key Json) (KeyState Json)) (newKey : Key Json) : Action Json Unit := do
  let name ← keyDimensionValue newKey
  modify fun s =>
    { s with
      mKeyStates := insert name
        (insert newKey (states.get newKey) (s.mKeyStates.get name)) s.mKeyStates }

/-- One turn of the loop of `loadFromDisk` over the log. -/
def loadLogEntry : LogEntry Json → Action Json Unit
  | .Event event => loadEventInMemory event
  | .Id id => compactMemory id

/-- `loadFromDisk()`. -/
def loadFromDisk : Action Json Unit := do
  lassert (¬ (← get).mIsLoaded ∧ (← get).mKeyStates.keys = ∅) .alreadyLoaded
  match (← get).mDataStore with
  | some store => do
    (ascending store.state.keys).forM (loadKeyState store.state)
    store.log.forM loadLogEntry
  | none => pure ()
  modify fun s => { s with mIsLoaded := true }

/-- `visitRangeContents(range, inVisitor)`: loads the cache before the first visit. -/
def visitRangeContents : Action Json Unit := do
  if ¬ (← get).mIsLoaded then loadFromDisk

variable (Json) in
/-- The calls on the cache, and its making anew over the same store. -/
inductive Op where
  | addEvent (event : PartialEvent Json)
  | newMinimumId (minId : ℕ) (due : Bool)
  | visitRangeContents
  | restart

/-- One call. A call that throws leaves the state at the throw. -/
def step (s : KeyspaceCache Json) : Op Json → KeyspaceCache Json
  | .addEvent event => exec (addEvent event) s
  | .newMinimumId minId due => exec (newMinimumId minId due) s
  | .visitRangeContents => exec visitRangeContents s
  | .restart => new s.mKeyspace s.mIndex s.mDataStore

end KeyspaceCache

end SharedState
