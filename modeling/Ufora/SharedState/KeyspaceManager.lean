import Ufora.SharedState.KeyspaceCache
import Ufora.SharedState.View

/-!
# `KeyspaceManager`

`distributed/SharedState/KeyspaceManager.cppml`: the server of the shared state. It keeps for each
channel the ranges that its client subscribes to, and for each keyspace how many channels subscribe to
a range of it. `check` unloads the keyspaces that no channel subscribes to. A message is handled under
the lock of the manager, which is released only before the contents of a new range are written.
-/

open Ordered Effect Finmap

namespace SharedState

variable {Json Channel : Type} [LinearOrder Json] [LinearOrder Channel]

instance : Inhabited (KeyRangeSet Json) := ⟨{}⟩

variable (Json Channel) in
/-- What the manager relies on and does not decide: JSON strings, hashes, and the channels. -/
structure World where
  /-- `Json::String`. -/
  string : String → Json
  /-- `seed + hash_type(n)`. -/
  hash : ℕ → ℕ → ℕ
  /-- Whether a channel takes one more message after those. -/
  accepts : Channel → List (MessageIn Json) → Bool
  sent : StdMap Channel (List (MessageIn Json)) := ∅
  disconnected : Finset Channel := ∅

variable (Json Channel) in
/-- A `KeyspaceManager`. The counts of subscribers are integers here, so that one too many removals
would show. -/
structure KeyspaceManager where
  mManagerId : ℕ
  mStatusEventUniqueID : ℕ := 0
  mNumEventsHandled : ℕ := 0
  /-- The files of the keyspaces that are not loaded, where there is a storage. -/
  mStorage : Option (StdMap (Keyspace Json ×ₗ ℕ) (KeyspaceStorage Json))
  mRandGenerator : RandomGenerator
  mKeyEvents : StdMap (Keyspace Json) (List (KeyspaceCache Json)) := ∅
  mChannels : Finset Channel := ∅
  mChannelMaxIdentifiers : StdMap Channel ℕ := ∅
  mRanges : StdMap Channel (KeyRangeSet Json) := ∅
  mChannelIds : StdMap Channel ℕ := ∅
  mSubscribersPerKeyspace : StdMap (Keyspace Json) ℤ := ∅
  world : World Json Channel

variable (Json) in
/-- What the member functions throw. -/
inductive ManagerError where
  | channelDisconnected
  | assertion (e : AssertionFailed Json)
  | overlappingRange (range : KeyRange Json)
  | noPartialEvent
  /-- There is no cache for the dimension: `operator[]` of the vector is out of bounds. -/
  | noCache (keyspace : Keyspace Json) (index : ℕ)
  /-- A loop of the model came to its bound. -/
  | recursionLimit

namespace KeyspaceManager

/-- A member function of the manager. -/
abbrev Action (Json Channel : Type) [LinearOrder Json] [LinearOrder Channel] :=
  EStateM (ManagerError Json) (KeyspaceManager Json Channel)

/-! ## Channels -/

/-- `channel->write(message)`, which fails where the channel is disconnected. -/
def tryWrite (channel : Channel) (message : MessageIn Json) : Action Json Channel Bool := do
  let w := (← get).world
  if channel ∈ w.disconnected ∨ ¬ w.accepts channel (w.sent.get channel) then return false
  modify fun s =>
    { s with world.sent := insert channel (w.sent.get channel ++ [message]) w.sent }
  return true

/-- `channel->write(message)`. -/
def write (channel : Channel) (message : MessageIn Json) : Action Json Channel Unit := do
  if ¬ (← tryWrite channel message) then throw .channelDisconnected

/-- `RandomGenerator::rand()[0]`. -/
def rand : Action Json Channel ℕ := do
  let s ← get
  modify fun s => { s with mRandGenerator := ⟨s.world.hash s.mRandGenerator.seed 2⟩ }
  return s.world.hash s.mRandGenerator.seed 1 % 2 ^ 32

/-- `RandomGenerator::newGenerator()`. -/
def newGenerator : Action Json Channel RandomGenerator := do
  let s ← get
  modify fun s => { s with mRandGenerator := ⟨s.world.hash s.mRandGenerator.seed 2⟩ }
  return ⟨s.world.hash s.mRandGenerator.seed 3⟩

variable (inChannel : Channel)

/-- `initializeClient(inChannel, clientId, generator)`. -/
def initializeClient (clientId : ℕ) (generator : Option RandomGenerator) : Action Json Channel Unit := do
  let _ ← tryWrite inChannel (.Initialize clientId (← get).mManagerId generator)

/-! ## The caches -/

variable (s : KeyspaceManager Json Channel)

/-- `client_info_keyspace`. -/
def clientInfoKeyspace : Keyspace Json := ⟨.comparisonKeyType, s.world.string "__CLIENT_INFO_SPACE__", 2⟩

/-- `storageForKeyspace(keyspace, i)`, for a keyspace that is kept in files. -/
def storageForKeyspace (keyspace : Keyspace Json) (i : ℕ) : Option (KeyspaceStorage Json) :=
  if keyspace ≠ s.clientInfoKeyspace then
    s.mStorage.map fun files => (lookup (toLex (keyspace, i)) files).getD {}
  else none

variable (keyspace : Keyspace Json)

/-- `loadKeyspaceCaches(keyspace)`. -/
def loadKeyspaceCaches : Action Json Channel (List (KeyspaceCache Json)) := do
  let s ← get
  match lookup keyspace s.mKeyEvents with
  | some caches => return caches
  | none =>
    let caches := (List.range keyspace.dimension).map fun i =>
      KeyspaceCache.new keyspace i (s.storageForKeyspace keyspace i)
    modify fun s => { s with mKeyEvents := insert keyspace caches s.mKeyEvents }
    return caches

/-- A call on the cache of one dimension of a keyspace. -/
def onCache (index : ℕ) (x : KeyspaceCache.Action Json Unit) : Action Json Channel Unit := do
  match ((← get).mKeyEvents.get keyspace)[index]? with
  | none => throw (.noCache keyspace index)
  | some cache =>
    onPart (fun _ => cache)
      (fun cache s =>
        { s with
          mKeyEvents := insert keyspace ((s.mKeyEvents.get keyspace).set index cache) s.mKeyEvents })
      (EStateM.adaptExcept .assertion x)

/-- `addEvent(event)`. -/
def addEvent (event : PartialEvent Json) : Action Json Channel Unit := do
  let cache ← loadKeyspaceCaches event.content.key.keyspace
  (List.range cache.length).forM fun i =>
    onCache event.content.key.keyspace i (KeyspaceCache.addEvent event)

/-- The keys that `visitRangeContents(range, ..)` visits, with their states. -/
def contents (cache : KeyspaceCache Json) (range : KeyRange Json) : List (Key Json × KeyState Json) :=
  ((ascending cache.mKeyStates.keys).filter fun name =>
      (∀ left ∈ range.left, left.value ≤ name) ∧ ∀ right ∈ range.right, name ≤ right.value).flatMap
    fun name => (cache.mKeyStates.get name).ascendingEntries

/-- `KeyspaceManagerKeyspaceVisitor`. -/
def visit (channel : Channel) (p : Key Json × KeyState Json) : Action Json Channel Unit := do
  match p.2.baseValue with
  | some value => write channel (.BaseValue p.1 value)
  | none => pure ()
  ((ascending p.2.events.keys).filterMap fun id => lookup id p.2.events).forM fun event =>
    write channel (.Event event)

variable (range : KeyRange Json)

/-- `writeKeyRangeTo(range, inChannel)`. -/
def writeKeyRangeTo (inChannel : Channel) : Action Json Channel Unit := do
  let _ ← loadKeyspaceCaches range.keyspace
  onCache range.keyspace range.index KeyspaceCache.visitRangeContents
  (((← get).mKeyEvents.get range.keyspace)[range.index]?.toList.flatMap
    (contents · range)).forM (visit inChannel)
  write inChannel (.KeyRangeLoaded range)

/-! ## Subscribers -/

/-- `addKeyspaceSubscriber(keyspace)`. -/
def addKeyspaceSubscriber (m : StdMap (Keyspace Json) ℤ) :
    StdMap (Keyspace Json) ℤ := insert keyspace (m.get keyspace + 1) m

/-- `removeKeyspaceSubscriber(keyspace)`. -/
def removeKeyspaceSubscriber (m : StdMap (Keyspace Json) ℤ) : StdMap (Keyspace Json) ℤ :=
  match lookup keyspace m with
  | none => m
  | some n =>
    if n - 1 = 0 then erase keyspace m
    else insert keyspace (n - 1) m

/-- `mRanges[inChannel] = ranges`. -/
def setRanges (ranges : KeyRangeSet Json) : Action Json Channel Unit :=
  modify fun s => { s with mRanges := insert inChannel ranges s.mRanges }

/-- A `Subscribe` message until the lock is released: returns whether the range is new to the
channel. -/
def subscribe : Action Json Channel Bool := do
  let keyRangeSet := (← get).mRanges.get inChannel
  setRanges inChannel keyRangeSet
  if keyRangeSet.intersects range then return false
  if ¬ keyRangeSet.containsKeyspace range.keyspace then
    modify fun s =>
      { s with
        mSubscribersPerKeyspace := addKeyspaceSubscriber range.keyspace s.mSubscribersPerKeyspace }
  match keyRangeSet.insert range with
  | none => throw (.overlappingRange range)
  | some keyRangeSet =>
    setRanges inChannel keyRangeSet
    return true

/-- An `Unsubscribe` message. -/
def unsubscribe : Action Json Channel Unit := do
  setRanges inChannel (((← get).mRanges.get inChannel).erase range)
  if ¬ ((← get).mRanges.get inChannel).containsKeyspace range.keyspace then
    modify fun s =>
      { s with
        mSubscribersPerKeyspace := removeKeyspaceSubscriber range.keyspace s.mSubscribersPerKeyspace }
  if ((← get).mRanges.get inChannel).mRanges.card = 0 then
    modify fun s => { s with mRanges := erase inChannel s.mRanges }

/-! ## Events and disconnects -/

/-- `getChannelsForKey(key)`. -/
def getChannelsForKey (key : Key Json) : Except (AssertionFailed Json) (List Channel) :=
  (ascending s.mRanges.keys).filterM fun channel =>
    (ascending (s.mRanges.get channel).mRanges).anyM fun keyRange => keyRange.tryContains key

/-- `computeMinAndMaxIDs()`. -/
def computeMinAndMaxIDs : ℕ × ℕ := (ascending s.mChannelMaxIdentifiers.keys).foldl (fun minmax channel =>
    (min minmax.1 (s.mChannelMaxIdentifiers.get channel),
      max minmax.2 (s.mChannelMaxIdentifiers.get channel))) (2 ^ 64 - 1, 0)

/-- `statusEvent(inChannel, update)`. -/
def statusEvent (update : Option Json) : Action Json Channel (SignedEvent Json) := do
  let s ← get
  let name (n : ℕ) := s.world.string (toString n)
  let clientId := s.mChannelIds.get inChannel
  let key : Key Json := ⟨s.clientInfoKeyspace, [name s.mManagerId, name clientId], rfl⟩
  modify fun s =>
    { s with
      mChannelIds := insert inChannel clientId s.mChannelIds
      mStatusEventUniqueID := s.mStatusEventUniqueID + 1 }
  match (View.partialEvents (View.split ⟨s.mStatusEventUniqueID, clientId⟩ [⟨key, update⟩])).head? with
  | some event => return event
  | none => throw .noPartialEvent

/-- The loop of `disconnect` over the ranges of the channel, of which there are `limit` at most:
returns their keyspaces. -/
def takeRanges (inChannel : Channel) : ℕ → Finset (Keyspace Json) → Action Json Channel (Finset (Keyspace Json))
  | 0, toRemove => do
    lassert (((← get).mRanges.get inChannel).mRanges.card = 0) .recursionLimit
    return toRemove
  | limit + 1, toRemove => do
    let ranges := (← get).mRanges.get inChannel
    match (ascending ranges.mRanges).head? with
    | none => return toRemove
    | some elt =>
      setRanges inChannel (ranges.erase elt)
      takeRanges inChannel limit (insert elt.keyspace toRemove)

/-- `disconnect(inChannel)`, which calls `pushEvent`. -/
def disconnectWith (pushEvent : SignedEvent Json → Action Json Channel Unit) (inChannel : Channel) :
    Action Json Channel Unit := do
  let toRemove ← takeRanges inChannel ((← get).mRanges.get inChannel).mRanges.card ∅
  modify fun s =>
    { s with
      mSubscribersPerKeyspace := (ascending toRemove).foldl (fun m keyspace => removeKeyspaceSubscriber keyspace m)
          s.mSubscribersPerKeyspace
      mRanges := erase inChannel s.mRanges
      mChannels := s.mChannels.erase inChannel }
  if inChannel ∈ (← get).mChannelIds then
    pushEvent (← statusEvent inChannel ((← get).world.string "disconnected"))
    modify fun s => { s with mChannelIds := erase inChannel s.mChannelIds }
  modify fun s =>
    { s with
      mChannelMaxIdentifiers := erase inChannel s.mChannelMaxIdentifiers
      world.disconnected := insert inChannel s.world.disconnected }

/-- The first loop of `pushEvent`: sends the event to the channels, and returns those that are
disconnected. -/
def sendEvent (event : SignedEvent Json) : List Channel → Action Json Channel (List Channel)
  | [] => return []
  | channel :: channels => do
    let taken ← tryWrite channel (.Event event.toPartialEvent)
    let toDrop ← sendEvent event channels
    return if taken then toDrop else channel :: toDrop

/-- `pushEvent(event)`. A channel that does not take the event is disconnected, which pushes another
event. -/
def pushEventWithin : ℕ → SignedEvent Json → Action Json Channel Unit
  | 0, _ => throw .recursionLimit
  | limit + 1, event => do
    addEvent event.toPartialEvent
    match (← get).getChannelsForKey event.key with
    | .error e => throw (.assertion e)
    | .ok channels =>
      let toDrop ← sendEvent event channels
      toDrop.forM (disconnectWith (pushEventWithin limit))

/-- How deep `pushEvent` and `disconnect` call each other at most: at each level one channel loses its
ranges. -/
def depthLimit : ℕ := s.mRanges.keys.card + 1

/-- `pushEvent(event)`. -/
def pushEvent (event : SignedEvent Json) : Action Json Channel Unit := do
  pushEventWithin (← get).depthLimit event

/-- `disconnect(inChannel)`. -/
def disconnect : Action Json Channel Unit := do
  disconnectWith (pushEventWithin (← get).depthLimit) inChannel

/-! ## Messages -/

/-- `isValidEventFromClient(inChannel, inEvent)`. -/
def isValidEventFromClient (inEvent : SignedEvent Json) : Action Json Channel Bool := do
  let ranges := (← get).mRanges.get inChannel
  setRanges inChannel ranges
  match (ascending ranges.mRanges).anyM fun keyRange => keyRange.tryContains inEvent.key with
  | .error e => throw (.assertion e)
  | .ok isSubscribed =>
    return inEvent.key.keyspace ≠ (← get).clientInfoKeyspace ∧ isSubscribed

/-- A `RequestSession` message. -/
def requestSession (clientId : Option ℕ) : Action Json Channel Unit := do
  let newId ← match clientId with
    | none => do
      let newId ← rand
      let newGen ← newGenerator
      initializeClient inChannel newId (some newGen)
      pure newId
    | some clientId => do
      initializeClient inChannel clientId none
      pure clientId
  modify fun s => { s with mChannelIds := insert inChannel newId s.mChannelIds }
  pushEvent (← statusEvent inChannel ((← get).world.string "connected"))

/-- What a `Subscribe` message does once the lock has been released. -/
def writeNewRange (inChannel : Channel) : Action Json Channel Unit :=
    tryCatch (writeKeyRangeTo range inChannel) fun e =>
    match e with
    | .channelDisconnected => pure ()
    | e => throw e

mutual

/-- `handleIncomingMessage(inChannel, msg)`. -/
def handleIncomingMessage (inChannel : Channel) : MessageOut Json → Action Json Channel Unit
  | .Subscribe range => do
    if ← subscribe inChannel range then writeNewRange range inChannel
  | .Unsubscribe range => unsubscribe inChannel range
  | .MinimumIdResponse id =>
    modify fun s =>
      { s with mChannelMaxIdentifiers := insert inChannel id s.mChannelMaxIdentifiers }
  | .RequestSession clientId => requestSession inChannel clientId
  | .PushEvent event => do
    if ¬ (← isValidEventFromClient inChannel event) then throw .channelDisconnected
    modify fun s => { s with mNumEventsHandled := s.mNumEventsHandled + 1 }
    pushEvent event
  | .FlushRequest flushId => write inChannel (.FlushResponse flushId)
  | .Bundle messages => handleMessages inChannel messages

/-- The loop over the messages of a bundle. -/
def handleMessages (inChannel : Channel) : List (MessageOut Json) → Action Json Channel Unit
  | [] => pure ()
  | message :: messages => do
    handleIncomingMessage inChannel message
    handleMessages inChannel messages

end

/-! ## The threads of the manager -/

/-- `add(inChannel)`. -/
def add : Action Json Channel Unit := modify fun s =>
    { s with
      mChannels := insert inChannel s.mChannels
      mChannelMaxIdentifiers := insert inChannel 0 s.mChannelMaxIdentifiers }

/-- `compact(id)`; `due` says which logs are long enough to be compressed. -/
def compact (id : ℕ) (due : Keyspace Json → ℕ → Bool) : Action Json Channel Unit := do
  (ascending (← get).mKeyEvents.keys).forM fun keyspace => do
    (List.range ((← get).mKeyEvents.get keyspace).length).forM fun i =>
      onCache keyspace i (KeyspaceCache.newMinimumId id (due keyspace i))

/-- `mKeyEvents.erase(keyspace)`, after the pending writes of its caches were flushed. -/
def unload (keyspace : Keyspace Json) : KeyspaceManager Json Channel := { s with
    mKeyEvents := erase keyspace s.mKeyEvents
    mStorage := s.mStorage.map fun files =>
      (s.mKeyEvents.get keyspace).foldl (fun files cache =>
        match cache.mDataStore with
        | some store => insert (toLex (keyspace, cache.mIndex)) store files
        | none => files) files }

/-- `activeKeyspaces(inKeyspaces)`. -/
def activeKeyspaces (inKeyspaces : StdMap (Keyspace Json) ℤ) (s : KeyspaceManager Json Channel) :
    KeyspaceManager Json Channel :=
  if s.mStorage.isNone then s
  else
    let toDump := (ascending s.mKeyEvents.keys).filter fun keyspace =>
      keyspace ∉ inKeyspaces ∧ keyspace ≠ s.clientInfoKeyspace
    toDump.reverse.foldl unload s

/-- The loop of `check` over the channels: returns those to drop. -/
def writeMinimumIds (minVal globalMax : ℕ) : List Channel → Action Json Channel (List Channel)
  | [] => return []
  | channel :: channels => do
    let kept ←
      if channel ∉ (← get).mChannelMaxIdentifiers then pure false
      else tryWrite channel (.MinimumId minVal globalMax)
    let toDrop ← writeMinimumIds minVal globalMax channels
    return if kept then toDrop else channel :: toDrop

/-- `check()` up to its last call. -/
def checkChannels (due : Keyspace Json → ℕ → Bool) : Action Json Channel Unit := do
  let minValAndMaxVal := (← get).computeMinAndMaxIDs
  let toDrop ← writeMinimumIds minValAndMaxVal.1 minValAndMaxVal.2 (ascending (← get).mChannels)
  toDrop.forM disconnect
  compact minValAndMaxVal.1 due
  modify fun s => { s with mChannelMaxIdentifiers := ∅ }

/-- `check()`. -/
def check (due : Keyspace Json → ℕ → Bool) : Action Json Channel Unit := do
  checkChannels due
  modify fun s => s.activeKeyspaces s.mSubscribersPerKeyspace

/-- A turn of the loop of `incomingMessageLoop`: a message that throws disconnects its channel. -/
def orDisconnect (x : Action Json Channel Unit) : Action Json Channel Unit := tryCatch x fun _ => disconnect inChannel

variable (Json Channel) in
/-- What the threads do under the lock. -/
inductive Op where
  | add (inChannel : Channel)
  | receive (inChannel : Channel) (message : MessageOut Json)
  /-- A `Subscribe` message until it releases the lock. -/
  | subscribe (inChannel : Channel) (range : KeyRange Json)
  /-- A `Subscribe` message after that. -/
  | writeNewRange (range : KeyRange Json) (inChannel : Channel)
  | disconnect (inChannel : Channel)
  | check (due : Keyspace Json → ℕ → Bool)

/-- The call of an operation. -/
def Op.call : Op Json Channel → Action Json Channel Unit
  | .add inChannel => KeyspaceManager.add inChannel
  | .receive inChannel message => orDisconnect inChannel (handleIncomingMessage inChannel message)
  | .subscribe inChannel range =>
    orDisconnect inChannel (do let _ ← KeyspaceManager.subscribe inChannel range)
  | .writeNewRange range inChannel =>
    orDisconnect inChannel (KeyspaceManager.writeNewRange range inChannel)
  | .disconnect inChannel => KeyspaceManager.disconnect inChannel
  | .check due => KeyspaceManager.check due

/-- One operation. A call that throws leaves the state at the throw. -/
def step (op : Op Json Channel) : KeyspaceManager Json Channel := exec op.call s

variable (Json Channel) in
/-- `KeyspaceManager(randomSeed, ..., storage)`. -/
def new (randomSeed : ℕ) (mRandGenerator : RandomGenerator)
    (mStorage : Option (StdMap (Keyspace Json ×ₗ ℕ) (KeyspaceStorage Json)))
    (world : World Json Channel) : KeyspaceManager Json Channel where
  mManagerId := randomSeed
  mStorage := mStorage
  mRandGenerator := mRandGenerator
  world := world

end KeyspaceManager

end SharedState
