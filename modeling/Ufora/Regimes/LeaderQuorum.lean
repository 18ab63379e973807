import Ufora.Containers.MapWithIndex
import Ufora.Lib.Effect
import Ufora.Pages.Basic

/-!
# `LeaderQuorum`

`cumulus/LeaderQuorum.cppml`: one machine's part in agreeing on a regime. A machine keeps an event id
for each machine it is connected to, and the last hash that each of them sent of its own such ids. It
has a regime while all these hashes are equal to its own.

A machine is modelled together with the events that it emits: the states it broadcasts and the
regimes it announces, each with the event ids it has at that moment. The hash of a map of event ids
and the default hash are parameters. Timestamps are compared for equality only, so they are numbers
here, and the clock may give any.
-/

open Ordered Effect Finmap

namespace Cumulus

/-- `Regime`. -/
structure Regime (H : Type) where
  regimeHash : H
  leaderMachine : MachineId
  totalWorkers : ℕ
  deriving DecidableEq

/-- `LeaderQuorumMessage`. -/
inductive LeaderQuorumMessage (H : Type) where
  | MachineSetChanged (sourceMachine : MachineId) (eventIndex : ℤ) (currentHash : H)

/-- The event ids that a machine knows. -/
abbrev EventIds := StdMap MachineId ℤ

/-- The state of a `LeaderQuorum`, with the broadcasts that it has scheduled. -/
structure LeaderQuorum (H : Type) [DecidableEq H] where
  mOwnMachineId : MachineId
  mMachines : Finset MachineId
  mMachinesEverSeen : Finset MachineId := ∅
  mMachineEventIds : EventIds
  mMachineSetHashes : MapWithIndex MachineId H
  mLastBroadcastRegime : Option (Regime H) := none
  mEventIndex : ℤ := 0
  /-- Not read before `broadcastCurrentState_` has set it. -/
  mNextBroadcastTimestamp : ℕ := 0
  mScheduled : List ℕ := []

/-- What a machine emits. -/
inductive Emission (H : Type) where
  /-- `mOnLeaderQuorumMessage`: the machine broadcasts its state. -/
  | broadcast (machine : MachineId) (eventIds : EventIds) (message : LeaderQuorumMessage H)
  /-- `mOnRegimeChanged`: the machine announces a regime, or that it has none. -/
  | announced (machine : MachineId) (eventIds : EventIds) (regime : Option (Regime H))

/-- A machine with what it emits in the running call. -/
structure ObservedQuorum (H : Type) [DecidableEq H] where
  quorum : LeaderQuorum H
  emitted : List (Emission H) := []

namespace LeaderQuorum

/-- The `lassert` that failed. -/
inductive AssertionFailed
  /-- `addMachine`: the machine has been added before. -/
  | everSeen (machine : MachineId)
  /-- `dropMachine`: the machine is not there. -/
  | unknown (machine : MachineId)
  /-- `MapWithIndex`: the machine has no hash. -/
  | noHash (machine : MachineId)
  /-- The first of no machines is read. -/
  | noMachine

variable {H : Type} [DecidableEq H] (hashValue : EventIds → H) (unset : H)

/-- A member function. -/
abbrev Action (H : Type) [DecidableEq H] := EStateM AssertionFailed (ObservedQuorum H)

/-- Reads the state. -/
def self : Action H (LeaderQuorum H) := do return (← get).quorum

/-- Updates the state. -/
def update (f : LeaderQuorum H → LeaderQuorum H) : Action H Unit := modify fun o => { o with quorum := f o.quorum }

/-- `broadcast` of one of the two event broadcasters. -/
def emit (emission : LeaderQuorum H → Emission H) : Action H Unit :=
  modify fun o => { o with emitted := o.emitted ++ [emission o.quorum] }

/-- `curHash_()`. -/
def curHash_ (q : LeaderQuorum H) : H := hashValue q.mMachineEventIds

/-- `LeaderQuorum(inOwnMachine, inCallbackScheduler)`. -/
def new (inOwnMachine : MachineId) : LeaderQuorum H where
  mOwnMachineId := inOwnMachine
  mMachines := {inOwnMachine}
  mMachineEventIds := insert inOwnMachine 0 ∅
  mMachineSetHashes := (∅ : MapWithIndex MachineId H).set inOwnMachine (hashValue (insert inOwnMachine 0 ∅))

/-- `mMachineSetHashes.getValue(mOwnMachineId)`. -/
def ownHash : Action H H := do
  match (← self).mMachineSetHashes.tryGetValue (← self).mOwnMachineId with
  | some hash => return hash
  | none => throw (.noHash (← self).mOwnMachineId)

/-- `consensusExists_()`. -/
def consensusExists_ : Action H Bool := do
  let curHash ← ownHash
  return decide (((← self).mMachineSetHashes.getKeys curHash).card = (← self).mMachines.card)

/-- `currentRegime_()`. -/
def currentRegime_ : Action H (Option (Regime H)) := do
  if ¬ (← consensusExists_) then return none
  let regimeHash ← ownHash
  match (ascending (← self).mMachines).head? with
  | some leader => return some ⟨regimeHash, leader, (← self).mMachines.card⟩
  | none => throw .noMachine

/-- `mOnRegimeChanged.broadcast(regime)`. -/
def announce (regime : Option (Regime H)) : Action H Unit :=
  emit fun q => .announced q.mOwnMachineId q.mMachineEventIds regime

/-- `checkForNewConsensus()`. -/
def checkForNewConsensus : Action H Unit := do
  let regime ← currentRegime_
  if regime ≠ (← self).mLastBroadcastRegime then
    if regime.isSome ∧ (← self).mLastBroadcastRegime.isSome then
      announce none
    update fun q => { q with mLastBroadcastRegime := regime }
    announce regime

variable (timestamp : ℕ)

/-- `broadcastCurrentState_()`, with the time at which the broadcast is due. -/
def broadcastCurrentState_ : Action H Unit := update fun q =>
    { q with
      mNextBroadcastTimestamp := timestamp
      mScheduled := timestamp :: q.mScheduled }

/-- `checkTimestampAndBroadcast(timestamp)`. -/
def checkTimestampAndBroadcast : Action H Unit := do
  if timestamp = (← self).mNextBroadcastTimestamp then
    emit fun q => .broadcast q.mOwnMachineId q.mMachineEventIds
      (.MachineSetChanged q.mOwnMachineId q.mEventIndex (q.curHash_ hashValue))

/-- A scheduled call of `checkTimestampAndBroadcast`. -/
def runScheduled : Action H Unit := do
  if timestamp ∈ (← self).mScheduled then
    update fun q => { q with mScheduled := q.mScheduled.erase timestamp }
    checkTimestampAndBroadcast hashValue timestamp

/-- `mMachineSetHashes.set(mOwnMachineId, curHash_())`. -/
def setOwnHash (q : LeaderQuorum H) : LeaderQuorum H :=
  { q with mMachineSetHashes := q.mMachineSetHashes.set q.mOwnMachineId (q.curHash_ hashValue) }

/-- `mEventIndex++`, and the machine's own event id with it. -/
def bumpEventIndex (q : LeaderQuorum H) : LeaderQuorum H := { q with
    mEventIndex := q.mEventIndex + 1
    mMachineEventIds := insert q.mOwnMachineId (q.mEventIndex + 1) q.mMachineEventIds }

/-- `forceRegimeChange()`. -/
def forceRegimeChange : Action H Unit := do
  update fun q => q.bumpEventIndex.setOwnHash hashValue
  broadcastCurrentState_ timestamp
  checkForNewConsensus

/-- `addMachine(inMachine)`. -/
def addMachine (inMachine : MachineId) (timestamp : ℕ) : Action H Unit := do
  lassert (inMachine ∉ (← self).mMachinesEverSeen) (.everSeen inMachine)
  update fun q => { q with mMachinesEverSeen := insert inMachine q.mMachinesEverSeen }
  update bumpEventIndex
  update fun q =>
    { q with
      mMachineEventIds := insert inMachine 0 q.mMachineEventIds
      mMachines := insert inMachine q.mMachines }
  update (setOwnHash hashValue)
  update fun q => { q with mMachineSetHashes := q.mMachineSetHashes.set inMachine unset }
  broadcastCurrentState_ timestamp
  checkForNewConsensus

/-- `dropMachine(inMachine)`. -/
def dropMachine (inMachine : MachineId) (timestamp : ℕ) : Action H Unit := do
  lassert (inMachine ∈ (← self).mMachines) (.unknown inMachine)
  update fun q =>
    { q with
      mMachines := q.mMachines.erase inMachine
      mMachineEventIds := erase inMachine q.mMachineEventIds }
  update bumpEventIndex
  lassert ((← self).mMachineSetHashes.hasKey inMachine) (.noHash inMachine)
  update fun q => { q with mMachineSetHashes := q.mMachineSetHashes.discard inMachine }
  update (setOwnHash hashValue)
  checkForNewConsensus
  broadcastCurrentState_ timestamp

/-- `handleLeaderQuorumMessage(message)`. -/
def handleLeaderQuorumMessage (message : LeaderQuorumMessage H) (timestamp : ℕ) : Action H Unit := do
  let .MachineSetChanged machine index hash := message
  if machine ∉ (← self).mMachines then return
  update fun q => { q with mMachineSetHashes := q.mMachineSetHashes.set machine hash }
  if machine ∉ (← self).mMachineEventIds ∨ (← self).mMachineEventIds.get machine < index then
    update fun q =>
      { q with mMachineEventIds := insert machine index q.mMachineEventIds }
    update (setOwnHash hashValue)
    broadcastCurrentState_ timestamp
  checkForNewConsensus

end LeaderQuorum

/-! ## Rules -/

namespace LeaderQuorum

variable {H : Type} [DecidableEq H] {o : ObservedQuorum H}
  {E : AssertionFailed → ObservedQuorum H → Prop}

@[simp] theorem wp_self {Q : LeaderQuorum H → ObservedQuorum H → Prop} : wp self Q E o ↔ Q o.quorum o := Iff.rfl

@[simp] theorem wp_update {Q : PUnit → ObservedQuorum H → Prop} (f : LeaderQuorum H → LeaderQuorum H) :
    wp (update f) Q E o ↔ Q ⟨⟩ { o with quorum := f o.quorum } := Iff.rfl

@[simp] theorem wp_emit {Q : PUnit → ObservedQuorum H → Prop} (emission : LeaderQuorum H → Emission H) :
    wp (emit emission) Q E o ↔ Q ⟨⟩ { o with emitted := o.emitted ++ [emission o.quorum] } := Iff.rfl

theorem wp_ownHash {Q : H → ObservedQuorum H → Prop} {h : H}
    (hh : o.quorum.mMachineSetHashes.tryGetValue o.quorum.mOwnMachineId = some h) :
    wp ownHash Q E o ↔ Q h o := by
  unfold ownHash
  rw [wp_bind, wp_self, wp_bind, wp_self, hh]
  exact Iff.rfl

end LeaderQuorum

/-! ## The network -/

/-- Machines, and the messages under way from each to each. -/
structure Network (H : Type) [DecidableEq H] where
  machine : MachineId → LeaderQuorum H
  channel : MachineId → MachineId → List (LeaderQuorumMessage H)
  history : List (Emission H) := []

namespace Network

variable {H : Type} [DecidableEq H] (hashValue : EventIds → H) (unset : H)

/-- Every machine on its own. -/
def start : Network H where
  machine := LeaderQuorum.new hashValue
  channel _ _ := []

/-- The messages that are broadcast. -/
def messages (emitted : List (Emission H)) : List (LeaderQuorumMessage H) := emitted.filterMap fun
    | .broadcast _ _ message => some message
    | .announced _ _ _ => none

/-- A call on one machine. What it broadcasts goes to every other machine; a machine that is not
connected loses it. -/
def act (n : Network H) (machine : MachineId) (x : LeaderQuorum.Action H Unit) : Network H :=
  let o := exec x { quorum := n.machine machine }
  { machine := Function.update n.machine machine o.quorum
    channel := fun source target =>
      if source = machine ∧ target ≠ machine then n.channel source target ++ messages o.emitted
      else n.channel source target
    history := n.history ++ o.emitted }

/-- Takes the first message out of a channel. -/
def dequeue (n : Network H) (source target : MachineId) : Network H := { n with
    channel := fun s t =>
      if s = source ∧ t = target then (n.channel s t).tail else n.channel s t }

/-- What happens: a machine adds or drops another one, forces a new regime, or gets to a scheduled
broadcast, and a channel delivers or loses its first message. -/
inductive Op where
  | addMachine (machine inMachine : MachineId) (other : inMachine ≠ machine) (timestamp : ℕ)
  | dropMachine (machine inMachine : MachineId) (other : inMachine ≠ machine) (timestamp : ℕ)
  | forceRegimeChange (machine : MachineId) (timestamp : ℕ)
  | runScheduled (machine : MachineId) (timestamp : ℕ)
  | deliver (source target : MachineId) (timestamp : ℕ)
  | lose (source target : MachineId)

/-- One step. A call that throws leaves the state at the throw. -/
def step (n : Network H) : Op → Network H
  | .addMachine machine inMachine _ timestamp =>
    n.act machine (LeaderQuorum.addMachine hashValue unset inMachine timestamp)
  | .dropMachine machine inMachine _ timestamp =>
    n.act machine (LeaderQuorum.dropMachine hashValue inMachine timestamp)
  | .forceRegimeChange machine timestamp =>
    n.act machine (LeaderQuorum.forceRegimeChange hashValue timestamp)
  | .runScheduled machine timestamp =>
    n.act machine (LeaderQuorum.runScheduled hashValue timestamp)
  | .deliver source target timestamp =>
    match (n.channel source target).head? with
    | some message => (n.dequeue source target).act target
        (LeaderQuorum.handleLeaderQuorumMessage hashValue message timestamp)
    | none => n
  | .lose source target => n.dequeue source target

end Network

end Cumulus
