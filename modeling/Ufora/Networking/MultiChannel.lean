import Mathlib

/-!
# `MultiChannel`

`networking/MultiChannel.hpp`: messages go out on one of several channels, with an ordinal each, and the other end
hands them on in about the order in which they were written. Every member function holds the lock from its first
access to its last, so a call is one step. Ordinals are `uint32_t`.
-/

namespace Networking

/-- `ordinal + 1`, a `uint32_t`. -/
def succOrdinal (ordinal : ℕ) : ℕ := (ordinal + 1) % 2 ^ 32

/-- The greatest `message_ordinal_type`. -/
def lastOrdinal : ℕ := 2 ^ 32 - 1

/-- A `delayed_message_tuple`: a message with its ordinal and the channel that it came on. -/
structure DelayedMessage (M : Type) where
  ordinal : ℕ
  channelIndex : ℕ
  message : M
  deriving DecidableEq

namespace DelayedMessage

variable {M : Type}

/-- The order of the queue. The messages, which are compared last, are left out: no two have one ordinal. -/
def ComesBefore (a b : DelayedMessage M) : Prop :=
  a.ordinal < b.ordinal ∨ a.ordinal = b.ordinal ∧ a.channelIndex ≤ b.channelIndex
deriving Decidable

end DelayedMessage

/-- A `MultiChannel`, with what it scheduled for the message handler: each message with its ordinal and channel. -/
structure MultiChannel (M : Type) where
  mLastOutboundMessageOrdinal : ℕ := 0
  mMaxDispatchedMessageOrdinal : ℕ := 0
  mDelayedMessages : List (DelayedMessage M) := []
  scheduled : List (DelayedMessage M) := []

namespace MultiChannel

variable {M : Type} (s : MultiChannel M)

/-- `scheduleMessageCallback`. -/
def scheduleMessageCallback (message : DelayedMessage M) : MultiChannel M :=
  { s with scheduled := s.scheduled ++ [message] }

/-- `shouldDelayMessage_`. -/
def shouldDelayMessage (channelIndex ordinal : ℕ) : Bool :=
  if ordinal ≤ succOrdinal s.mMaxDispatchedMessageOrdinal then false
  else if channelIndex = 0 then false
  else true

/-- The loop of `dispatchDelayedMessages` over the queue, from its top. -/
def dispatchDelayed (s : MultiChannel M) (lastOrdinal : ℕ) : List (DelayedMessage M) → MultiChannel M
  | [] => { s with mDelayedMessages := [] }
  | delayed :: rest =>
    if delayed.ordinal ≤ succOrdinal lastOrdinal then
      dispatchDelayed
        ({ s with
            mMaxDispatchedMessageOrdinal := max s.mMaxDispatchedMessageOrdinal delayed.ordinal
          }.scheduleMessageCallback delayed)
        (max lastOrdinal delayed.ordinal) rest
    else { s with mDelayedMessages := delayed :: rest }

/-- `dispatchDelayedMessages`. -/
def dispatchDelayedMessages (lastOrdinal : ℕ) : MultiChannel M := s.dispatchDelayed lastOrdinal s.mDelayedMessages

/-- `incomingMessageOnChannel`. -/
def incomingMessageOnChannel (message : DelayedMessage M) : MultiChannel M :=
  if s.shouldDelayMessage message.channelIndex message.ordinal then
    { s with mDelayedMessages := s.mDelayedMessages.orderedInsert DelayedMessage.ComesBefore message }
  else
    ({ s with
        mMaxDispatchedMessageOrdinal := max s.mMaxDispatchedMessageOrdinal message.ordinal
      }.scheduleMessageCallback message).dispatchDelayedMessages message.ordinal

/-- `write`: the message as it goes out on its channel; null where an assertion fails. -/
def write (channels : ℕ) (mOutgoingChannelSelector : M → ℕ) (msg : M) : Option (MultiChannel M × DelayedMessage M) :=
  if mOutgoingChannelSelector msg < channels then
    let newOrdinal := succOrdinal s.mLastOutboundMessageOrdinal
    some ({ s with mLastOutboundMessageOrdinal := newOrdinal }, ⟨newOrdinal, mOutgoingChannelSelector msg, msg⟩)
  else none

/-! ## Two ends -/

/-- A sender, a receiver, and what was written and has not arrived, in the order in which it was written. -/
structure System (M : Type) where
  sender : MultiChannel M := {}
  receiver : MultiChannel M := {}
  inFlight : List (DelayedMessage M) := []
  written : List (DelayedMessage M) := []

namespace System

/-- A message is written, or the next message on a channel arrives. -/
inductive Op (M : Type)
  | write (msg : M)
  | arrive (channelIndex : ℕ)

/-- The next message on a channel. -/
def next (sys : System M) (channelIndex : ℕ) : Option (DelayedMessage M) :=
  sys.inFlight.find? fun message => message.channelIndex = channelIndex

/-- A step. No more messages are written than there are ordinals. -/
def step (channels : ℕ) (mOutgoingChannelSelector : M → ℕ) (sys : System M) : Op M → Option (System M)
  | .write msg =>
    if sys.written.length < lastOrdinal then do
      let (sender, message) ← sys.sender.write channels mOutgoingChannelSelector msg
      return { sys with sender, inFlight := sys.inFlight ++ [message], written := sys.written ++ [message] }
    else none
  | .arrive channelIndex => do
    let message ← sys.next channelIndex
    return { sys with
      receiver := sys.receiver.incomingMessageOnChannel message
      inFlight := sys.inFlight.eraseP fun message => message.channelIndex = channelIndex }

end System

end MultiChannel

end Networking
