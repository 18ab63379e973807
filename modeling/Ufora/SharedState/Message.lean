import Ufora.SharedState.AssembledEvent

/-!
# Messages and the channel of a view

`distributed/SharedState/Message.hppml` and `BundlingChannel.hppml`: what a view sends to the manager,
and the channel that collects messages and writes them in bundles to the channel that it wraps. The
wrapped channel is the outside world here: `accepts` says which of the writes to it succeed.
-/

open Option List

namespace SharedState

variable (Json : Type) [LinearOrder Json] in
/-- `MessageOut`. -/
inductive MessageOut where
  | Subscribe (range : KeyRange Json)
  | Unsubscribe (range : KeyRange Json)
  | PushEvent (event : SignedEvent Json)
  | MinimumIdResponse (id : ℕ)
  | RequestSession (clientId : Option ℕ)
  | FlushRequest (flushId : ℕ)
  | Bundle (messages : List (MessageOut))

/-- `RandomGenerator`: the hash that its next number is made of. -/
structure RandomGenerator where
  seed : ℕ

variable (Json : Type) [LinearOrder Json] in
/-- `MessageIn`: what the manager sends to a client. -/
inductive MessageIn where
  | KeyRangeLoaded (range : KeyRange Json)
  | BaseValue (key : Key Json) (value : ValueType Json)
  | Event (event : PartialEvent Json)
  | MinimumId (id : ℕ) (maxId : ℕ)
  | Initialize (clientId : ℕ) (masterId : ℕ) (generator : Option RandomGenerator)
  | FlushResponse (flushId : ℕ)

/-- A `BundlingChannel`, and what the channel that it wraps has taken. -/
structure BundlingChannel (Json : Type) [LinearOrder Json] where
  mQueue : List (MessageOut Json) := []
  mBundleSize : ℕ := 50
  mIsDisconnected : Bool := false
  /-- The bundles that were written to `mChannelToWrap`. -/
  delivered : List (List (MessageOut Json)) := []
  /-- Whether `mChannelToWrap` takes the bundle after these. -/
  accepts : List (List (MessageOut Json)) → Bool

namespace BundlingChannel

variable {Json : Type} [LinearOrder Json]

/-- `messageForcesFlush(in)`. -/
def messageForcesFlush : MessageOut Json → Bool
  | .FlushRequest _ => true
  | _ => false

variable (c : BundlingChannel Json)

/-- `pumpQueuedMessages()`. -/
def pumpQueuedMessages : BundlingChannel Json :=
  if c.mQueue.length = 0 then c
  else if c.accepts c.delivered then
    { c with delivered := c.delivered ++ [c.mQueue], mQueue := [] }
  else { c with mIsDisconnected := true }

/-- `write(in)`: throws `ChannelDisconnected` if the channel is disconnected. -/
def write (message : MessageOut Json) : Option (BundlingChannel Json) :=
  if c.mIsDisconnected then none
  else
    let c := { c with mQueue := c.mQueue ++ [message] }
    if c.mQueue.length > c.mBundleSize ∨ messageForcesFlush message then
      some c.pumpQueuedMessages
    else some c

/-- The messages that the channel has taken, in order. -/
def sent : List (MessageOut Json) := c.delivered.flatten ++ c.mQueue

theorem sent_pumpQueuedMessages : c.pumpQueuedMessages.sent = c.sent := by
  unfold pumpQueuedMessages
  split
  · rfl
  · split
    · simp [sent]
    · rfl

/-- A message that is written is sent after those before. -/
theorem sent_write {c c' : BundlingChannel Json} {msg : MessageOut Json}
    (h : c.write msg = some c') : c'.sent = c.sent ++ [msg] := by
  unfold write at h
  split at h
  · cases h
  · simp only at h
    split at h
    · rw [← some.inj h, sent_pumpQueuedMessages]
      simp [sent]
    · rw [← some.inj h]
      simp [sent]

/-- A write fails only if the channel is disconnected. -/
theorem write_eq_none_iff {c : BundlingChannel Json} {msg : MessageOut Json} :
    c.write msg = none ↔ c.mIsDisconnected = true := by
  unfold write
  split
  · next h => exact iff_of_true rfl h
  · next h =>
    refine iff_of_false ?_ h
    simp only
    split <;> exact some_ne_none _

/-- Writes one message after another. -/
def writeAll (messages : List (MessageOut Json)) : Option (BundlingChannel Json) := messages.foldlM write c

theorem sent_writeAll {c c' : BundlingChannel Json} {messages : List (MessageOut Json)}
    (h : c.writeAll messages = some c') : c'.sent = c.sent ++ messages := by
  induction messages generalizing c with
  | nil =>
    cases h
    exact (append_nil _).symm
  | cons message messages ih =>
    rw [writeAll, foldlM_cons, bind_eq_bind, bind_eq_some_iff] at h
    obtain ⟨d, hd, h⟩ := h
    rw [ih h, sent_write hd, append_assoc]
    rfl

end BundlingChannel

end SharedState
