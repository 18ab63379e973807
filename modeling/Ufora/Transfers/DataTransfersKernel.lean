import Ufora.Containers.MapWithIndex
import Ufora.Lib.Effect
import Ufora.Lib.Run
import Mathlib.Algebra.BigOperators.Group.Finset.Basic
import Mathlib.Algebra.Ring.Int.Defs

/-!
# `DataTransfersKernel`

`cumulus/DataTransfersKernel.hppml`: which large messages are on their way. Messages wait in one queue for each
priority, and every operation ends with a loop that sends from the fronts of the queues until nothing waits or
the bytes on their way are above a limit.

The times that only the log reads are left out. Bytecounts are integers; where the source multiplies one by the
unsigned number of queues, the comparison is one of unsigned numbers.
-/

open Ordered Effect Finmap

namespace Cumulus

/-- `DataTransfersQueuedCallback`, without the two functions that the kernel does not call. -/
structure DataTransfersQueuedCallback (ε τ κ : Type) where
  target : ε
  onMessageCompleted : κ
  token : τ
  priority : ℤ
  deriving DecidableEq

/-- A call of `mOnSendCallback`, with the bytes on their way and the limit at the time of the call. -/
structure SendCallback (ε τ κ : Type) where
  message : DataTransfersQueuedCallback ε τ κ
  totalBytesOutstanding : ℤ
  maxBytecountOutstanding : ℤ

/-- A `DataTransfersKernel`, and the calls that it has made of its three callbacks. -/
structure DataTransfersKernel (ε τ κ : Type) [LinearOrder ε] [LinearOrder τ] where
  mMaxOutstandingBytecount : ℤ
  mEndpoints : Finset ε := ∅
  mEndpointsEverDropped : Finset ε := ∅
  mTransferIdBytesizes : StdMap τ ℤ := ∅
  mPriorityChannelBytesSent : StdMap ℤ ℤ := ∅
  mUntriggeredCallbacksByPriority : StdMap ℤ (List (DataTransfersQueuedCallback ε τ κ)) := ∅
  mTotalOutstandingBytecounts : ℤ := 0
  mTransferIdsSent : MapWithIndex τ ε := ∅
  mOnReceiveTransferredToken : StdMap τ κ := ∅
  onSendCallback : List (SendCallback ε τ κ) := []
  onCallbackNotGoingToBeSent : List (DataTransfersQueuedCallback ε τ κ) := []
  onTriggerTokenReceivedCallback : List κ := []

namespace DataTransfersKernel

variable {ε τ κ : Type} [LinearOrder ε] [LinearOrder τ]

/-- What stops an operation: a failing assertion, the front of an empty queue, a loop over a set that its body
erases from, and the limit on the turns of the send loop. -/
inductive KernelError where
  | targetDropped
  | endpointExists
  | endpointMissing
  | transferIdMissing
  | transferIdNotSent
  | nothingQueued
  | emptyQueue
  | iteratorInvalidated
  | turnsExhausted

/-- A member function. -/
abbrev Call (ε τ κ : Type) [LinearOrder ε] [LinearOrder τ] := EStateM KernelError (DataTransfersKernel ε τ κ)

variable (s : DataTransfersKernel ε τ κ)

/-- The messages of a priority that wait. -/
def queue (priority : ℤ) : List (DataTransfersQueuedCallback ε τ κ) := s.mUntriggeredCallbacksByPriority.get priority

/-! ## The send loop -/

/-- The priorities with a queue, in the order of the loops over `mUntriggeredCallbacksByPriority`. -/
def priorities : List ℤ := ascending s.mUntriggeredCallbacksByPriority.keys

/-- `mPriorityChannelBytesSent[priority]` for each priority with a queue: an entry where there was none. -/
def touchPriorityChannels : DataTransfersKernel ε τ κ := { s with
    mPriorityChannelBytesSent := s.priorities.foldl
      (fun bytesSent priority => insert priority (bytesSent.get priority) bytesSent)
      s.mPriorityChannelBytesSent }

/-- The test of `chooseBestPriority`: less than its share was sent of this priority. Multiplied by a `size_t`, the
bytecount is an unsigned number of 64 bits, and so is then the total it is compared with. -/
def belowShare (totalBytesSent priority : ℤ) : Bool :=
  decide ((s.mPriorityChannelBytesSent.get priority * s.priorities.length) % 2 ^ 64 < totalBytesSent % 2 ^ 64)

/-- `chooseBestPriority()`. -/
def chooseBestPriority : Call ε τ κ ℤ := do
  let s ← get
  match s.priorities with
  | [] => throw .nothingQueued
  | [priority] => return priority
  | first :: second :: others => do
    modify touchPriorityChannels
    let s ← get
    let totalBytesSent := (s.priorities.map fun priority => s.mPriorityChannelBytesSent.get priority).sum
    match s.priorities.find? (s.belowShare totalBytesSent) with
    | some priority => return priority
    | none => return (first :: second :: others).getLast (List.cons_ne_nil _ _)

/-- What a turn of the loop that sends does: the front of a queue is sent, and a queue that is empty then is
erased. -/
def sendFront (priorityLevel : ℤ) (front : DataTransfersQueuedCallback ε τ κ)
    (others : List (DataTransfersQueuedCallback ε τ κ)) : DataTransfersKernel ε τ κ :=
  let size := s.mTransferIdBytesizes.get front.token
  { s with
    onSendCallback := s.onSendCallback ++ [⟨front, s.mTotalOutstandingBytecounts, s.mMaxOutstandingBytecount⟩]
    mTransferIdsSent := s.mTransferIdsSent.set front.token front.target
    mOnReceiveTransferredToken := insert front.token front.onMessageCompleted s.mOnReceiveTransferredToken
    mUntriggeredCallbacksByPriority :=
      if others.isEmpty then erase priorityLevel s.mUntriggeredCallbacksByPriority
      else insert priorityLevel others s.mUntriggeredCallbacksByPriority
    mTransferIdBytesizes := insert front.token size s.mTransferIdBytesizes
    mPriorityChannelBytesSent := insert priorityLevel (s.mPriorityChannelBytesSent.get priorityLevel + size)
        s.mPriorityChannelBytesSent
    mTotalOutstandingBytecounts := s.mTotalOutstandingBytecounts + size }

/-- A turn of the loop where something waits, from the choice of a priority on: it returns, or sends and goes on
with the next turn. -/
def sendTurn (next : Call ε τ κ Unit) : Call ε τ κ Unit := do
  let priorityLevel ← chooseBestPriority
  let s ← get
  match s.queue priorityLevel with
  | [] => throw .emptyQueue
  | front :: others => do
    if s.mTotalOutstandingBytecounts > s.mMaxOutstandingBytecount then return ()
    modify fun s => s.sendFront priorityLevel front others
    next

/-- The loop of `sendIfAppropriate`, with a limit on its turns. -/
def sendLoop : ℕ → Call ε τ κ Unit
  | 0 => throw .turnsExhausted
  | turns + 1 => do
    let s ← get
    if s.priorities.length = 0 then return ()
    if s.priorities.length = 1 then modify fun s => { s with mPriorityChannelBytesSent := ∅ }
    sendTurn (sendLoop turns)

/-- The number of messages that wait. -/
def waiting : ℕ := ∑ priority ∈ s.mUntriggeredCallbacksByPriority.keys, (s.queue priority).length

/-- `sendIfAppropriate()`: no more turns than messages that wait, and the one that returns. -/
def sendIfAppropriate : Call ε τ κ Unit := do
  let s ← get
  sendLoop (s.waiting + 1)

/-! ## The operations -/

/-- `removeTransferId(token)`. -/
def removeTransferId (token : τ) : Call ε τ κ Unit := do
  let s ← get
  match lookup token s.mTransferIdBytesizes with
  | none => throw .transferIdMissing
  | some size => do
    if s.mTransferIdsSent.hasKey token then
      modify fun s => { s with mTotalOutstandingBytecounts := s.mTotalOutstandingBytecounts - size }
    lassert (s.mTransferIdsSent.hasKey token) .transferIdNotSent
    modify fun s =>
      { s with
        mTransferIdsSent := s.mTransferIdsSent.discard token
        mTransferIdBytesizes := erase token s.mTransferIdBytesizes
        mOnReceiveTransferredToken := erase token s.mOnReceiveTransferredToken }

/-- `scheduleLargeMessage(callback)`. -/
def scheduleLargeMessage (callback : DataTransfersQueuedCallback ε τ κ) : Call ε τ κ Unit := do
  let s ← get
  lassert (callback.target ∉ s.mEndpointsEverDropped) .targetDropped
  modify fun s =>
    { s with
      mUntriggeredCallbacksByPriority := insert callback.priority (s.queue callback.priority ++ [callback])
          s.mUntriggeredCallbacksByPriority }
  sendIfAppropriate

/-- `addEndpoint(endpoint)`. -/
def addEndpoint (endpoint : ε) : Call ε τ κ Unit := do
  let s ← get
  lassert (endpoint ∉ s.mEndpoints) .endpointExists
  modify fun s => { s with mEndpoints := insert endpoint s.mEndpoints }

/-- The messages that wait, each with the priority of its queue, in the order of the loop of `dropEndpoint`. -/
def untriggered : List (ℤ × DataTransfersQueuedCallback ε τ κ) :=
  s.priorities.flatMap fun priority => (s.queue priority).map fun callback => (priority, callback)

/-- A turn of the loop of `dropEndpoint` over the messages that wait: a message for another endpoint stays, one
for this endpoint is reported. -/
def sortOut (endpoint : ε) (newCallbacks : StdMap ℤ (List (DataTransfersQueuedCallback ε τ κ)))
    (priorityAndCallback : ℤ × DataTransfersQueuedCallback ε τ κ) :
    Call ε τ κ (StdMap ℤ (List (DataTransfersQueuedCallback ε τ κ))) := do
  if priorityAndCallback.2.target ≠ endpoint then
    return insert priorityAndCallback.1
      (newCallbacks.get priorityAndCallback.1 ++ [priorityAndCallback.2]) newCallbacks
  modify fun s =>
    { s with onCallbackNotGoingToBeSent := s.onCallbackNotGoingToBeSent ++ [priorityAndCallback.2] }
  return newCallbacks

/-- `dropEndpoint(endpoint)`. The first loop is over the very set of keys that `removeTransferId` erases the token
from, so that there is nothing to go on with after its first turn. -/
def dropEndpoint (endpoint : ε) : Call ε τ κ Unit := do
  let s ← get
  lassert (endpoint ∈ s.mEndpoints) .endpointMissing
  modify fun s =>
    { s with
      mEndpoints := s.mEndpoints.erase endpoint
      mEndpointsEverDropped := insert endpoint s.mEndpointsEverDropped }
  (ascending (s.mTransferIdsSent.getKeys endpoint)).forM fun token => do
    removeTransferId token
    throw .iteratorInvalidated
  let newCallbacks ← s.untriggered.foldlM (sortOut endpoint) ∅
  modify fun s => { s with mUntriggeredCallbacksByPriority := newCallbacks }
  sendIfAppropriate

/-- `tokenReceived(inTransferId)`. -/
def tokenReceived (inTransferId : τ) : Call ε τ κ Unit := do
  let s ← get
  match lookup inTransferId s.mOnReceiveTransferredToken with
  | some onMessageCompleted =>
    modify fun s =>
      { s with
        onTriggerTokenReceivedCallback := s.onTriggerTokenReceivedCallback ++ [onMessageCompleted] }
  | none => pure ()
  removeTransferId inTransferId
  sendIfAppropriate

/-- `allocateTransferId(inTransferId, expectedByteSize)`. -/
def allocateTransferId (inTransferId : τ) (expectedByteSize : ℤ) : Call ε τ κ Unit := modify fun s =>
    { s with mTransferIdBytesizes := insert inTransferId expectedByteSize s.mTransferIdBytesizes }

/-- `updateBytecount(token, newBytecount)`. -/
def updateBytecount (token : τ) (newBytecount : ℤ) : Call ε τ κ Unit := do
  let s ← get
  match lookup token s.mTransferIdBytesizes with
  | none => return ()
  | some size => do
    if s.mTransferIdsSent.hasKey token then
      modify fun s =>
        { s with mTotalOutstandingBytecounts := s.mTotalOutstandingBytecounts - size + newBytecount }
    modify fun s =>
      { s with mTransferIdBytesizes := insert token newBytecount s.mTransferIdBytesizes }
    sendIfAppropriate

/-- `totalBytesOutstanding()`. -/
def totalBytesOutstanding : ℤ := s.mTotalOutstandingBytecounts

/-- `setThreshold(newByteThreshold)`. -/
def setThreshold (newByteThreshold : ℤ) : Call ε τ κ Unit := do
  modify fun s => { s with mMaxOutstandingBytecount := newByteThreshold }
  sendIfAppropriate

/-! ## The operations in any order -/

/-- The calls of a kernel. -/
inductive Op (ε τ κ : Type) where
  | addEndpoint (endpoint : ε)
  | dropEndpoint (endpoint : ε)
  | allocateTransferId (token : τ) (expectedByteSize : ℤ)
  | scheduleLargeMessage (callback : DataTransfersQueuedCallback ε τ κ)
  | tokenReceived (token : τ)
  | updateBytecount (token : τ) (newBytecount : ℤ)
  | setThreshold (newByteThreshold : ℤ)

/-- A kernel and what its callers know: the tokens they have allocated with the sizes they have told last, the
messages they have scheduled, in order, and the tokens they have received. -/
structure System (ε τ κ : Type) [LinearOrder ε] [LinearOrder τ] where
  kernel : DataTransfersKernel ε τ κ
  sizes : StdMap τ ℤ := ∅
  scheduled : List (DataTransfersQueuedCallback ε τ κ) := []
  received : Finset τ := ∅

/-- Before the first call. -/
def System.initial (maxBytecountOutstanding : ℤ) : System ε τ κ :=
  { kernel := { mMaxOutstandingBytecount := maxBytecountOutstanding } }

namespace System

/-- The messages that were sent. -/
def sent (t : System ε τ κ) : List (DataTransfersQueuedCallback ε τ κ) :=
  t.kernel.onSendCallback.map SendCallback.message

/-- The tokens that were sent and not yet received. -/
def outstanding (t : System ε τ κ) : Finset τ := (t.sent.map DataTransfersQueuedCallback.token).toFinset \ t.received

/-- One call. A call that throws leaves the kernel as it is at the throw. -/
def step (t : System ε τ κ) : Op ε τ κ → System ε τ κ
  | .addEndpoint endpoint =>
    { t with kernel := exec (addEndpoint endpoint) t.kernel }
  | .dropEndpoint endpoint =>
    { t with kernel := exec (dropEndpoint endpoint) t.kernel }
  | .allocateTransferId token expectedByteSize =>
    { t with
      kernel := exec (allocateTransferId token expectedByteSize) t.kernel
      sizes := insert token expectedByteSize t.sizes }
  | .scheduleLargeMessage callback =>
    { t with
      kernel := exec (scheduleLargeMessage callback) t.kernel
      scheduled := t.scheduled ++ [callback] }
  | .tokenReceived token =>
    { t with
      kernel := exec (tokenReceived token) t.kernel
      received := insert token t.received }
  | .updateBytecount token newBytecount =>
    { t with
      kernel := exec (updateBytecount token newBytecount) t.kernel
      sizes := if token ∈ t.sizes then insert token newBytecount t.sizes else t.sizes }
  | .setThreshold newByteThreshold =>
    { t with kernel := exec (setThreshold newByteThreshold) t.kernel }

end System

end DataTransfersKernel

end Cumulus
