import Ufora.SharedState.FrozenView
import Ufora.SharedState.Message

/-!
# `View`

`distributed/SharedState/View.cppml`: the view of a client. A transaction collects writes; `end`
splits them by key, validates and sends one partial event after another, and records each in the
frozen view. `allOrNothing_iff` says when a transaction is published as a whole or not at all.
-/

open Ordered Effect List Finmap Option EStateM SharedState.FrozenView SharedState.BundlingChannel

namespace SharedState

variable {Json : Type} [LinearOrder Json]

/-- A `Subscription`: whether all its ranges have been loaded, and what is to be taken in then. -/
structure Subscription (Json : Type) [LinearOrder Json] where
  mRanges : Finset (KeyRange Json)
  mValues : List (Key Json × ValueType Json)
  mEvents : List (SignedEvent Json)
  loaded : Bool

/-- A `View`. `mClientId` is set before `mChannel`, so it has a value where `mChannel` does.
`mReceivedKeyRanges` is one object with `mFrozenView->mSubscribedRanges`. -/
structure View (Json : Type) [LinearOrder Json] where
  mMaxId : ℕ := 1
  mClientId : ℕ
  /-- The channel, null after a disconnect; no value before the handshake. -/
  mChannel : Option (Option (BundlingChannel Json))
  /-- `teardown` has made `mClientId` and `mChannel` invalid: `get()` throws. -/
  mInvalid : Bool := false
  mIsFrozen : Bool := false
  mMustSubscribe : Bool := true
  mWrites : List (KeyUpdate Json) := []
  mFrozenView : FrozenView Json
  mPendingSubscriptions : List (Subscription Json) := []
  mPendingEvents : List (SignedEvent Json) := []

variable (Json) in
/-- What the member functions throw. -/
inductive ViewError where
  | notConnected
  | notFrozen
  | noLongerValid
  | invalidEvent (keyspace : Keyspace Json)
  | channelDisconnected
  | overlappingRange (range : KeyRange Json)
  | assertion (e : AssertionFailed Json)

namespace View

/-- A member function of the view. -/
abbrev Action (Json : Type) [LinearOrder Json] := EStateM (ViewError Json) (View Json)

/-- A call on `mFrozenView`. -/
def onFrozenView {α : Type} (x : FrozenView.Action Json α) : Action Json α :=
  onPart (fun s => s.mFrozenView) (fun v s => { s with mFrozenView := v })
    (adaptExcept .assertion x)

/-! ## Publishing a transaction -/

/-- One turn of the loop of `Event::split`, for an event with the signature `s`. -/
def splitUpdate (s : EventSignature Json) (outSplits : StdMap (Key Json) (SignedEvent Json))
    (update : KeyUpdate Json) : StdMap (Key Json) (SignedEvent Json) :=
  if update.key ∈ outSplits then outSplits
  else Finmap.insert update.key { content := update, id := s.id, updated := s.updated } outSplits

/-- `Event(id, updates).split(partials)`: the partial events by key. Of several writes to a key the
first one counts. -/
def split (id : UniqueId) (updates : List (KeyUpdate Json)) : StdMap (Key Json) (SignedEvent Json) :=
  updates.foldl (splitUpdate ⟨(updates.map (·.key)).toFinset, id⟩) ∅

/-- The partial events of a map, in the order of their keys. -/
def partialEvents (partials : StdMap (Key Json) (SignedEvent Json)) : List (SignedEvent Json) :=
  (ascending partials.keys).filterMap fun key => lookup key partials

/-- `isValidEvent(event)`. -/
def isValidEvent (s : View Json) (event : SignedEvent Json) : Except (AssertionFailed Json) Bool :=
  if ¬ s.mMustSubscribe then .ok true
  else (ascending s.mFrozenView.mSubscribedRanges.mRanges).anyM fun keyRange =>
    keyRange.tryContains event.key

/-- One turn of the loop of `end`. -/
def publish (event : SignedEvent Json) : Action Json Unit := do
  match (← get).isValidEvent event with
  | .error e => throw (.assertion e)
  | .ok false => throw (.invalidEvent event.key.keyspace)
  | .ok true =>
    match (← get).mChannel with
    | some (some channel) =>
      match channel.write (.PushEvent event) with
      | none => throw .channelDisconnected
      | some channel =>
        modify fun s => { s with mChannel := some (some channel) }
        let _ ← onFrozenView (FrozenView.applyEvent event)
    | _ => throw .channelDisconnected

/-- `getNextId()`. -/
def getNextId : Action Json UniqueId := do
  modify fun s => { s with mMaxId := s.mMaxId + 1 }
  let s ← get
  if s.mInvalid then throw .noLongerValid
  return ⟨s.mMaxId, s.mClientId⟩

/-! ## Taking in what has arrived -/

/-- `mReceivedKeyRanges.insert(ranges)`: one range after another. -/
def insertReceived (ranges : List (KeyRange Json)) : Action Json Unit := ranges.forM fun range => do
    match (← get).mFrozenView.mSubscribedRanges.insert range with
    | some received =>
      modify fun s => { s with mFrozenView.mSubscribedRanges := received }
    | none => throw (.overlappingRange range)

/-- `triggerChangeListeners()`: hands the changed keys to the listeners. -/
def triggerChangeListeners : Action Json Unit := modify fun s => { s with mFrozenView.mChanged := ∅ }

/-- `loadSubscription_(inSub)`. -/
def loadSubscription (inSub : Subscription Json) : Action Json Unit := do
  inSub.mValues.forM fun p => do
    modify fun s => { s with mMaxId := max s.mMaxId p.2.id.eventId }
    onFrozenView (FrozenView.updateBaseValue p.1 p.2 p.2.id)
  inSub.mEvents.forM fun event => do
    modify fun s => { s with mMaxId := max s.mMaxId event.id.eventId }
    let _ ← onFrozenView (FrozenView.applyEvent event)
  insertReceived (ascending inSub.mRanges)
  triggerChangeListeners

/-- The loop of `updateState` over the pending subscriptions, which keeps those that are not
loaded. -/
def loadPending (kept : List (Subscription Json)) : List (Subscription Json) → Action Json Unit
  | [] => pure ()
  | sub :: rest => do
    if sub.loaded then
      loadSubscription sub
      modify fun s => { s with mPendingSubscriptions := kept ++ rest }
      loadPending kept rest
    else loadPending (kept ++ [sub]) rest

/-- `updateState()`. -/
def updateState : Action Json Unit := do
  loadPending [] (← get).mPendingSubscriptions
  (← get).mPendingEvents.forM fun event => do
    let _ ← onFrozenView (FrozenView.applyEvent event)
    modify fun s =>
      { s with
        mMaxId := max s.mMaxId (event.id.eventId + 1)
        mPendingEvents := s.mPendingEvents.tail }
  triggerChangeListeners

/-- `end()`. -/
def «end» : Action Json Unit := do
  lassert ((← get).mChannel.isSome) .notConnected
  lassert ((← get).mIsFrozen) .notFrozen
  let mWrites := (← get).mWrites
  if mWrites.length > 0 then
    let id ← getNextId
    (partialEvents (split id mWrites)).forM publish
    modify fun s => { s with mWrites := [], mIsFrozen := false, mMaxId := max s.mMaxId id.eventId }
  else
    modify fun s => { s with mWrites := [], mIsFrozen := false, mMaxId := max s.mMaxId 0 }
  updateState

/-! ## What the functions leave alone -/

/-- The messages that the view has sent. -/
def sent (s : View Json) : List (MessageOut Json) :=
  match s.mChannel with
  | some (some channel) => channel.sent
  | _ => []

/-- The channel stays, the view stays frozen or not, and nothing that was recorded is lost. -/
structure Keeps (s s' : View Json) : Prop where
  channel : s'.mChannel = s.mChannel
  frozen : s'.mIsFrozen = s.mIsFrozen
  recorded : ∀ id key, s.mFrozenView.Recorded id key → s'.mFrozenView.Recorded id key

theorem Keeps.refl (s : View Json) : Keeps s s := ⟨rfl, rfl, fun _ _ h => h⟩

variable {s s' : View Json}

theorem Keeps.trans {t u : View Json} (h : Keeps s t) (h' : Keeps t u) : Keeps s u :=
  ⟨h'.channel.trans h.channel, h'.frozen.trans h.frozen, fun id key hr => h'.recorded id key (h.recorded id key hr)⟩

theorem Keeps.sent (h : Keeps s s') : s'.sent = s.sent := by
  rw [View.sent, View.sent, h.channel]

/-- The call keeps what `Keeps` says, whether it returns or throws. -/
def KeepsAlways {α : Type} (x : Action Json α) : Prop := ∀ s, wp x (fun _ => Keeps s) (fun _ => Keeps s) s

theorem KeepsAlways.bind {α β : Type} {x : Action Json α} {f : α → Action Json β}
    (hx : KeepsAlways x) (hf : ∀ a, KeepsAlways (f a)) : KeepsAlways (x >>= f) := by
  intro s
  rw [wp_bind]
  exact (hx s).imp fun a t ht => (hf a t).mono (fun _ _ => ht.trans) fun _ _ => ht.trans

theorem KeepsAlways.forM {α : Type} {f : α → Action Json PUnit} (hf : ∀ a, KeepsAlways (f a))
    (l : List α) : KeepsAlways (l.forM f) := by
  intro s
  refine wp_forM (fun _ => Keeps s) (fun a _ t ht => ?_) l (.refl s)
  exact (hf a t).mono (fun _ _ => ht.trans) fun _ _ => ht.trans

theorem keepsAlways_modify {f : View Json → View Json} (hf : ∀ s, Keeps s (f s)) :
    KeepsAlways (modify f : Action Json PUnit) := hf

theorem keepsAlways_onFrozenView {α : Type} {x : FrozenView.Action Json α}
    (hx : ∀ v, wp x (fun _ => FrozenView.Keeps v) (fun _ => FrozenView.Keeps v) v) :
    KeepsAlways (onFrozenView x) := by
  intro s
  have hs := hx s.mFrozenView
  unfold onFrozenView
  rw [wp_onPart]
  unfold wp at hs ⊢
  unfold adaptExcept
  split at hs
  · next hr => rw [hr]; exact ⟨rfl, rfl, hs.recorded⟩
  · next hr => rw [hr]; exact ⟨rfl, rfl, hs.recorded⟩

theorem keepsAlways_applyEvent (e : SignedEvent Json) : KeepsAlways (onFrozenView (FrozenView.applyEvent e)) :=
  keepsAlways_onFrozenView fun v => (FrozenView.wp_applyEvent_keeps e v).imp fun _ _ h => h.1

theorem keepsAlways_triggerChangeListeners : KeepsAlways (triggerChangeListeners : Action Json Unit) :=
  keepsAlways_modify fun _ => ⟨rfl, rfl, fun _ _ => id⟩

theorem keepsAlways_insertReceived (ranges : List (KeyRange Json)) : KeepsAlways (insertReceived ranges) := by
  refine .forM (fun range s => ?_) ranges
  rw [wp_bind, wp_get]
  split
  · exact ⟨rfl, rfl, fun _ _ => id⟩
  · exact .refl s

theorem keepsAlways_loadSubscription (sub : Subscription Json) : KeepsAlways (loadSubscription sub) := by
  refine .bind (.forM (fun p => ?_) _) fun _ => .bind (.forM (fun event => ?_) _) fun _ =>
    .bind (keepsAlways_insertReceived _) fun _ => keepsAlways_triggerChangeListeners
  · exact .bind (keepsAlways_modify fun _ => ⟨rfl, rfl, fun _ _ => id⟩) fun _ =>
      keepsAlways_onFrozenView fun v => FrozenView.wp_updateBaseValue_keeps _ _ _ v
  · exact .bind (keepsAlways_modify fun _ => ⟨rfl, rfl, fun _ _ => id⟩) fun _ =>
      .bind (keepsAlways_applyEvent event) fun _ => .refl

theorem keepsAlways_loadPending (kept subs : List (Subscription Json)) : KeepsAlways (loadPending kept subs) := by
  induction subs generalizing kept with
  | nil => exact .refl
  | cons sub rest ih =>
    unfold loadPending
    split
    · exact .bind (keepsAlways_loadSubscription sub) fun _ =>
        .bind (keepsAlways_modify fun _ => ⟨rfl, rfl, fun _ _ => id⟩) fun _ => ih kept
    · exact ih (kept ++ [sub])

/-- `updateState` sends nothing. -/
theorem keepsAlways_updateState : KeepsAlways (updateState : Action Json Unit) := by
  refine .bind (fun s => ?_) fun subs => .bind (keepsAlways_loadPending [] _) fun _ =>
    .bind (fun s => ?_) fun events => .bind (.forM (fun event => ?_) _) fun _ =>
      keepsAlways_triggerChangeListeners
  · exact .refl s
  · exact .refl s
  · exact .bind (keepsAlways_applyEvent event) fun _ =>
      keepsAlways_modify fun _ => ⟨rfl, rfl, fun _ _ => id⟩

/-! ## All or nothing -/

variable (s)

/-- The partial events of the transaction that `end` would publish. -/
def transaction : List (SignedEvent Json) := partialEvents (split ⟨s.mMaxId + 1, s.mClientId⟩ s.mWrites)

/-- `end` publishes all the partial events of the transaction and leaves the view unfrozen, or it
throws and has published none of them. -/
def AllOrNothing : Prop := wp «end» (fun _ s' => s'.sent = s.sent ++ s.transaction.map .PushEvent ∧
      (∀ event ∈ s.transaction, s'.mFrozenView.Recorded event.id event.key) ∧ s'.mIsFrozen = false)
    (fun _ s' => s'.sent = s.sent ∧ ∀ event ∈ s.transaction,
      s'.mFrozenView.Recorded event.id event.key → s.mFrozenView.Recorded event.id event.key) s

/-- The view may write the partial event. -/
def Valid (event : SignedEvent Json) : Prop := s.isValidEvent event = .ok true

/-- The view refuses to send a partial event, or its channel does. -/
def Refused (event : SignedEvent Json) : Prop :=
  ¬ s.Valid event ∨ ∀ channel, s.mChannel = some (some channel) → channel.mIsDisconnected = true

/-- `FrozenView::applyEvent` for one partial event after another. -/
def recordAll (v : FrozenView Json) (events : List (SignedEvent Json)) : Option (FrozenView Json) :=
  events.foldlM (fun v event => returned (applyEvent event) v) v

/-- All the partial events are valid, the channel takes them, and the frozen view does. -/
def PublishesAll (channel : BundlingChannel Json) (events : List (SignedEvent Json)) : Prop :=
  (∀ event ∈ events, s.Valid event) ∧ (channel.writeAll (events.map .PushEvent)).isSome ∧
    (recordAll s.mFrozenView events).isSome

/-- The view after that. -/
def published (channel : BundlingChannel Json) (v : FrozenView Json) : View Json :=
  { s with mChannel := some (some channel), mFrozenView := v }

variable {event : SignedEvent Json} {s}

/-- The validity of a partial event depends on the subscriptions. -/
theorem valid_congr
    (hm : s'.mMustSubscribe = s.mMustSubscribe)
    (hr : s'.mFrozenView.mSubscribedRanges = s.mFrozenView.mSubscribedRanges) :
    s'.Valid event ↔ s.Valid event := by
  rw [Valid, Valid, isValidEvent, isValidEvent, hm, hr]

variable {channel : BundlingChannel Json}

/-- One turn of the loop of `end`: it throws before it sends anything, or sends the partial event. -/
theorem wp_publish (event : SignedEvent Json) (hc : s.mChannel = some (some channel)) : wp (publish event)
      (fun _ s' => s.Valid event ∧ ¬ s.Refused event ∧ ∃ channel' v, channel.write (.PushEvent event) = some channel' ∧
        returned (applyEvent event) s.mFrozenView = some v ∧ s' = s.published channel' v)
      (fun _ s' => s.Refused event ∧ s' = s ∨ ¬ s.Refused event ∧ s'.sent = s.sent ++ [.PushEvent event] ∧
        returned (applyEvent event) s.mFrozenView = none) s := by
  unfold publish
  rw [wp_bind, wp_get]
  split
  · next he =>
    have hn : ¬ s.Valid event := fun hv => nomatch he.symm.trans hv
    exact .inl ⟨.inl hn, rfl⟩
  · next he =>
    have hn : ¬ s.Valid event := fun hv => nomatch he.symm.trans hv
    exact .inl ⟨.inl hn, rfl⟩
  · next he =>
    rw [wp_bind, wp_get, hc]
    simp only
    cases hw : channel.write (.PushEvent event) with
    | none =>
      refine .inl ⟨.inr fun c h => ?_, rfl⟩
      obtain rfl := some.inj (some.inj (hc.symm.trans h))
      exact write_eq_none_iff.1 hw
    | some channel' =>
      have hnot : ¬ s.Refused event := by
        rintro (hv | hd)
        · exact hv he
        · rw [write_eq_none_iff.2 (hd channel hc)] at hw
          cases hw
      rw [wp_bind, wp_modify, wp_bind]
      unfold onFrozenView
      rw [wp_onPart]
      unfold wp adaptExcept
      cases hx : applyEvent event s.mFrozenView with
      | ok b v =>
        exact ⟨he, hnot, channel', v, rfl, by rw [returned, hx], rfl⟩
      | error e v =>
        refine .inr ⟨hnot, ?_, by rw [returned, hx]⟩
        rw [View.sent, View.sent, hc]
        exact sent_write hw

theorem sent_published (s : View Json) (channel : BundlingChannel Json) (v : FrozenView Json) :
    (s.published channel v).sent = channel.sent := rfl

/-- The frozen view keeps its subscriptions when it takes in a partial event, and records it. -/
theorem keeps_of_returned {v v' : FrozenView Json} (h : returned (applyEvent event) v = some v') :
    v.Keeps v' ∧ v'.Recorded event.id event.key :=
  (wp_applyEvent_keeps event v).returned h

variable {events : List (SignedEvent Json)}

/-- A transaction that can be published does not begin with a refused partial event. -/
theorem PublishesAll.not_refused
    {rest : List (SignedEvent Json)} (h : s.PublishesAll channel events) (hc : s.mChannel = some (some channel))
    (he : events = event :: rest) : ¬ s.Refused event := by
  subst he
  rintro (hv | hd)
  · exact hv (h.1 event (.head _))
  · have hw := h.2.1
    rw [map_cons, writeAll, foldlM_cons, write_eq_none_iff.2 (hd channel hc)] at hw
    cases hw

/-- The loop of `end`: it publishes all the partial events, or it throws, and has sent something then
unless the first partial event was refused. -/
theorem wp_publishAll
    (events : List (SignedEvent Json)) (hc : s.mChannel = some (some channel)) :
    wp (events.forM publish) (fun _ s' => s.PublishesAll channel events ∧ ∃ channel' v,
        channel.writeAll (events.map .PushEvent) = some channel' ∧
        recordAll s.mFrozenView events = some v ∧ s' = s.published channel' v)
      (fun _ s' => ¬ s.PublishesAll channel events ∧ ∃ event rest, events = event :: rest ∧ (s.Refused event ∧ s' = s ∨
          ¬ s.Refused event ∧ s.sent.length < s'.sent.length)) s := by
  induction events generalizing s channel with
  | nil => exact ⟨⟨nofun, rfl, rfl⟩, channel, s.mFrozenView, rfl, rfl, by rw [published, ← hc]⟩
  | cons event events ih =>
    show wp (publish event >>= fun _ => events.forM publish) _ _ s
    rw [wp_bind]
    refine (wp_publish event hc).mono ?_ ?_
    · rintro _ _ ⟨hv, hnot, channel', v, hw, hr, rfl⟩
      have hkeep := (keeps_of_returned hr).1
      have hcongr : ∀ e, (s.published channel' v).Valid e ↔ s.Valid e := fun e => valid_congr rfl hkeep.ranges
      have hall : s.PublishesAll channel (event :: events) ↔ (s.published channel' v).PublishesAll channel' events := by
        simp only [PublishesAll, hcongr, forall_mem_cons, hv, true_and, map_cons,
          writeAll, recordAll, foldlM_cons, hw, hr, bind_eq_bind,
          bind_some]
        exact Iff.rfl
      have hsent : (s.published channel' v).sent = s.sent ++ [.PushEvent event] := by
        rw [sent_published, sent_write hw, View.sent, hc]
      refine (ih (s := s.published channel' v) rfl).mono ?_ ?_
      · rintro _ _ ⟨hp, channel'', v', hw', hr', rfl⟩
        refine ⟨hall.2 hp, channel'', v', ?_, ?_, rfl⟩
        · rw [map_cons, writeAll, foldlM_cons, hw]
          exact hw'
        · rw [recordAll, foldlM_cons, hr]
          exact hr'
      · rintro _ s' ⟨hn, _, _, -, hs'⟩
        refine ⟨fun hp => hn (hall.1 hp), event, events, rfl, .inr ⟨hnot, ?_⟩⟩
        have hlt : s.sent.length < (s.published channel' v).sent.length := by
          rw [hsent, length_append]
          exact Nat.lt_succ_self _
        rcases hs' with ⟨-, rfl⟩ | ⟨-, hs'⟩
        · exact hlt
        · exact hlt.trans hs'
    · rintro _ s' (⟨href, rfl⟩ | ⟨hnot, hsent, hnone⟩)
      · exact ⟨fun hp => hp.not_refused hc rfl href, event, events, rfl, .inl ⟨href, rfl⟩⟩
      · refine ⟨fun hp => ?_, event, events, rfl, .inr ⟨hnot, ?_⟩⟩
        · have hr := hp.2.2
          rw [recordAll, foldlM_cons, hnone] at hr
          cases hr
        · rw [hsent, length_append]
          exact Nat.lt_succ_self _

/-- What was recorded is kept while more is. -/
theorem recorded_of_recordAll {v v' : FrozenView Json} (h : recordAll v events = some v') :
    v.Keeps v' ∧ ∀ event ∈ events, v'.Recorded event.id event.key := by
  induction events generalizing v with
  | nil =>
    obtain rfl := some.inj h
    exact ⟨.refl _, nofun⟩
  | cons event events ih =>
    rw [recordAll, foldlM_cons, bind_eq_bind, bind_eq_some_iff] at h
    obtain ⟨u, hu, h⟩ := h
    obtain ⟨hkeep, hrec⟩ := keeps_of_returned hu
    obtain ⟨hkeep', hrec'⟩ := ih h
    exact ⟨hkeep.trans hkeep', forall_mem_cons.2 ⟨hkeep'.recorded _ _ hrec, hrec'⟩⟩

/-- `end` starts to publish something. -/
def Starts (s : View Json) : Prop := s.mChannel.isSome ∧ s.mIsFrozen = true ∧ s.mWrites ≠ [] ∧ s.mInvalid = false

/-- The view that `end` leaves to `updateState` when it has published the transaction. -/
def finished (s : View Json) (channel : BundlingChannel Json) (v : FrozenView Json) : View Json := { s with
    mChannel := some (some channel)
    mFrozenView := v
    mWrites := []
    mIsFrozen := false
    mMaxId := s.mMaxId + 1 }

/-- The channel and the frozen view take the whole transaction, which is valid, and `updateState`
takes in what is pending. -/
def PublishesWhole (s : View Json) : Prop :=
  ∃ channel, s.mChannel = some (some channel) ∧ s.PublishesAll channel s.transaction ∧
    ∀ channel' v, channel.writeAll (s.transaction.map .PushEvent) = some channel' →
      recordAll s.mFrozenView s.transaction = some v →
      (returned updateState (s.finished channel' v)).isSome

variable {E : ViewError Json → View Json → Prop}

/-- `end` on a view that starts to publish: what is left after the transaction has got its id. -/
theorem wp_end_of_starts {Q : Unit → View Json → Prop} (h : s.Starts) : wp «end» Q E s ↔
      wp (s.transaction.forM publish) (fun _ s' => wp updateState Q E
        { s' with mWrites := [], mIsFrozen := false, mMaxId := max s'.mMaxId (s.mMaxId + 1) }) E
        { s with mMaxId := s.mMaxId + 1 } := by
  obtain ⟨hc, hf, hw, hi⟩ := h
  unfold «end»
  rw [wp_bind, wp_get, wp_bind, wp_lassert, if_pos hc, wp_bind, wp_get, wp_bind, wp_lassert,
    if_pos hf, wp_bind, wp_get, wp_ite, if_pos (length_pos_iff.2 hw), wp_bind]
  unfold getNextId
  rw [wp_bind, wp_modify, wp_bind, wp_get]
  have hvalid : ¬ s.mInvalid = true := by
    rw [hi]
    exact Bool.false_ne_true
  rw [wp_ite, if_neg hvalid, wp_pure, wp_bind]
  exact Iff.rfl

/-- `end` on a view that does not start to publish sends and records nothing. -/
theorem allOrNothing_of_not_starts (h : ¬ s.Starts) : s.AllOrNothing := by
  unfold AllOrNothing «end»
  rw [wp_bind, wp_get, wp_bind, wp_lassert]
  split
  · next hc =>
    rw [wp_bind, wp_get, wp_bind, wp_lassert]
    split
    · next hf =>
      rw [wp_bind, wp_get, wp_ite]
      split
      · next hw =>
        have hi : s.mInvalid = true := by
          refine Bool.not_eq_false _ ▸ fun hi => h ⟨hc, hf, length_pos_iff.1 hw, hi⟩
        unfold getNextId
        rw [wp_bind, wp_bind, wp_modify, wp_bind, wp_get, wp_ite, if_pos hi, wp_bind]
        exact ⟨rfl, fun _ _ => id⟩
      · next hw =>
        have hnil : s.mWrites = [] := by
          simpa using hw
        have hno : s.transaction = [] := by
          rw [transaction, hnil]
          rfl
        rw [wp_bind, wp_modify, hno]
        refine (keepsAlways_updateState _).mono (fun _ s' hk => ⟨?_, by simp, hk.frozen⟩) fun _ s' hk =>
          ⟨hk.sent, by simp⟩
        exact hk.sent.trans (append_nil _).symm
    · exact ⟨rfl, fun _ _ => id⟩
  · exact ⟨rfl, fun _ _ => id⟩

/-- The loop of `split` has a partial event for each key that is written. -/
theorem mem_foldl_splitUpdate {s : EventSignature Json} {update : KeyUpdate Json}
    {updates : List (KeyUpdate Json)} {outSplits : StdMap (Key Json) (SignedEvent Json)}
    (h : update ∈ updates ∨ update.key ∈ outSplits) :
    update.key ∈ updates.foldl (splitUpdate s) outSplits := by
  induction updates generalizing outSplits with
  | nil => exact h.resolve_left not_mem_nil
  | cons a updates ih =>
    have hkeep : ∀ key ∈ outSplits, key ∈ splitUpdate s outSplits a := by
      intro key hk
      unfold splitUpdate
      split
      · exact hk
      · exact mem_insert.2 (.inr hk)
    have hadd : a.key ∈ splitUpdate s outSplits a := by
      unfold splitUpdate
      split
      · assumption
      · exact mem_insert.2 (.inl rfl)
    refine ih ?_
    rcases h with h | h
    · rcases mem_cons.1 h with rfl | h
      · exact .inr hadd
      · exact .inl h
    · exact .inr (hkeep _ h)

/-- The transaction of a view with writes has a partial event. -/
theorem transaction_ne_nil (h : s.mWrites ≠ []) : s.transaction ≠ [] := by
  obtain ⟨update, hu⟩ := exists_mem_of_ne_nil _ h
  have hmem : update.key ∈ split ⟨s.mMaxId + 1, s.mClientId⟩ s.mWrites := mem_foldl_splitUpdate (.inl hu)
  obtain ⟨event, he⟩ := StdMap.mem_keys_iff.1 (mem_keys.2 hmem)
  exact ne_nil_of_mem (mem_filterMap.2 ⟨update.key, mem_ascending.2 (mem_keys.2 hmem), he⟩)

/-- Without a channel, `end` refuses the first partial event. -/
theorem wp_publishAll_of_null {Q : PUnit → View Json → Prop} (hc : s.mChannel = some none) (hE : ∀ e, E e s) :
    wp ((event :: events).forM publish) Q E s := by
  show wp (publish event >>= fun _ => events.forM publish) _ _ s
  unfold publish
  rw [wp_bind, wp_bind, wp_get]
  split
  · exact hE _
  · exact hE _
  · rw [wp_bind, wp_get, hc]
    exact hE _

/-- A transaction is published as a whole or not at all exactly if `end` starts to publish nothing,
or refuses the first partial event, or publishes all of them and takes in what is pending. -/
theorem allOrNothing_iff (s : View Json) : s.AllOrNothing ↔
    ¬ s.Starts ∨ (∃ event, s.transaction.head? = some event ∧ s.Refused event) ∨ s.PublishesWhole := by
  by_cases hs : s.Starts
  · obtain ⟨event, rest, htr⟩ := exists_cons_of_ne_nil (transaction_ne_nil hs.2.2.1)
    rw [AllOrNothing, wp_end_of_starts hs, or_iff_right (not_not.2 hs)]
    obtain ⟨channel, hc⟩ := isSome_iff_exists.1 hs.1
    cases channel with
    | none =>
      refine iff_of_true ?_ (.inl ⟨event, by rw [htr]; rfl, .inr fun channel hc' => ?_⟩)
      · rw [htr]
        exact wp_publishAll_of_null hc fun _ => ⟨rfl, fun _ _ => id⟩
      · cases hc.symm.trans hc'
    | some channel =>
      refine (wp_publishAll s.transaction (show View.mChannel { s with mMaxId := s.mMaxId + 1 } = _
        from hc)).iff ?_ ?_
      · rintro _ _ ⟨hall, channel', v, hw, hr, rfl⟩
        have hall : s.PublishesAll channel s.transaction := hall
        have hr : recordAll s.mFrozenView s.transaction = some v := hr
        have hsent : channel'.sent = s.sent ++ s.transaction.map .PushEvent := by
          rw [sent_writeAll hw, View.sent, hc]
        have hfin : ({ published { s with mMaxId := s.mMaxId + 1 } channel' v with
            mWrites := [], mIsFrozen := false, mMaxId := max (s.mMaxId + 1) (s.mMaxId + 1) } :
            View Json) = s.finished channel' v := by
          rw [max_self]
          rfl
        show wp updateState _ _ { published { s with mMaxId := s.mMaxId + 1 } channel' v with
            mWrites := [], mIsFrozen := false, mMaxId := max (s.mMaxId + 1) (s.mMaxId + 1) } ↔ _
        rw [hfin]
        refine ((wp_returned updateState _).and (keepsAlways_updateState _)).iff ?_ ?_
        · rintro _ s' ⟨hret, hk⟩
          refine iff_of_true ⟨hk.sent.trans hsent, fun event he => ?_, hk.frozen⟩
            (.inr ⟨channel, hc, hall, fun c u hc' hu => ?_⟩)
          · exact hk.recorded _ _ ((recorded_of_recordAll hr).2 event he)
          · obtain rfl := some.inj (hw.symm.trans hc')
            obtain rfl := some.inj (hr.symm.trans hu)
            rw [hret]
            rfl
        · rintro _ s' ⟨hret, hk⟩
          refine iff_of_false (fun h => ?_) ?_
          · have hlen := congrArg List.length (h.1.symm.trans (hk.sent.trans hsent))
            rw [length_append, length_map, htr] at hlen
            exact absurd hlen (Nat.lt_add_of_pos_right (Nat.succ_pos _)).ne
          · rintro (⟨e, he, href⟩ | ⟨c, hc', -, hstate⟩)
            · exact hall.not_refused hc htr (some.inj (he.symm.trans (by rw [htr]; rfl)) ▸ href)
            · obtain rfl := some.inj (some.inj (hc.symm.trans hc'))
              have hsome := hstate _ _ hw hr
              rw [hret] at hsome
              cases hsome
      · rintro _ s' ⟨hnot, e, rest', htr', hcase⟩
        have hhead : s.transaction.head? = some e := by
          rw [htr']
          rfl
        rcases hcase with ⟨href, rfl⟩ | ⟨href, hlt⟩
        · exact iff_of_true ⟨rfl, fun _ _ => id⟩ (.inl ⟨e, hhead, href⟩)
        · refine iff_of_false (fun h => absurd (congrArg List.length h.1) hlt.ne') ?_
          rintro (⟨e', he', href'⟩ | ⟨c, hc', hall, -⟩)
          · exact href (some.inj (hhead.symm.trans he') ▸ href')
          · obtain rfl := some.inj (some.inj (hc.symm.trans hc'))
            exact hnot hall
  · exact iff_of_true (allOrNothing_of_not_starts hs) (.inl hs)

/-- A view that subscribes to the names below 2 and has written the keys 1 and 2. -/
def belowTwo : View ℕ where
  mClientId := 0
  mChannel := some (some { accepts := fun _ => true })
  mIsFrozen := true
  mWrites := [⟨Observed.numberKey 1, some 1⟩, ⟨Observed.numberKey 2, some 2⟩]
  mFrozenView := { mSubscribedRanges := ⟨{⟨⟨.comparisonKeyType, 0, 1⟩, 0, none, some ⟨2, true⟩⟩}⟩ }

/-- When `end` finds that it may not write the second key, it has sent the partial event for the
first. -/
theorem not_allOrNothing : ¬ ∀ s : View ℕ, s.AllOrNothing := by
  intro h
  have hb := h belowTwo
  have hthrows : returned «end» belowTwo = none := by
    have hnone : (returned «end» belowTwo).isNone = true := by decide
    exact isNone_iff_eq_none.1 hnone
  have hsent : (exec «end» belowTwo).sent.length = 1 := by decide
  unfold AllOrNothing wp at hb
  unfold returned at hthrows
  unfold exec at hsent
  split at hb
  · next he =>
    rw [he] at hthrows
    cases hthrows
  · next he =>
    rw [he, hb.1] at hsent
    exact absurd hsent (by decide)

end View

end SharedState
