import Ufora.SharedState.AssembledEvent
import Ufora.SharedState.KeyType

/-!
# `FrozenView`

`distributed/SharedState/FrozenView.cppml`: the key states that the transactions of a client read. It
assembles a transaction from the partial events that arrive, and inserts them into the key states when
none is missing. The result of `applyEvent` here says whether it did so, and an `Observed` view comes
with the partial events that have arrived and the transactions that have been applied.
`Observed.atomic` says when each transaction is applied once and as a whole.
-/

open Ordered Effect List Finmap StdMap Except Option Finset SharedState.AssembledEvent

namespace SharedState

variable {Json : Type} [LinearOrder Json]

/-- A `FrozenView`: what `applyEvent` uses of it. -/
structure FrozenView (Json : Type) [LinearOrder Json] where
  mKeyStates : StdMap (Key Json) (KeyState Json) := ∅
  mValueCache : StdMap (Key Json) (Option (ValueType Json)) := ∅
  /-- The keys with base values or events. -/
  mExistingKeys : Finset (Key Json) := ∅
  mChanged : Finset (Key Json) := ∅
  mSubscribedRanges : KeyRangeSet Json
  mAssembledEvents : StdMap UniqueId (AssembledEvent Json) := ∅

namespace FrozenView

/-- A member function of the view. -/
abbrev Action (Json : Type) [LinearOrder Json] := EStateM (AssertionFailed Json) (FrozenView Json)

/-- `mAssembledEvents[inEvent.signature()]`, made from the subscribed ranges where it is missing. -/
def assembled (s : FrozenView Json) (inEvent : SignedEvent Json) :
    Except (AssertionFailed Json) (AssembledEvent Json) :=
  match lookup inEvent.id s.mAssembledEvents with
  | some event => .ok event
  | none => new inEvent.signature s.mSubscribedRanges

/-- One turn of the loop of `applyEvent` over the partial events. -/
def applyPartial (key : Key Json) (part : SignedEvent Json) : Action Json Unit := do
  let keyCouldHaveChanged ← onPart (fun s => s.mKeyStates.get key)
    (fun keyState s => { s with mKeyStates := insert key keyState s.mKeyStates })
    (key.keyspace.type.insertEventIntoKeyState part.toPartialEvent true)
  if keyCouldHaveChanged then
    modify fun s =>
      { s with
        mValueCache := erase key s.mValueCache
        mChanged := insert key s.mChanged
        mExistingKeys := insert key s.mExistingKeys }

/-- `applyEvent(inEvent)`: whether the transaction was applied. -/
def applyEvent (inEvent : SignedEvent Json) : Action Json Bool := do
  match (← get).assembled inEvent with
  | .error e => throw e
  | .ok event =>
    lassert (inEvent.id = event.signature.id) (.foreignPartial inEvent.id)
    let event := event.addPartial inEvent
    modify fun s =>
      { s with mAssembledEvents := insert inEvent.id event s.mAssembledEvents }
    if event.IsValid then
      (ascending event.partials.keys).forM fun key =>
        match lookup key event.partials with
        | some part => applyPartial key part
        | none => pure ()
      return true
    else return false

/-- `updateBaseValue(key, value, inBaseValueId)`. -/
def updateBaseValue (key : Key Json) (value : ValueType Json) (inBaseValueId : UniqueId) : Action Json Unit := do
  onPart (fun s => s.mKeyStates.get key)
    (fun keyState s => { s with mKeyStates := insert key keyState s.mKeyStates })
    (key.keyspace.type.updateBaseValueForKeyState value inBaseValueId)
  modify fun s =>
    { s with
      mExistingKeys := insert key s.mExistingKeys
      mChanged := insert key s.mChanged
      mValueCache := erase key s.mValueCache }

end FrozenView

/-! ## Inserting an event -/

omit [LinearOrder Json] in
/-- An event that is not before the base value of its key is inserted, and nothing else is. -/
theorem KeyType.wp_insertEventIntoKeyState (t : KeyType) (e : PartialEvent Json) (s : KeyState Json)
    (hb : ∀ base ∈ s.baseValueID, base ≤ e.id) :
    wp (t.insertEventIntoKeyState e true)
      (fun _ s' => s'.baseValueID = s.baseValueID ∧ ∀ id ∈ s'.events, id = e.id ∨ id ∈ s.events)
      (fun _ _ => False) s := by
  have hmem : ∀ m : StdMap UniqueId (PartialEvent Json), (∀ id ∈ m, id ∈ s.events) →
      ∀ id ∈ insert e.id e m, id = e.id ∨ id ∈ s.events := by
    intro m hm id hid
    rcases mem_insert.1 hid with rfl | hid
    · exact .inl rfl
    · exact .inr (hm id hid)
  cases t with
  | comparisonKeyType =>
    simp only [insertEventIntoKeyState, BaseKeyType.insertEventIntoKeyState, wp_bind,
      wp_get, wp_lassert, true_or, if_true]
    have hbody := hmem s.events fun id hid => hid
    split
    · next base hbase =>
      rw [wp_bind, wp_lassert, if_pos (hb base hbase)]
      exact ⟨rfl, hbody⟩
    · exact ⟨rfl, hbody⟩
  | takeHighestIdKeyType =>
    exact TakeHighestIdKeyType.wp_insertEventIntoKeyState (fun base hbase hlt => hlt (hb base hbase))
      (fun hno => absurd rfl hno) (fun _ _ _ => ⟨rfl, fun id hid => .inr hid⟩)
      fun _ => ⟨rfl, hmem ∅ fun id hid => absurd hid notMem_empty⟩

namespace FrozenView

/-! ## Applying a transaction -/

/-- What an application leaves alone: the assembled events, the subscriptions, the base values, and
the events of other transactions. -/
structure AppliedOnly (id : UniqueId) (s s' : FrozenView Json) : Prop where
  assembled : s'.mAssembledEvents = s.mAssembledEvents
  ranges : s'.mSubscribedRanges = s.mSubscribedRanges
  base : ∀ key, (s'.mKeyStates.get key).baseValueID = (s.mKeyStates.get key).baseValueID
  events : ∀ key, ∀ id' ∈ (s'.mKeyStates.get key).events, id' = id ∨ id' ∈ (s.mKeyStates.get key).events

theorem AppliedOnly.refl (id : UniqueId) (s : FrozenView Json) : AppliedOnly id s s :=
  ⟨rfl, rfl, fun _ => rfl, fun _ _ => .inr⟩

variable {s t u : FrozenView Json}

theorem AppliedOnly.trans {id : UniqueId} (h : AppliedOnly id s t) (h' : AppliedOnly id t u) : AppliedOnly id s u where
  assembled := h'.assembled.trans h.assembled
  ranges := h'.ranges.trans h.ranges
  base key := (h'.base key).trans (h.base key)
  events key id' hid := (h'.events key id' hid).elim .inl (h.events key id')

/-- One partial event is inserted. -/
theorem wp_applyPartial (key : Key Json) (part : SignedEvent Json) (s : FrozenView Json)
    (hb : ∀ base ∈ (s.mKeyStates.get key).baseValueID, base ≤ part.id) :
    wp (applyPartial key part) (fun _ => AppliedOnly part.id s) (fun _ _ => False) s := by
  unfold applyPartial
  rw [wp_bind, wp_onPart]
  refine (KeyType.wp_insertEventIntoKeyState _ part.toPartialEvent _ hb).mono ?_ fun _ _ => id
  rintro b keyState ⟨hbase, hevents⟩
  have hins : AppliedOnly part.id s
      { s with mKeyStates := insert key keyState s.mKeyStates } := by
    refine ⟨rfl, rfl, fun k => ?_, fun k => ?_⟩
    · rw [get_insert]
      split
      · next hk => rw [hk, hbase]
      · rfl
    · rw [get_insert]
      split
      · next hk => rw [hk]; exact hevents
      · exact fun _ => .inr
  rw [wp_ite]
  split
  · exact ⟨rfl, rfl, hins.base, hins.events⟩
  · exact hins

/-- The loop inserts the partial events of one transaction. -/
theorem wp_applyPartials (id : UniqueId) (partials : StdMap (Key Json) (SignedEvent Json))
    (s : FrozenView Json) (hid : ∀ key part, lookup key partials = some part → part.id = id)
    (hb : ∀ key ∈ partials.keys, ∀ base ∈ (s.mKeyStates.get key).baseValueID, base ≤ id) :
    wp ((ascending partials.keys).forM fun key =>
      match lookup key partials with
      | some part => applyPartial key part
      | none => pure ()) (fun _ => AppliedOnly id s) (fun _ _ => False) s := by
  refine wp_forM (fun l t => AppliedOnly id s t ∧ ∀ key ∈ l, key ∈ partials.keys) ?_ _
    ⟨.refl id s, fun key => mem_ascending.1⟩ |>.imp fun _ _ h => h.1
  rintro key l t ⟨ht, hl⟩
  rw [List.forall_mem_cons] at hl
  split
  · next part hpart =>
    have hpid := hid key part hpart
    refine (wp_applyPartial key part t ?_).imp fun _ u hu => ⟨ht.trans (hpid ▸ hu), hl.2⟩
    rw [ht.base, hpid]
    exact hb key hl.1
  · exact ⟨ht, hl.2⟩

/-- `applyEvent` puts an assembled event back, and applies it if it is valid. -/
structure TakesIn (id : UniqueId) (event : AssembledEvent Json) (s : FrozenView Json)
    (applied : Bool) (s' : FrozenView Json) : Prop where
  applied : applied = true ↔ event.IsValid
  assembled : s'.mAssembledEvents = insert id event s.mAssembledEvents
  ranges : s'.mSubscribedRanges = s.mSubscribedRanges
  base : ∀ key, (s'.mKeyStates.get key).baseValueID = (s.mKeyStates.get key).baseValueID
  events : ∀ key, ∀ id' ∈ (s'.mKeyStates.get key).events, event.IsValid ∧ id' = id ∨ id' ∈ (s.mKeyStates.get key).events

/-- `applyEvent` takes in the partial event, and applies the transaction if no other is needed. -/
theorem wp_applyEvent {p : SignedEvent Json} {e : AssembledEvent Json}
    (he : s.assembled p = .ok e) (hsig : e.signature.id = p.id)
    (hid : ∀ key part, lookup key (e.addPartial p).partials = some part →
      part.id = p.id ∧ ∀ base ∈ (s.mKeyStates.get key).baseValueID, base ≤ p.id) :
    wp (applyEvent p) (fun applied s' => TakesIn p.id (e.addPartial p) s applied s') (fun _ _ => False) s := by
  unfold applyEvent
  rw [wp_bind, wp_get, he]
  rw [wp_bind, wp_lassert, if_pos hsig.symm, wp_bind, wp_modify, wp_ite]
  by_cases hv : (e.addPartial p).IsValid
  · rw [if_pos hv, wp_bind]
    refine (wp_applyPartials p.id _ _ (fun key part h => (hid key part h).1) ?_).mono ?_ fun _ _ h => h
    · intro key hkey
      obtain ⟨part, hpart⟩ := mem_keys_iff.1 hkey
      exact (hid key part hpart).2
    · intro _ s' hs'
      rw [wp_pure]
      exact ⟨iff_of_true rfl hv, hs'.assembled, hs'.ranges, hs'.base, fun key id' hid' =>
        (hs'.events key id' hid').imp (fun he => ⟨hv, he⟩) fun h => h⟩
  · rw [if_neg hv, wp_pure]
    exact ⟨iff_of_false Bool.false_ne_true hv, rfl, rfl, fun _ => rfl, fun _ _ => .inr⟩

/-! ## What has been recorded -/

/-- The partial event of a transaction for a key has been put into its assembled event. -/
def Recorded (s : FrozenView Json) (id : UniqueId) (key : Key Json) : Prop :=
  ∃ event, lookup id s.mAssembledEvents = some event ∧ key ∈ event.partials

/-- Nothing that was recorded is lost, and the subscriptions stay. -/
structure Keeps (s s' : FrozenView Json) : Prop where
  ranges : s'.mSubscribedRanges = s.mSubscribedRanges
  recorded : ∀ id key, s.Recorded id key → s'.Recorded id key

theorem Keeps.refl (s : FrozenView Json) : Keeps s s := ⟨rfl, fun _ _ h => h⟩

theorem Keeps.trans (h : Keeps s t) (h' : Keeps t u) : Keeps s u :=
  ⟨h'.ranges.trans h.ranges, fun id key hr => h'.recorded id key (h.recorded id key hr)⟩

/-- Functions that leave the assembled events alone record nothing and lose nothing. -/
theorem Keeps.of_eq {s' : FrozenView Json} (hr : s'.mSubscribedRanges = s.mSubscribedRanges)
    (ha : s'.mAssembledEvents = s.mAssembledEvents) : Keeps s s' :=
  ⟨hr, fun _ _ ⟨event, he, hk⟩ => ⟨event, ha ▸ he, hk⟩⟩

theorem wp_applyPartial_keeps (k : Key Json) (part : SignedEvent Json) (s : FrozenView Json) :
    wp (applyPartial k part) (fun _ => Keeps s) (fun _ => Keeps s) s := by
  unfold applyPartial
  rw [wp_bind, wp_onPart]
  refine (wp_of_forall fun _ _ => ?_) fun _ _ => .of_eq rfl rfl
  rw [wp_ite]
  split
  · exact .of_eq rfl rfl
  · exact .of_eq rfl rfl

/-- Putting an assembled event back with one more partial event. -/
theorem keeps_addPartial {p : SignedEvent Json} {event : AssembledEvent Json} (he : s.assembled p = .ok event) : Keeps s
      { s with mAssembledEvents := insert p.id (event.addPartial p) s.mAssembledEvents } := by
  refine ⟨rfl, fun id key ⟨e, hl, hk⟩ => ?_⟩
  by_cases hid : id = p.id
  · subst hid
    have hee : e = event := by
      rw [assembled, hl] at he
      exact ok.inj he
    subst hee
    exact ⟨_, lookup_insert _, mem_insert.2 (.inr hk)⟩
  · exact ⟨e, (lookup_insert_of_ne _ hid).trans hl, hk⟩

/-- `applyEvent` records the partial event, if it takes it in at all. -/
theorem wp_applyEvent_keeps (p : SignedEvent Json) (s : FrozenView Json) :
    wp (applyEvent p) (fun _ s' => Keeps s s' ∧ s'.Recorded p.id p.key) (fun _ => Keeps s) s := by
  unfold applyEvent
  rw [wp_bind, wp_get]
  split
  · exact .refl s
  · next event he =>
    rw [wp_bind, wp_lassert]
    split
    · rw [wp_bind, wp_modify]
      have hput := keeps_addPartial he
      have hrec : Recorded { s with
          mAssembledEvents := insert p.id (event.addPartial p) s.mAssembledEvents }
          p.id p.key := ⟨_, lookup_insert _, mem_insert.2 (.inl rfl)⟩
      rw [wp_ite]
      split
      · rw [wp_bind]
        refine wp_forM (fun _ t => Keeps s t ∧ t.Recorded p.id p.key) (fun key l t ht => ?_) _ ⟨hput, hrec⟩
        split
        · next part _ =>
          exact (wp_applyPartial_keeps key part t).mono
            (fun _ u hu => ⟨ht.1.trans hu, hu.recorded _ _ ht.2⟩) fun _ u hu => ht.1.trans hu
        · exact ht
      · exact ⟨hput, hrec⟩
    · exact .refl s

theorem wp_updateBaseValue_keeps (k : Key Json) (v : ValueType Json) (base : UniqueId) (s : FrozenView Json) :
    wp (updateBaseValue k v base) (fun _ => Keeps s) (fun _ => Keeps s) s := by
  unfold updateBaseValue
  rw [wp_bind, wp_onPart]
  exact wp_of_forall (fun _ _ => .of_eq rfl rfl) fun _ _ => .of_eq rfl rfl

end FrozenView

/-! ## Transactions -/

/-- A view, the partial events that it has received, and the transactions that it has applied. -/
structure Observed (Json : Type) [LinearOrder Json] where
  view : FrozenView Json
  arrived : List (SignedEvent Json) := []
  applied : List UniqueId := []

namespace Observed

variable (o : Observed Json)

/-- The arrival of a partial event. -/
def step (p : SignedEvent Json) : Option (Observed Json) :=
  match FrozenView.applyEvent p o.view with
  | .ok applied view => some
    { view := view
      arrived := o.arrived ++ [p]
      applied := if applied then o.applied ++ [p.id] else o.applied }
  | .error _ _ => none

/-- The partial event of a transaction for a key has arrived. -/
def Arrived (id : UniqueId) (key : Key Json) : Prop := ∃ p ∈ o.arrived, p.id = id ∧ p.key = key
deriving Decidable

/-- A partial event of a transaction has arrived. -/
def Begun (id : UniqueId) : Prop := ∃ p ∈ o.arrived, p.id = id

variable (updated : UniqueId → Finset (Key Json))

/-- A partial event of a transaction has arrived, and one for each updated key that is subscribed.
`updated` says which keys a transaction updates. -/
def Complete (o : Observed Json) (id : UniqueId) : Prop :=
  o.Begun id ∧ ∀ key ∈ updated id, o.view.mSubscribedRanges.Subscribed key → o.Arrived id key

/-- A transaction is applied once if it is complete, and else nothing of it is in the key states. -/
structure Atomic (updated : UniqueId → Finset (Key Json)) (o : Observed Json) : Prop where
  once : ∀ id, o.Complete updated id → o.applied.count id = 1
  notBefore : ∀ id, ¬ o.Complete updated id → id ∉ o.applied ∧ ∀ key, id ∉ (o.view.mKeyStates.get key).events

/-- The partial event is the first one to arrive for one of the keys of its transaction, and it is
not before the base value of the key, as `insertEventIntoKeyState` asserts. -/
structure Delivers (updated : UniqueId → Finset (Key Json)) (o : Observed Json)
    (p : SignedEvent Json) : Prop where
  updated_eq : p.updated = updated p.id
  mem : p.key ∈ updated p.id
  first : ¬ o.Arrived p.id p.key
  base : ∀ base ∈ (o.view.mKeyStates.get p.key).baseValueID, base ≤ p.id

/-- The keys of the transaction are in order, and it still waits for a partial event. -/
def Awaited (o : Observed Json) (p : SignedEvent Json) : Prop :=
  o.view.mSubscribedRanges.InOrder (updated p.id) ∧ ¬ o.Complete updated p.id

instance (o : Observed Json) (id : UniqueId) : Decidable (o.Complete updated id) :=
  inferInstanceAs (Decidable ((∃ p ∈ o.arrived, p.id = id) ∧ ∀ key ∈ updated id,
    o.view.mSubscribedRanges.Subscribed key → o.Arrived id key))

instance (o : Observed Json) (p : SignedEvent Json) : Decidable (o.Delivers updated p) :=
  decidable_of_iff (p.updated = updated p.id ∧ p.key ∈ updated p.id ∧ ¬ o.Arrived p.id p.key ∧
      ∀ base ∈ (o.view.mKeyStates.get p.key).baseValueID, base ≤ p.id)
    ⟨fun h => ⟨h.1, h.2.1, h.2.2.1, h.2.2.2⟩, fun h => ⟨h.1, h.2, h.3, h.4⟩⟩

instance (o : Observed Json) (p : SignedEvent Json) : Decidable (o.Awaited updated p) :=
  inferInstanceAs (Decidable (_ ∧ ¬ _))

/-- The invariant: the assembled events know what has arrived and what is needed. -/
structure Inv (ranges : KeyRangeSet Json) (updated : UniqueId → Finset (Key Json))
    (o : Observed Json) : Prop where
  ranges_eq : o.view.mSubscribedRanges = ranges
  begun : ∀ id, id ∈ o.view.mAssembledEvents ↔ o.Begun id
  assembled : ∀ id event, lookup id o.view.mAssembledEvents = some event → event.signature.id = id ∧
    (∀ key, key ∈ event.needed ↔ key ∈ updated id ∧ ranges.Subscribed key ∧ ¬ o.Arrived id key) ∧
    ∀ key part, lookup key event.partials = some part → part ∈ o.arrived ∧ part.id = id ∧ part.key = key
  base : ∀ p ∈ o.arrived, ∀ base ∈ (o.view.mKeyStates.get p.key).baseValueID, base ≤ p.id
  atomic : o.Atomic updated

/-- A view that has received no events. -/
structure Fresh (ranges : KeyRangeSet Json) (s : FrozenView Json) : Prop where
  ranges_eq : s.mSubscribedRanges = ranges
  assembled : s.mAssembledEvents = ∅
  events : ∀ key, (s.mKeyStates.get key).events = ∅

section
variable {ranges : KeyRangeSet Json} {updated}
  {o o' : Observed Json} {p : SignedEvent Json} {id : UniqueId} {key : Key Json}

variable {s view : FrozenView Json}

theorem not_begun_new : ¬ ({ view := s } : Observed Json).Begun id := fun ⟨_, hp, _⟩ => absurd hp not_mem_nil

theorem inv_new (h : Fresh ranges s) : Inv ranges updated { view := s } where
  ranges_eq := h.ranges_eq
  begun id := by
    rw [h.assembled]
    exact ⟨fun h => absurd h notMem_empty, fun h => absurd h not_begun_new⟩
  assembled id event he := by
    have he : lookup id s.mAssembledEvents = some event := he
    rw [h.assembled, lookup_empty] at he
    cases he
  base p hp := absurd hp not_mem_nil
  atomic := by
    refine ⟨fun id hc => absurd hc.1 not_begun_new, fun id _ => ⟨not_mem_nil, fun key => ?_⟩⟩
    rw [h.events]
    exact notMem_empty

/-- The transaction of an arriving partial event, as `applyEvent` finds it. -/
theorem Inv.exists_assembled (h : Inv ranges updated o) (hd : ∀ r ∈ ranges.mRanges, r.InDimension)
    (hp : Delivers updated o p) (hin : ranges.InOrder (updated p.id)) :
    ∃ event, o.view.assembled p = .ok event ∧ event.signature.id = p.id ∧ (∀ key, key ∈ event.needed ↔
        key ∈ updated p.id ∧ ranges.Subscribed key ∧ ¬ o.Arrived p.id key) ∧
      ∀ key part, lookup key event.partials = some part → part ∈ o.arrived ∧ part.id = p.id ∧ part.key = key := by
  cases hl : lookup p.id o.view.mAssembledEvents with
  | some event => exact ⟨event, by rw [FrozenView.assembled, hl], h.assembled p.id event hl⟩
  | none =>
    have hin' : ranges.InOrder p.signature.updated := by
      show ranges.InOrder p.updated
      rw [hp.updated_eq]
      exact hin
    obtain ⟨event, hnew, hneed⟩ := (needed_new_iff hd p.signature).2 hin'
    obtain ⟨event', hnew', hsig, hpart, -⟩ := new_spec hd p.signature
    obtain rfl : event = event' := ok.inj (hnew.symm.trans hnew')
    refine ⟨event, by rw [FrozenView.assembled, hl, h.ranges_eq]; exact hnew, ?_, fun key => ?_, ?_⟩
    · rw [hsig]
      rfl
    · have hna : ¬ o.Arrived p.id key := by
        rintro ⟨q, hq, hid, -⟩
        exact lookup_eq_none.1 hl ((h.begun p.id).2 ⟨q, hq, hid⟩)
      rw [hneed]
      show key ∈ p.updated ∧ _ ↔ _
      rw [hp.updated_eq]
      exact and_congr_right fun _ => (and_iff_left hna).symm
    · intro key part hpart'
      rw [hpart, lookup_empty] at hpart'
      cases hpart'

variable {applied : List UniqueId}

/-- What has arrived when a partial event has. -/
theorem arrived_concat : Arrived ⟨view, o.arrived ++ [p], applied⟩ id key ↔
      o.Arrived id key ∨ p.id = id ∧ p.key = key := by
  simp only [Arrived, mem_append, List.mem_singleton, or_and_right, exists_or, exists_eq_left]

theorem begun_concat : Begun ⟨view, o.arrived ++ [p], applied⟩ id ↔ o.Begun id ∨ p.id = id := by
  simp only [Begun, mem_append, List.mem_singleton, or_and_right, exists_or, exists_eq_left]

/-- Other transactions are as complete as they were. -/
theorem complete_concat_of_ne
    (hr : view.mSubscribedRanges = o.view.mSubscribedRanges) (hne : p.id ≠ id) :
    Complete updated ⟨view, o.arrived ++ [p], applied⟩ id ↔ o.Complete updated id := by
  simp only [Complete, begun_concat, arrived_concat, hr, hne, false_and, or_false]

/-- The arrival of an awaited partial event keeps the invariant. -/
theorem Inv.step (h : Inv ranges updated o) (hd : ∀ r ∈ ranges.mRanges, r.InDimension)
    (hp : Delivers updated o p) (ha : o.Awaited updated p) :
    ∃ o', o.step p = some o' ∧ Inv ranges updated o' := by
  have hin := h.ranges_eq ▸ ha.1
  obtain ⟨event, he, hsig, hneed, hpartials⟩ := h.exists_assembled hd hp hin
  have hpartials' : ∀ key part, lookup key (event.addPartial p).partials = some part →
      part ∈ o.arrived ++ [p] ∧ part.id = p.id ∧ part.key = key := by
    intro key part hl
    have hl : lookup key (insert p.key p event.partials) = some part := hl
    rw [StdMap.lookup_insert] at hl
    split at hl
    · next hk =>
      obtain rfl := some.inj hl
      exact ⟨mem_append_right _ (List.mem_singleton_self _), rfl, hk.symm⟩
    · obtain ⟨hmem, hid, hkey⟩ := hpartials key part hl
      exact ⟨mem_append_left _ hmem, hid, hkey⟩
  have hbase : ∀ q ∈ o.arrived ++ [p], ∀ base ∈ (o.view.mKeyStates.get q.key).baseValueID, base ≤ q.id := by
    intro q hq
    rcases mem_append.1 hq with hq | hq
    · exact h.base q hq
    · rw [List.mem_singleton.1 hq]
      exact hp.base
  have hwp := FrozenView.wp_applyEvent he hsig fun key part hl => by
    obtain ⟨hmem, hid, hkey⟩ := hpartials' key part hl
    exact ⟨hid, hid ▸ hkey ▸ hbase part hmem⟩
  obtain ⟨applied, view, hx, ht⟩ : ∃ applied view, FrozenView.applyEvent p o.view = .ok applied view ∧
      FrozenView.TakesIn p.id (event.addPartial p) o.view applied view := by
    unfold wp at hwp
    split at hwp
    · exact ⟨_, _, by assumption, hwp⟩
    · exact hwp.elim
  have hstep : o.step p = some ⟨view, o.arrived ++ [p],
      if applied then o.applied ++ [p.id] else o.applied⟩ := by rw [Observed.step, hx]
  refine ⟨_, hstep, ?_⟩
  have hneed' : ∀ key, key ∈ (event.addPartial p).needed ↔ key ∈ updated p.id ∧
      ranges.Subscribed key ∧ ¬ (o.Arrived p.id key ∨ p.id = p.id ∧ p.key = key) := by
    intro key
    show key ∈ event.needed.erase p.key ↔ _
    rw [Finset.mem_erase, hneed]
    tauto
  have hvalid : (event.addPartial p).IsValid ↔ Complete updated ⟨view, o.arrived ++ [p],
      if applied then o.applied ++ [p.id] else o.applied⟩ p.id := by
    rw [IsValid, card_eq_zero, eq_empty_iff_forall_notMem, Complete, begun_concat]
    simp only [hneed', arrived_concat, ht.ranges, h.ranges_eq]
    exact ⟨fun hn => ⟨.inr trivial, fun key hup hs => by_contra fun hna => hn key ⟨hup, hs, hna⟩⟩,
      fun hn key hk => hk.2.2 (hn.2 key hk.1 hk.2.1)⟩
  refine ⟨ht.ranges.trans h.ranges_eq, fun id => ?_, fun id event' hl => ?_, fun q hq => ?_, ?_⟩
  · rw [begun_concat, ← h.begun]
    rw [ht.assembled, Finmap.mem_insert, or_comm, eq_comm]
  · have hl : lookup id view.mAssembledEvents = some event' := hl
    rw [ht.assembled, StdMap.lookup_insert] at hl
    simp only [arrived_concat]
    by_cases hid : id = p.id
    · rw [if_pos hid] at hl
      obtain rfl := some.inj hl
      subst hid
      exact ⟨hsig, hneed', hpartials'⟩
    · rw [if_neg hid] at hl
      obtain ⟨hs, hn, hparts⟩ := h.assembled id event' hl
      refine ⟨hs, fun key => ?_, fun key part hp' => ?_⟩
      · have hne : ¬ p.id = id := fun h => hid h.symm
        rw [hn]
        simp only [hne, false_and, or_false]
      · obtain ⟨hmem, hrest⟩ := hparts key part hp'
        exact ⟨mem_append_left _ hmem, hrest⟩
  · rw [ht.base]
    exact hbase q hq
  · refine ⟨fun id hc => ?_, fun id hc => ?_⟩
    · by_cases hid : p.id = id
      · subst hid
        have hnot := (h.atomic.notBefore p.id ha.2).1
        rw [if_pos (ht.applied.2 (hvalid.2 hc)), count_append, count_singleton_self, count_eq_zero.2 hnot]
      · rw [complete_concat_of_ne ht.ranges hid] at hc
        split
        · rw [count_append, h.atomic.once id hc, count_eq_zero.2 fun hm =>
            hid (List.mem_singleton.1 hm).symm]
        · exact h.atomic.once id hc
    · by_cases hid : p.id = id
      · subst hid
        obtain ⟨hnot, hevents⟩ := h.atomic.notBefore p.id ha.2
        have hnv : ¬ (event.addPartial p).IsValid := fun hv => hc (hvalid.1 hv)
        refine ⟨?_, fun key hm => ?_⟩
        · rw [if_neg fun he => hnv (ht.applied.1 he)]
          exact hnot
        · exact (ht.events key p.id hm).elim (fun hv => hnv hv.1) (hevents key)
      · rw [complete_concat_of_ne ht.ranges hid] at hc
        obtain ⟨hnot, hevents⟩ := h.atomic.notBefore id hc
        refine ⟨?_, fun key hm => ?_⟩
        · split
          · exact fun hm => (mem_append.1 hm).elim hnot fun he =>
              hid (List.mem_singleton.1 he).symm
          · exact hnot
        · exact (ht.events key id hm).elim (fun hv => hid hv.2.symm) (hevents key)

end

/-- A transaction waits for its updated keys that are subscribed exactly if these are in order. If the
keys of every transaction are, and no partial event arrives that its transaction does not wait for,
then each transaction is applied once, and only as a whole. -/
theorem always_atomic (ranges : KeyRangeSet Json) (hd : ∀ r ∈ ranges.mRanges, r.InDimension) :
    (∀ sig, (∃ e, new sig ranges = .ok e ∧
        ∀ key, key ∈ e.needed ↔ key ∈ sig.updated ∧ ranges.Subscribed key) ↔
      ranges.InOrder sig.updated) ∧
    ∀ updated s ps, Fresh ranges s →
      Run.EveryStep step (fun o p => o.Delivers updated p ∧ o.Awaited updated p) { view := s } ps →
      (Run.run step { view := s } ps).isSome ∧ Run.Always step (Atomic updated) { view := s } ps := by
  refine ⟨needed_new_iff hd, fun updated s ps hs hc => ?_⟩
  have hrun := Run.returns_of_everyStep (P := Inv ranges updated) (inv_new hs) (fun o p h hp => h.step hd hp.1 hp.2) hc
  exact ⟨hrun.1, hrun.2.mono fun o h => h.atomic⟩

/-! ## A transaction whose first key is not subscribed -/

/-- The key with a name, in a keyspace of one dimension. -/
def numberKey (n : ℕ) : Key ℕ := ⟨⟨.comparisonKeyType, 0, 1⟩, [n], rfl⟩

/-- A view that subscribes to the names from 2 on. -/
def fromTwo : FrozenView ℕ where
  mSubscribedRanges := ⟨{⟨⟨.comparisonKeyType, 0, 1⟩, 0, some ⟨2, true⟩, none⟩}⟩

theorem fresh_fromTwo : Fresh fromTwo.mSubscribedRanges fromTwo :=
  ⟨rfl, rfl, fun key => congrArg KeyState.events (get_empty key)⟩

/-- The partial event of a transaction for a key. -/
def partialEvent (updated : Finset (Key ℕ)) (n : ℕ) : SignedEvent ℕ :=
  { content := ⟨numberKey n, some n⟩, id := ⟨1, 0⟩, updated := updated }

/-- The partial events of one transaction arrive in the other order. -/
theorem always_atomic_twoKeys : Run.Always step (Atomic fun _ => {numberKey 2, numberKey 3}) { view := fromTwo }
      [partialEvent {numberKey 2, numberKey 3} 3, partialEvent {numberKey 2, numberKey 3} 2] :=
  ((always_atomic fromTwo.mSubscribedRanges (by decide)).2 _ _ _ fresh_fromTwo (by decide)).2

/-- A transaction that updates a key before the subscribed ones is applied as soon as one of its
partial events arrives. -/
theorem not_always_atomic : ¬ ∀ (ranges : KeyRangeSet ℕ) (updated : UniqueId → Finset (Key ℕ))
    (s : FrozenView ℕ) (ps : List (SignedEvent ℕ)), (∀ r ∈ ranges.mRanges, r.InDimension) →
    Fresh ranges s → Run.EveryStep step (Delivers updated) { view := s } ps →
      Run.Always step (Atomic updated) { view := s } ps := by
  intro h
  have ha := h fromTwo.mSubscribedRanges (fun _ => {numberKey 1, numberKey 2, numberKey 3})
    fromTwo [partialEvent {numberKey 1, numberKey 2, numberKey 3} 2] (by decide) fresh_fromTwo
    (by decide)
  have hr : Run.run step { view := fromTwo }
      [partialEvent {numberKey 1, numberKey 2, numberKey 3} 2] =
    some ⟨_, [partialEvent {numberKey 1, numberKey 2, numberKey 3} 2], [⟨1, 0⟩]⟩ := rfl
  exact ((ha.last hr).notBefore ⟨1, 0⟩ (by decide)).1 (List.mem_singleton_self _)

end Observed

end SharedState
