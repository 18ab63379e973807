import Ufora.Lib.Effect
import Ufora.SharedState.Types

/-!
# Key types

`distributed/SharedState/KeyType.cppml` and `TakeHighestIdKeyType.cppml`: how the events of a key make
its value, and how a key's state is compacted. A compacted state shows the same value
(`shown_computeValueForKeyState_compact`), and it is a deleted one exactly when all events of the key
are folded into a null value (`wasDeleted_compactKeyState_iff`).
-/

open Ordered Effect List Finmap Option

namespace SharedState

variable {Json : Type}

/-! ## The base class -/

namespace BaseKeyType

variable (applyEventToValue : Option (ValueType Json) → Option Json → UniqueId → Option (ValueType Json))

/-- One turn of the loop of `compactKeyState`: the first event goes into the base value. -/
def compactFirst (ioKeyState : KeyState Json) (first : UniqueId) : KeyState Json :=
  match lookup first ioKeyState.events with
  | some event =>
    { baseValue := applyEventToValue ioKeyState.baseValue event.content.update event.id
      baseValueID := some event.id
      events := erase first ioKeyState.events }
  | none => ioKeyState

/-- `KeyType::compactKeyState(ioKeyState, upToId)`. -/
def compactKeyState (ioKeyState : KeyState Json) (upToId : UniqueId) : KeyState Json :=
  ((ascending ioKeyState.events.keys).takeWhile (· < upToId)).foldl
    (compactFirst applyEventToValue) ioKeyState

/-- `KeyType::computeValueForKeyState(inKeyState)`. -/
def computeValueForKeyState (inKeyState : KeyState Json) : Option (ValueType Json) :=
  (ascending inKeyState.events.keys).foldl (fun tr id =>
    match lookup id inKeyState.events with
    | some event => applyEventToValue tr event.content.update id
    | none => tr) inKeyState.baseValue

/-- `KeyType::insertEventIntoKeyState(ioKeyState, event, eventMightBeDuplicate)`. -/
def insertEventIntoKeyState (event : PartialEvent Json) (eventMightBeDuplicate : Bool) :
    EStateM (AssertionFailed Json) (KeyState Json) Bool := do
  lassert (eventMightBeDuplicate ∨ event.id ∉ (← get).events) (.duplicateEvent event.id)
  if let some base := (← get).baseValueID then
    lassert (base ≤ event.id) (.eventBeforeBase base event.id)
  modify fun s => { s with events := insert event.id event s.events }
  return true

/-- `KeyType::updateBaseValueForKeyState(ioKeyState, inValue, inBaseValueId)`. -/
def updateBaseValueForKeyState (inValue : ValueType Json) (inBaseValueId : UniqueId) :
    EStateM (AssertionFailed Json) (KeyState Json) Unit := do
  lassert (∀ first ∈ (ascending (← get).events.keys).head?, inBaseValueId < first)
    (.baseAfterEvents inBaseValueId)
  modify fun s => { s with baseValue := some inValue, baseValueID := some inBaseValueId }

end BaseKeyType

/-- `ComparisonKeyType::applyEventToValue(inPriorValue, inUpdate, inEventId)`. -/
def ComparisonKeyType.applyEventToValue [LinearOrder Json] (inPriorValue : Option (ValueType Json))
    (inUpdate : Option Json) (inEventId : UniqueId) : Option (ValueType Json) :=
  match inUpdate with
  | none => none
  | some update =>
    match inPriorValue.bind (·.value) with
    | none => some ⟨some update, inEventId⟩
    | some prior => if prior > update then inPriorValue else some ⟨some update, inEventId⟩

/-! ## `TakeHighestIdKeyType`

It overrides every function of the base class that applies events, so that nothing here calls its
`applyEventToValue`. -/

namespace TakeHighestIdKeyType

/-- `events().rbegin()->second`, where there is an event. -/
def lastEvent (s : KeyState Json) : Option (PartialEvent Json) :=
  (ascending s.events.keys).getLast?.bind fun id => lookup id s.events

/-- `computeValueForKeyState(inKeyState)`. -/
def computeValueForKeyState (inKeyState : KeyState Json) : Option (ValueType Json) :=
  match lastEvent inKeyState with
  | some event => some ⟨event.content.update, event.id⟩
  | none => inKeyState.baseValue

/-- `compactKeyState(ioKeyState, upToId)`. -/
def compactKeyState (ioKeyState : KeyState Json) (upToId : UniqueId) : KeyState Json :=
  match lastEvent ioKeyState with
  | none => ioKeyState
  | some event =>
    if event.id < upToId then
      match computeValueForKeyState ioKeyState with
      | some ⟨none, _⟩ => { baseValue := none, baseValueID := none, events := ∅ }
      | base => { baseValue := base, baseValueID := some event.id, events := ∅ }
    else ioKeyState

/-- `insertEventIntoKeyState(ioKeyState, event, eventMightBeDuplicate)`. -/
def insertEventIntoKeyState (event : PartialEvent Json) (eventMightBeDuplicate : Bool) :
    EStateM (AssertionFailed Json) (KeyState Json) Bool := do
  if let some base := (← get).baseValueID then
    lassert (base ≤ event.id) (.eventBeforeBase base event.id)
  lassert (eventMightBeDuplicate ∨ event.id ∉ (← get).events) (.duplicateEvent event.id)
  if ((lastEvent (← get)).any fun last => decide (event.id < last.id)) then
    return false
  modify fun s => { s with events := insert event.id event ∅ }
  return true

/-- What an insertion can do: an assertion fails, the last event stays, or the event takes its place. -/
theorem wp_insertEventIntoKeyState {event : PartialEvent Json} {dup : Bool} {s : KeyState Json}
    {Q : Bool → KeyState Json → Prop} {E : AssertionFailed Json → KeyState Json → Prop}
    (hbase : ∀ base ∈ s.baseValueID, ¬ base ≤ event.id → E (.eventBeforeBase base event.id) s)
    (hdup : ¬ dup → event.id ∈ s.events → E (.duplicateEvent event.id) s)
    (hkeep : ∀ last ∈ lastEvent s, event.id < last.id → Q false s)
    (hinsert : (∀ last ∈ lastEvent s, last.id ≤ event.id) → Q true { s with events := insert event.id event ∅ }) :
    wp (insertEventIntoKeyState event dup) Q E s := by
  have hnext : wp (do
      lassert (dup ∨ event.id ∉ (← get).events) (.duplicateEvent event.id)
      if ((lastEvent (← get)).any fun last => decide (event.id < last.id)) then
        return false
      modify fun s => { s with events := insert event.id event ∅ }
      return true) Q E s := by
    simp only [wp_bind, wp_get, wp_lassert, wp_ite, wp_modify, wp_pure, Option.any_eq_true, decide_eq_true_eq]
    split
    · split
      · next hlt =>
        obtain ⟨last, hlast, hlt⟩ := hlt
        exact hkeep last hlast hlt
      · next hge => exact hinsert fun last hlast => not_lt.1 fun hlt => hge ⟨last, hlast, hlt⟩
    · next hno => exact hdup (fun h => hno (.inl h)) (by_contra fun h => hno (.inr h))
  simp only [insertEventIntoKeyState, wp_bind, wp_get]
  split
  · next base hb =>
    rw [wp_bind, wp_lassert]
    split
    · exact hnext
    · next hlt => exact hbase base hb hlt
  · exact hnext

/-- `updateBaseValueForKeyState(ioKeyState, inValue, inBaseValueId)`. -/
def updateBaseValueForKeyState (inValue : ValueType Json) (inBaseValueId : UniqueId) :
    EStateM (AssertionFailed Json) (KeyState Json) Unit :=
  modify fun s => { s with baseValue := some inValue, baseValueID := some inBaseValueId }

end TakeHighestIdKeyType

/-! ## The virtual functions -/

namespace KeyType

/-- `compactKeyState(ioKeyState, upToId)`. -/
def compactKeyState [LinearOrder Json] : KeyType → KeyState Json → UniqueId → KeyState Json
  | comparisonKeyType => BaseKeyType.compactKeyState ComparisonKeyType.applyEventToValue
  | takeHighestIdKeyType => TakeHighestIdKeyType.compactKeyState

/-- `computeValueForKeyState(inKeyState)`. -/
def computeValueForKeyState [LinearOrder Json] : KeyType → KeyState Json → Option (ValueType Json)
  | comparisonKeyType => BaseKeyType.computeValueForKeyState ComparisonKeyType.applyEventToValue
  | takeHighestIdKeyType => TakeHighestIdKeyType.computeValueForKeyState

/-- `insertEventIntoKeyState(ioKeyState, event, eventMightBeDuplicate)`. -/
def insertEventIntoKeyState : KeyType → PartialEvent Json → Bool → EStateM (AssertionFailed Json) (KeyState Json) Bool
  | comparisonKeyType => BaseKeyType.insertEventIntoKeyState
  | takeHighestIdKeyType => TakeHighestIdKeyType.insertEventIntoKeyState

/-- `updateBaseValueForKeyState(ioKeyState, inValue, inBaseValueId)`. -/
def updateBaseValueForKeyState : KeyType → ValueType Json → UniqueId →
    EStateM (AssertionFailed Json) (KeyState Json) Unit
  | comparisonKeyType => BaseKeyType.updateBaseValueForKeyState
  | takeHighestIdKeyType => TakeHighestIdKeyType.updateBaseValueForKeyState

end KeyType

/-- What a reader makes of a value: a value that is null is none. -/
def shown (v : Option (ValueType Json)) : Option (Json × UniqueId) := v.bind fun v => v.value.map fun j => (j, v.id)

/-! ## What the states keep -/

/-- Each event is under its own id, and no base value is null. -/
structure KeyState.WellFormed (s : KeyState Json) : Prop where
  keyed : ∀ id event, lookup id s.events = some event → event.id = id
  base : ∀ v, s.baseValue = some v → v.value.isSome

theorem KeyState.wellFormed_default : (default : KeyState Json).WellFormed := ⟨nofun, nofun⟩

/-- Inserting an event keeps a state well formed. -/
theorem KeyState.WellFormed.insertEventIntoKeyState {s : KeyState Json} (h : s.WellFormed)
    (t : KeyType) (event : PartialEvent Json) (dup : Bool) :
    wp (t.insertEventIntoKeyState event dup) (fun _ s' => s'.WellFormed) (fun _ s' => s'.WellFormed) s := by
  have hinsert : ∀ m : StdMap UniqueId (PartialEvent Json), (∀ id event, lookup id m = some event → event.id = id) →
      ({ s with events := insert event.id event m } : KeyState Json).WellFormed := by
    intro m hm
    refine ⟨fun id e he => ?_, h.base⟩
    rw [StdMap.lookup_insert] at he
    split at he
    · next hid => rw [← some.inj he, hid]
    · exact hm id e he
  cases t with
  | comparisonKeyType =>
    simp only [KeyType.insertEventIntoKeyState, BaseKeyType.insertEventIntoKeyState, wp_bind, wp_get, wp_lassert]
    split
    · split
      · simp only [wp_bind, wp_lassert, wp_modify, wp_pure]
        split
        · exact hinsert _ h.keyed
        · exact h
      · exact hinsert _ h.keyed
    · exact h
  | takeHighestIdKeyType =>
    exact TakeHighestIdKeyType.wp_insertEventIntoKeyState (fun _ _ _ => h) (fun _ _ => h) (fun _ _ _ => h)
      fun _ => hinsert ∅ (by simp)

/-! ## Compaction -/

variable {s : KeyState Json} {upToId : UniqueId}

namespace BaseKeyType

variable {apply : Option (ValueType Json) → Option Json → UniqueId → Option (ValueType Json)}

variable (happly : ∀ p u i v, (∀ v, p = some v → v.value.isSome) → apply p u i = some v → v.value.isSome)
include happly

/-- The loop moves events into the base value, from the first on, and leaves the value alone. -/
theorem foldl_compactFirst (l r : List UniqueId) (h : s.WellFormed) (hk : ascending s.events.keys = l ++ r) :
    (l.foldl (compactFirst apply) s).WellFormed ∧ ascending (l.foldl (compactFirst apply) s).events.keys = r ∧
      computeValueForKeyState apply (l.foldl (compactFirst apply) s) = computeValueForKeyState apply s := by
  induction l generalizing s with
  | nil => exact ⟨h, hk, rfl⟩
  | cons first l ih =>
    have hmem : first ∈ ascending s.events.keys := by simp [hk]
    rw [mem_ascending, StdMap.mem_keys_iff] at hmem
    obtain ⟨event, he⟩ := hmem
    have hfirst : compactFirst apply s first =
        { baseValue := apply s.baseValue event.content.update event.id
          baseValueID := some event.id
          events := erase first s.events } := by
      rw [compactFirst, he]
    have hkeys : ascending (compactFirst apply s first).events.keys = l ++ r := by
      rw [hfirst, keys_erase]
      exact ascending_erase_of_cons hk
    have hwf : (compactFirst apply s first).WellFormed := by
      rw [hfirst]
      refine ⟨fun id e hid => ?_, fun v hv => happly _ _ _ v h.base hv⟩
      rw [StdMap.lookup_erase] at hid
      split at hid
      · cases hid
      · exact h.keyed id e hid
    obtain ⟨hwf', hkeys', hvalue⟩ := ih hwf hkeys
    refine ⟨hwf', hkeys', hvalue.trans ?_⟩
    have hnot : first ∉ l ++ r := by
      have := ascending_nodup s.events.keys
      rw [hk] at this
      exact (nodup_cons.1 this).1
    unfold computeValueForKeyState
    rw [hkeys, hk, cons_append, foldl_cons, hfirst, he, h.keyed first event he]
    refine foldl_ext _ _ _ fun v id hid => ?_
    rw [StdMap.lookup_erase, if_neg fun hf : id = first => hnot (hf ▸ hid)]

/-- What is left of a state's events are those that are not below the id. -/
theorem compactKeyState_spec (h : s.WellFormed) : (compactKeyState apply s upToId).WellFormed ∧
      ascending (compactKeyState apply s upToId).events.keys = (ascending s.events.keys).dropWhile (· < upToId) ∧
      computeValueForKeyState apply (compactKeyState apply s upToId) = computeValueForKeyState apply s :=
  foldl_compactFirst happly _ _ h takeWhile_append_dropWhile.symm

end BaseKeyType

/-- A comparison makes no null value out of values that are not null. -/
theorem ComparisonKeyType.isSome_applyEventToValue [LinearOrder Json]
    (p : Option (ValueType Json)) (u : Option Json) (i : UniqueId) (v : ValueType Json)
    (hp : ∀ v, p = some v → v.value.isSome) (h : applyEventToValue p u i = some v) :
    v.value.isSome := by
  unfold applyEventToValue at h
  split at h
  · cases h
  · split at h
    · rw [← some.inj h]
      rfl
    · split at h
      · exact hp v h
      · rw [← some.inj h]
        rfl

namespace TakeHighestIdKeyType

/-- There is a last event unless there is none, and its id is the greatest. -/
theorem lastEvent_spec (h : s.WellFormed) : match lastEvent s with
    | none => s.events.keys = ∅
    | some event => event.id ∈ s.events.keys ∧ ∀ id ∈ s.events.keys, id ≤ event.id := by
  unfold lastEvent
  cases hl : (ascending s.events.keys).getLast? with
  | none =>
    have he := toFinset_ascending s.events.keys
    rw [getLast?_eq_none_iff.1 hl, toFinset_nil] at he
    exact he.symm
  | some last =>
    obtain ⟨l, hk⟩ := getLast?_eq_some_iff.1 hl
    have hlast : last ∈ s.events.keys := by
      rw [← mem_ascending, hk]
      exact mem_append_right _ (mem_singleton_self last)
    obtain ⟨event, he⟩ := StdMap.mem_keys_iff.1 hlast
    simp only [bind_some, he, h.keyed last event he]
    refine ⟨hlast, fun id hid => ?_⟩
    have hp := pairwise_ascending s.events.keys
    rw [← mem_ascending, hk, mem_append, List.mem_singleton] at hid
    rw [hk, pairwise_append] at hp
    rcases hid with hid | rfl
    · exact hp.2.2 id hid last (mem_singleton_self last)
    · exact le_rfl

/-- All events are below an id when the last one is. -/
theorem forall_lt_iff (h : s.WellFormed) {e : PartialEvent Json} (he : lastEvent s = some e) :
    (∀ id ∈ s.events.keys, id < upToId) ↔ e.id < upToId := by
  have hs := lastEvent_spec h
  rw [he] at hs
  exact ⟨fun hlt => hlt _ hs.1, fun hlt id hid => (hs.2 id hid).trans_lt hlt⟩

theorem WellFormed.compactKeyState (h : s.WellFormed) : (compactKeyState s upToId).WellFormed := by
  unfold TakeHighestIdKeyType.compactKeyState
  split
  · exact h
  · split
    · split
      · exact KeyState.wellFormed_default
      · next hbase => exact ⟨nofun, fun v hv => by cases v with | mk value id => cases value with
          | none => exact absurd hv (hbase id)
          | some j => rfl⟩
    · exact h

/-- A state without events has its base value. -/
theorem computeValueForKeyState_empty {base : Option (ValueType Json)} {id : Option UniqueId} :
    computeValueForKeyState { baseValue := base, baseValueID := id, events := ∅ } = base := rfl

theorem shown_compactKeyState : shown (computeValueForKeyState (compactKeyState s upToId)) =
      shown (computeValueForKeyState s) := by
  unfold compactKeyState
  split
  · rfl
  · split
    · split
      · next hv => rw [hv, computeValueForKeyState_empty]; rfl
      · rw [computeValueForKeyState_empty]
    · rfl

end TakeHighestIdKeyType

/-- No value is shown of a null value only. -/
theorem shown_eq_none_iff {v : Option (ValueType Json)} : shown v = none ↔ ∀ w, v = some w → w.value = none := by
  cases v with
  | none => simp [shown]
  | some w => simp [shown]

namespace KeyType

variable [LinearOrder Json]

/-- Compaction keeps a state well formed. -/
theorem wellFormed_compactKeyState (t : KeyType) (h : s.WellFormed) : (t.compactKeyState s upToId).WellFormed := by
  cases t with
  | comparisonKeyType =>
    exact (BaseKeyType.compactKeyState_spec ComparisonKeyType.isSome_applyEventToValue h).1
  | takeHighestIdKeyType => exact TakeHighestIdKeyType.WellFormed.compactKeyState h

/-- Compaction leaves the value of a state alone. -/
theorem shown_computeValueForKeyState_compact (t : KeyType) (h : s.WellFormed) :
    shown (t.computeValueForKeyState (t.compactKeyState s upToId)) = shown (t.computeValueForKeyState s) := by
  cases t with
  | comparisonKeyType =>
    exact congrArg shown (BaseKeyType.compactKeyState_spec ComparisonKeyType.isSome_applyEventToValue h).2.2
  | takeHighestIdKeyType => exact TakeHighestIdKeyType.shown_compactKeyState

/-- A state without events shows nothing exactly when it is a deleted one. -/
theorem wasDeleted_iff (t : KeyType) (h : s.WellFormed) :
    s.wasDeleted ↔ s.events.keys = ∅ ∧ shown (t.computeValueForKeyState s) = none := by
  refine and_congr_right fun he => ?_
  have hbase : t.computeValueForKeyState s = s.baseValue := by
    cases t with
    | comparisonKeyType =>
      change BaseKeyType.computeValueForKeyState _ s = _
      rw [BaseKeyType.computeValueForKeyState, he]
      rfl
    | takeHighestIdKeyType =>
      change TakeHighestIdKeyType.computeValueForKeyState s = _
      rw [TakeHighestIdKeyType.computeValueForKeyState, TakeHighestIdKeyType.lastEvent, he]
      rfl
  rw [hbase, shown_eq_none_iff]
  refine ⟨fun hn w hw => ?_, fun hn => ?_⟩
  · rw [hn] at hw
    cases hw
  · by_contra hb
    obtain ⟨w, hw⟩ := ne_none_iff_exists'.1 hb
    have := h.base w hw
    rw [hn w hw] at this
    cases this

/-- Compaction makes a deleted state of one that shows nothing and has no event left. -/
theorem wasDeleted_compactKeyState_iff (t : KeyType) (h : s.WellFormed) : (t.compactKeyState s upToId).wasDeleted ↔
      (∀ id ∈ s.events.keys, id < upToId) ∧ shown (t.computeValueForKeyState s) = none := by
  rw [t.wasDeleted_iff (t.wellFormed_compactKeyState h), t.shown_computeValueForKeyState_compact h]
  refine and_congr_left fun hv => ?_
  cases t with
  | comparisonKeyType =>
    obtain ⟨-, hk, -⟩ : (BaseKeyType.compactKeyState _ s upToId).WellFormed ∧ _ ∧ _ :=
      BaseKeyType.compactKeyState_spec ComparisonKeyType.isSome_applyEventToValue h
    change (BaseKeyType.compactKeyState _ s upToId).events.keys = ∅ ↔ _
    rw [← toFinset_ascending (BaseKeyType.compactKeyState _ s upToId).events.keys, hk,
      toFinset_eq_empty_iff, dropWhile_eq_nil_iff]
    simp
  | takeHighestIdKeyType =>
    have hs := TakeHighestIdKeyType.lastEvent_spec h
    change (TakeHighestIdKeyType.compactKeyState s upToId).events.keys = ∅ ↔ _
    unfold TakeHighestIdKeyType.compactKeyState
    cases he : TakeHighestIdKeyType.lastEvent s with
    | none =>
      rw [he] at hs
      simp [hs]
    | some event =>
      rw [he] at hs
      rw [TakeHighestIdKeyType.forall_lt_iff h he]
      dsimp only
      split
      · next hlt =>
        refine ⟨fun _ => hlt, fun _ => ?_⟩
        split <;> rfl
      · next hlt => exact ⟨fun hn => absurd hs.1 (by simp [hn]), fun hn => absurd hn hlt⟩

end KeyType

end SharedState
