import Ufora.Lib.Run
import Ufora.SharedState.KeyType
import Mathlib.Data.List.MinMax

/-!
# Convergence of `TakeHighestIdKeyType`

Replicas of a key get its events in different orders and fold them into base values at different
moments. `shown_run` says that none of this matters: what a replica shows in the end is the update of
the event with the greatest id, and it is the same for all replicas with the same events.
-/

open Ordered Effect Run List Finmap Option

namespace SharedState.TakeHighestIdKeyType

variable {Json : Type}

variable (Json) in
/-- What happens to the state of a key: an event comes, or the events below an id are compacted. -/
inductive Change where
  | insert (event : PartialEvent Json) (eventMightBeDuplicate : Bool)
  | compact (upToId : UniqueId)

/-- The state after a change, unless an assertion fails. -/
def step (s : KeyState Json) : Change Json → Option (KeyState Json)
  | .insert event eventMightBeDuplicate =>
    returned (insertEventIntoKeyState event eventMightBeDuplicate) s
  | .compact upToId => some (compactKeyState s upToId)

/-- The event of a change. -/
def Change.event? : Change Json → Option (PartialEvent Json)
  | .insert event _ => some event
  | .compact _ => none

/-- The events that the changes insert, in their order. -/
def inserted (changes : List (Change Json)) : List (PartialEvent Json) := changes.filterMap Change.event?

/-- No compaction goes beyond an event that is inserted after it. -/
def CompactsBehind : List (Change Json) → Prop
  | [] => True
  | .insert _ _ :: changes => CompactsBehind changes
  | .compact upToId :: changes =>
    (∀ event ∈ inserted changes, upToId ≤ event.id) ∧ CompactsBehind changes

/-- The ids of the events are distinct. -/
def Distinct (events : List (PartialEvent Json)) : Prop := (events.map (·.id)).Nodup

/-- What an event makes a reader see. -/
def shownBy (event : PartialEvent Json) : Option (Json × UniqueId) :=
  event.content.update.map fun update => (update, event.id)

/-- What the event with the greatest id makes a reader see. -/
def shownByGreatest (events : List (PartialEvent Json)) : Option (Json × UniqueId) :=
    (events.argmax (·.id)).bind shownBy

/-! ## What a state stands for -/

/-- The event is one of the events, and none has a greater id. -/
def Greatest (event : PartialEvent Json) (events : List (PartialEvent Json)) : Prop :=
  event ∈ events ∧ ∀ e ∈ events, e.id ≤ event.id

section
variable {s : KeyState Json} {event : PartialEvent Json} {events seen later : List (PartialEvent Json)}

theorem shownByGreatest_nil : shownByGreatest ([] : List (PartialEvent Json)) = none := rfl

/-- Among events with distinct ids there is one greatest event only. -/
theorem Greatest.shownByGreatest (h : Greatest event events) (hd : Distinct events) :
    shownByGreatest events = shownBy event := by
  unfold TakeHighestIdKeyType.shownByGreatest
  cases hm : events.argmax (·.id) with
  | none => simp [argmax_eq_none.1 hm, Greatest] at h
  | some m =>
    have hle : event.id ≤ m.id := le_of_mem_argmax h.1 hm
    have hmem : m ∈ events := argmax_mem hm
    rw [inj_on_of_nodup_map hd h.1 hmem (hle.antisymm (h.2 m hmem)), bind_some]

theorem Greatest.cons (h : ∀ e ∈ seen, e.id ≤ event.id) : Greatest event (event :: seen) :=
  ⟨mem_cons_self, forall_mem_cons.2 ⟨le_rfl, h⟩⟩

/-- A greater event stays the greatest. -/
theorem Greatest.cons_of_le {e : PartialEvent Json} (h : Greatest event seen) (he : e.id ≤ event.id) :
    Greatest event (e :: seen) :=
  ⟨mem_cons_of_mem e h.1, forall_mem_cons.2 ⟨he, h.2⟩⟩

/-- The state stands for the events seen: it has the greatest of them, or what that one shows as its
base value, while the events to come are all greater. -/
inductive StandsFor (s : KeyState Json) (seen later : List (PartialEvent Json)) : Prop
  | held (event : PartialEvent Json) (h : Greatest event seen)
      (hs : s.events = insert event.id event ∅)
  | folded (h : shown s.baseValue = shownByGreatest seen) (hs : s.events = ∅)
      (hl : ∀ e ∈ seen, ∀ l ∈ later, e.id < l.id)

/-- What a state of a run keeps: no event to come is below its base. -/
structure Kept (s : KeyState Json) (seen later : List (PartialEvent Json)) : Prop where
  distinct : Distinct (later ++ seen)
  base : ∀ id ∈ s.baseValueID, ∀ l ∈ later, id ≤ l.id
  standsFor : StandsFor s seen later

theorem kept_default (hd : Distinct events) : Kept (default : KeyState Json) [] events := by
  refine ⟨by simpa using hd, nofun, .folded ?_ rfl nofun⟩
  rw [shownByGreatest_nil]
  rfl

theorem lastEvent_of_eq_empty (hs : s.events = ∅) : lastEvent s = none := by
  simp [lastEvent, hs]

theorem lastEvent_of_eq_insert (hs : s.events = insert event.id event ∅) : lastEvent s = some event := by
  have hk : s.events.keys = {event.id} := by
    ext id
    rw [hs, StdMap.mem_keys_iff]
    simp [StdMap.lookup_insert]
  have ha : ascending {event.id} = [event.id] := rfl
  rw [lastEvent, hk, ha, getLast?_singleton, bind_some, hs, lookup_insert]

/-- The state shows what it stands for. -/
theorem Kept.shown_computeValueForKeyState (h : Kept s seen later) :
    shown (computeValueForKeyState s) = shownByGreatest seen := by
  unfold computeValueForKeyState
  cases h.standsFor with
  | held event hg hs =>
    rw [lastEvent_of_eq_insert hs, hg.shownByGreatest (h.distinct.sublist ?_)]
    · rfl
    · exact (sublist_append_right later seen).map _
  | folded hv hs _ => rw [lastEvent_of_eq_empty hs, hv]

/-! ## One change -/

section

variable (h : Kept s seen (event :: later))
include h

/-- An event goes from those to come to those seen. -/
theorem Kept.distinct_cons : Distinct (later ++ event :: seen) := (perm_middle.map _).nodup_iff.2 h.distinct

/-- An event that comes has another id than the events seen. -/
theorem Kept.id_ne {e : PartialEvent Json} (he : e ∈ seen) : event.id ≠ e.id := by
  have hd : (event.id :: (later ++ seen).map (·.id)).Nodup := h.distinct
  intro hid
  exact (nodup_cons.1 hd).1 (hid ▸ mem_map_of_mem (mem_append_right later he))

/-- The state with the event alone stands for an event that is greater than those seen. -/
theorem Kept.insert (hg : ∀ e ∈ seen, e.id ≤ event.id) :
    Kept { s with events := insert event.id event ∅ } (event :: seen) later :=
  ⟨h.distinct_cons, fun id hid l hl => h.base id hid l (mem_cons_of_mem event hl), .held event (.cons hg) rfl⟩

/-- No assertion fails where the next event is inserted. -/
theorem Kept.insertEventIntoKeyState
    (eventMightBeDuplicate : Bool) : wp (insertEventIntoKeyState event eventMightBeDuplicate)
      (fun _ s' => Kept s' (event :: seen) later) (fun _ _ => False) s := by
  have hnew : event.id ∉ s.events := by
    cases h.standsFor with
    | held e hg hs => simpa [hs, notMem_empty] using h.id_ne hg.1
    | folded _ hs _ => simp [hs, notMem_empty]
  refine wp_insertEventIntoKeyState (fun base hb hlt => hlt (h.base base hb event mem_cons_self))
    (fun _ => hnew) (fun last hlast hlt => ?_) fun hle => ?_
  · cases h.standsFor with
    | held e hg hs =>
      obtain rfl := some.inj ((lastEvent_of_eq_insert hs).symm.trans hlast)
      exact ⟨h.distinct_cons, fun id hid l hl => h.base id hid l (mem_cons_of_mem event hl),
        .held e (hg.cons_of_le hlt.le) hs⟩
    | folded _ hs _ => cases (lastEvent_of_eq_empty hs).symm.trans hlast
  · cases h.standsFor with
    | held e hg hs => exact h.insert fun e' he' => (hg.2 e' he').trans (hle e (lastEvent_of_eq_insert hs))
    | folded _ hs hl => exact h.insert fun e he => (hl e he event mem_cons_self).le

end

/-- Compacting behind the events to come leaves a state that stands for the same events. -/
theorem Kept.compactKeyState (h : Kept s seen later) {upToId : UniqueId}
    (hl : ∀ e ∈ later, upToId ≤ e.id) : Kept (compactKeyState s upToId) seen later := by
  have hv := h.shown_computeValueForKeyState
  cases h.standsFor with
  | folded _ hs _ =>
    simp only [TakeHighestIdKeyType.compactKeyState, lastEvent_of_eq_empty hs]
    exact h
  | held e hg hs =>
    simp only [TakeHighestIdKeyType.compactKeyState, lastEvent_of_eq_insert hs]
    split
    · next hlt =>
      have hgt : ∀ l ∈ later, e.id < l.id := fun l hm => hlt.trans_le (hl l hm)
      have hall : ∀ e' ∈ seen, ∀ l ∈ later, e'.id < l.id := fun e' he' l hm =>
        (hg.2 e' he').trans_lt (hgt l hm)
      split
      · next hn =>
        rw [hn] at hv
        exact ⟨h.distinct, nofun, .folded hv rfl hall⟩
      · refine ⟨h.distinct, fun id hid l hm => ?_, .folded hv rfl hall⟩
        rw [← some.inj hid]
        exact (hgt l hm).le
    · exact h

end

/-! ## Runs -/

variable {s : KeyState Json} {changes changes' : List (Change Json)}
  {events seen : List (PartialEvent Json)}

/-- No assertion fails in a run, and its last state stands for all events seen. -/
theorem Kept.run (h : Kept s seen (inserted changes)) (hc : CompactsBehind changes) :
    ∃ s' seen', run step s changes = some s' ∧ seen'.Perm (inserted changes ++ seen) ∧ Kept s' seen' [] := by
  induction changes generalizing s seen with
  | nil => exact ⟨s, seen, rfl, .refl seen, h⟩
  | cons change changes ih =>
    cases change with
    | insert event eventMightBeDuplicate =>
      obtain ⟨t, ht, hk⟩ := (h.insertEventIntoKeyState eventMightBeDuplicate).exists_returned
      obtain ⟨s', seen', hr, hp, hk'⟩ := ih hk hc
      refine ⟨s', seen', ?_, hp.trans perm_middle, hk'⟩
      rw [run_cons, step, ht, bind_some, hr]
    | compact upToId =>
      obtain ⟨s', seen', hr, hp, hk'⟩ := ih (h.compactKeyState hc.1) hc.2
      exact ⟨s', seen', hr, hp, hk'⟩

/-- What the greatest event shows does not depend on the order of the events. -/
theorem shownByGreatest_perm (hp : seen.Perm events) (hd : Distinct events) :
    shownByGreatest seen = shownByGreatest events := by
  cases hm : seen.argmax (·.id) with
  | none =>
    obtain rfl := argmax_eq_none.1 hm
    rw [nil_perm.1 hp]
  | some m =>
    have hg : Greatest m seen := ⟨argmax_mem hm, fun e he => le_of_mem_argmax he hm⟩
    have hg' : Greatest m events := ⟨hp.mem_iff.1 hg.1, fun e he => hg.2 e (hp.mem_iff.2 he)⟩
    rw [hg'.shownByGreatest hd, hg.shownByGreatest ((hp.map _).nodup_iff.2 hd)]

/-- Whatever the order in which the events come, and wherever compactions that stay behind the events
to come are made between them, no assertion fails and the key shows in the end what the event with
the greatest id says. -/
theorem shown_run (hd : Distinct events) (hp : (inserted changes).Perm events)
    (hc : CompactsBehind changes) : ∃ s, run step default changes = some s ∧
      shown (computeValueForKeyState s) = shownByGreatest events := by
  have hk := kept_default ((hp.map _).nodup_iff.2 hd)
  obtain ⟨s, seen, hr, hp', hk'⟩ := hk.run hc
  rw [append_nil] at hp'
  exact ⟨s, hr, hk'.shown_computeValueForKeyState.trans (shownByGreatest_perm (hp'.trans hp) hd)⟩

/-- An update of a key in a keyspace where the highest id wins. -/
def eventOf (id : UniqueId) (update : Option ℕ) : PartialEvent ℕ :=
  ⟨⟨⟨⟨.takeHighestIdKeyType, 0, 1⟩, [7], rfl⟩, update⟩, id⟩

/-- Two clients write with one event id, the later in the order of clients comes first, and a
compaction is made before a last event comes. -/
theorem shown_run_eventOf : ∃ s, run step default
    [.insert (eventOf ⟨3, 2⟩ (some 20)) false, .insert (eventOf ⟨3, 1⟩ (some 10)) true,
      .compact ⟨4, 0⟩, .insert (eventOf ⟨4, 1⟩ (some 30)) false] = some s ∧
    shown (computeValueForKeyState s) = shownByGreatest
      [eventOf ⟨3, 1⟩ (some 10), eventOf ⟨3, 2⟩ (some 20), eventOf ⟨4, 1⟩ (some 30)] :=
  shown_run (by unfold Distinct; decide) (.swap _ _ _) ⟨by unfold inserted; decide, trivial⟩

end SharedState.TakeHighestIdKeyType
