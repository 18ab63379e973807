import Ufora.Lib.Run
import Ufora.Networking.MultiChannel

/-!
# What a `MultiChannel` delivers

Every message is scheduled once, those of one channel in the order in which they were written, and no message stays
delayed that could be scheduled. This holds in every run, unless the message with the greatest ordinal that there is
overtakes others: the ordinal after it is 0.
-/

open Run List Option Nat

namespace Networking.MultiChannel

variable {M : Type} {s : MultiChannel M} {a b d e : DelayedMessage M} {l : List (DelayedMessage M)}

/-- The greatest ordinal of these messages, 0 if there are none. -/
def greatestOrdinal (l : List (DelayedMessage M)) : ℕ := l.foldr (fun message n => max message.ordinal n) 0

@[simp] theorem greatestOrdinal_nil : greatestOrdinal ([] : List (DelayedMessage M)) = 0 := rfl

@[simp] theorem greatestOrdinal_cons : greatestOrdinal (a :: l) = max a.ordinal (greatestOrdinal l) := rfl

@[simp] theorem greatestOrdinal_append (l l' : List (DelayedMessage M)) :
    greatestOrdinal (l ++ l') = max (greatestOrdinal l) (greatestOrdinal l') := by
  induction l with
  | nil => simp
  | cons a l ih => simp [ih, max_assoc]

theorem le_greatestOrdinal (h : a ∈ l) : a.ordinal ≤ greatestOrdinal l := by
  induction l with
  | nil => simp at h
  | cons b l ih =>
    rcases mem_cons.1 h with rfl | h
    · simp
    · simp [ih h]

variable {n channel ordinal : ℕ}

theorem greatestOrdinal_le (h : ∀ a ∈ l, a.ordinal ≤ n) : greatestOrdinal l ≤ n := by
  induction l with
  | nil => simp
  | cons a l ih =>
    exact Nat.max_le.2 ⟨h a (.head _), ih fun b hb => h b (.tail _ hb)⟩

theorem succOrdinal_of_lt (h : n < lastOrdinal) : succOrdinal n = n + 1 := by
  unfold lastOrdinal at h
  exact mod_eq_of_lt (by omega)

theorem succOrdinal_lastOrdinal : succOrdinal lastOrdinal = 0 := rfl

/-! ## The calls -/

/-- The messages that are scheduled are the first in the queue, until one may not be scheduled yet. -/
theorem dispatchDelayed_spec (s : MultiChannel M) (last : ℕ) (l : List (DelayedMessage M)) :
    ∃ taken rest, l = taken ++ rest ∧ s.dispatchDelayed last l = { s with
        mMaxDispatchedMessageOrdinal := max s.mMaxDispatchedMessageOrdinal (greatestOrdinal taken)
        mDelayedMessages := rest
        scheduled := s.scheduled ++ taken } ∧
      (∀ d ∈ taken.head?, d.ordinal ≤ succOrdinal last) ∧
      ∀ d ∈ rest.head?, succOrdinal (max last (greatestOrdinal taken)) < d.ordinal := by
  induction l generalizing s last with
  | nil => exact ⟨[], [], rfl, by simp [dispatchDelayed], by simp, by simp⟩
  | cons a l ih =>
    unfold dispatchDelayed
    split
    · next hle =>
      obtain ⟨taken, rest, rfl, hdispatch, -, hrest⟩ := ih
        ({ s with
            mMaxDispatchedMessageOrdinal := max s.mMaxDispatchedMessageOrdinal a.ordinal
          }.scheduleMessageCallback a)
        (max last a.ordinal)
      refine ⟨a :: taken, rest, rfl, ?_, by simpa using hle, ?_⟩
      · rw [hdispatch]
        simp [scheduleMessageCallback, max_assoc]
      · simpa [max_assoc] using hrest
    · next hlt => exact ⟨[], a :: l, rfl, by simp, by simp, by simpa using hlt⟩

/-- What a message that arrives changes. -/
theorem incomingMessageOnChannel_spec (s : MultiChannel M) (e : DelayedMessage M) :
    (s.shouldDelayMessage e.channelIndex e.ordinal = true ∧ s.incomingMessageOnChannel e =
        { s with mDelayedMessages := s.mDelayedMessages.orderedInsert DelayedMessage.ComesBefore e }) ∨
      (s.shouldDelayMessage e.channelIndex e.ordinal = false ∧ ∃ taken rest, s.mDelayedMessages = taken ++ rest ∧
        s.incomingMessageOnChannel e = { s with
          mMaxDispatchedMessageOrdinal := max s.mMaxDispatchedMessageOrdinal (greatestOrdinal (e :: taken))
          mDelayedMessages := rest
          scheduled := s.scheduled ++ e :: taken } ∧
        (∀ d ∈ taken.head?, d.ordinal ≤ succOrdinal e.ordinal) ∧
        ∀ d ∈ rest.head?, succOrdinal (greatestOrdinal (e :: taken)) < d.ordinal) := by
  unfold incomingMessageOnChannel
  split
  · next h => exact .inl ⟨h, rfl⟩
  · next h =>
    obtain ⟨taken, rest, hl, hdispatch, htaken, hrest⟩ := dispatchDelayed_spec
      ({ s with
          mMaxDispatchedMessageOrdinal := max s.mMaxDispatchedMessageOrdinal e.ordinal
        }.scheduleMessageCallback e)
      e.ordinal s.mDelayedMessages
    refine .inr ⟨by simpa using h, taken, rest, hl, hdispatch.trans ?_, htaken, hrest⟩
    simp [scheduleMessageCallback, max_assoc]

theorem shouldDelayMessage_iff : s.shouldDelayMessage channel ordinal = true ↔
    succOrdinal s.mMaxDispatchedMessageOrdinal < ordinal ∧ channel ≠ 0 := by
  unfold shouldDelayMessage
  split
  · simp
    omega
  · split
    · simp_all
    · simp
      omega

theorem not_delayed (h : s.shouldDelayMessage channel ordinal = false) :
    ¬ (succOrdinal s.mMaxDispatchedMessageOrdinal < ordinal ∧ channel ≠ 0) := by
  rw [← shouldDelayMessage_iff, h]
  exact Bool.false_ne_true

/-- Inserting a message with an ordinal of its own keeps the queue in the order of the ordinals. -/
theorem pairwise_orderedInsert (hl : l.Pairwise fun a b => a.ordinal < b.ordinal)
    (hne : ∀ a ∈ l, a.ordinal ≠ e.ordinal) :
    (l.orderedInsert DelayedMessage.ComesBefore e).Pairwise fun a b => a.ordinal < b.ordinal := by
  induction l with
  | nil => simp
  | cons a l ih =>
    obtain ⟨ha, hl⟩ := pairwise_cons.1 hl
    have hae := hne a (.head _)
    rw [orderedInsert_cons]
    split
    · next hbefore =>
      have hlt : e.ordinal < a.ordinal := by
        rcases hbefore with h | ⟨h, -⟩ <;> omega
      refine pairwise_cons.2 ⟨fun b hb => ?_, pairwise_cons.2 ⟨ha, hl⟩⟩
      rcases mem_cons.1 hb with rfl | hb
      · exact hlt
      · exact hlt.trans (ha b hb)
    · next hbefore =>
      have hlt : a.ordinal < e.ordinal := by
        have hnot : ¬ e.ordinal < a.ordinal := fun h => hbefore (.inl h)
        omega
      refine pairwise_cons.2 ⟨fun b hb => ?_, ih hl fun b hb => hne b (.tail _ hb)⟩
      rcases mem_cons.1 ((perm_orderedInsert _ e l).mem_iff.1 hb) with rfl | hb
      · exact hlt
      · exact ha b hb

/-! ## What holds in every state -/

namespace System

variable {sys sys' : System M} {channels : ℕ} {selector : M → ℕ} {op : Op M}

/-- Every message is either scheduled, delayed or in flight; messages of one channel are scheduled in the order of
their ordinals; and none is delayed that has an ordinal up to one more than the greatest that was scheduled, so none
when all have arrived. -/
structure Delivers (sys : System M) : Prop where
  numbered : sys.written.map DelayedMessage.ordinal = range' 1 sys.written.length
  once : (sys.receiver.scheduled ++ sys.receiver.mDelayedMessages ++ sys.inFlight).Perm sys.written
  ordered : sys.receiver.scheduled.Pairwise fun a b => a.channelIndex = b.channelIndex → a.ordinal < b.ordinal
  noneStuck : ∀ d ∈ sys.receiver.mDelayedMessages, greatestOrdinal sys.receiver.scheduled + 1 < d.ordinal
  complete : sys.inFlight = [] → sys.receiver.mDelayedMessages = []

/-- What holds whatever overtakes what. -/
structure Tidy (sys : System M) : Prop where
  outbound : sys.sender.mLastOutboundMessageOrdinal = sys.written.length
  bounded : sys.written.length ≤ lastOrdinal
  numbered : sys.written.map DelayedMessage.ordinal = range' 1 sys.written.length
  once : (sys.receiver.scheduled ++ sys.receiver.mDelayedMessages ++ sys.inFlight).Perm sys.written
  greatest : sys.receiver.mMaxDispatchedMessageOrdinal = greatestOrdinal sys.receiver.scheduled
  queue : sys.receiver.mDelayedMessages.Pairwise fun a b => a.ordinal < b.ordinal
  notFirst : ∀ d ∈ sys.receiver.mDelayedMessages, d.channelIndex ≠ 0
  flight : sys.inFlight.Pairwise fun a b => a.ordinal < b.ordinal
  arrived : ∀ a ∈ sys.receiver.scheduled ++ sys.receiver.mDelayedMessages, ∀ f ∈ sys.inFlight,
    a.channelIndex = f.channelIndex → a.ordinal < f.ordinal

/-- The message with the last ordinal does not overtake others: when a message arrives on another channel than the
first, it was not scheduled yet, and when it arrives itself on the first channel, none is delayed. -/
def NotOvertaking (sys : System M) : Op M → Prop
  | .write _ => True
  | .arrive channel => ∀ message ∈ sys.next channel,
    (channel ≠ 0 → sys.receiver.mMaxDispatchedMessageOrdinal ≠ lastOrdinal) ∧
      (channel = 0 → message.ordinal = lastOrdinal → sys.receiver.mDelayedMessages = [])

/-- The messages that there are have ordinals of their own, from 1 on. -/
theorem Tidy.nodup (h : sys.Tidy) :
    ((sys.receiver.scheduled ++ sys.receiver.mDelayedMessages ++ sys.inFlight).map DelayedMessage.ordinal).Nodup := by
  rw [(h.once.map _).nodup_iff, h.numbered]
  exact nodup_range'

theorem Tidy.ordinal_le (h : sys.Tidy)
    (ha : a ∈ sys.receiver.scheduled ++ sys.receiver.mDelayedMessages ++ sys.inFlight) :
    1 ≤ a.ordinal ∧ a.ordinal ≤ sys.written.length := by
  have hmem := mem_map_of_mem (f := DelayedMessage.ordinal) (h.once.mem_iff.1 ha)
  rw [h.numbered, mem_range'_1] at hmem
  omega

theorem Tidy.greatest_le (h : sys.Tidy) : greatestOrdinal sys.receiver.scheduled ≤ lastOrdinal :=
  greatestOrdinal_le fun _ ha =>
    (h.ordinal_le (mem_append_left _ (mem_append_left _ ha))).2.trans h.bounded

/-- The next message on a channel is the first on it of those in flight. -/
theorem next_spec (hnext : sys.next channel = some e) :
    e.channelIndex = channel ∧ ∃ before after, sys.inFlight = before ++ e :: after ∧
      sys.inFlight.eraseP (fun message => message.channelIndex = channel) = before ++ after ∧
      ∀ a ∈ before, a.channelIndex ≠ channel := by
  obtain ⟨he, before, after, hflight, hbefore⟩ := find?_eq_some_iff_append.1 hnext
  have hnot : ∀ a ∈ before, a.channelIndex ≠ channel := fun a ha => by simpa using hbefore a ha
  refine ⟨by simpa using he, before, after, hflight, ?_, hnot⟩
  rw [hflight, eraseP_append_right _ (by simpa using hnot)]
  exact congrArg (before ++ ·) (eraseP_cons_of_pos he)

/-- A message that arrives comes before those of its channel that are still in flight, and after those that arrived. -/
theorem Tidy.arriving (h : sys.Tidy) (hnext : sys.next channel = some e) :
    ∃ rest, sys.inFlight.eraseP (fun message => message.channelIndex = channel) = rest ∧
      sys.inFlight.Perm (e :: rest) ∧ rest.Pairwise (fun a b => a.ordinal < b.ordinal) ∧
      (∀ f ∈ rest, e.channelIndex = f.channelIndex → e.ordinal < f.ordinal) ∧
      (∀ a ∈ sys.receiver.scheduled ++ sys.receiver.mDelayedMessages, a.channelIndex = e.channelIndex →
        a.ordinal < e.ordinal) ∧
      (∀ a ∈ sys.receiver.scheduled ++ sys.receiver.mDelayedMessages, a.ordinal ≠ e.ordinal) := by
  obtain ⟨hchannel, before, after, hflight, herase, hbefore⟩ := next_spec hnext
  have he : e ∈ sys.inFlight := by simp [hflight]
  have hpairwise := h.flight
  rw [hflight] at hpairwise
  obtain ⟨hp₁, hp₂, hp₃⟩ := pairwise_append.1 hpairwise
  obtain ⟨hafter, hp₂⟩ := pairwise_cons.1 hp₂
  refine ⟨before ++ after, herase, hflight ▸ perm_middle, ?_, fun f hf hsame => ?_, fun a ha hsame => ?_,
    fun a ha heq => ?_⟩
  · exact pairwise_append.2 ⟨hp₁, hp₂, fun a ha b hb => hp₃ a ha b (.tail _ hb)⟩
  · rcases mem_append.1 hf with hf | hf
    · exact absurd (hsame.symm.trans hchannel) (hbefore f hf)
    · exact hafter f hf
  · exact h.arrived a ha e he hsame
  · have hnodup := h.nodup
    rw [map_append, nodup_append] at hnodup
    exact hnodup.2.2 _ (mem_map_of_mem ha) _ (mem_map_of_mem he) heq

theorem Tidy.write (h : sys.Tidy) {msg : M} (hstep : sys.step channels selector (.write msg) = some sys') :
    sys'.Tidy ∧ sys'.receiver = sys.receiver ∧ sys'.inFlight ≠ [] := by
  simp only [step, MultiChannel.write] at hstep
  split at hstep
  · next hlt =>
    split at hstep
    · simp only [bind_eq_bind, bind_some, Option.pure_def, some.injEq] at hstep
      subst hstep
      have hordinal : succOrdinal sys.sender.mLastOutboundMessageOrdinal = sys.written.length + 1 := by
        rw [h.outbound, succOrdinal_of_lt hlt]
      refine ⟨⟨?_, ?_, ?_, ?_, h.greatest, h.queue, h.notFirst, ?_, ?_⟩, rfl, by simp⟩
      · simpa using hordinal
      · simpa using Nat.succ_le_of_lt hlt
      · rw [map_append, h.numbered, length_append, length_singleton, range'_1_concat]
        simp [hordinal, Nat.add_comm]
      · rw [← append_assoc]
        exact h.once.append_right _
      · refine pairwise_append.2 ⟨h.flight, pairwise_singleton _ _, fun a ha b hb => ?_⟩
        rw [mem_singleton.1 hb, hordinal]
        exact lt_succ_of_le (h.ordinal_le (mem_append_right _ ha)).2
      · intro a ha f hf hsame
        rcases mem_append.1 hf with hf | hf
        · exact h.arrived a ha f hf hsame
        · rw [mem_singleton.1 hf, hordinal]
          exact lt_succ_of_le (h.ordinal_le (mem_append_left _ ha)).2
    · cases hstep
  · cases hstep

/-- What the arrival of a message changes. -/
theorem arrive_spec (hstep : sys.step channels selector (.arrive channel) = some sys') :
    ∃ e, sys.next channel = some e ∧ sys' = { sys with
      receiver := sys.receiver.incomingMessageOnChannel e
      inFlight := sys.inFlight.eraseP fun message => message.channelIndex = channel } := by
  obtain ⟨e, hnext, hstep⟩ := bind_eq_some_iff.1 hstep
  exact ⟨e, hnext, (some.inj hstep).symm⟩

section

variable (h : sys.Tidy)
include h

theorem Tidy.arrive (hstep : sys.step channels selector (.arrive channel) = some sys') : sys'.Tidy := by
  obtain ⟨e, hnext, rfl⟩ := arrive_spec hstep
  obtain ⟨rest, hrest, hperm, hflight, hafter, hbefore, hne⟩ := h.arriving hnext
  rw [hrest]
  have hwritten : (sys.receiver.scheduled ++ sys.receiver.mDelayedMessages ++ e :: rest).Perm sys.written :=
    (hperm.symm.append_left _).trans h.once
  have harrived : ∀ a ∈ e :: (sys.receiver.scheduled ++ sys.receiver.mDelayedMessages), ∀ f ∈ rest,
      a.channelIndex = f.channelIndex → a.ordinal < f.ordinal := by
    intro a ha f hf hsame
    rcases mem_cons.1 ha with rfl | ha
    · exact hafter f hf hsame
    · exact h.arrived a ha f (hperm.mem_iff.2 (.tail _ hf)) hsame
  rcases incomingMessageOnChannel_spec sys.receiver e with ⟨hdelay, hs⟩ | ⟨-, taken, queue, hqueue, hs, -, -⟩
  · -- the message is delayed
    have hinsert := perm_orderedInsert DelayedMessage.ComesBefore e sys.receiver.mDelayedMessages
    rw [hs]
    refine ⟨h.outbound, h.bounded, h.numbered, ?_, h.greatest, ?_, fun d hd => ?_, hflight, fun a ha => ?_⟩
    · refine List.Perm.trans ?_ hwritten
      simp only [append_assoc]
      exact ((hinsert.append_right rest).trans perm_middle.symm).append_left _
    · exact pairwise_orderedInsert h.queue fun a ha => hne a (mem_append_right _ ha)
    · rcases mem_cons.1 (hinsert.mem_iff.1 hd) with rfl | hd
      · exact (shouldDelayMessage_iff.1 hdelay).2
      · exact h.notFirst d hd
    · refine harrived a ?_
      rcases mem_append.1 ha with ha | ha
      · exact .tail _ (mem_append_left _ ha)
      · rcases mem_cons.1 (hinsert.mem_iff.1 ha) with rfl | ha
        · exact .head _
        · exact .tail _ (mem_append_right _ ha)
  · -- the message is scheduled, and the first in the queue after it
    have hqueuePairwise := h.queue
    have hnotFirst := h.notFirst
    rw [hqueue] at hwritten harrived hqueuePairwise hnotFirst
    rw [hs]
    refine ⟨h.outbound, h.bounded, h.numbered, ?_, ?_, (pairwise_append.1 hqueuePairwise).2.1,
      fun d hd => hnotFirst d (mem_append_right _ hd), hflight, fun a ha => harrived a ?_⟩
    · refine List.Perm.trans ?_ hwritten
      simp only [append_assoc, cons_append]
      refine List.Perm.append_left _ ?_
      rw [← append_assoc, ← append_assoc]
      exact perm_middle.symm
    · rw [greatestOrdinal_append, h.greatest]
    · simp only [append_assoc, cons_append, mem_append, mem_cons] at ha ⊢
      tauto

theorem Tidy.step (hstep : sys.step channels selector op = some sys') : sys'.Tidy := by
  cases op with
  | write msg => exact (h.write hstep).1
  | arrive channel => exact h.arrive hstep

/-! ## What is delivered -/

section
variable (hstuck : ∀ d ∈ sys.receiver.mDelayedMessages, greatestOrdinal sys.receiver.scheduled + 1 < d.ordinal)
include hstuck

/-- A message that is delayed last comes after one that is neither scheduled nor delayed. -/
theorem Tidy.complete (hempty : sys.inFlight = []) : sys.receiver.mDelayedMessages = [] := by
  cases hqueue : sys.receiver.mDelayedMessages with
  | nil => rfl
  | cons d queue =>
    have hd : d ∈ sys.receiver.mDelayedMessages := by simp [hqueue]
    have hlt := hstuck d hd
    have hle := h.ordinal_le (mem_append_left _ (mem_append_right _ hd))
    -- the message before it has arrived
    have hbefore : d.ordinal - 1 ∈ sys.written.map DelayedMessage.ordinal := by
      rw [h.numbered, mem_range'_1]
      omega
    obtain ⟨a, ha, hordinal⟩ := mem_map.1 hbefore
    have harrived := h.once.mem_iff.2 ha
    rw [hempty, append_nil] at harrived
    rcases mem_append.1 harrived with ha | ha
    · have := le_greatestOrdinal ha
      omega
    · have hpairwise := h.queue
      rw [hqueue] at ha hpairwise
      rcases mem_cons.1 ha with rfl | ha
      · omega
      · have := (pairwise_cons.1 hpairwise).1 a ha
        omega

theorem Tidy.delivers (hordered : sys.receiver.scheduled.Pairwise fun a b =>
    a.channelIndex = b.channelIndex → a.ordinal < b.ordinal) : sys.Delivers :=
  ⟨h.numbered, h.once, hordered, hstuck, h.complete hstuck⟩

end

/-- A message that is delayed is not stuck, exactly if the last ordinal was not scheduled. -/
theorem Tidy.delivers_delayed (hd : sys.Delivers) (hnext : sys.next channel = some e)
    (hstep : sys.step channels selector (.arrive channel) = some sys')
    (hdelay : sys.receiver.shouldDelayMessage e.channelIndex e.ordinal = true) :
    sys'.Delivers ↔ sys.receiver.mMaxDispatchedMessageOrdinal ≠ lastOrdinal := by
  have h' := h.arrive hstep
  obtain ⟨e', hnext', rfl⟩ := arrive_spec hstep
  cases hnext.symm.trans hnext'
  obtain ⟨before, after, hflight, -⟩ := (next_spec hnext).2
  have he := h.ordinal_le (mem_append_right _ (show e ∈ sys.inFlight by simp [hflight]))
  have hbounded := h.bounded
  have hinsert := perm_orderedInsert DelayedMessage.ComesBefore e sys.receiver.mDelayedMessages
  have hs : sys.receiver.incomingMessageOnChannel e = { sys.receiver with
      mDelayedMessages := sys.receiver.mDelayedMessages.orderedInsert DelayedMessage.ComesBefore e } := by
    unfold incomingMessageOnChannel
    rw [if_pos hdelay]
  rw [hs] at h' ⊢
  have hlt := (shouldDelayMessage_iff.1 hdelay).1
  constructor
  · intro hdelivers hlast
    have hstuck := hdelivers.noneStuck e (hinsert.mem_iff.2 (.head _))
    simp only [← h.greatest, hlast] at hstuck
    omega
  · intro hne
    have hgreatest := h.greatest_le
    rw [← h.greatest] at hgreatest
    rw [succOrdinal_of_lt (lt_of_le_of_ne hgreatest hne), h.greatest] at hlt
    refine h'.delivers (fun d hmem => ?_) hd.ordered
    rcases mem_cons.1 (hinsert.mem_iff.1 hmem) with rfl | hmem
    · exact hlt
    · exact hd.noneStuck d hmem

/-- After a message that is scheduled none is stuck, exactly if it is not the last ordinal on the first channel with
others delayed. -/
theorem Tidy.delivers_scheduled (hd : sys.Delivers) (hnext : sys.next channel = some e)
    (hstep : sys.step channels selector (.arrive channel) = some sys')
    (hdelay : sys.receiver.shouldDelayMessage e.channelIndex e.ordinal = false) :
    sys'.Delivers ↔ (e.channelIndex = 0 → e.ordinal = lastOrdinal → sys.receiver.mDelayedMessages = []) := by
  have h' := h.arrive hstep
  obtain ⟨e', hnext', rfl⟩ := arrive_spec hstep
  cases hnext.symm.trans hnext'
  obtain ⟨rest, hrest, hperm, -, -, hbefore, hne⟩ := h.arriving hnext
  have hbounded := h.bounded
  rcases incomingMessageOnChannel_spec sys.receiver e with ⟨hdelay', -⟩ | ⟨-, taken, queue, hqueue, hs, htaken, hhead⟩
  · exact absurd hdelay (by simp [hdelay'])
  have hmod : succOrdinal sys.receiver.mMaxDispatchedMessageOrdinal ≤ greatestOrdinal sys.receiver.scheduled + 1 := by
    rw [← h.greatest]
    exact mod_le _ _
  have hsoon : e.channelIndex ≠ 0 → e.ordinal ≤ greatestOrdinal sys.receiver.scheduled + 1 := fun hchannel => by
    have hnot := not_delayed hdelay
    by_contra hlt
    exact hnot ⟨by omega, hchannel⟩
  have hordinal : ∀ d ∈ sys.receiver.mDelayedMessages, 1 ≤ d.ordinal ∧ d.ordinal ≤ lastOrdinal := fun d hmem =>
    have hd := h.ordinal_le (mem_append_left _ (mem_append_right _ hmem))
    ⟨hd.1, hd.2.trans hbounded⟩
  have hother : ∀ d ∈ sys.receiver.mDelayedMessages, d.channelIndex ≠ e.channelIndex := by
    intro d hmem hsame
    have hlt := hbefore d (mem_append_right _ hmem) hsame
    have hstuck := hd.noneStuck d hmem
    have hle := hsoon (hsame ▸ h.notFirst d hmem)
    omega
  have hsorted := h.queue
  rw [hs] at h' ⊢
  rw [hqueue] at hsorted
  have htakenMem : ∀ d ∈ taken, d ∈ sys.receiver.mDelayedMessages := fun d hmem => by
    rw [hqueue]
    exact mem_append_left _ hmem
  have hqueueMem : ∀ d ∈ queue, d ∈ sys.receiver.mDelayedMessages := fun d hmem => by
    rw [hqueue]
    exact mem_append_right _ hmem
  obtain ⟨hsortedTaken, hsortedQueue, hcross⟩ := pairwise_append.1 hsorted
  constructor
  · intro hdelivers hchannel hlast
    rw [hqueue, append_eq_nil_iff]
    constructor
    · cases taken with
      | nil => rfl
      | cons d taken =>
        have hle := htaken d rfl
        rw [hlast, succOrdinal_lastOrdinal] at hle
        have := (hordinal d (htakenMem d (.head _))).1
        omega
    · refine eq_nil_iff_forall_not_mem.2 fun d hmem => ?_
      have hstuck := hdelivers.noneStuck d hmem
      simp only [greatestOrdinal_append, greatestOrdinal_cons] at hstuck
      have := (hordinal d (hqueueMem d hmem)).2
      omega
  · intro hlast
    refine h'.delivers (fun d hmem => ?_) ?_
    · have hstuck := hd.noneStuck d (hqueueMem d hmem)
      have hle := (hordinal d (hqueueMem d hmem)).2
      simp only [greatestOrdinal_append]
      -- the last ordinal is not among what is scheduled now
      have hgreatest : greatestOrdinal (e :: taken) < lastOrdinal := by
        rw [greatestOrdinal_cons, Nat.max_lt]
        constructor
        · by_contra hge
          have hordinalE : e.ordinal = lastOrdinal := by
            have := (h.ordinal_le (mem_append_right _ (hperm.mem_iff.2 (.head _)))).2
            omega
          by_cases hchannel : e.channelIndex = 0
          · have hempty := hlast hchannel hordinalE
            exact absurd (hqueueMem d hmem) (by simp [hempty])
          · omega
        · refine lt_of_le_of_lt (greatestOrdinal_le (n := d.ordinal - 1) fun a ha => ?_) (by omega)
          have := hcross a ha d hmem
          omega
      rw [succOrdinal_of_lt hgreatest] at hhead
      have hfirst : greatestOrdinal (e :: taken) + 1 < d.ordinal := by
        cases queue with
        | nil => cases hmem
        | cons first queue =>
          have hfirst := hhead first rfl
          rcases mem_cons.1 hmem with rfl | hmem
          · exact hfirst
          · exact hfirst.trans ((pairwise_cons.1 hsortedQueue).1 d hmem)
      omega
    · refine pairwise_append.2 ⟨hd.ordered, pairwise_cons.2 ⟨fun d hmem hsame => ?_, ?_⟩, fun a ha d hmem hsame => ?_⟩
      · exact absurd hsame.symm (hother d (htakenMem d hmem))
      · exact hsortedTaken.imp fun {a b} hlt (_ : a.channelIndex = b.channelIndex) => hlt
      · rcases mem_cons.1 hmem with rfl | hmem
        · exact hbefore a (mem_append_left _ ha) hsame
        · have := le_greatestOrdinal ha
          have := hd.noneStuck d (htakenMem d hmem)
          omega

theorem Tidy.delivers_iff (hd : sys.Delivers) (hstep : sys.step channels selector op = some sys') :
    sys'.Delivers ↔ sys.NotOvertaking op := by
  cases op with
  | write msg =>
    obtain ⟨h', hreceiver, hflight⟩ := h.write hstep
    refine iff_of_true ⟨h'.numbered, h'.once, ?_, ?_, fun hempty => absurd hempty hflight⟩ trivial
    · rw [hreceiver]
      exact hd.ordered
    · rw [hreceiver]
      exact hd.noneStuck
  | arrive channel =>
    obtain ⟨e, hnext, -⟩ := arrive_spec hstep
    have hchannel := (next_spec hnext).1
    have hone : sys.NotOvertaking (.arrive channel) ↔
        (e.channelIndex ≠ 0 → sys.receiver.mMaxDispatchedMessageOrdinal ≠ lastOrdinal) ∧
          (e.channelIndex = 0 → e.ordinal = lastOrdinal → sys.receiver.mDelayedMessages = []) := by
      simp [NotOvertaking, hnext, hchannel]
    rw [hone]
    cases hdelay : sys.receiver.shouldDelayMessage e.channelIndex e.ordinal with
    | true =>
      have hne := (shouldDelayMessage_iff.1 hdelay).2
      rw [h.delivers_delayed hd hnext hstep hdelay]
      exact ⟨fun hmax => ⟨fun _ => hmax, fun h => absurd h hne⟩, fun h => h.1 hne⟩
    | false =>
      rw [h.delivers_scheduled hd hnext hstep hdelay]
      refine ⟨fun hlast => ⟨fun hne hmax => ?_, hlast⟩, fun h => h.2⟩
      have hnot := not_delayed hdelay
      obtain ⟨before, after, hflight, -⟩ := (next_spec hnext).2
      have he := h.ordinal_le (mem_append_right _ (show e ∈ sys.inFlight by simp [hflight]))
      rw [hmax, succOrdinal_lastOrdinal] at hnot
      exact hnot ⟨by omega, hne⟩

end

theorem tidy_empty : Tidy ({} : System M) := ⟨rfl, zero_le _, rfl, .refl _, rfl, .nil, by simp, .nil, by simp⟩

/-- In every run over any channels with any selector, everything is delivered exactly if the last ordinal there is
does not overtake others. -/
theorem always_delivers_iff (channels : ℕ) (mOutgoingChannelSelector : M → ℕ) (ops : List (Op M)) :
    Always (step channels mOutgoingChannelSelector) Delivers {} ops ↔
      EveryStep (step channels mOutgoingChannelSelector) NotOvertaking {} ops := by
  refine always_iff_everyStep tidy_empty (tidy_empty.delivers (by simp) .nil) (fun s op s' h => h.step)
    (fun s op s' h hd => h.delivers_iff hd) fun s op h hd hnone => ?_
  cases op with
  | write msg => trivial
  | arrive channel =>
    intro e hnext
    simp only [step, mem_def.1 hnext] at hnone
    cases hnone

/-- Whatever overtakes what, every message that was written is once dispatched, delayed or on its way, the delayed ones
wait in the order of their ordinals, and on each channel none arrives before one that was written earlier. -/
theorem always_tidy (channels : ℕ) (mOutgoingChannelSelector : M → ℕ) (ops : List (Op M)) :
    Always (step channels mOutgoingChannelSelector) Tidy {} ops := always tidy_empty fun _ _ _ h => h.step

/-! ## The last message overtakes the others -/

/-- Two channels, and `n` messages that were written to the second. -/
def writtenToSecond (n : ℕ) : System ℕ where
  sender := { mLastOutboundMessageOrdinal := n }
  inFlight := (range' 1 n).map fun ordinal => ⟨ordinal, 1, 1⟩
  written := (range' 1 n).map fun ordinal => ⟨ordinal, 1, 1⟩

theorem run_writes (hn : n ≤ lastOrdinal) : run (step 2 id) {} (replicate n (.write 1)) = some (writtenToSecond n) := by
  induction n with
  | zero => rfl
  | succ n ih =>
    rw [replicate_succ', run_concat, ih (by omega), bind_some]
    unfold writtenToSecond
    simp only [step, MultiChannel.write, succOrdinal_of_lt (Nat.lt_of_succ_le hn), length_map, length_range',
      if_pos (Nat.lt_of_succ_le hn), range'_1_concat, map_append, map_cons, map_nil, id,
      Nat.add_comm 1 n]
    rfl

/-- The state after one more message was written to the first channel and arrived. -/
theorem run_overtakes (hn : n + 1 = lastOrdinal) :
    ∃ sys, run (step 2 id) {} (replicate n (.write 1) ++ [.write 0] ++ [.arrive 0]) = some sys ∧
      sys.receiver.mMaxDispatchedMessageOrdinal = lastOrdinal ∧
        sys.inFlight = (range' 1 n).map fun ordinal => ⟨ordinal, 1, 1⟩ := by
  have hwrite : step 2 id (writtenToSecond n) (.write 0) = some { writtenToSecond n with
      sender := { mLastOutboundMessageOrdinal := n + 1 }
      inFlight := (writtenToSecond n).inFlight ++ [⟨n + 1, 0, 0⟩]
      written := (writtenToSecond n).written ++ [⟨n + 1, 0, 0⟩] } := by
    unfold writtenToSecond
    simp only [step, MultiChannel.write, succOrdinal_of_lt (show n < lastOrdinal by omega), length_map,
      length_range', if_pos (show n < lastOrdinal by omega), id]
    rfl
  have hnot : ∀ a ∈ (writtenToSecond n).inFlight, ¬ a.channelIndex = 0 := by
    intro a ha
    obtain ⟨ordinal, -, rfl⟩ := mem_map.1 ha
    exact Nat.one_ne_zero
  have hfind : find? (fun msg : DelayedMessage ℕ => msg.channelIndex = 0)
      ((writtenToSecond n).inFlight ++ [⟨n + 1, 0, 0⟩]) = some ⟨n + 1, 0, 0⟩ := by
    rw [find?_append, find?_eq_none.2 (by simpa using hnot)]
    rfl
  rw [run_concat, run_concat, run_writes (by omega), bind_some, hwrite, bind_some]
  simp only [step, next]
  rw [hfind]
  refine ⟨_, rfl, ?_, ?_⟩
  · show (incomingMessageOnChannel {} _).mMaxDispatchedMessageOrdinal = _
    simp [incomingMessageOnChannel, shouldDelayMessage, dispatchDelayedMessages, dispatchDelayed,
      scheduleMessageCallback, hn]
  · exact (eraseP_append_right _ (by simpa using hnot)).trans (append_nil _)

/-- As many messages as there are ordinals, the last of them on the first channel; it arrives first, and then the
first message on the second channel stays delayed. -/
theorem not_always_delivers : ¬ Always (step 2 id) Delivers ({} : System ℕ)
    (replicate (lastOrdinal - 1) (.write 1) ++ [.write 0] ++ [.arrive 0] ++ [.arrive 1]) := by
  intro h
  obtain ⟨n, hn⟩ : ∃ n, n + 1 = lastOrdinal - 1 := ⟨lastOrdinal - 2, rfl⟩
  obtain ⟨sys, hrun, hmax, hflight⟩ := @run_overtakes (lastOrdinal - 1) rfl
  have htidy ops : Always (step 2 id) Tidy {} ops := always tidy_empty fun _ _ _ ht => ht.step
  have hnext : sys.next 1 = some ⟨1, 1, 1⟩ := by
    unfold next
    rw [hflight, ← hn]
    rfl
  have hstep : step 2 id sys (.arrive 1) = some { sys with
      receiver := sys.receiver.incomingMessageOnChannel ⟨1, 1, 1⟩
      inFlight := sys.inFlight.eraseP fun message => message.channelIndex = 1 } := by
    simp only [step, hnext]
    rfl
  have hprefix := prefix_append (replicate (lastOrdinal - 1) (Op.write 1) ++ [.write 0] ++ [.arrive 0]) [.arrive 1]
  have hdelivers := h.last (by rw [run_concat, hrun, bind_some, hstep])
  have hovertaking := ((htidy _ _ _ hprefix hrun).delivers_iff (h _ _ hprefix hrun) hstep).1 hdelivers
  exact (hovertaking _ hnext).1 Nat.one_ne_zero hmax

end System

end Networking.MultiChannel
