import Ufora.Lib.Run
import Ufora.Regimes.LeaderQuorum

/-!
# Machines agree on a regime

What a machine announces is determined by its event ids: the hash of them, the lowest machine and
their number (`IsRegimeOf`). `Consistent` is what every machine keeps, and `Sound` what the history
does. When a machine announces a regime, the hashes that it has of all others are the hash of its own
event ids. Each of them came in a message, so its sender had broadcast these very event ids, provided
that the hash tells maps of event ids apart from each other and from the default hash.
-/

open Ordered Effect Run List Option MapWithIndex Finmap Cumulus.LeaderQuorum Function

namespace Cumulus

variable {H : Type}

/-! ## What holds in every state -/

/-- The regime that a machine announces with these event ids. -/
structure IsRegimeOf (hashOf : EventIds → H) (events : EventIds) (regime : Regime H) : Prop where
  regimeHash : regime.regimeHash = hashOf events
  leaderMachine : (ascending events.keys).head? = some regime.leaderMachine
  totalWorkers : regime.totalWorkers = events.keys.card

/-- What a machine announces, in order. -/
def announcements (machine : MachineId) (history : List (Emission H)) : List (Option (Regime H)) :=
    history.filterMap fun
    | .announced m _ regime => if m = machine then some regime else none
    | .broadcast _ _ _ => none

/-- The regime that a machine announced last, if it was one. -/
def lastAnnounced (machine : MachineId) (history : List (Emission H)) : Option (Regime H) :=
  (announcements machine history).getLast?.join

/-- The machine has broadcast the event ids. -/
def HasBroadcast (history : List (Emission H)) (machine : MachineId) (events : EventIds) : Prop :=
  ∃ message, .broadcast machine events message ∈ history

/-- What holds of one machine. -/
structure Consistent [DecidableEq H] (hashOf : EventIds → H) (unset : H)
    (machine : MachineId) (history : List (Emission H)) (q : LeaderQuorum H) : Prop where
  own : q.mOwnMachineId = machine
  mem : machine ∈ q.mMachines
  keys : q.mMachineEventIds.keys = q.mMachines
  hasHash : ∀ j, (∃ h, q.mMachineSetHashes.tryGetValue j = some h) ↔ j ∈ q.mMachines
  ownHash : q.mMachineSetHashes.tryGetValue machine = some (hashOf q.mMachineEventIds)
  otherHash : ∀ j h, j ≠ machine → q.mMachineSetHashes.tryGetValue j = some h →
    h = unset ∨ ∃ events, HasBroadcast history j events ∧ h = hashOf events

/-- What holds of the history. -/
structure Sound (hashOf : EventIds → H) (history : List (Emission H)) : Prop where
  regime : ∀ past machine events regime, past ++ [.announced machine events (some regime)] <+: history →
    IsRegimeOf hashOf events regime ∧ ∀ j ∈ events.keys, j ≠ machine → HasBroadcast past j events
  alternating : ∀ machine, (announcements machine history).IsChain fun r r' => r = none ∨ r' = none

section
variable {hashOf : EventIds → H} {unset : H} {machine : MachineId}
  {history : List (Emission H)}

variable {events : EventIds}

theorem HasBroadcast.append {j : MachineId} (h : HasBroadcast history j events) (emitted : List (Emission H)) :
    HasBroadcast (history ++ emitted) j events :=
  h.imp fun _ hm => mem_append_left _ hm

theorem announcements_append (emitted : List (Emission H)) : announcements machine (history ++ emitted) =
      announcements machine history ++ announcements machine emitted :=
  filterMap_append

@[simp] theorem announcements_broadcast {m : MachineId} {msg : LeaderQuorumMessage H} :
    announcements machine [.broadcast m events msg] = [] := rfl

variable {regime : Option (Regime H)}

@[simp] theorem announcements_announced {m : MachineId} : announcements machine [.announced m events regime] =
      if m = machine then [regime] else [] := by
  unfold announcements
  split <;> simp_all

theorem lastAnnounced_announced : lastAnnounced machine (history ++ [.announced machine events regime]) = regime := by
  simp [lastAnnounced, announcements_append]

/-- What others emit is no announcement of the machine. -/
theorem lastAnnounced_append {emitted : List (Emission H)} (h : announcements machine emitted = []) :
    lastAnnounced machine (history ++ emitted) = lastAnnounced machine history := by
  rw [lastAnnounced, announcements_append, h, append_nil, lastAnnounced]

/-- A broadcast is no announcement. -/
theorem Sound.broadcast (h : Sound hashOf history) (events : EventIds) (msg : LeaderQuorumMessage H) :
    Sound hashOf (history ++ [.broadcast machine events msg]) := by
  refine ⟨fun past m ids r hp => ?_, fun m => ?_⟩
  · rcases prefix_concat_iff.1 hp with he | hp
    · cases (append_inj' he rfl).2
    · exact h.regime past m ids r hp
  · rw [announcements_append, announcements_broadcast, append_nil]
    exact h.alternating m

/-- An announcement is sound that is none or comes after none, and that the broadcasts of the other
machines justify. -/
theorem Sound.announced (h : Sound hashOf history) (hl : lastAnnounced machine history = none ∨ regime = none)
    (hr : ∀ r, regime = some r → IsRegimeOf hashOf events r ∧
      ∀ j ∈ events.keys, j ≠ machine → HasBroadcast history j events) :
    Sound hashOf (history ++ [.announced machine events regime]) := by
  refine ⟨fun past m ids r hp => ?_, fun m => ?_⟩
  · rcases prefix_concat_iff.1 hp with he | hp
    · obtain ⟨rfl, he⟩ := append_inj' he rfl
      obtain ⟨rfl, rfl, rfl⟩ : m = machine ∧ ids = events ∧ some r = regime := by simpa using he
      exact hr r rfl
    · exact h.regime past m ids r hp
  · rw [announcements_append, announcements_announced]
    split
    · next hm =>
      subst hm
      refine isChain_append.2 ⟨h.alternating machine, by simp, fun x hx y hy => ?_⟩
      have hy : regime = y := by simpa using hy
      have hx : lastAnnounced machine history = x := by
        rw [lastAnnounced, mem_def.1 hx]
        rfl
      rw [← hx, ← hy]
      exact hl
    · rw [append_nil]
      exact h.alternating m

end

/-! ## What the calls keep -/

section
variable [DecidableEq H] {hashOf : EventIds → H} {unset : H} {machine : MachineId}
  {history : List (Emission H)} {q : LeaderQuorum H}

/-- A longer history changes nothing. -/
theorem Consistent.append (h : Consistent hashOf unset machine history q) (emitted : List (Emission H)) :
    Consistent hashOf unset machine (history ++ emitted) q :=
  { h with
    otherHash := fun j hash hj hh => (h.otherHash j hash hj hh).imp_right
      fun ⟨ids, hb, he⟩ => ⟨ids, hb.append emitted, he⟩ }

theorem consistent_new (machine : MachineId) :
    Consistent hashOf unset machine history (new hashOf machine) where
  own := rfl
  mem := Finset.mem_singleton_self machine
  keys := by
    ext j
    rw [StdMap.mem_keys_iff]
    simp [new]
  hasHash j := by simp [new]
  ownHash := by simp [new]
  otherHash j h hj hh := by simp [new, hj] at hh

/-- The parts of a machine that `Consistent` speaks of, but for its own hash. -/
structure Outdated (hashOf : EventIds → H) (unset : H) (machine : MachineId)
    (history : List (Emission H)) (q : LeaderQuorum H) : Prop where
  own : q.mOwnMachineId = machine
  mem : machine ∈ q.mMachines
  keys : q.mMachineEventIds.keys = q.mMachines
  hasHash : ∀ j, j ≠ machine → ((∃ h, q.mMachineSetHashes.tryGetValue j = some h) ↔ j ∈ q.mMachines)
  otherHash : ∀ j h, j ≠ machine → q.mMachineSetHashes.tryGetValue j = some h →
    h = unset ∨ ∃ events, HasBroadcast history j events ∧ h = hashOf events

theorem Consistent.outdated (h : Consistent hashOf unset machine history q) :
    Outdated hashOf unset machine history q :=
  ⟨h.own, h.mem, h.keys, fun j _ => h.hasHash j, h.otherHash⟩

section

variable (h : Outdated hashOf unset machine history q)
include h

/-- Setting the own hash makes a machine consistent. -/
theorem Outdated.setOwnHash : Consistent hashOf unset machine history (q.setOwnHash hashOf) := by
  have hget : ∀ j, (q.setOwnHash hashOf).mMachineSetHashes.tryGetValue j =
      if j = machine then some (hashOf q.mMachineEventIds)
      else q.mMachineSetHashes.tryGetValue j := by
    intro j
    rw [LeaderQuorum.setOwnHash, tryGetValue_set, h.own]
    rfl
  refine ⟨h.own, h.mem, h.keys, fun j => ?_, ?_, fun j hash hj hh => ?_⟩
  · rw [hget]
    split
    · next hj => simpa [hj, LeaderQuorum.setOwnHash] using h.mem
    · next hj => exact h.hasHash j hj
  · rw [hget, if_pos rfl]
    rfl
  · rw [hget, if_neg hj] at hh
    exact h.otherHash j hash hj hh

/-- A new event id of a machine that is there. -/
theorem Outdated.insertEventId {j : MachineId} (hj : j ∈ q.mMachines) (i : ℤ) :
    Outdated hashOf unset machine history
      { q with mMachineEventIds := Finmap.insert j i q.mMachineEventIds } := by
  refine ⟨h.own, h.mem, ?_, h.hasHash, h.otherHash⟩
  ext k
  rw [Finmap.mem_keys, Finmap.mem_insert, ← Finmap.mem_keys, h.keys]
  exact ⟨fun hk => hk.elim (fun he => he ▸ hj) id, .inr⟩

/-- A new event id of the machine itself. -/
theorem Outdated.bumpEventIndex : Outdated hashOf unset machine history q.bumpEventIndex := by
  have hi := h.insertEventId (h.own ▸ h.mem) (q.mEventIndex + 1)
  exact ⟨hi.own, hi.mem, hi.keys, hi.hasHash, hi.otherHash⟩

end

/-- A message that its sender has broadcast. -/
def Justified (hashOf : EventIds → H) (history : List (Emission H)) (source : MachineId) :
    LeaderQuorumMessage H → Prop
  | .MachineSetChanged machine _ hash =>
    machine = source ∧ ∃ events, HasBroadcast history source events ∧ hash = hashOf events

omit [DecidableEq H] in
theorem Justified.append {message : LeaderQuorumMessage H}
    (h : Justified hashOf history machine message) (emitted : List (Emission H)) :
    Justified hashOf (history ++ emitted) machine message := by
  cases message with
  | MachineSetChanged m index hash =>
    exact ⟨h.1, h.2.imp fun _ hb => ⟨hb.1.append emitted, hb.2⟩⟩

/-- A message with the hash of another machine is put in its place. -/
theorem Consistent.setHash (h : Consistent hashOf unset machine history q) {j : MachineId}
    {hash : H} (hj : j ≠ machine) (hm : j ∈ q.mMachines)
    (hh : ∃ events, HasBroadcast history j events ∧ hash = hashOf events) :
    Consistent hashOf unset machine history
      { q with mMachineSetHashes := q.mMachineSetHashes.set j hash } := by
  refine ⟨h.own, h.mem, h.keys, fun k => ?_, ?_, fun k hash' hk hh' => ?_⟩
  · rw [tryGetValue_set]
    split
    · next he => simpa [he] using hm
    · exact h.hasHash k
  · rw [tryGetValue_set, if_neg hj.symm]
    exact h.ownHash
  · rw [tryGetValue_set] at hh'
    split at hh'
    · next he =>
      rw [he, ← some.inj hh']
      exact .inr hh
    · exact h.otherHash k hash' hk hh'

/-- What a call keeps of the machine it is on, with what it emits. -/
structure Good (hashOf : EventIds → H) (unset : H) (machine : MachineId)
    (history : List (Emission H)) (o : ObservedQuorum H) : Prop where
  consistent : Consistent hashOf unset machine (history ++ o.emitted) o.quorum
  sound : Sound hashOf (history ++ o.emitted)
  last : lastAnnounced machine (history ++ o.emitted) = o.quorum.mLastBroadcastRegime
  others : ∀ j, j ≠ machine → announcements j o.emitted = []
  messages : ∀ message ∈ Network.messages o.emitted, Justified hashOf (history ++ o.emitted) machine message

variable {o : ObservedQuorum H}

/-- A change of the machine that emits nothing. -/
theorem Good.update (h : Good hashOf unset machine history o)
    (hq : Consistent hashOf unset machine (history ++ o.emitted) q)
    (hl : q.mLastBroadcastRegime = o.quorum.mLastBroadcastRegime) :
    Good hashOf unset machine history { o with quorum := q } :=
  ⟨hq, h.sound, h.last.trans hl.symm, h.others, h.messages⟩

/-- Emitting the announcement of what is then the last regime. -/
theorem Good.announce (h : Good hashOf unset machine history o)
    {regime : Option (Regime H)} (hl : o.quorum.mLastBroadcastRegime = none ∨ regime = none)
    (hr : ∀ r, regime = some r → IsRegimeOf hashOf o.quorum.mMachineEventIds r ∧
      ∀ j ∈ o.quorum.mMachineEventIds.keys, j ≠ machine →
        HasBroadcast (history ++ o.emitted) j o.quorum.mMachineEventIds) :
    Good hashOf unset machine history
      { quorum := { o.quorum with mLastBroadcastRegime := regime }
        emitted := o.emitted ++ [.announced o.quorum.mOwnMachineId o.quorum.mMachineEventIds regime] } := by
  have hassoc := append_assoc history o.emitted [.announced o.quorum.mOwnMachineId o.quorum.mMachineEventIds regime]
  have hc := h.consistent.append [.announced o.quorum.mOwnMachineId o.quorum.mMachineEventIds regime]
  refine ⟨⟨hc.own, hc.mem, hc.keys, hc.hasHash, hc.ownHash, ?_⟩, ?_, ?_, fun j hj => ?_, fun message hm => ?_⟩
  · rw [← hassoc]
    exact hc.otherHash
  · rw [← hassoc, h.consistent.own]
    exact h.sound.announced (h.last ▸ hl) hr
  · rw [← hassoc, h.consistent.own]
    exact lastAnnounced_announced
  · rw [announcements_append, h.others j hj, announcements_announced, h.consistent.own, if_neg hj.symm]
    rfl
  · have hm' : message ∈ Network.messages o.emitted := by
      simpa [Network.messages] using hm
    rw [← hassoc]
    exact (h.messages message hm').append _

/-- The current regime is that of the machine's event ids, and the hashes of all machines are the
hash of them. -/
theorem Consistent.wp_currentRegime_ {history : List (Emission H)}
    (h : Consistent hashOf unset machine history o.quorum) :
    wp currentRegime_ (fun regime o' => o' = o ∧ ∀ r, regime = some r →
        IsRegimeOf hashOf o.quorum.mMachineEventIds r ∧ ∀ j ∈ o.quorum.mMachineEventIds.keys,
            o.quorum.mMachineSetHashes.tryGetValue j = some (hashOf o.quorum.mMachineEventIds))
      (fun _ _ => False) o := by
  have hown : o.quorum.mMachineSetHashes.tryGetValue o.quorum.mOwnMachineId =
      some (hashOf o.quorum.mMachineEventIds) := by
    rw [h.own]
    exact h.ownHash
  unfold currentRegime_ consensusExists_
  simp only [wp_bind, wp_ownHash hown, wp_self, wp_pure, wp_ite, decide_eq_true_eq]
  split
  · exact ⟨trivial, by simp⟩
  · next hcard =>
    rw [not_not] at hcard
    have hsub : o.quorum.mMachineSetHashes.getKeys (hashOf o.quorum.mMachineEventIds) ⊆
        o.quorum.mMachines := fun j hj =>
      (h.hasHash j).1 ⟨_, mem_getKeys.1 hj⟩
    have hall := Finset.eq_of_subset_of_card_le hsub hcard.ge
    split
    · next leader hleader =>
      refine ⟨rfl, fun r hr => ?_⟩
      cases hr
      refine ⟨⟨rfl, by rw [h.keys]; exact hleader, by rw [h.keys]⟩, fun j hj => ?_⟩
      rw [h.keys, ← hall] at hj
      exact mem_getKeys.1 hj
    · next hnone =>
      have hmem := mem_ascending.2 h.mem
      rw [head?_eq_none_iff.1 hnone] at hmem
      cases hmem

/-- A check announces what the machine's event ids and the hashes of the others justify. -/
theorem Good.checkForNewConsensus (hinj : Injective hashOf)
    (hunset : ∀ events, hashOf events ≠ unset) (h : Good hashOf unset machine history o) :
    wp checkForNewConsensus (fun _ => Good hashOf unset machine history) (fun _ _ => False) o := by
  unfold LeaderQuorum.checkForNewConsensus
  rw [wp_bind]
  refine h.consistent.wp_currentRegime_.imp fun regime o' hr => ?_
  obtain ⟨rfl, hr⟩ := hr
  have hjust : ∀ emitted, ∀ r, regime = some r → IsRegimeOf hashOf o'.quorum.mMachineEventIds r ∧
      ∀ j ∈ o'.quorum.mMachineEventIds.keys, j ≠ machine →
        HasBroadcast (history ++ (o'.emitted ++ emitted)) j o'.quorum.mMachineEventIds := by
    intro emitted r he
    refine ⟨(hr r he).1, fun j hj hne => ?_⟩
    rcases h.consistent.otherHash j _ hne ((hr r he).2 j hj) with hu | ⟨events, hb, hh⟩
    · exact absurd hu (hunset _)
    · rw [hinj hh, ← append_assoc]
      exact hb.append emitted
  rw [wp_bind, wp_self, wp_ite, wp_pure]
  split
  · rw [wp_bind, wp_self]
    split
    · have hnull := h.announce (.inr (rfl : (none : Option (Regime H)) = none)) nofun
      exact hnull.announce (.inl rfl) (hjust _)
    · next hne hsome =>
      refine h.announce ?_ (by simpa using hjust [])
      rw [not_and_or, not_isSome_iff_eq_none, not_isSome_iff_eq_none] at hsome
      exact hsome.symm
  · exact h

/-- Scheduling a broadcast changes nothing that is kept. -/
theorem Good.schedule (h : Good hashOf unset machine history o) (timestamp : ℕ) : Good hashOf unset machine history
      { o with quorum := { o.quorum with
          mNextBroadcastTimestamp := timestamp
          mScheduled := timestamp :: o.quorum.mScheduled } } :=
  h.update { h.consistent with } rfl

section
variable (hinj : Injective hashOf) (hunset : ∀ events, hashOf events ≠ unset)
include hinj hunset

variable (h : Good hashOf unset machine history o)
include h

/-- A check after scheduling a broadcast. -/
theorem Good.scheduleAndCheck (timestamp : ℕ) :
    wp (do LeaderQuorum.broadcastCurrentState_ timestamp; LeaderQuorum.checkForNewConsensus)
      (fun _ => Good hashOf unset machine history) (fun _ => Good hashOf unset machine history) o := by
  rw [wp_bind, broadcastCurrentState_, wp_update]
  exact ((h.schedule timestamp).checkForNewConsensus hinj hunset).mono (fun _ _ h => h) fun _ _ he => he.elim

theorem Good.forceRegimeChange (timestamp : ℕ) : wp (forceRegimeChange hashOf timestamp)
      (fun _ => Good hashOf unset machine history) (fun _ => Good hashOf unset machine history) o := by
  unfold LeaderQuorum.forceRegimeChange
  rw [wp_bind, wp_update]
  refine scheduleAndCheck hinj hunset ?_ timestamp
  exact h.update h.consistent.outdated.bumpEventIndex.setOwnHash rfl

theorem Good.addMachine {m : MachineId} (hne : m ≠ machine) (timestamp : ℕ) :
    wp (addMachine hashOf unset m timestamp)
      (fun _ => Good hashOf unset machine history) (fun _ => Good hashOf unset machine history) o := by
  unfold LeaderQuorum.addMachine
  rw [wp_bind, wp_self, wp_bind, wp_lassert]
  split
  · have hc := h.consistent
    have hb := hc.outdated.bumpEventIndex
    refine scheduleAndCheck hinj hunset (?_ : Good hashOf unset machine history _) timestamp
    refine h.update ⟨hc.own, Finset.mem_insert_of_mem hc.mem, ?_, fun j => ?_, ?_, fun j hash hj hh => ?_⟩ rfl
    · change (insert m 0 o.quorum.bumpEventIndex.mMachineEventIds).keys = insert m o.quorum.mMachines
      ext j
      rw [Finmap.mem_keys, Finmap.mem_insert, ← Finmap.mem_keys, hb.keys, Finset.mem_insert]
      rfl
    all_goals
      simp only [setOwnHash, bumpEventIndex, curHash_,
        tryGetValue_set, hc.own] at *
    · rw [Finset.mem_insert]
      by_cases h1 : j = m
      · simp [h1]
      · by_cases h2 : j = machine
        · subst h2
          simp [h1, hc.mem]
        · simpa [h1, h2] using hc.hasHash j
    · rw [if_neg hne.symm, if_pos trivial]
    · rw [if_neg hj] at hh
      split at hh
      · exact .inl (some.inj hh).symm
      · exact hc.otherHash j hash hj hh
  · exact h

theorem Good.dropMachine {inMachine : MachineId} (hne : inMachine ≠ machine) (timestamp : ℕ) :
    wp (dropMachine hashOf inMachine timestamp)
      (fun _ => Good hashOf unset machine history) (fun _ => Good hashOf unset machine history) o := by
  unfold LeaderQuorum.dropMachine
  rw [wp_bind, wp_self, wp_bind, wp_lassert]
  have hc := h.consistent
  split
  · next hmem =>
    have hhash : o.quorum.mMachineSetHashes.hasKey inMachine := hasKey_iff.2 ((hc.hasHash inMachine).2 hmem)
    simp only [wp_bind, wp_update, wp_self, wp_lassert]
    rw [if_pos (by exact hhash)]
    refine (checkForNewConsensus hinj hunset
      (?_ : Good hashOf unset machine history _)).mono (fun _ o' h' => ?_) fun _ _ he => he.elim
    · refine h.update (Outdated.setOwnHash ⟨hc.own, ?_, ?_, fun j hj => ?_, fun j hash hj hh => ?_⟩)
        rfl
      · exact Finset.mem_erase.2 ⟨hne.symm, hc.mem⟩
      · change (insert o.quorum.mOwnMachineId _
          (erase inMachine o.quorum.mMachineEventIds)).keys = o.quorum.mMachines.erase inMachine
        ext j
        rw [Finmap.mem_keys, Finmap.mem_insert, Finmap.mem_erase, ← Finmap.mem_keys, hc.keys, Finset.mem_erase, hc.own]
        refine ⟨fun hj => hj.elim (fun he => ?_) id, .inr⟩
        rw [he]
        exact ⟨hne.symm, hc.mem⟩
      · simp only [LeaderQuorum.bumpEventIndex, tryGetValue_discard, Finset.mem_erase]
        split
        · next he => simp [he]
        · next he => simpa [he] using hc.hasHash j
      · simp only [bumpEventIndex, tryGetValue_discard] at hh
        split at hh
        · cases hh
        · exact hc.otherHash j hash hj hh
    · exact h'.schedule timestamp
  · exact h

theorem Good.handleLeaderQuorumMessage
    {msg : LeaderQuorumMessage H} {src : MachineId} (hne : src ≠ machine)
    (hm : Justified hashOf history src msg) (timestamp : ℕ) :
    wp (LeaderQuorum.handleLeaderQuorumMessage hashOf msg timestamp)
      (fun _ => Good hashOf unset machine history) (fun _ => Good hashOf unset machine history) o := by
  obtain ⟨m, index, hash⟩ := msg
  obtain ⟨rfl, hb⟩ := hm
  have hcheck : ∀ o, Good hashOf unset machine history o →
      wp LeaderQuorum.checkForNewConsensus (fun _ => Good hashOf unset machine history)
        (fun _ => Good hashOf unset machine history) o := fun o h =>
    (h.checkForNewConsensus hinj hunset).mono (fun _ _ h => h) fun _ _ he => he.elim
  simp only [LeaderQuorum.handleLeaderQuorumMessage, wp_bind, LeaderQuorum.wp_self, wp_ite,
    wp_pure, LeaderQuorum.wp_update]
  split
  · exact h
  · next hmem =>
    rw [not_not] at hmem
    have h' := h.update (h.consistent.setHash hne hmem (hb.imp fun _ hb => ⟨hb.1.append _, hb.2⟩)) rfl
    split
    · exact hcheck _ (Good.schedule
        (h'.update (h'.consistent.outdated.insertEventId hmem index).setOwnHash rfl) timestamp)
    · exact hcheck _ h'

end

/-- A machine that broadcasts its state. -/
theorem Good.broadcast (h : Good hashOf unset machine history o) : Good hashOf unset machine history
      { o with emitted := o.emitted ++ [.broadcast o.quorum.mOwnMachineId o.quorum.mMachineEventIds
        (.MachineSetChanged o.quorum.mOwnMachineId o.quorum.mEventIndex (o.quorum.curHash_ hashOf))] } := by
  have hassoc := append_assoc history o.emitted [.broadcast o.quorum.mOwnMachineId
    o.quorum.mMachineEventIds (.MachineSetChanged o.quorum.mOwnMachineId o.quorum.mEventIndex
      (o.quorum.curHash_ hashOf))]
  refine ⟨?_, ?_, ?_, fun j hj => ?_, fun message hm => ?_⟩
  · rw [← hassoc]
    exact h.consistent.append _
  · rw [← hassoc]
    exact h.sound.broadcast _ _
  · rw [← hassoc, lastAnnounced_append announcements_broadcast]
    exact h.last
  · rw [announcements_append, h.others j hj, announcements_broadcast]
    rfl
  · rw [← hassoc]
    simp only [Network.messages, filterMap_append, mem_append] at hm
    rcases hm with hm | hm
    · exact (h.messages message hm).append _
    · obtain rfl : message = _ := by simpa using hm
      refine ⟨h.consistent.own, o.quorum.mMachineEventIds,
        ⟨.MachineSetChanged o.quorum.mOwnMachineId o.quorum.mEventIndex (o.quorum.curHash_ hashOf), ?_⟩, rfl⟩
      rw [← h.consistent.own]
      exact mem_append_right _ (mem_singleton_self _)

theorem Good.runScheduled (h : Good hashOf unset machine history o) (timestamp : ℕ) :
    wp (runScheduled hashOf timestamp) (fun _ => Good hashOf unset machine history)
      (fun _ => Good hashOf unset machine history) o := by
  simp only [LeaderQuorum.runScheduled, LeaderQuorum.checkTimestampAndBroadcast, wp_bind,
    wp_self, wp_ite, wp_pure, wp_update, wp_emit]
  split
  · have h' := h.update (q := { o.quorum with mScheduled := o.quorum.mScheduled.erase timestamp })
      { h.consistent with } rfl
    split
    · exact h'.broadcast
    · exact h'
  · exact h

end

/-! ## Runs -/

namespace Network

variable [DecidableEq H] {hashOf : EventIds → H} {unset : H} {n : Network H}

/-- What holds of a network in every run. -/
structure Invariant (hashOf : EventIds → H) (unset : H) (n : Network H) : Prop where
  consistent : ∀ m, Consistent hashOf unset m n.history (n.machine m)
  sound : Sound hashOf n.history
  last : ∀ m, lastAnnounced m n.history = (n.machine m).mLastBroadcastRegime
  justified : ∀ source target, ∀ message ∈ n.channel source target,
    source ≠ target ∧ Justified hashOf n.history source message

/-- Every machine on its own. -/
theorem invariant_start : Invariant hashOf unset (start hashOf) :=
  ⟨fun m => consistent_new m, ⟨fun _ _ _ _ hp => by simp [start] at hp, fun _ => .nil⟩,
    fun _ => rfl, fun _ _ _ hm => nomatch hm⟩

/-- A call keeps the network that keeps its machine. -/
theorem Invariant.act (h : Invariant hashOf unset n) {machine : MachineId} {x : Action H Unit}
    (hx : ∀ o, Good hashOf unset machine n.history o → wp x (fun _ => Good hashOf unset machine n.history)
        (fun _ => Good hashOf unset machine n.history) o) :
    Invariant hashOf unset (n.act machine x) := by
  have hstart : Good hashOf unset machine n.history { quorum := n.machine machine } := by
    refine ⟨?_, ?_, ?_, fun _ _ => rfl, nofun⟩
    all_goals rw [append_nil]
    · exact h.consistent machine
    · exact h.sound
    · exact h.last machine
  have hgood := (hx _ hstart).exec
  refine ⟨fun m => ?_, hgood.sound, fun m => ?_, fun source target message hm => ?_⟩
  · by_cases hm : m = machine
    · subst hm
      simpa [Network.act] using hgood.consistent
    · simpa [Network.act, hm] using (h.consistent m).append _
  · by_cases hm : m = machine
    · subst hm
      simpa [Network.act] using hgood.last
    · simpa [Network.act, hm] using (lastAnnounced_append (hgood.others m hm)).trans (h.last m)
  · simp only [Network.act] at hm
    split at hm
    · next hs =>
      rcases mem_append.1 hm with hm | hm
      · exact ⟨(h.justified source target message hm).1, (h.justified source target message hm).2.append _⟩
      · rw [hs.1]
        exact ⟨hs.2.symm, hgood.messages message hm⟩
    · exact ⟨(h.justified source target message hm).1, (h.justified source target message hm).2.append _⟩

theorem Invariant.dequeue (h : Invariant hashOf unset n) (src tgt : MachineId) :
    Invariant hashOf unset (n.dequeue src tgt) := by
  refine ⟨h.consistent, h.sound, h.last, fun s t message hm => h.justified s t message ?_⟩
  simp only [Network.dequeue] at hm
  split at hm
  · exact mem_of_mem_tail hm
  · exact hm

/-- Every step keeps the invariant. -/
theorem Invariant.step (hinj : Injective hashOf)
    (hunset : ∀ events, hashOf events ≠ unset) (h : Invariant hashOf unset n) (op : Op) :
    Invariant hashOf unset (n.step hashOf unset op) := by
  cases op with
  | addMachine machine inMachine other timestamp =>
    exact h.act fun _ ho => ho.addMachine hinj hunset other timestamp
  | dropMachine machine inMachine other timestamp =>
    exact h.act fun _ ho => ho.dropMachine hinj hunset other timestamp
  | forceRegimeChange machine timestamp =>
    exact h.act fun _ ho => ho.forceRegimeChange hinj hunset timestamp
  | runScheduled machine timestamp => exact h.act fun _ ho => ho.runScheduled timestamp
  | deliver source target timestamp =>
    simp only [Network.step]
    split
    · next message hm =>
      have hj := h.justified source target message (mem_of_head? hm)
      exact (h.dequeue source target).act fun _ ho =>
        ho.handleLeaderQuorumMessage hinj hunset hj.1 hj.2 timestamp
    · exact h
  | lose source target => exact h.dequeue source target

/-- What machines agree on. -/
structure Agreement (hashOf : EventIds → H) (n : Network H) : Prop where
  /-- Two machines that announce regimes with one hash agree on the leader and on how many they
  are. -/
  agree : ∀ m events regime m' eventIds' regime', .announced m events (some regime) ∈ n.history →
    .announced m' eventIds' (some regime') ∈ n.history →
    regime.regimeHash = regime'.regimeHash →
      regime.leaderMachine = regime'.leaderMachine ∧ regime.totalWorkers = regime'.totalWorkers
  /-- A machine has an event id for each machine that it is connected to. -/
  keys : ∀ m, (n.machine m).mMachineEventIds.keys = (n.machine m).mMachines
  /-- When a machine announces a regime, each other member has broadcast its event ids before. -/
  broadcast : ∀ past m events regime, past ++ [.announced m events (some regime)] <+: n.history →
      regime.regimeHash = hashOf events ∧ regime.totalWorkers = events.keys.card ∧
        ∀ j ∈ events.keys, j ≠ m → HasBroadcast past j events
  /-- Between two regimes a machine announces that it has none. -/
  nullBetween : ∀ past m events regime between eventIds' regime', past ++ .announced m events (some regime) ::
      (between ++ [.announced m eventIds' (some regime')]) <+: n.history →
    regime ≠ regime' → ∃ eventIds'', .announced m eventIds'' none ∈ between

theorem Invariant.agreement (hinj : Injective hashOf)
    (h : Invariant hashOf unset n) : Agreement hashOf n where
  agree := by
    intro m ids r m' ids' r' hr hr' he
    have hregime : ∀ m ids r, .announced m ids (some r) ∈ n.history → IsRegimeOf hashOf ids r := by
      intro m ids r hr
      obtain ⟨past, post, hh⟩ := append_of_mem hr
      refine (h.sound.regime past m ids r ⟨post, ?_⟩).1
      rw [hh, append_assoc]
      rfl
    have h1 := hregime m ids r hr
    have h2 := hregime m' ids' r' hr'
    obtain rfl : ids = ids' := hinj (by rw [← h1.regimeHash, ← h2.regimeHash, he])
    exact ⟨some.inj (h1.leaderMachine.symm.trans h2.leaderMachine), h1.totalWorkers.trans h2.totalWorkers.symm⟩
  keys m := (h.consistent m).keys
  broadcast past m ids r hp := by
    obtain ⟨hr, hb⟩ := h.sound.regime past m ids r hp
    exact ⟨hr.regimeHash, hr.totalWorkers, hb⟩
  nullBetween past m ids r between ids' r' hp _ := by
    obtain ⟨post, hp⟩ := hp
    have hchain := h.sound.alternating m
    rw [← hp, announcements_append] at hchain
    have hchain := hchain.left_of_append
    rw [announcements_append] at hchain
    have hchain := hchain.right_of_append
    have hlist : announcements m (.announced m ids (some r) ::
        (between ++ [.announced m ids' (some r')])) = some r :: (announcements m between ++ [some r']) := by
      simp [announcements]
    rw [hlist, isChain_cons] at hchain
    -- whatever the machine announced next was none, so it was not the second regime
    cases hb : announcements m between with
    | nil =>
      rw [hb] at hchain
      have := hchain.1 (some r') rfl
      simp at this
    | cons next rest =>
      rw [hb] at hchain
      have hnext : next = none := by simpa using hchain.1 next rfl
      subst hnext
      have hmem : none ∈ announcements m between := hb ▸ mem_cons_self
      obtain ⟨e, he, hn⟩ := mem_filterMap.1 hmem
      cases e with
      | broadcast j events message => cases hn
      | announced j events regime =>
        dsimp only at hn
        split at hn
        · next hj => cases hn; exact ⟨events, hj ▸ he⟩
        · cases hn

/-- In every run, whatever machines are added and dropped and however messages are delivered, the
machines agree, provided that the hash tells maps of event ids apart from each other and from the
default hash, which stands for no message yet. -/
theorem always_agreement (hashOf : EventIds → H) (unset : H)
    (hinj : Injective hashOf) (hunset : ∀ events, hashOf events ≠ unset) (ops : List Op) :
    Always (total (step hashOf unset)) (Agreement hashOf) (start hashOf) ops := by
  refine (always (P := Invariant hashOf unset) invariant_start fun n op n' h he => ?_).mono
    fun n h => h.agreement hinj
  rw [← total_eq_some.1 he]
  exact h.step hinj hunset op

/-- Two machines add each other and hear from each other, and the first one announces a regime of
the two. -/
theorem always_agreement_of_two_machines : Always (total (step (fun ids => some ids.ascendingEntries) none))
      (Agreement fun ids => some ids.ascendingEntries) (start fun ids => some ids.ascendingEntries)
      [.addMachine ⟨1⟩ ⟨2⟩ (by decide) 1, .addMachine ⟨2⟩ ⟨1⟩ (by decide) 1, .runScheduled ⟨1⟩ 1,
        .deliver ⟨1⟩ ⟨2⟩ 2, .runScheduled ⟨2⟩ 2, .deliver ⟨2⟩ ⟨1⟩ 3] ∧
    (announcements ⟨1⟩ (([.addMachine ⟨1⟩ ⟨2⟩ (by decide) 1, .addMachine ⟨2⟩ ⟨1⟩ (by decide) 1,
      .runScheduled ⟨1⟩ 1, .deliver ⟨1⟩ ⟨2⟩ 2, .runScheduled ⟨2⟩ 2,
      .deliver ⟨2⟩ ⟨1⟩ 3] : List Op).foldl (step (fun ids => some ids.ascendingEntries) none)
        (start fun ids => some ids.ascendingEntries)).history).map (Option.map Regime.totalWorkers) = [some 2] :=
  ⟨always_agreement _ none ((some_injective _).comp StdMap.ascendingEntries_injective)
    (fun _ => some_ne_none _) _, by decide⟩

end Network

end Cumulus
