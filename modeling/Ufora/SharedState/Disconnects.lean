import Ufora.SharedState.Subscribers

/-!
# The loop of `disconnect`

`KeyspaceManager::disconnect` erases the first range of the channel until there is none. A nonempty
range overlaps itself, so each turn leaves fewer ranges. A channel can subscribe to a range of which
the right end comes before the left one, or is at the same cut: no range overlaps it, it is stored, and
`erase` finds nothing to take out. `Stores` excludes what then stays in the set, and
`always_disconnectEnds` draws the conclusion for runs.
-/

open Ordered Effect Run

namespace SharedState.KeyspaceManager

variable {Json Channel : Type} [LinearOrder Json] [LinearOrder Channel]
  {s : KeyspaceManager Json Channel} {ch : Channel}

/-- Whatever channel is disconnected in this state, each turn of the loop leaves fewer ranges, and the
loop comes to its end. -/
structure DisconnectEnds (s : KeyspaceManager Json Channel) : Prop where
  shrinks : ∀ ch, ∀ elt ∈ (ascending (s.mRanges.get ch).mRanges).head?,
    ((s.mRanges.get ch).erase elt).mRanges.card < (s.mRanges.get ch).mRanges.card
  ends : ∀ ch, ∃ limit, (returned (takeRanges ch limit ∅) s).isSome

/-! ## Nonempty ranges -/

/-- The ranges of the channels are nonempty. -/
def AllNonempty (m : StdMap Channel (KeyRangeSet Json)) (_ : StdMap (Keyspace Json) ℤ) : Prop :=
  ∀ channel, ∀ r ∈ (m.get channel).mRanges, r.Nonempty

theorem rangesInvariant_allNonempty : RangesInvariant (@AllNonempty Json Channel _ _) where
  nonempty := id
  insert channel h := nonempty_get_insert (h channel) h
  eraseAll _ h := nonempty_get_erase h

theorem disconnectEnds_of_allNonempty (h : Of AllNonempty s) : s.DisconnectEnds := by
  refine ⟨fun c elt helt => ?_, fun c => ?_⟩
  · exact KeyRangeSet.card_erase_head_lt (h c elt (mem_ascending.1 (List.mem_of_mem_head? helt))) helt
  · obtain ⟨s', hs', -⟩ := ((@wp_takeRanges _ _ _ _ _ _ _ ∅ (h c) le_rfl).imp fun _ _ _ => trivial).exists_returned
    exact ⟨_, by rw [hs']; rfl⟩

variable (s)

/-- Subscribing to the range leaves only nonempty ranges: the range overlaps one of the channel, or
it is nonempty once it has been joined with those that it touches. -/
def Stores (ch : Channel) (range : KeyRange Json) : Prop := (s.mRanges.get ch).intersects range = true ∨
    ∀ ranges ∈ (s.mRanges.get ch).insert range, ∀ r ∈ ranges.mRanges, r.Nonempty
deriving Decidable

variable {s}

theorem keepsRanges_subscribe_of_stores {range : KeyRange Json} (hs : Of AllNonempty s)
    (hr : s.Stores ch range) : KeepsRangesAt AllNonempty (subscribe ch range) s := by
  have hsame : AllNonempty (Finmap.insert ch (s.mRanges.get ch) s.mRanges)
      s.mSubscribersPerKeyspace := nonempty_get_insert (hs ch) hs
  unfold subscribe setRanges KeepsRangesAt
  rw [wp_bind, wp_get, wp_bind, wp_modify]
  rw [wp_ite]
  split
  · exact ⟨hsame, subset_rfl⟩
  · next hint =>
    obtain ⟨ranges, hi⟩ := KeyRangeSet.exists_insert
      (KeyRangeSet.not_overlaps_of_intersects (Bool.not_eq_true _ ▸ hint))
    have hnew := @nonempty_get_insert _ _ _ _ _ _ ch (hr.resolve_left hint ranges hi) hsame
    rw [hi, wp_ite]
    split
    · exact ⟨hnew, subset_rfl⟩
    · exact ⟨hnew, subset_rfl⟩

theorem keepsRanges_unsubscribe {range : KeyRange Json} (hs : Of AllNonempty s) :
    KeepsRangesAt AllNonempty (unsubscribe ch range) s := by
  have hnew := @nonempty_get_insert _ _ _ _ _ _ ch (@KeyRangeSet.nonempty_erase _ _ _ range (hs ch)) hs
  unfold unsubscribe setRanges KeepsRangesAt
  simp only [wp_bind, wp_get, wp_modify, wp_ite]
  split_ifs
  · exact ⟨nonempty_get_erase hnew, subset_rfl⟩
  · exact ⟨hnew, subset_rfl⟩
  · exact ⟨nonempty_get_erase hnew, subset_rfl⟩
  · exact ⟨hnew, subset_rfl⟩

/-! ## Runs -/

mutual

/-- What a message subscribes to leaves only nonempty ranges. -/
def storesMessage (ch : Channel) (s : KeyspaceManager Json Channel) : MessageOut Json → Bool
  | .Subscribe range => s.Stores ch range
  | .Bundle messages => storesMessages ch s messages
  | _ => true

/-- The same for the messages of a bundle, each in the state in which it is handled. -/
def storesMessages (ch : Channel) (s : KeyspaceManager Json Channel) : List (MessageOut Json) → Bool
  | [] => true
  | message :: messages =>
    storesMessage ch s message &&
      match returned (handleIncomingMessage ch message) s with
      | some s' => storesMessages ch s' messages
      | none => true

end

theorem suffices_storesMessage (ch : Channel) :
    Suffices (@AllNonempty Json Channel _ _) ch (fun s m => storesMessage ch s m = true)
      fun s ms => storesMessages ch s ms = true where
  subscribe hs he := by
    exact keepsRanges_subscribe_of_stores hs (of_decide_eq_true he)
  unsubscribe hs _ := keepsRanges_unsubscribe hs
  bundle he := by
    exact he
  cons he := by
    unfold storesMessages at he
    rw [Bool.and_eq_true] at he
    refine ⟨he.1, fun s' hs' => ?_⟩
    rw [← he.2, hs']

variable (s)

/-- What an operation subscribes to leaves only nonempty ranges. -/
def StoresOnly : Op Json Channel → Prop
  | .receive ch message => storesMessage ch s message = true
  | .subscribe ch range => s.Stores ch range
  | _ => True

instance (op : Op Json Channel) : Decidable (s.StoresOnly op) :=
  match op with
  | .receive ch message => inferInstanceAs (Decidable (storesMessage ch s message = true))
  | .subscribe ch range => inferInstanceAs (Decidable (s.Stores ch range))
  | .add _ | .writeNewRange _ _ | .disconnect _ | .check _ => isTrue trivial

variable {s}

/-- One operation keeps the ranges nonempty, and none of its loops comes to a bound. -/
theorem wp_call_of_storesOnly {op : Op Json Channel} (hs : Of AllNonempty s)
    (hop : s.StoresOnly op) : wp op.call (fun _ s' => Of AllNonempty s')
      (fun e s' => Of AllNonempty s' ∧ InBounds e) s := by
  have hloaded : ∀ x : Action Json Channel Unit, KeepsRangesAt AllNonempty x s →
      wp x (fun _ s' => Of AllNonempty s') (fun e s' => Of AllNonempty s' ∧ InBounds e) s :=
    fun x hx => hx.mono (fun _ _ h => h.1) fun _ _ h => ⟨h.1.1, h.2⟩
  have hinv := @rangesInvariant_allNonempty Json Channel _ _
  cases op with
  | add ch => exact hs
  | receive ch message =>
    exact hloaded _ (wp_orDisconnect hinv _
      (wp_handleIncomingMessage hinv (suffices_storesMessage ch) message s hs hop))
  | subscribe ch range =>
    refine hloaded _ (wp_orDisconnect hinv _ ?_)
    unfold KeepsRangesAt
    rw [wp_bind]
    exact keepsRanges_subscribe_of_stores hs hop
  | writeNewRange range ch =>
    exact hloaded _ (wp_orDisconnect hinv _ (keepsRanges_of_isQuiet (isQuiet_writeNewRange _ _) s hs))
  | disconnect ch => exact hloaded _ (keepsRanges_disconnect hinv ch s hs)
  | check due =>
    unfold Op.call check
    rw [wp_bind]
    refine (keepsRanges_checkChannels hinv due s hs).mono (fun _ t ht => ?_) fun _ _ h =>
      ⟨h.1.1, h.2⟩
    have hsame : (t.activeKeyspaces t.mSubscribersPerKeyspace).mRanges = t.mRanges := by
      unfold activeKeyspaces
      split
      · rfl
      · exact (foldl_unload _ t).1
    rw [wp_modify]
    unfold Of AllNonempty
    rw [hsame]
    exact ht.1

/-- In every run in which what is subscribed to leaves only nonempty ranges, the loop of `disconnect`
ends in every state, for every channel, and so does the one of every disconnect inside a call. -/
theorem always_disconnectEnds (randomSeed : ℕ) (mRandGenerator : RandomGenerator)
    (mStorage : Option (StdMap (Keyspace Json ×ₗ ℕ) (KeyspaceStorage Json)))
    (world : World Json Channel) (ops : List (Op Json Channel)) (h : Run.EveryStep (total step) StoresOnly
      (new Json Channel randomSeed mRandGenerator mStorage world) ops) :
    Run.Always (total step) DisconnectEnds (new Json Channel randomSeed mRandGenerator mStorage world) ops ∧
      Run.EveryStep (total step) (fun s op => ∀ s', op.call s ≠ .error .recursionLimit s')
        (new Json Channel randomSeed mRandGenerator mStorage world) ops := by
  have hnew : Of AllNonempty (new Json Channel randomSeed mRandGenerator mStorage world) := by
    intro channel r hr
    rw [new, StdMap.get_empty] at hr
    cases hr
  have hall : Run.Always (total step) (Of AllNonempty)
      (new Json Channel randomSeed mRandGenerator mStorage world) ops := by
    refine always_of_everyStep hnew (fun s op s' hs hop ht => ?_) h
    rw [← total_eq_some.1 ht]
    exact ((wp_call_of_storesOnly hs hop).mono (fun _ _ => id) fun _ _ => And.left).exec
  refine ⟨hall.mono fun _ => disconnectEnds_of_allNonempty, h.of_always hall fun s op hs hop s' ht => ?_⟩
  have hcall := wp_call_of_storesOnly hs hop
  rw [wp, ht] at hcall
  exact hcall.2 rfl

/-- The names from 3 to 7. -/
def someNames : KeyRange ℕ := ⟨⟨.comparisonKeyType, 0, 1⟩, 0, some ⟨3, true⟩, some ⟨7, true⟩⟩

/-- A bundle subscribes and unsubscribes, and the channel is disconnected. -/
theorem always_disconnectEnds_oneChannel : Run.Always (total step) DisconnectEnds (new ℕ ℕ 0 ⟨0⟩ (some ∅) openWorld)
        [.add 1, .receive 1 (.Bundle [.Subscribe someNames, .Unsubscribe someNames]),
          .subscribe 1 someNames, .disconnect 1] ∧
      Run.EveryStep (total step) (fun s op => ∀ s', op.call s ≠ .error .recursionLimit s')
        (new ℕ ℕ 0 ⟨0⟩ (some ∅) openWorld)
        [.add 1, .receive 1 (.Bundle [.Subscribe someNames, .Unsubscribe someNames]),
          .subscribe 1 someNames, .disconnect 1] :=
  always_disconnectEnds 0 ⟨0⟩ (some ∅) openWorld _ (by decide)

/-! ## The loop that does not end -/

/-- Where erasing the first range leaves it, the loop comes to any bound. -/
theorem takeRanges_stuck {elt : KeyRange Json} {ranges : KeyRangeSet Json}
    (hget : s.mRanges.get ch = ranges) (hhead : (ascending ranges.mRanges).head? = some elt)
    (herase : ranges.erase elt = ranges) (n : ℕ) (toRemove : Finset (Keyspace Json)) :
    wp (takeRanges ch n toRemove) (fun _ _ => False) (fun _ _ => True) s := by
  induction n generalizing toRemove s with
  | zero =>
    unfold takeRanges
    rw [wp_bind, wp_get, wp_bind, wp_lassert, hget, if_neg]
    · trivial
    · intro hcard
      rw [Finset.card_eq_zero.1 hcard] at hhead
      cases hhead
  | succ n ih =>
    unfold takeRanges setRanges
    rw [wp_bind, wp_get]
    simp only [hget, hhead, herase]
    rw [wp_bind, wp_modify]
    refine ih ?_ _
    rw [StdMap.get_insert, if_pos rfl]

/-- A range of which the right end comes before the left one. -/
def noNames : KeyRange ℕ := ⟨⟨.comparisonKeyType, 0, 1⟩, 0, some ⟨7, true⟩, some ⟨3, true⟩⟩

/-- A channel that has subscribed to a range without names cannot be disconnected. -/
theorem not_always_disconnectEnds : ¬ Run.Always (total step) DisconnectEnds (new ℕ ℕ 0 ⟨0⟩ (some ∅) openWorld)
      [.add 1, .receive 1 (.Subscribe noNames)] := by
  intro h
  obtain ⟨limit, hlimit⟩ := (h.last rfl).ends 1
  obtain ⟨s', hs'⟩ := Option.isSome_iff_exists.1 hlimit
  exact (@takeRanges_stuck _ _ _ _ _ _ noNames _ rfl (by decide) (by decide) limit ∅).returned hs'

end SharedState.KeyspaceManager
