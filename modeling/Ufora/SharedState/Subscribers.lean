import Ufora.SharedState.KeyspaceManager

/-!
# The counts of subscribers

`mSubscribersPerKeyspace` of the `KeyspaceManager` is adjusted as channels subscribe, unsubscribe and
disconnect. `Counted` says that it has the number of channels that hold a range of each keyspace;
every call keeps this except an `Unsubscribe` from a channel that holds no range of the keyspace.
`always_subscribersCounted` draws the conclusion for runs.
-/

open Ordered Effect Finmap StdMap List Run Nat

namespace SharedState.KeyspaceManager

variable {Json Channel : Type} [LinearOrder Json] [LinearOrder Channel]

/-! ## The channels of a keyspace -/

section
variable {m : StdMap Channel (KeyRangeSet Json)} {counts : StdMap (Keyspace Json) ℤ}
  {k : Keyspace Json} {channel : Channel}

/-- The channels that hold a range of a keyspace. -/
def holders (m : StdMap Channel (KeyRangeSet Json)) (k : Keyspace Json) : Finset Channel :=
  m.keys.filter fun channel => (m.get channel).containsKeyspace k = true

theorem mem_holders : channel ∈ holders m k ↔ (m.get channel).containsKeyspace k = true := by
  refine ⟨fun h => (Finset.mem_filter.1 h).2, fun h => Finset.mem_filter.2 ⟨?_, h⟩⟩
  rw [mem_keys_iff]
  cases hl : lookup channel m with
  | some ranges => exact ⟨ranges, rfl⟩
  | none =>
    rw [StdMap.get, hl] at h
    obtain ⟨r, hr, -⟩ := KeyRangeSet.containsKeyspace_iff.1 h
    cases hr

theorem holders_insert (ranges : KeyRangeSet Json) : holders (insert channel ranges m) k =
    if ranges.containsKeyspace k = true then insert channel (holders m k)
    else (holders m k).erase channel := by
  ext c
  rw [mem_holders, get_insert]
  by_cases hc : c = channel
  · subst hc
    rw [if_pos rfl]
    split
    · next h => exact iff_of_true h (Finset.mem_insert_self _ _)
    · next h => exact iff_of_false h (Finset.notMem_erase _ _)
  · rw [if_neg hc]
    split
    · rw [Finset.mem_insert, or_iff_right hc, mem_holders]
    · rw [Finset.mem_erase, and_iff_right hc, mem_holders]

theorem holders_erase : holders (erase channel m) k = (holders m k).erase channel := by
  ext c
  rw [mem_holders, get_erase, Finset.mem_erase, mem_holders]
  by_cases hc : c = channel
  · subst hc
    rw [if_pos rfl]
    exact iff_of_false nofun fun h => h.1 rfl
  · rw [if_neg hc, and_iff_right hc]

/-- The entry of a keyspace with so many subscribers. -/
def entry (n : ℕ) : Option ℤ := if n = 0 then none else some n

theorem lookup_addKeyspaceSubscriber {n : ℕ} (h : lookup k counts = entry n)
    (k' : Keyspace Json) : lookup k' (addKeyspaceSubscriber k counts) =
      if k' = k then entry (n + 1) else lookup k' counts := by
  have hget : counts.get k = n := by
    rw [StdMap.get, h, entry]
    split
    · next hn => rw [hn]; rfl
    · rfl
  rw [addKeyspaceSubscriber, StdMap.lookup_insert, hget, entry, if_neg (succ_ne_zero n)]
  rfl

theorem lookup_removeKeyspaceSubscriber {n : ℕ} (h : lookup k counts = entry n)
    (k' : Keyspace Json) : lookup k' (removeKeyspaceSubscriber k counts) =
      if k' = k then entry (n - 1) else lookup k' counts := by
  unfold removeKeyspaceSubscriber
  cases n with
  | zero =>
    have hnone : lookup k counts = none := h
    rw [hnone]
    by_cases hk : k' = k
    · rw [if_pos hk, hk]
      exact hnone
    · rw [if_neg hk]
  | succ n =>
    have hsome : lookup k counts = some ((n + 1 : ℕ) : ℤ) := h
    have hpred : ((n + 1 : ℕ) : ℤ) - 1 = n := by omega
    rw [hsome]
    simp only [hpred, Nat.add_sub_cancel]
    unfold entry
    by_cases hn : n = 0
    · rw [if_pos hn, if_pos (by omega), StdMap.lookup_erase]
    · rw [if_neg hn, if_neg (by omega), StdMap.lookup_insert]

/-- The loop of `disconnect` takes one subscriber from each of the keyspaces. -/
theorem lookup_foldl_removeKeyspaceSubscriber {l : List (Keyspace Json)} (hl : l.Nodup)
    {count : Keyspace Json → ℕ} (h : ∀ k, lookup k counts = entry (count k)) (k : Keyspace Json) :
    lookup k (l.foldl (fun m keyspace => removeKeyspaceSubscriber keyspace m) counts) =
      entry (if k ∈ l then count k - 1 else count k) := by
  induction l generalizing counts count with
  | nil => exact h k
  | cons a l ih =>
    rw [nodup_cons] at hl
    rw [foldl_cons]
    have hstep : ∀ k, lookup k (removeKeyspaceSubscriber a counts) =
        entry (if k = a then count k - 1 else count k) := by
      intro k
      rw [lookup_removeKeyspaceSubscriber (h a)]
      split
      · next hk => rw [hk]
      · exact h k
    rw [ih hl.2 hstep]
    by_cases hk : k = a
    · subst hk
      rw [if_neg hl.1, if_pos rfl, if_pos mem_cons_self]
    · rw [if_neg hk]
      simp only [mem_cons, hk, false_or]

end

/-! ## The invariant -/

/-- The ranges of the channels are nonempty, and each keyspace has the count of the channels that hold
a range of it. -/
structure CountsOf (m : StdMap Channel (KeyRangeSet Json)) (counts : StdMap (Keyspace Json) ℤ) : Prop where
  nonempty : ∀ channel, ∀ r ∈ (m.get channel).mRanges, r.Nonempty
  count : ∀ k, lookup k counts = entry (holders m k).card

section
variable {m : StdMap Channel (KeyRangeSet Json)} {counts : StdMap (Keyspace Json) ℤ}
  {ranges : KeyRangeSet Json} {k : Keyspace Json} {channel : Channel}

theorem holders_insert_of_eq (h : ranges.containsKeyspace k = (m.get channel).containsKeyspace k) :
    holders (insert channel ranges m) k = holders m k := by
  rw [holders_insert, h]
  split
  · next hc => exact Finset.insert_eq_of_mem (mem_holders.2 hc)
  · next hc => exact Finset.erase_eq_of_notMem fun hm => hc (mem_holders.1 hm)

section
variable (hr : ∀ r ∈ ranges.mRanges, r.Nonempty)
include hr

theorem nonempty_get_insert (hm : ∀ channel, ∀ r ∈ (m.get channel).mRanges, r.Nonempty) (c : Channel) :
    ∀ r ∈ (get (insert channel ranges m) c).mRanges, r.Nonempty := by
  rw [get_insert]
  split
  · exact hr
  · exact hm c

/-- The ranges of a channel change, and it holds ranges of the same keyspaces as before. -/
theorem CountsOf.insert (h : CountsOf m counts)
    (hk : ∀ k, ranges.containsKeyspace k = (m.get channel).containsKeyspace k) :
    CountsOf (insert channel ranges m) counts :=
  ⟨nonempty_get_insert hr h.nonempty, fun k => by rw [holders_insert_of_eq (hk k), h.count]⟩

/-- The channel gets a range of one more keyspace. -/
theorem CountsOf.add (h : CountsOf m counts)
    (hk : ∀ k', ranges.containsKeyspace k' = true ↔ k' = k ∨ (m.get channel).containsKeyspace k' = true)
    (hnew : ¬ (m.get channel).containsKeyspace k = true) :
    CountsOf (Finmap.insert channel ranges m) (addKeyspaceSubscriber k counts) := by
  refine ⟨nonempty_get_insert hr h.nonempty, fun k' => ?_⟩
  rw [lookup_addKeyspaceSubscriber (h.count k)]
  split
  · next he =>
    rw [he, holders_insert, if_pos ((hk k).2 (.inl rfl)), Finset.card_insert_of_notMem fun hm =>
      hnew (mem_holders.1 hm)]
  · next hne =>
    have hiff := hk k'
    rw [or_iff_right hne] at hiff
    rw [holders_insert_of_eq (Bool.eq_iff_iff.2 hiff), h.count]

/-- The channel loses its ranges of a keyspace, if it held any. -/
theorem CountsOf.remove (h : CountsOf m counts)
    (hk : ∀ k' ≠ k, ranges.containsKeyspace k' = (m.get channel).containsKeyspace k')
    (hgone : ¬ ranges.containsKeyspace k = true) (hheld : (m.get channel).containsKeyspace k = true ∨ k ∉ counts) :
    CountsOf (Finmap.insert channel ranges m) (removeKeyspaceSubscriber k counts) := by
  refine ⟨nonempty_get_insert hr h.nonempty, fun k' => ?_⟩
  rw [lookup_removeKeyspaceSubscriber (h.count k)]
  split
  · next he =>
    rw [he, holders_insert, if_neg hgone]
    rcases hheld with hheld | hnone
    · rw [Finset.card_erase_of_mem (mem_holders.2 hheld)]
    · have hzero : (holders m k).card = 0 := by
        by_contra hne
        have hcount := h.count k
        rw [entry, if_neg hne] at hcount
        exact hnone (mem_keys.1 (mem_keys_iff.2 ⟨_, hcount⟩))
      rw [Finset.card_eq_zero.1 hzero]
      rfl
  · next hne => rw [holders_insert_of_eq (hk k' hne), h.count]

end

theorem nonempty_get_erase (hm : ∀ channel, ∀ r ∈ (m.get channel).mRanges, r.Nonempty)
    (c : Channel) : ∀ r ∈ (get (erase channel m) c).mRanges, r.Nonempty := by
  rw [get_erase]
  split
  · exact nofun
  · exact hm c

/-- A channel without ranges is forgotten. -/
theorem CountsOf.erase (h : CountsOf m counts) (hnone : (m.get channel).mRanges.card = 0) :
    CountsOf (erase channel m) counts := by
  refine ⟨nonempty_get_erase h.nonempty, fun k => ?_⟩
  rw [holders_erase, Finset.erase_eq_of_notMem fun hm => ?_, h.count]
  obtain ⟨r, hr, -⟩ := KeyRangeSet.containsKeyspace_iff.1 (mem_holders.1 hm)
  rw [Finset.card_eq_zero.1 hnone] at hr
  cases hr

/-- A channel is forgotten with all its ranges. -/
theorem CountsOf.eraseAll (h : CountsOf m counts) : CountsOf (Finmap.erase channel m)
    ((ascending ((m.get channel).mRanges.image (·.keyspace))).foldl
      (fun m keyspace => removeKeyspaceSubscriber keyspace m) counts) := by
  refine ⟨nonempty_get_erase h.nonempty, fun k => ?_⟩
  rw [lookup_foldl_removeKeyspaceSubscriber (ascending_nodup _) h.count, holders_erase]
  have hmem : k ∈ ascending ((m.get channel).mRanges.image (·.keyspace)) ↔ channel ∈ holders m k := by
    rw [mem_ascending, Finset.mem_image, mem_holders, KeyRangeSet.containsKeyspace_iff]
  split
  · next hk => rw [Finset.card_erase_of_mem (hmem.1 hk)]
  · next hk => rw [Finset.erase_eq_of_notMem fun hc => hk (hmem.2 hc)]

end

/-- The counts of the manager are those of its channels. -/
def Counted (s : KeyspaceManager Json Channel) : Prop := CountsOf s.mRanges s.mSubscribersPerKeyspace

/-- No keyspace is unloaded. -/
def Loaded (s s' : KeyspaceManager Json Channel) : Prop := s.mKeyEvents.keys ⊆ s'.mKeyEvents.keys

instance : IsPreorder (KeyspaceManager Json Channel) Loaded where
  refl _ := subset_rfl
  trans _ _ _ := subset_trans

/-- The loops of the model do not come to their bounds. -/
def InBounds (e : ManagerError Json) : Prop := e ≠ .recursionLimit

/-- What most calls leave alone. -/
structure Quiet (s s' : KeyspaceManager Json Channel) : Prop where
  ranges : s'.mRanges = s.mRanges
  counts : s'.mSubscribersPerKeyspace = s.mSubscribersPerKeyspace
  ids : s'.mChannelIds = s.mChannelIds
  loaded : Loaded s s'

instance : IsPreorder (KeyspaceManager Json Channel) Quiet where
  refl _ := ⟨rfl, rfl, rfl, refl_of Loaded _⟩
  trans _ _ _ h h' := ⟨h'.ranges.trans h.ranges, h'.counts.trans h.counts, h'.ids.trans h.ids,
    trans_of Loaded h.loaded h'.loaded⟩

variable {s s' : KeyspaceManager Json Channel}

theorem Counted.congr (h : s.Counted)
    (hr : s'.mRanges = s.mRanges) (hc : s'.mSubscribersPerKeyspace = s.mSubscribersPerKeyspace) :
    s'.Counted := by
  unfold Counted
  rw [hr, hc]
  exact h

/-- What is known of the ranges and the counts between any two steps of a call: the ranges are
nonempty, and a channel may be looked up or forgotten. -/
structure RangesInvariant
    (J : StdMap Channel (KeyRangeSet Json) → StdMap (Keyspace Json) ℤ → Prop) : Prop where
  nonempty : ∀ {m counts}, J m counts → ∀ channel, ∀ r ∈ (m.get channel).mRanges, r.Nonempty
  insert : ∀ {m counts} channel, J m counts → J (insert channel (m.get channel) m) counts
  eraseAll : ∀ {m counts} channel, J m counts → J (erase channel m)
    ((ascending ((m.get channel).mRanges.image (·.keyspace))).foldl
      (fun m keyspace => removeKeyspaceSubscriber keyspace m) counts)

theorem rangesInvariant_countsOf : RangesInvariant (@CountsOf Json Channel _ _) where
  nonempty := CountsOf.nonempty
  insert channel h := h.insert (h.nonempty channel) fun _ => rfl
  eraseAll _ h := h.eraseAll

/-- A call that leaves the ranges, the counts and the ids alone. -/
abbrev IsQuiet {α : Type} (x : Action Json Channel α) : Prop := Keeps (fun _ => True) Quiet InBounds x

variable (J : StdMap Channel (KeyRangeSet Json) → StdMap (Keyspace Json) ℤ → Prop)

/-- The ranges and the counts of the manager have the property. -/
abbrev Of (s : KeyspaceManager Json Channel) : Prop := J s.mRanges s.mSubscribersPerKeyspace

/-- A call that keeps a property of the ranges and the counts. -/
abbrev KeepsRanges {α : Type} (x : Action Json Channel α) : Prop := Keeps (Of J) Loaded InBounds x

/-- The same of a call in one state. -/
abbrev KeepsRangesAt {α : Type} (x : Action Json Channel α) (s : KeyspaceManager Json Channel) : Prop :=
  wp x (fun _ s' => Of J s' ∧ Loaded s s') (fun e s' => (Of J s' ∧ Loaded s s') ∧ InBounds e) s

variable {J}

omit [LinearOrder Channel] in
theorem Quiet.of (h : Quiet s s') (hs : Of J s) : Of J s' := by
  unfold Of
  rw [h.ranges, h.counts]
  exact hs

theorem keepsRanges_of_isQuiet {α : Type} {x : Action Json Channel α} (h : IsQuiet x) :
    KeepsRanges J x := h.of_imp (fun _ _ => trivial) fun _ _ hs hq => ⟨hq.of hs, hq.loaded⟩

variable {f : KeyspaceManager Json Channel → KeyspaceManager Json Channel}

theorem isQuiet_modify
    (hf : ∀ s, Quiet s (f s)) : IsQuiet (modify f) := keeps_modify fun s _ => ⟨trivial, hf s⟩

theorem isQuiet_tryWrite (channel : Channel) (msg : MessageIn Json) : IsQuiet (tryWrite channel msg) := by
  refine .bind keeps_get fun s => .ite (keeps_pure _) ?_
  exact .bind (isQuiet_modify fun s => ⟨rfl, rfl, rfl, subset_rfl⟩) fun _ => keeps_pure _

theorem isQuiet_write (channel : Channel) (msg : MessageIn Json) : IsQuiet (write channel msg) :=
  .bind (isQuiet_tryWrite _ _) fun _ => .ite (keeps_throw nofun) (keeps_pure _)

theorem isQuiet_loadKeyspaceCaches (keyspace : Keyspace Json) :
    IsQuiet (loadKeyspaceCaches keyspace : Action Json Channel _) := by
  refine .bind keeps_get fun s => ?_
  split
  · exact keeps_pure _
  · refine .bind (isQuiet_modify fun s => ⟨rfl, rfl, rfl, fun k hk => ?_⟩) fun _ => keeps_pure _
    exact mem_keys.2 (mem_insert.2 (.inr (mem_keys.1 hk)))

theorem isQuiet_onCache (keyspace : Keyspace Json) (i : ℕ) (x : KeyspaceCache.Action Json Unit) :
    IsQuiet (onCache keyspace i x : Action Json Channel Unit) := by
  refine .bind keeps_get fun s => ?_
  split
  · exact keeps_throw nofun
  · intro t _
    have hq : ∀ caches, Quiet t { t with
        mKeyEvents := insert keyspace caches t.mKeyEvents } := fun caches =>
      ⟨rfl, rfl, rfl, fun k hk =>
        mem_keys.2 (mem_insert.2 (.inr (mem_keys.1 hk)))⟩
    rw [wp_onPart, wp_adaptExcept]
    exact wp_of_forall (fun _ _ => ⟨trivial, hq _⟩) fun _ _ => ⟨⟨trivial, hq _⟩, nofun⟩

theorem isQuiet_addEvent (e : PartialEvent Json) : IsQuiet (addEvent e : Action Json Channel Unit) :=
  .bind (isQuiet_loadKeyspaceCaches _) fun _ => .forM (fun _ => isQuiet_onCache _ _ _) _

theorem isQuiet_visit (channel : Channel) (p : Key Json × KeyState Json) : IsQuiet (visit channel p) := by
  have hevents : ∀ l : List (PartialEvent Json), IsQuiet (l.forM fun event => write channel (.Event event)) :=
    fun l => .forM (fun event => isQuiet_write channel (.Event event)) l
  unfold visit
  split
  · refine .bind (isQuiet_write _ _) fun _ => ?_
    exact hevents _
  · exact hevents _

theorem isQuiet_writeKeyRangeTo (range : KeyRange Json) (ch : Channel) :
    IsQuiet (writeKeyRangeTo range ch) :=
  .bind (isQuiet_loadKeyspaceCaches _) fun _ => .bind (isQuiet_onCache _ _ _) fun _ =>
    .bind keeps_get fun _ => .bind (.forM (isQuiet_visit ch) _) fun _ => isQuiet_write _ _

theorem isQuiet_writeNewRange (range : KeyRange Json) (ch : Channel) :
    IsQuiet (writeNewRange range ch) := by
  refine .tryCatch (isQuiet_writeKeyRangeTo _ _) fun e he => ?_
  split
  · exact keeps_pure _
  · exact keeps_throw he

theorem isQuiet_writeMinimumIds (minVal globalMax : ℕ) (channels : List Channel) :
    IsQuiet (writeMinimumIds minVal globalMax channels : Action Json Channel _) := by
  induction channels with
  | nil => exact keeps_pure _
  | cons channel channels ih =>
    refine .bind keeps_get fun s => ?_
    split
    · exact .bind (keeps_pure _) fun _ => .bind ih fun _ => keeps_pure _
    · exact .bind (isQuiet_tryWrite _ _) fun _ => .bind ih fun _ => keeps_pure _

theorem isQuiet_compact (id : ℕ) (due : Keyspace Json → ℕ → Bool) :
    IsQuiet (compact id due : Action Json Channel Unit) :=
  .bind keeps_get fun _ => .forM (fun _ => .bind keeps_get fun _ =>
    .forM (fun _ => isQuiet_onCache _ _ _) _) _

variable (ch : Channel)

theorem isQuiet_initializeClient (clientId : ℕ) (generator : Option RandomGenerator) :
    IsQuiet (initializeClient ch clientId generator : Action Json Channel Unit) :=
  .bind keeps_get fun _ => .bind (isQuiet_tryWrite _ _) fun _ => keeps_pure _

/-- What `sendEvent` returns are some of the channels. -/
theorem wp_sendEvent (event : SignedEvent Json) (channels : List Channel)
    (s : KeyspaceManager Json Channel) : wp (sendEvent event channels)
      (fun toDrop s' => Quiet s s' ∧ toDrop ⊆ channels)
      (fun e s' => Quiet s s' ∧ InBounds e) s := by
  induction channels generalizing s with
  | nil => exact ⟨refl_of Quiet s, List.Subset.refl _⟩
  | cons channel channels ih =>
    unfold sendEvent
    rw [wp_bind]
    refine (isQuiet_tryWrite _ _ s trivial).mono (fun taken t ht => ?_) fun e t ht => ⟨ht.1.2, ht.2⟩
    rw [wp_bind]
    refine (ih t).mono (fun toDrop u hu => ?_) fun e u hu => ⟨trans_of Quiet ht.2 hu.1, hu.2⟩
    refine ⟨trans_of Quiet ht.2 hu.1, ?_⟩
    split
    · exact subset_cons_of_subset _ hu.2
    · exact cons_subset_cons _ hu.2

/-! ## Subscribing -/

/-- A channel that subscribes to a nonempty range counts for its keyspace. -/
theorem keepsRanges_subscribe {range : KeyRange Json} (hne : range.Nonempty) :
    KeepsRanges CountsOf (subscribe ch range) := by
  intro s hs
  have hsame : CountsOf (Finmap.insert ch (s.mRanges.get ch) s.mRanges)
      s.mSubscribersPerKeyspace := hs.insert (hs.nonempty ch) fun _ => rfl
  have hget : get (Finmap.insert ch (s.mRanges.get ch) s.mRanges) ch = s.mRanges.get ch := by
    rw [get_insert, if_pos rfl]
  unfold subscribe setRanges
  rw [wp_bind, wp_get, wp_bind, wp_modify]
  rw [wp_ite]
  split
  · exact ⟨hsame, subset_rfl⟩
  · next hint =>
    obtain ⟨ranges, hi⟩ := KeyRangeSet.exists_insert
      (KeyRangeSet.not_overlaps_of_intersects (Bool.not_eq_true _ ▸ hint))
    have hr := KeyRangeSet.nonempty_insert hne hi (hs.nonempty ch)
    have hk := KeyRangeSet.containsKeyspace_insert hi
    rw [hi]
    by_cases hc : (s.mRanges.get ch).containsKeyspace range.keyspace = true
    · rw [wp_ite, if_neg (not_not.2 hc), wp_bind, wp_modify]
      refine ⟨hsame.insert hr fun k => ?_, subset_rfl⟩
      rw [hget, Bool.eq_iff_iff, hk, or_iff_right_of_imp fun he => he ▸ hc]
    · rw [wp_ite, if_pos hc, wp_bind, wp_modify, wp_bind, wp_modify]
      exact ⟨hsame.add hr (fun k => by rw [hget, hk]) (by rw [hget]; exact hc), subset_rfl⟩

variable (s)

/-- The channel holds a range of the keyspace, or no channel is counted for it. -/
def MayUnsubscribe (ch : Channel) (range : KeyRange Json) : Prop :=
  (s.mRanges.get ch).containsKeyspace range.keyspace = true ∨ range.keyspace ∉ s.mSubscribersPerKeyspace
deriving Decidable

variable {s}

/-- A channel that unsubscribes its last range of a keyspace no longer counts for it. -/
theorem wp_unsubscribe {ch : Channel}
    {range : KeyRange Json} (hs : s.Counted) (hm : s.MayUnsubscribe ch range) :
    KeepsRangesAt CountsOf (unsubscribe ch range) s := by
  unfold unsubscribe setRanges
  simp only [wp_bind, wp_get, wp_modify, get_insert, if_true]
  generalize herase : (s.mRanges.get ch).erase range = ranges
  have hr : ∀ r ∈ ranges.mRanges, r.Nonempty := herase ▸ KeyRangeSet.nonempty_erase (hs.nonempty ch)
  have hother : ∀ k ≠ range.keyspace, ranges.containsKeyspace k = (s.mRanges.get ch).containsKeyspace k := by
    intro k hk
    rw [← herase, KeyRangeSet.containsKeyspace_erase hk]
  have hget : get (Finmap.insert ch ranges s.mRanges) ch = ranges := by
    rw [get_insert, if_pos rfl]
  rw [wp_ite]
  split
  · next hc =>
    have hcounted := CountsOf.remove hr hs hother hc hm
    rw [wp_bind, wp_modify]
    simp only [wp_bind, wp_get, get_insert, if_true]
    rw [wp_ite]
    split
    · next hcard => exact ⟨hcounted.erase (by rw [hget]; exact hcard), subset_rfl⟩
    · exact ⟨hcounted, subset_rfl⟩
  · next hc =>
    have hcounted : CountsOf (insert ch ranges s.mRanges)
        s.mSubscribersPerKeyspace := by
      refine CountsOf.insert hr hs fun k => ?_
      by_cases hk : k = range.keyspace
      · have hnow := not_not.1 hc
        rw [hk, hnow, KeyRangeSet.containsKeyspace_of_erase (herase ▸ hnow)]
      · exact hother k hk
    simp only [wp_bind, wp_get, get_insert, if_true]
    rw [wp_ite]
    split
    · next hcard => exact ⟨hcounted.erase (by rw [hget]; exact hcard), subset_rfl⟩
    · exact ⟨hcounted, subset_rfl⟩

/-! ## Disconnecting -/

/-- The ranges of the manager without those of a channel do not depend on these. -/
theorem erase_insert (m : StdMap Channel (KeyRangeSet Json)) (channel : Channel) (ranges : KeyRangeSet Json) :
    erase channel (insert channel ranges m) = erase channel m := by
  refine ext_lookup fun c => ?_
  rw [StdMap.lookup_erase, StdMap.lookup_erase]
  split
  · rfl
  · next hc => rw [StdMap.lookup_insert, if_neg hc]

/-- The loop of `disconnect` comes to its end and collects the keyspaces of the ranges. -/
theorem wp_takeRanges {ch : Channel} {n : ℕ} {toRemove : Finset (Keyspace Json)}
    (hr : ∀ r ∈ (s.mRanges.get ch).mRanges, r.Nonempty)
    (hlimit : (s.mRanges.get ch).mRanges.card ≤ n) :
    wp (takeRanges ch n toRemove)
      (fun out s' => out = toRemove ∪ (s.mRanges.get ch).mRanges.image (·.keyspace) ∧
        ∃ m, s' = { s with mRanges := m } ∧ erase ch m = erase ch s.mRanges)
      (fun _ _ => False) s := by
  induction n generalizing toRemove s with
  | zero =>
    have hempty := Finset.card_eq_zero.1 (le_zero.1 hlimit)
    unfold takeRanges
    rw [wp_bind, wp_get, wp_bind, wp_lassert, if_pos (le_zero.1 hlimit), wp_pure, hempty]
    exact ⟨by simp, s.mRanges, rfl, rfl⟩
  | succ n ih =>
    unfold takeRanges
    rw [wp_bind, wp_get]
    simp only
    cases hhead : (ascending (s.mRanges.get ch).mRanges).head? with
    | none =>
      have hempty : (s.mRanges.get ch).mRanges = ∅ := by
        rw [← toFinset_ascending (s.mRanges.get ch).mRanges, head?_eq_none_iff.1 hhead]
        rfl
      rw [hempty]
      exact ⟨by simp, s.mRanges, rfl, rfl⟩
    | some elt =>
      have helt : elt ∈ (s.mRanges.get ch).mRanges := mem_ascending.1 (mem_of_mem_head? hhead)
      have hlt := KeyRangeSet.card_erase_head_lt (hr elt helt) hhead
      generalize herase : (s.mRanges.get ch).erase elt = ranges at hlt
      have hget : get (insert ch ranges s.mRanges) ch = ranges := by
        rw [get_insert, if_pos rfl]
      unfold setRanges
      rw [wp_bind, wp_modify, herase]
      refine (ih ?_ ?_).mono ?_ fun _ _ => id
      · rw [hget]
        exact herase ▸ KeyRangeSet.nonempty_erase hr
      · rw [hget]
        exact le_of_lt_succ (hlt.trans_le hlimit)
      · rintro out t ⟨hout, m, ht, hm⟩
        refine ⟨hout.trans ?_, m, ht, hm.trans (erase_insert _ _ _)⟩
        rw [hget]
        have hkeyspaces : ∀ k, k ∈ (s.mRanges.get ch).mRanges.image (·.keyspace) ↔
            k = elt.keyspace ∨ k ∈ ranges.mRanges.image (·.keyspace) := by
          intro k
          rw [Finset.mem_image, Finset.mem_image, ← KeyRangeSet.containsKeyspace_iff,
            ← KeyRangeSet.containsKeyspace_iff, ← herase]
          by_cases hk : k = elt.keyspace
          · exact iff_of_true (KeyRangeSet.containsKeyspace_iff.2 ⟨elt, helt, hk.symm⟩) (.inl hk)
          · rw [or_iff_right hk, KeyRangeSet.containsKeyspace_erase hk]
        ext k
        rw [Finset.mem_union, Finset.mem_union, Finset.mem_insert, hkeyspaces]
        tauto

/-- What `pushEvent` and `disconnect` do to the channels: those that lose their ranges lose their ids
as well. -/
structure Drops (s s' : KeyspaceManager Json Channel) : Prop where
  loaded : Loaded s s'
  ranges : s'.mRanges.keys ⊆ s.mRanges.keys
  ids : s'.mChannelIds.keys ⊆ s.mChannelIds.keys
  gone : ∀ channel ∈ s.mRanges.keys, channel ∉ s'.mRanges.keys → channel ∉ s'.mChannelIds.keys

instance : IsPreorder (KeyspaceManager Json Channel) Drops where
  refl s := ⟨refl_of Loaded s, subset_rfl, subset_rfl, fun _ h hn => absurd h hn⟩
  trans s t u h h' := ⟨trans_of Loaded h.loaded h'.loaded, h'.ranges.trans h.ranges, h'.ids.trans h.ids,
      fun channel hc hn => by
        by_cases ht : channel ∈ t.mRanges.keys
        · exact h'.gone channel ht hn
        · exact fun hi => h.gone channel hc ht (h'.ids hi)⟩

omit [LinearOrder Channel] in
theorem Quiet.drops (h : Quiet s s') : Drops s s' :=
  ⟨h.loaded, h.ranges ▸ subset_rfl, h.ids ▸ subset_rfl, fun _ hc hn => absurd (h.ranges ▸ hc) hn⟩

/-- `statusEvent` uses the id of the channel. -/
theorem wp_statusEvent (update : Option Json)
    (s : KeyspaceManager Json Channel) : wp (statusEvent ch update) (fun _ s' => s' = { s with
        mChannelIds := insert ch (s.mChannelIds.get ch) s.mChannelIds
        mStatusEventUniqueID := s.mStatusEventUniqueID + 1 })
      (fun e s' => s' = { s with
        mChannelIds := insert ch (s.mChannelIds.get ch) s.mChannelIds
        mStatusEventUniqueID := s.mStatusEventUniqueID + 1 } ∧ InBounds e) s := by
  unfold statusEvent
  rw [wp_bind, wp_get]
  rw [wp_bind, wp_modify]
  split
  · rfl
  · exact ⟨rfl, nofun⟩

/-- The call keeps the property, drops channels and does not come to a bound. -/
abbrev DropsOnly (J : StdMap Channel (KeyRangeSet Json) → StdMap (Keyspace Json) ℤ → Prop)
    (x : Action Json Channel Unit) (s : KeyspaceManager Json Channel) : Prop :=
  wp x (fun _ s' => Of J s' ∧ Drops s s') (fun e s' => (Of J s' ∧ Loaded s s') ∧ InBounds e) s

/-- `disconnect` forgets the channel, and the counts follow. -/
theorem dropsOnly_disconnectWith (hJ : RangesInvariant J) {n : ℕ} {ch : Channel}
    {push : SignedEvent Json → Action Json Channel Unit} (hs : Of J s)
    (hpush : ∀ t event, Of J t → t.mRanges.keys.card < n → DropsOnly J (push event) t)
    (hn : ch ∉ s.mChannelIds.keys ∨ (s.mRanges.keys.erase ch).card < n) :
    DropsOnly J (disconnectWith push ch) s := by
  unfold DropsOnly disconnectWith
  rw [wp_bind, wp_get, wp_bind]
  refine (wp_takeRanges (hJ.nonempty hs ch) le_rfl).mono ?_ fun _ _ => False.elim
  rintro toRemove _ ⟨htake, m, rfl, hm⟩
  rw [Finset.empty_union] at htake
  rw [wp_bind, wp_modify]
  simp only [hm, htake]
  generalize hlocal : ({ s with
    mSubscribersPerKeyspace := (ascending ((s.mRanges.get ch).mRanges.image (·.keyspace))).foldl
        (fun m keyspace => removeKeyspaceSubscriber keyspace m) s.mSubscribersPerKeyspace
    mRanges := erase ch s.mRanges
    mChannels := s.mChannels.erase ch } : KeyspaceManager Json Channel) = t
  have ht : Of J t := hlocal ▸ hJ.eraseAll ch hs
  have hkeys : t.mRanges.keys = s.mRanges.keys.erase ch := by
    rw [← hlocal]
    exact keys_erase _ _
  have hids : t.mChannelIds = s.mChannelIds := hlocal ▸ rfl
  have hloaded : Loaded s t := hlocal ▸ refl_of Loaded s
  -- the end of the function, from a state in which the channel has no id
  have hend : ∀ u, Of J u → Drops t u → ch ∉ u.mChannelIds.keys → DropsOnly J (modify fun s => { s with
        mChannelMaxIdentifiers := erase ch s.mChannelMaxIdentifiers
        world.disconnected := insert ch s.world.disconnected }) u ∧ Drops s u := by
    intro u hu hd hid
    refine ⟨⟨hu, refl_of Loaded u, subset_rfl, subset_rfl, fun _ h hn => absurd h hn⟩,
      trans_of Loaded hloaded hd.loaded, ?_, ?_, fun channel hc hnot => ?_⟩
    · exact (hkeys ▸ hd.ranges).trans (Finset.erase_subset _ _)
    · exact hids ▸ hd.ids
    · by_cases he : channel = ch
      · rwa [he]
      · exact hd.gone channel (hkeys ▸ Finset.mem_erase.2 ⟨he, hc⟩) hnot
  rw [wp_bind, wp_get, wp_ite]
  split
  · next hid =>
    have hcard : t.mRanges.keys.card < n := hkeys ▸ hn.resolve_left fun h => h (hids ▸ mem_keys.2 hid)
    rw [wp_bind, wp_get, wp_bind]
    refine (wp_statusEvent _ _ t).mono ?_ ?_
    · rintro event t' ht'
      rw [insert_get hid] at ht'
      subst ht'
      rw [wp_bind]
      have hnext := hpush { t with mStatusEventUniqueID := t.mStatusEventUniqueID + 1 } event ht hcard
      refine hnext.mono (fun _ u hu => ?_) fun _ u hu =>
        ⟨⟨hu.1.1, trans_of Loaded hloaded hu.1.2⟩, hu.2⟩
      have hu' : Drops t u := ⟨hu.2.loaded, hu.2.ranges, hu.2.ids, hu.2.gone⟩
      rw [wp_bind, wp_modify]
      have hkeys' : (erase ch u.mChannelIds).keys = u.mChannelIds.keys.erase ch := keys_erase _ _
      obtain ⟨h, hd⟩ := hend { u with mChannelIds := erase ch u.mChannelIds } hu.1
        ⟨hu'.loaded, hu'.ranges, hkeys' ▸ (Finset.erase_subset _ _).trans hu'.ids,
          fun channel hc hnot hmem => hu'.gone channel hc hnot (Finset.mem_of_mem_erase (hkeys' ▸ hmem))⟩
        (hkeys' ▸ Finset.notMem_erase _ _)
      exact h.mono (fun _ u hu => ⟨hu.1, trans_of Drops hd hu.2⟩) fun _ u hu =>
        ⟨⟨hu.1.1, trans_of Loaded hd.loaded hu.1.2⟩, hu.2⟩
    · rintro e t' ⟨rfl, he⟩
      exact ⟨⟨ht, hloaded⟩, he⟩
  · next hid =>
    obtain ⟨h, hd⟩ := hend t ht (refl_of Drops t) fun h => hid (mem_keys.1 h)
    refine h.mono (fun _ u hu => ⟨hu.1, trans_of Drops hd hu.2⟩) fun _ u hu =>
      ⟨⟨hu.1.1, trans_of Loaded hd.loaded hu.1.2⟩, hu.2⟩

omit [LinearOrder Json] in
/-- What a filter keeps was there. -/
theorem mem_of_filterAuxM {α ε : Type} {f : α → Except ε Bool} {l acc out : List α}
    (h : l.filterAuxM f acc = .ok out) {a : α} (ha : a ∈ out) : a ∈ l ∨ a ∈ acc := by
  induction l generalizing acc with
  | nil =>
    cases h
    exact .inr ha
  | cons b l ih =>
    unfold filterAuxM at h
    cases hb : f b with
    | error e =>
      rw [hb] at h
      cases h
    | ok keep =>
      rw [hb] at h
      rcases ih h with hl | hacc
      · exact .inl (.tail _ hl)
      · cases keep with
        | false => exact .inr hacc
        | true =>
          rcases mem_cons.1 hacc with rfl | hacc
          · exact .inl (.head _)
          · exact .inr hacc

/-- The channels that `getChannelsForKey` finds have ranges. -/
theorem mem_getChannelsForKey {k : Key Json}
    {channels : List Channel} (h : s.getChannelsForKey k = .ok channels) {channel : Channel}
    (hc : channel ∈ channels) : channel ∈ s.mRanges.keys := by
  unfold getChannelsForKey filterM at h
  generalize hf : (filterAuxM _ (ascending s.mRanges.keys) [] :
    Except (AssertionFailed Json) (List Channel)) = found at h
  cases found with
  | error e => cases h
  | ok out =>
    obtain rfl : out.reverse = channels := Except.ok.inj h
    exact mem_ascending.1 ((mem_of_filterAuxM hf (mem_reverse.1 hc)).resolve_right not_mem_nil)

/-- `pushEvent` drops the channels that do not take the event, and the calls that follow from that
come to an end: each drops one more channel that has ranges. -/
theorem dropsOnly_pushEventWithin (hJ : RangesInvariant J) {n : ℕ}
    (event : SignedEvent Json) (hs : Of J s) (hn : s.mRanges.keys.card < n) :
    DropsOnly J (pushEventWithin n event) s := by
  induction n generalizing s event with
  | zero => exact absurd hn (not_lt_zero _)
  | succ n ih =>
    unfold DropsOnly pushEventWithin
    rw [wp_bind]
    refine (isQuiet_addEvent event.toPartialEvent s trivial).mono (fun _ t ht => ?_) fun _ t ht =>
      ⟨⟨ht.1.2.of hs, ht.1.2.loaded⟩, ht.2⟩
    have hst := ht.2
    have htc := hst.of hs
    rw [wp_bind, wp_get]
    split
    · exact ⟨⟨htc, hst.loaded⟩, nofun⟩
    · next channels hchannels =>
      rw [wp_bind]
      refine (wp_sendEvent event channels t).mono (fun toDrop u hu => ?_) fun _ u hu =>
        ⟨⟨hu.1.of htc, trans_of Loaded hst.loaded hu.1.loaded⟩, hu.2⟩
      have hsu : Quiet s u := trans_of Quiet hst hu.1
      have hheld : ∀ channel ∈ toDrop, channel ∈ u.mRanges.keys := by
        intro channel hc
        rw [hu.1.ranges]
        exact mem_getChannelsForKey hchannels (hu.2 hc)
      refine (wp_forM (E := fun e s' => (Of J s' ∧ Loaded s s') ∧ InBounds e)
        (fun rest v => (Of J v ∧ Drops u v) ∧ ∀ channel ∈ rest, channel ∈ u.mRanges.keys)
        ?_ toDrop ⟨⟨hsu.of hs, refl_of Drops u⟩, hheld⟩).imp fun _ v hv => ⟨hv.1.1, trans_of Drops hsu.drops hv.1.2⟩
      rintro channel rest v ⟨⟨hv, hd⟩, hrest⟩
      rw [forall_mem_cons] at hrest
      have hlimit : channel ∉ v.mChannelIds.keys ∨ (v.mRanges.keys.erase channel).card < n := by
        by_cases hc : channel ∈ v.mRanges.keys
        · have hle := Finset.card_le_card hd.ranges
          rw [hsu.ranges] at hle
          have hlt := Finset.card_erase_lt_of_mem hc
          exact .inr (by omega)
        · exact .inl (hd.gone channel hrest.1 hc)
      refine (dropsOnly_disconnectWith hJ hv (fun t event => ih event) hlimit).mono
        (fun _ w hw => ⟨⟨hw.1, trans_of Drops hd hw.2⟩, hrest.2⟩) fun _ w hw =>
        ⟨⟨hw.1.1, trans_of Loaded hsu.loaded (trans_of Loaded hd.loaded hw.1.2)⟩, hw.2⟩

variable {x : Action Json Channel Unit}

theorem keepsRanges_of_dropsOnly
    (h : ∀ s : KeyspaceManager Json Channel, Of J s → DropsOnly J x s) : KeepsRanges J x :=
  fun s hs => (h s hs).imp fun _ _ ht => ⟨ht.1, ht.2.loaded⟩

theorem keepsRanges_pushEvent (hJ : RangesInvariant J) (e : SignedEvent Json) :
    KeepsRanges J (pushEvent e : Action Json Channel Unit) := by
  refine keepsRanges_of_dropsOnly fun s hs => ?_
  unfold DropsOnly pushEvent
  rw [wp_bind, wp_get]
  exact dropsOnly_pushEventWithin hJ e hs (lt_succ_self _)

theorem keepsRanges_disconnect (hJ : RangesInvariant J) (ch : Channel) :
    KeepsRanges J (disconnect ch : Action Json Channel Unit) := by
  refine keepsRanges_of_dropsOnly fun s hs => ?_
  unfold DropsOnly disconnect
  rw [wp_bind, wp_get]
  refine dropsOnly_disconnectWith hJ hs (fun t event => dropsOnly_pushEventWithin hJ event) (.inr ?_)
  exact (Finset.card_le_card (Finset.erase_subset _ _)).trans_lt (lt_succ_self _)

/-! ## Messages -/

theorem keepsRanges_isValidEventFromClient (hJ : RangesInvariant J) (ch : Channel) (inEvent : SignedEvent Json) :
    KeepsRanges J (isValidEventFromClient ch inEvent) := by
  intro s hs
  have hsame := hJ.insert ch hs
  unfold isValidEventFromClient setRanges
  rw [wp_bind, wp_get]
  rw [wp_bind, wp_modify]
  split
  · exact ⟨⟨hsame, subset_rfl⟩, nofun⟩
  · exact ⟨hsame, subset_rfl⟩

/-- Changes of what the counts do not depend on. -/
theorem keepsRanges_modify
    (hr : ∀ s, (f s).mRanges = s.mRanges) (hc : ∀ s, (f s).mSubscribersPerKeyspace = s.mSubscribersPerKeyspace)
    (hl : ∀ s, (f s).mKeyEvents = s.mKeyEvents) : KeepsRanges J (modify f) := by
  refine keeps_modify fun s hs => ⟨?_, ?_⟩
  · unfold Of
    rw [hr, hc]
    exact hs
  · unfold Loaded
    rw [hl]

theorem keepsRanges_statusEvent (update : Option Json) : KeepsRanges J (statusEvent ch update) := by
  refine fun s hs => (wp_statusEvent ch update s).mono ?_ ?_
  · rintro _ t rfl
    exact ⟨hs, subset_rfl⟩
  · rintro _ t ⟨rfl, he⟩
    exact ⟨⟨hs, subset_rfl⟩, he⟩

theorem keepsRanges_requestSession (hJ : RangesInvariant J) (ch : Channel) (clientId : Option ℕ) :
    KeepsRanges J (requestSession ch clientId : Action Json Channel Unit) := by
  have hmodify : ∀ f : KeyspaceManager Json Channel → RandomGenerator, KeepsRanges J
      (modify fun s => { s with mRandGenerator := f s } : Action Json Channel PUnit) :=
    fun f => keepsRanges_modify (fun _ => rfl) (fun _ => rfl) fun _ => rfl
  have hrest : ∀ newId : ℕ, KeepsRanges J (do
      modify fun s : KeyspaceManager Json Channel =>
        { s with mChannelIds := insert ch newId s.mChannelIds }
      pushEvent (← statusEvent ch ((← get).world.string "connected"))) :=
    fun newId => .bind (keepsRanges_modify (fun _ => rfl) (fun _ => rfl) fun _ => rfl) fun _ =>
      .bind keeps_get fun _ => .bind (keepsRanges_statusEvent _ _) fun _ => keepsRanges_pushEvent hJ _
  have hclient : ∀ newId generator, KeepsRanges J
      (initializeClient ch newId generator : Action Json Channel Unit) :=
    fun newId generator => keepsRanges_of_isQuiet (isQuiet_initializeClient _ _ _)
  unfold requestSession
  split
  · refine .bind (.bind keeps_get fun _ => .bind (hmodify _) fun _ => keeps_pure _) fun newId =>
      .bind (.bind keeps_get fun _ => .bind (hmodify _) fun _ => keeps_pure _) fun _ =>
        .bind (hclient _ _) fun _ => ?_
    exact hrest newId
  · refine .bind (hclient _ _) fun _ => ?_
    exact hrest _

/-- What a `PushEvent` message does. -/
theorem keepsRanges_pushMessage (hJ : RangesInvariant J) (ch : Channel) (e : SignedEvent Json) :
    KeepsRanges J (handleIncomingMessage ch (.PushEvent e)) := by
  have hpush : KeepsRanges J (do
      modify fun s : KeyspaceManager Json Channel => { s with mNumEventsHandled := s.mNumEventsHandled + 1 }
      pushEvent e) :=
    .bind (keepsRanges_modify (fun _ => rfl) (fun _ => rfl) fun _ => rfl) fun _ =>
      keepsRanges_pushEvent hJ _
  refine Keeps.bind (keepsRanges_isValidEventFromClient hJ _ _) fun _ => ?_
  exact .ite (.bind (keeps_throw nofun) fun _ => hpush) hpush

mutual

/-- The ranges that a message subscribes to are nonempty, and its channel may unsubscribe those that
it unsubscribes. -/
def expectsMessage (ch : Channel) (s : KeyspaceManager Json Channel) : MessageOut Json → Bool
  | .Subscribe range => range.Nonempty
  | .Unsubscribe range => s.MayUnsubscribe ch range
  | .Bundle messages => expectsMessages ch s messages
  | _ => true

/-- The same for the messages of a bundle, each in the state in which it is handled. -/
def expectsMessages (ch : Channel) (s : KeyspaceManager Json Channel) : List (MessageOut Json) → Bool
  | [] => true
  | message :: messages =>
    expectsMessage ch s message &&
      match returned (handleIncomingMessage ch message) s with
      | some s' => expectsMessages ch s' messages
      | none => true

end

/-- A condition on a message, and on the messages of a bundle, under which they keep the property. -/
structure Suffices (J : StdMap Channel (KeyRangeSet Json) → StdMap (Keyspace Json) ℤ → Prop)
    (ch : Channel) (P : KeyspaceManager Json Channel → MessageOut Json → Prop)
    (Ps : KeyspaceManager Json Channel → List (MessageOut Json) → Prop) : Prop where
  subscribe : ∀ {s range}, Of J s → P s (.Subscribe range) → KeepsRangesAt J (subscribe ch range) s
  unsubscribe : ∀ {s range}, Of J s → P s (.Unsubscribe range) → KeepsRangesAt J (unsubscribe ch range) s
  bundle : ∀ {s messages}, P s (.Bundle messages) → Ps s messages
  cons : ∀ {s message messages}, Ps s (message :: messages) → P s message ∧
    ∀ s', returned (handleIncomingMessage ch message) s = some s' → Ps s' messages

section
variable {ch} {P : KeyspaceManager Json Channel → MessageOut Json → Prop}
  {Ps : KeyspaceManager Json Channel → List (MessageOut Json) → Prop}

mutual

/-- A message keeps the property under the condition. -/
theorem wp_handleIncomingMessage (hJ : RangesInvariant J) (hP : Suffices J ch P Ps)
    (msg : MessageOut Json) (s : KeyspaceManager Json Channel) (hs : Of J s) (he : P s msg) :
    KeepsRangesAt J (handleIncomingMessage ch msg) s := by
  cases msg with
  | Subscribe range =>
    unfold handleIncomingMessage KeepsRangesAt
    rw [wp_bind]
    refine (hP.subscribe hs he).imp fun new t ht => ?_
    have hrest : KeepsRanges J (if new = true then writeNewRange range ch else pure ()) :=
      .ite (keepsRanges_of_isQuiet (isQuiet_writeNewRange _ _)) (keeps_pure _)
    exact (hrest t ht.1).mono (fun _ _ hu => ⟨hu.1, trans_of Loaded ht.2 hu.2⟩)
      fun _ _ hu => ⟨⟨hu.1.1, trans_of Loaded ht.2 hu.1.2⟩, hu.2⟩
  | Unsubscribe range =>
    exact hP.unsubscribe hs he
  | MinimumIdResponse id =>
    exact ⟨hs, subset_rfl⟩
  | RequestSession clientId =>
    exact keepsRanges_requestSession hJ _ _ s hs
  | PushEvent event => exact keepsRanges_pushMessage hJ ch event s hs
  | FlushRequest flushId =>
    exact keepsRanges_of_isQuiet (isQuiet_write _ _) s hs
  | Bundle messages =>
    exact wp_handleMessages hJ hP messages s hs (hP.bundle he)

/-- So do the messages of a bundle. -/
theorem wp_handleMessages (hJ : RangesInvariant J) (hP : Suffices J ch P Ps)
    (messages : List (MessageOut Json)) (s : KeyspaceManager Json Channel) (hs : Of J s)
    (he : Ps s messages) : KeepsRangesAt J (handleMessages ch messages) s := by
  cases messages with
  | nil =>
    exact ⟨hs, subset_rfl⟩
  | cons message messages =>
    unfold handleMessages KeepsRangesAt
    rw [wp_bind]
    refine ((wp_handleIncomingMessage hJ hP message s hs (hP.cons he).1).and (wp_returned _ _)).mono
      (fun _ t ht => ?_) fun _ t ht => ht.1
    exact (wp_handleMessages hJ hP messages t ht.1.1 ((hP.cons he).2 t ht.2)).mono
      (fun _ _ hu => ⟨hu.1, trans_of Loaded ht.1.2 hu.2⟩) fun _ _ hu =>
        ⟨⟨hu.1.1, trans_of Loaded ht.1.2 hu.1.2⟩, hu.2⟩

end

end

/-- Messages that are as expected keep the counts. -/
theorem suffices_expectsMessage (ch : Channel) :
    Suffices (@CountsOf Json Channel _ _) ch (fun s m => expectsMessage ch s m = true)
      fun s ms => expectsMessages ch s ms = true where
  subscribe hs he := by
    exact keepsRanges_subscribe ch (of_decide_eq_true he) _ hs
  unsubscribe hs he := by
    exact wp_unsubscribe hs (of_decide_eq_true he)
  bundle he := by
    exact he
  cons he := by
    unfold expectsMessages at he
    rw [Bool.and_eq_true] at he
    refine ⟨he.1, fun s' hs' => ?_⟩
    rw [← he.2, hs']

/-! ## Unloading -/

/-- The channels that hold a nonempty range in a keyspace. -/
def subscribers (s : KeyspaceManager Json Channel) (k : Keyspace Json) : Finset Channel :=
  s.mRanges.keys.filter fun channel =>
    ∃ r ∈ (s.mRanges.get channel).mRanges, r.keyspace = k ∧ r.Nonempty

theorem subscribers_eq_holders (hs : s.Counted) (k : Keyspace Json) : s.subscribers k = holders s.mRanges k := by
  refine Finset.filter_congr fun channel _ => ?_
  rw [KeyRangeSet.containsKeyspace_iff]
  exact ⟨fun ⟨r, hr, hk, _⟩ => ⟨r, hr, hk⟩, fun ⟨r, hr, hk⟩ => ⟨r, hr, hk, hs.nonempty channel r hr⟩⟩

omit [LinearOrder Channel] in
theorem foldl_unload (l : List (Keyspace Json)) (s : KeyspaceManager Json Channel) :
    (l.foldl unload s).mRanges = s.mRanges ∧ (l.foldl unload s).mSubscribersPerKeyspace = s.mSubscribersPerKeyspace ∧
      ∀ k, k ∈ (l.foldl unload s).mKeyEvents ↔ k ∈ s.mKeyEvents ∧ k ∉ l := by
  induction l generalizing s with
  | nil => exact ⟨rfl, rfl, fun k => by simp⟩
  | cons a l ih =>
    obtain ⟨hr, hc, hk⟩ := ih (unload s a)
    refine ⟨hr, hc, fun k => ?_⟩
    rw [foldl_cons, hk, unload, mem_erase, mem_cons, not_or, and_assoc]
    tauto

/-- `activeKeyspaces` unloads no keyspace that a channel is counted for. -/
theorem mem_activeKeyspaces (hs : s.Counted) : (s.activeKeyspaces s.mSubscribersPerKeyspace).Counted ∧
      ∀ k ∈ s.mKeyEvents, k ∉ (s.activeKeyspaces s.mSubscribersPerKeyspace).mKeyEvents →
        (s.activeKeyspaces s.mSubscribersPerKeyspace).subscribers k = ∅ := by
  unfold activeKeyspaces
  split
  · exact ⟨hs, fun k hk hn => absurd hk hn⟩
  · obtain ⟨hr, hc, hk⟩ := foldl_unload ((ascending s.mKeyEvents.keys).filter fun keyspace =>
      keyspace ∉ s.mSubscribersPerKeyspace ∧ keyspace ≠ s.clientInfoKeyspace).reverse s
    refine ⟨hs.congr hr hc, fun k hmem hnot => ?_⟩
    rw [hk, and_iff_right hmem, not_not, mem_reverse, mem_filter, decide_eq_true_iff] at hnot
    rw [subscribers_eq_holders (hs.congr hr hc), hr]
    by_contra hne
    have hcount := hs.count k
    rw [entry, if_neg fun h => hne (Finset.card_eq_zero.1 h)] at hcount
    exact hnot.2.1 (mem_keys.1 (mem_keys_iff.2 ⟨_, hcount⟩))

/-- What is unloaded from one state to the other has no subscriber in the second. -/
def UnloadsUnused (s s' : KeyspaceManager Json Channel) : Prop :=
  ∀ k ∈ s.mKeyEvents, k ∉ s'.mKeyEvents → s'.subscribers k = ∅

omit [LinearOrder Channel] in
theorem Loaded.mem (h : Loaded s s') {k : Keyspace Json}
    (hk : k ∈ s.mKeyEvents) : k ∈ s'.mKeyEvents := mem_keys.1 (h (mem_keys.2 hk))

theorem Loaded.unloadsUnused (h : Loaded s s') : UnloadsUnused s s' := fun _ hk hn => absurd (h.mem hk) hn

theorem keepsRanges_checkChannels (hJ : RangesInvariant J) (due : Keyspace Json → ℕ → Bool) :
    KeepsRanges J (checkChannels due : Action Json Channel Unit) :=
  .bind keeps_get fun _ => .bind keeps_get fun _ =>
    .bind (keepsRanges_of_isQuiet (isQuiet_writeMinimumIds _ _ _)) fun _ =>
      .bind (.forM (keepsRanges_disconnect hJ) _) fun _ =>
        .bind (keepsRanges_of_isQuiet (isQuiet_compact _ _)) fun _ =>
          keepsRanges_modify (fun _ => rfl) (fun _ => rfl) fun _ => rfl

/-- `check` unloads unused keyspaces only. -/
theorem wp_check (due : Keyspace Json → ℕ → Bool)
    (hs : s.Counted) : wp (check due) (fun _ s' => s'.Counted ∧ UnloadsUnused s s')
      (fun e s' => (s'.Counted ∧ UnloadsUnused s s') ∧ InBounds e) s := by
  unfold check
  rw [wp_bind]
  refine (keepsRanges_checkChannels rangesInvariant_countsOf due s hs).mono (fun _ t ht => ?_) fun e t ht =>
    ⟨⟨ht.1.1, ht.1.2.unloadsUnused⟩, ht.2⟩
  obtain ⟨hc, hu⟩ := mem_activeKeyspaces ht.1
  exact ⟨hc, fun k hk => hu k (ht.2.mem hk)⟩

/-! ## Runs -/

variable (s)

/-- A message is as expected, and so is a range that is subscribed to. -/
def Expected : Op Json Channel → Prop
  | .receive ch message => expectsMessage ch s message = true
  | .subscribe _ range => range.Nonempty
  | _ => True

instance (op : Op Json Channel) : Decidable (s.Expected op) :=
  match op with
  | .receive ch message => inferInstanceAs (Decidable (expectsMessage ch s message = true))
  | .subscribe _ range => inferInstanceAs (Decidable range.Nonempty)
  | .add _ | .writeNewRange _ _ | .disconnect _ | .check _ => isTrue trivial

/-- Each count is the number of the channels that hold a nonempty range in the keyspace, and there is
no count that is not positive. -/
structure SubscribersCounted (s : KeyspaceManager Json Channel) : Prop where
  count : ∀ k, s.mSubscribersPerKeyspace.get k = (s.subscribers k).card
  positive : ∀ k n, lookup k s.mSubscribersPerKeyspace = some n → 0 < n

variable {s}

theorem Counted.subscribersCounted (hs : s.Counted) : s.SubscribersCounted := by
  refine ⟨fun k => ?_, fun k n hn => ?_⟩
  · rw [subscribers_eq_holders hs, StdMap.get, hs.count, entry]
    split
    · next h => rw [h]; rfl
    · rfl
  · rw [hs.count, entry] at hn
    split at hn
    · cases hn
    · next h =>
      rw [← Option.some.inj hn]
      exact Int.natCast_pos.2 (Nat.pos_of_ne_zero h)

/-- A call that keeps the property, also where its channel is disconnected because it throws. -/
theorem wp_orDisconnect (hJ : RangesInvariant J) (ch : Channel)
    (h : KeepsRangesAt J x s) : KeepsRangesAt J (orDisconnect ch x) s := by
  unfold orDisconnect KeepsRangesAt
  rw [wp_tryCatch]
  refine h.mono (fun _ _ => id) fun e t ht => ?_
  exact (keepsRanges_disconnect hJ ch t ht.1.1).mono
    (fun _ _ hu => ⟨hu.1, trans_of Loaded ht.1.2 hu.2⟩) fun _ _ hu =>
      ⟨⟨hu.1.1, trans_of Loaded ht.1.2 hu.1.2⟩, hu.2⟩

/-- One operation: it keeps the counts and unloads unused keyspaces only. -/
theorem wp_call {op : Op Json Channel} (hs : s.Counted)
    (he : s.Expected op) : wp op.call (fun _ s' => s'.Counted ∧ UnloadsUnused s s')
      (fun e s' => (s'.Counted ∧ UnloadsUnused s s') ∧ InBounds e) s := by
  have hloaded : ∀ x : Action Json Channel Unit, KeepsRangesAt CountsOf x s →
      wp x (fun _ s' => s'.Counted ∧ UnloadsUnused s s')
        (fun e s' => (s'.Counted ∧ UnloadsUnused s s') ∧ InBounds e) s := fun x hx =>
    hx.mono (fun _ _ h => ⟨h.1, h.2.unloadsUnused⟩) fun _ _ h =>
      ⟨⟨h.1.1, h.1.2.unloadsUnused⟩, h.2⟩
  cases op with
  | add ch => exact hloaded _ ⟨hs, subset_rfl⟩
  | receive ch message =>
    exact hloaded _ (wp_orDisconnect rangesInvariant_countsOf _ (wp_handleIncomingMessage
      rangesInvariant_countsOf (suffices_expectsMessage ch) message s hs he))
  | subscribe ch range =>
    exact hloaded _ (wp_orDisconnect rangesInvariant_countsOf _
      (Keeps.bind (keepsRanges_subscribe ch he) (fun _ => keeps_pure _) s hs))
  | writeNewRange range ch =>
    exact hloaded _ (wp_orDisconnect rangesInvariant_countsOf _
      (keepsRanges_of_isQuiet (isQuiet_writeNewRange _ _) s hs))
  | disconnect ch => exact hloaded _ (keepsRanges_disconnect rangesInvariant_countsOf ch s hs)
  | check due => exact wp_check due hs

/-- A new manager has no channels and no counts. -/
theorem counted_new (randomSeed : ℕ) (mRandGenerator : RandomGenerator)
    (mStorage : Option (StdMap (Keyspace Json ×ₗ ℕ) (KeyspaceStorage Json)))
    (world : World Json Channel) : (new Json Channel randomSeed mRandGenerator mStorage world).Counted :=
  CountsOf.mk (fun channel r hr => by rw [new, get_empty] at hr; cases hr) fun _ => rfl

/-- In every run whose messages are as expected, the counts of subscribers are exact, a keyspace is
unloaded only when no channel holds a range of it, and no call comes to a bound of the model. -/
theorem always_subscribersCounted (randomSeed : ℕ) (mRandGenerator : RandomGenerator)
    (mStorage : Option (StdMap (Keyspace Json ×ₗ ℕ) (KeyspaceStorage Json)))
    (world : World Json Channel) (ops : List (Op Json Channel)) (h : EveryStep (Run.total step) Expected
      (new Json Channel randomSeed mRandGenerator mStorage world) ops) :
    Always (Run.total step) SubscribersCounted (new Json Channel randomSeed mRandGenerator mStorage world) ops ∧
      EveryStep (Run.total step) (fun s op => UnloadsUnused s (s.step op) ∧ ∀ s', op.call s ≠ .error .recursionLimit s')
        (new Json Channel randomSeed mRandGenerator mStorage world) ops := by
  have hstep : ∀ (s : KeyspaceManager Json Channel) op, s.Counted → s.Expected op →
      (s.step op).Counted ∧ UnloadsUnused s (s.step op) := fun s op hs he =>
    ((wp_call hs he).mono (fun _ _ => id) fun _ _ => And.left).exec
  have hbound : ∀ (s : KeyspaceManager Json Channel) op, s.Counted → s.Expected op →
      ∀ s', op.call s ≠ .error .recursionLimit s' := by
    intro s op hs he s' hthrow
    have hcall := wp_call hs he
    rw [wp, hthrow] at hcall
    exact hcall.2 rfl
  have hall : Always (Run.total step) Counted
      (new Json Channel randomSeed mRandGenerator mStorage world) ops := by
    refine always_of_everyStep (counted_new _ _ _ _) (fun s op s' hs he ht => ?_) h
    rw [← total_eq_some.1 ht]
    exact (hstep s op hs he).1
  exact ⟨hall.mono fun _ => Counted.subscribersCounted,
    h.of_always hall fun s op hs he => ⟨(hstep s op hs he).2, hbound s op hs he⟩⟩

/-- Channels that take everything. -/
def openWorld : World ℕ ℕ where
  string := String.length
  hash := (· + ·)
  accepts _ _ := true

/-- All names of a keyspace of one dimension. -/
def allNames : KeyRange ℕ := ⟨⟨.comparisonKeyType, 0, 1⟩, 0, none, none⟩

/-- A channel subscribes to a keyspace, unsubscribes and is disconnected. -/
theorem always_subscribersCounted_oneChannel :
    Always (Run.total step) SubscribersCounted (new ℕ ℕ 0 ⟨0⟩ (some ∅) openWorld)
        [.add 1, .receive 1 (.Subscribe allNames), .check fun _ _ => false,
          .receive 1 (.Unsubscribe allNames), .disconnect 1] ∧
      EveryStep (Run.total step) (fun s op => UnloadsUnused s (s.step op) ∧
          ∀ s', op.call s ≠ .error .recursionLimit s') (new ℕ ℕ 0 ⟨0⟩ (some ∅) openWorld)
        [.add 1, .receive 1 (.Subscribe allNames), .check fun _ _ => false,
          .receive 1 (.Unsubscribe allNames), .disconnect 1] :=
  always_subscribersCounted 0 ⟨0⟩ (some ∅) openWorld _ (by decide)

/-- A channel that unsubscribes a range that it never held takes away the subscriber of another one,
and `check` unloads the keyspace. -/
theorem not_always_subscribersCounted : ¬ Always (Run.total step) SubscribersCounted (new ℕ ℕ 0 ⟨0⟩ (some ∅) openWorld)
        [.add 1, .add 2, .receive 1 (.Subscribe allNames), .receive 2 (.Unsubscribe allNames),
        .check fun _ _ => false] ∧
      ¬ EveryStep (Run.total step) (fun s op => UnloadsUnused s (s.step op)) (new ℕ ℕ 0 ⟨0⟩ (some ∅) openWorld)
        [.add 1, .add 2, .receive 1 (.Subscribe allNames), .receive 2 (.Unsubscribe allNames),
          .check fun _ _ => false] := by
  constructor
  · intro h
    exact absurd ((h.last rfl).count allNames.keyspace) (by decide)
  · intro h
    have hlast := h [.add 1, .add 2, .receive 1 (.Subscribe allNames),
      .receive 2 (.Unsubscribe allNames)] (.check fun _ _ => false) _ prefix_rfl rfl
    exact absurd (hlast allNames.keyspace (by decide) (by decide)) (by decide)

end SharedState.KeyspaceManager
