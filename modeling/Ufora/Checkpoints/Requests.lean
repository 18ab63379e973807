import Ufora.Checkpoints.CheckpointStatusesKernel

/-!
# One request for a computation

Three of the four entry points that fill the tables of next times know whether a request is in flight:
`finalizeCheckpoint` has just taken it away, and `triggerCheckpointIfPossible` looks.
`computationStatusReceived` does not look: a client may trigger a checkpoint of a computation before its first
status is received. So no computation has two requests outstanding exactly in those runs in which every first
status comes in time (`single_iff_firstStatusInTime`).
-/

open Ordered Effect List Finmap StdMap MapWithIndex Option System Cumulus.CheckpointStatusesKernel.System

namespace Cumulus.CheckpointStatusesKernel

variable {κ τ : Type} [LinearOrder κ] [LinearOrder τ] {s s' : CheckpointStatusesKernel κ τ}

/-! ## The requests that are taken -/

/-- A computation that comes first in a table is in it. -/
theorem hasKey_of_firstBefore {table : MapWithIndex κ τ} {now : τ} {c : κ}
    (h : firstBefore table now = some c) : table.hasKey c := by
  unfold firstBefore at h
  cases hl : table.lowestValue with
  | none =>
    rw [hl] at h
    cases h
  | some lowest =>
    rw [hl] at h
    change (if lowest < now then (ascending (table.getKeys lowest)).head? else none) = some c at h
    split at h
    · exact hasKey_iff.2 ⟨lowest, tryGetValue_of_head? h⟩
    · cases h

theorem wp_checkpointInitiated {Q : Unit → CheckpointStatusesKernel κ τ → Prop}
    {E : KernelError → CheckpointStatusesKernel κ τ → Prop} {r : CheckpointRequest κ τ} :
    wp (checkpointInitiated r) Q E s ↔
      if ¬ s.hasOutstandingCheckpointRequest r.rootComputation then Q () (s.initiated r)
      else E .alreadyOutstanding s := by
  unfold checkpointInitiated
  rw [wp_bind, wp_get, wp_bind, wp_lassert]
  split
  · rw [wp_modify]
  · exact Iff.rfl

/-- A request that is taken is for a computation without one; where the assertion fails, a computation with a
request is in a table. While paused, no request writes to storage. -/
theorem wp_nextCheckpointToRequest (s : CheckpointStatusesKernel κ τ) (now : τ) :
    wp (nextCheckpointToRequest now)
      (fun request s' => request = none ∧ s' = s ∨ ∃ r, request = some r ∧ s' = s.initiated r ∧
        ¬ s.hasOutstandingCheckpointRequest r.rootComputation ∧
        (r.writeToStorage = true → s.mNewCommittedCheckpointsPaused = false))
      (fun _ s' => s' = s ∧ ∃ c, s.hasOutstandingCheckpointRequest c ∧
        (s.mNextCheckpointTime.hasKey c ∨ s.mNextCommittedCheckpointTime.hasKey c)) s := by
  have hinitiated : ∀ r, (s.mNextCheckpointTime.hasKey r.rootComputation ∨
        s.mNextCommittedCheckpointTime.hasKey r.rootComputation) →
      (r.writeToStorage = true → s.mNewCommittedCheckpointsPaused = false) →
      wp (do checkpointInitiated r; return some r)
        (fun request s' => request = none ∧ s' = s ∨ ∃ r, request = some r ∧ s' = s.initiated r ∧
          ¬ s.hasOutstandingCheckpointRequest r.rootComputation ∧
          (r.writeToStorage = true → s.mNewCommittedCheckpointsPaused = false))
        (fun _ s' => s' = s ∧ ∃ c, s.hasOutstandingCheckpointRequest c ∧
          (s.mNextCheckpointTime.hasKey c ∨ s.mNextCommittedCheckpointTime.hasKey c)) s := by
    intro r htable hpaused
    rw [wp_bind, wp_checkpointInitiated]
    split
    · next hno => exact .inr ⟨r, rfl, rfl, hno, hpaused⟩
    · next hout => exact ⟨rfl, r.rootComputation, not_not.1 hout, htable⟩
  unfold nextCheckpointToRequest
  rw [wp_bind, wp_get]
  split
  · next comp hcomp =>
    split at hcomp
    · cases hcomp
    · next hpaused =>
      exact hinitiated ⟨now, true, comp⟩ (.inr (hasKey_of_firstBefore hcomp)) fun _ =>
        Bool.eq_false_iff.2 hpaused
  · split
    · next comp hcomp =>
      exact hinitiated ⟨now, false, comp⟩ (.inl (hasKey_of_firstBefore hcomp)) (by simp)
    · exact .inl ⟨rfl, rfl⟩

/-! ## What the callers know -/

/-- The requests that the callers know to be outstanding are those in flight, each once. -/
structure System.Linked (s : System κ τ) : Prop where
  nodup : s.outstanding.Nodup
  keyed : ∀ c r, lookup c s.kernel.mInFlightCheckpointRequests = some r → r.rootComputation = c
  mem : ∀ r, r ∈ s.outstanding ↔ lookup r.rootComputation s.kernel.mInFlightCheckpointRequests = some r

variable {t t' : System κ τ}

theorem System.Linked.congr (h : t.Linked) (hout : t'.outstanding = t.outstanding)
    (hflight : t'.kernel.mInFlightCheckpointRequests = t.kernel.mInFlightCheckpointRequests) :
    t'.Linked := by
  refine ⟨hout ▸ h.nodup, ?_, fun r => ?_⟩
  · rw [hflight]
    exact h.keyed
  · rw [hout, hflight]
    exact h.mem r

/-- A request is taken for a computation that has none. -/
theorem System.Linked.taken (h : t.Linked) {r : CheckpointRequest κ τ}
    (hno : ¬ t.kernel.hasOutstandingCheckpointRequest r.rootComputation)
    (hout : t'.outstanding = t.outstanding ++ [r]) (hkernel : t'.kernel = t.kernel.initiated r) :
    t'.Linked := by
  have hnone : lookup r.rootComputation t.kernel.mInFlightCheckpointRequests = none := lookup_eq_none.2 hno
  have hlookup : ∀ c, lookup c t'.kernel.mInFlightCheckpointRequests =
      if c = r.rootComputation then some r else lookup c t.kernel.mInFlightCheckpointRequests := by
    intro c
    rw [hkernel]
    exact lookup_insert _ _ _ _
  have hnew : r ∉ t.outstanding := fun hmem => by
    cases hnone.symm.trans ((h.mem r).1 hmem)
  refine ⟨?_, fun c x hx => ?_, fun x => ?_⟩
  · rw [hout, nodup_append]
    refine ⟨h.nodup, nodup_singleton r, fun a ha b hb hab => ?_⟩
    rw [List.mem_singleton.1 hb] at hab
    exact hnew (hab ▸ ha)
  · rw [hlookup] at hx
    split at hx
    · next hc => rw [← some.inj hx, hc]
    · exact h.keyed c x hx
  · rw [hout, hlookup, mem_append, List.mem_singleton, h.mem]
    split
    · next hc =>
      rw [hc, hnone]
      exact ⟨fun hx => (hx.resolve_left nofun) ▸ rfl, fun hx => .inr (some.inj hx).symm⟩
    · next hc => exact or_iff_left fun hx => hc (hx ▸ rfl)

/-- A request that is outstanding is finalized. -/
theorem System.Linked.finalized (h : t.Linked) {r : CheckpointRequest κ τ} (hr : r ∈ t.outstanding)
    (hout : t'.outstanding = t.outstanding.erase r) (hflight : t'.kernel.mInFlightCheckpointRequests =
      erase r.rootComputation t.kernel.mInFlightCheckpointRequests) : t'.Linked := by
  refine ⟨hout ▸ h.nodup.erase r, fun c x hx => ?_, fun x => ?_⟩
  · rw [hflight, StdMap.lookup_erase] at hx
    split at hx
    · cases hx
    · exact h.keyed c x hx
  · rw [hout, h.nodup.mem_erase_iff, h.mem, hflight, StdMap.lookup_erase]
    split
    · next hc =>
      rw [hc, (h.mem r).1 hr]
      exact iff_of_false (fun hx => hx.1 (some.inj hx.2).symm) nofun
    · next hc => exact and_iff_right fun hx => hc (hx ▸ rfl)

section
variable [Zero τ] [Add τ]

@[simp] theorem inFlight_triggerCheckpointIfPossible (s : CheckpointStatusesKernel κ τ) (c : κ)
    (now : τ) : (s.triggerCheckpointIfPossible c now).mInFlightCheckpointRequests =
      s.mInFlightCheckpointRequests := by
  unfold triggerCheckpointIfPossible
  split
  · rfl
  split
  · rfl
  dsimp only
  split <;> rfl

/-- A loop of triggers keeps what one trigger keeps. -/
theorem triggerCheckpointsOnAllOutstanding_induction {P : CheckpointStatusesKernel κ τ → Prop} {now : τ}
    (hP : ∀ s c, P s → P (s.triggerCheckpointIfPossible c now)) (h : P s) :
    P (s.triggerCheckpointsOnAllOutstanding now) := by
  unfold triggerCheckpointsOnAllOutstanding
  generalize ascending s.mFirstObservedTimestamp.keys = l
  induction l generalizing s with
  | nil => exact h
  | cons c l ih => exact ih (hP s c h)

variable (s)

@[simp] theorem inFlight_computationStatusReceived (c : κ) (now : τ) :
    (s.computationStatusReceived c now).mInFlightCheckpointRequests = s.mInFlightCheckpointRequests := by
  unfold computationStatusReceived
  split <;> rfl

omit [Zero τ] [Add τ] in
@[simp] theorem inFlight_checkpointLoaded (r : CheckpointRequest κ τ) (wasFinished : Bool) :
    (s.checkpointLoaded r wasFinished).mInFlightCheckpointRequests = s.mInFlightCheckpointRequests := by
  unfold checkpointLoaded
  split <;> rfl

theorem wp_checkpointCommitted (r : CheckpointRequest κ τ) (persisted : Bool) (now : τ) :
    wp (checkpointCommitted r persisted now) (fun _ s' => ∃ status, s' = finalizeCheckpoint
        { s with mCheckpointsPendingCommit := erase r s.mCheckpointsPendingCommit } r status now)
      (fun _ s' => s' = s) s := by
  unfold checkpointCommitted
  rw [wp_bind, wp_get]
  split
  · rfl
  · exact ⟨_, rfl⟩

/-- A reply finalizes an outstanding request, or leaves it pending commit. -/
theorem System.step_checkpointReceived {r : CheckpointRequest κ τ} {st : CheckpointStatus} {now : τ}
    (he : t.step (.checkpointReceived r st now) = some t') : r ∈ t.outstanding ∧
      ((r.writeToStorage = true → st.checkpointSuccessful = false) ∧ t' = { t with
          kernel := t.kernel.finalizeCheckpoint r st now, outstanding := t.outstanding.erase r } ∨
      r.writeToStorage = true ∧ t' = { t with
        kernel.mCheckpointsPendingCommit := Finmap.insert r st t.kernel.mCheckpointsPendingCommit }) := by
  unfold step checkpointReceived at he
  dsimp only at he
  split at he
  · next hr =>
    refine ⟨hr, ?_⟩
    split at he
    · next hfinal => exact .inl ⟨fun hw => by simpa [hw] using hfinal, (some.inj he).symm⟩
    · next hcommit =>
      rw [Bool.or_eq_true, not_or, Bool.not_eq_true', Bool.not_eq_false] at hcommit
      exact .inr ⟨hcommit.1, (some.inj he).symm⟩
  · cases he

/-- A commit finalizes an outstanding request, or changes nothing. -/
theorem System.step_checkpointCommitted {r : CheckpointRequest κ τ} {persisted : Bool} {now : τ}
    (he : t.step (.checkpointCommitted r persisted now) = some t') : t' = t ∨
      r ∈ t.outstanding ∧ ∃ status, t' = { t with
        kernel := finalizeCheckpoint { t.kernel with
          mCheckpointsPendingCommit := erase r t.kernel.mCheckpointsPendingCommit } r status now
        outstanding := t.outstanding.erase r } := by
  unfold step at he
  dsimp only at he
  split at he
  · next hr =>
    have hcall := wp_checkpointCommitted t.kernel r persisted now
    split at he
    · next hcommitted =>
      obtain rfl := some.inj he
      obtain ⟨status, rfl⟩ := hcall.of_ok hcommitted
      exact .inr ⟨hr, status, rfl⟩
    · next hthrown =>
      obtain rfl := some.inj he
      obtain rfl := hcall.of_error hthrown
      exact .inl rfl
  · cases he

/-- A request is taken, or nothing changes. -/
theorem System.step_nextCheckpointToRequest {now : τ}
    (he : t.step (.nextCheckpointToRequest now) = some t') : t' = t ∨
      ∃ r, t' = { t with kernel := t.kernel.initiated r, outstanding := t.outstanding ++ [r] } ∧
        ¬ t.kernel.hasOutstandingCheckpointRequest r.rootComputation ∧
        (r.writeToStorage = true → t.kernel.mNewCommittedCheckpointsPaused = false) := by
  unfold step at he
  dsimp only at he
  have hcall := wp_nextCheckpointToRequest t.kernel now
  split at he
  · next hreturned =>
    obtain rfl := some.inj he
    obtain ⟨rfl, rfl⟩ | ⟨r, rfl, rfl, h⟩ := hcall.of_ok hreturned
    · exact .inl (by rw [Option.toList_none, append_nil])
    · exact .inr ⟨r, rfl, h⟩
  · next hthrown =>
    obtain rfl := some.inj he
    obtain ⟨rfl, -⟩ := hcall.of_error hthrown
    exact .inl rfl

theorem System.Linked.step (h : t.Linked) {op : Op κ τ} (he : t.step op = some t') : t'.Linked := by
  cases op with
  | computationStatusReceived c now =>
    obtain rfl := some.inj he
    exact h.congr rfl (inFlight_computationStatusReceived _ _ _)
  | checkpointLoaded r wasFinished =>
    obtain rfl := some.inj he
    exact h.congr rfl (inFlight_checkpointLoaded _ _ _)
  | checkpointReceived r status now =>
    obtain ⟨hr, ⟨-, rfl⟩ | ⟨-, rfl⟩⟩ := step_checkpointReceived he
    · exact h.finalized hr rfl rfl
    · exact h.congr rfl rfl
  | checkpointCommitted r persisted now =>
    obtain rfl | ⟨hr, status, rfl⟩ := step_checkpointCommitted he
    · exact h
    · exact h.finalized hr rfl rfl
  | nextCheckpointToRequest now =>
    obtain rfl | ⟨r, rfl, hno, -⟩ := step_nextCheckpointToRequest he
    · exact h
    · exact h.taken hno rfl rfl
  | setCheckpointStatusInterval interval =>
    obtain rfl := some.inj he
    exact h.congr rfl rfl
  | triggerCheckpointIfPossible c now =>
    obtain rfl := some.inj he
    exact h.congr rfl (inFlight_triggerCheckpointIfPossible _ _ _)
  | triggerCheckpointsOnAllOutstanding now =>
    obtain rfl := some.inj he
    refine h.congr rfl (triggerCheckpointsOnAllOutstanding_induction
      (P := fun s => s.mInFlightCheckpointRequests = t.kernel.mInFlightCheckpointRequests)
      (fun s c hs => ?_) rfl)
    rw [inFlight_triggerCheckpointIfPossible, hs]
  | pauseNewCommittedCheckpoints | resumeNewCommittedCheckpoints =>
    obtain rfl := some.inj he
    exact h.congr rfl rfl
  | canBroadcastAfterPause =>
    obtain rfl := some.inj he
    refine h.congr rfl ?_
    show t.kernel.canBroadcastAfterPause.2.mInFlightCheckpointRequests = _
    unfold canBroadcastAfterPause
    split <;> rfl

omit [Zero τ] [Add τ] in
theorem linked_start (interval : τ) (policy : CumulusCheckpointPolicy τ) :
    (start interval policy : System κ τ).Linked where
  nodup := nodup_nil
  keyed c r hr := by cases (lookup_empty c).symm.trans hr
  mem r := iff_of_false not_mem_nil fun hr => by cases (lookup_empty _).symm.trans hr

/-- After any operations, the requests that the callers know to be outstanding are those in flight. -/
theorem always_linked (interval : τ) (policy : CumulusCheckpointPolicy τ) (ops : List (Op κ τ)) :
    Run.Always step Linked (start interval policy) ops :=
  Run.always (linked_start interval policy) fun _ _ _ h he => h.step he

end

/-! ## The tables -/

/-- A computation with an outstanding request is in neither table. -/
def Untabled (s : CheckpointStatusesKernel κ τ) : Prop := ∀ c, s.hasOutstandingCheckpointRequest c →
    ¬ s.mNextCheckpointTime.hasKey c ∧ ¬ s.mNextCommittedCheckpointTime.hasKey c

/-- No computation has two requests outstanding, one that has one is in neither table, and the assertion in
`checkpointInitiated` does not fire. -/
structure System.Single (s : System κ τ) : Prop where
  once : (s.outstanding.map CheckpointRequest.rootComputation).Nodup
  untabled : ∀ r ∈ s.outstanding, ¬ s.kernel.mNextCheckpointTime.hasKey r.rootComputation ∧
    ¬ s.kernel.mNextCommittedCheckpointTime.hasKey r.rootComputation
  asserted : ∀ now, wp (nextCheckpointToRequest now) (fun _ _ => True) (fun _ _ => False) s.kernel

theorem System.Linked.single_iff (h : t.Linked) : t.Single ↔ Untabled t.kernel := by
  constructor
  · intro hs c hc
    obtain ⟨r, hr⟩ := mem_keys_iff.1 (mem_keys.2 hc)
    have hout := (h.mem r).2 (by rw [h.keyed c r hr, hr])
    exact h.keyed c r hr ▸ hs.untabled r hout
  · intro hu
    refine ⟨?_, fun r hr => hu _ ?_, fun now => ?_⟩
    · refine (nodup_map_iff_inj_on h.nodup).2 fun r hr r' hr' he => ?_
      have hlookup := (h.mem r).1 hr
      rw [he, (h.mem r').1 hr'] at hlookup
      exact (some.inj hlookup).symm
    · exact mem_keys.1 (mem_keys_iff.2 ⟨r, (h.mem r).1 hr⟩)
    · refine (wp_nextCheckpointToRequest t.kernel now).mono (fun _ _ _ => trivial) fun _ s' hs' => ?_
      obtain ⟨-, c, hc, htable⟩ := hs'
      exact htable.elim (hu c hc).1 (hu c hc).2

theorem hasKey_setTime {table : MapWithIndex κ τ} {c d : κ} {time : Option τ} :
    (setTime table c time).hasKey d ↔ d = c ∧ time ≠ none ∨ table.hasKey d := by
  cases time with
  | none => exact (or_iff_right fun h => h.2 rfl).symm
  | some time =>
    show (table.set c time).hasKey d ↔ _
    rw [hasKey_set]
    exact or_congr (and_iff_left nofun).symm Iff.rfl

variable [Zero τ] [Add τ]

section

variable (h : Untabled s)
include h

/-- The tables are refilled rightly where no request is outstanding, or where there is no next time. -/
theorem Untabled.setNextCheckpointTimestamps_iff {c : κ} {now : τ} :
    Untabled (s.setNextCheckpointTimestamps c now) ↔ (s.hasOutstandingCheckpointRequest c →
      s.nextRegularCheckpointFor c now = none ∧ s.nextCommittedCheckpointFor c = none) := by
  have hkey : ∀ d, (¬ (s.setNextCheckpointTimestamps c now).mNextCheckpointTime.hasKey d ∧
      ¬ (s.setNextCheckpointTimestamps c now).mNextCommittedCheckpointTime.hasKey d) ↔
      (d = c → s.nextRegularCheckpointFor c now = none ∧ s.nextCommittedCheckpointFor c = none) ∧
      ¬ s.mNextCheckpointTime.hasKey d ∧ ¬ s.mNextCommittedCheckpointTime.hasKey d := by
    intro d
    show ¬ (setTime _ c _).hasKey d ∧ ¬ (setTime _ c _).hasKey d ↔ _
    rw [hasKey_setTime, hasKey_setTime]
    tauto
  constructor
  · exact fun hu hc => ((hkey c).1 (hu c hc)).1 rfl
  · exact fun hnone d hd => (hkey d).2 ⟨fun hdc => hnone (hdc ▸ hd), h d hd⟩

/-- The tables are refilled where no request is outstanding. -/
theorem Untabled.setNextCheckpointTimestamps {c : κ} (hno : ¬ s.hasOutstandingCheckpointRequest c) (now : τ) :
    Untabled (s.setNextCheckpointTimestamps c now) :=
  h.setNextCheckpointTimestamps_iff.2 fun hc => absurd hc hno

omit [Zero τ] [Add τ] in
theorem Untabled.of_inFlight (hflight : s'.mInFlightCheckpointRequests = s.mInFlightCheckpointRequests)
    (hnext : s'.mNextCheckpointTime = s.mNextCheckpointTime)
    (hcommitted : s'.mNextCommittedCheckpointTime = s.mNextCommittedCheckpointTime) : Untabled s' := by
  unfold Untabled hasOutstandingCheckpointRequest
  rw [hflight, hnext, hcommitted]
  exact h

theorem Untabled.triggerCheckpointIfPossible (c : κ) (now : τ) :
    Untabled (s.triggerCheckpointIfPossible c now) := by
  unfold CheckpointStatusesKernel.triggerCheckpointIfPossible
  split
  · exact h
  split
  · exact h
  dsimp only
  split
  · exact h.of_inFlight rfl rfl rfl
  · next hno =>
    apply setNextCheckpointTimestamps
    · exact h.of_inFlight rfl rfl rfl
    · exact hno

theorem Untabled.finalizeCheckpoint (r : CheckpointRequest κ τ) (st : CheckpointStatus)
    (now : τ) : Untabled (s.finalizeCheckpoint r st now) := by
  apply setNextCheckpointTimestamps
  · exact fun c hc => h c (mem_erase.1 hc).2
  · exact fun hc => (mem_erase.1 hc).1 rfl

omit [Zero τ] [Add τ] in
theorem Untabled.initiated (r : CheckpointRequest κ τ) : Untabled (s.initiated r) := by
  intro c hc
  show ¬ (s.mNextCheckpointTime.discard _).hasKey c ∧ ¬ (s.mNextCommittedCheckpointTime.discard _).hasKey c
  rw [hasKey_discard, hasKey_discard]
  by_cases hr : c = r.rootComputation
  · exact ⟨fun hk => hk.1 hr, fun hk => hk.1 hr⟩
  · have hc' := h c ((mem_insert.1 hc).resolve_left hr)
    exact ⟨fun hk => hc'.1 hk.2, fun hk => hc'.2 hk.2⟩

/-! ## Runs -/

end

/-- A first status comes while the computation has no request outstanding, or when it gets no next time. -/
def Op.FirstStatusInTime (s : System κ τ) : Op κ τ → Prop
  | .computationStatusReceived computation now =>
    computation ∈ s.kernel.mFirstObservedTimestamp ∨
    ¬ s.kernel.hasOutstandingCheckpointRequest computation ∨
    ((s.kernel.observed computation now).nextRegularCheckpointFor computation now = none ∧
      (s.kernel.observed computation now).nextCommittedCheckpointFor computation = none)
  | _ => True

theorem Untabled.step_iff (h : Untabled t.kernel) {op : Op κ τ} (he : t.step op = some t') :
    Untabled t'.kernel ↔ op.FirstStatusInTime t := by
  cases op with
  | computationStatusReceived c now =>
    obtain rfl := some.inj he
    show Untabled (t.kernel.computationStatusReceived c now) ↔ _ ∨ _
    unfold computationStatusReceived
    split
    · next hc => exact iff_of_true h (.inl hc)
    · next hc =>
      rw [or_iff_right hc, ← imp_iff_not_or]
      have hobserved : Untabled (t.kernel.observed c now) := h.of_inFlight rfl rfl rfl
      exact hobserved.setNextCheckpointTimestamps_iff
  | checkpointLoaded r wasFinished =>
    obtain rfl := some.inj he
    refine iff_of_true ?_ trivial
    unfold checkpointLoaded
    split
    · exact h
    · exact h.of_inFlight rfl rfl rfl
  | checkpointReceived r status now =>
    refine iff_of_true ?_ trivial
    obtain ⟨-, ⟨-, rfl⟩ | ⟨-, rfl⟩⟩ := step_checkpointReceived he
    · exact h.finalizeCheckpoint r status now
    · exact h.of_inFlight rfl rfl rfl
  | checkpointCommitted r persisted now =>
    refine iff_of_true ?_ trivial
    obtain rfl | ⟨-, status, rfl⟩ := step_checkpointCommitted he
    · exact h
    · exact finalizeCheckpoint (h.of_inFlight rfl rfl rfl) r status now
  | nextCheckpointToRequest now =>
    refine iff_of_true ?_ trivial
    obtain rfl | ⟨r, rfl, -⟩ := step_nextCheckpointToRequest he
    · exact h
    · exact h.initiated r
  | setCheckpointStatusInterval interval =>
    obtain rfl := some.inj he
    exact iff_of_true (h.of_inFlight rfl rfl rfl) trivial
  | triggerCheckpointIfPossible c now =>
    obtain rfl := some.inj he
    exact iff_of_true (h.triggerCheckpointIfPossible c now) trivial
  | triggerCheckpointsOnAllOutstanding now =>
    obtain rfl := some.inj he
    refine iff_of_true ?_ trivial
    exact triggerCheckpointsOnAllOutstanding_induction (fun s c hs => hs.triggerCheckpointIfPossible c now) h
  | pauseNewCommittedCheckpoints | resumeNewCommittedCheckpoints =>
    obtain rfl := some.inj he
    exact iff_of_true (h.of_inFlight rfl rfl rfl) trivial
  | canBroadcastAfterPause =>
    obtain rfl := some.inj he
    refine iff_of_true ?_ trivial
    show Untabled t.kernel.canBroadcastAfterPause.2
    unfold canBroadcastAfterPause
    split
    · exact h.of_inFlight rfl rfl rfl
    · exact h

/-- A computation never has two requests outstanding exactly in those runs in which every first status comes
in time. -/
theorem single_iff_firstStatusInTime (interval : τ) (policy : CumulusCheckpointPolicy τ)
    (ops : List (Op κ τ)) : Run.Always step Single (.start interval policy) ops ↔
      Run.EveryStep step (fun s op => op.FirstStatusInTime s) (.start interval policy) ops := by
  refine Run.always_iff_everyStep (linked_start interval policy)
    ((linked_start interval policy).single_iff.2 fun c hc => absurd hc ?_)
    (fun s op s' hs he => hs.step he) (fun s op s' hs hsingle he => ?_) fun s op _ _ hnone => ?_
  · exact notMem_empty
  · rw [(hs.step he).single_iff]
    exact (hs.single_iff.1 hsingle).step_iff he
  · cases op with
    | computationStatusReceived c now => cases hnone
    | _ => trivial

/-- A client triggers a checkpoint of a computation, the request is taken, and then the first status of the
computation comes. -/
theorem not_single : ¬ Run.Always step Single (.start 1 .None : System ℕ ℕ)
    [.triggerCheckpointIfPossible 0 0, .nextCheckpointToRequest 1, .computationStatusReceived 0 1] := by
  intro h
  obtain ⟨s, hs, hlate⟩ := h.any (p := fun s => ∃ r ∈ s.outstanding,
    s.kernel.mNextCheckpointTime.hasKey r.rootComputation) (by decide +kernel)
  obtain ⟨r, hr, hkey⟩ := of_decide_eq_true hlate
  exact (hs.untabled r hr).1 hkey

end Cumulus.CheckpointStatusesKernel
