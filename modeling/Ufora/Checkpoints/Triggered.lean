import Ufora.Checkpoints.Requests

/-!
# Triggered checkpoints

A computation that a client has triggered a checkpoint of stays on a list until a successful checkpoint of it
is committed, and clients wait for the list to become empty. A trigger puts no computation on the list that
is finished and checkpointed, but `checkpointLoaded` makes one so and leaves it there. When its last request is
finalized, it gets no next time any more and nothing will take it off the list. The same happens to a computation
of which no status was received, once it is finished. `always_notStranded_iff` says for which runs every computation
on the list still has a request or a next time.
-/

open Ordered Effect Run Finset Finmap Option MapWithIndex Cumulus.CheckpointStatusesKernel.ReceivedCheckpoint

namespace Cumulus.CheckpointStatusesKernel

variable {κ τ : Type} [LinearOrder κ] [LinearOrder τ] (s : CheckpointStatusesKernel κ τ)

/-- A request of the computation is in flight, or it has a next time. -/
def Cared (computation : κ) : Prop :=
  s.hasOutstandingCheckpointRequest computation ∨ s.mNextCheckpointTime.hasKey computation ∨
    s.mNextCommittedCheckpointTime.hasKey computation

/-- No computation that needs a commit is stranded. -/
def NotStranded : Prop := ∀ c ∈ s.mComputationsNeedingImmediateCommit, s.Cared c

/-- No computation that needs a commit has one that is final. -/
def Uncommitted : Prop := ∀ c ∈ s.mComputationsNeedingImmediateCommit,
    ¬ (lookup c s.mCommittedCheckpointStatuses).any isFinal

/-- There is no checkpoint of the computation, or it was not loaded as a finished one and has been observed if
its last checkpoint is final. -/
def GetsTime (computation : κ) : Prop := computation ∉ s.mCheckpointStatuses ∨
    computation ∉ s.mFinishedComputationsLoadedFromCheckpoint ∧
      ((lookup computation s.mCheckpointStatuses).any isFinal →
        computation ∈ s.mFirstObservedTimestamp)

/-- When this checkpoint is finalized, its computation gets off the list, has a next time already or gets
one: it was not loaded as a finished one, and it has been observed if the checkpoint is final. -/
def Reschedules (checkpoint : CheckpointRequest κ τ) (status : CheckpointStatus) : Prop :=
  checkpoint.rootComputation ∈ s.mComputationsNeedingImmediateCommit →
    checkpoint.writeToStorage && status.checkpointSuccessful ∨
    s.mNextCheckpointTime.hasKey checkpoint.rootComputation ∨
    s.mNextCommittedCheckpointTime.hasKey checkpoint.rootComputation ∨
    checkpoint.rootComputation ∉ s.mFinishedComputationsLoadedFromCheckpoint ∧
      (status.checkpointSuccessful && status.isRootComputationFinished →
        checkpoint.rootComputation ∈ s.mFirstObservedTimestamp)

variable [Zero τ] [Add τ]

/-- What a call leaves, also where an assertion fails. Replies and commits may come for any request. -/
def afterCall (s : CheckpointStatusesKernel κ τ) : Op κ τ → CheckpointStatusesKernel κ τ
  | .computationStatusReceived computation now => s.computationStatusReceived computation now
  | .checkpointLoaded checkpoint wasFinished => s.checkpointLoaded checkpoint wasFinished
  | .checkpointReceived request status now => (s.checkpointReceived request status now).2
  | .checkpointCommitted checkpoint allDataPersistedSuccessfully now =>
    exec (checkpointCommitted checkpoint allDataPersistedSuccessfully now) s
  | .nextCheckpointToRequest now => exec (nextCheckpointToRequest now) s
  | .setCheckpointStatusInterval inInterval => s.setCheckpointStatusInterval inInterval
  | .triggerCheckpointIfPossible computation now => s.triggerCheckpointIfPossible computation now
  | .triggerCheckpointsOnAllOutstanding now => s.triggerCheckpointsOnAllOutstanding now
  | .pauseNewCommittedCheckpoints => s.pauseNewCommittedCheckpoints
  | .resumeNewCommittedCheckpoints => s.resumeNewCommittedCheckpoints
  | .canBroadcastAfterPause => s.canBroadcastAfterPause.2

/-- The call strands no computation: every checkpoint that it finalizes reschedules its computation, and a
computation that it puts on the list has a request or a next time, or gets one. -/
def Op.Reschedules (s : CheckpointStatusesKernel κ τ) : Op κ τ → Prop
  | .checkpointReceived request status _ =>
    !request.writeToStorage || !status.checkpointSuccessful → s.Reschedules request status
  | .checkpointCommitted checkpoint allDataPersistedSuccessfully _ =>
    ∀ status ∈ lookup checkpoint s.mCheckpointsPendingCommit, s.Reschedules checkpoint
      (if allDataPersistedSuccessfully then status else status.withCheckpointError)
  | .triggerCheckpointIfPossible computation _ =>
    ¬ s.isFinishedAndCheckpointed computation →
      computation ∉ s.mComputationsNeedingImmediateCommit → s.Cared computation ∨ s.GetsTime computation
  | _ => True

/-! ## The next times -/

variable {s s' : CheckpointStatusesKernel κ τ} {c d : κ} {now : τ}

omit [Zero τ] in
theorem isSome_nextRegularCheckpointFor : (s.nextRegularCheckpointFor c now).isSome ↔
    c ∉ s.mCheckpointStatuses ∨ s.isFinishedAndCheckpointStatusIsUpToDate c = false := by
  unfold nextRegularCheckpointFor
  cases hl : lookup c s.mCheckpointStatuses with
  | none => simp [lookup_eq_none.1 hl]
  | some received =>
    have hmem : c ∈ s.mCheckpointStatuses := mem_keys.1 (StdMap.mem_keys_iff.2 ⟨received, hl⟩)
    simp [hmem]

section

variable (hn : c ∈ s.mComputationsNeedingImmediateCommit)
include hn

omit [Add τ] in
theorem isSome_commitInterval (st : CheckpointStatus) : (s.commitInterval c st).isSome := by
  simp only [commitInterval, if_pos hn, bind_eq_bind, bind_some]
  split <;> rfl

/-- A computation that needs a commit gets a time for it when it has been observed and has a status, unless it
is finished and checkpointed. -/
theorem isSome_nextCommittedCheckpointFor :
    (s.nextCommittedCheckpointFor c).isSome ↔ s.isFinishedAndCheckpointed c = false ∧
      c ∈ s.mFirstObservedTimestamp ∧ c ∈ s.mCheckpointStatuses := by
  unfold nextCommittedCheckpointFor
  simp only [← lookup_isSome]
  cases hf : s.isFinishedAndCheckpointed c with
  | true => simp
  | false =>
    cases ho : lookup c s.mFirstObservedTimestamp with
    | none => simp
    | some first =>
      cases hl : lookup c s.mCheckpointStatuses with
      | none => simp
      | some received =>
        obtain ⟨interval, hi⟩ := isSome_iff_exists.1 (isSome_commitInterval hn received.status)
        cases hc : lookup c s.mCommittedCheckpointStatuses <;> simp [hi]

/-- A computation that needs a commit gets one of the two times exactly when it `GetsTime`. -/
theorem isSome_nextTimes
    (hf : ¬ (lookup c s.mCommittedCheckpointStatuses).any isFinal) :
    (s.nextRegularCheckpointFor c now).isSome ∨ (s.nextCommittedCheckpointFor c).isSome ↔ s.GetsTime c := by
  rw [isSome_nextRegularCheckpointFor, isSome_nextCommittedCheckpointFor hn]
  simp only [isFinishedAndCheckpointStatusIsUpToDate, isFinishedAndCheckpointed, GetsTime,
    Bool.eq_false_iff.2 hf, Bool.or_eq_false_iff, decide_eq_false_iff_not]
  cases (lookup c s.mCheckpointStatuses).any isFinal <;> simp <;> tauto

/-! ## Stranded computations -/

end

theorem cared_setNextCheckpointTimestamps : (s.setNextCheckpointTimestamps c now).Cared d ↔
    s.Cared d ∨ d = c ∧ ((s.nextRegularCheckpointFor c now).isSome ∨ (s.nextCommittedCheckpointFor c).isSome) := by
  simp only [Cared, setNextCheckpointTimestamps, hasKey_setTime, hasOutstandingCheckpointRequest, isSome_iff_ne_none]
  tauto

/-- New times strand no computation but the one that they are for, and that one only where it gets none. -/
theorem notStranded_setNextCheckpointTimestamps_iff (hu : s.Uncommitted)
    (h : ∀ d ∈ s.mComputationsNeedingImmediateCommit, d ≠ c → s.Cared d) :
    (s.setNextCheckpointTimestamps c now).NotStranded ↔
      (c ∈ s.mComputationsNeedingImmediateCommit → s.Cared c ∨ s.GetsTime c) := by
  constructor
  · intro hs hn
    have := cared_setNextCheckpointTimestamps.1 (hs c hn)
    rwa [eq_self, true_and, isSome_nextTimes hn (hu c hn)] at this
  · intro hc d hd
    rw [cared_setNextCheckpointTimestamps]
    have hd' : d ∈ s.mComputationsNeedingImmediateCommit := hd
    rcases eq_or_ne d c with rfl | hne
    · rw [eq_self, true_and, isSome_nextTimes hd' (hu d hd')]
      exact hc hd'
    · exact .inl (h d hd' hne)

/-- What `finalizeCheckpoint` has done before it sets the next times. -/
def recorded (s : CheckpointStatusesKernel κ τ) (checkpoint : CheckpointRequest κ τ)
    (status : CheckpointStatus) (now : τ) : CheckpointStatusesKernel κ τ :=
  { s with
    mCheckpointStatuses := Finmap.insert checkpoint.rootComputation ⟨checkpoint, status, now⟩ s.mCheckpointStatuses
    mCommittedCheckpointStatuses :=
      if checkpoint.writeToStorage then
        Finmap.insert checkpoint.rootComputation ⟨checkpoint, status, now⟩ s.mCommittedCheckpointStatuses
      else s.mCommittedCheckpointStatuses
    mInFlightCheckpointRequests := erase checkpoint.rootComputation s.mInFlightCheckpointRequests
    mComputationsNeedingImmediateCommit :=
      if checkpoint.writeToStorage && status.checkpointSuccessful then
        s.mComputationsNeedingImmediateCommit.erase checkpoint.rootComputation
      else s.mComputationsNeedingImmediateCommit }

theorem finalizeCheckpoint_eq (r : CheckpointRequest κ τ) (st : CheckpointStatus) :
    s.finalizeCheckpoint r st now =
      (s.recorded r st now).setNextCheckpointTimestamps r.rootComputation now := rfl

omit [Zero τ] [Add τ] in
theorem mem_needing_recorded {r : CheckpointRequest κ τ} {st : CheckpointStatus} :
    c ∈ (s.recorded r st now).mComputationsNeedingImmediateCommit ↔ c ∈ s.mComputationsNeedingImmediateCommit ∧
        ¬ (c = r.rootComputation ∧ r.writeToStorage && st.checkpointSuccessful) := by
  simp only [recorded]
  split
  · next h => simp [h, and_comm]
  · next h => simp [h]

omit [Zero τ] [Add τ] in
theorem Uncommitted.recorded (h : s.Uncommitted) (r : CheckpointRequest κ τ) (st : CheckpointStatus) :
    (s.recorded r st now).Uncommitted := by
  intro c hc
  obtain ⟨hn, hr⟩ := mem_needing_recorded.1 hc
  have hold := h c hn
  simp only [CheckpointStatusesKernel.recorded]
  split
  · next hw =>
    rw [StdMap.lookup_insert]
    split
    · next hcr => simpa [hcr, hw, isFinal] using fun hs => absurd hs (by simpa [hcr, hw] using hr)
    · exact hold
  · exact hold

/-- A checkpoint that is finalized strands no computation exactly when it reschedules its own. -/
theorem notStranded_finalizeCheckpoint_iff (hu : s.Uncommitted) (h : s.NotStranded)
    (r : CheckpointRequest κ τ) (status : CheckpointStatus) :
    (s.finalizeCheckpoint r status now).NotStranded ↔ s.Reschedules r status := by
  have hother : ∀ d ∈ (s.recorded r status now).mComputationsNeedingImmediateCommit,
      d ≠ r.rootComputation → (s.recorded r status now).Cared d := by
    intro d hd hne
    refine (h d (mem_needing_recorded.1 hd).1).imp_left fun hf => ?_
    exact mem_erase.2 ⟨hne, hf⟩
  have hcared : (s.recorded r status now).Cared r.rootComputation ↔
      s.mNextCheckpointTime.hasKey r.rootComputation ∨ s.mNextCommittedCheckpointTime.hasKey r.rootComputation :=
    or_iff_right fun hf => (mem_erase.1 hf).1 rfl
  have htime : (s.recorded r status now).GetsTime r.rootComputation ↔
      r.rootComputation ∉ s.mFinishedComputationsLoadedFromCheckpoint ∧
        (status.checkpointSuccessful && status.isRootComputationFinished →
          r.rootComputation ∈ s.mFirstObservedTimestamp) := by
    simp [GetsTime, CheckpointStatusesKernel.recorded, isFinal]
  rw [finalizeCheckpoint_eq, notStranded_setNextCheckpointTimestamps_iff (hu.recorded r status) hother,
    mem_needing_recorded, hcared, htime, Reschedules]
  tauto

/-! ## One call -/

section
variable (hn : s'.mComputationsNeedingImmediateCommit = s.mComputationsNeedingImmediateCommit)
include hn

omit [Zero τ] [Add τ] in
/-- Where the list, the requests and the times are the same, so are the stranded computations. -/
theorem NotStranded.of_eq (h : s.NotStranded) (hf : s'.mInFlightCheckpointRequests = s.mInFlightCheckpointRequests)
    (ht : s'.mNextCheckpointTime = s.mNextCheckpointTime)
    (hc : s'.mNextCommittedCheckpointTime = s.mNextCommittedCheckpointTime) : s'.NotStranded := by
  intro c hm
  have := h c (hn ▸ hm)
  rwa [Cared, hasOutstandingCheckpointRequest, hf, ht, hc]

omit [Zero τ] [Add τ] in
theorem Uncommitted.of_eq (h : s.Uncommitted) (hc : s'.mCommittedCheckpointStatuses = s.mCommittedCheckpointStatuses) :
    s'.Uncommitted := by
  intro c hm
  rw [hc]
  exact h c (hn ▸ hm)

end

/-- The list with one more computation. -/
def needing (s : CheckpointStatusesKernel κ τ) (computation : κ) : CheckpointStatusesKernel κ τ := { s with
    mComputationsNeedingImmediateCommit := insert computation s.mComputationsNeedingImmediateCommit }

omit [Zero τ] [Add τ] in
theorem Uncommitted.needing (h : s.Uncommitted) (hf : s.isFinishedAndCheckpointed c = false) :
    (s.needing c).Uncommitted := by
  refine (forall_mem_insert _ _ _).2 ⟨fun hc => ?_, h⟩
  change (lookup c s.mCommittedCheckpointStatuses).any _ = true at hc
  rw [isFinishedAndCheckpointed, hc, Bool.or_true] at hf
  cases hf

theorem Uncommitted.triggerCheckpointIfPossible (h : s.Uncommitted) (c : κ) (now : τ) :
    (s.triggerCheckpointIfPossible c now).Uncommitted := by
  unfold CheckpointStatusesKernel.triggerCheckpointIfPossible
  split
  · exact h
  · next hf =>
    have hs := h.needing (Bool.eq_false_iff.2 hf)
    split
    · exact h
    · dsimp only
      split
      · exact hs
      · exact hs.of_eq rfl rfl

/-- A trigger strands no computation exactly when the one that it puts on the list has a request or a next
time or gets one. -/
theorem notStranded_triggerCheckpointIfPossible_iff (hu : s.Uncommitted) (h : s.NotStranded) :
    (s.triggerCheckpointIfPossible c now).NotStranded ↔ (¬ s.isFinishedAndCheckpointed c →
      c ∉ s.mComputationsNeedingImmediateCommit → s.Cared c ∨ s.GetsTime c) := by
  unfold triggerCheckpointIfPossible
  split
  · next hf => simp [hf, h]
  · next hf =>
    split
    · next hn => simp [hf, hn, h]
    · next hn =>
      have hother : ∀ d ∈ (s.needing c).mComputationsNeedingImmediateCommit, d ≠ c → (s.needing c).Cared d :=
        fun d hd hne => h d (mem_of_mem_insert_of_ne hd hne)
      have hmem : c ∈ (s.needing c).mComputationsNeedingImmediateCommit := mem_insert_self _ _
      dsimp only
      split
      · next hflight =>
        refine iff_of_true (fun d hd => ?_) fun _ _ => .inl (.inl hflight)
        rcases eq_or_ne d c with rfl | hne
        · exact .inl hflight
        · exact hother d hd hne
      · exact (notStranded_setNextCheckpointTimestamps_iff (hu.needing (Bool.eq_false_iff.2 hf)) hother).trans
          ⟨fun hc _ _ => hc hmem, fun hc _ => hc hf hn⟩

@[simp] theorem mFirstObservedTimestamp_triggerCheckpointIfPossible :
    (s.triggerCheckpointIfPossible c now).mFirstObservedTimestamp = s.mFirstObservedTimestamp := by
  simp only [triggerCheckpointIfPossible]
  split_ifs <;> rfl

theorem Uncommitted.triggerCheckpointsOnAllOutstanding (hu : s.Uncommitted) :
    (s.triggerCheckpointsOnAllOutstanding now).Uncommitted :=
  List.foldlRecOn _ _ hu fun _ h c _ => h.triggerCheckpointIfPossible c now

/-- The computations that have been observed are triggered without stranding any. -/
theorem NotStranded.triggerCheckpointsOnAllOutstanding (hu : s.Uncommitted) (h : s.NotStranded) :
    (s.triggerCheckpointsOnAllOutstanding now).NotStranded := by
  have hloop : ∀ (l : List κ) (s : CheckpointStatusesKernel κ τ), (∀ c ∈ l, c ∈ s.mFirstObservedTimestamp) →
      s.Uncommitted → s.NotStranded →
      (l.foldl (fun s c => s.triggerCheckpointIfPossible c now) s).NotStranded := by
    intro l
    induction l with
    | nil => exact fun s _ _ h => h
    | cons c l ih =>
      intro s hl hu h
      refine ih _ (fun d hd => ?_) (hu.triggerCheckpointIfPossible c now)
        ((notStranded_triggerCheckpointIfPossible_iff hu h).2 fun hf _ => .inr (.inr ⟨?_, ?_⟩))
      · rw [mFirstObservedTimestamp_triggerCheckpointIfPossible]
        exact hl d (List.mem_cons_of_mem c hd)
      · intro hloaded
        simp [isFinishedAndCheckpointed, hloaded] at hf
      · exact fun _ => hl c List.mem_cons_self
  exact hloop _ s (fun c hc => mem_keys.1 (mem_ascending.1 hc)) hu h

theorem exec_checkpointCommitted (s : CheckpointStatusesKernel κ τ) (r : CheckpointRequest κ τ) (persisted : Bool) :
    exec (checkpointCommitted r persisted now) s = match lookup r s.mCheckpointsPendingCommit with
      | none => s
      | some status => finalizeCheckpoint
        { s with mCheckpointsPendingCommit := erase r s.mCheckpointsPendingCommit } r
        (if persisted then status else status.withCheckpointError) now := by
  refine wp.exec (P := fun s' => s' = _) ?_
  unfold checkpointCommitted
  rw [wp_bind, wp_get]
  cases lookup r s.mCheckpointsPendingCommit <;> exact rfl

omit [Zero τ] [Add τ] in
/-- A request that is taken is in flight, and the tables lose its computation only. -/
theorem NotStranded.initiated (h : s.NotStranded) (r : CheckpointRequest κ τ) : (s.initiated r).NotStranded := by
  intro c hc
  rcases eq_or_ne c r.rootComputation with rfl | hne
  · exact .inl (mem_insert.2 (.inl rfl))
  · refine (h c hc).imp (fun hf => mem_insert.2 (.inr hf)) (Or.imp (fun ht => ?_) fun ht => ?_)
    · exact hasKey_discard.2 ⟨hne, ht⟩
    · exact hasKey_discard.2 ⟨hne, ht⟩

theorem Uncommitted.computationStatusReceived (hu : s.Uncommitted) :
    (s.computationStatusReceived c now).Uncommitted := by
  unfold CheckpointStatusesKernel.computationStatusReceived
  split
  · exact hu
  · exact hu.of_eq rfl rfl

theorem NotStranded.computationStatusReceived (hu : s.Uncommitted) (h : s.NotStranded) :
    (s.computationStatusReceived c now).NotStranded := by
  unfold CheckpointStatusesKernel.computationStatusReceived
  split
  · exact h
  · have hu' : (s.observed c now).Uncommitted := hu.of_eq rfl rfl
    have h' : (s.observed c now).NotStranded := h.of_eq rfl rfl rfl rfl
    exact (notStranded_setNextCheckpointTimestamps_iff hu' fun d hd _ => h' d hd).2 fun hc => .inl (h' c hc)

omit [Zero τ] [Add τ] in
/-- What `nextCheckpointToRequest` leaves: the same state, or one with a request more. -/
theorem exec_nextCheckpointToRequest (s : CheckpointStatusesKernel κ τ) (now : τ) :
    exec (nextCheckpointToRequest now) s = s ∨ ∃ r, exec (nextCheckpointToRequest now) s = s.initiated r := by
  refine wp.exec (P := fun s' : CheckpointStatusesKernel κ τ => s' = s ∨ ∃ r, s' = s.initiated r) ?_
  refine (wp_nextCheckpointToRequest s now).mono (fun _ s' h' => ?_) fun _ s' h' => .inl h'.1
  obtain ⟨-, rfl⟩ | ⟨r, -, rfl, -⟩ := h'
  · exact .inl rfl
  · exact .inr ⟨r, rfl⟩

theorem Uncommitted.finalizeCheckpoint (hu : s.Uncommitted) (r : CheckpointRequest κ τ)
    (st : CheckpointStatus) : (s.finalizeCheckpoint r st now).Uncommitted :=
  (hu.recorded r st).of_eq rfl rfl

theorem Uncommitted.afterCall (h : s.Uncommitted) (op : Op κ τ) : (s.afterCall op).Uncommitted := by
  cases op with
  | computationStatusReceived => exact h.computationStatusReceived
  | checkpointLoaded r wasFinished =>
    simp only [CheckpointStatusesKernel.afterCall, checkpointLoaded]
    split
    · exact h
    · exact h.of_eq rfl rfl
  | checkpointReceived r status now =>
    simp only [CheckpointStatusesKernel.afterCall, checkpointReceived]
    split
    · exact h.finalizeCheckpoint r status
    · exact h.of_eq rfl rfl
  | checkpointCommitted r persisted now =>
    simp only [CheckpointStatusesKernel.afterCall, exec_checkpointCommitted]
    split
    · exact h
    · exact finalizeCheckpoint (h.of_eq rfl rfl) r _
  | nextCheckpointToRequest now =>
    obtain he | ⟨r, he⟩ := exec_nextCheckpointToRequest s now
    · rwa [CheckpointStatusesKernel.afterCall, he]
    · rw [CheckpointStatusesKernel.afterCall, he]
      exact h.of_eq rfl rfl
  | triggerCheckpointIfPossible c now => exact h.triggerCheckpointIfPossible c now
  | triggerCheckpointsOnAllOutstanding => exact h.triggerCheckpointsOnAllOutstanding
  | setCheckpointStatusInterval | pauseNewCommittedCheckpoints | resumeNewCommittedCheckpoints =>
    exact h.of_eq rfl rfl
  | canBroadcastAfterPause =>
    simp only [CheckpointStatusesKernel.afterCall, canBroadcastAfterPause]
    split
    · exact h.of_eq rfl rfl
    · exact h

/-- A call strands no computation exactly when it meets its condition. -/
theorem notStranded_afterCall_iff (hu : s.Uncommitted) (h : s.NotStranded) (op : Op κ τ) :
    (s.afterCall op).NotStranded ↔ op.Reschedules s := by
  cases op with
  | computationStatusReceived => exact iff_of_true (h.computationStatusReceived hu) trivial
  | checkpointLoaded r wasFinished =>
    refine iff_of_true ?_ trivial
    simp only [afterCall, checkpointLoaded]
    split
    · exact h
    · exact h.of_eq rfl rfl rfl rfl
  | checkpointReceived r status now =>
    simp only [afterCall, checkpointReceived, Op.Reschedules]
    split
    · next hf =>
      exact (notStranded_finalizeCheckpoint_iff hu h r status).trans ⟨fun hr _ => hr, fun hr => hr hf⟩
    · next hf => exact iff_of_true (h.of_eq rfl rfl rfl rfl) fun hf' => absurd hf' hf
  | checkpointCommitted r persisted now =>
    simp only [afterCall, exec_checkpointCommitted, Op.Reschedules]
    cases lookup r s.mCheckpointsPendingCommit with
    | none => exact iff_of_true h nofun
    | some status =>
      have hu' : Uncommitted { s with
        mCheckpointsPendingCommit := erase r s.mCheckpointsPendingCommit } := hu.of_eq rfl rfl
      refine (notStranded_finalizeCheckpoint_iff hu' (h.of_eq rfl rfl rfl rfl) r _).trans
        ⟨fun hr status' hs => ?_, fun hr => hr status rfl⟩
      obtain rfl := some.inj hs
      exact hr
  | nextCheckpointToRequest now =>
    refine iff_of_true ?_ trivial
    obtain he | ⟨r, he⟩ := exec_nextCheckpointToRequest s now
    · rwa [afterCall, he]
    · rw [afterCall, he]
      exact h.initiated r
  | triggerCheckpointIfPossible => exact notStranded_triggerCheckpointIfPossible_iff hu h
  | triggerCheckpointsOnAllOutstanding =>
    exact iff_of_true (h.triggerCheckpointsOnAllOutstanding hu) trivial
  | setCheckpointStatusInterval | pauseNewCommittedCheckpoints | resumeNewCommittedCheckpoints =>
    exact iff_of_true (h.of_eq rfl rfl rfl rfl) trivial
  | canBroadcastAfterPause =>
    refine iff_of_true ?_ trivial
    simp only [afterCall, canBroadcastAfterPause]
    split
    · exact h.of_eq rfl rfl rfl rfl
    · exact h

/-! ## Runs -/

/-- The kernel at first. -/
def start (inCheckpointInterval : τ) (inCommitPolicy : CumulusCheckpointPolicy τ) : CheckpointStatusesKernel κ τ :=
  { mCommitPolicy := inCommitPolicy, mCheckpointInterval := inCheckpointInterval }

/-- Throughout a run every computation on the list has a request or a next time, exactly when every checkpoint
that is finalized reschedules its computation and every trigger finds or gives a time. -/
theorem always_notStranded_iff (interval : τ) (policy : CumulusCheckpointPolicy τ) (ops : List (Op κ τ)) :
    Always (total afterCall) NotStranded (start interval policy) ops ↔
      EveryStep (total afterCall) (fun s op => op.Reschedules s) (start interval policy) ops := by
  have hstart : ∀ c, c ∉ (start interval policy : CheckpointStatusesKernel κ τ).mComputationsNeedingImmediateCommit :=
    fun c => notMem_empty c
  refine always_iff_everyStep (I := Uncommitted) (fun c hc => absurd hc (hstart c))
    (fun c hc => absurd hc (hstart c)) ?_ ?_ nofun
  · intro s op s' hu he
    exact total_eq_some.1 he ▸ hu.afterCall op
  · intro s op s' hu h he
    exact total_eq_some.1 he ▸ notStranded_afterCall_iff hu h op

/-- A client triggers a checkpoint, and while its first request is in flight the computation is loaded as a
finished one. The request brings an unfinished checkpoint, and nothing takes the computation off the list. -/
theorem not_always_notStranded : ¬ Always (total afterCall) NotStranded
    (start 1 .None : CheckpointStatusesKernel ℕ ℕ)
    [.computationStatusReceived 0 0, .nextCheckpointToRequest 1, .triggerCheckpointIfPossible 0 1,
      .checkpointLoaded ⟨0, true, 0⟩ true, .checkpointReceived ⟨1, false, 0⟩ ⟨true, false, false⟩ 2] := by
  intro h
  obtain ⟨s, hs, hlate⟩ := h.any (p := fun s => ∃ c ∈ s.mComputationsNeedingImmediateCommit,
    ¬ (s.hasOutstandingCheckpointRequest c ∨ s.mNextCheckpointTime.hasKey c ∨
      s.mNextCommittedCheckpointTime.hasKey c)) (by decide +kernel)
  obtain ⟨c, hc, hstranded⟩ := of_decide_eq_true hlate
  exact hstranded (hs c hc)

end Cumulus.CheckpointStatusesKernel
