import Ufora.Checkpoints.Requests

/-!
# Pauses for the garbage collector

While new committed checkpoints are paused, `canBroadcastAfterPause` waits until nothing is in flight, and the
collector runs from then on until they are resumed. What is pending commit is in flight, so that nothing is
being written then (`pausedSafely_of_notTakenBack`), unless a request whose reply was successful gets another
reply that is not: that one finalizes the request and leaves it pending (`not_pausedSafely`).
-/

open Ordered Effect List Finmap Option System Cumulus.CheckpointStatusesKernel.System

namespace Cumulus.CheckpointStatusesKernel

variable {κ τ : Type} [LinearOrder κ] [LinearOrder τ] {t t' : System κ τ}

/-- While garbage is collected no outstanding request writes to storage and nothing is pending commit, and the
kernel told to broadcast at most once since the last pause. -/
structure System.PausedSafely (s : System κ τ) : Prop where
  quiet : s.collecting = true → (∀ r ∈ s.outstanding, r.writeToStorage = false) ∧ s.kernel.mCheckpointsPendingCommit = ∅
  once : s.broadcasts ≤ 1

/-- What is pending commit is an outstanding request that writes to storage, and while garbage is collected
there is none. -/
structure System.Pausing (s : System κ τ) : Prop where
  linked : s.Linked
  pending : ∀ r ∈ s.kernel.mCheckpointsPendingCommit, r ∈ s.outstanding ∧ r.writeToStorage = true
  paused : s.collecting = true → s.kernel.mNewCommittedCheckpointsPaused = true
  quiet : s.collecting = true → ∀ r ∈ s.outstanding, r.writeToStorage = false
  once : s.broadcasts ≤ 1
  fresh : s.kernel.mHasBroadcastAfterCheckpointPause = false → s.broadcasts = 0

theorem System.Pausing.pausedSafely (h : t.Pausing) : t.PausedSafely where
  quiet hc := by
    refine ⟨h.quiet hc, ext_lookup fun r => ?_⟩
    rw [lookup_empty, lookup_eq_none]
    intro hr
    obtain ⟨hout, hwrites⟩ := h.pending r hr
    rw [h.quiet hc r hout] at hwrites
    cases hwrites
  once := h.once

/-- A call that changes neither the requests nor the pause. -/
theorem System.Pausing.congr (h : t.Pausing) (hlinked : t'.Linked) (hout : t'.outstanding = t.outstanding)
    (hpending : t'.kernel.mCheckpointsPendingCommit = t.kernel.mCheckpointsPendingCommit)
    (hpaused : t'.kernel.mNewCommittedCheckpointsPaused = t.kernel.mNewCommittedCheckpointsPaused)
    (hbroadcast : t'.kernel.mHasBroadcastAfterCheckpointPause = t.kernel.mHasBroadcastAfterCheckpointPause)
    (hcollecting : t'.collecting = t.collecting) (hcount : t'.broadcasts = t.broadcasts) : t'.Pausing where
  linked := hlinked
  pending := by
    rw [hpending, hout]
    exact h.pending
  paused := by
    rw [hcollecting, hpaused]
    exact h.paused
  quiet := by
    rw [hcollecting, hout]
    exact h.quiet
  once := hcount ▸ h.once
  fresh := by
    rw [hbroadcast, hcount]
    exact h.fresh

/-- A request is finalized that is not pending commit any more. -/
theorem System.Pausing.finalized (h : t.Pausing) (hlinked : t'.Linked) {r : CheckpointRequest κ τ}
    (hout : t'.outstanding = t.outstanding.erase r)
    (hpending : ∀ x ∈ t'.kernel.mCheckpointsPendingCommit, x ∈ t.kernel.mCheckpointsPendingCommit ∧ x ≠ r)
    (hpaused : t'.kernel.mNewCommittedCheckpointsPaused = t.kernel.mNewCommittedCheckpointsPaused)
    (hbroadcast : t'.kernel.mHasBroadcastAfterCheckpointPause = t.kernel.mHasBroadcastAfterCheckpointPause)
    (hcollecting : t'.collecting = t.collecting) (hcount : t'.broadcasts = t.broadcasts) : t'.Pausing where
  linked := hlinked
  pending x hx := by
    obtain ⟨hx, hne⟩ := hpending x hx
    rw [hout, h.linked.nodup.mem_erase_iff]
    exact ⟨⟨hne, (h.pending x hx).1⟩, (h.pending x hx).2⟩
  paused := by
    rw [hcollecting, hpaused]
    exact h.paused
  quiet hc x hx := h.quiet (hcollecting ▸ hc) x (mem_of_mem_erase (hout ▸ hx))
  once := hcount ▸ h.once
  fresh := by
    rw [hbroadcast, hcount]
    exact h.fresh

/-- An unsuccessful reply does not come for a request that is pending commit. -/
def Op.NotTakenBack (s : System κ τ) : Op κ τ → Prop
  | .checkpointReceived request status _ =>
    request ∈ s.kernel.mCheckpointsPendingCommit → status.checkpointSuccessful = true
  | _ => True

instance (s : System κ τ) : ∀ op : Op κ τ, Decidable (op.NotTakenBack s)
  | .computationStatusReceived .. => .isTrue trivial
  | .checkpointLoaded .. => .isTrue trivial
  | .checkpointReceived _ _ _ => inferInstanceAs (Decidable (_ → _))
  | .checkpointCommitted .. => .isTrue trivial
  | .nextCheckpointToRequest _ => .isTrue trivial
  | .setCheckpointStatusInterval _ => .isTrue trivial
  | .triggerCheckpointIfPossible .. => .isTrue trivial
  | .triggerCheckpointsOnAllOutstanding _ => .isTrue trivial
  | .pauseNewCommittedCheckpoints => .isTrue trivial
  | .resumeNewCommittedCheckpoints => .isTrue trivial
  | .canBroadcastAfterPause => .isTrue trivial

variable [Zero τ] [Add τ] (s : CheckpointStatusesKernel κ τ)

/-- The fields of a kernel that a trigger and a status leave as they are. -/
def pauseState : StdMap (CheckpointRequest κ τ) CheckpointStatus × Bool × Bool :=
  (s.mCheckpointsPendingCommit, s.mNewCommittedCheckpointsPaused, s.mHasBroadcastAfterCheckpointPause)

theorem pauseState_triggerCheckpointIfPossible (c : κ) (now : τ) :
    (s.triggerCheckpointIfPossible c now).pauseState = s.pauseState := by
  unfold triggerCheckpointIfPossible
  split
  · rfl
  split
  · rfl
  dsimp only
  split <;> rfl

theorem pauseState_computationStatusReceived (c : κ) (now : τ) :
    (s.computationStatusReceived c now).pauseState = s.pauseState := by
  unfold computationStatusReceived
  split <;> rfl

omit [Zero τ] [Add τ] in
theorem System.Pausing.of_pauseState (h : t.Pausing) (hlinked : t'.Linked)
    (hout : t'.outstanding = t.outstanding) (hstate : t'.kernel.pauseState = t.kernel.pauseState)
    (hcollecting : t'.collecting = t.collecting) (hcount : t'.broadcasts = t.broadcasts) : t'.Pausing :=
  h.congr hlinked hout (congrArg Prod.fst hstate) (congrArg (fun x => x.2.1) hstate)
    (congrArg (fun x => x.2.2) hstate) hcollecting hcount

theorem System.Pausing.step (h : t.Pausing) {op : Op κ τ} (hop : op.NotTakenBack t)
    (he : t.step op = some t') : t'.Pausing := by
  have hlinked := h.linked.step he
  cases op with
  | computationStatusReceived c now =>
    obtain rfl := some.inj he
    exact h.of_pauseState hlinked rfl (pauseState_computationStatusReceived _ _ _) rfl rfl
  | checkpointLoaded r wasFinished =>
    obtain rfl := some.inj he
    refine h.of_pauseState hlinked rfl ?_ rfl rfl
    unfold checkpointLoaded
    split <;> rfl
  | checkpointReceived r status now =>
    obtain ⟨hr, ⟨hfailed, rfl⟩ | ⟨hwrites, rfl⟩⟩ := step_checkpointReceived he
    · refine h.finalized hlinked rfl (fun x hx => ⟨hx, ?_⟩) rfl rfl rfl rfl
      rintro rfl
      cases (hfailed (h.pending x hx).2).symm.trans (hop hx)
    · refine ⟨hlinked, fun x hx => ?_, h.paused, h.quiet, h.once, h.fresh⟩
      rcases mem_insert.1 hx with rfl | hx
      · exact ⟨hr, hwrites⟩
      · exact h.pending x hx
  | checkpointCommitted r persisted now =>
    obtain rfl | ⟨-, status, rfl⟩ := step_checkpointCommitted he
    · exact h
    · exact h.finalized hlinked rfl (fun x hx => (mem_erase.1 hx).symm) rfl rfl rfl rfl
  | nextCheckpointToRequest now =>
    obtain rfl | ⟨r, rfl, -, hwrites⟩ := step_nextCheckpointToRequest he
    · exact h
    · refine ⟨hlinked, fun x hx => ?_, h.paused, fun hc x hx => ?_, h.once, h.fresh⟩
      · exact ⟨mem_append_left _ (h.pending x hx).1, (h.pending x hx).2⟩
      · rcases mem_append.1 hx with hx | hx
        · exact h.quiet hc x hx
        · obtain rfl := mem_singleton.1 hx
          exact Bool.eq_false_iff.2 fun hw => by cases (hwrites hw).symm.trans (h.paused hc)
  | setCheckpointStatusInterval interval =>
    obtain rfl := some.inj he
    exact h.of_pauseState hlinked rfl rfl rfl rfl
  | triggerCheckpointIfPossible c now =>
    obtain rfl := some.inj he
    exact h.of_pauseState hlinked rfl (pauseState_triggerCheckpointIfPossible _ _ _) rfl rfl
  | triggerCheckpointsOnAllOutstanding now =>
    obtain rfl := some.inj he
    refine h.of_pauseState hlinked rfl (triggerCheckpointsOnAllOutstanding_induction
      (P := fun s => s.pauseState = t.kernel.pauseState) (fun s c hs => ?_) rfl) rfl rfl
    rw [pauseState_triggerCheckpointIfPossible, hs]
  | pauseNewCommittedCheckpoints =>
    obtain rfl := some.inj he
    exact ⟨hlinked, h.pending, fun _ => rfl, h.quiet, Nat.zero_le 1, fun _ => rfl⟩
  | resumeNewCommittedCheckpoints =>
    obtain rfl := some.inj he
    exact ⟨hlinked, h.pending, nofun, nofun, h.once, h.fresh⟩
  | canBroadcastAfterPause =>
    unfold System.step canBroadcastAfterPause at he
    dsimp only at he
    split at he
    · next hbroadcast =>
      obtain ⟨hpaused, hfresh, hnone⟩ := hbroadcast
      obtain rfl := some.inj he
      have hzero := h.fresh (Bool.eq_false_iff.2 hfresh)
      refine ⟨hlinked, h.pending, fun _ => hpaused, fun _ r hr => ?_, ?_, nofun⟩
      · have hlookup := (h.linked.mem r).1 hr
        rw [hnone, lookup_empty] at hlookup
        cases hlookup
      · show t.broadcasts + 1 ≤ 1
        omega
    · obtain rfl := some.inj he
      exact h.of_pauseState hlinked rfl rfl (Bool.or_false _) rfl

omit [Zero τ] [Add τ] in
theorem pausing_start (interval : τ) (policy : CumulusCheckpointPolicy τ) :
    (start interval policy : System κ τ).Pausing where
  linked := linked_start interval policy
  pending _ hr := absurd hr notMem_empty
  paused := nofun
  quiet := nofun
  once := Nat.zero_le 1
  fresh _ := rfl

/-- In every run in which no request that is pending commit gets an unsuccessful reply, pauses are safe. -/
theorem pausedSafely_of_notTakenBack (interval : τ) (policy : CumulusCheckpointPolicy τ) (ops : List (Op κ τ))
    (h : Run.EveryStep step (fun s op => op.NotTakenBack s) (.start interval policy) ops) :
    Run.Always step PausedSafely (.start interval policy) ops :=
  (Run.always_of_everyStep (pausing_start interval policy) (fun _ _ _ hs hop he => hs.step hop he) h).mono
    fun _ hs => hs.pausedSafely

/-- The first status of a computation, and the requests up to one that writes to storage. -/
def written : List (Op ℕ ℕ) := [.computationStatusReceived 0 0, .nextCheckpointToRequest 1,
    .checkpointReceived ⟨1, false, 0⟩ ⟨true, false, false⟩ 2, .nextCheckpointToRequest 3,
    .checkpointReceived ⟨3, true, 0⟩ ⟨true, false, false⟩ 4]

/-- A pause that waits for a commit. -/
theorem pausedSafely_of_notTakenBack_written :
    let ops := written ++ [.pauseNewCommittedCheckpoints, .canBroadcastAfterPause,
      .checkpointCommitted ⟨3, true, 0⟩ true 5, .canBroadcastAfterPause, .nextCheckpointToRequest 9]
    Run.EveryStep step (fun s op => op.NotTakenBack s) (.start 1 (.Periodic 1)) ops ∧
      Run.Always step PausedSafely (.start 1 (.Periodic 1)) ops := by
  intro ops
  have hops : Run.EveryStep step (fun s op => op.NotTakenBack s) (.start 1 (.Periodic 1)) ops := by
    decide +kernel
  exact ⟨hops, pausedSafely_of_notTakenBack 1 (.Periodic 1) ops hops⟩

/-- A request is outstanding and pending commit when an unsuccessful reply comes for it, and then the kernel
tells to broadcast. -/
theorem not_pausedSafely : ¬ Run.Always step PausedSafely (.start 1 (.Periodic 1))
    (written ++ [.checkpointReceived ⟨3, true, 0⟩ ⟨false, false, false⟩ 5, .pauseNewCommittedCheckpoints,
      .canBroadcastAfterPause]) := by
  intro h
  obtain ⟨s, hs, hpending⟩ := h.any (p := fun s => s.collecting = true ∧
    (⟨3, true, 0⟩ : CheckpointRequest ℕ ℕ) ∈ s.kernel.mCheckpointsPendingCommit) (by decide +kernel)
  obtain ⟨hcollecting, hmem⟩ := of_decide_eq_true hpending
  rw [(hs.quiet hcollecting).2] at hmem
  exact notMem_empty hmem

end Cumulus.CheckpointStatusesKernel
