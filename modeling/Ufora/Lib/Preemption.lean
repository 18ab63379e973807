import Mathlib.Data.Finset.Card

/-!
# Jobs that wait and jobs that run

A `Load` is a set of jobs that wait and a set of jobs that run on a number of places, each with a rank. A waiting
job is overdue where some running job has a lower rank. A load is balanced where each overdue job can be given a
place that no running job has. The rules say which changes keep a load balanced: fewer jobs, a waiting job for which
a running one gives up its place, and the start of the job of the highest rank.
-/

open Finset

namespace Preemption

/-- Jobs that wait and jobs that run. -/
structure Load (κ π : Type*) where
  waiting : Finset κ
  waitingRank : κ → π
  running : Finset κ
  runningRank : κ → π

namespace Load

variable {κ π : Type*} [LinearOrder π] {l l' : Load κ π} {places : ℕ}

/-- Some running job has a lower rank. -/
def Outranks (l : Load κ π) (rank : π) : Prop := ∃ r ∈ l.running, l.runningRank r < rank
deriving Decidable

/-- The waiting jobs that outrank a running one. -/
def overdue (l : Load κ π) : Finset κ := l.waiting.filter fun w => l.Outranks (l.waitingRank w)

/-- The waiting jobs of a higher rank. -/
def above (l : Load κ π) (rank : π) : Finset κ := l.waiting.filter fun w => rank < l.waitingRank w

/-- There is a place for each overdue job. -/
def Balanced (l : Load κ π) (places : ℕ) : Prop := l.overdue.card + l.running.card ≤ places

theorem mem_overdue {w : κ} : w ∈ l.overdue ↔ w ∈ l.waiting ∧ l.Outranks (l.waitingRank w) := mem_filter

/-- Where every running job comes from one of a rank that is not higher, a rank outranks no more of them. -/
theorem Outranks.of_le {rank : π} (h : l'.Outranks rank)
    (hr : ∀ r ∈ l'.running, ∃ r' ∈ l.running, l.runningRank r' ≤ l'.runningRank r) : l.Outranks rank := by
  obtain ⟨r, hr', hlt⟩ := h
  obtain ⟨q, hq, hle⟩ := hr r hr'
  exact ⟨q, hq, hle.trans_lt hlt⟩

/-- Some running jobs are left, each with its rank. -/
def RunsFewer (l' l : Load κ π) : Prop := ∀ r ∈ l'.running, r ∈ l.running ∧ l'.runningRank r = l.runningRank r

theorem RunsFewer.le (h : l'.RunsFewer l) : ∀ r ∈ l'.running, ∃ r' ∈ l.running, l.runningRank r' ≤ l'.runningRank r :=
  fun r hr => ⟨r, (h r hr).1, (h r hr).2.ge⟩

omit [LinearOrder π] in
theorem RunsFewer.card_le (h : l'.RunsFewer l) : l'.running.card ≤ l.running.card := card_le_card fun r hr => (h r hr).1

/-- The waiting jobs apart from one job are left, each with its rank. -/
def WaitsBut (l' l : Load κ π) (j : κ) : Prop :=
  ∀ w ∈ l'.waiting, w ≠ j → w ∈ l.waiting ∧ l'.waitingRank w = l.waitingRank w

section
variable (hw : ∀ w ∈ l'.waiting, w ∈ l.waiting ∧ l'.waitingRank w = l.waitingRank w)
include hw

/-- No more jobs wait, and no running job has a lower rank than before. -/
theorem Balanced.of_le (h : l.Balanced places)
    (hr : ∀ r ∈ l'.running, ∃ r' ∈ l.running, l.runningRank r' ≤ l'.runningRank r)
    (hcard : l'.running.card ≤ l.running.card) : l'.Balanced places := by
  have hsub : l'.overdue ⊆ l.overdue := fun w hmem => by
    obtain ⟨hwaiting, hout⟩ := mem_overdue.1 hmem
    obtain ⟨hbefore, hrank⟩ := hw w hwaiting
    exact mem_overdue.2 ⟨hbefore, hrank ▸ hout.of_le hr⟩
  have := card_le_card hsub
  unfold Balanced at h ⊢
  omega

/-- No more jobs wait, and no more run. -/
theorem Balanced.fewer (h : l.Balanced places) (hr : l'.RunsFewer l) : l'.Balanced places := h.of_le hw hr.le hr.card_le

end

variable [DecidableEq κ]

/-- What is overdue now, apart from one job, was overdue. -/
theorem erase_overdue_subset {j : κ} (hw : l'.WaitsBut l j)
    (hr : ∀ r ∈ l'.running, ∃ r' ∈ l.running, l.runningRank r' ≤ l'.runningRank r) :
    l'.overdue.erase j ⊆ l.overdue.erase j := by
  intro w hmem
  obtain ⟨hne, hmem⟩ := mem_erase.1 hmem
  obtain ⟨hwaiting, hout⟩ := mem_overdue.1 hmem
  obtain ⟨hbefore, hrank⟩ := hw w hwaiting hne
  exact mem_erase.2 ⟨hne, mem_overdue.2 ⟨hbefore, hrank ▸ hout.of_le hr⟩⟩

theorem card_overdue_le (l : Load κ π) (j : κ) : l.overdue.card ≤ (l.overdue.erase j).card + 1 := by
  have := pred_card_le_card_erase (s := l.overdue) (a := j)
  omega

/-- A running job gets another rank, where there are places for what is above that too. -/
theorem balanced_of_above {rank : π} (hw : ∀ w ∈ l'.waiting, w ∈ l.waiting ∧ l'.waitingRank w = l.waitingRank w)
    (hr : ∀ r ∈ l'.running, r ∈ l.running ∧ (l'.runningRank r = l.runningRank r ∨ l'.runningRank r = rank))
    (h : (l.overdue ∪ l.above rank).card + l.running.card ≤ places) : l'.Balanced places := by
  have hsub : l'.overdue ⊆ l.overdue ∪ l.above rank := by
    intro w hmem
    obtain ⟨hwaiting, r, hrun, hlt⟩ := mem_overdue.1 hmem
    obtain ⟨hbefore, hsame⟩ := hw w hwaiting
    rw [hsame] at hlt
    rw [mem_union]
    rcases (hr r hrun).2 with heq | heq
    · exact .inl (mem_overdue.2 ⟨hbefore, r, (hr r hrun).1, heq ▸ hlt⟩)
    · exact .inr (mem_filter.2 ⟨hbefore, heq ▸ hlt⟩)
  have hle := card_le_card hsub
  have hrun : l'.running.card ≤ l.running.card := card_le_card fun r hr' => (hr r hr').1
  unfold Balanced
  omega

/-- A job waits, for which there is room where it is overdue. -/
theorem Balanced.wait (h : l.Balanced places) {j : κ} (hw : l'.WaitsBut l j) (hr : l'.RunsFewer l)
    (hroom : j ∈ l'.waiting → l.Outranks (l'.waitingRank j) → (l.overdue.erase j).card + l.running.card < places) :
    l'.Balanced places := by
  have hsub := card_le_card (erase_overdue_subset hw hr.le)
  have hrun := hr.card_le
  unfold Balanced at h ⊢
  by_cases hj : j ∈ l'.overdue
  · obtain ⟨hwaiting, hout⟩ := mem_overdue.1 hj
    have hlt := hroom hwaiting (hout.of_le hr.le)
    have := l'.card_overdue_le j
    omega
  · rw [erase_eq_of_notMem hj] at hsub
    have := card_le_card (erase_subset j l.overdue)
    omega

/-- A job waits, and a running one gives up its place. -/
theorem Balanced.preempt (h : l.Balanced places) {j r : κ} (hw : l'.WaitsBut l j) (hr : l'.RunsFewer l)
    (hmem : r ∈ l.running) (hnot : r ∉ l'.running) : l'.Balanced places := by
  have hsub := card_le_card (erase_overdue_subset hw hr.le)
  have hrun : l'.running.card < l.running.card := card_lt_card ⟨fun r hr' => (hr r hr').1, fun hall => hnot (hall hmem)⟩
  have := l'.card_overdue_le j
  have := card_le_card (erase_subset j l.overdue)
  unfold Balanced at h ⊢
  omega

/-- The waiting job of the highest rank starts. -/
theorem Balanced.start (h : l.Balanced places) {j : κ} (hj : j ∈ l.waiting)
    (htop : ∀ w ∈ l.waiting, l.waitingRank w ≤ l.waitingRank j)
    (hw : ∀ w ∈ l'.waiting, w ≠ j ∧ w ∈ l.waiting ∧ l'.waitingRank w = l.waitingRank w)
    (hr : ∀ r ∈ l'.running, (r ∈ l.running ∧ l'.runningRank r = l.runningRank r) ∨
      r = j ∧ l'.runningRank r = l.waitingRank j) (hplaces : l'.running.card ≤ places) : l'.Balanced places := by
  -- Nothing that waits outranks the job that starts.
  have hsub : l'.overdue ⊆ l.overdue.erase j := by
    intro w hmem
    obtain ⟨hwaiting, r, hrun, hlt⟩ := mem_overdue.1 hmem
    obtain ⟨hne, hbefore, hrank⟩ := hw w hwaiting
    rw [hrank] at hlt
    rcases hr r hrun with ⟨hrun, hsame⟩ | ⟨-, hsame⟩
    · exact mem_erase.2 ⟨hne, mem_overdue.2 ⟨hbefore, r, hrun, hsame ▸ hlt⟩⟩
    · exact absurd (htop w hbefore) (not_le.2 (hsame ▸ hlt))
  have hrun : l'.running.card ≤ l.running.card + 1 := by
    refine (card_le_card fun r hr' => ?_).trans (card_insert_le j l.running)
    rcases hr r hr' with ⟨hrun, -⟩ | ⟨rfl, -⟩
    · exact mem_insert_of_mem hrun
    · exact mem_insert_self _ _
  have hle := card_le_card hsub
  unfold Balanced at h ⊢
  by_cases hover : j ∈ l.overdue
  · rw [card_erase_of_mem hover] at hle
    omega
  · -- The job of the highest rank is not overdue, so that no job is.
    have hnone : l'.overdue = ∅ := by
      refine eq_empty_of_forall_notMem fun w hmem => ?_
      obtain ⟨-, hmem⟩ := mem_erase.1 (hsub hmem)
      obtain ⟨hwaiting, r, hrun, hlt⟩ := mem_overdue.1 hmem
      exact hover (mem_overdue.2 ⟨hj, r, hrun, hlt.trans_le (htop w hwaiting)⟩)
    rw [hnone, card_empty]
    omega

end Load

end Preemption
