import Ufora.Lib.Preemption
import Ufora.Threading.Workers

/-!
# Priority inversion

A waiting computation is overdue where a computation of a lower priority is computed and not interrupted. Where all
threads are computing, there should be an interrupted computation for each of them: the thread that gives it back
takes the overdue one. `interruptComputationIfLowerPriority` interrupts nothing where a thread is not computing, also
when that thread already has an overdue computation to take. So the pool has no inversion throughout a run as long as
no step puts more overdue computations there than there are threads left for them (`noInversion_of_absorbed`).
-/

open Ordered Effect Preemption List Finset Finmap Option StdMap Bool
  Cumulus.WorkerThreadPoolImpl.InProgressComputation Cumulus.WorkerThreadPoolImpl.ComputablePriority
  Cumulus.WorkerThreadPoolImpl.System Cumulus.ComputationPriority Cumulus.WorkerThreadPoolImpl

namespace Cumulus.WorkerThreadPoolImpl

variable {τ : Type}

/-! ## What waits and what is computed -/

variable (s : WorkerThreadPoolImpl τ) (id : ComputationId)

/-- The object of a computation that is computed. -/
def inProgress : Option (InProgressComputation τ) := (lookup id s.mComputing).bind fun p => s.objects[p]?

/-- The computation is computed and has been asked to stop. -/
def isInterrupted : Prop := (s.inProgress id).any mIsInterrupted
deriving Decidable

/-- The running computations that have been interrupted. -/
def interrupted : Finset ComputationId := s.mComputing.keys.filter fun id => s.isInterrupted id

/-- The running computations that have not been interrupted yet. -/
def uninterrupted : Finset ComputationId := s.mComputing.keys.filter fun id => ¬ s.isInterrupted id

/-- The priority of a computation that is computed. -/
def runningPriority : ComputationPriority :=
  (s.inProgress id).elim default fun object => object.mComputablePriority.priority

/-- The priority of a computation that waits. -/
def waitingPriority : ComputationPriority := (lookup id s.mComputablePriorities).elim default priority

/-- A running computation that is not interrupted has a lower priority. -/
def Outranks (priority : ComputationPriority) : Prop := ∃ id ∈ s.uninterrupted, (s.runningPriority id).lt priority
deriving Decidable

/-- The waiting computations with a strictly higher priority than some running one that is not interrupted. -/
def overdue : Finset ComputationId := s.mComputablePriorities.keys.filter fun id => s.Outranks (s.waitingPriority id)

/-- Where all threads are computing, there are as many interrupted computations as overdue ones, or more. -/
def NoInversion : Prop := s.mComputing.keys.card = s.mThreadCount → s.overdue.card ≤ s.interrupted.card
deriving Decidable

/-- Some thread is not computing. -/
def HasIdle : Prop := s.mComputing.keys.card < s.mThreadCount
deriving Decidable

/-- If a computation is overdue with a priority, then the other overdue computations leave a thread for it: one that
is not computing, or that computes an interrupted computation. -/
def Room (priority : ComputationPriority) : Prop :=
  s.Outranks priority → (s.overdue.erase id).card + s.uninterrupted.card < s.mThreadCount
deriving Decidable

/-- There are threads for the overdue computations also if a running computation gets a priority. -/
def RoomBelow (priority : ComputationPriority) : Prop :=
  (s.overdue ∪ s.mComputablePriorities.keys.filter fun id => priority.lt (s.waitingPriority id)).card +
    s.uninterrupted.card ≤ s.mThreadCount
deriving Decidable

/-- The priority with which a computation waits once it is given back. -/
def priorityGivenBack (o : InProgressComputation τ) (needsReturn : Bool) : Option ComputationPriority :=
  lastStanding ((lookup o.mComputablePriority.computationId s.mStatusChangesPendingCheckin).getD [])
    (if needsReturn then none else some o.mComputablePriority.priority)

/-- What a step adds to the overdue computations is no more than there are threads for. A step adds to them where it
leaves a computation waiting, or gives a lower priority to a running one, while some thread is not computing, and
where it gives an interrupted computation back. -/
def System.Absorbed {n : ℕ} (s : System τ n) : Op τ n → Prop
  | .onComputationStatusChanged change _ =>
    s.pool.HasIdle → if s.pool.isComputing change.computation then
        ¬ s.pool.isInterrupted change.computation → change.newPriority.isNull = false →
          s.pool.RoomBelow change.newPriority
      else ∀ priority ∈ standingAfter change, s.pool.Room change.computation priority
  | .finish worker _ =>
    match s.workers worker with
    | .decided computation needsReturn _ =>
      ∀ o ∈ s.pool.objects[computation]?, o.mIsInterrupted = true →
        ∀ priority ∈ s.pool.priorityGivenBack o needsReturn, s.pool.Room o.mComputablePriority.computationId priority
    | _ => True
  | _ => True

instance System.decidableAbsorbed {n : ℕ} (s : System τ n) : ∀ op : Op τ n, Decidable (s.Absorbed op)
  | .onComputationStatusChanged change _ =>
    inferInstanceAs (Decidable (s.pool.HasIdle → if s.pool.isComputing change.computation then
        ¬ s.pool.isInterrupted change.computation → change.newPriority.isNull = false →
          s.pool.RoomBelow change.newPriority
      else ∀ priority ∈ standingAfter change, s.pool.Room change.computation priority))
  | .finish worker _ =>
    match hw : s.workers worker with
    | .decided computation needsReturn _ =>
      decidable_of_iff (∀ o ∈ s.pool.objects[computation]?, o.mIsInterrupted = true →
        ∀ priority ∈ s.pool.priorityGivenBack o needsReturn,
          s.pool.Room o.mComputablePriority.computationId priority) (by simp only [Absorbed, hw])
    | .waiting => isTrue (by simp only [Absorbed, hw])
    | .selected _ => isTrue (by simp only [Absorbed, hw])
    | .checkedOut _ => isTrue (by simp only [Absorbed, hw])
    | .computing _ => isTrue (by simp only [Absorbed, hw])
  | .interruptAll => isTrue trivial
  | .select _ => isTrue trivial
  | .checkOut .. => isTrue trivial
  | .compute _ => isTrue trivial
  | .checkIn .. => isTrue trivial

/-! ## The load of the threads -/

section
variable {n : ℕ} {s s' : WorkerThreadPoolImpl τ}

/-- The computations of a pool as jobs, without those that are interrupted. -/
def load (s : WorkerThreadPoolImpl τ) : Load ComputationId (ℕ ×ₗ WithBot (ℕ ×ₗ ℕᵒᵈ ×ₗ ℕᵒᵈ)) where
  waiting := s.mComputablePriorities.keys
  waitingRank id := (s.waitingPriority id).rank
  running := s.uninterrupted
  runningRank id := (s.runningPriority id).rank

variable {priority : ComputationPriority}

theorem outranks_load : s.load.Outranks priority.rank ↔ s.Outranks priority :=
  exists_congr fun _ => and_congr_right fun _ => lt_iff_rank.symm

theorem overdue_load : s.load.overdue = s.overdue := filter_congr fun _ _ => outranks_load

theorem above_load (priority : ComputationPriority) : s.load.above priority.rank =
    s.mComputablePriorities.keys.filter fun id => priority.lt (s.waitingPriority id) :=
  filter_congr fun _ _ => lt_iff_rank.symm

/-- A computation that is computed is interrupted or not. -/
theorem card_interrupted (s : WorkerThreadPoolImpl τ) :
    s.interrupted.card + s.uninterrupted.card = s.mComputing.keys.card :=
  card_filter_add_card_filter_not _

/-- A pool of `n` threads has a thread for each overdue computation. -/
structure Balanced (n : ℕ) (s : WorkerThreadPoolImpl τ) : Prop where
  count : s.mThreadCount = n
  load : s.load.Balanced n

theorem Balanced.noInversion (h : s.Balanced n) : s.NoInversion := by
  intro hfull
  have hcard := s.card_interrupted
  have hload : s.load.overdue.card + s.uninterrupted.card ≤ n := h.load
  rw [overdue_load] at hload
  have := h.count
  omega

/-- What is left of the jobs of a pool leaves it balanced. -/
theorem Balanced.fewer (h : s.Balanced n) (hcount : s'.mThreadCount = s.mThreadCount)
    (hw : ∀ id ∈ s'.load.waiting, id ∈ s.load.waiting ∧ s'.load.waitingRank id = s.load.waitingRank id)
    (hr : s'.load.RunsFewer s.load) : s'.Balanced n :=
  ⟨hcount.trans h.count, h.load.fewer hw hr⟩

/-! ## Interrupting a computation -/

/-- Each computation that is computed has an object of its own. -/
def Placed (s : WorkerThreadPoolImpl τ) : Prop := ∀ id p, lookup id s.mComputing = some p →
    ∃ o, s.objects[p]? = some o ∧ o.mComputablePriority.computationId = id

theorem Sound.placed {workers : Fin n → Worker} {changed : Finset ComputationId}
    {standing : StdMap ComputationId ComputationPriority} (h : Sound s.tables workers standing changed) :
    s.Placed := by
  intro id p hp
  obtain ⟨⟨v, hv, hid⟩, -⟩ := h.computed id p hp
  obtain ⟨o, ho, rfl⟩ := object_iff.1 hv
  exact ⟨o, ho, hid⟩

variable {id r j : ComputationId}

/-- Two computations do not share an object. -/
theorem Placed.inj (h : s.Placed) {id' : ComputationId} {p : ℕ} (hp : lookup id s.mComputing = some p)
    (hp' : lookup id' s.mComputing = some p) : id = id' := by
  obtain ⟨o, ho, rfl⟩ := h id p hp
  obtain ⟨o', ho', rfl⟩ := h id' p hp'
  rw [some.inj (ho.symm.trans ho')]

/-- Where an object changes, only its own computation does. -/
theorem Placed.inProgress_modify (h : s.Placed) {p : ℕ}
    (hp : lookup r s.mComputing = some p) (f : InProgressComputation τ → InProgressComputation τ) (id : ComputationId) :
    ({ s with objects := s.objects.modify p f } : WorkerThreadPoolImpl τ).inProgress id =
      if id = r then (s.inProgress id).map f else s.inProgress id := by
  unfold inProgress
  cases hq : lookup id s.mComputing with
  | none => simp
  | some q =>
    simp only [bind_some]
    rw [getElem?_modify]
    split
    · next heq =>
      subst heq
      rw [if_pos (h.inj hq hp)]
      rfl
    · next hne =>
      rw [if_neg]
      · cases s.objects[q]? <;> rfl
      · rintro rfl
        exact hne (some.inj (hp.symm.trans hq))

/-- An object keeps its place when it changes. -/
theorem Placed.modify (h : s.Placed) (p : ℕ) {f : InProgressComputation τ → InProgressComputation τ}
    (hf : ∀ o, (f o).mComputablePriority.computationId = o.mComputablePriority.computationId) :
    ({ s with objects := s.objects.modify p f } : WorkerThreadPoolImpl τ).Placed := by
  intro id q hq
  obtain ⟨o, ho, rfl⟩ := h id q hq
  rw [getElem?_modify, ho]
  split
  · exact ⟨_, rfl, hf o⟩
  · exact ⟨_, rfl, rfl⟩

theorem mem_uninterrupted : id ∈ s.uninterrupted ↔ id ∈ s.mComputing ∧ ¬ s.isInterrupted id := by
  rw [uninterrupted, Finset.mem_filter, Finmap.mem_keys]

/-- A computation that runs as before runs with the same rank. -/
theorem runs_of (hid : id ∈ s'.uninterrupted) (hin : id ∈ s.mComputing) (hsame : s'.inProgress id = s.inProgress id) :
    id ∈ s.load.running ∧ s'.load.runningRank id = s.load.runningRank id := by
  refine ⟨mem_uninterrupted.2 ⟨hin, ?_⟩, ?_⟩
  · have hno := (mem_uninterrupted.1 hid).2
    unfold isInterrupted at hno ⊢
    rwa [← hsame]
  · show (s'.runningPriority id).rank = (s.runningPriority id).rank
    unfold runningPriority
    rw [hsame]

/-- What waits as before waits with the same rank. -/
theorem waitsBut_of (h : ∀ id, id ≠ j → lookup id s'.mComputablePriorities = lookup id s.mComputablePriorities) :
    s'.load.WaitsBut s.load j := by
  intro id hid hne
  have hsame := h id hne
  refine ⟨?_, ?_⟩
  · obtain ⟨c, hc⟩ := mem_iff_lookup.1 (mem_keys.1 hid)
    exact mem_keys.2 (mem_iff_lookup.2 ⟨c, hsame ▸ hc⟩)
  · show (s'.waitingPriority id).rank = (s.waitingPriority id).rank
    unfold waitingPriority
    rw [hsame]

/-- An interruption takes the computation off those that are not interrupted. -/
theorem Placed.interrupt (h : s.Placed) {p : ℕ} (hp : lookup r s.mComputing = some p) :
    (s.interrupt p).load.RunsFewer s.load ∧ r ∉ (s.interrupt p).uninterrupted := by
  have hsame := h.inProgress_modify hp fun object => { object with mIsInterrupted := true }
  obtain ⟨o, ho, -⟩ := h r p hp
  have hr : r ∉ (s.interrupt p).uninterrupted := by
    intro hmem
    refine (mem_uninterrupted.1 hmem).2 ?_
    unfold isInterrupted
    rw [WorkerThreadPoolImpl.interrupt, hsame, if_pos rfl, inProgress, hp, bind_some, ho]
    rfl
  refine ⟨fun id hid => runs_of hid (mem_uninterrupted.1 hid).1 ((hsame id).trans (if_neg ?_)), hr⟩
  rintro rfl
  exact hr hid

/-! ## The computation of the lowest priority -/

/-- What `compareComputingPriorities` compares: an interrupted computation is above all others. -/
def InProgressComputation.key (o : InProgressComputation τ) : Bool ×ₗ (ℕ ×ₗ WithBot (ℕ ×ₗ ℕᵒᵈ ×ₗ ℕᵒᵈ)) :=
  toLex (o.mIsInterrupted, o.mComputablePriority.priority.rank)

theorem compareComputingPriorities_iff {lhs rhs : InProgressComputation τ} :
    compareComputingPriorities lhs rhs ↔ lhs.key < rhs.key := by
  unfold compareComputingPriorities key
  rw [Prod.Lex.toLex_lt_toLex]
  cases hl : lhs.mIsInterrupted <;> cases hr : rhs.mIsInterrupted <;>
    simp [lt_iff_rank]

/-- No computation is below the one that is found. -/
theorem foldl_lowerPriority_le (l : List ℕ) {m : ℕ} {om : InProgressComputation τ} (hm : s.objects[m]? = some om)
    (hl : ∀ p ∈ l, ∃ o, s.objects[p]? = some o) :
    ∃ q o, l.foldl s.lowerPriority (some m) = some q ∧ s.objects[q]? = some o ∧ o.key ≤ om.key ∧
      ∀ p ∈ l, ∀ op, s.objects[p]? = some op → o.key ≤ op.key := by
  induction l generalizing m om with
  | nil => exact ⟨m, om, rfl, hm, le_rfl, nofun⟩
  | cons p l ih =>
    obtain ⟨op, hop⟩ := hl p mem_cons_self
    obtain ⟨next, onext, hnext, honext, hle, hle'⟩ : ∃ next onext, s.lowerPriority (some m) p = some next ∧
        s.objects[next]? = some onext ∧ onext.key ≤ om.key ∧ onext.key ≤ op.key := by
      unfold lowerPriority
      rw [hop]
      dsimp only
      rw [hm]
      dsimp only
      split
      · next hlt =>
        exact ⟨p, op, rfl, hop, (compareComputingPriorities_iff.1 hlt).le, le_rfl⟩
      · next hnot =>
        exact ⟨m, om, rfl, hm, le_rfl, not_lt.1 fun hlt => hnot (compareComputingPriorities_iff.2 hlt)⟩
    obtain ⟨q, o, hq, ho, hleq, hall⟩ := ih honext fun p' hp' => hl p' (.tail _ hp')
    refine ⟨q, o, ?_, ho, hleq.trans hle, fun p' hp' op' hop' => ?_⟩
    · rw [foldl_cons, hnext]
      exact hq
    · rcases mem_cons.1 hp' with rfl | hp'
      · obtain rfl := some.inj (hop.symm.trans hop')
        exact hleq.trans hle'
      · exact hall p' hp' op' hop'

/-- The computation that `getLowestPriorityComputing` finds is below no other one. -/
theorem Placed.getLowestPriorityComputing (h : s.Placed) (hne : s.mComputing.keys.card ≠ 0) :
    ∃ id p o, s.getLowestPriorityComputing = some p ∧ lookup id s.mComputing = some p ∧
      s.inProgress id = some o ∧ s.objects[p]? = some o ∧
      ∀ id' o', s.inProgress id' = some o' → o.key ≤ o'.key := by
  have hobjects : ∀ p ∈ (ascending s.mComputing.keys).filterMap fun id => lookup id s.mComputing,
      ∃ o, s.objects[p]? = some o := by
    intro p hp
    obtain ⟨id, -, hid⟩ := mem_filterMap.1 hp
    obtain ⟨o, ho, -⟩ := h id p hid
    exact ⟨o, ho⟩
  obtain ⟨p, id, hp, hid⟩ := exists_lowestPriorityComputing hne
  obtain ⟨o, ho, -⟩ := h id p hid
  have hin : s.inProgress id = some o := by rw [inProgress, hid, bind_some, ho]
  refine ⟨id, p, o, hp, hid, hin, ho, fun id' o' ho' => ?_⟩
  obtain ⟨p', hid', hp'⟩ := bind_eq_some_iff.1 ho'
  have hmem : p' ∈ (ascending s.mComputing.keys).filterMap fun id => lookup id s.mComputing :=
    mem_filterMap.2 ⟨id', mem_ascending.2 (mem_keys.2 (mem_iff_lookup.2 ⟨p', hid'⟩)), hid'⟩
  unfold WorkerThreadPoolImpl.getLowestPriorityComputing at hp
  generalize (ascending s.mComputing.keys).filterMap _ = l at hp hobjects hmem
  cases l with
  | nil => cases hmem
  | cons m l =>
    obtain ⟨om, hom⟩ := hobjects m mem_cons_self
    obtain ⟨q, oq, hq, hoq, hle, hall⟩ := foldl_lowerPriority_le l hom fun p hp => hobjects p (.tail _ hp)
    obtain rfl := some.inj (hq.symm.trans hp)
    obtain rfl := some.inj (hoq.symm.trans ho)
    rcases mem_cons.1 hmem with rfl | hmem
    · obtain rfl := some.inj (hom.symm.trans hp')
      exact hle
    · exact hall p' hmem o' hp'

/-- A computation that is not interrupted, and its object. -/
theorem Placed.exists_of_mem_uninterrupted (h : s.Placed) (hid : id ∈ s.uninterrupted) :
    ∃ o, s.inProgress id = some o ∧ o.mIsInterrupted = false ∧
      s.runningPriority id = o.mComputablePriority.priority := by
  obtain ⟨hin, hno⟩ := mem_uninterrupted.1 hid
  obtain ⟨p, hp⟩ := mem_iff_lookup.1 hin
  obtain ⟨o, ho, -⟩ := h id p hp
  have hobject : s.inProgress id = some o := by rw [inProgress, hp, bind_some, ho]
  refine ⟨o, hobject, ?_, ?_⟩
  · rw [isInterrupted, hobject] at hno
    exact eq_false_iff.2 hno
  · rw [runningPriority, hobject]
    rfl

/-- Where no thread is idle, either the priority outranks nothing or a computation is interrupted. -/
theorem Placed.wp_interruptComputationIfLowerPriority (h : s.Placed) (priority : ComputationPriority) :
    wp (interruptComputationIfLowerPriority priority) (fun _ s' => s' = s ∧ (s.HasIdle ∨ ¬ s.Outranks priority) ∨
        ∃ id p, lookup id s.mComputing = some p ∧ id ∈ s.uninterrupted ∧ s' = s.interrupt p)
      (fun _ _ => False) s := by
  unfold interruptComputationIfLowerPriority
  rw [wp_bind, wp_get, wp_ite]
  split
  · next hno =>
    refine .inl ⟨rfl, ?_⟩
    rcases hno with h0 | hidle
    · refine .inr ?_
      rintro ⟨id, hid, -⟩
      have hin := mem_keys.2 (mem_uninterrupted.1 hid).1
      rw [card_eq_zero.1 h0] at hin
      exact notMem_empty _ hin
    · exact .inl hidle
  · next hbusy =>
    obtain ⟨id, p, o, hp, hid, hin, ho, hleast⟩ := h.getLowestPriorityComputing fun h0 => hbusy (.inl h0)
    rw [hp]
    rw [wp_bind, wp_object ho, wp_ite]
    split
    · next hlower =>
      refine .inr ⟨id, p, hid, mem_uninterrupted.2 ⟨mem_iff_lookup.2 ⟨p, hid⟩, ?_⟩, rfl⟩
      rw [isInterrupted, hin]
      simp [hlower.1]
    · next hnot =>
      refine .inl ⟨rfl, .inr ?_⟩
      rintro ⟨id', hid', hlt⟩
      obtain ⟨o', ho', hfree, hpriority⟩ := h.exists_of_mem_uninterrupted hid'
      have hle := hleast id' o' ho'
      rw [key, key, hfree, Prod.Lex.toLex_le_toLex] at hle
      rw [hpriority, lt_iff_rank] at hlt
      refine hnot ?_
      rcases hle with hle | ⟨heq, hle⟩
      · exact absurd hle (not_lt_bot (α := Bool))
      · exact ⟨heq, lt_iff_rank.2 (hle.trans_lt hlt)⟩

/-! ## Status changes -/

variable {c : ComputablePriority τ}

/-- A computation comes to wait, or waits with another priority. -/
theorem Balanced.insert (h : s.Balanced n) (hs : s.Placed)
    (hc : ¬ s.isComputing c.computationId) (hroom : s.HasIdle → s.Room c.computationId c.priority) :
    wp (insertToComputableSet c) (fun _ s' => s'.Balanced n) (fun _ _ => False) s := by
  unfold insertToComputableSet
  rw [wp_bind, wp_get, wp_bind, wp_lassert, if_pos hc, wp_bind, wp_modify]
  generalize hcomputable : Finmap.insert c.computationId c s.mComputablePriorities = computable
  generalize hs₁ : ({ s with mComputablePriorities := computable } : WorkerThreadPoolImpl τ) = s₁
  have hplaced : s₁.Placed := by subst hs₁; exact hs
  have hwaits : s₁.load.WaitsBut s.load c.computationId := by
    subst hs₁
    refine waitsBut_of fun id hne => ?_
    subst hcomputable
    exact (lookup_insert _ _ _ _).trans (if_neg hne)
  have hruns : s₁.load.RunsFewer s.load := by
    subst hs₁
    exact fun id hid => ⟨hid, rfl⟩
  have hrank : s₁.load.waitingRank c.computationId = c.priority.rank := by
    subst hs₁
    show ((lookup c.computationId computable).elim default priority).rank = _
    rw [← hcomputable, StdMap.lookup_insert, if_pos rfl]
    rfl
  have hcount : s₁.mThreadCount = s.mThreadCount := by subst hs₁; rfl
  have hidle : s₁.HasIdle ↔ s.HasIdle := by subst hs₁; rfl
  have houtranks : s₁.Outranks c.priority ↔ s.Outranks c.priority := by subst hs₁; rfl
  refine (hplaced.wp_interruptComputationIfLowerPriority c.priority).mono ?_ fun _ _ => False.elim
  rintro _ s' (⟨rfl, hnone⟩ | ⟨r, p, hp, hr, rfl⟩)
  · refine ⟨hcount.trans h.count, h.load.wait hwaits hruns fun _ hout => ?_⟩
    rw [hrank, outranks_load] at hout
    rw [overdue_load, ← h.count]
    exact hroom (hidle.1 (hnone.resolve_right fun hno => hno (houtranks.2 hout))) hout
  · obtain ⟨hfewer, hnot⟩ := hplaced.interrupt hp
    have hmem : r ∈ s.load.running := by subst hs₁; exact hr
    refine ⟨hcount.trans h.count, h.load.preempt (j := c.computationId) hwaits (fun id hid => ?_) hmem hnot⟩
    obtain ⟨hin, hsame⟩ := hfewer id hid
    exact ⟨(hruns id hin).1, hsame.trans (hruns id hin).2⟩

/-- A computation that does not wait any more. -/
theorem waits_remove (s : WorkerThreadPoolImpl τ) (j : ComputationId) :
    (s.removeFromComputableSet j).load.WaitsBut s.load j ∧
      ∀ id ∈ (s.removeFromComputableSet j).load.waiting, id ∈ s.load.waiting ∧
        (s.removeFromComputableSet j).load.waitingRank id = s.load.waitingRank id := by
  have hwaits : (s.removeFromComputableSet j).load.WaitsBut s.load j :=
    waitsBut_of fun id hne => (lookup_erase _ _ _).trans (if_neg hne)
  refine ⟨hwaits, fun id hid => hwaits id hid ?_⟩
  rintro rfl
  exact (mem_erase.1 (mem_keys.1 hid)).1 rfl

theorem Balanced.remove (h : s.Balanced n) (j : ComputationId) : (s.removeFromComputableSet j).Balanced n :=
  h.fewer rfl (s.waits_remove j).2 fun _ hid => ⟨hid, rfl⟩

theorem Room.remove (h : s.Room j priority) : (s.removeFromComputableSet j).Room j priority := by
  intro hout
  have hsub := card_le_card (Load.erase_overdue_subset (s.waits_remove j).1 fun id hid => ⟨id, hid, le_rfl⟩)
  rw [overdue_load, overdue_load] at hsub
  have hlt := h hout
  show _ + s.uninterrupted.card < s.mThreadCount
  omega

variable [LinearOrder τ]

/-- A change of a computation that is not computed. -/
theorem Balanced.changeIdle (h : s.Balanced n) (hs : s.Placed) {change : LocalComputationPriorityAndStatusChanged}
    (hc : ¬ s.isComputing change.computation)
    (hroom : s.HasIdle → ∀ priority ∈ standingAfter change, s.Room change.computation priority) (now : τ) :
    wp (onComputationStatusChanged change now) (fun _ s' => s'.Balanced n) (fun _ _ => False) s := by
  unfold onComputationStatusChanged
  rw [wp_bind, wp_get, wp_ite, if_neg hc, wp_bind, wp_modify, wp_ite]
  split
  · next hcomputable =>
    unfold addToComputableSet
    have hc' : ¬ (s.removeFromComputableSet change.computation).isComputing change.computation := hc
    rw [wp_bind, wp_get, wp_ite, if_neg hc', wp_ite]
    split
    · exact h.remove _
    · next hnull =>
      have hstands : standingAfter change = some change.newPriority := if_pos ⟨hcomputable, eq_false_iff.2 hnull⟩
      exact (h.remove change.computation).insert hs hc' fun hidle => (hroom hidle _ hstands).remove
  · exact h.remove _

/-! ## Another priority of a running computation -/

/-- What comes first has a priority that is not lower. -/
theorem ComputablePriority.rank_le {d : ComputablePriority τ} :
    (d.lt c → c.priority.rank ≤ d.priority.rank) ∧ (¬ d.lt c → d.priority.rank ≤ c.priority.rank) := by
  have hbeq : (d.priority != c.priority) = false →
      c.priority.rank ≤ d.priority.rank ∧ d.priority.rank ≤ c.priority.rank := by
    intro heq
    have hbeq : (d.priority == c.priority) = true := by simpa [bne] using heq
    have heq : (!d.priority.lt c.priority && !c.priority.lt d.priority) = true := hbeq
    simp only [and_eq_true, not_eq_true', eq_false_iff, ne_eq, lt_iff_rank, not_lt] at heq
    exact heq
  unfold lt
  cases hne : d.priority != c.priority with
  | true =>
    rw [if_pos rfl, lt_iff_rank]
    exact ⟨le_of_lt, not_lt.1⟩
  | false => exact ⟨fun _ => (hbeq hne).1, fun _ => (hbeq hne).2⟩

/-- The lowest value has the highest priority. -/
theorem rank_le_of_least {l : List (ComputablePriority τ)} (h : least l = some c) :
    ∀ c' ∈ l, c'.priority.rank ≤ c.priority.rank := by
  induction l generalizing c with
  | nil => cases h
  | cons a l ih =>
    unfold least at h
    cases hl : least l with
    | none =>
      rw [hl] at h
      obtain rfl := some.inj h
      intro c' hc'
      rw [least_mem.1 hl, List.mem_singleton] at hc'
      rw [hc']
    | some d =>
      rw [hl] at h
      dsimp only at h
      intro c' hc'
      split at h
      · next hlt =>
        obtain rfl := some.inj h
        rcases mem_cons.1 hc' with rfl | hc'
        · exact rank_le.1 hlt
        · exact ih hl c' hc'
      · next hnot =>
        obtain rfl := some.inj h
        rcases mem_cons.1 hc' with rfl | hc'
        · exact le_rfl
        · exact (ih hl c' hc').trans (rank_le.2 hnot)

theorem rank_le_of_lowestValue {c' : ComputablePriority τ} (h : s.lowestValue = some c)
    (hc' : lookup id s.mComputablePriorities = some c') : c'.priority.rank ≤ c.priority.rank :=
  rank_le_of_least h c' (mem_filterMap.2 ⟨id, mem_ascending.2 (mem_keys.2 (mem_iff_lookup.2 ⟨c', hc'⟩)), hc'⟩)

omit [LinearOrder τ] in
/-- What waits has its entry. -/
theorem exists_of_mem_waiting (h : id ∈ s.load.waiting) :
    ∃ c, lookup id s.mComputablePriorities = some c ∧ s.load.waitingRank id = c.priority.rank := by
  obtain ⟨c, hc⟩ := mem_iff_lookup.1 (mem_keys.1 h)
  refine ⟨c, hc, ?_⟩
  show (s.waitingPriority id).rank = _
  rw [waitingPriority, hc]
  rfl

/-- Where all threads are computing and nothing that waits is above a priority, a running computation may get it. -/
theorem Balanced.roomBelow (h : s.Balanced n)
    (hlowest : ¬ (s.lowestValue.any fun lowest => priority.lt lowest.priority)) : s.RoomBelow priority := by
  have hnone : s.load.above priority.rank = ∅ := by
    refine filter_false_of_mem fun id hid hlt => hlowest ?_
    obtain ⟨c', hc', hrank⟩ := exists_of_mem_waiting hid
    rw [hrank] at hlt
    cases hl : s.lowestValue with
    | none =>
      have hmem : c' ∈ (ascending s.mComputablePriorities.keys).filterMap fun id =>
          lookup id s.mComputablePriorities :=
        mem_filterMap.2 ⟨id, mem_ascending.2 hid, hc'⟩
      rw [least_mem.1 hl] at hmem
      cases hmem
    | some c =>
      rw [any_some, lt_iff_rank]
      exact hlt.trans_le (rank_le_of_lowestValue hl hc')
  unfold RoomBelow
  rw [← above_load, hnone, Finset.union_empty, ← overdue_load, h.count]
  exact h.load

omit [LinearOrder τ] in
/-- A new priority of a running computation leaves the others, and what is interrupted. -/
theorem Placed.runs_updatePriority (hs : s.Placed) {p : ℕ}
    (hp : lookup id s.mComputing = some p) (priority : ComputationPriority) :
    ∀ r ∈ (s.updatePriority p priority).load.running, r ∈ s.load.running ∧
      (r ≠ id → (s.updatePriority p priority).load.runningRank r = s.load.runningRank r) ∧
      (r = id → (s.updatePriority p priority).load.runningRank r = priority.rank) := by
  have hsame := hs.inProgress_modify hp fun object =>
    { object with mComputablePriority := { object.mComputablePriority with priority := priority } }
  intro r hr
  obtain ⟨hin, hno⟩ := mem_uninterrupted.1 hr
  obtain ⟨o, ho, hid⟩ : ∃ o, s.inProgress id = some o ∧ o.mComputablePriority.computationId = id := by
    obtain ⟨o, ho, hid⟩ := hs id p hp
    exact ⟨o, by rw [inProgress, hp, bind_some, ho], hid⟩
  have hin' : (s.updatePriority p priority).inProgress r = _ := hsame r
  rw [isInterrupted, hin'] at hno
  refine ⟨mem_uninterrupted.2 ⟨hin, ?_⟩, fun hne => ?_, fun heq => ?_⟩
  · rw [isInterrupted]
    split at hno
    · next heq =>
      rw [heq, ho] at hno
      rw [heq, ho]
      exact hno
    · exact hno
  · show ((s.updatePriority p priority).runningPriority r).rank = (s.runningPriority r).rank
    rw [runningPriority, hin', if_neg hne]
    rfl
  · show ((s.updatePriority p priority).runningPriority r).rank = _
    rw [runningPriority, hin', if_pos heq, heq, ho]
    rfl

/-- A change of the priority of a running computation. It is interrupted where all threads are computing and a
waiting computation is above its new priority. -/
theorem Balanced.updateComputingPriority (h : s.Balanced n) (hs : s.Placed)
    (hfew : s.mComputing.keys.card ≤ s.mThreadCount) (id : ComputationId) (priority : ComputationPriority)
    (hroom : s.HasIdle → ¬ s.isInterrupted id → priority.isNull = false → s.RoomBelow priority) :
    (s.updateComputingPriority id priority).Balanced n := by
  unfold WorkerThreadPoolImpl.updateComputingPriority
  cases hp : lookup id s.mComputing with
  | none => exact h
  | some p =>
    dsimp only
    have hruns := hs.runs_updatePriority hp priority
    split
    · have hplaced : (s.updatePriority p priority).Placed := hs.modify p fun _ => rfl
      obtain ⟨hfewer, hnot⟩ := hplaced.interrupt hp
      refine h.fewer rfl (fun _ hid => ⟨hid, rfl⟩) fun r hr => ?_
      obtain ⟨hmem, hrank⟩ := hfewer r hr
      have hne : r ≠ id := by
        rintro rfl
        exact hnot hr
      exact ⟨(hruns r hmem).1, hrank.trans ((hruns r hmem).2.1 hne)⟩
    · next hno =>
      obtain ⟨hquiet, hnull⟩ := not_or.1 hno
      by_cases hint : s.isInterrupted id
      · refine h.fewer rfl (fun _ hid => ⟨hid, rfl⟩) fun r hr => ?_
        obtain ⟨hmem, hother, -⟩ := hruns r hr
        refine ⟨hmem, hother ?_⟩
        rintro rfl
        exact (mem_uninterrupted.1 hmem).2 hint
      · have hbelow : s.RoomBelow priority := by
          rcases hfew.lt_or_eq with hidle | hfull
          · exact hroom hidle hint (eq_false_iff.2 hnull)
          · exact h.roomBelow fun hlowest => hquiet ⟨hfull, hlowest⟩
        unfold RoomBelow at hbelow
        rw [← above_load, ← overdue_load, h.count] at hbelow
        refine ⟨h.count, @Load.balanced_of_above _ _ _ s.load _ _ _ priority.rank
          (fun _ hid => ⟨hid, rfl⟩) (fun r hr => ?_) hbelow⟩
        obtain ⟨hmem, hother, hsame⟩ := hruns r hr
        refine ⟨hmem, ?_⟩
        rcases eq_or_ne r id with heq | hne
        · exact .inr (hsame heq)
        · exact .inl (hother hne)

/-! ## The other steps -/

omit [LinearOrder τ] in
theorem Balanced.interruptAll (h : s.Balanced n) (hs : s.Placed) : s.interruptAllRunningComputations.Balanced n := by
  unfold interruptAllRunningComputations
  generalize ascending s.mComputing.keys = l
  induction l generalizing s with
  | nil => exact h
  | cons id l ih =>
    rw [foldl_cons]
    cases hp : lookup id s.mComputing with
    | none => exact ih h hs
    | some p =>
      have hplaced : (s.interrupt p).Placed := hs.modify p fun _ => rfl
      exact ih (h.fewer rfl (fun _ hid => ⟨hid, rfl⟩) (hs.interrupt hp).1) hplaced

omit [LinearOrder τ] in
/-- The computation that is selected gets an object, and the others keep theirs. -/
theorem Placed.inProgress_insert (h : s.Placed) (c : ComputablePriority τ)
    (computable : StdMap ComputationId (ComputablePriority τ)) (id : ComputationId) :
    ({ s with
      mComputablePriorities := computable
      mComputing := insert c.computationId s.objects.length s.mComputing
      objects := s.objects ++ [{ mComputablePriority := c }] } : WorkerThreadPoolImpl τ).inProgress id =
      if id = c.computationId then some { mComputablePriority := c } else s.inProgress id := by
  show (lookup id (insert c.computationId s.objects.length s.mComputing)).bind
    (fun p => (s.objects ++ [{ mComputablePriority := c }])[p]?) = _
  rw [StdMap.lookup_insert]
  split
  · simp
  · unfold inProgress
    cases hp : lookup id s.mComputing with
    | none => rfl
    | some p =>
      obtain ⟨o, ho, -⟩ := h id p hp
      exact getElem?_append_left (List.getElem?_eq_some_iff.1 ho).1

/-- A thread takes the computation of the highest priority. -/
theorem Balanced.select (h : s.Balanced n) (hs : s.Placed)
    (hkeyed : ∀ id c, lookup id s.mComputablePriorities = some c → c.computationId = id) :
    wp selectNextComputation (fun _ s' => s'.mComputing.keys.card ≤ n → s'.Balanced n) (fun _ _ => True) s := by
  unfold selectNextComputation
  rw [wp_bind, wp_get]
  cases hl : s.lowestValue with
  | none => exact fun _ => h
  | some c =>
    rw [wp_bind, wp_modify, wp_bind, wp_lassert]
    split
    · rw [wp_bind, wp_modify]
      intro hplaces
      obtain ⟨id, hc⟩ := lookup_of_lowestValue hl
      obtain rfl := hkeyed id c hc
      have hwaiting : c.computationId ∈ s.load.waiting := mem_keys.2 (mem_iff_lookup.2 ⟨c, hc⟩)
      have hrank : s.load.waitingRank c.computationId = c.priority.rank := by
        obtain ⟨c', hc', hrank⟩ := exists_of_mem_waiting hwaiting
        rw [hrank, some.inj (hc'.symm.trans hc)]
      refine ⟨h.count, h.load.start hwaiting (fun w hw => ?_) (fun w hw => ?_) (fun r hr => ?_)
        ((card_filter_le _ _).trans hplaces)⟩
      · obtain ⟨c', hc', hrank'⟩ := exists_of_mem_waiting hw
        rw [hrank', hrank]
        exact rank_le_of_lowestValue hl hc'
      · obtain ⟨hin, hsame⟩ := (s.waits_remove c.computationId).2 w hw
        refine ⟨?_, hin, hsame⟩
        rintro rfl
        exact (mem_erase.1 (mem_keys.1 hw)).1 rfl
      · have hobject := hs.inProgress_insert c (erase c.computationId s.mComputablePriorities)
        rcases eq_or_ne r c.computationId with rfl | hne
        · refine .inr ⟨rfl, ?_⟩
          rw [hrank]
          refine congrArg (fun o => (Option.elim o default fun object =>
            object.mComputablePriority.priority).rank) ((hobject c.computationId).trans (if_pos rfl))
        · have hin := (mem_insert.1 (mem_uninterrupted.1 hr).1).resolve_left hne
          exact .inl (runs_of hr hin ((hobject r).trans (if_neg hne)))
    · trivial

/-! ## Giving a computation back -/

/-- What runs is the same. -/
structure SameRunning (s s' : WorkerThreadPoolImpl τ) : Prop where
  count : s'.mThreadCount = s.mThreadCount
  computing : s'.mComputing = s.mComputing
  objects : s'.objects = s.objects

omit [LinearOrder τ] in
theorem SameRunning.trans {s₁ s₂ : WorkerThreadPoolImpl τ} (h : s.SameRunning s₁) (h' : s₁.SameRunning s₂) :
    s.SameRunning s₂ :=
  ⟨h'.count.trans h.count, h'.computing.trans h.computing, h'.objects.trans h.objects⟩

omit [LinearOrder τ] in
/-- Where a thread is idle, a computation that comes to wait interrupts nothing. -/
theorem HasIdle.insert (h : s.HasIdle) (c : ComputablePriority τ) :
    wp (insertToComputableSet c) (fun _ s' => s.SameRunning s') (fun _ _ => True) s := by
  unfold insertToComputableSet interruptComputationIfLowerPriority
  rw [wp_bind, wp_get, wp_bind, wp_lassert]
  split
  · rw [wp_bind, wp_modify, wp_bind, wp_get, wp_ite]
    rw [if_pos (Or.inr h : s.mComputing.keys.card = 0 ∨ s.mComputing.keys.card < s.mThreadCount)]
    exact ⟨rfl, rfl, rfl⟩
  · trivial

theorem HasIdle.change (h : s.HasIdle) {change : LocalComputationPriorityAndStatusChanged}
    (hc : ¬ s.isComputing change.computation) (now : τ) :
    wp (onComputationStatusChanged change now) (fun _ s' => s.SameRunning s') (fun _ _ => True) s := by
  unfold onComputationStatusChanged
  rw [wp_bind, wp_get, wp_ite, if_neg hc, wp_bind, wp_modify, wp_ite]
  split
  · unfold addToComputableSet
    have hc' : ¬ (s.removeFromComputableSet change.computation).isComputing change.computation := hc
    rw [wp_bind, wp_get, wp_ite, if_neg hc', wp_ite]
    split
    · exact ⟨rfl, rfl, rfl⟩
    · have hidle : (s.removeFromComputableSet change.computation).HasIdle := h
      refine (hidle.insert ⟨change.newPriority, now, change.computation⟩).mono ?_ fun _ _ => id
      exact fun _ s' hsame => ⟨hsame.count, hsame.computing, hsame.objects⟩
  · exact ⟨rfl, rfl, rfl⟩

/-- The replay of the changes of a computation interrupts nothing. -/
theorem HasIdle.processPendingCheckin (h : s.HasIdle) (now : ℕ → τ)
    (hid : ∀ changes, lookup id s.mStatusChangesPendingCheckin = some changes →
      ∀ change ∈ changes, change.computation = id) :
    wp (processLocalComputationStatusUpdatesPendingCheckin id now) (fun _ s' => s.SameRunning s')
      (fun _ _ => True) s := by
  unfold processLocalComputationStatusUpdatesPendingCheckin
  rw [wp_bind, wp_get, wp_bind, wp_lassert]
  split
  · next hc =>
    cases hl : lookup id s.mStatusChangesPendingCheckin with
    | none => exact ⟨rfl, rfl, rfl⟩
    | some changes =>
      rw [wp_bind]
      have hall : ∀ change ∈ changes.zipIdx, change.1.computation = id :=
        fun change hchange => hid changes hl change.1 (fst_mem_of_mem_zipIdx hchange)
      refine (wp_forM (fun l t => (∀ change ∈ l, change.1.computation = id) ∧ s.SameRunning t)
        (fun change l t ht => ?_) changes.zipIdx ⟨hall, ⟨rfl, rfl, rfl⟩⟩).imp fun _ t ht => ?_
      · obtain ⟨hl, hsame⟩ := ht
        have hidle : t.HasIdle := by
          unfold HasIdle
          rw [hsame.computing, hsame.count]
          exact h
        have hnot : ¬ t.isComputing change.1.computation := by
          unfold isComputing
          rw [hsame.computing, hl change mem_cons_self]
          exact hc
        refine (hidle.change hnot (now change.2)).imp fun _ _ hsame' => ?_
        exact ⟨fun c hc => hl c (.tail _ hc), hsame.trans hsame'⟩
      · rw [wp_modify]
        exact ⟨ht.2.count, ht.2.computing, ht.2.objects⟩
  · trivial

omit [LinearOrder τ] in
/-- A computation is not computed any more, and waits as it is given back. -/
theorem Balanced.giveBack (h : s.Balanced n) {back : Option ComputationPriority}
    (hin : id ∈ s.mComputing) (hcount : s'.mThreadCount = s.mThreadCount) (hobjects : s'.objects = s.objects)
    (hcomputing : s'.mComputing = erase id s.mComputing)
    (hothers : ∀ id', id' ≠ id → lookup id' s'.mComputablePriorities = lookup id' s.mComputablePriorities)
    (hback : (lookup id s'.mComputablePriorities).map ComputablePriority.priority = back)
    (hroom : s.isInterrupted id → ∀ priority ∈ back, s.Room id priority) : s'.Balanced n := by
  have hruns : s'.load.RunsFewer s.load := by
    intro r hr
    have hmem := (mem_uninterrupted.1 hr).1
    rw [hcomputing, Finmap.mem_erase] at hmem
    refine runs_of hr hmem.2 ?_
    unfold inProgress
    rw [hobjects, hcomputing, StdMap.lookup_erase, if_neg hmem.1]
  have hwaits := waitsBut_of hothers
  refine ⟨hcount.trans h.count, ?_⟩
  by_cases hint : s.isInterrupted id
  · refine h.load.wait hwaits hruns fun hwaiting hout => ?_
    obtain ⟨c, hc, hrank⟩ := exists_of_mem_waiting hwaiting
    rw [hrank, outranks_load] at hout
    rw [overdue_load, ← h.count]
    rw [hc] at hback
    exact hroom hint c.priority hback.symm hout
  · refine h.load.preempt (r := id) hwaits hruns (mem_uninterrupted.2 ⟨hin, hint⟩) fun hr => ?_
    have hmem := (mem_uninterrupted.1 hr).1
    rw [hcomputing, Finmap.mem_erase] at hmem
    exact hmem.1 rfl

namespace System

variable {s s' : System τ n}

omit [LinearOrder τ] in
/-- A call on the pool that does not throw leaves what it leaves of the pool. -/
theorem pool_call {α : Type} {s : System τ n} {x : Call τ α} {after : α → System τ n → System τ n}
    {P : WorkerThreadPoolImpl τ → Prop}
    (h : wp x (fun a pool => P (after a { s with pool }).pool) (fun _ _ => False) s.pool) :
    P (s.call x after).pool := by
  obtain ⟨a, pool, hrun, hq⟩ := h.exists_run
  unfold call
  rw [hrun]
  exact hq

omit [LinearOrder τ] in
/-- No more computations are computed than there are threads. -/
theorem Kept.card_computing (h : s.Kept) : s.pool.mComputing.keys.card ≤ n := by
  have hworker : ∀ id : s.pool.mComputing.keys, ∃ w, ∃ p, (s.workers w).computation = some p ∧
      lookup id.1 s.pool.mComputing = some p := by
    intro id
    obtain ⟨p, hp⟩ := mem_iff_lookup.1 (mem_keys.1 id.2)
    obtain ⟨-, w, hw⟩ := h.sound.computed id p hp
    exact ⟨w, p, hw, hp⟩
  choose worker hworker using hworker
  have hinj : Function.Injective worker := by
    intro id id' heq
    obtain ⟨p, hw, hp⟩ := hworker id
    obtain ⟨p', hw', hp'⟩ := hworker id'
    rw [heq, hw'] at hw
    obtain rfl := some.inj hw
    exact Subtype.ext (h.sound.placed.inj hp hp')
  simpa using Fintype.card_le_of_injective worker hinj

/-- The pool is correct, and there is a thread for each overdue computation. -/
structure Served (s : System τ n) : Prop where
  kept : s.Kept
  balanced : s.pool.Balanced n

section
variable (h : s.Served) {worker : Fin n} {p : ℕ}
include h

theorem Served.onComputationStatusChanged {change : LocalComputationPriorityAndStatusChanged} {now : τ}
    (ha : s.Absorbed (.onComputationStatusChanged change now)) :
    wp (onComputationStatusChanged change now) (fun _ pool => pool.Balanced n)
      (fun _ _ => False) s.pool := by
  have hs := h.kept.sound.placed
  by_cases hc : s.pool.isComputing change.computation
  · unfold WorkerThreadPoolImpl.onComputationStatusChanged
    rw [wp_bind, wp_get, wp_ite, if_pos hc, wp_bind, wp_modify, wp_modify]
    generalize insert change.computation _ s.pool.mStatusChangesPendingCheckin = pending
    have hbalanced : ({ s.pool with mStatusChangesPendingCheckin := pending } :
        WorkerThreadPoolImpl τ).Balanced n := ⟨h.balanced.count, h.balanced.load⟩
    refine hbalanced.updateComputingPriority hs ?_ change.computation change.newPriority fun hidle => ?_
    · rw [hbalanced.count]
      exact h.kept.card_computing
    · have hroom := ha hidle
      rw [if_pos hc] at hroom
      exact hroom
  · refine h.balanced.changeIdle hs hc (fun hidle => ?_) now
    have hroom := ha hidle
    rwa [if_neg hc] at hroom

omit [LinearOrder τ] in
/-- The thread that gives a computation back is idle. -/
theorem Served.hasIdle {id : ComputationId} (hin : id ∈ s.pool.mComputing) :
    (s.pool.eraseFromComputingSet id).HasIdle := by
  have hlt := card_erase_lt_of_mem (mem_keys.2 hin)
  have := h.kept.card_computing
  have := h.balanced.count
  show (erase id s.pool.mComputing).keys.card < s.pool.mThreadCount
  rw [keys_erase]
  omega

/-- The waiting changes of a computation that is given back are replayed. -/
theorem Served.replay {id : ComputationId} (hin : id ∈ s.pool.mComputing) {s₁ : WorkerThreadPoolImpl τ}
    {pre : Option ComputationPriority} (hsame : (s.pool.eraseFromComputingSet id).SameRunning s₁)
    (hpending : s₁.mStatusChangesPendingCheckin = s.pool.mStatusChangesPendingCheckin)
    (honly : OnlyAt id s.pool.mComputablePriorities s₁.mComputablePriorities)
    (hbefore : (lookup id s₁.mComputablePriorities).map ComputablePriority.priority = pre)
    (hroom : s.pool.isInterrupted id → ∀ priority ∈
      lastStanding ((lookup id s.pool.mStatusChangesPendingCheckin).getD []) pre,
      s.pool.Room id priority) (now : ℕ → τ) :
    wp (processLocalComputationStatusUpdatesPendingCheckin id now) (fun _ pool => pool.Balanced n)
      (fun _ _ => False) s₁ := by
  have hcomputing : s₁.mComputing = erase id s.pool.mComputing := hsame.computing
  have hidle : s₁.HasIdle := by
    unfold HasIdle
    rw [hsame.computing, hsame.count]
    exact h.hasIdle hin
  have hnot : ¬ s₁.isComputing id := by
    unfold isComputing
    rw [hcomputing, Finmap.mem_erase]
    exact fun hmem => hmem.1 rfl
  have hpointing : s₁.tables.Pointing := by
    intro id' q hq
    rw [show s₁.tables.computing = erase id s.pool.mComputing from hcomputing, StdMap.lookup_erase] at hq
    split at hq
    · cases hq
    · have hlt := h.kept.sound.pointing id' q hq
      show q < (s₁.objects.map _).length
      rw [hsame.objects]
      exact hlt
  have hchanges : ∀ changes, lookup id s₁.mStatusChangesPendingCheckin = some changes →
      ∀ change ∈ changes, change.computation = id := by
    intro changes hl
    rw [hpending] at hl
    exact (h.kept.sound.pending id changes hl).2
  refine ((wp_processPendingCheckin now hpointing hnot hchanges honly.keyed).and
    (hidle.processPendingCheckin now hchanges)).mono ?_ fun _ _ he => he.1
  rintro _ s₂ ⟨⟨computable, ht, honly', hlast⟩, hsame'⟩
  have hcomputable : s₂.mComputablePriorities = computable := congrArg Tables.computable ht
  rw [hpending, hbefore] at hlast
  refine h.balanced.giveBack hin (hsame'.count.trans hsame.count) (hsame'.objects.trans hsame.objects)
    (hsame'.computing.trans hcomputing) (fun id' hne => ?_) (hcomputable ▸ hlast) hroom
  rw [hcomputable]
  exact (honly.trans honly').others id' hne

/-- A thread gives back what it has computed. -/
theorem Served.finish {needsReturn computable : Bool} {now : ℕ → τ}
    (hw : s.workers worker = .decided p needsReturn computable) (ha : s.Absorbed (.finish worker now))
    {o : InProgressComputation τ} (ho : s.pool.objects[p]? = some o) :
    wp (if needsReturn then removeFromComputingSet o.mComputablePriority.computationId now
        else returnToComputableSetAndRemoveFromComputingSet p now) (fun _ pool => pool.Balanced n)
      (fun _ _ => False) s.pool := by
  have hcomputation : (s.workers worker).computation = some p := by rw [hw]; rfl
  obtain ⟨o', ho', hp⟩ := h.kept.exists_object hcomputation
  obtain rfl := some.inj (ho'.symm.trans ho)
  have hin : o'.mComputablePriority.computationId ∈ s.pool.mComputing := mem_iff_lookup.2 ⟨p, hp⟩
  have hroom : s.pool.isInterrupted o'.mComputablePriority.computationId →
      ∀ priority ∈ s.pool.priorityGivenBack o' needsReturn,
        s.pool.Room o'.mComputablePriority.computationId priority := by
    intro hint
    rw [isInterrupted, inProgress, hp, bind_some, ho] at hint
    simp only [Absorbed, hw] at ha
    exact ha o' ho hint
  have hapart := h.kept.sound.apart _ p hp
  cases needsReturn with
  | true =>
    rw [if_pos rfl, removeFromComputingSet, wp_bind, wp_modify]
    refine h.replay hin ⟨rfl, rfl, rfl⟩ rfl ⟨fun _ _ => rfl, h.kept.sound.keyed _⟩ ?_ hroom now
    exact congrArg (Option.map priority) hapart
  | false =>
    have hidle := h.hasIdle hin
    have hnot : ¬ (s.pool.eraseFromComputingSet o'.mComputablePriority.computationId).isComputing
        o'.mComputablePriority.computationId := fun hmem => (mem_erase.1 hmem).1 rfl
    have hpointing : (s.pool.eraseFromComputingSet o'.mComputablePriority.computationId).tables.Pointing := by
      intro id q hq
      have hq := (lookup_erase _ _ _).symm.trans hq
      split at hq
      · cases hq
      · exact h.kept.sound.pointing id q hq
    rw [if_neg (by simp), returnToComputableSetAndRemoveFromComputingSet, wp_bind, wp_object ho, wp_bind, wp_modify,
      wp_bind]
    refine ((wp_insertToComputableSet hpointing hnot).and (hidle.insert o'.mComputablePriority)).mono ?_
      fun _ _ he => he.1
    rintro _ s₁ ⟨ht, hsame⟩
    have hcomputable : s₁.mComputablePriorities = insert o'.mComputablePriority.computationId
        o'.mComputablePriority s.pool.mComputablePriorities := congrArg Tables.computable ht
    refine h.replay hin hsame (congrArg Tables.pending ht) ⟨fun id hne => ?_, fun c hc => ?_⟩ ?_ hroom now
    · rw [hcomputable, StdMap.lookup_insert, if_neg hne]
    · rw [hcomputable, StdMap.lookup_insert, if_pos rfl] at hc
      rw [← some.inj hc]
    · rw [hcomputable, StdMap.lookup_insert, if_pos rfl]
      rfl

omit [LinearOrder τ] in
/-- A thread that starts to compute sets the state of its object. -/
theorem Served.compute (hw : s.workers worker = .checkedOut p) :
    wp (compute p true) (fun _ pool => pool.Balanced n) (fun _ _ => True) s.pool := by
  obtain ⟨o, ho, hp⟩ := h.kept.exists_object (show (s.workers worker).computation = some p by rw [hw]; rfl)
  unfold WorkerThreadPoolImpl.compute
  rw [wp_bind, wp_lassert, if_pos rfl, wp_bind, wp_object ho, wp_bind, wp_lassert]
  split
  · rw [wp_ite]
    split
    · exact h.balanced
    · rw [wp_modify]
      have hobject := h.kept.sound.placed.inProgress_modify hp fun object => { object with mState := true }
      refine h.balanced.fewer rfl (fun _ hid => ⟨hid, rfl⟩) fun r hr => ?_
      obtain ⟨hin, hno⟩ := mem_uninterrupted.1 hr
      rw [isInterrupted, hobject r] at hno
      refine ⟨mem_uninterrupted.2 ⟨hin, ?_⟩, ?_⟩
      · rw [isInterrupted]
        split at hno
        · rwa [Option.any_map] at hno
        · exact hno
      · refine (congrArg (fun o => (Option.elim o default fun object =>
          object.mComputablePriority.priority).rank) (hobject r)).trans ?_
        show _ = ((s.pool.inProgress r).elim default fun object => object.mComputablePriority.priority).rank
        split
        · cases s.pool.inProgress r <;> rfl
        · rfl
  · trivial

/-- Every step that meets the condition leaves a thread for each overdue computation. -/
theorem Served.step {op : Op τ n} (ha : s.Absorbed op) (hs : s.step op = some s') : s'.Served := by
  refine ⟨h.kept.step hs, ?_⟩
  cases op with
  | onComputationStatusChanged change now =>
    obtain rfl := some.inj hs
    rw [setStanding_eq]
    exact pool_call (P := Balanced n) (h.onComputationStatusChanged ha)
  | interruptAll =>
    obtain rfl := some.inj hs
    exact h.balanced.interruptAll h.kept.sound.placed
  | select worker =>
    have hkept := h.kept.step hs
    unfold System.step at hs
    cases hw : s.workers worker <;> simp only [hw] at hs <;> try cases hs
    refine pool_call (P := fun pool => pool.mComputing.keys.card ≤ n → pool.Balanced n) ?_ hkept.card_computing
    refine ((h.kept.sound.wp_select hw).and
      (h.balanced.select h.kept.sound.placed h.kept.sound.keyed)).mono ?_ fun _ _ he => he.1
    rintro selected pool ⟨-, hselect⟩
    cases selected <;> exact hselect
  | checkOut worker found =>
    unfold System.step at hs
    cases hw : s.workers worker <;> simp only [hw] at hs <;> try cases hs
    exact h.balanced
  | compute worker =>
    unfold System.step at hs
    cases hw : s.workers worker <;> simp only [hw] at hs <;> try cases hs
    refine pool_call (P := Balanced n) ?_
    exact ((h.kept.sound.wp_compute hw).and (h.compute hw)).mono (fun _ _ hb => hb.2) fun _ _ he => he.1
  | checkIn worker isComputable =>
    unfold System.step at hs
    cases hw : s.workers worker <;> simp only [hw] at hs <;> try cases hs
    obtain ⟨o, ho, -⟩ := h.kept.exists_object (show (s.workers worker).computation = some _ by rw [hw]; rfl)
    exact pool_call (P := Balanced n) ((wp_object ho).2 h.balanced)
  | finish worker now =>
    unfold System.step at hs
    cases hw : s.workers worker <;> simp only [hw] at hs <;> try cases hs
    obtain ⟨o, ho, -⟩ := h.kept.exists_object (show (s.workers worker).computation = some _ by rw [hw]; rfl)
    refine pool_call (P := Balanced n) ((wp_object ho).2 ?_)
    rw [givenBack_eq]
    exact pool_call (P := Balanced n) (h.finish hw ha ho)

end

omit [LinearOrder τ] in
theorem served_initial : ({} : System τ n).Served where
  kept := kept_initial
  balanced := by
    refine ⟨rfl, ?_⟩
    exact Nat.zero_le n

/-- In a run every step of which adds no more overdue computations than there are threads for, no state in which all
threads are computing has more overdue computations than interrupted ones. -/
theorem noInversion_of_absorbed {ops : List (Op τ n)} (h : Run.EveryStep step Absorbed ({} : System τ n) ops) :
    Run.Always step (fun s => s.pool.NoInversion) ({} : System τ n) ops :=
  (Run.always_of_everyStep (P := Served) served_initial (fun _ _ _ hs ha hstep => hs.step ha hstep) h).mono
    fun _ hs => hs.balanced.noInversion

end System

end

namespace System

/-- Where both threads are computing when a computation of a higher priority comes, one of them is interrupted. -/
theorem noInversion_of_absorbed_interrupted : Run.Always step (fun s => s.pool.NoInversion) ({} : System ℕ 2)
      [.onComputationStatusChanged (.Active (.Root 0) ⟨0, some 1, 0, 0⟩ .Computable) 0, .select 0,
        .onComputationStatusChanged (.Active (.Root 1) ⟨0, some 2, 0, 0⟩ .Computable) 1, .select 1,
        .onComputationStatusChanged (.Active (.Root 2) ⟨0, some 2, 0, 0⟩ .Computable) 2] :=
  noInversion_of_absorbed (by decide +kernel)

/-- Two computations come while one of two threads is idle and the other one computes one of a lower priority. The idle
thread takes one of the two; the other one waits, and nothing is interrupted. -/
theorem inversion_idle : ¬ Run.Always step (fun s => s.pool.NoInversion) ({} : System ℕ 2)
      [.onComputationStatusChanged (.Active (.Root 0) ⟨0, some 1, 0, 0⟩ .Computable) 0, .select 0,
        .onComputationStatusChanged (.Active (.Root 1) ⟨0, some 2, 0, 0⟩ .Computable) 1,
        .onComputationStatusChanged (.Active (.Root 2) ⟨0, some 2, 0, 0⟩ .Computable) 2, .select 1] := by
  intro h
  obtain ⟨s, hs, hno⟩ := h.any (p := fun s => ¬ s.pool.NoInversion) (by decide +kernel)
  exact of_decide_eq_true hno hs

end System

end Cumulus.WorkerThreadPoolImpl
