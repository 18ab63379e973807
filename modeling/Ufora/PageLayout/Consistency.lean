import Ufora.PageLayout.Costs

/-!
# The costs stay right

Costs are consistent where the tables are priced and the sets of pages and tasks agree with each other. Every operation
keeps that, one lemma for each, as long as the machines that get known have nothing to be added for: `touch` starts the
costs of a new machine at zero and lists no task for it.
-/

open Ordered Effect List Finset MapWithIndex Option TwoWaySetMap StdMap

namespace Cumulus.PageLayoutCalculator.TaskCosts

open Fora (PageId)

variable {s s' s'' : TaskCosts} {t t' : TaskAllocatorId} {m m' : MachineId} {p : PageId} {c d : ℤ}
  {loose : MachineId → TaskAllocatorId → Prop}

/-! ## Consistent costs -/

/-- Everything that is kept by the operations. -/
structure Consistent (s : TaskCosts) : Prop where
  priced : s.Priced fun _ _ => False
  underallocated : ∀ t ∈ s.mUnderallocatedTasks, t ∈ s.mTasks
  pagesKnown : s.PagesKnown
  heldRight : s.HeldRight
  machineTask : ∀ m p, s.mMachineTaskPages.contains m p ↔ s.anyLoadingTaskHasPage m p
  machinesKnown : ∀ m p, s.mMachineHeldOrTaskPages.contains m p → m ∈ s.mMachines
  whole : ∀ t, s.mWholeTaskCosts.tryGetValue t = if t ∈ s.mTasks then some 0 else none

theorem anyLoading_iff : s.anyLoadingTaskHasPage m p ↔
    ∃ t, s.mTaskPages.contains t p ∧ s.mLoadingTasks.contains t m := by
  unfold anyLoadingTaskHasPage
  simp only [TwoWaySetMap.mem_getKeys]

theorem Consistent.machines_of_task (h : s.Consistent) (hp : s.mMachineTaskPages.contains m p) : m ∈ s.mMachines :=
  h.machinesKnown m p ((h.heldRight m p).2 (.inr hp))

/-- What is known of the tasks, whatever the costs. -/
structure Standing (s : TaskCosts) : Prop where
  underallocated : ∀ t ∈ s.mUnderallocatedTasks, t ∈ s.mTasks
  pagesKnown : s.PagesKnown
  whole : ∀ t, s.mWholeTaskCosts.tryGetValue t = if t ∈ s.mTasks then some 0 else none

/-- What a change that leaves the pages and tasks alone has to show. -/
theorem Consistent.of_alike (ha : Alike s s') (hpriced : s'.Priced fun _ _ => False) (hs : s.Standing)
    (hheld : s'.HeldRight)
    (htask : ∀ m p, s'.mMachineTaskPages.contains m p ↔ s.anyLoadingTaskHasPage m p)
    (hmachines : ∀ m p, s'.mMachineHeldOrTaskPages.contains m p → m ∈ s.mMachines) : s'.Consistent where
  priced := hpriced
  underallocated := by
    rw [ha.underallocated, ha.tasks]
    exact hs.underallocated
  pagesKnown := ha.pagesKnown hs.pagesKnown
  heldRight := hheld
  machineTask m p := (htask m p).trans ha.anyLoading.symm
  machinesKnown m p hp := ha.machines ▸ hmachines m p hp
  whole := by
    rw [ha.whole, ha.tasks]
    exact hs.whole

/-- What a change of the costs alone has to show. -/
theorem Consistent.of_samePages (hp : SamePages s s') (hpriced : s'.Priced fun _ _ => False) (hs : s.Standing)
    (hheld : s.HeldRight)
    (htask : ∀ m p, s.mMachineTaskPages.contains m p ↔ s.anyLoadingTaskHasPage m p)
    (hmachines : ∀ m p, s.mMachineHeldOrTaskPages.contains m p → m ∈ s.mMachines) : s'.Consistent :=
  .of_alike hp.toAlike hpriced hs (hp.heldRight hheld) (hp.machineTask ▸ htask) (hp.heldOrTask ▸ hmachines)

/-! ### Touching -/

theorem foldl_setBoth (l : List MachineId) (s : TaskCosts) (t : TaskAllocatorId) :
    ∃ costsByMachine costsByTask, l.foldl (fun s m => (s.setByMachine t m 0).setByTask t m 0) s =
        { s with mCostsByMachine := costsByMachine, mCostsByTask := costsByTask } ∧
      ∀ m' t', byMachine { s with mCostsByMachine := costsByMachine, mCostsByTask := costsByTask } m' t' =
          (if m' ∈ l ∧ t' = t then some 0 else s.byMachine m' t') ∧
        byTask { s with mCostsByMachine := costsByMachine, mCostsByTask := costsByTask } m' t' =
          if m' ∈ l ∧ t' = t then some 0 else s.byTask m' t' := by
  induction l generalizing s with
  | nil => exact ⟨_, _, rfl, fun m' t' => ⟨(if_neg fun he => nomatch he.1).symm, (if_neg fun he => nomatch he.1).symm⟩⟩
  | cons m l ih =>
    obtain ⟨a, b, he, hab⟩ := ih ((s.setByMachine t m 0).setByTask t m 0)
    refine ⟨a, b, he, fun m' t' => ?_⟩
    obtain ⟨ha, hb⟩ := hab m' t'
    have hold : ((s.setByMachine t m 0).setByTask t m 0).byMachine m' t' =
        if m' = m ∧ t' = t then some 0 else s.byMachine m' t' := byMachine_setByMachine
    have holdTask : ((s.setByMachine t m 0).setByTask t m 0).byTask m' t' =
        if m' = m ∧ t' = t then some 0 else s.byTask m' t' := byTask_setByTask
    refine ⟨ha.trans ?_, hb.trans ?_⟩
    · rw [hold]
      split_ifs <;> grind
    · rw [holdTask]
      split_ifs <;> grind

theorem Consistent.touchTask (h : s.Consistent) : (s.touchTask t).Consistent := by
  unfold TaskCosts.touchTask
  split
  · exact h
  · next ht =>
    dsimp only
    obtain ⟨a, b, he, hab⟩ := foldl_setBoth (ascending s.mMachines) { s with mTasks := insert t s.mTasks } t
    rw [he]
    have hnopages m : s.computeActualTaskCost t m = 0 := by
      refine sum_eq_zero fun p hp => absurd ?_ ht
      exact h.pagesKnown t p (mem_lacking.1 hp).1
    have hcost m' t' : (if m' ∈ ascending s.mMachines ∧ t' = t then some 0
        else s.knownCost m' t') =
        if m' ∈ s.mMachines ∧ t' ∈ insert t s.mTasks then some (s.computeActualTaskCost t' m') else none := by
      unfold knownCost
      by_cases ht' : t' = t
      · subst ht'
        have hk : ¬ (m' ∈ s.mMachines ∧ t' ∈ s.mTasks) := fun hk => ht hk.2
        rw [hnopages, if_neg hk]
        simp
      · simp [ht']
    constructor
    case priced =>
      refine ⟨fun m' t' => ?_, fun m' t' => ?_, h.priced.unlisted, fun m' t' hyes _ => ?_⟩
      · refine ((hab m' t').1.trans ?_).trans (hcost m' t')
        rw [← h.priced.byMachine]
        rfl
      · refine ((hab m' t').2.trans ?_).trans (hcost m' t')
        rw [← h.priced.byTask]
        rfl
      · refine (h.priced.listed m' t' hyes id).trans ?_
        have ht' := h.underallocated t' hyes.2.2
        show (if _ then _ else none) = if _ ∧ t' ∈ insert t s.mTasks then _ else none
        simp only [ht', mem_insert_of_mem ht']
        rfl
    case underallocated => exact fun t' ht' => mem_insert_of_mem (h.underallocated t' ht')
    case pagesKnown => exact fun t' p hp => mem_insert_of_mem (h.pagesKnown t' p hp)
    case heldRight => exact h.heldRight
    case machineTask => exact h.machineTask
    case machinesKnown => exact h.machinesKnown
    case whole =>
      intro t'
      rw [tryGetValue_set]
      rw [h.whole]
      split_ifs <;> grind

theorem foldl_setByTask (l : List TaskAllocatorId) (s : TaskCosts) (m : MachineId) :
    ∃ costsByTask, l.foldl (fun s t => s.setByTask t m 0) s = { s with mCostsByTask := costsByTask } ∧
      ∀ m' t', byTask { s with mCostsByTask := costsByTask } m' t' =
        if m' = m ∧ t' ∈ l then some 0 else s.byTask m' t' := by
  induction l generalizing s with
  | nil => exact ⟨_, rfl, fun m' t' => (if_neg fun he => nomatch he.2).symm⟩
  | cons t l ih =>
    obtain ⟨b, he, hb⟩ := ih (s.setByTask t m 0)
    refine ⟨b, he, fun m' t' => (hb m' t').trans ?_⟩
    rw [byTask_setByTask]
    split_ifs <;> grind

/-- The cost of a task on a machine that lacks all its pages. -/
def wholeCost (s : TaskCosts) (t : TaskAllocatorId) : ℤ := ∑ page ∈ s.mTaskPages.getValues t, (page.bytecount : ℤ)

/-- A machine may be added: its costs, which start at zero, are right. -/
def MayAdd (s : TaskCosts) (m : MachineId) : Prop :=
  m ∉ s.mMachines → ∀ t ∈ s.mTasks, s.wholeCost t = 0 ∧ ¬ s.taskAllocatableOnMachine t m
deriving Decidable

theorem Consistent.touchMachine (h : s.Consistent) (hadd : s.MayAdd m) : (s.touchMachine m).Consistent := by
  unfold TaskCosts.touchMachine
  split
  · exact h
  · next hm =>
    obtain ⟨b, he, hb⟩ := foldl_setByTask (ascending s.mTasks) { s with
      mMachines := insert m s.mMachines
      mCostsByMachine := Finmap.insert m s.mWholeTaskCosts s.mCostsByMachine } m
    rw [he]
    have hlacks t : s.computeActualTaskCost t m = s.wholeCost t := by
      refine sum_congr (filter_true_of_mem fun p _ => ?_) fun _ _ => rfl
      exact fun hheld => hm (h.machinesKnown m p hheld)
    have hby m' t' : byMachine { s with mCostsByMachine := Finmap.insert m s.mWholeTaskCosts s.mCostsByMachine } m' t' =
          if m' = m then s.mWholeTaskCosts.tryGetValue t' else s.byMachine m' t' := by
      unfold byMachine
      rw [get_insert]
      split <;> rfl
    have hcost m' t' : (if m' = m ∧ t' ∈ s.mTasks then some 0 else s.knownCost m' t') =
          if m' ∈ insert m s.mMachines ∧ t' ∈ s.mTasks then some (s.computeActualTaskCost t' m') else none := by
      unfold knownCost
      by_cases ht : t' ∈ s.mTasks
      · by_cases he : m' = m
        · subst he
          rw [if_pos ⟨rfl, ht⟩, if_pos ⟨mem_insert_self _ _, ht⟩, hlacks, (hadd hm t' ht).1]
        · simp [he]
      · simp [ht]
    constructor
    case priced =>
      refine ⟨fun m' t' => ?_, fun m' t' => ?_, h.priced.unlisted, fun m' t' hyes _ => ?_⟩
      · refine ((hby m' t').trans ?_).trans (hcost m' t')
        rw [h.whole, h.priced.byMachine]
        by_cases hmm : m' = m
        · subst hmm
          have hno : ¬ (m' ∈ s.mMachines ∧ t' ∈ s.mTasks) := fun hk => hm hk.1
          unfold knownCost
          simp [hno]
        · simp [hmm]
      · refine ((hb m' t').trans ?_).trans (hcost m' t')
        rw [← h.priced.byTask]
        simp only [mem_ascending]
        rfl
      · have ht' := h.underallocated t' hyes.2.2
        have hmm : m' ≠ m := by
          rintro rfl
          exact (hadd hm t' ht').2 hyes
        refine ((h.priced.listed m' t' hyes id).trans ?_).trans (hcost m' t')
        rw [if_neg fun hk => hmm hk.1]
    case underallocated => exact h.underallocated
    case pagesKnown => exact h.pagesKnown
    case heldRight => exact h.heldRight
    case machineTask => exact h.machineTask
    case machinesKnown => exact fun m' p hp => mem_insert_of_mem (h.machinesKnown m' p hp)
    case whole => exact h.whole

theorem mem_touchMachine : m ∈ (s.touchMachine m).mMachines := by
  unfold touchMachine
  split
  · next hm => exact hm
  · obtain ⟨b, he, -⟩ := foldl_setByTask (ascending s.mTasks) { s with
      mMachines := insert m s.mMachines
      mCostsByMachine := Finmap.insert m s.mWholeTaskCosts s.mCostsByMachine } m
    rw [he]
    exact mem_insert_self _ _

/-! ### Pages -/

/-- The pages that a machine holds change at one page, which is then checked. -/
theorem Consistent.wp_heldPages (h : s.Consistent) (hm : m ∈ s.mMachines) {held : TwoWaySetMap MachineId PageId}
    (hsame : ∀ m' p', ¬ (m' = m ∧ p' = p) → (held.contains m' p' ↔ s.mMachineHeldPages.contains m' p')) :
    wp (checkPageOnMachine m p) (fun _ s' => s'.Consistent) (fun _ _ => False)
      { s with mMachineHeldPages := held } := by
  refine (wp_checkPageOnMachine (s := { s with mMachineHeldPages := held })
    ⟨h.priced.byMachine, h.priced.byTask, h.priced.unlisted, h.priced.listed⟩ h.pagesKnown hm).imp fun _ s' hs' => ?_
  obtain ⟨hpriced, hchecked⟩ := hs'
  have hheld m' p' : s'.shouldBeHeldOrTaskPage m' p' ↔ held.contains m' p' ∨ s.mMachineTaskPages.contains m' p' := by
    unfold shouldBeHeldOrTaskPage
    rw [hchecked.held, hchecked.machineTask]
  refine .of_alike hchecked.toAlike hpriced ⟨h.underallocated, h.pagesKnown, h.whole⟩ (fun m' p' => ?_)
    (fun m' p' => ?_) fun m' p' hp => ?_
  · rw [hchecked.heldOrTask, hheld]
    split
    · next he =>
      obtain ⟨rfl, rfl⟩ := he
      exact Iff.rfl
    · next he =>
      rw [hsame m' p' he]
      exact h.heldRight m' p'
  · rw [hchecked.machineTask]
    exact h.machineTask m' p'
  · rw [hchecked.heldOrTask] at hp
    split at hp
    · next he => exact he.1 ▸ hm
    · exact h.machinesKnown m' p' hp

theorem exists_touchMachine (s : TaskCosts) (m : MachineId) : ∃ machines costsByMachine costsByTask,
    s.touchMachine m = { s with
      mMachines := machines
      mCostsByMachine := costsByMachine
      mCostsByTask := costsByTask } := by
  unfold touchMachine
  split
  · exact ⟨_, _, _, rfl⟩
  · obtain ⟨b, he, -⟩ := foldl_setByTask (ascending s.mTasks) { s with
      mMachines := insert m s.mMachines
      mCostsByMachine := Finmap.insert m s.mWholeTaskCosts s.mCostsByMachine } m
    exact ⟨_, _, _, he⟩

theorem held_touchMachine : (s.touchMachine m).mMachineHeldPages = s.mMachineHeldPages := by
  obtain ⟨_, _, _, he⟩ := exists_touchMachine s m
  rw [he]

theorem Consistent.machineAddPage (h : s.Consistent) (hadd : s.MayAdd m) (hnot : ¬ s.mMachineHeldPages.contains m p) :
    wp (machineAddPage m p) (fun _ s' => s'.Consistent) (fun _ _ => False) s := by
  unfold TaskCosts.machineAddPage
  rw [wp_bind, wp_modify, wp_bind, wp_get, wp_bind, wp_lassert, held_touchMachine, if_pos hnot, wp_bind, wp_modify]
  refine (h.touchMachine hadd).wp_heldPages mem_touchMachine fun m' p' hne => ?_
  rw [TwoWaySetMap.contains_insert]
  exact or_iff_right hne

theorem Consistent.machineDropPage (h : s.Consistent) (hheld : s.mMachineHeldPages.contains m p) :
    wp (machineDropPage m p) (fun _ s' => s'.Consistent) (fun _ _ => False) s := by
  have hm : m ∈ s.mMachines := h.machinesKnown m p ((h.heldRight m p).2 (.inl hheld))
  unfold TaskCosts.machineDropPage
  rw [wp_bind, wp_modify, wp_bind, wp_get, wp_bind, wp_lassert, held_touchMachine, if_pos hheld, wp_bind, wp_modify]
  refine (h.touchMachine fun hno => absurd hm hno).wp_heldPages mem_touchMachine fun m' p' hne => ?_
  rw [contains_drop]
  exact and_iff_left hne

/-- The costs are consistent where the pages of the tasks that load have become the right ones. -/
theorem Consistent.of_loaded {taskPage : MachineId → PageId → Prop} (hl : s.Loaded (fun _ _ => False) taskPage s')
    (hs : s.Standing) (htask : ∀ m p, taskPage m p ↔ s.anyLoadingTaskHasPage m p)
    (hmachines : ∀ m p, s.mMachineHeldPages.contains m p ∨ taskPage m p → m ∈ s.mMachines) : s'.Consistent := by
  refine .of_alike hl.toAlike hl.priced hs hl.heldRight (fun m p => ?_) fun m p hp => ?_
  · rw [hl.machineTask, htask]
  · rw [hl.heldRight] at hp
    unfold shouldBeHeldOrTaskPage at hp
    rw [hl.held, hl.machineTask] at hp
    exact hmachines m p hp

theorem mem_machinesLacking : (t', m') ∈ s.machinesLacking t p ↔
    t' = t ∧ m' ∈ s.mMachines ∧ ¬ s.mMachineHeldOrTaskPages.contains m' p := by
  unfold machinesLacking
  rw [List.mem_map]
  simp only [mem_filter, mem_ascending, decide_eq_true_iff]
  constructor
  · rintro ⟨m'', hm, he⟩
    obtain ⟨rfl, rfl⟩ := Prod.mk.inj he
    exact ⟨rfl, hm⟩
  · rintro ⟨rfl, hm⟩
    exact ⟨m', hm, rfl⟩

theorem nodup_machinesLacking : (s.machinesLacking t p).Nodup :=
  ((ascending_nodup s.mMachines).filter _).map fun _ _ he => (Prod.mk.inj he).2

theorem exists_touchTask (s : TaskCosts) (t : TaskAllocatorId) : ∃ tasks costsByMachine costsByTask whole,
    s.touchTask t = { s with
      mTasks := tasks
      mCostsByMachine := costsByMachine
      mCostsByTask := costsByTask
      mWholeTaskCosts := whole } := by
  unfold touchTask
  split
  · exact ⟨_, _, _, _, rfl⟩
  · dsimp only
    obtain ⟨a, b, he, -⟩ := foldl_setBoth (ascending s.mMachines) { s with mTasks := insert t s.mTasks } t
    rw [he]
    exact ⟨_, _, _, _, rfl⟩

theorem mem_touchTask : t ∈ (s.touchTask t).mTasks := by
  unfold touchTask
  split
  · next ht => exact ht
  · dsimp only
    obtain ⟨a, b, he, -⟩ := foldl_setBoth (ascending s.mMachines) { s with mTasks := insert t s.mTasks } t
    rw [he]
    exact mem_insert_self _ _

theorem mem_loading : m ∈ ascending (s.mLoadingTasks.getValues t) ↔ s.mLoadingTasks.contains t m := by
  rw [mem_ascending, mem_getValues]

theorem mem_taskPages : p ∈ ascending (s.mTaskPages.getValues t) ↔ s.mTaskPages.contains t p := by
  rw [mem_ascending, mem_getValues]

/-- The costs of a task follow the change of one of its pages. -/
theorem Consistent.wp_repriceTask (h : s.Consistent) (ht : t ∈ s.mTasks)
    {taskPages : TwoWaySetMap TaskAllocatorId PageId}
    (hcost : ∀ m, ¬ s.mMachineHeldOrTaskPages.contains m p →
      computeActualTaskCost { s with mTaskPages := taskPages } t m = s.computeActualTaskCost t m + d)
    (hsame : ∀ t' p', ¬ (t' = t ∧ p' = p) → (taskPages.contains t' p' ↔ s.mTaskPages.contains t' p')) :
    wp ((s.machinesLacking t p).forM (addToCost d)) (fun _ s' =>
      s'.Priced (fun _ _ => False) ∧ SamePages { s with mTaskPages := taskPages } s' ∧ s'.PagesKnown ∧ s'.HeldRight)
      (fun _ _ => False) { s with mTaskPages := taskPages } := by
  refine (wp_reprice (s := s) (fun _ _ => False) ?_ ?_ ?_ nodup_machinesLacking (fun pair hpair => ?_)
    (fun m' t' hmem => ?_) fun m' t' hm' hmem => ?_).imp fun _ s' hs' => ⟨hs'.1, hs'.2, ?_, ?_⟩
  · exact ⟨h.priced.byMachine, h.priced.byTask, h.priced.unlisted, h.priced.listed⟩
  · rfl
  · rfl
  · obtain ⟨ht', hm', -⟩ := mem_machinesLacking.1 hpair
    exact ⟨hm', ht' ▸ ht⟩
  · obtain ⟨rfl, -, hno⟩ := mem_machinesLacking.1 hmem
    exact hcost m' hno
  · refine cost_congr (ext fun q => ?_)
    rw [mem_machinesLacking] at hmem
    rw [mem_lacking, mem_lacking]
    by_cases he : t' = t ∧ q = p
    · obtain ⟨rfl, rfl⟩ := he
      have hheld : s.mMachineHeldOrTaskPages.contains m' q := by_contra fun hno => hmem ⟨rfl, hm', hno⟩
      exact iff_of_false (fun hq => hq.2 hheld) fun hq => hq.2 hheld
    · exact and_congr_left' (hsame t' q he)
  · refine hs'.2.toAlike.pagesKnown fun t' p' hp => ?_
    by_cases he : t' = t ∧ p' = p
    · exact he.1 ▸ ht
    · exact h.pagesKnown t' p' ((hsame t' p' he).1 hp)
  · exact hs'.2.heldRight h.heldRight

/-- A task that is known gets a page. -/
theorem Consistent.wp_insertTaskPage (h : s.Consistent) (ht : t ∈ s.mTasks) (hnot : ¬ s.mTaskPages.contains t p)
    (hload : ∀ m, s.mLoadingTasks.contains t m → m ∈ s.mMachines) :
    wp (do
      (s.machinesLacking t p).forM (addToCost p.bytecount)
      (ascending (s.mLoadingTasks.getValues t)).forM fun machine => addMachineTaskPage machine p)
      (fun _ s' => s'.Consistent) (fun _ _ => False) { s with mTaskPages := s.mTaskPages.insert t p } := by
  rw [wp_bind]
  refine (h.wp_repriceTask ht (fun m hno => cost_insert (fun hl => hnot (mem_lacking.1 hl).1) fun q => ?_)
    fun t' p' hne => contains_insert.trans (or_iff_right hne)).imp fun _ s₁ hs₁ => ?_
  · rw [mem_lacking, mem_lacking, TwoWaySetMap.contains_insert]
    grind
  · obtain ⟨hpriced, hsame, hknown, hheld⟩ := hs₁
    have hpages t' p' : s₁.mTaskPages.contains t' p' ↔ (t' = t ∧ p' = p) ∨ s.mTaskPages.contains t' p' := by
      rw [hsame.taskPages]
      exact contains_insert
    refine (wp_forM_addMachineTaskPage (fun m => m) (fun _ => p) _ hpriced hknown hheld
      fun m hm => ?_).imp fun _ s₂ hs₂ => of_loaded hs₂ ⟨?_, hknown, ?_⟩ (fun m p' => ?_) fun m p' hp => ?_
    · rw [hsame.machines]
      exact hload m (mem_loading.1 hm)
    · rw [hsame.underallocated, hsame.tasks]
      exact h.underallocated
    · rw [hsame.whole, hsame.tasks]
      exact h.whole
    · rw [hsame.machineTask]
      refine (or_congr_right (h.machineTask m p')).trans ?_
      rw [anyLoading_iff, anyLoading_iff, hsame.loading]
      simp only [hpages, mem_loading]
      constructor
      · rintro (⟨_, hl, rfl, rfl⟩ | ⟨t', hp, hl⟩)
        · exact ⟨t, .inl ⟨rfl, rfl⟩, hl⟩
        · exact ⟨t', .inr hp, hl⟩
      · rintro ⟨t', ⟨rfl, rfl⟩ | hp, hl⟩
        · exact .inl ⟨m, hl, rfl, rfl⟩
        · exact .inr ⟨t', hp, hl⟩
    · rw [hsame.machines]
      rw [hsame.held, hsame.machineTask] at hp
      rcases hp with hp | ⟨_, hl, rfl, -⟩ | hp
      · exact h.machinesKnown m p' ((h.heldRight m p').2 (.inl hp))
      · exact hload m (mem_loading.1 hl)
      · exact h.machines_of_task hp

/-- A task loses a page. -/
theorem Consistent.wp_dropTaskPage (h : s.Consistent) (hp : s.mTaskPages.contains t p) : wp (do
      (s.machinesLacking t p).forM (addToCost (-p.bytecount))
      (ascending (s.mLoadingTasks.getValues t)).forM fun machine => dropMachineTaskPage machine p)
      (fun _ s' => s'.Consistent ∧ Alike { s with mTaskPages := s.mTaskPages.drop t p } s') (fun _ _ => False)
      { s with mTaskPages := s.mTaskPages.drop t p } := by
  rw [wp_bind]
  refine (h.wp_repriceTask (h.pagesKnown t p hp) (fun m hno => cost_erase (mem_lacking.2 ⟨hp, hno⟩) fun q => ?_)
    fun t' p' hne => contains_drop.trans (and_iff_left hne)).imp fun _ s₁ hs₁ => ?_
  · rw [mem_lacking, mem_lacking, contains_drop]
    grind
  · obtain ⟨hpriced, hsame, hknown, hheld⟩ := hs₁
    have hpages (t' : TaskAllocatorId) (p' : PageId) :
        s₁.mTaskPages.contains t' p' ↔ s.mTaskPages.contains t' p' ∧ ¬ (t' = t ∧ p' = p) := by
      rw [hsame.taskPages]
      exact contains_drop
    refine (wp_forM_dropMachineTaskPage (fun m => m) (fun _ => p) _ hpriced hknown hheld
      fun m _ hmt => ?_).imp fun _ s₂ hs₂ => ⟨of_loaded hs₂ ⟨?_, hknown, ?_⟩ (fun m p' => ?_)
      fun m p' hp => ?_, hsame.toAlike.trans hs₂.toAlike⟩
    · rw [hsame.machineTask] at hmt
      rw [hsame.machines]
      exact h.machines_of_task hmt
    · rw [hsame.underallocated, hsame.tasks]
      exact h.underallocated
    · rw [hsame.whole, hsame.tasks]
      exact h.whole
    · rw [hsame.machineTask]
      refine (and_congr_left' (h.machineTask m p')).trans ?_
      rw [anyLoading_iff, anyLoading_iff, hsame.loading]
      simp only [hpages, mem_loading]
      constructor
      · rintro ⟨⟨t', hp', hl⟩, hany⟩
        by_cases he : t' = t ∧ p' = p
        · obtain ⟨rfl, rfl⟩ := he
          exact hany ⟨m, hl, rfl, rfl⟩
        · exact ⟨t', ⟨hp', he⟩, hl⟩
      · rintro ⟨t', hp', hl⟩
        exact ⟨⟨t', hp'.1, hl⟩, fun _ => ⟨t', hp', hl⟩⟩
    · rw [hsame.machines]
      rw [hsame.held, hsame.machineTask] at hp
      rcases hp with hp | hp
      · exact h.machinesKnown m p' ((h.heldRight m p').2 (.inl hp))
      · exact h.machines_of_task hp.1

theorem Consistent.taskAddPage (h : s.Consistent) (hnot : ¬ s.mTaskPages.contains t p)
    (hload : ∀ m, s.mLoadingTasks.contains t m → m ∈ s.mMachines) :
    wp (taskAddPage t p) (fun _ s' => s'.Consistent) (fun _ _ => False) s := by
  have htouch := h.touchTask (t := t)
  have ht := mem_touchTask (s := s) (t := t)
  obtain ⟨_, _, _, _, he⟩ := exists_touchTask s t
  unfold TaskCosts.taskAddPage
  rw [wp_bind, wp_modify, wp_bind, wp_get, wp_bind, wp_lassert]
  rw [he] at htouch ht ⊢
  rw [if_pos hnot, wp_bind, wp_modify]
  exact htouch.wp_insertTaskPage ht hnot hload

/-- The task has lost the page. -/
theorem Consistent.taskDropPage (h : s.Consistent) (hp : s.mTaskPages.contains t p) :
    wp (taskDropPage t p) (fun _ s' => s'.Consistent ∧ Alike { s with mTaskPages := s.mTaskPages.drop t p } s')
      (fun _ _ => False) s := by
  have htouch : s.touchTask t = s := if_pos (h.pagesKnown t p hp)
  unfold TaskCosts.taskDropPage
  rw [wp_bind, wp_modify, htouch, wp_bind, wp_get, wp_bind, wp_lassert, if_pos hp, wp_bind, wp_modify]
  exact h.wp_dropTaskPage hp

/-! ### Tasks on machines -/

theorem wp_listIfAllocatable (h : s.Priced loose)
    (hknown : s.taskAllocatableOnMachine t m → m ∈ s.mMachines ∧ t ∈ s.mTasks) :
    wp (listIfAllocatable t m) (fun _ s' =>
      s'.Priced (fun m' t' => loose m' t' ∧ ¬ (m' = m ∧ t' = t)) ∧ SamePages s s') (fun _ _ => False) s := by
  unfold listIfAllocatable
  rw [wp_bind, wp_get, wp_ite]
  split
  · next hal =>
    obtain ⟨hm, ht⟩ := hknown hal
    rw [wp_bind]
    refine wp_getCost h (knownCost_eq hm ht) ?_
    refine ⟨⟨h.byMachine, h.byTask, fun m' t' hno => ?_, fun m' t' hyes hloose => ?_⟩,
      ⟨rfl, rfl, rfl, rfl, rfl, rfl, rfl, rfl⟩, rfl, rfl⟩
    · rw [listed_setAllocatable, if_neg]
      · exact h.unlisted m' t' hno
      · rintro ⟨rfl, rfl⟩
        exact hno hal
    · rw [listed_setAllocatable]
      split
      · next he =>
        obtain ⟨rfl, rfl⟩ := he
        exact (knownCost_eq hm ht).symm
      · next he => exact h.listed m' t' hyes fun hl => hloose ⟨hl, he⟩
  · next hal =>
    refine ⟨⟨h.byMachine, h.byTask, h.unlisted, fun m' t' hyes hloose => h.listed m' t' hyes fun hl => ?_⟩,
      SamePages.refl s⟩
    refine hloose ⟨hl, ?_⟩
    rintro ⟨rfl, rfl⟩
    exact hal hyes

theorem Consistent.addTaskLoading (h : s.Consistent) (hadd : m ∉ s.mMachines → s.mTaskPages.getValues t = ∅) :
    wp (addTaskLoading t m) (fun _ s' => s'.Consistent) (fun _ _ => False) s := by
  unfold TaskCosts.addTaskLoading
  rw [wp_bind, wp_modify, wp_bind, wp_modify, wp_bind, wp_get]
  have hallocatable m' t' : taskAllocatableOnMachine { s with
      mLoadingTasks := s.mLoadingTasks.insert t m } t' m' ↔ s.taskAllocatableOnMachine t' m' ∧ ¬ (m' = m ∧ t' = t) := by
    unfold taskAllocatableOnMachine
    rw [TwoWaySetMap.contains_insert]
    tauto
  have hpriced : Priced (discardAllocatable { s with mLoadingTasks := s.mLoadingTasks.insert t m } t m)
      fun _ _ => False := by
    refine ⟨h.priced.byMachine, h.priced.byTask, fun m' t' hno => ?_, fun m' t' hyes _ => ?_⟩
    · rw [listed_discardAllocatable]
      split
      · rfl
      · next he => exact h.priced.unlisted m' t' fun hal => hno ((hallocatable m' t').2 ⟨hal, he⟩)
    · obtain ⟨hal, he⟩ := (hallocatable m' t').1 hyes
      rw [listed_discardAllocatable, if_neg he]
      exact h.priced.listed m' t' hal id
  have hm (p : PageId) (hp : s.mTaskPages.contains t p) : m ∈ s.mMachines := by
    by_contra hno
    have hp : p ∈ s.mTaskPages.getValues t := hp
    rw [hadd hno] at hp
    exact absurd hp (notMem_empty p)
  refine (wp_forM_addMachineTaskPage (fun _ => m) (fun p => p) _ hpriced h.pagesKnown h.heldRight
    fun p hp => hm p (mem_taskPages.1 hp)).mono (fun _ s' hs' => of_loaded hs'
    ⟨h.underallocated, h.pagesKnown, h.whole⟩ (fun m' p' => ?_) fun m' p' hp => ?_) fun _ _ => id
  · refine (or_congr_right (h.machineTask m' p')).trans ?_
    rw [anyLoading_iff, anyLoading_iff]
    show _ ∨ _ ↔ ∃ t', s.mTaskPages.contains t' p' ∧ (s.mLoadingTasks.insert t m).contains t' m'
    simp only [mem_taskPages, TwoWaySetMap.contains_insert]
    constructor
    · rintro (⟨_, hp, rfl, rfl⟩ | ⟨t', hp, hl⟩)
      · exact ⟨t, hp, .inl ⟨rfl, rfl⟩⟩
      · exact ⟨t', hp, .inr hl⟩
    · rintro ⟨t', hp, ⟨rfl, rfl⟩ | hl⟩
      · exact .inl ⟨p', hp, rfl, rfl⟩
      · exact .inr ⟨t', hp, hl⟩
  · rcases hp with hp | ⟨_, hp, rfl, -⟩ | hp
    · exact h.machinesKnown m' p' ((h.heldRight m' p').2 (.inl hp))
    · exact hm _ (mem_taskPages.1 hp)
    · exact h.machines_of_task hp

theorem Consistent.addTaskRunning (h : s.Consistent) :
    wp (addTaskRunning t m) (fun _ s' => s'.Consistent) (fun _ _ => False) s := by
  unfold TaskCosts.addTaskRunning
  rw [wp_bind, wp_modify, wp_modify]
  have hallocatable (m' : MachineId) (t' : TaskAllocatorId) : taskAllocatableOnMachine { s with
      mRunningTasks := s.mRunningTasks.insert t m } t' m' ↔ s.taskAllocatableOnMachine t' m' ∧ ¬ (m' = m ∧ t' = t) := by
    unfold taskAllocatableOnMachine
    rw [TwoWaySetMap.contains_insert]
    tauto
  refine ⟨⟨h.priced.byMachine, h.priced.byTask, fun m' t' hno => ?_, fun m' t' hyes _ => ?_⟩, h.underallocated,
    h.pagesKnown, h.heldRight, h.machineTask, h.machinesKnown, h.whole⟩
  · refine (listed_discardAllocatable (s := s)).trans ?_
    split
    · rfl
    · next he => exact h.priced.unlisted m' t' fun hal => hno ((hallocatable m' t').2 ⟨hal, he⟩)
  · obtain ⟨hal, he⟩ := (hallocatable m' t').1 hyes
    refine (listed_discardAllocatable (s := s)).trans ?_
    rw [if_neg he]
    exact h.priced.listed m' t' hal id

/-- A task that may be allocated on fewer machines than before is listed where it was, but for one machine. -/
theorem Consistent.priced_of_running_loading (h : s.Consistent)
    {loading running : TwoWaySetMap TaskAllocatorId MachineId}
    (hloading : ∀ t' m', loading.contains t' m' → s.mLoadingTasks.contains t' m')
    (hrunning : ∀ t' m', running.contains t' m' → s.mRunningTasks.contains t' m')
    (hsame : ∀ t' m', ¬ (m' = m ∧ t' = t) → (s.mLoadingTasks.contains t' m' → loading.contains t' m') ∧
      (s.mRunningTasks.contains t' m' → running.contains t' m')) :
    Priced { s with mLoadingTasks := loading, mRunningTasks := running } fun m' t' => m' = m ∧ t' = t := by
  refine ⟨h.priced.byMachine, h.priced.byTask, fun m' t' hno => h.priced.unlisted m' t' fun hal => hno ?_,
    fun m' t' hyes he => h.priced.listed m' t' ?_ id⟩
  · exact ⟨fun hr => hal.1 (hrunning t' m' hr), fun hl => hal.2.1 (hloading t' m' hl), hal.2.2⟩
  · exact ⟨fun hr => hyes.1 ((hsame t' m' he).2 hr), fun hl => hyes.2.1 ((hsame t' m' he).1 hl), hyes.2.2⟩

/-- The costs are priced once the last task is listed. -/
theorem Priced.of_listed (h : s.Priced fun m' t' => (m' = m ∧ t' = t) ∧ ¬ (m' = m ∧ t' = t)) :
    s.Priced fun _ _ => False :=
  ⟨h.byMachine, h.byTask, h.unlisted, fun m' t' hyes _ => h.listed m' t' hyes fun he => he.2 he.1⟩

theorem Consistent.dropTaskLoading (h : s.Consistent)
    (hm : m ∉ s.mMachines → t ∈ s.mUnderallocatedTasks → s.mRunningTasks.contains t m) :
    wp (dropTaskLoading t m) (fun _ s' => s'.Consistent) (fun _ _ => False) s := by
  unfold TaskCosts.dropTaskLoading
  rw [wp_bind, wp_modify, wp_bind, wp_get, wp_bind]
  have hpriced : Priced { s with mLoadingTasks := s.mLoadingTasks.drop t m } fun m' t' => m' = m ∧ t' = t := by
    refine h.priced_of_running_loading (fun t' m' hl => (contains_drop.1 hl).1) (fun _ _ => id)
      fun t' m' he => ⟨fun hl => contains_drop.2 ⟨hl, fun hc => he ⟨hc.2, hc.1⟩⟩, id⟩
  refine (wp_forM_dropMachineTaskPage (fun _ => m) (fun p => p) _ hpriced h.pagesKnown h.heldRight
    fun p _ hp => h.machines_of_task hp).imp fun _ s₁ hs₁ => ?_
  have hknown (hal : s₁.taskAllocatableOnMachine t m) : m ∈ s₁.mMachines ∧ t ∈ s₁.mTasks := by
    rw [hs₁.toAlike.allocatable] at hal
    rw [hs₁.machines, hs₁.tasks]
    exact ⟨by_contra fun hno => hal.1 (hm hno hal.2.2), h.underallocated t hal.2.2⟩
  refine (wp_listIfAllocatable hs₁.priced hknown).imp fun _ s₂ hs₂ => ?_
  have hl : Loaded { s with mLoadingTasks := s.mLoadingTasks.drop t m } (fun _ _ => False) (fun m' p' =>
      s.mMachineTaskPages.contains m' p' ∧ ((∃ a ∈ ascending (s.mTaskPages.getValues t), m' = m ∧ p' = a) →
        anyLoadingTaskHasPage { s with mLoadingTasks := s.mLoadingTasks.drop t m } m' p')) s₂ := by
    refine ⟨hs₁.toAlike.trans hs₂.2.toAlike, hs₂.1.of_listed, hs₂.2.heldRight hs₁.heldRight, ?_⟩
    rw [hs₂.2.machineTask]
    exact hs₁.machineTask
  refine of_loaded hl ⟨h.underallocated, h.pagesKnown, h.whole⟩ (fun m' p' => ?_) fun m' p' hp => ?_
  · refine (and_congr_left' (h.machineTask m' p')).trans ?_
    rw [anyLoading_iff, anyLoading_iff]
    simp only [mem_taskPages, contains_drop]
    constructor
    · rintro ⟨⟨t', hp, hl⟩, hany⟩
      by_cases he : t' = t ∧ m' = m
      · obtain ⟨rfl, rfl⟩ := he
        exact hany ⟨p', hp, rfl, rfl⟩
      · exact ⟨t', hp, hl, he⟩
    · rintro ⟨t', hp, hl, he⟩
      exact ⟨⟨t', hp, hl⟩, fun _ => ⟨t', hp, hl, he⟩⟩
  · rcases hp with hp | hp
    · exact h.machinesKnown m' p' ((h.heldRight m' p').2 (.inl hp))
    · exact h.machines_of_task hp.1

theorem Consistent.dropTaskRunning (h : s.Consistent)
    (hm : m ∉ s.mMachines → t ∈ s.mUnderallocatedTasks → s.mLoadingTasks.contains t m) :
    wp (dropTaskRunning t m) (fun _ s' => s'.Consistent) (fun _ _ => False) s := by
  unfold TaskCosts.dropTaskRunning
  rw [wp_bind, wp_modify]
  have hpriced : Priced { s with mRunningTasks := s.mRunningTasks.drop t m } fun m' t' => m' = m ∧ t' = t := by
    refine h.priced_of_running_loading (fun _ _ => id) (fun t' m' hl => (contains_drop.1 hl).1)
      fun t' m' he => ⟨id, fun hl => contains_drop.2 ⟨hl, fun hc => he ⟨hc.2, hc.1⟩⟩⟩
  refine (wp_listIfAllocatable hpriced fun hal => ?_).imp fun _ s' hs' => ?_
  · exact ⟨by_contra fun hno => hal.2.1 (hm hno hal.2.2), h.underallocated t hal.2.2⟩
  · exact .of_samePages hs'.2 hs'.1.of_listed ⟨h.underallocated, h.pagesKnown, h.whole⟩ h.heldRight h.machineTask
      h.machinesKnown

/-! ### Marking and dropping tasks -/

theorem wp_forM_listIfAllocatable (l : List MachineId) (h : s.Priced loose)
    (hknown : ∀ m ∈ l, m ∈ s.mMachines) (ht : t ∈ s.mTasks) :
    wp (l.forM (listIfAllocatable t)) (fun _ s' =>
      s'.Priced (fun m' t' => loose m' t' ∧ ¬ (m' ∈ l ∧ t' = t)) ∧ SamePages s s') (fun _ _ => False) s := by
  induction l generalizing s loose with
  | nil =>
    refine ⟨⟨h.byMachine, h.byTask, h.unlisted, fun m' t' hyes hloose => h.listed m' t' hyes fun hl => ?_⟩,
      SamePages.refl s⟩
    exact hloose ⟨hl, fun hno => nomatch hno.1⟩
  | cons m l ih =>
    show wp (listIfAllocatable t m >>= fun _ => l.forM _) _ _ s
    rw [wp_bind]
    refine (wp_listIfAllocatable h fun _ => ⟨hknown m (.head _), ht⟩).imp fun _ s' hs' => ?_
    refine (ih hs'.1 (fun m' hm' => hs'.2.machines ▸ hknown m' (.tail _ hm')) (hs'.2.tasks ▸ ht)).imp
      fun _ s'' hs'' => ⟨⟨hs''.1.byMachine, hs''.1.byTask, hs''.1.unlisted, fun m' t' hyes hloose => ?_⟩,
        hs'.2.trans hs''.2⟩
    refine hs''.1.listed m' t' hyes fun hl => hloose ⟨hl.1.1, fun he => ?_⟩
    rcases List.mem_cons.1 he.1 with hm | hm
    · exact hl.1.2 ⟨hm, he.2⟩
    · exact hl.2 ⟨hm, he.2⟩

theorem Consistent.markTaskUnderallocated (h : s.Consistent) (ht : t ∈ s.mTasks) :
    wp (markTaskUnderallocated t) (fun _ s' => s'.Consistent) (fun _ _ => False) s := by
  unfold TaskCosts.markTaskUnderallocated
  rw [wp_bind, wp_get, wp_bind, wp_lassert, if_pos ht, wp_ite]
  split
  · exact h
  · next hnot =>
    rw [wp_bind, wp_modify]
    have hold m' : s.listed m' t = none := h.priced.unlisted m' t fun hal => hnot hal.2.2
    have hpriced : Priced { s with mUnderallocatedTasks := insert t s.mUnderallocatedTasks }
        fun m' t' => m' ∈ s.mMachines ∧ t' = t := by
      refine ⟨h.priced.byMachine, h.priced.byTask, fun m' t' hno => h.priced.unlisted m' t' fun hal => hno ?_,
        fun m' t' hyes he => ?_⟩
      · exact ⟨hal.1, hal.2.1, mem_insert_of_mem hal.2.2⟩
      · rcases mem_insert.1 hyes.2.2 with rfl | hu
        · have hm : ¬ (m' ∈ s.mMachines ∧ t' ∈ s.mTasks) := fun hk => he ⟨hk.1, rfl⟩
          exact (hold m').trans (if_neg hm).symm
        · exact h.priced.listed m' t' ⟨hyes.1, hyes.2.1, hu⟩ id
    refine (wp_forM_listIfAllocatable _ hpriced (fun m hm => mem_ascending.1 hm) ht).imp fun _ s' hs' => ?_
    refine .of_samePages hs'.2 ⟨hs'.1.byMachine, hs'.1.byTask, hs'.1.unlisted, fun m' t' hyes _ =>
      hs'.1.listed m' t' hyes fun hl => ?_⟩ ⟨fun t' ht' => ?_, h.pagesKnown, h.whole⟩ h.heldRight h.machineTask
      h.machinesKnown
    · exact hl.2 ⟨mem_ascending.2 hl.1.1, hl.1.2⟩
    · rcases mem_insert.1 ht' with rfl | ht'
      · exact ht
      · exact h.underallocated t' ht'

theorem foldl_discardAllocatable (l : List MachineId) (s : TaskCosts) (t : TaskAllocatorId) :
    ∃ allocatable, l.foldl (fun s m => s.discardAllocatable t m) s =
        { s with mAllocatableCostsByMachine := allocatable } ∧
      ∀ m' t', listed { s with mAllocatableCostsByMachine := allocatable } m' t' =
        if m' ∈ l ∧ t' = t then none else s.listed m' t' := by
  induction l generalizing s with
  | nil => exact ⟨_, rfl, fun m' t' => (if_neg fun he => nomatch he.1).symm⟩
  | cons m l ih =>
    obtain ⟨a, he, ha⟩ := ih (s.discardAllocatable t m)
    refine ⟨a, he, fun m' t' => (ha m' t').trans ?_⟩
    rw [listed_discardAllocatable]
    split_ifs <;> grind

/-- The task is not underallocated any more, and nothing else that the other operations read changes. -/
theorem Consistent.markTaskFullyAllocated (h : s.Consistent) (ht : t ∈ s.mTasks) :
    wp (markTaskFullyAllocated t) (fun _ s' => s'.Consistent ∧ ∃ allocatable, s' = { s with
        mUnderallocatedTasks := s.mUnderallocatedTasks.erase t
        mAllocatableCostsByMachine := allocatable }) (fun _ _ => False) s := by
  unfold TaskCosts.markTaskFullyAllocated
  rw [wp_bind, wp_get, wp_bind, wp_lassert, if_pos ht, wp_ite]
  split
  · next hnot => exact ⟨h, _, by rw [erase_eq_of_notMem hnot]⟩
  · rw [wp_modify]
    obtain ⟨a, he, ha⟩ := foldl_discardAllocatable (ascending s.mMachines)
      { s with mUnderallocatedTasks := s.mUnderallocatedTasks.erase t } t
    rw [he]
    refine ⟨⟨⟨h.priced.byMachine, h.priced.byTask, fun m' t' hno => ?_, fun m' t' hyes _ => ?_⟩, fun t' ht' => ?_,
      h.pagesKnown, h.heldRight, h.machineTask, h.machinesKnown, h.whole⟩, a, rfl⟩
    · refine (ha m' t').trans ?_
      split
      · rfl
      · next hmt =>
        show s.listed m' t' = none
        by_cases hal : s.taskAllocatableOnMachine t' m'
        · have ht' : t' = t := by
            by_contra hne
            exact hno ⟨hal.1, hal.2.1, mem_erase.2 ⟨hne, hal.2.2⟩⟩
          have hm' : ¬ (m' ∈ s.mMachines ∧ t' ∈ s.mTasks) := fun hk => hmt ⟨mem_ascending.2 hk.1, ht'⟩
          rw [h.priced.listed m' t' hal id]
          exact if_neg hm'
        · exact h.priced.unlisted m' t' hal
    · have hu := mem_erase.1 hyes.2.2
      refine ((ha m' t').trans (if_neg fun he => hu.1 he.2)).trans ?_
      exact h.priced.listed m' t' ⟨hyes.1, hyes.2.1, hu.2⟩ id
    · exact h.underallocated t' (mem_of_mem_erase ht')

/-- All pages of a task are dropped. -/
theorem Consistent.wp_dropPages (h : s.Consistent) (ht : t ∉ s.mUnderallocatedTasks) :
    wp ((ascending (s.mTaskPages.getValues t)).forM (TaskCosts.taskDropPage t)) (fun _ s' =>
      s'.Consistent ∧ (∀ p, ¬ s'.mTaskPages.contains t p) ∧ t ∉ s'.mUnderallocatedTasks ∧
        s'.mMachines = s.mMachines ∧ s'.mTasks = s.mTasks ∧ s'.mLoadingTasks = s.mLoadingTasks ∧
        s'.mRunningTasks = s.mRunningTasks) (fun _ _ => False) s := by
  refine (wp_forM (fun l s' => s'.Consistent ∧ (∀ p, s'.mTaskPages.contains t p ↔ p ∈ l) ∧ l.Nodup ∧
    t ∉ s'.mUnderallocatedTasks ∧ s'.mMachines = s.mMachines ∧ s'.mTasks = s.mTasks ∧
    s'.mLoadingTasks = s.mLoadingTasks ∧ s'.mRunningTasks = s.mRunningTasks) (fun p l s' hs' => ?_) _ ?_).imp
    fun _ s' hs' => ?_
  · obtain ⟨hc, hpages, hnodup, hunder, hmachines, htasks, hloading, hrunning⟩ := hs'
    obtain ⟨hnotin, hnodup⟩ := nodup_cons.1 hnodup
    refine (hc.taskDropPage ((hpages p).2 (.head _))).imp fun _ s'' hs'' => ?_
    obtain ⟨hc', halike⟩ := hs''
    refine ⟨hc', fun q => ?_, hnodup, halike.underallocated ▸ hunder, halike.machines.trans hmachines,
      halike.tasks.trans htasks, halike.loading.trans hloading, halike.running.trans hrunning⟩
    rw [halike.taskPages]
    refine contains_drop.trans ?_
    rw [hpages q, List.mem_cons]
    constructor
    · rintro ⟨rfl | hq, hne⟩
      · exact absurd ⟨rfl, rfl⟩ hne
      · exact hq
    · intro hq
      refine ⟨.inr hq, ?_⟩
      rintro ⟨-, rfl⟩
      exact hnotin hq
  · refine ⟨h, fun p => ?_, ascending_nodup _, ht, rfl, rfl, rfl, rfl⟩
    rw [mem_ascending, mem_getValues]
  · obtain ⟨hc, hpages, -, hrest⟩ := hs'
    exact ⟨hc, fun p hp => not_mem_nil ((hpages p).1 hp), hrest⟩

variable (tasks : TwoWaySetMap TaskAllocatorId MachineId)

/-- What the tasks that load or run are once one of them is taken from some machines. -/
def Without (t : TaskAllocatorId) (kept : List MachineId) (tasks' : TwoWaySetMap TaskAllocatorId MachineId) : Prop :=
  ∀ t' m', tasks'.contains t' m' ↔ tasks.contains t' m' ∧ (t' = t → m' ∈ kept)

theorem Without.drop {tasks tasks' : TwoWaySetMap TaskAllocatorId MachineId} {l : List MachineId}
    (h : Without tasks t (m :: l) tasks') (hnotin : m ∉ l) : Without tasks t l (tasks'.drop t m) := by
  intro t' m'
  rw [contains_drop, h t' m']
  simp only [List.mem_cons]
  constructor
  · rintro ⟨⟨hc, hk⟩, hne⟩
    exact ⟨hc, fun he => (hk he).resolve_left fun hm => hne ⟨he, hm⟩⟩
  · rintro ⟨hc, hk⟩
    refine ⟨⟨hc, fun he => .inr (hk he)⟩, ?_⟩
    rintro ⟨rfl, rfl⟩
    exact hnotin (hk rfl)

theorem without_self : Without tasks t (ascending (tasks.getValues t)) tasks := by
  refine fun t' m' => (and_iff_left_of_imp ?_).symm
  rintro hc rfl
  rw [mem_ascending, mem_getValues]
  exact hc

/-- A loop that takes a task from its machines one at a time, in a table that `set` puts back. -/
theorem wp_forM_without {take : MachineId → EStateM Failure TaskCosts Unit}
    (set : TwoWaySetMap TaskAllocatorId MachineId → TaskCosts)
    (htake : ∀ m tasks', wp (take m) (fun _ s' => s' = set (tasks'.drop t m)) (fun _ _ => False) (set tasks')) :
    wp ((ascending (tasks.getValues t)).forM take) (fun _ s' => ∃ tasks', s' = set tasks' ∧ Without tasks t [] tasks')
      (fun _ _ => False) (set tasks) := by
  refine (wp_forM (fun l s' => l.Nodup ∧ ∃ tasks', s' = set tasks' ∧ Without tasks t l tasks')
    (fun m l s' hs' => ?_) _ ⟨ascending_nodup _, _, rfl, without_self _⟩).imp fun _ s' hs' => hs'.2
  obtain ⟨hnodup, tasks', rfl, hwithout⟩ := hs'
  obtain ⟨hnotin, hnodup⟩ := nodup_cons.1 hnodup
  exact (htake m tasks').imp fun _ s'' hs'' => ⟨hnodup, _, hs'', hwithout.drop hnotin⟩

/-- Taking a task that has no pages from the machines where it loads. -/
theorem wp_dropLoading (hpages : ∀ p, ¬ s.mTaskPages.contains t p) (ht : t ∉ s.mUnderallocatedTasks) :
    wp ((ascending (s.mLoadingTasks.getValues t)).forM (dropTaskLoading t)) (fun _ s' =>
      ∃ loading, s' = { s with mLoadingTasks := loading } ∧ Without s.mLoadingTasks t [] loading)
      (fun _ _ => False) s := by
  refine wp_forM_without _ (fun tasks => { s with mLoadingTasks := tasks }) fun m tasks => ?_
  have hnil : ascending (s.mTaskPages.getValues t) = [] := by
    refine eq_nil_iff_forall_not_mem.2 fun p hp => hpages p ?_
    rwa [mem_ascending, mem_getValues] at hp
  unfold dropTaskLoading listIfAllocatable
  rw [wp_bind, wp_modify, wp_bind, wp_get, wp_bind, hnil]
  show wp (pure PUnit.unit) _ _ _
  rw [wp_pure, wp_bind, wp_get, wp_ite, if_neg fun hal => ht hal.2.2]
  exact rfl

/-- Taking a task from the machines where it runs. -/
theorem wp_dropRunning (ht : t ∉ s.mUnderallocatedTasks) :
    wp ((ascending (s.mRunningTasks.getValues t)).forM (dropTaskRunning t)) (fun _ s' =>
      ∃ running, s' = { s with mRunningTasks := running } ∧ Without s.mRunningTasks t [] running)
      (fun _ _ => False) s := by
  refine wp_forM_without _ (fun tasks => { s with mRunningTasks := tasks }) fun m tasks => ?_
  unfold dropTaskRunning listIfAllocatable
  rw [wp_bind, wp_modify, wp_bind, wp_get, wp_ite, if_neg fun hal => ht hal.2.2]
  exact rfl

/-- The costs of a task are dropped from the tables of the machines. -/
theorem wp_dropCosts (h : ∀ m ∈ s.mMachines, ∃ c, s.byMachine m t = some c) :
    wp ((ascending s.mMachines).forM (dropCost t)) (fun _ s' =>
      ∃ costs, s' = { s with mCostsByMachine := costs } ∧
        ∀ m' t', s'.byMachine m' t' = if m' ∈ s.mMachines ∧ t' = t then none else s.byMachine m' t')
      (fun _ _ => False) s := by
  refine (wp_forM (fun l s' => l.Nodup ∧ (∀ m ∈ l, m ∈ s.mMachines) ∧
    ∃ costs, s' = { s with mCostsByMachine := costs } ∧
    ∀ m' t', s'.byMachine m' t' = if (m' ∈ s.mMachines ∧ m' ∉ l) ∧ t' = t then none else s.byMachine m' t')
    (fun m l s' hs' => ?_) _ ?_).imp fun _ s' hs' => ?_
  · obtain ⟨hnodup, hknown, costs, rfl, hby⟩ := hs'
    obtain ⟨hnotin, hnodup⟩ := nodup_cons.1 hnodup
    obtain ⟨c, hc⟩ := h m (hknown m (.head _))
    have hkey : (costs.get m).hasKey t := by
      refine hasKey_iff.2 ⟨c, (hby m t).trans ?_⟩
      rw [if_neg fun he => he.1.2 (.head _), hc]
    unfold dropCost
    rw [wp_bind, wp_get, wp_bind, wp_lassert, if_pos hkey, wp_modify]
    refine ⟨hnodup, fun m' hm' => hknown m' (.tail _ hm'), _, rfl, fun m' t' => ?_⟩
    have hdrop : byMachine { s with mCostsByMachine := Finmap.insert m ((costs.get m).discard t) costs } m' t' =
        if m' = m ∧ t' = t then none else byMachine { s with mCostsByMachine := costs } m' t' := by
      unfold byMachine
      rw [get_insert]
      split
      · next hm =>
        subst hm
        rw [tryGetValue_discard]
        simp only [true_and]
      · next hm => simp only [hm, false_and, if_false]
    refine hdrop.trans ?_
    rw [hby m' t']
    have hm := hknown m (.head _)
    split_ifs <;> grind
  · refine ⟨ascending_nodup _, fun m hm => mem_ascending.1 hm, _, rfl, fun m' t' => ?_⟩
    rw [if_neg fun he => he.1.2 (mem_ascending.2 he.1.1)]
  · obtain ⟨-, -, costs, he, hby⟩ := hs'
    refine ⟨costs, he, fun m' t' => (hby m' t').trans ?_⟩
    simp

theorem Consistent.dropTask (h : s.Consistent) : wp (dropTask t) (fun _ s' => s'.Consistent) (fun _ _ => False) s := by
  unfold TaskCosts.dropTask
  rw [wp_bind, wp_get, wp_ite]
  split
  · exact h
  · next ht =>
    rw [wp_bind]
    refine (h.markTaskFullyAllocated (not_not.1 ht)).imp fun _ s₁ hs₁ => ?_
    obtain ⟨h₁, allocatable, rfl⟩ := hs₁
    rw [wp_bind]
    refine (h₁.wp_dropPages (notMem_erase _ _)).imp fun _ s₂ hs₂ => ?_
    obtain ⟨h₂, hnopages, hunder, hmachines, htasks, hloading, hrunning⟩ := hs₂
    have hloading : s.mLoadingTasks = s₂.mLoadingTasks := hloading.symm
    have hrunning : s.mRunningTasks = s₂.mRunningTasks := hrunning.symm
    rw [wp_bind, wp_modify, wp_bind, hloading]
    refine (wp_dropLoading (s := { s₂ with mTasks := s₂.mTasks.erase t }) hnopages hunder).imp fun _ s₃ hs₃ => ?_
    obtain ⟨loading, rfl, hwithout⟩ := hs₃
    rw [wp_bind, hrunning]
    refine (wp_dropRunning (s := { s₂ with mTasks := s₂.mTasks.erase t, mLoadingTasks := loading }) hunder).imp
      fun _ s₄ hs₄ => ?_
    obtain ⟨running, rfl, hwithout'⟩ := hs₄
    have hnokey : ¬ s₂.mTaskPages.hasKey t := fun hkey => by
      obtain ⟨p, hp⟩ := hasKey_iff.1 hkey
      exact hnopages p hp
    rw [wp_bind, wp_get, wp_bind, wp_lassert, if_pos hnokey, wp_bind, wp_modify]
    have htask : t ∈ s₂.mTasks := by
      rw [htasks]
      exact not_not.1 ht
    refine (wp_dropCosts (s := { s₂ with
      mTasks := s₂.mTasks.erase t
      mLoadingTasks := loading
      mRunningTasks := running
      mCostsByTask := Finmap.erase t s₂.mCostsByTask
      mWholeTaskCosts := s₂.mWholeTaskCosts.discard t }) fun m hm => ⟨s₂.computeActualTaskCost t m, ?_⟩).imp
          fun _ s₅ hs₅ => ?_
    · exact (h₂.priced.byMachine m t).trans (knownCost_eq hm htask)
    obtain ⟨costs, rfl, hby⟩ := hs₅
    have hkept (tasks tasks' : TwoWaySetMap TaskAllocatorId MachineId) (hw : Without tasks t [] tasks')
        (t' : TaskAllocatorId) (m' : MachineId) (hne : t' ≠ t) : tasks'.contains t' m' ↔ tasks.contains t' m' :=
      (hw t' m').trans (and_iff_left fun he => absurd he hne)
    have hcost (m' : MachineId) (t' : TaskAllocatorId) : (if t' = t then none else s₂.knownCost m' t') =
        if m' ∈ s₂.mMachines ∧ t' ∈ s₂.mTasks.erase t then some (s₂.computeActualTaskCost t' m') else none := by
      unfold knownCost
      split_ifs <;> grind
    constructor
    case priced =>
      refine ⟨fun m' t' => ?_, fun m' t' => ?_, fun m' t' hno => ?_, fun m' t' hyes _ => ?_⟩
      · refine ((hby m' t').trans ?_).trans (hcost m' t')
        show (if m' ∈ s₂.mMachines ∧ t' = t then none else s₂.byMachine m' t') = _
        rw [h₂.priced.byMachine]
        unfold knownCost
        split_ifs <;> grind
      · refine Eq.trans ?_ (hcost m' t')
        show (get (Finmap.erase t s₂.mCostsByTask) t').tryGetValue m' = _
        rw [get_erase]
        split
        · exact tryGetValue_empty
        · exact h₂.priced.byTask m' t'
      · by_cases he : t' = t
        · exact h₂.priced.unlisted m' t' fun hal => hunder (he ▸ hal.2.2)
        · refine h₂.priced.unlisted m' t' fun hal => hno ⟨?_, ?_, hal.2.2⟩
          · exact fun hr => hal.1 ((hkept _ _ hwithout' t' m' he).1 hr)
          · exact fun hl => hal.2.1 ((hkept _ _ hwithout t' m' he).1 hl)
      · have he : t' ≠ t := fun he => hunder (he ▸ hyes.2.2)
        refine ((h₂.priced.listed m' t' ⟨?_, ?_, hyes.2.2⟩ id).trans ?_).trans (hcost m' t')
        · exact fun hr => hyes.1 ((hkept _ _ hwithout' t' m' he).2 hr)
        · exact fun hl => hyes.2.1 ((hkept _ _ hwithout t' m' he).2 hl)
        · rw [if_neg he]
    case underallocated =>
      exact fun t' ht' => mem_erase.2 ⟨fun he => hunder (he ▸ ht'), h₂.underallocated t' ht'⟩
    case pagesKnown =>
      exact fun t' p hp => mem_erase.2 ⟨fun he => hnopages p (he ▸ hp), h₂.pagesKnown t' p hp⟩
    case heldRight => exact h₂.heldRight
    case machineTask =>
      intro m p
      refine (h₂.machineTask m p).trans ?_
      rw [anyLoading_iff, anyLoading_iff]
      refine exists_congr fun t' => and_congr_right fun hp => ?_
      exact (hkept _ _ hwithout t' m fun he => hnopages p (he ▸ hp)).symm
    case machinesKnown => exact h₂.machinesKnown
    case whole =>
      intro t'
      refine tryGetValue_discard.trans ?_
      rw [h₂.whole]
      split_ifs <;> grind

/-! ## Runs -/

theorem consistent_empty : Consistent {} where
  priced := by
    refine ⟨fun m t => ?_, fun m t => ?_, fun m t _ => ?_, fun m t hyes => nomatch hyes.2.2⟩
    · unfold byMachine
      rw [get_empty]
      exact tryGetValue_empty
    · unfold byTask
      rw [get_empty]
      exact tryGetValue_empty
    · unfold listed
      rw [get_empty]
      exact tryGetValue_empty
  underallocated := nofun
  pagesKnown _ _ hp := absurd hp contains_empty
  heldRight m p := by
    refine iff_of_false contains_empty ?_
    rintro (hp | hp)
    · exact contains_empty hp
    · exact contains_empty hp
  machineTask m p := by
    rw [anyLoading_iff]
    exact iff_of_false contains_empty fun ⟨_, hp, _⟩ => contains_empty hp
  machinesKnown _ _ hp := absurd hp contains_empty
  whole _ := tryGetValue_empty

/-- The condition under which an operation keeps the costs right: a machine gets known, and a task is taken from a
machine that is not, while there is nothing that would have to be in its tables. -/
def Op.Proper (s : TaskCosts) : Op → Prop
  | .touchMachine machine | .machineAddPage machine _ => s.MayAdd machine
  | .taskAddPage task _ => ∀ m ∈ s.mLoadingTasks.getValues task, m ∈ s.mMachines
  | .addTaskLoading task machine => machine ∉ s.mMachines → s.mTaskPages.getValues task = ∅
  | .dropTaskLoading task machine =>
    machine ∉ s.mMachines → task ∈ s.mUnderallocatedTasks → s.mRunningTasks.contains task machine
  | .dropTaskRunning task machine =>
    machine ∉ s.mMachines → task ∈ s.mUnderallocatedTasks → s.mLoadingTasks.contains task machine
  | _ => True

instance (s : TaskCosts) : (op : Op) → Decidable (op.Proper s)
  | .touchMachine machine | .machineAddPage machine _ => inferInstanceAs (Decidable (s.MayAdd machine))
  | .taskAddPage task _ => inferInstanceAs (Decidable (∀ m ∈ s.mLoadingTasks.getValues task, m ∈ s.mMachines))
  | .addTaskLoading _ _ => inferInstanceAs (Decidable (_ → _))
  | .dropTaskLoading task machine =>
    inferInstanceAs (Decidable (machine ∉ s.mMachines → task ∈ s.mUnderallocatedTasks →
      s.mRunningTasks.contains task machine))
  | .dropTaskRunning task machine =>
    inferInstanceAs (Decidable (machine ∉ s.mMachines → task ∈ s.mUnderallocatedTasks →
      s.mLoadingTasks.contains task machine))
  | .touchTask _ | .markTaskUnderallocated _ | .markTaskFullyAllocated _ | .machineDropPage ..
  | .taskDropPage .. | .addTaskRunning .. | .dropTask _ => inferInstanceAs (Decidable True)

theorem Consistent.call (h : s.Consistent) {op : Op} (hop : op.Asserted s) (hproper : op.Proper s) :
    wp op.call (fun _ s' => s'.Consistent) (fun _ _ => False) s := by
  cases op with
  | touchTask task => exact h.touchTask
  | touchMachine machine => exact h.touchMachine hproper
  | markTaskUnderallocated task => exact h.markTaskUnderallocated hop
  | markTaskFullyAllocated task => exact (h.markTaskFullyAllocated hop).imp fun _ _ hs => hs.1
  | machineAddPage machine page => exact h.machineAddPage hproper hop
  | machineDropPage machine page => exact h.machineDropPage hop
  | taskAddPage task page => exact h.taskAddPage hop hproper
  | taskDropPage task page => exact (h.taskDropPage hop).imp fun _ _ hs => hs.1
  | addTaskLoading task machine => exact h.addTaskLoading hproper
  | addTaskRunning task machine => exact h.addTaskRunning
  | dropTaskLoading task machine => exact h.dropTaskLoading hproper
  | dropTaskRunning task machine => exact h.dropTaskRunning hproper
  | dropTask task => exact h.dropTask

/-- The validator finds nothing wrong. -/
theorem Consistent.validateState (h : s.Consistent) : s.validateState := by
  have hcost (m : MachineId) (t : TaskAllocatorId) (ht : t ∈ (s.mCostsByMachine.get m).mKeyToValue.keys) :
      s.knownCost m t = some (s.computeActualTaskCost t m) ∧ (s.mCostsByMachine.get m).tryGetValue t = s.knownCost m t ∧
        (s.mCostsByTask.get t).tryGetValue m = s.knownCost m t := by
    obtain ⟨c, hc⟩ := mem_keys_iff.1 ht
    have hby := h.priced.byMachine m t
    refine ⟨?_, hby, h.priced.byTask m t⟩
    have hsome : s.knownCost m t = some c := hby.symm.trans hc
    unfold knownCost at hsome ⊢
    split at hsome
    · next hk => rw [if_pos hk]
    · cases hsome
  refine ⟨h.underallocated, fun t _ m hm p hp => ?_, fun m _ p hp => ?_, fun m _ p hp => ?_, fun m _ p hp => ?_,
    fun m _ p hp => ?_, fun m hm t ht => ?_, fun m _ t ht => ?_, fun m _ t ht => ?_, fun m hm t ht => ?_⟩
  · exact (h.machineTask m p).2 (anyLoading_iff.2 ⟨t, hp, hm⟩)
  · exact (h.machineTask m p).1 hp
  · exact ((h.heldRight m p).1 hp).symm
  · exact (h.heldRight m p).2 (.inr hp)
  · exact (h.heldRight m p).2 (.inl hp)
  · have hby := (h.priced.byMachine m t).trans (knownCost_eq hm ht)
    have hbyTask := (h.priced.byTask m t).trans (knownCost_eq hm ht)
    refine ⟨?_, ?_, hasKey_iff.2 ⟨_, hby⟩, hasKey_iff.2 ⟨_, hbyTask⟩⟩
    · by_contra hno
      unfold byMachine StdMap.get at hby
      rw [Finmap.lookup_eq_none.2 hno] at hby
      exact absurd (tryGetValue_empty.symm.trans hby) nofun
    · by_contra hno
      unfold byTask StdMap.get at hbyTask
      rw [Finmap.lookup_eq_none.2 hno] at hbyTask
      exact absurd (tryGetValue_empty.symm.trans hbyTask) nofun
  · rw [(hcost m t ht).2.1, (hcost m t ht).2.2]
  · rw [(hcost m t ht).2.1, (hcost m t ht).1]
  · split
    · next hno =>
      intro hkey
      obtain ⟨c, hc⟩ := hasKey_iff.1 hkey
      have hnone : (s.mAllocatableCostsByMachine.get m).tryGetValue t = none := h.priced.unlisted m t hno
      rw [hnone] at hc
      cases hc
    · next hyes =>
      have hlisted : (s.mAllocatableCostsByMachine.get m).tryGetValue t = s.knownCost m t :=
        h.priced.listed m t (not_not.1 hyes) id
      refine ⟨hasKey_iff.2 ⟨_, hlisted.trans (knownCost_eq hm ht)⟩, hlisted.trans ?_⟩
      exact (h.priced.byMachine m t).symm

/-- The bytes of the pages of a task that a machine neither holds nor loads for a task. -/
def bytesToLoad (s : TaskCosts) (t : TaskAllocatorId) (m : MachineId) : ℤ := ∑ page ∈ s.mTaskPages.getValues t with
    ¬ (s.mMachineHeldPages.contains m page ∨ s.anyLoadingTaskHasPage m page), (page.bytecount : ℤ)

/-- No call has failed, the validator passes, and the tables hold for each task and machine the bytes to load. -/
structure Correct (t : System) : Prop where
  notFailed : t.failed = none
  validated : t.costs.validateState
  byMachine : ∀ m ∈ t.costs.mMachines, ∀ task ∈ t.costs.mTasks,
    (t.costs.mCostsByMachine.get m).tryGetValue task = some (t.costs.bytesToLoad task m)
  byTask : ∀ m ∈ t.costs.mMachines, ∀ task ∈ t.costs.mTasks,
    (t.costs.mCostsByTask.get task).tryGetValue m = some (t.costs.bytesToLoad task m)
  allocatable : ∀ m ∈ t.costs.mMachines, ∀ task, (t.costs.mAllocatableCostsByMachine.get m).tryGetValue task =
      if t.costs.taskAllocatableOnMachine task m then some (t.costs.bytesToLoad task m) else none

theorem Consistent.bytesToLoad (h : s.Consistent) : s.computeActualTaskCost t m = s.bytesToLoad t m := by
  refine sum_congr (filter_congr fun p _ => ?_) fun _ _ => rfl
  rw [h.heldRight, ← h.machineTask]
  rfl

theorem Consistent.correct (h : s.Consistent) : Correct { costs := s } where
  notFailed := rfl
  validated := h.validateState
  byMachine m hm t ht := by
    rw [← h.bytesToLoad]
    exact (h.priced.byMachine m t).trans (knownCost_eq hm ht)
  byTask m hm t ht := by
    rw [← h.bytesToLoad]
    exact (h.priced.byTask m t).trans (knownCost_eq hm ht)
  allocatable m hm t := by
    rw [← h.bytesToLoad]
    split
    · next hal =>
      exact (h.priced.listed m t hal id).trans (knownCost_eq hm (h.underallocated t hal.2.2))
    · next hno => exact h.priced.unlisted m t hno

theorem Consistent.step {t t' : System} {op : Op} (h : t.costs.Consistent ∧ t.failed = none)
    (hproper : op.Proper t.costs) (hstep : t.step op = some t') : t'.costs.Consistent ∧ t'.failed = none := by
  unfold System.step at hstep
  split at hstep
  · next hop =>
    obtain ⟨_, s', hrun, hs'⟩ := (h.1.call hop hproper).exists_run
    rw [hrun] at hstep
    obtain rfl := some.inj hstep
    exact ⟨hs', h.2⟩
  · cases hstep

/-- A run in which one task is loaded on a machine and dropped again. -/
def loadingRun : List Op :=
  let task := { type := .ThreadGroup, guid := 1 }
  [.touchMachine ⟨1⟩, .touchTask task, .taskAddPage task ⟨1, 50, 50⟩, .markTaskUnderallocated task,
    .machineAddPage ⟨1⟩ ⟨2, 8, 8⟩, .addTaskLoading task ⟨1⟩, .dropTaskLoading task ⟨1⟩,
    .addTaskRunning task ⟨1⟩, .markTaskFullyAllocated task, .dropTask task]

/-- A run in which a machine gets known after a task has got a page. -/
def lateMachineRun : List Op :=
  let task := { type := .ThreadGroup, guid := 1 }
  [.touchTask task, .taskAddPage task ⟨1, 50, 50⟩, .touchMachine ⟨1⟩]

/-- In every run whose steps are proper, the costs are right in every state reached. -/
theorem correct_of_proper {ops : List Op}
    (h : Run.EveryStep System.step (fun t op => op.Proper t.costs) ({} : System) ops) :
    Run.Always System.step Correct ({} : System) ops := by
  have hconsistent : Run.Always System.step (fun t => t.costs.Consistent ∧ t.failed = none) ({} : System) ops :=
    Run.always_of_everyStep ⟨consistent_empty, rfl⟩ (fun _ _ _ hs hc he => Consistent.step hs hc he) h
  intro pre t hpre ht
  obtain ⟨hc, hfailed⟩ := hconsistent pre t hpre ht
  obtain ⟨costs, failed⟩ := t
  obtain rfl : failed = none := hfailed
  exact hc.correct

/-- A task gets a page after the machine is known, is loaded there, and leaves again. -/
theorem correct_of_proper_loading : Run.EveryStep System.step (fun t op => op.Proper t.costs) ({} : System) loadingRun ∧
      Run.Always System.step Correct ({} : System) loadingRun := by
  have h : Run.EveryStep System.step (fun t op => op.Proper t.costs) ({} : System) loadingRun := by
    decide +kernel
  exact ⟨h, correct_of_proper h⟩

/-- A machine that is touched after a task has got a page starts with a cost of zero for the task. -/
theorem not_correct_of_late_machine : ¬ ∀ ops, Run.Always System.step Correct ({} : System) ops := by
  intro h
  have hlast := h lateMachineRun lateMachineRun _ prefix_rfl (some_get (by decide +kernel)).symm
  exact absurd hlast.validated (by decide +kernel)

end Cumulus.PageLayoutCalculator.TaskCosts
