import Ufora.PageLayout.TaskCosts

/-!
# The costs are right

Where the costs are those of the pages that each task still lacks on each machine (`Priced`), every operation keeps
them so: what it does to the pages changes the cost of a task by the bytes that it adds to the tables. The pages that
count as held are checked one at a time (`wp_checkPageOnMachine`), and so each operation is a loop over such checks.
-/

open Ordered Effect List TwoWaySetMap StdMap MapWithIndex Finset

namespace Cumulus.PageLayoutCalculator.TaskCosts

open Fora (PageId)

variable {s s' s'' : TaskCosts} {t t' : TaskAllocatorId} {m m' : MachineId} {p : PageId} {c d : ℤ}
  {loose : MachineId → TaskAllocatorId → Prop}

/-! ## The tables -/

/-- The cost of a task in the table of a machine. -/
def byMachine (s : TaskCosts) (m : MachineId) (t : TaskAllocatorId) : Option ℤ :=
    (s.mCostsByMachine.get m).tryGetValue t

/-- The cost on a machine in the table of a task. -/
def byTask (s : TaskCosts) (m : MachineId) (t : TaskAllocatorId) : Option ℤ := (s.mCostsByTask.get t).tryGetValue m

/-- The cost of a task in the table of what may be allocated on a machine. -/
def listed (s : TaskCosts) (m : MachineId) (t : TaskAllocatorId) : Option ℤ :=
  (s.mAllocatableCostsByMachine.get m).tryGetValue t

/-- A table of tables after a change of one row in one place. -/
theorem tryGetValue_get_insert {κ κ' : Type} [DecidableEq κ] [DecidableEq κ'] {costs : StdMap κ (MapWithIndex κ' ℤ)}
    {k k₁ : κ} {j j₁ : κ'} {row : MapWithIndex κ' ℤ} {v : Option ℤ}
    (h : row.tryGetValue j₁ = if j₁ = j then v else (costs.get k).tryGetValue j₁) :
    (StdMap.get (Finmap.insert k row costs) k₁).tryGetValue j₁ =
      if k₁ = k ∧ j₁ = j then v else (costs.get k₁).tryGetValue j₁ := by
  rw [get_insert]
  split
  · next hk =>
    subst hk
    simp only [h, true_and]
  · next hk => simp only [hk, false_and, if_false]

@[simp] theorem byMachine_setByMachine : (s.setByMachine t m c).byMachine m' t' =
    if m' = m ∧ t' = t then some c else s.byMachine m' t' := tryGetValue_get_insert tryGetValue_set

@[simp] theorem byTask_setByTask : (s.setByTask t m c).byTask m' t' =
    if m' = m ∧ t' = t then some c else s.byTask m' t' := by
  simp only [and_comm (a := m' = m)]
  exact tryGetValue_get_insert tryGetValue_set

@[simp] theorem listed_setAllocatable : (s.setAllocatable t m c).listed m' t' =
    if m' = m ∧ t' = t then some c else s.listed m' t' := tryGetValue_get_insert tryGetValue_set

@[simp] theorem listed_discardAllocatable : (s.discardAllocatable t m).listed m' t' =
    if m' = m ∧ t' = t then none else s.listed m' t' := tryGetValue_get_insert tryGetValue_discard

/-- Both tables hold these costs, and the third one those of the tasks that may be allocated, but for the loose ones,
which may not be listed yet. -/
structure Tables (s : TaskCosts) (loose : MachineId → TaskAllocatorId → Prop)
    (cost : MachineId → TaskAllocatorId → Option ℤ) : Prop where
  byMachine : ∀ m t, s.byMachine m t = cost m t
  byTask : ∀ m t, s.byTask m t = cost m t
  unlisted : ∀ m t, ¬ s.taskAllocatableOnMachine t m → s.listed m t = none
  listed : ∀ m t, s.taskAllocatableOnMachine t m → ¬ loose m t → s.listed m t = cost m t

theorem Tables.congr {cost cost' : MachineId → TaskAllocatorId → Option ℤ} (h : Tables s loose cost)
    (hc : ∀ m t, cost m t = cost' m t) : Tables s loose cost' := by
  obtain rfl : cost = cost' := funext fun m => funext fun t => hc m t
  exact h

/-- What a change of the costs leaves alone, but for the pages that count as held. -/
structure Alike (s s' : TaskCosts) : Prop where
  tasks : s'.mTasks = s.mTasks
  underallocated : s'.mUnderallocatedTasks = s.mUnderallocatedTasks
  machines : s'.mMachines = s.mMachines
  held : s'.mMachineHeldPages = s.mMachineHeldPages
  taskPages : s'.mTaskPages = s.mTaskPages
  whole : s'.mWholeTaskCosts = s.mWholeTaskCosts
  loading : s'.mLoadingTasks = s.mLoadingTasks
  running : s'.mRunningTasks = s.mRunningTasks

/-- What a change of the costs leaves alone. -/
structure SamePages (s s' : TaskCosts) : Prop extends Alike s s' where
  machineTask : s'.mMachineTaskPages = s.mMachineTaskPages
  heldOrTask : s'.mMachineHeldOrTaskPages = s.mMachineHeldOrTaskPages

theorem Alike.refl (s : TaskCosts) : Alike s s := ⟨rfl, rfl, rfl, rfl, rfl, rfl, rfl, rfl⟩

theorem Alike.trans (h : Alike s s') (h' : Alike s' s'') : Alike s s'' :=
  ⟨h'.tasks.trans h.tasks, h'.underallocated.trans h.underallocated, h'.machines.trans h.machines,
    h'.held.trans h.held, h'.taskPages.trans h.taskPages, h'.whole.trans h.whole, h'.loading.trans h.loading,
    h'.running.trans h.running⟩

theorem SamePages.refl (s : TaskCosts) : SamePages s s := ⟨Alike.refl s, rfl, rfl⟩

theorem SamePages.trans (h : SamePages s s') (h' : SamePages s' s'') : SamePages s s'' :=
  ⟨h.toAlike.trans h'.toAlike, h'.machineTask.trans h.machineTask, h'.heldOrTask.trans h.heldOrTask⟩

theorem Alike.allocatable (h : Alike s s') : s'.taskAllocatableOnMachine t m ↔ s.taskAllocatableOnMachine t m := by
  unfold taskAllocatableOnMachine
  rw [h.running, h.loading, h.underallocated]

theorem Alike.anyLoading (h : Alike s s') : s'.anyLoadingTaskHasPage m p ↔ s.anyLoadingTaskHasPage m p := by
  unfold anyLoadingTaskHasPage
  rw [h.taskPages, h.loading]

section
variable {cost : MachineId → TaskAllocatorId → Option ℤ}

/-- One cost changes. -/
theorem Tables.setTaskCost (h : Tables s loose cost) :
    Tables (s.setTaskCost t m c) loose (fun m' t' => if m' = m ∧ t' = t then some c else cost m' t') ∧
      SamePages s (s.setTaskCost t m c) := by
  unfold TaskCosts.setTaskCost
  dsimp only
  have hby m' t' :
      ((s.setByMachine t m c).setByTask t m c).byMachine m' t' = if m' = m ∧ t' = t then some c else cost m' t' := by
    rw [← h.byMachine]
    exact byMachine_setByMachine
  have hbyTask m' t' :
      ((s.setByMachine t m c).setByTask t m c).byTask m' t' = if m' = m ∧ t' = t then some c else cost m' t' := by
    rw [byTask_setByTask, ← h.byTask]
    rfl
  split
  · next hallocatable =>
    have hallocatable : s.taskAllocatableOnMachine t m := hallocatable
    refine ⟨⟨hby, hbyTask, fun m' t' hno => ?_, fun m' t' hyes hloose => ?_⟩,
      ⟨rfl, rfl, rfl, rfl, rfl, rfl, rfl, rfl⟩, rfl, rfl⟩
    · rw [listed_setAllocatable, if_neg]
      · exact h.unlisted m' t' hno
      · rintro ⟨rfl, rfl⟩
        exact hno hallocatable
    · rw [listed_setAllocatable]
      split
      · rfl
      · exact h.listed m' t' hyes hloose
  · next hnot =>
    have hnot : ¬ s.taskAllocatableOnMachine t m := hnot
    refine ⟨⟨hby, hbyTask, h.unlisted, fun m' t' hyes hloose => ?_⟩, ⟨rfl, rfl, rfl, rfl, rfl, rfl, rfl, rfl⟩, rfl, rfl⟩
    rw [if_neg]
    · exact h.listed m' t' hyes hloose
    · rintro ⟨rfl, rfl⟩
      exact hnot hyes

theorem wp_getCost {Q : ℤ → TaskCosts → Prop} {E : CostsError → TaskCosts → Prop} (h : Tables s loose cost)
    (hc : cost m t = some c) (hQ : Q c s) : wp (getCost t m) Q E s := by
  unfold getCost
  rw [wp_bind, wp_get]
  have hget : (s.mCostsByMachine.get m).tryGetValue t = some c := (h.byMachine m t).trans hc
  rw [hget]
  exact hQ

theorem wp_addToCosts (h : Tables s loose cost) {pairs : List (TaskAllocatorId × MachineId)} (hnodup : pairs.Nodup)
    (hsome : ∀ pair ∈ pairs, ∃ c, cost pair.2 pair.1 = some c) :
    wp (pairs.forM (addToCost d)) (fun _ s' =>
      Tables s' loose (fun m t => if (t, m) ∈ pairs then (cost m t).map (· + d) else cost m t) ∧ SamePages s s')
      (fun _ _ => False) s := by
  induction pairs generalizing s cost with
  | nil => exact ⟨⟨h.byMachine, h.byTask, h.unlisted, h.listed⟩, SamePages.refl s⟩
  | cons pair pairs ih =>
    obtain ⟨t, m⟩ := pair
    obtain ⟨hnotin, hnodup⟩ := nodup_cons.1 hnodup
    obtain ⟨c, hc⟩ := hsome (t, m) (.head _)
    show wp (addToCost d (t, m) >>= fun _ => pairs.forM (addToCost d)) _ _ s
    unfold addToCost
    rw [wp_bind, wp_bind]
    refine wp_getCost h hc ?_
    rw [wp_modify]
    obtain ⟨htables, hsame⟩ := h.setTaskCost (t := t) (m := m) (c := c + d)
    refine (ih htables hnodup fun pair hpair => ?_).imp fun _ s' hs' => ⟨?_, hsame.trans hs'.2⟩
    · obtain ⟨c', hc'⟩ := hsome pair (.tail _ hpair)
      split
      · exact ⟨_, rfl⟩
      · exact ⟨c', hc'⟩
    · refine hs'.1.congr fun m' t' => ?_
      by_cases he : (t', m') = (t, m)
      · obtain ⟨rfl, rfl⟩ := Prod.mk.inj he
        rw [if_pos List.mem_cons_self, if_neg hnotin, if_pos ⟨rfl, rfl⟩, hc]
        rfl
      · have hne : ¬ (m' = m ∧ t' = t) := fun h => he (Prod.ext h.2 h.1)
        simp only [List.mem_cons, he, false_or, if_neg hne]

end

/-! ## The actual costs -/

/-- The pages of a task that a machine lacks. -/
def lacking (s : TaskCosts) (t : TaskAllocatorId) (m : MachineId) : Finset PageId :=
  (s.mTaskPages.getValues t).filter fun page => ¬ s.mMachineHeldOrTaskPages.contains m page

theorem mem_lacking : p ∈ s.lacking t m ↔ s.mTaskPages.contains t p ∧ ¬ s.mMachineHeldOrTaskPages.contains m p := by
  unfold lacking
  rw [Finset.mem_filter, mem_getValues]

theorem cost_congr (h : s'.lacking t m = s.lacking t m) :
    s'.computeActualTaskCost t m = s.computeActualTaskCost t m := by
  show ∑ page ∈ s'.lacking t m, _ = ∑ page ∈ s.lacking t m, _
  rw [h]

theorem cost_insert (hp : p ∉ s.lacking t m) (h : ∀ q, q ∈ s'.lacking t m ↔ q = p ∨ q ∈ s.lacking t m) :
    s'.computeActualTaskCost t m = s.computeActualTaskCost t m + p.bytecount := by
  have hlacking : s'.lacking t m = insert p (s.lacking t m) := by
    ext q
    rw [mem_insert]
    exact h q
  show ∑ page ∈ s'.lacking t m, _ = ∑ page ∈ s.lacking t m, _ + _
  rw [hlacking, sum_insert hp, add_comm]

theorem cost_erase (hp : p ∈ s.lacking t m) (h : ∀ q, q ∈ s'.lacking t m ↔ q ≠ p ∧ q ∈ s.lacking t m) :
    s'.computeActualTaskCost t m = s.computeActualTaskCost t m + -p.bytecount := by
  have hnot : p ∉ s'.lacking t m := fun hmem => ((h p).1 hmem).1 rfl
  have hinsert : s.computeActualTaskCost t m = s'.computeActualTaskCost t m + p.bytecount :=
      cost_insert hnot fun q => by
    rw [h q]
    constructor
    · intro hq
      by_cases he : q = p
      · exact .inl he
      · exact .inr ⟨he, hq⟩
    · rintro (rfl | hq)
      · exact hp
      · exact hq.2
  omega

/-- The costs of the tasks and machines that are known. -/
def knownCost (s : TaskCosts) (m : MachineId) (t : TaskAllocatorId) : Option ℤ :=
  if m ∈ s.mMachines ∧ t ∈ s.mTasks then some (s.computeActualTaskCost t m) else none

theorem knownCost_eq (hm : m ∈ s.mMachines) (ht : t ∈ s.mTasks) :
    s.knownCost m t = some (s.computeActualTaskCost t m) := if_pos ⟨hm, ht⟩

/-- The tables hold the actual costs. -/
def Priced (s : TaskCosts) (loose : MachineId → TaskAllocatorId → Prop) : Prop := s.Tables loose s.knownCost

/-- A loop over the tasks and machines whose costs a change of the pages concerns makes them right again. -/
theorem wp_reprice (loose : MachineId → TaskAllocatorId → Prop) (htables : s'.Tables loose s.knownCost)
    (hmachines : s'.mMachines = s.mMachines)
    (htasks : s'.mTasks = s.mTasks) {pairs : List (TaskAllocatorId × MachineId)} (hnodup : pairs.Nodup)
    (hknown : ∀ pair ∈ pairs, pair.2 ∈ s.mMachines ∧ pair.1 ∈ s.mTasks)
    (hcost : ∀ m t, (t, m) ∈ pairs → s'.computeActualTaskCost t m = s.computeActualTaskCost t m + d)
    (hcost' : ∀ m t, m ∈ s.mMachines → (t, m) ∉ pairs → s'.computeActualTaskCost t m = s.computeActualTaskCost t m) :
    wp (pairs.forM (addToCost d)) (fun _ s'' => s''.Priced loose ∧ SamePages s' s'') (fun _ _ => False) s' := by
  refine (wp_addToCosts htables hnodup fun pair hpair => ?_).imp fun _ s'' hs'' => ⟨?_, hs''.2⟩
  · obtain ⟨hm, ht⟩ := hknown pair hpair
    exact ⟨_, knownCost_eq hm ht⟩
  · refine hs''.1.congr fun m t => ?_
    have hsame : s''.computeActualTaskCost t m = s'.computeActualTaskCost t m := by
      refine cost_congr ?_
      unfold lacking
      rw [hs''.2.taskPages, hs''.2.heldOrTask]
    unfold knownCost
    rw [hs''.2.machines, hs''.2.tasks, hmachines, htasks, hsame]
    split
    · next hmem =>
      have hk : m ∈ s.mMachines ∧ t ∈ s.mTasks := hknown _ hmem
      rw [if_pos hk, if_pos hk, hcost m t hmem]
      rfl
    · next hmem =>
      split
      · next hk => rw [hcost' m t hk.1 hmem]
      · rfl

/-! ## The pages that count as held -/

theorem mem_pairs {l : List TaskAllocatorId} : (t', m') ∈ l.map (·, m) ↔ m' = m ∧ t' ∈ l := by
  rw [List.mem_map]
  constructor
  · rintro ⟨t'', ht, he⟩
    obtain ⟨rfl, rfl⟩ := Prod.mk.inj he
    exact ⟨rfl, ht⟩
  · rintro ⟨rfl, ht⟩
    exact ⟨t', ht, rfl⟩

theorem nodup_pairs {S : Finset TaskAllocatorId} : ((ascending S).map (·, m)).Nodup :=
  (ascending_nodup S).map fun _ _ he => (Prod.mk.inj he).1

/-- The tasks that have a page are known. -/
def PagesKnown (s : TaskCosts) : Prop := ∀ t p, s.mTaskPages.contains t p → t ∈ s.mTasks

theorem Alike.pagesKnown (h : Alike s s') (hpages : s.PagesKnown) : s'.PagesKnown := by
  unfold PagesKnown
  rw [h.taskPages, h.tasks]
  exact hpages

/-- What a check of a page on a machine does. -/
structure Checked (s : TaskCosts) (m : MachineId) (p : PageId) (counts : Prop) (s' : TaskCosts) : Prop
    extends Alike s s' where
  machineTask : s'.mMachineTaskPages = s.mMachineTaskPages
  heldOrTask : ∀ m' p', s'.mMachineHeldOrTaskPages.contains m' p' ↔
    if m' = m ∧ p' = p then counts else s.mMachineHeldOrTaskPages.contains m' p'

section
variable (h : s.Priced loose) (hpages : s.PagesKnown) (hm : m ∈ s.mMachines)
include h hpages hm

/-- The costs of the tasks that have a page follow the change of whether it counts as held. -/
theorem wp_reprice_held {counts : Prop} {held : TwoWaySetMap MachineId PageId} (hcost : ∀ t, s.mTaskPages.contains t p →
      computeActualTaskCost { s with mMachineHeldOrTaskPages := held } t m = s.computeActualTaskCost t m + d)
    (hsame : ∀ m' p', ¬ (m' = m ∧ p' = p) → (held.contains m' p' ↔ s.mMachineHeldOrTaskPages.contains m' p'))
    (hcounts : held.contains m p ↔ counts) :
    wp (((ascending (s.mTaskPages.getKeys p)).map (·, m)).forM (addToCost d))
      (fun _ s' => s'.Priced loose ∧ Checked s m p counts s') (fun _ _ => False)
      { s with mMachineHeldOrTaskPages := held } := by
  refine (wp_reprice (s := s) loose ?_ ?_ ?_ nodup_pairs (fun pair hpair => ?_) (fun m' t hmem => ?_)
    fun m' t _ hmem => ?_).imp fun _ s' hs' => ⟨hs'.1, ?_⟩
  · exact ⟨h.byMachine, h.byTask, h.unlisted, h.listed⟩
  · rfl
  · rfl
  · obtain ⟨hm', ht⟩ := mem_pairs.1 hpair
    rw [mem_ascending, TwoWaySetMap.mem_getKeys] at ht
    exact ⟨hm' ▸ hm, hpages _ _ ht⟩
  · rw [mem_pairs, mem_ascending, TwoWaySetMap.mem_getKeys] at hmem
    obtain ⟨rfl, ht⟩ := hmem
    exact hcost t ht
  · rw [mem_pairs, mem_ascending, TwoWaySetMap.mem_getKeys] at hmem
    refine cost_congr (Finset.ext fun q => ?_)
    rw [mem_lacking, mem_lacking]
    refine and_congr_right fun hq => not_congr (hsame m' q ?_)
    rintro ⟨rfl, rfl⟩
    exact hmem ⟨rfl, hq⟩
  · refine ⟨⟨hs'.2.tasks, hs'.2.underallocated, hs'.2.machines, hs'.2.held, hs'.2.taskPages, hs'.2.whole,
      hs'.2.loading, hs'.2.running⟩, hs'.2.machineTask, fun m' p' => ?_⟩
    rw [hs'.2.heldOrTask]
    split
    · next he =>
      obtain ⟨rfl, rfl⟩ := he
      exact hcounts
    · next he => exact hsame m' p' he

theorem wp_machineOrHeldTaskAddPage (hnot : ¬ s.mMachineHeldOrTaskPages.contains m p) :
    wp (machineOrHeldTaskAddPage m p) (fun _ s' => s'.Priced loose ∧ Checked s m p True s') (fun _ _ => False) s := by
  have htouch : s.touchMachine m = s := if_pos hm
  unfold machineOrHeldTaskAddPage
  rw [wp_bind, wp_modify, htouch, wp_bind, wp_get, wp_bind, wp_lassert, if_pos hnot, wp_bind, wp_modify]
  refine wp_reprice_held h hpages hm (fun t ht => cost_erase (mem_lacking.2 ⟨ht, hnot⟩) fun q => ?_)
    (fun m' p' hne => TwoWaySetMap.contains_insert.trans (or_iff_right hne))
    (iff_true_intro (TwoWaySetMap.contains_insert.2 (.inl ⟨rfl, rfl⟩)))
  rw [mem_lacking, mem_lacking, TwoWaySetMap.contains_insert]
  tauto

theorem wp_machineOrHeldTaskDropPage (hheld : s.mMachineHeldOrTaskPages.contains m p) :
    wp (machineOrHeldTaskDropPage m p) (fun _ s' => s'.Priced loose ∧ Checked s m p False s') (fun _ _ => False) s := by
  have htouch : s.touchMachine m = s := if_pos hm
  unfold machineOrHeldTaskDropPage
  rw [wp_bind, wp_modify, htouch, wp_bind, wp_get, wp_bind, wp_lassert, if_pos hheld, wp_bind, wp_modify]
  refine wp_reprice_held h hpages hm (fun t ht => cost_insert (fun hl => (mem_lacking.1 hl).2 hheld) fun q => ?_)
    (fun m' p' hne => contains_drop.trans (and_iff_left hne))
    (iff_of_false (fun hc => (contains_drop.1 hc).2 ⟨rfl, rfl⟩) id)
  rw [mem_lacking, mem_lacking, contains_drop]
  constructor
  · rintro ⟨hq, hno⟩
    by_cases he : q = p
    · exact .inl he
    · exact .inr ⟨hq, fun hc => hno ⟨hc, fun h => he h.2⟩⟩
  · rintro (rfl | ⟨hq, hno⟩)
    · exact ⟨ht, fun hc => hc.2 ⟨rfl, rfl⟩⟩
    · exact ⟨hq, fun hc => hno hc.1⟩

/-- After the check, the page counts as held exactly where it should. -/
theorem wp_checkPageOnMachine : wp (checkPageOnMachine m p) (fun _ s' =>
    s'.Priced loose ∧ Checked s m p (s.shouldBeHeldOrTaskPage m p) s') (fun _ _ => False) s := by
  unfold checkPageOnMachine
  rw [wp_bind, wp_get, wp_ite]
  split
  · next hdrop =>
    refine (wp_machineOrHeldTaskDropPage h hpages hm hdrop.1).imp fun _ s' hs' => ?_
    rw [eq_false hdrop.2]
    exact hs'
  · next hdrop =>
    rw [wp_ite]
    split
    · next hadd =>
      refine (wp_machineOrHeldTaskAddPage h hpages hm hadd.1).imp fun _ s' hs' => ?_
      rw [eq_true hadd.2]
      exact hs'
    · next hadd =>
      refine ⟨h, Alike.refl s, rfl, fun m' p' => ?_⟩
      split
      · next he =>
        obtain ⟨rfl, rfl⟩ := he
        exact ⟨fun hc => by_contra fun hno => hdrop ⟨hc, hno⟩, fun hs => by_contra fun hno => hadd ⟨hno, hs⟩⟩
      · exact Iff.rfl

end

/-! ## The pages of the tasks that load -/

/-- The pages that count as held are those that are held and those of the tasks that load. -/
def HeldRight (s : TaskCosts) : Prop := ∀ m p, s.mMachineHeldOrTaskPages.contains m p ↔ s.shouldBeHeldOrTaskPage m p

theorem SamePages.heldRight (h : SamePages s s') (hheld : s.HeldRight) : s'.HeldRight := by
  unfold HeldRight shouldBeHeldOrTaskPage
  rw [h.heldOrTask, h.held, h.machineTask]
  exact hheld

/-- The pages of the tasks that load have become these. -/
structure Loaded (s : TaskCosts) (loose : MachineId → TaskAllocatorId → Prop)
    (taskPage : MachineId → PageId → Prop) (s' : TaskCosts) : Prop extends Alike s s' where
  priced : s'.Priced loose
  heldRight : s'.HeldRight
  machineTask : ∀ m p, s'.mMachineTaskPages.contains m p ↔ taskPage m p

section
variable (h : s.Priced loose) (hpages : s.PagesKnown) (hheld : s.HeldRight)
include h hpages hheld

/-- The pages of the tasks that load change at one page, which is then checked. -/
theorem wp_check_taskPage (hm : m ∈ s.mMachines) {t : TwoWaySetMap MachineId PageId}
    {taskPage : MachineId → PageId → Prop}
    (htask : ∀ m' p', t.contains m' p' ↔ taskPage m' p')
    (hsame : ∀ m' p', ¬ (m' = m ∧ p' = p) → (t.contains m' p' ↔ s.mMachineTaskPages.contains m' p')) :
    wp (checkPageOnMachine m p) (fun _ s' => s.Loaded loose taskPage s') (fun _ _ => False)
      { s with mMachineTaskPages := t } := by
  refine (wp_checkPageOnMachine (s := { s with mMachineTaskPages := t })
    ⟨h.byMachine, h.byTask, h.unlisted, h.listed⟩ hpages hm).imp fun _ s' hs' => ?_
  have hshould m' p' : s'.shouldBeHeldOrTaskPage m' p' ↔ s.mMachineHeldPages.contains m' p' ∨ t.contains m' p' := by
    unfold shouldBeHeldOrTaskPage
    rw [hs'.2.held, hs'.2.machineTask]
  refine ⟨⟨hs'.2.tasks, hs'.2.underallocated, hs'.2.machines, hs'.2.held, hs'.2.taskPages, hs'.2.whole,
    hs'.2.loading, hs'.2.running⟩, hs'.1, fun m' p' => ?_, fun m' p' => ?_⟩
  · rw [hs'.2.heldOrTask, hshould]
    split
    · next he =>
      obtain ⟨rfl, rfl⟩ := he
      exact Iff.rfl
    · next he => exact (hheld m' p').trans (or_congr_right (hsame m' p' he).symm)
  · rw [hs'.2.machineTask]
    exact htask m' p'

theorem wp_addMachineTaskPage (hm : m ∈ s.mMachines) : wp (addMachineTaskPage m p) (fun _ s' =>
    s.Loaded loose (fun m' p' => (m' = m ∧ p' = p) ∨ s.mMachineTaskPages.contains m' p') s') (fun _ _ => False) s := by
  unfold addMachineTaskPage
  rw [wp_bind, wp_get, wp_ite]
  split
  · rw [wp_bind, wp_modify]
    exact wp_check_taskPage h hpages hheld hm (fun _ _ => contains_insert)
      fun m' p' hne => contains_insert.trans (or_iff_right hne)
  · next hhas =>
    refine ⟨Alike.refl s, h, hheld, fun m' p' => (or_iff_right_of_imp ?_).symm⟩
    rintro ⟨rfl, rfl⟩
    exact not_not.1 hhas

theorem wp_dropMachineTaskPage (hm : s.mMachineTaskPages.contains m p → m ∈ s.mMachines) :
    wp (dropMachineTaskPage m p) (fun _ s' => s.Loaded loose (fun m' p' => s.mMachineTaskPages.contains m' p' ∧
      ((m' = m ∧ p' = p) → s.anyLoadingTaskHasPage m' p')) s') (fun _ _ => False) s := by
  unfold dropMachineTaskPage
  rw [wp_bind, wp_get, wp_ite]
  split
  · next hdrop =>
    rw [wp_bind, wp_modify]
    refine wp_check_taskPage h hpages hheld (hm hdrop.1) (fun m' p' => ?_)
      fun m' p' hne => contains_drop.trans (and_iff_left hne)
    refine contains_drop.trans (and_congr_right fun _ => ⟨fun hne he => absurd he hne, ?_⟩)
    rintro hany ⟨rfl, rfl⟩
    exact hdrop.2 (hany ⟨rfl, rfl⟩)
  · next hkeep =>
    refine ⟨Alike.refl s, h, hheld, fun m' p' => (and_iff_left_of_imp ?_).symm⟩
    rintro htask ⟨rfl, rfl⟩
    by_contra hno
    exact hkeep ⟨htask, hno⟩

end

/-- A loop that adds pages of the tasks that load. -/
theorem wp_forM_addMachineTaskPage {α : Type} (machine : α → MachineId) (page : α → PageId) (l : List α)
    (h : s.Priced loose) (hpages : s.PagesKnown) (hheld : s.HeldRight) (hm : ∀ a ∈ l, machine a ∈ s.mMachines) :
    wp (l.forM fun a => addMachineTaskPage (machine a) (page a)) (fun _ s' =>
      s.Loaded loose (fun m p => (∃ a ∈ l, m = machine a ∧ p = page a) ∨ s.mMachineTaskPages.contains m p) s')
      (fun _ _ => False) s := by
  induction l generalizing s with
  | nil => exact ⟨Alike.refl s, h, hheld, fun m p => (or_iff_right nofun).symm⟩
  | cons a l ih =>
    show wp (addMachineTaskPage (machine a) (page a) >>= fun _ => l.forM _) _ _ s
    rw [wp_bind]
    refine (wp_addMachineTaskPage h hpages hheld (hm a (.head _))).imp fun _ s' hs' => ?_
    refine (ih hs'.priced (hs'.toAlike.pagesKnown hpages) hs'.heldRight fun b hb =>
      hs'.machines ▸ hm b (.tail _ hb)).imp fun _ s'' hs'' =>
      ⟨hs'.toAlike.trans hs''.toAlike, hs''.priced, hs''.heldRight, fun m p => ?_⟩
    rw [hs''.machineTask, hs'.machineTask, exists_mem_cons_iff, ← or_assoc]
    exact or_congr_left or_comm

/-- A loop that drops pages of the tasks that load, where none of them has them any more. -/
theorem wp_forM_dropMachineTaskPage {α : Type} (machine : α → MachineId) (page : α → PageId) (l : List α)
    (h : s.Priced loose) (hpages : s.PagesKnown) (hheld : s.HeldRight)
    (hm : ∀ a ∈ l, s.mMachineTaskPages.contains (machine a) (page a) → machine a ∈ s.mMachines) :
    wp (l.forM fun a => dropMachineTaskPage (machine a) (page a)) (fun _ s' =>
      s.Loaded loose (fun m p => s.mMachineTaskPages.contains m p ∧
        ((∃ a ∈ l, m = machine a ∧ p = page a) → s.anyLoadingTaskHasPage m p)) s') (fun _ _ => False) s := by
  induction l generalizing s with
  | nil => exact ⟨Alike.refl s, h, hheld, fun m p => (and_iff_left nofun).symm⟩
  | cons a l ih =>
    show wp (dropMachineTaskPage (machine a) (page a) >>= fun _ => l.forM _) _ _ s
    rw [wp_bind]
    refine (wp_dropMachineTaskPage h hpages hheld (hm a (.head _))).imp fun _ s' hs' => ?_
    have hm' (b : α) (hb : b ∈ l) (htask : s'.mMachineTaskPages.contains (machine b) (page b)) :
        machine b ∈ s'.mMachines := by
      rw [hs'.machines]
      exact hm b (.tail _ hb) ((hs'.machineTask _ _).1 htask).1
    refine (ih hs'.priced (hs'.toAlike.pagesKnown hpages) hs'.heldRight hm').imp fun _ s'' hs'' =>
      ⟨hs'.toAlike.trans hs''.toAlike, hs''.priced, hs''.heldRight, fun m p => ?_⟩
    rw [hs''.machineTask, hs'.machineTask, hs'.toAlike.anyLoading, exists_mem_cons_iff, and_assoc, or_imp]

end Cumulus.PageLayoutCalculator.TaskCosts
