import Ufora.PageLayout.TaskCosts
import Mathlib.Algebra.BigOperators.Group.Finset.Piecewise
import Mathlib.Algebra.Order.BigOperators.Group.Finset
import Mathlib.Data.Rat.Floor

/-!
# The accumulator tasks of a `TaskAllocator`

`cumulus/PageLayoutCalculator/TaskAllocator.hppml`: an accumulator task asks for a number of bytes and gets them on
one machine or in equal parts on several ones, out of the fraction of the memory of a machine that is for tasks.

Numbers of bytes are exact integers and the fraction of the memory is an exact rational number. A call is `none`
where it divides by zero, reads the first element of an empty vector, or an `lassert` of it fails. The other tables
of a `TaskAllocator`, and the log apart from the message that an allocation could not be increased, are left out.
-/

open Ordered List Finset Finmap Run StdMap Int

namespace Cumulus.PageLayoutCalculator

/-- `mMaxFractionOfBoxToTasks`. -/
def maxFractionOfBoxToTasks : ℚ := 2 / 5

/-- The conversion of a number to `int64_t`, which drops the fraction. -/
def truncate (q : ℚ) : ℤ := q.num.tdiv q.den

/-- The tables of a `TaskAllocator` that are about accumulator tasks. -/
structure TaskAllocator where
  mMachines : Finset MachineId := ∅
  mMachineSizes : StdMap MachineId ℤ := ∅
  mAccumulatorTargetBytecounts : StdMap TaskAllocatorId ℤ := ∅
  mAccumulatorDesiredMachine : StdMap TaskAllocatorId MachineId := ∅
  mAccumulatorAllocatedBytecounts : StdMap TaskAllocatorId (StdMap MachineId ℤ) := ∅

namespace TaskAllocator

variable (s : TaskAllocator)

/-- `setMachineStats(machine, bytesAvailable, ..)`. -/
def setMachineStats (machine : MachineId) (bytesAvailable : ℤ) : TaskAllocator := { s with
    mMachines := insert machine s.mMachines
    mMachineSizes := insert machine bytesAvailable s.mMachineSizes }

/-- `setAccumulatorProperties(taskId, bytecount, preferredMachine)`. No accumulator task is in the table that
`hasTask` looks in, so that a task may ask again. -/
def setAccumulatorProperties (taskId : TaskAllocatorId) (bytecount : ℤ)
    (preferredMachine : MachineId) : Option TaskAllocator := do
  guard (taskId.type = .Accumulator)
  return { s with
    mAccumulatorTargetBytecounts := insert taskId bytecount s.mAccumulatorTargetBytecounts
    mAccumulatorDesiredMachine := insert taskId preferredMachine s.mAccumulatorDesiredMachine }

/-- `dropTask(taskId)` of an accumulator task. -/
def dropTask (taskId : TaskAllocatorId) : TaskAllocator := { s with
    mAccumulatorAllocatedBytecounts := erase taskId s.mAccumulatorAllocatedBytecounts
    mAccumulatorTargetBytecounts := erase taskId s.mAccumulatorTargetBytecounts
    mAccumulatorDesiredMachine := erase taskId s.mAccumulatorDesiredMachine }

/-! ## Numbers of bytes -/

variable (m : MachineId)

/-- `machineMaxMemory(m)`. -/
def machineMaxMemory : ℤ := s.mMachineSizes.get m

variable (task : TaskAllocatorId)

/-- `bytesRequestedForAccumulatorTask(task)`. -/
def bytesRequestedForAccumulatorTask : ℤ := s.mAccumulatorTargetBytecounts.get task

/-- `bytesAllocatedToAccumulatorTaskOnMachine(task, m)`. -/
def bytesAllocatedToAccumulatorTaskOnMachine (m : MachineId) : ℤ := (s.mAccumulatorAllocatedBytecounts.get task).get m

/-- The machines with an entry for a task. -/
def machinesOf : Finset MachineId := (s.mAccumulatorAllocatedBytecounts.get task).keys

/-- `bytesAllocatedToAccumulatorTask(task)`. -/
def bytesAllocatedToAccumulatorTask : ℤ := ∑ m ∈ s.machinesOf task, s.bytesAllocatedToAccumulatorTaskOnMachine task m

/-- `bytesAllocatedToAccumulatorTasksOnMachine(m)`. -/
def bytesAllocatedToAccumulatorTasksOnMachine : ℤ :=
  ∑ task ∈ s.mAccumulatorTargetBytecounts.keys, s.bytesAllocatedToAccumulatorTaskOnMachine task m

/-- `machineMaxMemory(m) * mMaxFractionOfBoxToTasks`, as a number of bytes. -/
def maxBytes : ℤ := truncate (s.machineMaxMemory m * maxFractionOfBoxToTasks)

/-- `bytesAvailableForAccumulatorTasksOnMachine(m)`. -/
def bytesAvailableForAccumulatorTasksOnMachine : ℤ := max 0 (truncate
    (s.machineMaxMemory m * maxFractionOfBoxToTasks - s.bytesAllocatedToAccumulatorTasksOnMachine m))

/-- `accumulatorTaskIsUnderallocated(task)`. -/
def accumulatorTaskIsUnderallocated : Prop :=
  s.bytesAllocatedToAccumulatorTask task < s.bytesRequestedForAccumulatorTask task
deriving Decidable

/-- `mAccumulatorAllocatedBytecounts[task][machine] = bytes`. -/
def setAllocated (machine : MachineId) (bytes : ℤ) : TaskAllocator := { s with
    mAccumulatorAllocatedBytecounts := insert task
      (insert machine bytes (s.mAccumulatorAllocatedBytecounts.get task)) s.mAccumulatorAllocatedBytecounts }

/-- `mAccumulatorAllocatedBytecounts[task][machine] += bytes`. -/
def addAllocated (machine : MachineId) (bytes : ℤ) : TaskAllocator :=
  s.setAllocated task machine (s.bytesAllocatedToAccumulatorTaskOnMachine task machine + bytes)

/-- What `tryToAllocateAccumulatorTaskToSingleMachine(task, machine)` asks. -/
def FitsOnSingleMachine (machine : MachineId) : Prop :=
  s.bytesRequestedForAccumulatorTask task < (s.maxBytes machine).tdiv 2 ∧
    s.bytesRequestedForAccumulatorTask task + s.bytesAllocatedToAccumulatorTasksOnMachine machine < s.maxBytes machine
deriving Decidable

/-- `tryToAllocateAccumulatorTaskToSingleMachine(task, machine)`: `none` stands for false. -/
def tryToAllocateAccumulatorTaskToSingleMachine (machine : MachineId) : Option TaskAllocator :=
  if s.FitsOnSingleMachine task machine then
    some (s.setAllocated task machine (s.bytesRequestedForAccumulatorTask task))
  else none

/-- The machines with the bytes that are available there, those with the most bytes first. -/
def bytesAvailable : List (ℤ ×ₗ MachineId) := ((ascending s.mMachines).map fun m =>
    toLex (-s.bytesAvailableForAccumulatorTasksOnMachine m, m)).insertionSort (· ≤ ·)

/-- The loop of `tryToAllocateNewAccumulatorTask` over the machines from `k` on: the last number of machines that is
possible, minus one. -/
def findBestCount (s : TaskAllocator) (needed : ℤ) (first : MachineId) :
    List (ℤ ×ₗ MachineId) → ℕ → ℤ → Option ℕ → Option (Option ℕ)
  | [], _, _, bestCount => some bestCount
  | entry :: rest, k, minBoxSize, bestCount => do
    let minBoxSize := min minBoxSize (s.maxBytes first)
    let bytesToUsePerMachine := s.bytesAvailableForAccumulatorTasksOnMachine (ofLex entry).2
    guard (bytesToUsePerMachine ≠ 0)
    let machinesRequired := (needed - 1).tdiv bytesToUsePerMachine + 1
    s.findBestCount needed first rest (k + 1) minBoxSize
      (if machinesRequired ≤ k + 1 ∧ bytesToUsePerMachine > minBoxSize.tdiv 10 then some k else bestCount)

/-- `tryToAllocateNewAccumulatorTask(task)`, from where no single machine was found. -/
def allocateToSeveralMachines : Option TaskAllocator :=
  match s.bytesAvailable with
  | [] => none
  | first :: rest => do
    let needed := s.bytesRequestedForAccumulatorTask task
    let minBoxSize := s.maxBytes (ofLex first).2
    match ← s.findBestCount needed (ofLex first).2 (first :: rest) 0 minBoxSize none with
    | none => return s
    | some bestCount =>
      let bytesToUsePerMachine := (needed - 1).tdiv (bestCount + 1) + 1
      return ((first :: rest).take (bestCount + 1)).foldl
        (fun s entry => s.setAllocated task (ofLex entry).2 bytesToUsePerMachine) s

/-- `tryToAllocateNewAccumulatorTask(task)`. -/
def tryToAllocateNewAccumulatorTask : Option TaskAllocator := do
  let preferred ← lookup task s.mAccumulatorDesiredMachine
  match (preferred :: ascending s.mMachines).findSome? (s.tryToAllocateAccumulatorTaskToSingleMachine task) with
  | some s => return s
  | none => s.allocateToSeveralMachines task

/-- The last loop of `tryToIncreaseAccumulatorTaskAllocation`; the second component says that it went through all
machines. -/
def addMachines (task : TaskAllocatorId) (bytesToAdd : ℤ) : TaskAllocator → List MachineId → ℤ → TaskAllocator × Bool
  | s, [], _ => (s, true)
  | s, m :: rest, bytesNeeded =>
    let s := s.addAllocated task m bytesToAdd
    if bytesNeeded - bytesToAdd ≤ 0 then (s, false) else addMachines task bytesToAdd s rest (bytesNeeded - bytesToAdd)

/-- `tryToIncreaseAccumulatorTaskAllocation(task)`, from where it looks for other machines. The second component says
that the allocation could not be increased. -/
def allocateOnOtherMachines (bytesNeeded : ℤ) : Option (TaskAllocator × Bool) := do
  let bytesToAdd ← ((ascending (s.machinesOf task)).map (s.bytesAllocatedToAccumulatorTaskOnMachine task)).min?
  let boxesWeCouldAdd := s.mMachines.filter fun m =>
    s.bytesAllocatedToAccumulatorTaskOnMachine task m = 0 ∧ s.bytesAvailableForAccumulatorTasksOnMachine m ≥ bytesToAdd
  if boxesWeCouldAdd.card * bytesToAdd ≥ bytesNeeded then
    return addMachines task bytesToAdd s (ascending boxesWeCouldAdd) bytesNeeded
  else return (s, true)

/-- `tryToIncreaseAccumulatorTaskAllocation(task)`. The second component says that it could not be increased. -/
def tryToIncreaseAccumulatorTaskAllocation : Option (TaskAllocator × Bool) :=
  if s.bytesAllocatedToAccumulatorTask task = 0 then do
    return (← s.tryToAllocateNewAccumulatorTask task, false)
  else
    let bytesNeeded := s.bytesRequestedForAccumulatorTask task - s.bytesAllocatedToAccumulatorTask task
    let machines := s.machinesOf task
    match (((ascending machines).map s.bytesAvailableForAccumulatorTasksOnMachine).filter (0 < ·)).min? with
    | none => s.allocateOnOtherMachines task bytesNeeded
    | some minCount =>
      let bytesToAdd := max ((bytesNeeded - 1).tdiv machines.card + 1) minCount
      let s := (ascending machines).foldl (fun s m => s.addAllocated task m bytesToAdd) s
      let bytesNeeded := bytesNeeded - machines.card * bytesToAdd
      if bytesNeeded ≤ 0 then return (s, false) else s.allocateOnOtherMachines task bytesNeeded

/-- A turn of the loop of `allocateAccumulators`. The set has the tasks whose allocation could not be increased. -/
def allocateTurn (r : TaskAllocator × Finset TaskAllocatorId) (task : TaskAllocatorId) :
    Option (TaskAllocator × Finset TaskAllocatorId) :=
  if r.1.accumulatorTaskIsUnderallocated task then do
    let (s, critical) ← r.1.tryToIncreaseAccumulatorTaskAllocation task
    return (s, if critical then insert task r.2 else r.2)
  else some r

/-- `allocateAccumulators()`. -/
def allocateAccumulators : Option (TaskAllocator × Finset TaskAllocatorId) :=
  run allocateTurn (s, ∅) (ascending s.mAccumulatorTargetBytecounts.keys)

/-! ## Shares -/

theorem truncate_of_nonneg {q : ℚ} (h : 0 ≤ q) : truncate q = ⌊q⌋ := by
  rw [truncate, tdiv_eq_ediv_of_nonneg (Rat.num_nonneg.2 h), Rat.floor_def']

theorem truncate_nonpos {q : ℚ} (h : q ≤ 0) : truncate q ≤ 0 := by
  have hn : 0 ≤ (-q.num).tdiv q.den := Int.tdiv_nonneg (neg_nonneg.2 (Rat.num_nonpos.2 h)) (Int.natCast_nonneg _)
  rw [Int.neg_tdiv] at hn
  exact neg_nonneg.1 hn

/-- The number `(x - 1) / n + 1` is the quotient rounded up. -/
theorem share_le {x n b : ℤ} (hx : 0 < x) (hn : 0 < n) : (x - 1).tdiv n + 1 ≤ b ↔ x ≤ n * b := by
  rw [Int.tdiv_eq_ediv_of_nonneg (by omega), Int.add_one_le_iff, Int.ediv_lt_iff_lt_mul hn, mul_comm]
  omega

/-- Equal shares rounded up are enough together. -/
theorem le_mul_share {x n : ℤ} (hx : 0 < x) (hn : 0 < n) : x ≤ n * ((x - 1).tdiv n + 1) := (share_le hx hn).1 le_rfl

theorem share_pos {x n : ℤ} (hx : 0 < x) (hn : 0 < n) : 0 < (x - 1).tdiv n + 1 := by
  have := Int.tdiv_nonneg (a := x - 1) (by omega) hn.le
  omega

section
variable {s s' s'' : TaskAllocator} {task t : TaskAllocatorId} {machine m : MachineId} {v : ℤ}
  {L L' reduced : Finset MachineId}

/-! ## The tables -/

/-- What holds of the tables whatever is asked: the memory of a machine is not negative and is that of a known
machine, what is allocated is a positive number of bytes of a task that asks for some, on a known machine. -/
structure Tidy (s : TaskAllocator) : Prop where
  nonneg : ∀ m, 0 ≤ s.machineMaxMemory m
  known : ∀ m, s.machineMaxMemory m ≠ 0 → m ∈ s.mMachines
  target : ∀ t, (s.machinesOf t).Nonempty → t ∈ s.mAccumulatorTargetBytecounts.keys
  machines : ∀ t, s.machinesOf t ⊆ s.mMachines
  positive : ∀ t, ∀ m ∈ s.machinesOf t, 0 < s.bytesAllocatedToAccumulatorTaskOnMachine t m
  requested : ∀ t ∈ s.mAccumulatorTargetBytecounts.keys, 0 < s.bytesRequestedForAccumulatorTask t
  desired : ∀ t ∈ s.mAccumulatorTargetBytecounts.keys, t ∈ s.mAccumulatorDesiredMachine.keys

/-- On every machine whose memory was not reduced, what is allocated is within the part that is for tasks. -/
def Room (s : TaskAllocator) (reduced : Finset MachineId) : Prop :=
  ∀ m, m ∉ reduced → s.bytesAllocatedToAccumulatorTasksOnMachine m ≤ s.maxBytes m

theorem bytes_of_notMem (h : m ∉ s.machinesOf t) : s.bytesAllocatedToAccumulatorTaskOnMachine t m = 0 := get_of_notMem h

theorem Tidy.maxBytes_eq (h : s.Tidy) (m : MachineId) :
    s.maxBytes m = ⌊s.machineMaxMemory m * maxFractionOfBoxToTasks⌋ := by
  refine truncate_of_nonneg (mul_nonneg (by exact_mod_cast h.nonneg m) ?_)
  decide +kernel

/-- What is available on a machine is what is left of the part that is for tasks. -/
theorem Tidy.available_eq (h : s.Tidy) (m : MachineId) : s.bytesAvailableForAccumulatorTasksOnMachine m =
    max 0 (s.maxBytes m - s.bytesAllocatedToAccumulatorTasksOnMachine m) := by
  rw [bytesAvailableForAccumulatorTasksOnMachine, h.maxBytes_eq]
  generalize (s.machineMaxMemory m * maxFractionOfBoxToTasks : ℚ) = q
  generalize s.bytesAllocatedToAccumulatorTasksOnMachine m = used
  rcases le_total 0 (q - used) with hq | hq
  · rw [truncate_of_nonneg hq, floor_sub_intCast]
  · have hf : ⌊q⌋ ≤ used := floor_le_iff.2 (by linarith)
    rw [max_eq_left (truncate_nonpos hq), max_eq_left (by omega)]

theorem available_nonneg (s : TaskAllocator) (m : MachineId) : 0 ≤ s.bytesAvailableForAccumulatorTasksOnMachine m :=
  le_max_left _ _

/-- Nothing is allocated to a task exactly when it has no machine. -/
theorem Tidy.total_eq_zero_iff (h : s.Tidy) : s.bytesAllocatedToAccumulatorTask t = 0 ↔ s.machinesOf t = ∅ := by
  constructor
  · intro h0
    by_contra hne
    have hpos := sum_pos (h.positive t) (nonempty_iff_ne_empty.2 hne)
    exact hpos.ne' h0
  · intro he
    rw [bytesAllocatedToAccumulatorTask, he, sum_empty]

/-! ## Granting bytes -/

/-- The task has got the same number of bytes more on each of the machines. -/
structure Granted (s s' : TaskAllocator) (task : TaskAllocatorId) (L : Finset MachineId) (v : ℤ) : Prop where
  mMachines : s'.mMachines = s.mMachines
  sizes : s'.mMachineSizes = s.mMachineSizes
  targets : s'.mAccumulatorTargetBytecounts = s.mAccumulatorTargetBytecounts
  desired : s'.mAccumulatorDesiredMachine = s.mAccumulatorDesiredMachine
  bytes : ∀ t m, s'.bytesAllocatedToAccumulatorTaskOnMachine t m =
    s.bytesAllocatedToAccumulatorTaskOnMachine t m + if t = task ∧ m ∈ L then v else 0
  entries : ∀ t, s'.machinesOf t = if t = task then s.machinesOf t ∪ L else s.machinesOf t

theorem Granted.refl (s : TaskAllocator) (task : TaskAllocatorId) (v : ℤ) : Granted s s task ∅ v :=
  ⟨rfl, rfl, rfl, rfl, by simp, by simp⟩

theorem granted_addAllocated (s : TaskAllocator) (task : TaskAllocatorId) (machine : MachineId) (v : ℤ) :
    Granted s (s.addAllocated task machine v) task {machine} v := by
  refine ⟨rfl, rfl, rfl, rfl, fun t m => ?_, fun t => ?_⟩
  · simp only [bytesAllocatedToAccumulatorTaskOnMachine, addAllocated, setAllocated, get_insert, Finset.mem_singleton]
    by_cases ht : t = task <;> by_cases hm : m = machine <;> simp [ht, hm]
  · simp only [machinesOf, addAllocated, setAllocated, get_insert]
    by_cases ht : t = task
    · rw [if_pos ht, if_pos ht, ht]
      ext m
      rw [Finmap.mem_keys, Finmap.mem_insert, Finset.mem_union, Finset.mem_singleton, Finmap.mem_keys, or_comm]
    · rw [if_neg ht, if_neg ht]

theorem Granted.trans (h : Granted s s' task L v) (h' : Granted s' s'' task L' v) (hd : Disjoint L L') :
    Granted s s'' task (L ∪ L') v := by
  refine ⟨h'.mMachines.trans h.mMachines, h'.sizes.trans h.sizes, h'.targets.trans h.targets,
    h'.desired.trans h.desired, fun t m => ?_, fun t => ?_⟩
  · rw [h'.bytes, h.bytes, add_assoc]
    have hn : m ∈ L → m ∉ L' := fun hm hm' => disjoint_left.1 hd hm hm'
    by_cases ht : t = task <;> by_cases hm : m ∈ L <;> by_cases hm' : m ∈ L' <;> simp_all
  · rw [h'.entries, h.entries]
    split <;> simp

variable {l : List MachineId}

/-- The loops over machines that add the same number of bytes on each. -/
theorem granted_foldl (hl : l.Nodup) (s : TaskAllocator) (task : TaskAllocatorId) (v : ℤ) :
    Granted s (l.foldl (fun s m => s.addAllocated task m v) s) task l.toFinset v := by
  induction l generalizing s with
  | nil => exact Granted.refl s task v
  | cons m l ih =>
    obtain ⟨hm, hl⟩ := nodup_cons.1 hl
    rw [foldl_cons, toFinset_cons, Finset.insert_eq]
    refine (granted_addAllocated s task m v).trans (ih hl _) ?_
    simpa using hm

/-- A value written where there is none is a value added. -/
theorem setAllocated_eq (h : s.bytesAllocatedToAccumulatorTaskOnMachine task machine = 0) :
    s.setAllocated task machine v = s.addAllocated task machine v := by
  rw [addAllocated, h, zero_add]

/-- The loop that splits a task over machines where it has nothing yet. -/
theorem foldl_setAllocated (hl : l.Nodup) (h : ∀ m ∈ l, s.bytesAllocatedToAccumulatorTaskOnMachine task m = 0) :
    l.foldl (fun s m => s.setAllocated task m v) s = l.foldl (fun s m => s.addAllocated task m v) s := by
  induction l generalizing s with
  | nil => rfl
  | cons m l ih =>
    obtain ⟨hm, hl⟩ := nodup_cons.1 hl
    rw [foldl_cons, foldl_cons, setAllocated_eq (h m mem_cons_self)]
    refine ih hl fun m' hm' => ?_
    rw [(granted_addAllocated s task m v).bytes, h m' (mem_cons_of_mem m hm')]
    have hne : m' ≠ m := fun he => hm (he ▸ hm')
    simp [hne]

section

variable (h : Granted s s' task L v)
include h

theorem Granted.requested (t : TaskAllocatorId) :
    s'.bytesRequestedForAccumulatorTask t = s.bytesRequestedForAccumulatorTask t := by
  rw [bytesRequestedForAccumulatorTask, h.targets, bytesRequestedForAccumulatorTask]

theorem Granted.machineMaxMemory (m : MachineId) : s'.machineMaxMemory m = s.machineMaxMemory m := by
  rw [TaskAllocator.machineMaxMemory, h.sizes, TaskAllocator.machineMaxMemory]

theorem Granted.maxBytes (m : MachineId) : s'.maxBytes m = s.maxBytes m := by
  rw [TaskAllocator.maxBytes, h.machineMaxMemory, TaskAllocator.maxBytes]

/-- What is allocated on a machine afterwards. -/
theorem Granted.used (ht : task ∈ s.mAccumulatorTargetBytecounts.keys) (m : MachineId) :
    s'.bytesAllocatedToAccumulatorTasksOnMachine m =
      s.bytesAllocatedToAccumulatorTasksOnMachine m + if m ∈ L then v else 0 := by
  rw [bytesAllocatedToAccumulatorTasksOnMachine, h.targets, sum_congr rfl fun t _ => h.bytes t m,
    sum_add_distrib, bytesAllocatedToAccumulatorTasksOnMachine]
  by_cases hm : m ∈ L <;> simp [hm, ht]

/-- What the task has afterwards. -/
theorem Granted.total :
    s'.bytesAllocatedToAccumulatorTask task = s.bytesAllocatedToAccumulatorTask task + L.card * v := by
  rw [bytesAllocatedToAccumulatorTask, h.entries, if_pos rfl, sum_congr rfl fun m _ => h.bytes task m, sum_add_distrib]
  congr 1
  · refine (sum_subset subset_union_left fun m _ hm => bytes_of_notMem hm).symm
  · simp

theorem Granted.total_of_ne (ht : t ≠ task) :
    s'.bytesAllocatedToAccumulatorTask t = s.bytesAllocatedToAccumulatorTask t := by
  rw [bytesAllocatedToAccumulatorTask, h.entries, if_neg ht, bytesAllocatedToAccumulatorTask]
  refine sum_congr rfl fun m _ => ?_
  simp [h.bytes, ht]

end

theorem Tidy.granted (h : s.Tidy) (hg : Granted s s' task L v) (hv : 0 < v) (hL : L ⊆ s.mMachines)
    (ht : task ∈ s.mAccumulatorTargetBytecounts.keys) : s'.Tidy where
  nonneg m := by
    rw [hg.machineMaxMemory]
    exact h.nonneg m
  known m hm := by
    rw [hg.machineMaxMemory] at hm
    rw [hg.mMachines]
    exact h.known m hm
  target t hn := by
    rw [hg.targets]
    rw [hg.entries] at hn
    by_cases hte : t = task
    · exact hte ▸ ht
    · rw [if_neg hte] at hn
      exact h.target t hn
  machines t := by
    rw [hg.entries, hg.mMachines]
    split
    · exact union_subset (h.machines t) hL
    · exact h.machines t
  positive t m hm := by
    rw [hg.entries] at hm
    rw [hg.bytes]
    have hnn : 0 ≤ s.bytesAllocatedToAccumulatorTaskOnMachine t m := by
      by_cases hmem : m ∈ s.machinesOf t
      · exact (h.positive t m hmem).le
      · exact (bytes_of_notMem hmem).ge
    by_cases hc : t = task ∧ m ∈ L
    · rw [if_pos hc]
      omega
    · have hmem : m ∈ s.machinesOf t := by
        split at hm
        · next hte => exact (mem_union.1 hm).resolve_right fun hl => hc ⟨hte, hl⟩
        · exact hm
      rw [if_neg hc, add_zero]
      exact h.positive t m hmem
  requested t hk := by
    rw [hg.targets] at hk
    rw [hg.requested]
    exact h.requested t hk
  desired t hk := by
    rw [hg.targets] at hk
    rw [hg.desired]
    exact h.desired t hk

/-- No machine overflows where each of those that get more has that many bytes available. -/
theorem Room.granted (hr : s.Room reduced) (h : s.Tidy) (hg : Granted s s' task L v)
    (hfit : ∀ m ∈ L, m ∉ reduced → v ≤ s.bytesAvailableForAccumulatorTasksOnMachine m)
    (ht : task ∈ s.mAccumulatorTargetBytecounts.keys) : s'.Room reduced := by
  intro m hred
  rw [hg.used ht, hg.maxBytes]
  have hroom := hr m hred
  by_cases hL : m ∈ L
  · have hv' := hfit m hL hred
    rw [h.available_eq] at hv'
    rw [if_pos hL]
    omega
  · rw [if_neg hL, add_zero]
    exact hroom

/-! ## Splitting a new task -/

/-- The machines in the order in which a task is split over them. -/
def byBytes (s : TaskAllocator) : List MachineId := s.bytesAvailable.map fun entry => (ofLex entry).2

theorem byBytes_perm (s : TaskAllocator) : s.byBytes.Perm (ascending s.mMachines) := by
  have h := (perm_insertionSort (· ≤ ·) ((ascending s.mMachines).map fun m =>
    toLex (-s.bytesAvailableForAccumulatorTasksOnMachine m, m))).map fun entry => (ofLex entry).2
  rw [List.map_map] at h
  exact h.trans (List.Perm.of_eq (map_id _))

theorem byBytes_nodup (s : TaskAllocator) : s.byBytes.Nodup := s.byBytes_perm.nodup_iff.2 (ascending_nodup _)

theorem mem_byBytes : m ∈ s.byBytes ↔ m ∈ s.mMachines := by
  rw [s.byBytes_perm.mem_iff, mem_ascending]

variable {entry : ℤ ×ₗ MachineId}

theorem mem_bytesAvailable (h : entry ∈ s.bytesAvailable) :
    (ofLex entry).1 = -s.bytesAvailableForAccumulatorTasksOnMachine (ofLex entry).2 := by
  rw [bytesAvailable, mem_insertionSort, List.mem_map] at h
  obtain ⟨m, -, rfl⟩ := h
  rfl

/-- A machine comes before those with fewer bytes. -/
theorem pairwise_byBytes (s : TaskAllocator) : s.byBytes.Pairwise fun a b =>
    s.bytesAvailableForAccumulatorTasksOnMachine b ≤ s.bytesAvailableForAccumulatorTasksOnMachine a := by
  rw [byBytes, pairwise_map]
  refine (pairwise_insertionSort (· ≤ ·) _).imp_of_mem fun {a b} ha hb hab => ?_
  have hle : (ofLex a).1 ≤ (ofLex b).1 := Prod.Lex.monotone_fst_ofLex hab
  rw [mem_bytesAvailable ha, mem_bytesAvailable hb] at hle
  exact neg_le_neg_iff.1 hle

/-- The loop over the numbers of machines ends where every machine has bytes left. -/
theorem findBestCount_isSome (needed minBoxSize : ℤ) (first : MachineId) {l : List (ℤ ×ₗ MachineId)} (k : ℕ)
    (best : Option ℕ) (h : ∀ entry ∈ l, s.bytesAvailableForAccumulatorTasksOnMachine (ofLex entry).2 ≠ 0) :
    ∃ bestCount, s.findBestCount needed first l k minBoxSize best = some bestCount := by
  induction l generalizing k minBoxSize best with
  | nil => exact ⟨best, rfl⟩
  | cons entry l ih =>
    simp only [findBestCount, guard, if_pos (h entry mem_cons_self)]
    exact ih _ _ _ fun e he => h e (mem_cons_of_mem entry he)

/-- A number of machines is found only where the machine that comes last in it has bytes for an equal share. -/
theorem findBestCount_spec {needed minBoxSize : ℤ} {first : MachineId} {l : List (ℤ ×ₗ MachineId)} {k : ℕ}
    {best bestCount : Option ℕ} (hneeded : 0 < needed)
    (h : s.findBestCount needed first l k minBoxSize best = some bestCount) :
    bestCount = best ∨ ∃ i entry, l[i]? = some entry ∧ bestCount = some (k + i) ∧
      needed ≤ ((k + i : ℕ) + 1) * s.bytesAvailableForAccumulatorTasksOnMachine (ofLex entry).2 := by
  induction l generalizing k minBoxSize best with
  | nil => exact .inl (Option.some.inj h).symm
  | cons entry l ih =>
    obtain ⟨⟨⟩, hg, h⟩ := Option.bind_eq_some_iff.1 h
    have hne : s.bytesAvailableForAccumulatorTasksOnMachine (ofLex entry).2 ≠ 0 := by
      by_contra h0
      simp [guard, h0] at hg
    have hpos := (s.available_nonneg (ofLex entry).2).lt_of_ne' hne
    rcases ih h with hb | ⟨i, e, hi, hb, hle⟩
    · split at hb
      · next hc =>
        refine .inr ⟨0, entry, rfl, hb, ?_⟩
        rw [mul_comm]
        exact (share_le hneeded hpos).1 hc.1
      · exact .inl hb
    · refine .inr ⟨i + 1, e, hi, ?_, ?_⟩
      · rw [hb, Nat.add_right_comm, Nat.add_assoc]
      · rw [Nat.add_right_comm, Nat.add_assoc] at hle
        exact hle

/-- The bytes are there, the task has what it asks for or could not get it, and no machine overflows. -/
structure Increased (reduced : Finset MachineId) (s s' : TaskAllocator) (task : TaskAllocatorId) (critical : Bool)
    (L : Finset MachineId) (v : ℤ) : Prop extends Granted s s' task L v where
  pos : 0 < v
  machines : L ⊆ s.mMachines
  fits : ∀ m ∈ L, m ∉ reduced → v ≤ s.bytesAvailableForAccumulatorTasksOnMachine m
  enough : s'.bytesAllocatedToAccumulatorTask task = 0 ∨
    s'.bytesRequestedForAccumulatorTask task ≤ s'.bytesAllocatedToAccumulatorTask task ∨ critical = true

/-- A task that has nothing yet and is put on a machine. -/
theorem Tidy.singleMachine (h : s.Tidy) (hn : s.machinesOf task = ∅)
    (hreq : 0 < s.bytesRequestedForAccumulatorTask task)
    (hs : s.tryToAllocateAccumulatorTaskToSingleMachine task machine = some s') :
    Increased reduced s s' task false {machine} (s.bytesRequestedForAccumulatorTask task) := by
  rw [tryToAllocateAccumulatorTaskToSingleMachine] at hs
  split at hs
  · next hfit =>
    have h0 : s.bytesAllocatedToAccumulatorTaskOnMachine task machine = 0 := bytes_of_notMem (by simp [hn])
    obtain rfl := Option.some.inj hs
    have hg := granted_addAllocated s task machine (s.bytesRequestedForAccumulatorTask task)
    rw [← setAllocated_eq h0] at hg
    refine ⟨hg, hreq, ?_, ?_, .inr (.inl ?_)⟩
    · rw [singleton_subset_iff]
      refine h.known machine fun hmem => ?_
      have hmax := hfit.1
      rw [h.maxBytes_eq, hmem] at hmax
      simp at hmax
      omega
    · intro m hm _
      obtain rfl := Finset.mem_singleton.1 hm
      rw [h.available_eq]
      have := hfit.2
      omega
    · rw [hg.total, hg.requested, h.total_eq_zero_iff.2 hn]
      simp
  · cases hs

/-- The first machines have at least as many bytes available as the last one of them. -/
theorem available_le_of_mem_take {c : ℕ} (hc : s.bytesAvailable[c]? = some entry)
    (hm : m ∈ s.byBytes.take (c + 1)) : s.bytesAvailableForAccumulatorTasksOnMachine (ofLex entry).2 ≤
      s.bytesAvailableForAccumulatorTasksOnMachine m := by
  obtain ⟨j, hj, rfl⟩ := mem_take_iff_getElem.1 hm
  have hlt : c < s.byBytes.length := by
    rw [byBytes, length_map]
    exact (List.getElem?_eq_some_iff.1 hc).1
  have hlast : s.byBytes[c] = (ofLex entry).2 := by
    have hmap : s.byBytes[c]? = some (ofLex entry).2 := by rw [byBytes, getElem?_map, hc]; rfl
    exact (List.getElem?_eq_some_iff.1 hmap).2
  rw [← hlast]
  rcases (show j ≤ c by omega).eq_or_lt with rfl | hjc
  · exact le_rfl
  · exact pairwise_iff_getElem.1 s.pairwise_byBytes j c _ hlt hjc

/-- A task that has nothing yet and is split equally over the first machines. -/
theorem split_increased {c : ℕ} (hn : s.machinesOf task = ∅) (hc : s.bytesAvailable[c]? = some entry) (hv : 0 < v)
    (hle : v ≤ s.bytesAvailableForAccumulatorTasksOnMachine (ofLex entry).2)
    (henough : s.bytesRequestedForAccumulatorTask task ≤ (c + 1) * v) :
    Increased reduced s
      ((s.bytesAvailable.take (c + 1)).foldl (fun s entry => s.setAllocated task (ofLex entry).2 v) s) task false
      (s.byBytes.take (c + 1)).toFinset v := by
  have hnodup : (s.byBytes.take (c + 1)).Nodup := s.byBytes_nodup.sublist (take_sublist _ _)
  have hfold : (s.bytesAvailable.take (c + 1)).foldl (fun s entry => s.setAllocated task (ofLex entry).2 v) s =
      (s.byBytes.take (c + 1)).foldl (fun s m => s.addAllocated task m v) s := by
    rw [← foldl_setAllocated hnodup fun m _ => bytes_of_notMem (by simp [hn]), byBytes, ← map_take, foldl_map]
  have hg := granted_foldl hnodup s task v
  rw [← hfold] at hg
  have hcard : (s.byBytes.take (c + 1)).toFinset.card = c + 1 := by
    rw [toFinset_card_of_nodup hnodup, length_take, byBytes, length_map]
    have := (List.getElem?_eq_some_iff.1 hc).1
    omega
  refine ⟨hg, hv, fun m hm => ?_, fun m hm _ => ?_, .inr (.inl ?_)⟩
  · exact mem_byBytes.1 (mem_of_mem_take (mem_toFinset.1 hm))
  · exact hle.trans (available_le_of_mem_take hc (mem_toFinset.1 hm))
  · rw [hg.total, hg.requested, hcard, bytesAllocatedToAccumulatorTask, hn, sum_empty, zero_add]
    exact henough

/-- A task that has nothing yet and is split over several machines. -/
theorem Tidy.severalMachines (h : s.Tidy) (hn : s.machinesOf task = ∅)
    (hreq : 0 < s.bytesRequestedForAccumulatorTask task) (hne : s.mMachines.Nonempty)
    (hpos : ∀ m ∈ s.mMachines, 0 < s.bytesAvailableForAccumulatorTasksOnMachine m) :
    ∃ s' L v, s.allocateToSeveralMachines task = some s' ∧ Increased reduced s s' task false L v := by
  have hav : ∀ entry ∈ s.bytesAvailable, s.bytesAvailableForAccumulatorTasksOnMachine (ofLex entry).2 ≠ 0 :=
    fun entry he => (hpos _ (mem_byBytes.1 (mem_map_of_mem he))).ne'
  cases hb : s.bytesAvailable with
  | nil =>
    obtain ⟨m, hm⟩ := hne
    rw [← mem_byBytes, byBytes, hb] at hm
    cases hm
  | cons first rest =>
    rw [hb] at hav
    obtain ⟨bestCount, hf⟩ := findBestCount_isSome (s.bytesRequestedForAccumulatorTask task)
      (s.maxBytes (ofLex first).2) (ofLex first).2 0 none hav
    have hspec := findBestCount_spec hreq hf
    rw [allocateToSeveralMachines, hb]
    simp only [hf]
    cases bestCount with
    | none =>
      refine ⟨s, ∅, 1, rfl, Granted.refl s task 1, by simp, by simp, by simp, .inl ?_⟩
      exact h.total_eq_zero_iff.2 hn
    | some c =>
      rcases hspec with hnone | ⟨i, entry, hi, hc, hle⟩
      · cases hnone
      · rw [zero_add] at hc hle
        obtain rfl := Option.some.inj hc
        rw [← hb] at hi
        have hn0 : (0 : ℤ) < c + 1 := by omega
        refine ⟨_, _, _, ?_, split_increased hn hi (share_pos hreq hn0) ((share_le hreq hn0).2 hle)
          (le_mul_share hreq hn0)⟩
        rw [hb]
        rfl

/-- A task that has nothing yet. -/
theorem Tidy.new (h : s.Tidy) (hn : s.machinesOf task = ∅) (ht : task ∈ s.mAccumulatorTargetBytecounts.keys)
    (hfit : (∃ m ∈ s.mMachines, s.FitsOnSingleMachine task m) ∨
      s.mMachines.Nonempty ∧ ∀ m ∈ s.mMachines, 0 < s.bytesAvailableForAccumulatorTasksOnMachine m) :
    ∃ s' L v, s.tryToAllocateNewAccumulatorTask task = some s' ∧ Increased reduced s s' task false L v := by
  have hreq := h.requested task ht
  obtain ⟨preferred, hp⟩ := mem_keys_iff.1 (h.desired task ht)
  cases hs : (preferred :: ascending s.mMachines).findSome? (s.tryToAllocateAccumulatorTaskToSingleMachine task) with
  | some s' =>
    obtain ⟨machine, -, hm⟩ := exists_of_findSome?_eq_some hs
    refine ⟨s', _, _, ?_, h.singleMachine hn hreq hm⟩
    rw [tryToAllocateNewAccumulatorTask, hp]
    simp only [Option.bind_eq_bind, Option.bind_some, hs]
    rfl
  | none =>
    have hsingle : ∀ m ∈ s.mMachines, ¬ s.FitsOnSingleMachine task m := by
      intro m hm hf
      have hnone := findSome?_eq_none_iff.1 hs m (mem_cons_of_mem _ (mem_ascending.2 hm))
      rw [tryToAllocateAccumulatorTaskToSingleMachine, if_pos hf] at hnone
      cases hnone
    rcases hfit with ⟨m, hm, hf⟩ | ⟨hne, hpos⟩
    · exact absurd hf (hsingle m hm)
    · obtain ⟨s', L, v, he, hi⟩ := h.severalMachines hn hreq hne hpos
      refine ⟨s', L, v, ?_, hi⟩
      rw [tryToAllocateNewAccumulatorTask, hp]
      simp only [Option.bind_eq_bind, Option.bind_some, hs, he]

/-! ## Growing -/

/-- The loop over the machines that are added goes on until enough is granted. -/
theorem addMachines_granted (hl : l.Nodup) (s : TaskAllocator) (task : TaskAllocatorId)
    {v needed : ℤ} (hneeded : needed ≤ l.length * v) (hpos : 0 < needed) :
    ∃ pre, pre <+: l ∧ Granted s (addMachines task v s l needed).1 task pre.toFinset v ∧ pre.Nodup ∧
      needed ≤ pre.length * v := by
  induction l generalizing s needed with
  | nil => simp at hneeded; omega
  | cons m l ih =>
    obtain ⟨hm, hl⟩ := nodup_cons.1 hl
    rw [addMachines]
    split
    · next hle =>
      refine ⟨[m], by simp, granted_addAllocated s task m v, nodup_singleton m, ?_⟩
      simp only [length_cons, length_nil]
      omega
    · next hlt =>
      have hlen : needed - v ≤ l.length * v := by
        rw [length_cons] at hneeded
        push_cast at hneeded
        rw [add_mul, one_mul] at hneeded
        omega
      obtain ⟨pre, hpre, hg, hn, hle⟩ := ih hl (s.addAllocated task m v) hlen (by omega)
      have hmem : m ∉ pre := fun hmp => hm (hpre.subset hmp)
      refine ⟨m :: pre, cons_prefix_cons.2 ⟨rfl, hpre⟩, ?_, nodup_cons.2 ⟨hmem, hn⟩, ?_⟩
      · rw [toFinset_cons, Finset.insert_eq]
        refine (granted_addAllocated s task m v).trans hg ?_
        simpa using hmem
      · rw [length_cons]
        push_cast
        rw [add_mul, one_mul]
        omega

/-- A task that has something already and none of whose machines has bytes left. -/
theorem Tidy.otherMachines (h : s.Tidy) (hn : (s.machinesOf task).Nonempty) {needed : ℤ} (hpos : 0 < needed)
    (hneeded : s.bytesRequestedForAccumulatorTask task = s.bytesAllocatedToAccumulatorTask task + needed) :
    ∃ s' critical L v, s.allocateOnOtherMachines task needed = some (s', critical) ∧
      Increased reduced s s' task critical L v := by
  have hne : (ascending (s.machinesOf task)).map (s.bytesAllocatedToAccumulatorTaskOnMachine task) ≠ [] := by
    rw [Ne, map_eq_nil_iff, ← length_eq_zero_iff, length_ascending]
    exact hn.card_pos.ne'
  cases hmin : ((ascending (s.machinesOf task)).map (s.bytesAllocatedToAccumulatorTaskOnMachine task)).min? with
  | none => exact absurd (min?_eq_none_iff.1 hmin) hne
  | some bytesToAdd =>
    have hadd : 0 < bytesToAdd := by
      obtain ⟨m, hm, rfl⟩ := mem_map.1 (min?_mem hmin)
      exact h.positive task m (mem_ascending.1 hm)
    rw [allocateOnOtherMachines, hmin]
    simp only [Option.bind_eq_bind, Option.bind_some]
    split
    · next hroom =>
      obtain ⟨pre, hpre, hg, hnd, hle⟩ := addMachines_granted (ascending_nodup
        (s.mMachines.filter fun m => s.bytesAllocatedToAccumulatorTaskOnMachine task m = 0 ∧
          s.bytesAvailableForAccumulatorTasksOnMachine m ≥ bytesToAdd)) s task (by rwa [length_ascending]) hpos
      have hmem : ∀ m ∈ pre.toFinset, m ∈ s.mMachines ∧ bytesToAdd ≤
          s.bytesAvailableForAccumulatorTasksOnMachine m := by
        intro m hm
        have hf := mem_filter.1 (mem_ascending.1 (hpre.subset (mem_toFinset.1 hm)))
        exact ⟨hf.1, hf.2.2⟩
      refine ⟨_, _, _, _, rfl, hg, hadd, fun m hm => (hmem m hm).1, fun m hm _ => (hmem m hm).2, .inr (.inl ?_)⟩
      rw [hg.total, hg.requested, hneeded, toFinset_card_of_nodup hnd]
      omega
    · refine ⟨s, true, ∅, 1, rfl, Granted.refl s task 1, by simp, by simp, by simp, .inr (.inr rfl)⟩

/-- A task that has something already. -/
theorem Tidy.grow (h : s.Tidy) (hn : (s.machinesOf task).Nonempty) (hu : s.accumulatorTaskIsUnderallocated task)
    (hfit : (∃ m ∈ s.machinesOf task, 0 < s.bytesAvailableForAccumulatorTasksOnMachine m) →
      ∀ m ∈ s.machinesOf task, m ∉ reduced →
        (s.bytesRequestedForAccumulatorTask task - s.bytesAllocatedToAccumulatorTask task - 1).tdiv
          (s.machinesOf task).card + 1 ≤ s.bytesAvailableForAccumulatorTasksOnMachine m) :
    ∃ s' critical L v, s.tryToIncreaseAccumulatorTaskAllocation task = some (s', critical) ∧
      Increased reduced s s' task critical L v := by
  have hneeded : s.bytesRequestedForAccumulatorTask task = s.bytesAllocatedToAccumulatorTask task +
      (s.bytesRequestedForAccumulatorTask task - s.bytesAllocatedToAccumulatorTask task) := by omega
  have hpos : 0 < s.bytesRequestedForAccumulatorTask task - s.bytesAllocatedToAccumulatorTask task := sub_pos.2 hu
  have hcard : (0 : ℤ) < (s.machinesOf task).card := by exact_mod_cast hn.card_pos
  rw [tryToIncreaseAccumulatorTaskAllocation, if_neg fun h0 => hn.ne_empty (h.total_eq_zero_iff.1 h0)]
  simp only []
  generalize s.bytesRequestedForAccumulatorTask task - s.bytesAllocatedToAccumulatorTask task = needed at *
  cases hmin : (((ascending (s.machinesOf task)).map s.bytesAvailableForAccumulatorTasksOnMachine).filter
    (0 < ·)).min? with
  | none => exact h.otherMachines hn hpos hneeded
  | some minCount =>
    obtain ⟨hmem, hmin⟩ := min?_eq_some_iff.1 hmin
    obtain ⟨hmem, hcount⟩ := mem_filter.1 hmem
    obtain ⟨m₀, hm₀, rfl⟩ := mem_map.1 hmem
    have hfit := hfit ⟨m₀, mem_ascending.1 hm₀, of_decide_eq_true hcount⟩
    have hshare := share_pos hpos hcard
    have hmul := le_mul_share hpos hcard
    have hroom : ∀ m ∈ s.machinesOf task, m ∉ reduced →
        max ((needed - 1).tdiv (s.machinesOf task).card + 1) (s.bytesAvailableForAccumulatorTasksOnMachine m₀) ≤
          s.bytesAvailableForAccumulatorTasksOnMachine m := by
      intro m hm hred
      have hle := hfit m hm hred
      refine max_le hle (hmin _ (mem_filter.2 ⟨mem_map_of_mem (mem_ascending.2 hm), ?_⟩))
      exact decide_eq_true (hshare.trans_le hle)
    have hge : (needed - 1).tdiv (s.machinesOf task).card + 1 ≤
        max ((needed - 1).tdiv (s.machinesOf task).card + 1) (s.bytesAvailableForAccumulatorTasksOnMachine m₀) :=
      le_max_left _ _
    simp only []
    generalize max ((needed - 1).tdiv (s.machinesOf task).card + 1)
      (s.bytesAvailableForAccumulatorTasksOnMachine m₀) = bytesToAdd at hroom hge ⊢
    have henough : needed ≤ (s.machinesOf task).card * bytesToAdd := hmul.trans (mul_le_mul_of_nonneg_left hge hcard.le)
    have hg := granted_foldl (ascending_nodup (s.machinesOf task)) s task bytesToAdd
    rw [toFinset_ascending] at hg
    rw [if_pos (sub_nonpos.2 henough)]
    refine ⟨_, _, _, _, rfl, hg, hshare.trans_le hge, h.machines task, hroom, .inr (.inl ?_)⟩
    rw [hg.total, hg.requested, hneeded]
    omega

/-! ## The loop -/

/-- What the turn of a task relies on. Where the task has nothing, some machine takes it whole, or there are machines
and all of them have bytes left. Where it has something and one of its machines has bytes left, all of these whose
memory was not reduced have an equal share of what is missing. -/
def Fits (reduced : Finset MachineId) (s : TaskAllocator) (task : TaskAllocatorId) : Prop :=
  s.accumulatorTaskIsUnderallocated task → if s.bytesAllocatedToAccumulatorTask task = 0 then
      (∃ m ∈ s.mMachines, s.FitsOnSingleMachine task m) ∨
        s.mMachines.Nonempty ∧ ∀ m ∈ s.mMachines, 0 < s.bytesAvailableForAccumulatorTasksOnMachine m
    else
      (∃ m ∈ s.machinesOf task, 0 < s.bytesAvailableForAccumulatorTasksOnMachine m) →
        ∀ m ∈ s.machinesOf task, m ∉ reduced →
          (s.bytesRequestedForAccumulatorTask task - s.bytesAllocatedToAccumulatorTask task - 1).tdiv
            (s.machinesOf task).card + 1 ≤ s.bytesAvailableForAccumulatorTasksOnMachine m

instance (reduced : Finset MachineId) (s : TaskAllocator) (task : TaskAllocatorId) :
    Decidable (s.Fits reduced task) := by
  unfold Fits
  infer_instance

/-- A task has nothing, or at least what it asks for, or it is one of those whose allocation could not be
increased. -/
def Served (r : TaskAllocator × Finset TaskAllocatorId) (t : TaskAllocatorId) : Prop :=
  r.1.bytesAllocatedToAccumulatorTask t = 0 ∨
    r.1.bytesRequestedForAccumulatorTask t ≤ r.1.bytesAllocatedToAccumulatorTask t ∨ t ∈ r.2

/-- What a turn finds and leaves, where it is about the tasks of `s`. -/
structure Turned (reduced : Finset MachineId) (s : TaskAllocator) (r : TaskAllocator × Finset TaskAllocatorId) :
    Prop where
  tidy : r.1.Tidy
  room : r.1.Room reduced
  targets : r.1.mAccumulatorTargetBytecounts = s.mAccumulatorTargetBytecounts

variable {r : TaskAllocator × Finset TaskAllocatorId}

/-- A turn returns, and serves its task. -/
theorem Turned.turn (h : Turned reduced s r)
    (ht : task ∈ s.mAccumulatorTargetBytecounts.keys) (hfit : r.1.Fits reduced task) :
    ∃ r', allocateTurn r task = some r' ∧ Turned reduced s r' ∧ Served r' task ∧ ∀ t, Served r t → Served r' t := by
  rw [← h.targets] at ht
  by_cases hu : r.1.accumulatorTaskIsUnderallocated task
  · have hstep : ∃ s' critical L v, r.1.tryToIncreaseAccumulatorTaskAllocation task = some (s', critical) ∧
        Increased reduced r.1 s' task critical L v := by
      have hfit := hfit hu
      split at hfit
      · next h0 =>
        obtain ⟨s', L, v, he, hi⟩ := h.tidy.new (h.tidy.total_eq_zero_iff.1 h0) ht hfit
        refine ⟨s', false, L, v, ?_, hi⟩
        rw [tryToIncreaseAccumulatorTaskAllocation, if_pos h0, he]
        rfl
      · next h0 =>
        have hn := nonempty_iff_ne_empty.2 fun he => h0 (h.tidy.total_eq_zero_iff.2 he)
        exact h.tidy.grow hn hu hfit
    obtain ⟨s', critical, L, v, he, hi⟩ := hstep
    have hg := hi.toGranted
    have hown : Served (s', if critical then insert task r.2 else r.2) task := by
      rcases hi.enough with h0 | hle | hc
      · exact .inl h0
      · exact .inr (.inl hle)
      · exact .inr (.inr (by simp [hc]))
    refine ⟨(s', if critical then insert task r.2 else r.2), ?_, ?_, hown, fun t hs => ?_⟩
    · rw [allocateTurn, if_pos hu, he]
      rfl
    · exact ⟨h.tidy.granted hg hi.pos hi.machines ht, h.room.granted h.tidy hg hi.fits ht, hg.targets.trans h.targets⟩
    · by_cases hte : t = task
      · exact hte ▸ hown
      · rw [Served, hg.total_of_ne hte, hg.requested]
        refine hs.imp_right (Or.imp_right fun hm => ?_)
        split
        · exact mem_insert_of_mem hm
        · exact hm
  · refine ⟨r, by rw [allocateTurn, if_neg hu], h, .inr (.inl (not_lt.1 hu)), fun t hs => hs⟩

/-- Where every turn fits, the loop returns and serves all its tasks. -/
theorem Turned.loop {l : List TaskAllocatorId} (h : Turned reduced s r)
    (hl : ∀ t ∈ l, t ∈ s.mAccumulatorTargetBytecounts.keys)
    (hfit : Run.EveryStep allocateTurn (fun r t => r.1.Fits reduced t) r l) :
    ∃ r', run allocateTurn r l = some r' ∧ Turned reduced s r' ∧ (∀ t ∈ l, Served r' t) ∧
      ∀ t, Served r t → Served r' t := by
  induction l generalizing r with
  | nil => exact ⟨r, rfl, h, by simp, fun t hs => hs⟩
  | cons task l ih =>
    obtain ⟨hf, hrest⟩ := everyStep_cons.1 hfit
    obtain ⟨r₁, hr₁, h₁, hown, hkeep₁⟩ := h.turn (hl task mem_cons_self) hf
    obtain ⟨r', hr', h', hall, hkeep⟩ := ih h₁ (fun t ht => hl t (mem_cons_of_mem task ht)) (hrest r₁ hr₁)
    refine ⟨r', ?_, h', ?_, fun t hs => hkeep t (hkeep₁ t hs)⟩
    · rw [run_cons, hr₁]
      exact hr'
    · intro t ht
      rcases mem_cons.1 ht with rfl | ht
      · exact hkeep t hown
      · exact hall t ht

end

/-! ## The allocator over its life -/

/-- The calls that are about accumulator tasks. -/
inductive Op where
  | setMachineStats (machine : MachineId) (bytesAvailable : ℕ)
  | setAccumulatorProperties (guid : Hash) (bytecount : ℕ+) (preferredMachine : MachineId)
  | dropTask (guid : Hash)
  | allocateAccumulators

/-- An allocator, the machines whose memory was ever reduced, and, right after an allocation, the tasks whose
allocation it reports that it could not increase. -/
structure Life where
  allocator : TaskAllocator := {}
  reduced : Finset MachineId := ∅
  reported : Option (Finset TaskAllocatorId) := none

/-- A call. -/
def Life.step (l : Life) : Op → Option Life
  | .setMachineStats machine bytesAvailable =>
    some {
      allocator := l.allocator.setMachineStats machine bytesAvailable
      reduced := if bytesAvailable < l.allocator.machineMaxMemory machine then insert machine l.reduced else l.reduced }
  | .setAccumulatorProperties guid bytecount preferredMachine => do
    let allocator ← l.allocator.setAccumulatorProperties ⟨.Accumulator, guid⟩ bytecount preferredMachine
    return { l with allocator := allocator, reported := none }
  | .dropTask guid =>
    some { l with allocator := l.allocator.dropTask ⟨.Accumulator, guid⟩, reported := none }
  | .allocateAccumulators => do
    let (allocator, reported) ← l.allocator.allocateAccumulators
    return { l with allocator := allocator, reported := some reported }

/-- No machine whose memory was not reduced has more allocated to accumulators than the fraction of its memory that is
for tasks; and after an allocation every task has nothing, or at least what it asks for, or it is reported. -/
structure Life.Respected (l : Life) : Prop where
  capacity : ∀ m ∈ l.allocator.mMachines, m ∉ l.reduced →
      (l.allocator.bytesAllocatedToAccumulatorTasksOnMachine m : ℚ) ≤
      l.allocator.machineMaxMemory m * maxFractionOfBoxToTasks
  served : ∀ reported ∈ l.reported, ∀ t ∈ l.allocator.mAccumulatorTargetBytecounts.keys,
      Served (l.allocator, reported) t

/-- Every turn of the loop of an allocation fits. -/
def Life.AllFit (l : Life) : Op → Prop
  | .allocateAccumulators => Run.EveryStep allocateTurn (fun r t => r.1.Fits l.reduced t) (l.allocator, ∅)
      (ascending l.allocator.mAccumulatorTargetBytecounts.keys)
  | _ => True

instance (l : Life) : ∀ op, Decidable (l.AllFit op)
  | .allocateAccumulators => inferInstanceAs (Decidable (Run.EveryStep _ _ _ _))
  | .setMachineStats _ _ => isTrue trivial
  | .setAccumulatorProperties _ _ _ => isTrue trivial
  | .dropTask _ => isTrue trivial

/-- What holds between the calls. -/
structure Life.Kept (l : Life) : Prop where
  tidy : l.allocator.Tidy
  room : l.allocator.Room l.reduced
  served : ∀ reported ∈ l.reported, ∀ t ∈ l.allocator.mAccumulatorTargetBytecounts.keys,
      Served (l.allocator, reported) t

theorem Life.Kept.respected {l : Life} (h : l.Kept) : l.Respected := by
  refine ⟨fun m _ hred => ?_, h.served⟩
  have hle := h.room m hred
  rw [h.tidy.maxBytes_eq] at hle
  exact le_floor.1 hle

theorem Life.kept_initial : ({} : Life).Kept := by
  have hnone : ∀ t, ({} : TaskAllocator).machinesOf t = ∅ := fun t => rfl
  refine ⟨⟨fun m => le_rfl, fun m hm => absurd rfl hm, fun t hn => ?_, fun t => ?_, fun t m hm => ?_, fun t ht => ?_,
    fun t ht => ?_⟩, fun m _ => ?_, by simp⟩
  · cases hn.ne_empty (hnone t)
  · exact empty_subset _
  · rw [hnone] at hm
    cases hm
  · cases notMem_empty (mem_keys.1 ht)
  · cases notMem_empty (mem_keys.1 ht)
  · show (0 : ℤ) ≤ truncate ((0 : ℤ) * maxFractionOfBoxToTasks)
    decide +kernel

section
variable {s} {reduced : Finset MachineId} {machine : MachineId} {task}

theorem machineMaxMemory_setMachineStats (s : TaskAllocator) (machine m : MachineId) (bytesAvailable : ℤ) :
    (s.setMachineStats machine bytesAvailable).machineMaxMemory m =
      if m = machine then bytesAvailable else s.machineMaxMemory m := get_insert _ _ _ _

theorem Tidy.setMachineStats (h : s.Tidy) {bytesAvailable : ℤ} (hb : 0 ≤ bytesAvailable) :
    (s.setMachineStats machine bytesAvailable).Tidy where
  nonneg m := by
    rw [machineMaxMemory_setMachineStats]
    split
    · exact hb
    · exact h.nonneg m
  known m hm := by
    rw [machineMaxMemory_setMachineStats] at hm
    split at hm
    · next he => exact he ▸ mem_insert_self _ _
    · exact mem_insert_of_mem (h.known m hm)
  target := h.target
  machines t := (h.machines t).trans (subset_insert _ _)
  positive := h.positive
  requested := h.requested
  desired := h.desired

/-- A machine has more room afterwards, unless its memory is reduced. -/
theorem Room.setMachineStats (hr : s.Room reduced) (h : s.Tidy) {bytesAvailable : ℤ} (hb : 0 ≤ bytesAvailable) :
    (s.setMachineStats machine bytesAvailable).Room
      (if bytesAvailable < s.machineMaxMemory machine then insert machine reduced else reduced) := by
  intro m hred
  have hmem : m ∉ reduced := fun hm => hred (by split <;> simp [hm])
  refine (hr m hmem).trans ?_
  rw [h.maxBytes_eq, (h.setMachineStats hb).maxBytes_eq, machineMaxMemory_setMachineStats]
  split
  · next he =>
    have hle : s.machineMaxMemory m ≤ bytesAvailable := by
      by_contra hlt
      rw [not_le, he] at hlt
      rw [if_pos hlt, he] at hred
      exact hred (mem_insert_self _ _)
    refine floor_le_floor (mul_le_mul_of_nonneg_right (by exact_mod_cast hle) ?_)
    decide +kernel
  · exact le_rfl

/-- A task that asks anew has kept what it was allocated. -/
theorem Tidy.setAccumulatorProperties (h : s.Tidy) (hr : s.Room reduced) (guid : Hash) {bytecount : ℤ}
    (hb : 0 < bytecount) (preferredMachine : MachineId) :
    ∃ s', s.setAccumulatorProperties ⟨.Accumulator, guid⟩ bytecount preferredMachine = some s' ∧ s'.Tidy ∧
      s'.Room reduced := by
  refine ⟨_, rfl, ⟨h.nonneg, h.known, fun t hn => ?_, h.machines, h.positive, fun t ht => ?_, fun t ht => ?_⟩,
    fun m hred => le_of_eq_of_le ?_ (hr m hred)⟩
  · exact mem_keys.2 (mem_insert.2 (.inr (mem_keys.1 (h.target t hn))))
  · rw [bytesRequestedForAccumulatorTask, get_insert]
    split
    · exact hb
    · next hne =>
      have hk := (mem_insert.1 (mem_keys.1 ht)).resolve_left hne
      exact h.requested t (mem_keys.2 hk)
  · refine mem_keys.2 (mem_insert.2 ?_)
    refine (mem_insert.1 (mem_keys.1 ht)).imp_right fun hk => ?_
    exact mem_keys.1 (h.desired t (mem_keys.2 hk))
  · symm
    refine sum_subset (fun t ht => ?_) fun t _ ht => bytes_of_notMem fun hm => ht (h.target t ⟨m, hm⟩)
    exact mem_keys.2 (mem_insert.2 (.inr (mem_keys.1 ht)))

theorem machinesOf_dropTask (s : TaskAllocator) (task t : TaskAllocatorId) :
    (s.dropTask task).machinesOf t = if t = task then ∅ else s.machinesOf t := by
  rw [machinesOf, dropTask, get_erase]
  split <;> rfl

theorem bytes_dropTask (s : TaskAllocator) (task t : TaskAllocatorId) (m : MachineId) :
    (s.dropTask task).bytesAllocatedToAccumulatorTaskOnMachine t m =
      if t = task then 0 else s.bytesAllocatedToAccumulatorTaskOnMachine t m := by
  rw [bytesAllocatedToAccumulatorTaskOnMachine, dropTask, get_erase]
  split
  · exact get_empty m
  · rfl

theorem mem_targets_dropTask {t : TaskAllocatorId} : t ∈ (s.dropTask task).mAccumulatorTargetBytecounts.keys ↔
      t ≠ task ∧ t ∈ s.mAccumulatorTargetBytecounts.keys := by
  rw [Finmap.mem_keys, Finmap.mem_keys]
  exact mem_erase

theorem Tidy.dropTask (h : s.Tidy) (task : TaskAllocatorId) : (s.dropTask task).Tidy where
  nonneg := h.nonneg
  known := h.known
  target t hn := by
    rw [machinesOf_dropTask] at hn
    split at hn
    · cases hn.ne_empty rfl
    · next hne => exact mem_targets_dropTask.2 ⟨hne, h.target t hn⟩
  machines t := by
    rw [machinesOf_dropTask]
    split
    · exact empty_subset _
    · exact h.machines t
  positive t m hm := by
    rw [machinesOf_dropTask] at hm
    rw [bytes_dropTask]
    split at hm
    · cases hm
    · next hne =>
      rw [if_neg hne]
      exact h.positive t m hm
  requested t ht := by
    obtain ⟨hne, ht⟩ := mem_targets_dropTask.1 ht
    rw [bytesRequestedForAccumulatorTask, TaskAllocator.dropTask, get_erase, if_neg hne]
    exact h.requested t ht
  desired t ht := by
    obtain ⟨hne, ht⟩ := mem_targets_dropTask.1 ht
    exact mem_keys.2 (mem_erase.2 ⟨hne, mem_keys.1 (h.desired t ht)⟩)

theorem Tidy.bytes_nonneg (h : s.Tidy) (t : TaskAllocatorId) (m : MachineId) :
    0 ≤ s.bytesAllocatedToAccumulatorTaskOnMachine t m := by
  by_cases hm : m ∈ s.machinesOf t
  · exact (h.positive t m hm).le
  · exact (bytes_of_notMem hm).ge

/-- What a task had is free afterwards. -/
theorem Room.dropTask (hr : s.Room reduced) (h : s.Tidy) (task : TaskAllocatorId) : (s.dropTask task).Room reduced := by
  intro m hred
  refine le_trans ?_ (hr m hred)
  calc (s.dropTask task).bytesAllocatedToAccumulatorTasksOnMachine m
      ≤ ∑ t ∈ (s.dropTask task).mAccumulatorTargetBytecounts.keys, s.bytesAllocatedToAccumulatorTaskOnMachine t m := by
        refine sum_le_sum fun t _ => ?_
        rw [bytes_dropTask]
        split
        · exact h.bytes_nonneg t m
        · exact le_rfl
    _ ≤ s.bytesAllocatedToAccumulatorTasksOnMachine m :=
        sum_le_sum_of_subset_of_nonneg (fun t ht => (mem_targets_dropTask.1 ht).2) fun t _ _ => h.bytes_nonneg t m

end

/-- A call returns and keeps the tables right, where every turn of an allocation fits. -/
theorem Life.Kept.step {l : Life} (h : l.Kept) {op : Op} (hfit : l.AllFit op) :
    ∃ l', l.step op = some l' ∧ l'.Kept := by
  cases op with
  | setMachineStats machine bytesAvailable =>
    have hb : (0 : ℤ) ≤ bytesAvailable := natCast_nonneg _
    exact ⟨_, rfl, h.tidy.setMachineStats hb, h.room.setMachineStats h.tidy hb, by simp⟩
  | setAccumulatorProperties guid bytecount preferredMachine =>
    have hb : (0 : ℤ) < (bytecount : ℕ) := by exact_mod_cast bytecount.pos
    obtain ⟨s', he, ht, hr⟩ := h.tidy.setAccumulatorProperties h.room guid hb preferredMachine
    refine ⟨{ l with allocator := s', reported := none }, ?_, ht, hr, by simp⟩
    rw [Life.step, he]
    rfl
  | dropTask guid => exact ⟨_, rfl, h.tidy.dropTask _, h.room.dropTask h.tidy _, by simp⟩
  | allocateAccumulators =>
    obtain ⟨r, hr, ht, hall, -⟩ := Turned.loop (s := l.allocator) (r := (l.allocator, ∅)) ⟨h.tidy, h.room, rfl⟩
      (fun t ht => mem_ascending.1 ht) hfit
    refine ⟨{ l with allocator := r.1, reported := some r.2 }, ?_, ht.tidy, ht.room, ?_⟩
    · rw [Life.step, allocateAccumulators, hr]
      rfl
    · intro reported hrep t htk
      obtain rfl := Option.some.inj hrep
      have htk : t ∈ r.1.mAccumulatorTargetBytecounts.keys := htk
      rw [ht.targets] at htk
      exact hall t (mem_ascending.2 htk)

/-- Where every turn of every allocation fits, the calls all return and the capacity of the machines is respected. -/
theorem respected_of_allFit (ops : List Op) (hfit : Run.EveryStep Life.step Life.AllFit {} ops) :
    (run Life.step {} ops).isSome ∧ Run.Always Life.step Life.Respected {} ops := by
  obtain ⟨hr, ha⟩ := returns_of_everyStep Life.kept_initial (fun l op h hf => h.step hf) hfit
  exact ⟨hr, ha.mono fun l h => h.respected⟩

/-- Two machines, a task that one of them takes whole, and then one that is split over both. -/
theorem respected_of_allFit_twoMachines :
    (run Life.step {} [.setMachineStats ⟨1⟩ 100, .setMachineStats ⟨2⟩ 100, .setAccumulatorProperties 1 10 ⟨2⟩,
      .allocateAccumulators, .setAccumulatorProperties 2 40 ⟨1⟩, .allocateAccumulators]).isSome ∧
    Run.Always Life.step Life.Respected {} [.setMachineStats ⟨1⟩ 100, .setMachineStats ⟨2⟩ 100,
      .setAccumulatorProperties 1 10 ⟨2⟩, .allocateAccumulators, .setAccumulatorProperties 2 40 ⟨1⟩,
      .allocateAccumulators] :=
  respected_of_allFit _ (by decide +kernel)

/-- A task of 10 bytes on a machine with 40 for tasks asks for 60: it is given 50 more, where 30 are left. -/
theorem not_respected_growth : ¬ ∀ ops, (run Life.step {} ops).isSome ∧ Run.Always Life.step Life.Respected {} ops := by
  intro h
  obtain ⟨hr, ha⟩ := h [.setMachineStats ⟨1⟩ 100, .setAccumulatorProperties 1 10 ⟨1⟩, .allocateAccumulators,
    .setAccumulatorProperties 1 60 ⟨1⟩, .allocateAccumulators]
  obtain ⟨l, hl⟩ := Option.isSome_iff_exists.1 hr
  have hfull : ∀ l ∈ run Life.step {} [.setMachineStats ⟨1⟩ 100, .setAccumulatorProperties 1 10 ⟨1⟩,
      .allocateAccumulators, .setAccumulatorProperties 1 60 ⟨1⟩, .allocateAccumulators],
      ⟨1⟩ ∈ l.allocator.mMachines ∧ ⟨1⟩ ∉ l.reduced ∧
      ¬ (l.allocator.bytesAllocatedToAccumulatorTasksOnMachine ⟨1⟩ : ℚ) ≤
          l.allocator.machineMaxMemory ⟨1⟩ * maxFractionOfBoxToTasks := by
    decide +kernel
  obtain ⟨hm, hred, hover⟩ := hfull l hl
  exact hover ((ha.last hl).capacity ⟨1⟩ hm hred)

end TaskAllocator

end Cumulus.PageLayoutCalculator
