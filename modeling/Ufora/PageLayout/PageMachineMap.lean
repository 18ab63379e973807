import Ufora.Containers.MapWithIndex
import Ufora.Pages.Basic
import Mathlib.Algebra.BigOperators.Field
import Mathlib.Algebra.Order.BigOperators.Group.Finset

/-!
# `PageMachineMap`

`cumulus/PageLayoutCalculator/PageMachineMap.hppml`: which machine each page of the working set belongs to, with the
bytes on each machine, absolutely and as a fraction of its memory.

Byte counts are exact integers and fractions exact rational numbers. `mChanges`, which only `extractChanges` reads, is
left out.
-/

open Ordered Finset Finmap TwoWaySetMap MapWithIndex Int

namespace Cumulus.PageLayoutCalculator

open Fora (PageId)

/-- `PageMachineMap`. -/
structure PageMachineMap where
  mTotalBytecount : ℤ := 0
  mPages : TwoWaySetMap MachineId PageId := ∅
  mBytecounts : MapWithIndex MachineId ℤ := ∅
  mMachineSizes : MapWithIndex MachineId ℤ := ∅
  mBytecountRatios : MapWithIndex MachineId ℚ := ∅

namespace PageMachineMap

variable (s : PageMachineMap) (machine : MachineId)

/-- `bytecountFor(machine)`. -/
def bytecountFor : ℤ := (s.mBytecounts.tryGetValue machine).getD 0

/-- `memoryFor(machine)`. -/
def memoryFor : ℤ := (s.mMachineSizes.tryGetValue machine).getD 0

/-- `bytecountRatioFor(m)`. -/
def bytecountRatioFor (m : MachineId) : ℚ := (s.mBytecountRatios.tryGetValue m).getD 0

/-- `updateBytecountRatio(machine)`. -/
def updateBytecountRatio : PageMachineMap :=
  let mem := s.memoryFor machine
  { s with mBytecountRatios := s.mBytecountRatios.set machine (if mem = 0 then 0 else s.bytecountFor machine / mem) }

/-- `setMemory(machine, memory)`. -/
def setMemory (memory : ℤ) : PageMachineMap := updateBytecountRatio
    { s with
      mMachineSizes := s.mMachineSizes.set machine memory
      mBytecounts := s.mBytecounts.set machine (s.bytecountFor machine) } machine

/-- `drop(machine, page)`. -/
def drop (s : PageMachineMap) (machine : MachineId) (page : PageId) : PageMachineMap :=
  if ¬ s.mPages.contains machine page then s
  else
    let mPages := s.mPages.drop machine page
    updateBytecountRatio
      { s with
        mPages := mPages
        mTotalBytecount := if (mPages.getKeys page).card = 0 then s.mTotalBytecount - page.bytecount
            else s.mTotalBytecount
        mBytecounts := s.mBytecounts.set machine (s.bytecountFor machine - page.bytecount) } machine

/-- `dropPage(page)`. -/
def dropPage (page : PageId) : PageMachineMap := (ascending (s.mPages.getKeys page)).foldl (fun s m => s.drop m page) s

/-- `add(machine, page)`. -/
def add (page : PageId) : PageMachineMap :=
  if s.mPages.contains machine page then s
  else
    let mPages := s.mPages.insert machine page
    updateBytecountRatio
      { s with
        mPages := mPages
        mTotalBytecount := if (mPages.getKeys page).card = 1 then s.mTotalBytecount + page.bytecount
            else s.mTotalBytecount
        mBytecounts := s.mBytecounts.set machine (s.bytecountFor machine + page.bytecount) } machine

/-! ## What the tables say of each other -/

/-- The machines whose memory is known. -/
def machines : Finset MachineId := s.mMachineSizes.mKeyToValue.keys

/-- No page belongs to two machines, pages belong to machines with a known, positive memory, and the numbers of bytes
are right. -/
structure Tidy (s : PageMachineMap) : Prop where
  single : ∀ m m' p, s.mPages.contains m p → s.mPages.contains m' p → m = m'
  known : ∀ m p, s.mPages.contains m p → m ∈ s.machines
  positive : ∀ m ∈ s.machines, 0 < s.memoryFor m
  bytes : ∀ m, s.bytecountFor m = ∑ p ∈ s.mPages.getValues m, (p.bytecount : ℤ)
  ratios : ∀ m, s.mBytecountRatios.tryGetValue m =
    if m ∈ s.machines then some (s.bytecountFor m / s.memoryFor m : ℚ) else none
  total : s.mTotalBytecount = ∑ m ∈ s.machines, s.bytecountFor m

variable {s s' : PageMachineMap} {machine m : MachineId} {page p : PageId}

theorem mem_machines : m ∈ s.machines ↔ s.mMachineSizes.hasKey m := mem_keys

theorem bytecountFor_set (x : ℤ) (m : MachineId) :
    ((s.mBytecounts.set machine x).tryGetValue m).getD 0 = if m = machine then x else s.bytecountFor m := by
  rw [tryGetValue_set]
  split <;> rfl

theorem Tidy.empty : ({} : PageMachineMap).Tidy where
  single _ _ _ h := absurd h contains_empty
  known _ _ h := absurd h contains_empty
  positive _ hm := absurd hm (notMem_empty ∘ mem_keys.1)
  bytes _ := rfl
  ratios _ := rfl
  total := rfl

/-- The values of a machine after its entries are set. -/
theorem tryGetValue_updateBytecountRatio (s : PageMachineMap) (machine m : MachineId) :
    (s.updateBytecountRatio machine).mBytecountRatios.tryGetValue m =
      if m = machine then some (s.bytecountFor machine / s.memoryFor machine : ℚ)
      else s.mBytecountRatios.tryGetValue m := by
  rw [updateBytecountRatio, tryGetValue_set]
  split
  · split
    · next h0 => simp [h0]
    · rfl
  · rfl

/-- The tables after the pages of one machine have changed. -/
def withPages (s : PageMachineMap) (machine : MachineId) (pages : TwoWaySetMap MachineId PageId) (total bytes : ℤ) :
    PageMachineMap :=
  updateBytecountRatio
    { s with
      mPages := pages
      mTotalBytecount := total
      mBytecounts := s.mBytecounts.set machine bytes } machine

theorem bytecountFor_withPages (pages : TwoWaySetMap MachineId PageId) (total bytes : ℤ) (m : MachineId) :
    (s.withPages machine pages total bytes).bytecountFor m = if m = machine then bytes else s.bytecountFor m :=
  bytecountFor_set bytes m

theorem tryGetValue_withPages (pages : TwoWaySetMap MachineId PageId) (total bytes : ℤ) (m : MachineId) :
    (s.withPages machine pages total bytes).mBytecountRatios.tryGetValue m =
      if m = machine then some (bytes / s.memoryFor machine : ℚ) else s.mBytecountRatios.tryGetValue m := by
  have hb : ((s.mBytecounts.set machine bytes).tryGetValue machine).getD 0 = bytes :=
    (bytecountFor_set bytes machine).trans (if_pos rfl)
  refine (tryGetValue_updateBytecountRatio _ machine m).trans ?_
  show (if m = machine then some ((((s.mBytecounts.set machine bytes).tryGetValue machine).getD 0 : ℤ) /
    s.memoryFor machine : ℚ) else _) = _
  rw [hb]

theorem Tidy.withPages (h : s.Tidy) (hm : machine ∈ s.machines) {pages : TwoWaySetMap MachineId PageId}
    {total bytes : ℤ}
    (hsingle : ∀ m m' p, pages.contains m p → pages.contains m' p → m = m')
    (hother : ∀ m, m ≠ machine → pages.getValues m = s.mPages.getValues m)
    (hbytes : bytes = ∑ p ∈ pages.getValues machine, (p.bytecount : ℤ))
    (htotal : total = s.mTotalBytecount + (bytes - s.bytecountFor machine)) :
    (s.withPages machine pages total bytes).Tidy where
  single := hsingle
  known m p hc := by
    by_cases he : m = machine
    · exact he ▸ hm
    · have hv : p ∈ pages.getValues m := hc
      rw [hother m he] at hv
      exact h.known m p hv
  positive := h.positive
  bytes m := by
    rw [bytecountFor_withPages]
    split
    · next he => rw [he, hbytes]; rfl
    · next he =>
      rw [h.bytes, ← hother m he]
      rfl
  ratios m := by
    show _ = if m ∈ s.machines then
      some ((s.withPages machine pages total bytes).bytecountFor m / s.memoryFor m : ℚ) else none
    rw [tryGetValue_withPages, bytecountFor_withPages]
    split
    · next he => rw [he, if_pos hm]
    · exact h.ratios m
  total := by
    have hsum : ∑ m ∈ s.machines, (s.withPages machine pages total bytes).bytecountFor m =
        ∑ m ∈ s.machines, (s.bytecountFor m + if m = machine then bytes - s.bytecountFor machine else 0) := by
      refine sum_congr rfl fun m _ => ?_
      rw [bytecountFor_withPages]
      split
      · next he => rw [he]; omega
      · rw [add_zero]
    show total = ∑ m ∈ s.machines, (s.withPages machine pages total bytes).bytecountFor m
    rw [hsum, sum_add_distrib, sum_ite_eq' s.machines machine, if_pos hm, htotal, h.total]

@[simp] theorem contains_drop {m' : MachineId} :
    (s.drop m' page).mPages.contains m p ↔ s.mPages.contains m p ∧ ¬ (m = m' ∧ p = page) := by
  rw [PageMachineMap.drop]
  split
  · next hc =>
    refine (and_iff_left_of_imp fun hm he => ?_).symm
    exact hc (he.1 ▸ he.2 ▸ hm)
  · exact TwoWaySetMap.contains_drop

@[simp] theorem contains_add :
    (s.add machine page).mPages.contains m p ↔ (m = machine ∧ p = page) ∨ s.mPages.contains m p := by
  rw [PageMachineMap.add]
  split
  · next hc =>
    refine (or_iff_right_of_imp ?_).symm
    rintro ⟨rfl, rfl⟩
    exact hc
  · exact contains_insert

@[simp] theorem mMachineSizes_drop : (s.drop machine page).mMachineSizes = s.mMachineSizes := by
  rw [PageMachineMap.drop]
  split <;> rfl

@[simp] theorem mMachineSizes_add : (s.add machine page).mMachineSizes = s.mMachineSizes := by
  rw [PageMachineMap.add]
  split <;> rfl

/-- A page is dropped from its machine. -/
theorem Tidy.drop (h : s.Tidy) (hc : s.mPages.contains machine page) :
    (s.drop machine page).Tidy ∧ (s.drop machine page).mTotalBytecount = s.mTotalBytecount - page.bytecount := by
  have hnone : (s.mPages.drop machine page).getKeys page = ∅ := by
    refine eq_empty_of_forall_notMem fun m hm => ?_
    obtain ⟨hmp, hne⟩ := TwoWaySetMap.contains_drop.1 (TwoWaySetMap.mem_getKeys.1 hm)
    exact hne ⟨h.single m machine page hmp hc, rfl⟩
  have hvalues : (s.mPages.drop machine page).getValues machine = (s.mPages.getValues machine).erase page := by
    ext p
    simp [and_comm]
  rw [PageMachineMap.drop, if_neg (not_not_intro hc)]
  simp only [hnone, card_empty, if_true]
  refine ⟨h.withPages (h.known machine page hc) (fun m m' p hp hp' => ?_) (fun m hm => ?_) ?_ (by omega), rfl⟩
  · exact h.single m m' p (TwoWaySetMap.contains_drop.1 hp).1 (TwoWaySetMap.contains_drop.1 hp').1
  · ext p
    simp [hm]
  · rw [hvalues, h.bytes, ← add_sum_erase _ _ (show page ∈ s.mPages.getValues machine from hc)]
    omega

/-- A page that belongs to no machine is added to one. -/
theorem Tidy.add (h : s.Tidy) (hm : machine ∈ s.machines) (hc : ∀ m, ¬ s.mPages.contains m page) :
    (s.add machine page).Tidy ∧ (s.add machine page).mTotalBytecount = s.mTotalBytecount + page.bytecount := by
  have hone : (s.mPages.insert machine page).getKeys page = {machine} := by
    ext m
    simp [hc]
  have hvalues : (s.mPages.insert machine page).getValues machine = insert page (s.mPages.getValues machine) := by
    ext p
    simp
  rw [PageMachineMap.add, if_neg (hc machine)]
  simp only [hone, card_singleton, if_true]
  refine ⟨h.withPages hm (fun m m' p hp hp' => ?_) (fun m hne => ?_) ?_ (by omega), rfl⟩
  · rcases contains_insert.1 hp with ⟨hm₁, hp₁⟩ | hold <;>
      rcases contains_insert.1 hp' with ⟨hm₂, hp₂⟩ | hold'
    · rw [hm₁, hm₂]
    · exact absurd (hp₁ ▸ hold') (hc m')
    · exact absurd (hp₂ ▸ hold) (hc m)
    · exact h.single m m' p hold hold'
  · ext p
    simp [hne]
  · rw [hvalues, sum_insert (hc machine), h.bytes]
    omega

/-- A page belongs to one machine at most, and dropping it drops it there. -/
theorem Tidy.dropPage_eq (h : s.Tidy) (hc : s.mPages.contains machine page) : s.dropPage page =
    s.drop machine page := by
  have hone : s.mPages.getKeys page = {machine} := by
    ext m
    rw [TwoWaySetMap.mem_getKeys, Finset.mem_singleton]
    exact ⟨fun hm => h.single m machine page hm hc, fun he => he ▸ hc⟩
  rw [dropPage, hone]
  rfl

theorem dropPage_of_forall_not (hc : ∀ m, ¬ s.mPages.contains m page) : s.dropPage page = s := by
  have hnone : s.mPages.getKeys page = ∅ := eq_empty_of_forall_notMem fun m hm => hc m (mem_getKeys.1 hm)
  rw [dropPage, hnone]
  rfl

@[simp] theorem contains_dropPage : (s.dropPage page).mPages.contains m p ↔ s.mPages.contains m p ∧ p ≠ page := by
  have hloop : ∀ (l : List MachineId) (s : PageMachineMap), (l.foldl (fun s m => s.drop m page) s).mPages.contains m p ↔
      s.mPages.contains m p ∧ ¬ (m ∈ l ∧ p = page) := by
    intro l
    induction l with
    | nil => simp
    | cons a l ih =>
      intro s
      rw [List.foldl_cons, ih, contains_drop, List.mem_cons]
      tauto
  rw [dropPage, hloop, mem_ascending, TwoWaySetMap.mem_getKeys]
  refine and_congr_right fun hc => not_congr ⟨And.right, fun he => ⟨he ▸ hc, he⟩⟩

@[simp] theorem mMachineSizes_dropPage : (s.dropPage page).mMachineSizes = s.mMachineSizes := by
  have hloop : ∀ (l : List MachineId) (s : PageMachineMap),
      (l.foldl (fun s m => s.drop m page) s).mMachineSizes = s.mMachineSizes := by
    intro l
    induction l with
    | nil => exact fun s => rfl
    | cons a l ih => exact fun s => (ih _).trans mMachineSizes_drop
  exact hloop _ s

theorem Tidy.dropPage (h : s.Tidy) (page : PageId) : (s.dropPage page).Tidy := by
  by_cases hc : ∃ m, s.mPages.contains m page
  · obtain ⟨m, hm⟩ := hc
    rw [h.dropPage_eq hm]
    exact (h.drop hm).1
  · rw [dropPage_of_forall_not (not_exists.1 hc)]
    exact h

theorem machines_setMemory (s : PageMachineMap) (machine : MachineId) (memory : ℤ) :
    (s.setMemory machine memory).machines = insert machine s.machines := by
  ext m
  rw [Finset.mem_insert, mem_machines, mem_machines]
  exact hasKey_set

theorem memoryFor_setMemory (s : PageMachineMap) (machine m : MachineId) (memory : ℤ) :
    (s.setMemory machine memory).memoryFor m = if m = machine then memory else s.memoryFor m := by
  show ((s.mMachineSizes.set machine memory).tryGetValue m).getD 0 = _
  rw [tryGetValue_set]
  split <;> rfl

theorem bytecountFor_setMemory (s : PageMachineMap) (machine m : MachineId) (memory : ℤ) :
    (s.setMemory machine memory).bytecountFor m = s.bytecountFor m := by
  refine (bytecountFor_set (s.bytecountFor machine) m).trans ?_
  split
  · next he => rw [he]
  · rfl

/-- A machine that is not known has no bytes. -/
theorem Tidy.bytecountFor_of_notMem (h : s.Tidy) (hm : m ∉ s.machines) : s.bytecountFor m = 0 := by
  rw [h.bytes]
  exact sum_eq_zero fun p hp => absurd (h.known m p hp) hm

theorem Tidy.setMemory (h : s.Tidy) {memory : ℤ} (hpos : 0 < memory) : (s.setMemory machine memory).Tidy where
  single := h.single
  known m p hc := by
    rw [machines_setMemory]
    exact mem_insert_of_mem (h.known m p hc)
  positive m hm := by
    rw [memoryFor_setMemory]
    split
    · exact hpos
    · next hne =>
      rw [machines_setMemory] at hm
      exact h.positive m (mem_of_mem_insert_of_ne hm hne)
  bytes m := by
    rw [bytecountFor_setMemory]
    exact h.bytes m
  ratios m := by
    rw [machines_setMemory, bytecountFor_setMemory, memoryFor_setMemory]
    refine (tryGetValue_updateBytecountRatio _ machine m).trans ?_
    have hb := bytecountFor_setMemory s machine machine memory
    have hmem := memoryFor_setMemory s machine machine memory
    rw [if_pos rfl] at hmem
    by_cases he : m = machine
    · rw [if_pos he, if_pos he, if_pos (he ▸ mem_insert_self _ _), he]
      show some ((s.setMemory machine memory).bytecountFor machine /
        (s.setMemory machine memory).memoryFor machine : ℚ) = _
      rw [hb, hmem]
    · rw [if_neg he, if_neg he]
      simp only [Finset.mem_insert, he, false_or]
      exact h.ratios m
  total := by
    rw [machines_setMemory, sum_congr rfl fun m _ => bytecountFor_setMemory s machine m memory]
    by_cases hm : machine ∈ s.machines
    · rw [insert_eq_of_mem hm]
      exact h.total
    · rw [sum_insert hm, h.bytecountFor_of_notMem hm, zero_add]
      exact h.total

/-- A page that belongs to a machine goes to another one, or to the same. -/
def move (s : PageMachineMap) (page : PageId) (machine : MachineId) : PageMachineMap :=
  (s.dropPage page).add machine page

/-- What a move changes: the machine of the page. -/
structure Moved (s s' : PageMachineMap) (page : PageId) (machine : MachineId) : Prop where
  tidy : s'.Tidy
  sizes : s'.mMachineSizes = s.mMachineSizes
  total : s'.mTotalBytecount = s.mTotalBytecount
  contains : ∀ m p, s'.mPages.contains m p ↔ if p = page then m = machine else s.mPages.contains m p

theorem Tidy.moved (h : s.Tidy) (hc : ∃ m, s.mPages.contains m page) (hm : machine ∈ s.machines) :
    Moved s (s.move page machine) page machine := by
  obtain ⟨m₀, hc⟩ := hc
  obtain ⟨hdrop, htotal⟩ := h.drop hc
  have hnone : ∀ m, ¬ (s.drop m₀ page).mPages.contains m page := by
    intro m hmp
    obtain ⟨hmp, hne⟩ := contains_drop.1 hmp
    exact hne ⟨h.single m m₀ page hmp hc, rfl⟩
  have hmem : machine ∈ (s.drop m₀ page).machines := by
    rw [machines, mMachineSizes_drop]
    exact hm
  obtain ⟨hadd, htotal'⟩ := hdrop.add hmem hnone
  rw [move, h.dropPage_eq hc]
  refine ⟨hadd, by rw [mMachineSizes_add, mMachineSizes_drop], by omega, fun m p => ?_⟩
  rw [contains_add]
  split
  · next he =>
    subst he
    exact ⟨fun hp => hp.elim And.left fun hp => absurd hp (hnone m), fun he => .inl ⟨he, rfl⟩⟩
  · next hne => simp [hne]

/-! ## Fractions of the memory -/

theorem Tidy.ratio_eq (h : s.Tidy) (m : MachineId) : s.bytecountRatioFor m = s.bytecountFor m / s.memoryFor m := by
  rw [bytecountRatioFor, h.ratios]
  split
  · rfl
  · next hm => simp [h.bytecountFor_of_notMem hm]

theorem memoryFor_of_notMem (hm : m ∉ s.machines) : s.memoryFor m = 0 := by
  rw [mem_machines, MapWithIndex.hasKey_iff, not_exists] at hm
  rw [memoryFor, Option.eq_none_iff_forall_ne_some.2 hm]
  rfl

section

variable (h : s.Tidy)
include h

theorem Tidy.memoryFor_nonneg (m : MachineId) : 0 ≤ s.memoryFor m := by
  by_cases hm : m ∈ s.machines
  · exact (h.positive m hm).le
  · exact (memoryFor_of_notMem hm).ge

theorem Tidy.bytecountFor_nonneg (m : MachineId) : 0 ≤ s.bytecountFor m := by
  rw [h.bytes]
  exact sum_nonneg fun p _ => natCast_nonneg _

theorem Tidy.total_nonneg : 0 ≤ s.mTotalBytecount := by
  rw [h.total]
  exact sum_nonneg fun m _ => h.bytecountFor_nonneg m

/-- Fewer bytes take a smaller part of the memory. -/
theorem Tidy.div_le_div {a b : ℚ} (hle : a ≤ b) : a / s.memoryFor m ≤ b / s.memoryFor m :=
  div_le_div_of_nonneg_right hle (by exact_mod_cast h.memoryFor_nonneg m)

/-- A page takes its part of the memory of its machine. -/
theorem Tidy.le_ratio (hc : s.mPages.contains m p) : (p.bytecount : ℚ) / s.memoryFor m ≤ s.bytecountRatioFor m := by
  have hle : (p.bytecount : ℤ) ≤ s.bytecountFor m := by
    rw [h.bytes]
    exact single_le_sum (fun q _ => natCast_nonneg q.bytecount) hc
  rw [h.ratio_eq]
  exact h.div_le_div (by exact_mod_cast hle)

/-- A machine without pages has no load. -/
theorem Tidy.ratio_of_empty (hnone : s.mPages.getValues m = ∅) : s.bytecountRatioFor m = 0 := by
  rw [h.ratio_eq, h.bytes, hnone, sum_empty]
  simp

/-- The bytes of the machines together are their load times their memory. -/
theorem Tidy.total_eq_sum : (s.mTotalBytecount : ℚ) = ∑ m ∈ s.machines, s.bytecountRatioFor m * s.memoryFor m := by
  rw [h.total, cast_sum]
  refine sum_congr rfl fun m hm => ?_
  have hpos : (s.memoryFor m : ℚ) ≠ 0 := by exact_mod_cast (h.positive m hm).ne'
  rw [h.ratio_eq, div_mul_cancel₀ _ hpos]

theorem Tidy.memory_pos (hne : s.machines.Nonempty) : (0 : ℚ) < ∑ m ∈ s.machines, (s.memoryFor m : ℚ) :=
  sum_pos (fun m hm => by exact_mod_cast h.positive m hm) hne

/-- Some machine is loaded at most as much as all of them together. -/
theorem Tidy.exists_le_mean (hne : s.machines.Nonempty) :
    ∃ m ∈ s.machines, s.bytecountRatioFor m ≤ s.mTotalBytecount / ∑ m ∈ s.machines, (s.memoryFor m : ℚ) := by
  by_contra hall
  push Not at hall
  have hlt : ∑ m ∈ s.machines, s.mTotalBytecount / (∑ m ∈ s.machines, (s.memoryFor m : ℚ)) * s.memoryFor m <
      ∑ m ∈ s.machines, s.bytecountRatioFor m * s.memoryFor m := by
    refine sum_lt_sum_of_nonempty hne fun m hm => mul_lt_mul_of_pos_right (hall m hm) ?_
    exact_mod_cast h.positive m hm
  rw [← mul_sum, div_mul_cancel₀ _ (h.memory_pos hne).ne', ← h.total_eq_sum] at hlt
  exact lt_irrefl _ hlt

/-- Some machine is loaded at least as much as all of them together. -/
theorem Tidy.exists_mean_le (hne : s.machines.Nonempty) :
    ∃ m ∈ s.machines, s.mTotalBytecount / ∑ m ∈ s.machines, (s.memoryFor m : ℚ) ≤ s.bytecountRatioFor m := by
  by_contra hall
  push Not at hall
  have hlt : ∑ m ∈ s.machines, s.bytecountRatioFor m * s.memoryFor m <
      ∑ m ∈ s.machines, s.mTotalBytecount / (∑ m ∈ s.machines, (s.memoryFor m : ℚ)) * s.memoryFor m := by
    refine sum_lt_sum_of_nonempty hne fun m hm => mul_lt_mul_of_pos_right (hall m hm) ?_
    exact_mod_cast h.positive m hm
  rw [← mul_sum, div_mul_cancel₀ _ (h.memory_pos hne).ne', ← h.total_eq_sum] at hlt
  exact lt_irrefl _ hlt

/-! ## What a move does to them -/

end

variable (h : Moved s s' page machine)
include h

theorem Moved.machines : s'.machines = s.machines := by
  rw [PageMachineMap.machines, h.sizes, PageMachineMap.machines]

theorem Moved.memoryFor (m : MachineId) : s'.memoryFor m = s.memoryFor m := by
  rw [PageMachineMap.memoryFor, h.sizes, PageMachineMap.memoryFor]

theorem Moved.getValues (m : MachineId) : s'.mPages.getValues m =
    if m = machine then insert page (s.mPages.getValues m) else (s.mPages.getValues m).erase page := by
  ext p
  rw [mem_getValues, h.contains]
  split <;> split <;> simp_all

/-- Only the machine that gets the page is loaded more afterwards. -/
theorem Moved.ratio_le (hs : s.Tidy) (hm : m ≠ machine) : s'.bytecountRatioFor m ≤ s.bytecountRatioFor m := by
  have hle : s'.bytecountFor m ≤ s.bytecountFor m := by
    rw [h.tidy.bytes, hs.bytes, h.getValues, if_neg hm]
    exact sum_le_sum_of_subset_of_nonneg (erase_subset _ _) fun p _ _ => natCast_nonneg _
  rw [h.tidy.ratio_eq, hs.ratio_eq, h.memoryFor]
  exact hs.div_le_div (by exact_mod_cast hle)

/-- Only the machine that gives the page is loaded less afterwards. -/
theorem Moved.le_ratio (hs : s.Tidy) (hm : m = machine ∨ ¬ s.mPages.contains m page) :
    s.bytecountRatioFor m ≤ s'.bytecountRatioFor m := by
  have hsub : s.mPages.getValues m ⊆ s'.mPages.getValues m := by
    rw [h.getValues]
    split
    · exact subset_insert _ _
    · next hne => exact (erase_eq_of_notMem (hm.resolve_left hne)).ge
  have hle : s.bytecountFor m ≤ s'.bytecountFor m := by
    rw [h.tidy.bytes, hs.bytes]
    exact sum_le_sum_of_subset_of_nonneg hsub fun p _ _ => natCast_nonneg _
  rw [h.tidy.ratio_eq, hs.ratio_eq, h.memoryFor]
  exact hs.div_le_div (by exact_mod_cast hle)

/-- No machine gets more than the page. -/
theorem Moved.ratio_le_add (hs : s.Tidy) (m : MachineId) :
    s'.bytecountRatioFor m ≤ s.bytecountRatioFor m + page.bytecount / s.memoryFor m := by
  have hle : s'.bytecountFor m ≤ s.bytecountFor m + page.bytecount := by
    rw [h.tidy.bytes, hs.bytes, h.getValues]
    split
    · by_cases hc : page ∈ s.mPages.getValues m
      · rw [insert_eq_of_mem hc]
        omega
      · rw [sum_insert hc]
        omega
    · have := sum_le_sum_of_subset_of_nonneg (erase_subset page (s.mPages.getValues m))
        fun p _ _ => natCast_nonneg p.bytecount
      omega
  rw [h.tidy.ratio_eq, hs.ratio_eq, h.memoryFor, ← add_div]
  exact hs.div_le_div (by exact_mod_cast hle)

/-- No machine loses more than the page. -/
theorem Moved.ratio_sub_le (hs : s.Tidy) (m : MachineId) :
    s.bytecountRatioFor m - page.bytecount / s.memoryFor m ≤ s'.bytecountRatioFor m := by
  have hle : s.bytecountFor m - page.bytecount ≤ s'.bytecountFor m := by
    rw [h.tidy.bytes, hs.bytes, h.getValues]
    split
    · have := sum_le_sum_of_subset_of_nonneg (subset_insert page (s.mPages.getValues m))
        fun p _ _ => natCast_nonneg p.bytecount
      omega
    · by_cases hc : page ∈ s.mPages.getValues m
      · rw [← add_sum_erase _ _ hc]
        omega
      · rw [erase_eq_of_notMem hc]
        omega
  rw [h.tidy.ratio_eq, hs.ratio_eq, h.memoryFor, ← sub_div]
  exact hs.div_le_div (by exact_mod_cast hle)

end PageMachineMap

end Cumulus.PageLayoutCalculator
