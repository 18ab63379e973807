import Ufora.Lib.Run
import Ufora.Pages.PagesOnMachines
import Mathlib.Algebra.Order.BigOperators.Group.Finset

/-!
# The derived tables of `PagesOnMachines`

`TablesExact` says that the derived tables are what the relations between pages and machines
determine. Three operations break it. A page that leaves the RAM of the last machine is inserted in
`mAllPagesOnDisk` where `mAllPagesOnlyOnDisk` is meant, and stays in `mAllPagesOnlyInRam`. A page
that leaves the last disk stays in `mAllPagesOnlyOnDisk`. `dropMachine` updates no table.
`KeepsTables` is the exact condition under which an operation keeps the tables, and
`always_tablesExact_iff` carries it to runs.
-/

open Ordered Effect Fora Cumulus Run Finset TwoWaySetMap

namespace PagesOnMachines

/-! ## Byte counts -/

section
variable {R : TwoWaySetMap PageId MachineId} {p : PageId} {m m' : MachineId}

/-- The bytes of the pages that a machine holds. -/
def bytesHeld (R : TwoWaySetMap PageId MachineId) (m : MachineId) : ℤ := ∑ p ∈ R.getKeys m, (p.bytecount : ℤ)

theorem bytesHeld_empty : bytesHeld ∅ m = 0 := by
  rw [bytesHeld, getKeys_empty, sum_empty]

/-- A page that a machine gets counts unless it was there. -/
theorem bytesHeld_insert : bytesHeld (R.insert p m) m' =
    if m' = m ∧ ¬ R.contains p m then bytesHeld R m' + p.bytecount else bytesHeld R m' := by
  unfold bytesHeld
  rw [getKeys_insert]
  by_cases hm : m' = m
  · subst hm
    by_cases hp : R.contains p m'
    · simp [hp, insert_eq_of_mem]
    · simp [hp, sum_insert, add_comm]
  · simp [hm]

/-- A page that a machine loses no longer counts. -/
theorem bytesHeld_drop : bytesHeld (R.drop p m) m' =
    if m' = m ∧ R.contains p m then bytesHeld R m' - p.bytecount else bytesHeld R m' := by
  unfold bytesHeld
  rw [getKeys_drop]
  by_cases hm : m' = m
  · subst hm
    by_cases hp : R.contains p m'
    · have := add_sum_erase (R.getKeys m') (fun p => (p.bytecount : ℤ)) (by simpa using hp)
      simp only [hp, and_self, if_true]
      omega
    · simp [hp]
  · simp [hm]

theorem bytesHeld_dropValue : bytesHeld (R.dropValue m) m' = if m' = m then 0 else bytesHeld R m' := by
  unfold bytesHeld
  rw [getKeys_dropValue]
  split <;> simp

/-- A machine holds no byte exactly when all its pages are empty. -/
theorem bytesHeld_eq_zero : bytesHeld R m = 0 ↔ ∀ p, R.contains p m → p.bytecount = 0 := by
  unfold bytesHeld
  rw [sum_eq_zero_iff_of_nonneg fun p _ => Int.natCast_nonneg _]
  simp

end

/-! ## What the tables should be -/

/-- The derived tables are what the relations between pages and machines determine. -/
structure TablesExact (s : PagesOnMachines) : Prop where
  allInRam : ∀ p, p ∈ s.mAllPagesInRam ↔ s.mPagesInRam.hasKey p
  allOnDisk : ∀ p, p ∈ s.mAllPagesOnDisk ↔ s.mPagesOnDisk.hasKey p
  onlyInRam : ∀ p, p ∈ s.mAllPagesOnlyInRam ↔ s.mPagesInRam.hasKey p ∧ ¬ s.mPagesOnDisk.hasKey p
  onlyOnDisk : ∀ p, p ∈ s.mAllPagesOnlyOnDisk ↔ s.mPagesOnDisk.hasKey p ∧ ¬ s.mPagesInRam.hasKey p
  bytesInRam : ∀ m, s.mMachineToBytesInRam.get m = bytesHeld s.mPagesInRam m
  bytesOnDisk : ∀ m, s.mMachineToBytesOnDisk.get m = bytesHeld s.mPagesOnDisk m

/-- The operations of `PagesOnMachines`. -/
inductive Op where
  | addMachine (inMachineId : MachineId)
  | dropMachine (inMachineId : MachineId)
  | consumePageEvent (inEvent : PageRefcountEvent) (inMachineId : MachineId)

/-- One operation, also where an assertion fails. -/
def step (s : PagesOnMachines) : Op → PagesOnMachines
  | .addMachine m => exec (addMachine m) s
  | .dropMachine m => exec (dropMachine m) s
  | .consumePageEvent e m => s.consumePageEvent e m

/-- Another machine than this one holds the page. -/
def HeldElsewhere (R : TwoWaySetMap PageId MachineId) (p : PageId) (m : MachineId) : Prop :=
  ∃ m', m' ≠ m ∧ R.contains p m'

/-- The operation keeps the derived tables: no page leaves the RAM of the last machine, none leaves
the last disk of the system while it is in no RAM, and a machine that goes held empty pages only,
each of which another machine holds. -/
def KeepsTables (s : PagesOnMachines) : Op → Prop
  | .dropMachine m => s.hasMachine m →
    (∀ p, s.mPagesInRam.contains p m → p.bytecount = 0 ∧ HeldElsewhere s.mPagesInRam p m) ∧
    ∀ p, s.mPagesOnDisk.contains p m → p.bytecount = 0 ∧ HeldElsewhere s.mPagesOnDisk p m
  | .consumePageEvent (.PageDroppedFromRam p) m =>
    s.mPagesInRam.contains p m → HeldElsewhere s.mPagesInRam p m
  | .consumePageEvent (.PageDroppedFromDisk p) m =>
    s.mPagesOnDisk.contains p m → HeldElsewhere s.mPagesOnDisk p m ∨ s.mPagesInRam.hasKey p
  | _ => True

/-! ## The pages that some machine holds -/

section
variable {R : TwoWaySetMap PageId MachineId} {p q : PageId} {m : MachineId}

theorem hasKey_drop : (R.drop p m).hasKey q ↔ if q = p then HeldElsewhere R p m else R.hasKey q := by
  simp only [hasKey_iff, contains_drop]
  split
  · next h => subst h; simp [HeldElsewhere, and_comm]
  · next h => simp [h]

theorem hasKey_dropValue : (R.dropValue m).hasKey q ↔ HeldElsewhere R q m := by
  simp only [hasKey_iff, contains_dropValue, HeldElsewhere, and_comm]

/-- A page is in the table unless this was its last place. -/
theorem HeldElsewhere.hasKey (h : HeldElsewhere R p m) : R.hasKey p := hasKey_iff.2 (h.imp fun _ => And.right)

theorem hasKey_iff_heldElsewhere (h : ¬ R.contains p m) : R.hasKey p ↔ HeldElsewhere R p m := by
  refine ⟨fun hk => ?_, HeldElsewhere.hasKey⟩
  obtain ⟨m', hm⟩ := hasKey_iff.1 hk
  exact ⟨m', fun he => h (he ▸ hm), hm⟩

end

/-! ## One step -/

section
variable {s : PagesOnMachines} {p : PageId} {b : Finset BigVectorId} {m : MachineId}

theorem TablesExact.pageAddedToRam (h : TablesExact s) : TablesExact (s.pageAddedToRam p b m) := by
  rw [pageAddedToRam_eq]
  refine ⟨fun q => ?_, h.allOnDisk, fun q => ?_, fun q => ?_, fun k => ?_, h.bytesOnDisk⟩
  · simp only [mem_insert, hasKey_insert, h.allInRam]
  · simp only [hasKey_insert]
    split_ifs with hd
    · rw [h.onlyInRam]
      rcases eq_or_ne q p with rfl | hq <;> simp [*]
    · rw [mem_insert, h.onlyInRam]
      rcases eq_or_ne q p with rfl | hq <;> simp [*]
  · simp only [mem_erase, h.onlyOnDisk, hasKey_insert]
    tauto
  · simp only [bytesHeld_insert, ← h.bytesInRam]
    split_ifs <;> simp_all

theorem TablesExact.pageAddedToDisk (h : TablesExact s) : TablesExact (s.pageAddedToDisk p m) := by
  rw [pageAddedToDisk_eq]
  refine ⟨h.allInRam, fun q => ?_, fun q => ?_, fun q => ?_, h.bytesInRam, fun k => ?_⟩
  · simp only [mem_insert, hasKey_insert, h.allOnDisk]
  · simp only [mem_erase, h.onlyInRam, hasKey_insert]
    tauto
  · simp only [hasKey_insert]
    split_ifs with hd
    · rw [h.onlyOnDisk]
      rcases eq_or_ne q p with rfl | hq <;> simp [*]
    · rw [mem_insert, h.onlyOnDisk]
      rcases eq_or_ne q p with rfl | hq <;> simp [*]
  · simp only [bytesHeld_insert, ← h.bytesOnDisk]
    split_ifs <;> simp_all

/-- Where the page stays in another place, dropping it changes no key. -/
theorem hasKey_drop_of_heldElsewhere {R : TwoWaySetMap PageId MachineId}
    (h : R.contains p m → HeldElsewhere R p m) (q : PageId) :
    (R.drop p m).hasKey q ↔ R.hasKey q := by
  rw [hasKey_drop]
  split
  · next hq =>
    subst hq
    by_cases hc : R.contains q m
    · exact iff_of_true (h hc) (h hc).hasKey
    · exact (hasKey_iff_heldElsewhere hc).symm
  · exact Iff.rfl

/-- The tables survive a page leaving the RAM of a machine exactly when it stays in another. -/
theorem tablesExact_pageDroppedFromRam_iff (h : TablesExact s) : TablesExact (s.pageDroppedFromRam p m) ↔
      (s.mPagesInRam.contains p m → HeldElsewhere s.mPagesInRam p m) := by
  rw [pageDroppedFromRam_eq]
  constructor
  · intro h' hc
    by_contra hne
    have hk : ¬ (s.mPagesInRam.drop p m).hasKey p := by simpa [hasKey_drop] using hne
    have hram : s.mPagesInRam.hasKey p := hasKey_iff.2 ⟨m, hc⟩
    have h1 := (h.onlyInRam p).symm.trans (h'.onlyInRam p)
    have h2 := (h.onlyOnDisk p).symm.trans (h'.onlyOnDisk p)
    tauto
  · intro hc
    have hk := hasKey_drop_of_heldElsewhere hc
    refine ⟨fun q => ?_, fun q => ?_, fun q => ?_, fun q => ?_, fun k => ?_, h.bytesOnDisk⟩
    · simp only [hk]
      split_ifs with hp
      · exact h.allInRam q
      · rw [mem_erase, h.allInRam]
        exact ⟨And.right, fun hq => ⟨fun he => hp (he ▸ hq), hq⟩⟩
    · simp only
      split_ifs with hp
      · rw [mem_insert, h.allOnDisk]
        exact ⟨Or.rec (fun he => he ▸ hp.2) id, .inr⟩
      · exact h.allOnDisk q
    · simp only [hk, h.onlyInRam]
    · simp only [hk, h.onlyOnDisk]
    · simp only [bytesHeld_drop, ← h.bytesInRam]
      split_ifs <;> simp_all

/-- The tables survive a page leaving the disk of a machine exactly when it stays on another disk
or is in RAM somewhere. -/
theorem tablesExact_pageDroppedFromDisk_iff (h : TablesExact s) :
    TablesExact (s.pageDroppedFromDisk p m) ↔ (s.mPagesOnDisk.contains p m →
        HeldElsewhere s.mPagesOnDisk p m ∨ s.mPagesInRam.hasKey p) := by
  rw [pageDroppedFromDisk_eq]
  constructor
  · intro h' hc
    by_contra! hne
    have hk : ¬ (s.mPagesOnDisk.drop p m).hasKey p := by simpa [hasKey_drop] using hne.1
    have hdisk : s.mPagesOnDisk.hasKey p := hasKey_iff.2 ⟨m, hc⟩
    have h2 := (h.onlyOnDisk p).symm.trans (h'.onlyOnDisk p)
    tauto
  · intro hc
    have hk : ∀ q, (s.mPagesOnDisk.drop p m).hasKey q ↔
        s.mPagesOnDisk.hasKey q ∧ (q = p → (s.mPagesOnDisk.drop p m).hasKey p) := by
      intro q
      rcases eq_or_ne q p with rfl | hq
      · refine ⟨fun hd => ⟨?_, fun _ => hd⟩, fun hd => hd.2 rfl⟩
        rw [hasKey_drop, if_pos rfl] at hd
        exact hd.hasKey
      · rw [hasKey_drop, if_neg hq]
        simp [hq]
    have hlast : s.mPagesOnDisk.hasKey p → ¬ (s.mPagesOnDisk.drop p m).hasKey p → s.mPagesInRam.hasKey p := by
      intro hd hl
      rw [hasKey_drop, if_pos rfl] at hl
      by_cases hcm : s.mPagesOnDisk.contains p m
      · exact (hc hcm).resolve_left hl
      · exact absurd ((hasKey_iff_heldElsewhere hcm).1 hd) hl
    refine ⟨h.allInRam, fun q => ?_, fun q => ?_, fun q => ?_, h.bytesInRam, fun k => ?_⟩
    · rw [hk q]
      simp only
      split_ifs with hd
      · simp [hd, h.allOnDisk]
      · rw [mem_erase, h.allOnDisk]
        tauto
    · rw [hk q]
      simp only
      split_ifs with hd
      · rw [mem_insert, h.onlyInRam]
        rcases eq_or_ne q p with rfl | hq
        · tauto
        · simp [hq]
      · rw [h.onlyInRam]
        rcases eq_or_ne q p with rfl | hq
        · tauto
        · simp [hq]
    · rw [hk q, h.onlyOnDisk]
      rcases eq_or_ne q p with rfl | hq
      · tauto
      · simp [hq]
    · clear hk hlast hc
      simp only [bytesHeld_drop, ← h.bytesOnDisk]
      split_ifs <;> simp_all

theorem step_dropMachine (hm : s.hasMachine m) : s.step (.dropMachine m) = { s with
    mMachineIdSet := s.mMachineIdSet.erase m
    mMachinesWhereExecutionIsBlocked := s.mMachinesWhereExecutionIsBlocked.erase m
    mPagesOnDisk := s.mPagesOnDisk.dropValue m
    mPagesPinned := s.mPagesPinned.dropValue m
    mPagesInRam := s.mPagesInRam.dropValue m } := by
  unfold hasMachine at hm
  refine wp.exec (P := fun s' => s' = _) ?_
  simp [dropMachine, hm]

theorem step_dropMachine_of_not_hasMachine (hm : ¬ s.hasMachine m) : s.step (.dropMachine m) = s := by
  unfold hasMachine at hm
  refine wp.exec (P := fun s' => s' = s) ?_
  simp [dropMachine, hm]

theorem step_addMachine : ∃ machines, s.step (.addMachine m) = { s with
    mMachineIdSet := machines } := by
  refine wp.exec (P := fun s' => ∃ machines, s' = { s with mMachineIdSet := machines }) ?_
  simp only [addMachine, wp_bind, wp_get, wp_lassert, wp_modify]
  split
  · exact ⟨_, rfl⟩
  · exact ⟨s.mMachineIdSet, rfl⟩

/-- The tables survive the loss of a machine exactly when it held empty pages only, each of which
another machine holds in the same place. -/
theorem tablesExact_dropMachine_iff (h : TablesExact s) (hm : s.hasMachine m) : TablesExact (s.step (.dropMachine m)) ↔
      (∀ p, s.mPagesInRam.contains p m → p.bytecount = 0 ∧ HeldElsewhere s.mPagesInRam p m) ∧
        ∀ p, s.mPagesOnDisk.contains p m → p.bytecount = 0 ∧ HeldElsewhere s.mPagesOnDisk p m := by
  rw [step_dropMachine hm]
  have kept : ∀ (R : TwoWaySetMap PageId MachineId) (all : Finset PageId)
      (bytes : StdMap MachineId ℤ), (∀ p, p ∈ all ↔ R.hasKey p) →
      (∀ m, bytes.get m = bytesHeld R m) →
      (((∀ p, p ∈ all ↔ (R.dropValue m).hasKey p) ∧ ∀ m', bytes.get m' = bytesHeld (R.dropValue m) m') ↔
      ∀ p, R.contains p m → p.bytecount = 0 ∧ HeldElsewhere R p m) := by
    intro R all bytes hall hbytes
    simp only [hall, hbytes, hasKey_dropValue, bytesHeld_dropValue]
    constructor
    · rintro ⟨hk, hb⟩ p hc
      have := bytesHeld_eq_zero.1 ((hb m).trans (if_pos rfl))
      exact ⟨this p hc, (hk p).1 (hasKey_iff.2 ⟨m, hc⟩)⟩
    · refine fun hc => ⟨fun p => ⟨fun hp => ?_, HeldElsewhere.hasKey⟩, fun m' => ?_⟩
      · by_cases hcm : R.contains p m
        · exact (hc p hcm).2
        · exact (hasKey_iff_heldElsewhere hcm).1 hp
      · split
        · next hm => subst hm; exact bytesHeld_eq_zero.2 fun p hp => (hc p hp).1
        · rfl
  rw [← kept _ _ _ h.allInRam h.bytesInRam, ← kept _ _ _ h.allOnDisk h.bytesOnDisk]
  constructor
  · exact fun h' => ⟨⟨h'.allInRam, h'.bytesInRam⟩, h'.allOnDisk, h'.bytesOnDisk⟩
  · rintro ⟨⟨hr, hbr⟩, hd, hbd⟩
    have hr' := fun p => (h.allInRam p).symm.trans (hr p)
    have hd' := fun p => (h.allOnDisk p).symm.trans (hd p)
    refine ⟨hr, hd, fun p => ?_, fun p => ?_, hbr, hbd⟩
    · simpa only [hr', hd'] using h.onlyInRam p
    · simpa only [hr', hd'] using h.onlyOnDisk p

/-- An operation keeps the derived tables exactly when it meets `KeepsTables`. -/
theorem tablesExact_step_iff (h : TablesExact s) (op : Op) : TablesExact (s.step op) ↔ KeepsTables s op := by
  cases op with
  | addMachine m =>
    obtain ⟨_, hs⟩ := step_addMachine (s := s) (m := m)
    rw [hs]
    exact iff_of_true ⟨h.1, h.2, h.3, h.4, h.5, h.6⟩ trivial
  | dropMachine m =>
    by_cases hm : s.hasMachine m
    · simpa [KeepsTables, hm] using tablesExact_dropMachine_iff h hm
    · simp [KeepsTables, hm, step_dropMachine_of_not_hasMachine hm, h]
  | consumePageEvent e m =>
    cases e with
    | PageAddedToRam p b => exact iff_of_true h.pageAddedToRam trivial
    | PageAddedToDisk p => exact iff_of_true h.pageAddedToDisk trivial
    | PageDroppedFromRam p => exact tablesExact_pageDroppedFromRam_iff h
    | PageDroppedFromDisk p => exact tablesExact_pageDroppedFromDisk_iff h
    | PageReferencedBigvecs p b =>
      refine iff_of_true ?_ trivial
      unfold step consumePageEvent pageReferencedBigvecs setPageBigvecs
      dsimp only
      split_ifs <;> exact ⟨h.1, h.2, h.3, h.4, h.5, h.6⟩
    | PagePinnedStatusChanged _ b | ExecutionIsBlockedChanged b =>
      cases b <;> exact iff_of_true ⟨h.1, h.2, h.3, h.4, h.5, h.6⟩ trivial
    | _ => exact iff_of_true ⟨h.1, h.2, h.3, h.4, h.5, h.6⟩ trivial

end

/-! ## Runs -/

theorem tablesExact_empty : TablesExact {} := by
  refine ⟨?_, ?_, ?_, ?_, ?_, ?_⟩ <;> simp [hasKey_iff, bytesHeld_empty]

/-- The derived tables are right throughout a run exactly when every operation of it meets
`KeepsTables`. -/
theorem always_tablesExact_iff (ops : List Op) :
    Always (total step) TablesExact {} ops ↔ EveryStep (total step) KeepsTables {} ops :=
  always_total_iff_everyStep tablesExact_empty fun _ op h => tablesExact_step_iff h op

/-- A page is added to the RAM and the disk of a machine and dropped from its RAM. It is on disk
only, and `mAllPagesOnlyOnDisk` does not have it. -/
theorem not_always_tablesExact : ¬ Always (total step) TablesExact {}
    [.addMachine ⟨1⟩, .consumePageEvent (.PageAddedToRam ⟨7, 10, 10⟩ ∅) ⟨1⟩,
      .consumePageEvent (.PageAddedToDisk ⟨7, 10, 10⟩) ⟨1⟩,
      .consumePageEvent (.PageDroppedFromRam ⟨7, 10, 10⟩) ⟨1⟩] := by
  intro h
  have := (h.last rfl).onlyOnDisk ⟨7, 10, 10⟩
  revert this
  decide

end PagesOnMachines
