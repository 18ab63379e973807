import Ufora.PageLayout.RebalancingEnds

/-!
# The working set pages of a `TaskAllocator`

What holds of the tables between the calls, and from it, when a call of `rebalanceWorkingSetPages` ends: exactly when
each of its loops makes finitely many moves that take another machine across the threshold. It ends where every page is
small, and does not where a page is too large for every machine.
-/

open Ordered Loop List Finset TwoWaySetMap Fuel Cumulus.PageLayoutCalculator.Rebalancing
  Cumulus.PageLayoutCalculator.MachinePageAllocation

namespace Cumulus.PageLayoutCalculator.TaskAllocator.WorkingSet

open Fora (PageId)

/-! ## The tables -/

/-- The tables say the same of the machines, target pages are on known machines, and pages that are still to be given to
a machine have none. -/
structure Sound (s : WorkingSet) : Prop where
  tidy : s.mWorkingSetPages.Tidy
  sizes : ∀ m, s.mMachineSizes.get m = s.mWorkingSetPages.memoryFor m
  ram : s.mTotalRAM = ∑ m ∈ s.mWorkingSetPages.machines, s.mWorkingSetPages.memoryFor m
  targets : ∀ m p, s.mPageAllocation.mTargetPages.contains m p → m ∈ s.mWorkingSetPages.machines
  owned : ∀ m p, s.mWorkingSetPages.mPages.contains m p → p ∈ s.mWorkingSet ∨ p ∈ s.mDropped
  pending : ∀ p ∈ s.mWorkingSetPendingAdd, ∀ m, ¬ s.mWorkingSetPages.mPages.contains m p

section
variable {s s' : WorkingSet} {machine m : MachineId} {page p : PageId}

theorem sound_initial : ({} : WorkingSet).Sound where
  tidy := .empty
  sizes _ := rfl
  ram := rfl
  targets _ _ h := absurd h contains_empty
  owned _ _ h := absurd h contains_empty
  pending _ h := absurd h (notMem_empty _)

variable (pages : PageMachineMap)

/-- The memory of the machines together after that of one of them is set. -/
theorem sum_memoryFor_setMemory (machine : MachineId) (memory : ℤ) :
    ∑ m ∈ (pages.setMemory machine memory).machines, (pages.setMemory machine memory).memoryFor m =
      ∑ m ∈ pages.machines, pages.memoryFor m + (memory - pages.memoryFor machine) := by
  rw [PageMachineMap.machines_setMemory,
    sum_congr rfl fun m _ => PageMachineMap.memoryFor_setMemory pages machine m memory]
  have hsub : insert machine pages.machines = insert machine (pages.machines.erase machine) := by
    rw [← insert_erase (mem_insert_self machine pages.machines), erase_insert_eq_erase]
  have hrest : ∑ m ∈ pages.machines.erase machine, (if m = machine then memory else pages.memoryFor m) =
      ∑ m ∈ pages.machines.erase machine, pages.memoryFor m :=
    sum_congr rfl fun m hm => if_neg (ne_of_mem_erase hm)
  rw [hsub, sum_insert (notMem_erase _ _), if_pos rfl, hrest]
  by_cases hm : machine ∈ pages.machines
  · rw [← add_sum_erase _ _ hm]
    omega
  · rw [erase_eq_of_notMem hm, PageMachineMap.memoryFor_of_notMem hm]
    omega

theorem Sound.setMachineStats (h : s.Sound) {bytesAvailable : ℤ} (hpos : 0 < bytesAvailable) :
    (s.setMachineStats machine bytesAvailable).Sound := by
  refine ⟨h.tidy.setMemory hpos, fun m => ?_, ?_, fun m p hc => ?_, h.owned, h.pending⟩
  · show StdMap.get (Finmap.insert machine bytesAvailable s.mMachineSizes) m = _
    rw [StdMap.get_insert, h.sizes]
    exact (PageMachineMap.memoryFor_setMemory s.mWorkingSetPages machine m bytesAvailable).symm
  · show s.mTotalRAM + (bytesAvailable - s.mMachineSizes.get machine) = _
    rw [h.ram, h.sizes]
    exact (sum_memoryFor_setMemory s.mWorkingSetPages machine bytesAvailable).symm
  · show m ∈ (s.mWorkingSetPages.setMemory machine bytesAvailable).machines
    rw [PageMachineMap.machines_setMemory]
    exact mem_insert_of_mem (h.targets m p hc)

theorem Sound.addToWorkingSet (h : s.Sound) (he : s.addToWorkingSet page = some s') : s'.Sound := by
  obtain ⟨⟨⟩, hg, he⟩ := Option.bind_eq_some_iff.1 he
  obtain rfl := Option.some.inj he
  have hdropped : page ∉ s.mDropped := by
    by_contra hmem
    simp [guard, hmem] at hg
  split
  · exact h
  · next hnew =>
    refine ⟨h.tidy, h.sizes, h.ram, h.targets, fun m p hc => ?_, fun p hp m hc => ?_⟩
    · exact (h.owned m p hc).imp_left mem_insert_of_mem
    · rcases mem_insert.1 hp with rfl | hp
      · exact (h.owned m p hc).elim hnew hdropped
      · exact h.pending p hp m hc

theorem machines_dropPage (page : PageId) : (pages.dropPage page).machines = pages.machines := by
  rw [PageMachineMap.machines, PageMachineMap.mMachineSizes_dropPage, PageMachineMap.machines]

theorem memoryFor_dropPage (page : PageId) (m : MachineId) : (pages.dropPage page).memoryFor m = pages.memoryFor m := by
  rw [PageMachineMap.memoryFor, PageMachineMap.mMachineSizes_dropPage, PageMachineMap.memoryFor]

theorem Sound.dropFromWorkingSet (h : s.Sound) (page : PageId) : (s.dropFromWorkingSet page).Sound := by
  refine ⟨h.tidy.dropPage page, fun m => ?_, ?_, fun m p hc => ?_, fun m p hc => ?_, fun p hp m hc => ?_⟩
  · exact (h.sizes m).trans (memoryFor_dropPage _ page m).symm
  · show s.mTotalRAM = ∑ m ∈ (s.mWorkingSetPages.dropPage page).machines, (s.mWorkingSetPages.dropPage page).memoryFor m
    rw [machines_dropPage, sum_congr rfl fun m _ => memoryFor_dropPage _ page m]
    exact h.ram
  · show m ∈ (s.mWorkingSetPages.dropPage page).machines
    rw [machines_dropPage]
    exact h.targets m p hc
  · obtain ⟨hc, hne⟩ := PageMachineMap.contains_dropPage.1 hc
    exact (h.owned m p hc).imp_left fun hmem => mem_erase.2 ⟨hne, hmem⟩
  · exact h.pending p (mem_of_mem_erase hp) m (PageMachineMap.contains_dropPage.1 hc).1

theorem Sound.pageDroppedAcrossEntireSystem (h : s.Sound) (page : PageId) :
    (s.pageDroppedAcrossEntireSystem page).Sound := by
  have hd := h.dropFromWorkingSet page
  refine ⟨hd.tidy, hd.sizes, hd.ram, fun m p hc => ?_, fun m p hc => ?_, fun p hp m hc => ?_⟩
  · exact hd.targets m p (contains_dropValue.1 hc).1
  · exact (hd.owned m p hc).imp_right mem_insert_of_mem
  · exact h.pending p hp m (PageMachineMap.contains_dropPage.1 hc).1

/-! ## What the loops start from -/

theorem addPending_spec {targetPages : TwoWaySetMap MachineId PageId} {pages : PageMachineMap} (h : pages.Tidy)
    (htargets : ∀ m p, targetPages.contains m p → m ∈ pages.machines) (hnone : ∀ m, ¬ pages.mPages.contains m page) :
    (addPending targetPages pages page).Tidy ∧ (addPending targetPages pages page).mMachineSizes = pages.mMachineSizes ∧
      ∀ m p, (addPending targetPages pages page).mPages.contains m p → p = page ∨ pages.mPages.contains m p := by
  have hadd : ∀ machine ∈ pages.machines, (pages.add machine page).Tidy ∧
      (pages.add machine page).mMachineSizes = pages.mMachineSizes ∧
      ∀ m p, (pages.add machine page).mPages.contains m p → p = page ∨ pages.mPages.contains m p := by
    intro machine hm
    refine ⟨(h.add hm hnone).1, PageMachineMap.mMachineSizes_add, fun m p hc => ?_⟩
    exact (PageMachineMap.contains_add.1 hc).imp_left And.right
  rw [addPending]
  split
  · next best _ hb =>
    exact hadd best (htargets best page (bestTarget_spec hb).1)
  · next leastLoaded _ hleast => exact hadd leastLoaded (leastLoadedMachine_spec h hleast).1
  · exact ⟨h, rfl, fun m p hc => .inr hc⟩

/-- The loop over the pages that are new. -/
theorem foldl_addPending_spec {targetPages : TwoWaySetMap MachineId PageId} {l : List PageId} (hl : l.Nodup)
    {pages : PageMachineMap} (h : pages.Tidy) (htargets : ∀ m p, targetPages.contains m p → m ∈ pages.machines)
    (hnone : ∀ p ∈ l, ∀ m, ¬ pages.mPages.contains m p) :
    (l.foldl (addPending targetPages) pages).Tidy ∧
      (l.foldl (addPending targetPages) pages).mMachineSizes = pages.mMachineSizes ∧
      ∀ m p, (l.foldl (addPending targetPages) pages).mPages.contains m p → p ∈ l ∨ pages.mPages.contains m p := by
  induction l generalizing pages with
  | nil => exact ⟨h, rfl, fun m p hc => .inr hc⟩
  | cons page l ih =>
    obtain ⟨hpage, hl⟩ := nodup_cons.1 hl
    obtain ⟨h', hsizes, hcontains⟩ := addPending_spec h htargets (hnone page mem_cons_self)
    have htargets' : ∀ m p, targetPages.contains m p → m ∈ (addPending targetPages pages page).machines := by
      intro m p hc
      rw [PageMachineMap.machines, hsizes]
      exact htargets m p hc
    have hnone' : ∀ p ∈ l, ∀ m, ¬ (addPending targetPages pages page).mPages.contains m p := by
      intro p hp m hc
      rcases hcontains m p hc with rfl | hc
      · exact hpage hp
      · exact hnone p (mem_cons_of_mem page hp) m hc
    obtain ⟨ht, hs, hc'⟩ := ih hl h' htargets' hnone'
    refine ⟨ht, hs.trans hsizes, fun m p hc => ?_⟩
    rcases hc' m p hc with hp | hc
    · exact .inl (mem_cons_of_mem page hp)
    · rcases hcontains m p hc with rfl | hc
      · exact .inl mem_cons_self
      · exact .inr hc

theorem Sound.placed_spec (h : s.Sound) : s.placed.mWorkingSetPages.Tidy ∧
    s.placed.mWorkingSetPages.mMachineSizes = s.mWorkingSetPages.mMachineSizes ∧
    ∀ m p, s.placed.mWorkingSetPages.mPages.contains m p →
      p ∈ s.mWorkingSetPendingAdd ∨ s.mWorkingSetPages.mPages.contains m p := by
  obtain ⟨ht, hsizes, hcontains⟩ := foldl_addPending_spec (ascending_nodup s.mWorkingSetPendingAdd) h.tidy h.targets
    fun p hp => h.pending p (mem_ascending.1 hp)
  exact ⟨ht, hsizes, fun m p hc => (hcontains m p hc).imp_left mem_ascending.1⟩

theorem Sound.machines_placed (h : s.Sound) : s.placed.mWorkingSetPages.machines = s.mWorkingSetPages.machines := by
  rw [PageMachineMap.machines, h.placed_spec.2.1, PageMachineMap.machines]

theorem Sound.memoryFor_placed (h : s.Sound) (m : MachineId) :
    s.placed.mWorkingSetPages.memoryFor m = s.mWorkingSetPages.memoryFor m := by
  rw [PageMachineMap.memoryFor, h.placed_spec.2.1, PageMachineMap.memoryFor]

/-- Once the new pages are placed, the loops find what they rely on. -/
theorem Sound.ready (h : s.Sound) (hram : s.mTotalRAM ≠ 0) :
    s.placed.Ready s.mPageAllocation.mTargetPages s.mTotalRAM s.idealWSFraction := by
  refine ⟨h.placed_spec.1, ?_, ?_, rfl, fun m p hc => ?_⟩
  · rw [h.machines_placed, nonempty_iff_ne_empty]
    intro he
    rw [h.ram, he, sum_empty] at hram
    exact hram rfl
  · rw [h.machines_placed, sum_congr rfl fun m _ => by rw [h.memoryFor_placed m], h.ram, Int.cast_sum]
  · rw [h.machines_placed]
    exact h.targets m p hc

/-! ## When the call ends -/

/-- The call returns, where its loops may make any number of rounds. -/
def Terminates (s : WorkingSet) : Prop := ∃ s', Fuel.Yields (fun limit => s.rebalanceWorkingSetPages limit) s'

/-- Finitely many moves of the first loop take the machine that gets the page above the threshold of that loop. -/
def OverfillsFinitely (s : WorkingSet) : Prop := ∃ N, ∀ n, (rounds (TooMuch s.idealWSFraction)
    (moveAway s.mPageAllocation.mTargetPages s.mTotalRAM s.idealWSFraction) n s.placed).count
      (Move.Overfills (s.idealWSFraction + 1 / 10)) ≤ N

/-- Finitely many moves of the second loop, from a state on, take the machine that gives the page below the threshold of
that loop. -/
def UnderfillsFinitely (s : WorkingSet) (r : Rebalancing) : Prop :=
  ∃ N, ∀ n, (rounds (TooLittle s.idealWSFraction) (moveTowards s.idealWSFraction) n r).count
    (Move.Underfills (s.idealWSFraction / 3)) ≤ N

/-- The state in which the first loop ends. -/
def AfterFirstLoop (s : WorkingSet) (r : Rebalancing) : Prop :=
  Fuel.Yields (fun limit => s.placed.firstLoop s.mPageAllocation.mTargetPages s.mTotalRAM s.idealWSFraction limit) r

theorem yields_secondLoop {r r' : Rebalancing} {ideal : ℚ} {n : ℕ} (he : r.secondLoop ideal n = some r') :
    Fuel.Yields (fun n => r.secondLoop ideal n) r' := by
  by_cases hideal : ideal > 1 / 10
  · rw [secondLoop, if_pos hideal] at he
    exact (yields_of_eq_some he).congr fun n => by rw [secondLoop, if_pos hideal]
  · rw [secondLoop, if_neg hideal] at he
    refine Fuel.Yields.congr (yields_const.2 he) fun n => ?_
    rw [secondLoop, if_neg hideal]

/-- The call returns where both loops end. -/
theorem terminates_iff_loops (hram : s.mTotalRAM ≠ 0) : s.Terminates ↔
    ∃ r, s.AfterFirstLoop r ∧ ∃ r', Fuel.Yields (fun limit => r.secondLoop s.idealWSFraction limit) r' := by
  have hcall : (fun limit => s.rebalanceWorkingSetPages limit) = fun limit =>
      (s.placed.firstLoop s.mPageAllocation.mTargetPages s.mTotalRAM s.idealWSFraction limit).bind fun r =>
        (r.secondLoop s.idealWSFraction limit).bind fun r' =>
          some { s with mWorkingSetPages := r'.mWorkingSetPages, mWorkingSetPendingAdd := ∅ } := by
    funext limit
    rw [rebalanceWorkingSetPages, if_neg hram]
    rfl
  rw [Terminates, hcall]
  refine (exists_yields_bind
    (f := fun limit => s.placed.firstLoop s.mPageAllocation.mTargetPages s.mTotalRAM s.idealWSFraction limit)
    (g := fun (r : Rebalancing) limit => (r.secondLoop s.idealWSFraction limit).bind fun r' =>
      some { s with mWorkingSetPages := r'.mWorkingSetPages, mWorkingSetPendingAdd := ∅ })
    fun limit r he => yields_of_eq_some he).trans ?_
  refine exists_congr fun r => and_congr_right fun _ => ?_
  refine (exists_yields_bind (f := fun limit => r.secondLoop s.idealWSFraction limit)
    (g := fun (r' : Rebalancing) _ => some
      { s with mWorkingSetPages := r'.mWorkingSetPages, mWorkingSetPendingAdd := ∅ })
    fun limit r' he => yields_secondLoop he).trans ?_
  exact exists_congr fun r' => and_iff_left ⟨_, yields_some⟩

/-- The second loop ends where finitely many of its moves underfill a machine, or where it is not made at all. -/
theorem exists_yields_secondLoop_iff {r : Rebalancing}
    (hr : r.Ready s.mPageAllocation.mTargetPages s.mTotalRAM s.idealWSFraction) :
    (∃ r', Fuel.Yields (fun limit => r.secondLoop s.idealWSFraction limit) r') ↔
      (1 / 10 < s.idealWSFraction → s.UnderfillsFinitely r) := by
  by_cases hideal : 1 / 10 < s.idealWSFraction
  · have heq : (fun limit => r.secondLoop s.idealWSFraction limit) = fun limit =>
        whileLoop (TooLittle s.idealWSFraction) (moveTowards s.idealWSFraction) limit r := by
      funext limit
      rw [secondLoop, if_pos hideal]
    rw [heq, exists_yields_iff, hr.ends_moveTowards_iff hideal]
    exact ⟨fun hb _ => hb, fun hb => hb hideal⟩
  · have heq : (fun limit => r.secondLoop s.idealWSFraction limit) = fun _ => some r := by
      funext limit
      rw [secondLoop, if_neg hideal]
    rw [heq]
    exact iff_of_true ⟨r, yields_some⟩ fun hlt => absurd hlt hideal

theorem AfterFirstLoop.ready {r : Rebalancing} (hr : s.AfterFirstLoop r) (h : s.Sound) (hram : s.mTotalRAM ≠ 0) :
    r.Ready s.mPageAllocation.mTargetPages s.mTotalRAM s.idealWSFraction :=
  (of_yields (I := fun r => r.Ready s.mPageAllocation.mTargetPages s.mTotalRAM s.idealWSFraction)
    (fun _ hr _ => hr.moveAway.ready hr) (h.ready hram) hr).1

/-- The first loop ends where finitely many of its moves overfill a machine. -/
theorem Sound.exists_afterFirstLoop_iff (h : s.Sound) (hram : s.mTotalRAM ≠ 0) :
    (∃ r, s.AfterFirstLoop r) ↔ s.OverfillsFinitely :=
  exists_yields_iff.trans (h.ready hram).ends_moveAway_iff

/-- The call ends exactly when finitely many moves of its loops take another machine across the threshold. -/
theorem Sound.terminates_iff (h : s.Sound) : s.Terminates ↔ (s.mTotalRAM ≠ 0 → s.OverfillsFinitely ∧
    ∀ r, s.AfterFirstLoop r → 1 / 10 < s.idealWSFraction → s.UnderfillsFinitely r) := by
  by_cases hram : s.mTotalRAM = 0
  · refine iff_of_true ⟨s, 0, fun limit _ => ?_⟩ fun hne => absurd hram hne
    show s.rebalanceWorkingSetPages limit = some s
    rw [rebalanceWorkingSetPages, if_pos hram]
  · rw [terminates_iff_loops hram, imp_iff_right hram, ← h.exists_afterFirstLoop_iff hram]
    constructor
    · rintro ⟨r, hr, hsecond⟩
      refine ⟨⟨r, hr⟩, fun r₁ hr₁ => ?_⟩
      rw [hr₁.unique hr]
      exact (exists_yields_secondLoop_iff (hr.ready h hram)).1 hsecond
    · rintro ⟨⟨r, hr⟩, hsecond⟩
      exact ⟨r, hr, (exists_yields_secondLoop_iff (hr.ready h hram)).2 (hsecond r hr)⟩

/-- The call ends where no page takes more than a twentieth of the memory of a machine. -/
theorem Sound.terminates_of_smallPages (h : s.Sound)
    (hsmall : ∀ p, (p ∈ s.mWorkingSetPendingAdd ∨ ∃ m, s.mWorkingSetPages.mPages.contains m p) →
      ∀ m ∈ s.mWorkingSetPages.machines, 20 * (p.bytecount : ℤ) ≤ s.mWorkingSetPages.memoryFor m) : s.Terminates := by
  have hplaced : s.placed.SmallPages := by
    rintro p ⟨m₀, hc⟩ m hm
    rw [h.machines_placed] at hm
    rw [h.memoryFor_placed]
    exact hsmall p ((h.placed_spec.2.2 m₀ p hc).imp_right fun hc => ⟨m₀, hc⟩) m hm
  refine h.terminates_iff.2 fun hram => ⟨⟨0, fun n => ?_⟩, fun r hr hideal =>
    ⟨r.count (Move.Underfills (s.idealWSFraction / 3)), fun n => ?_⟩⟩
  · have hready := h.ready hram
    refine ((hready.reaches_rounds_moveAway n).count_eq fun r₁ p machine hr₁ hp hm hto => ?_).le
    exact (hr₁.ready hready).not_overfills (hr₁.smallPages hready.tidy hplaced) hp hm hto
  · obtain ⟨⟨hready, hsmall⟩, -⟩ := of_yields
      (I := fun r : Rebalancing => r.Ready s.mPageAllocation.mTargetPages s.mTotalRAM s.idealWSFraction ∧ r.SmallPages)
      (fun _ hr _ => ⟨hr.1.moveAway.ready hr.1, hr.1.moveAway.smallPages hr.1.tidy hr.2⟩) ⟨h.ready hram, hplaced⟩ hr
    refine ((hready.reaches_rounds_moveTowards hideal n).count_eq fun r₁ p machine hr₁ hp hm hfrom => ?_).le
    exact (hr₁.ready hready).not_underfills hideal (hr₁.smallPages hready.tidy hsmall) hp hm hfrom

/-- The call does not end where a page alone takes every machine above the threshold of the first loop. -/
theorem Sound.not_terminates_of_largePage (h : s.Sound) (hram : s.mTotalRAM ≠ 0)
    (hp : ∃ m, s.placed.mWorkingSetPages.mPages.contains m p) (hlarge : ∀ m ∈ s.mWorkingSetPages.machines,
      s.idealWSFraction + 1 / 10 < (p.bytecount : ℚ) / s.mWorkingSetPages.memoryFor m) : ¬ s.Terminates := by
  intro ht
  obtain ⟨r, hr, -⟩ := (terminates_iff_loops hram).1 ht
  refine (h.ready hram).not_ends_moveAway hp (fun m hm => ?_) (exists_yields_iff.1 ⟨r, hr⟩)
  rw [h.machines_placed] at hm
  rw [h.memoryFor_placed]
  exact hlarge m hm

/-! ## Every run -/

/-- What the loops of `rebalanceWorkingSetPages` keep. -/
structure Rebalanced (s : WorkingSet) (r : Rebalancing) : Prop where
  ready : r.Ready s.mPageAllocation.mTargetPages s.mTotalRAM s.idealWSFraction
  machines : r.mWorkingSetPages.machines = s.placed.mWorkingSetPages.machines
  memoryFor : ∀ m, r.mWorkingSetPages.memoryFor m = s.placed.mWorkingSetPages.memoryFor m
  placed : ∀ p, (∃ m, r.mWorkingSetPages.mPages.contains m p) ↔ ∃ m, s.placed.mWorkingSetPages.mPages.contains m p

theorem Rebalanced.of_reaches {r r' : Rebalancing} {P : Move → Prop} (hr : Rebalanced s r)
    (h : Reaches P r r') : Rebalanced s r' where
  ready := h.ready hr.ready
  machines := (h.machines hr.ready.tidy).trans hr.machines
  memoryFor m := (h.memoryFor hr.ready.tidy m).trans (hr.memoryFor m)
  placed p := (h.placed_iff hr.ready.tidy).trans (hr.placed p)

/-- The working set pages that are given to no machine yet belong to the working set, or were dropped. -/
structure Kept (s : WorkingSet) : Prop extends Sound s where
  pendingOwned : ∀ p ∈ s.mWorkingSetPendingAdd, p ∈ s.mWorkingSet ∨ p ∈ s.mDropped

theorem Kept.rebalanceWorkingSetPages (h : s.Kept) {n : ℕ} (he : s.rebalanceWorkingSetPages n = some s') :
    s'.Kept := by
  rw [WorkingSet.rebalanceWorkingSetPages] at he
  split at he
  · cases he
    exact h
  · next hram =>
    obtain ⟨r, hr, he⟩ := Option.bind_eq_some_iff.1 he
    obtain ⟨r', hr', he⟩ := Option.bind_eq_some_iff.1 he
    obtain rfl := Option.some.inj he
    have hfirst : Rebalanced s r := (of_yields (I := Rebalanced s) (fun _ h _ => h.of_reaches h.ready.moveAway)
      ⟨h.ready hram, rfl, fun _ => rfl, fun _ => Iff.rfl⟩ (yields_of_eq_some hr)).1
    have hsecond : Rebalanced s r' := by
      rw [secondLoop] at hr'
      split at hr'
      · next hideal =>
        exact (of_yields (I := Rebalanced s) (fun _ h ht => h.of_reaches (h.ready.moveTowards hideal ht)) hfirst
          (yields_of_eq_some hr')).1
      · cases hr'
        exact hfirst
    have hmachines := hsecond.machines.trans h.machines_placed
    have hmemory m : r'.mWorkingSetPages.memoryFor m = s.mWorkingSetPages.memoryFor m :=
      (hsecond.memoryFor m).trans (h.memoryFor_placed m)
    refine ⟨⟨hsecond.ready.tidy, fun m => (h.sizes m).trans (hmemory m).symm, ?_, hsecond.ready.targets,
      fun m p hc => ?_, by simp⟩, by simp⟩
    · rw [h.ram]
      show _ = ∑ m ∈ r'.mWorkingSetPages.machines, r'.mWorkingSetPages.memoryFor m
      rw [hmachines]
      exact sum_congr rfl fun m _ => (hmemory m).symm
    · obtain ⟨m', hc⟩ := (hsecond.placed p).1 ⟨m, hc⟩
      exact (h.placed_spec.2.2 m' p hc).elim (h.pendingOwned p) (h.owned m' p)

/-- The calls that change the tables. The machines of the pages that are added or requested are known. -/
inductive Op
  | setMachineStats (machine : MachineId) (bytesAvailable : ℤ) (pos : 0 < bytesAvailable)
  | addToWorkingSet (page : PageId)
  | dropFromWorkingSet (page : PageId)
  | pageAdded (machine : MachineId) (page : PageId)
  | pageDropped (machine : MachineId) (page : PageId)
  | requestPageAdd (machine : MachineId) (page : PageId)
  | requestPageDrop (machine : MachineId) (page : PageId)
  | pageDroppedAcrossEntireSystem (page : PageId)
  | rebalanceWorkingSetPages (limit : ℕ)

def step (s : WorkingSet) : Op → Option WorkingSet
  | .setMachineStats machine bytesAvailable _ => some (s.setMachineStats machine bytesAvailable)
  | .addToWorkingSet page => s.addToWorkingSet page
  | .dropFromWorkingSet page => some (s.dropFromWorkingSet page)
  | .pageAdded machine page => if machine ∈ s.mWorkingSetPages.machines then s.pageAdded machine page else none
  | .pageDropped machine page =>
    if page ∈ s.mDropped then none else some { s with mPageAllocation := s.mPageAllocation.pageDropped machine page }
  | .requestPageAdd machine page =>
    if machine ∈ s.mWorkingSetPages.machines ∧ page ∉ s.mDropped then
      some { s with mPageAllocation := s.mPageAllocation.requestPageAdd machine page }
    else none
  | .requestPageDrop machine page =>
    if page ∈ s.mDropped ∨ ¬ s.mPageAllocation.mPages.contains machine page ∧
      s.mPageAllocation.mTargetPages.contains machine page then none
    else some { s with mPageAllocation := s.mPageAllocation.requestPageDrop machine page }
  | .pageDroppedAcrossEntireSystem page => some (s.pageDroppedAcrossEntireSystem page)
  | .rebalanceWorkingSetPages limit => s.rebalanceWorkingSetPages limit

/-- The target pages change to these, or not at all. -/
theorem Kept.withAllocation (h : s.Kept) {allocation targets : MachinePageAllocation}
    (ha : s.mPageAllocation.SameTargets allocation ∨ targets.SameTargets allocation)
    (ht : ∀ m p, targets.mTargetPages.contains m p → m ∈ s.mWorkingSetPages.machines) :
    Kept { s with mPageAllocation := allocation } := by
  refine ⟨⟨h.tidy, h.sizes, h.ram, fun m p hc => ?_, h.owned, h.pending⟩, h.pendingOwned⟩
  rcases ha with ⟨he, -⟩ | ⟨he, -⟩
  · exact h.targets m p (he ▸ hc)
  · exact ht m p (he ▸ hc)

theorem Kept.step (h : s.Kept) {op : Op} (he : s.step op = some s') : s'.Kept := by
  have hinsert {machine page} (hm : machine ∈ s.mWorkingSetPages.machines) (m : MachineId) (p : PageId)
      (hc : (s.mPageAllocation.insertTarget machine page).mTargetPages.contains m p) :
      m ∈ s.mWorkingSetPages.machines := (contains_insert.1 hc).elim (fun he => he.1 ▸ hm) (h.targets m p)
  have hdrop {machine page} (m : MachineId) (p : PageId)
      (hc : (s.mPageAllocation.dropTarget machine page).mTargetPages.contains m p) :
      m ∈ s.mWorkingSetPages.machines := h.targets m p (contains_drop.1 hc).1
  cases op with
  | setMachineStats machine bytesAvailable pos =>
    cases he
    exact ⟨h.setMachineStats pos, h.pendingOwned⟩
  | addToWorkingSet page =>
    refine ⟨h.addToWorkingSet he, fun p hp => ?_⟩
    obtain ⟨⟨⟩, -, he⟩ := Option.bind_eq_some_iff.1 he
    replace he := Option.some.inj he
    split at he <;> subst he
    · exact h.pendingOwned p hp
    · rcases mem_insert.1 hp with rfl | hp
      · exact .inl (mem_insert_self _ _)
      · exact (h.pendingOwned p hp).imp_left mem_insert_of_mem
  | dropFromWorkingSet page =>
    cases he
    refine ⟨h.dropFromWorkingSet page, fun p hp => ?_⟩
    obtain ⟨hne, hp⟩ := mem_erase.1 hp
    exact (h.pendingOwned p hp).imp_left fun hmem => mem_erase.2 ⟨hne, hmem⟩
  | pageAdded machine page =>
    obtain ⟨hm, he⟩ := Option.ite_none_right_eq_some.1 he
    obtain ⟨⟨⟩, -, he⟩ := Option.bind_eq_some_iff.1 he
    cases he
    exact h.withAllocation targets_pageAdded (hinsert hm)
  | pageDropped machine page =>
    obtain ⟨-, he⟩ := Option.ite_none_left_eq_some.1 he
    cases he
    exact h.withAllocation targets_pageDropped hdrop
  | requestPageAdd machine page =>
    obtain ⟨hm, he⟩ := Option.ite_none_right_eq_some.1 he
    cases he
    exact h.withAllocation targets_requestPageAdd (hinsert hm.1)
  | requestPageDrop machine page =>
    obtain ⟨-, he⟩ := Option.ite_none_left_eq_some.1 he
    cases he
    exact h.withAllocation targets_requestPageDrop hdrop
  | pageDroppedAcrossEntireSystem page =>
    cases he
    refine ⟨h.pageDroppedAcrossEntireSystem page, fun p hp => ?_⟩
    by_cases hpage : p = page
    · exact .inr (hpage ▸ mem_insert_self _ _)
    · exact (h.pendingOwned p hp).imp (fun hmem => mem_erase.2 ⟨hpage, hmem⟩) mem_insert_of_mem
  | rebalanceWorkingSetPages limit => exact h.rebalanceWorkingSetPages he

/-- Whatever is called, the tables say the same of the machines, every page is on one machine at most, its target pages
are on known machines, and what is given to a machine belongs to the working set or was dropped. -/
theorem always_kept (ops : List Op) : Run.Always step Kept {} ops :=
  Run.always ⟨sound_initial, fun _ h => absurd h (notMem_empty _)⟩ fun _ _ _ h he => h.step he

end

variable (pages : Finset PageId)

/-- Two machines of 100 bytes, and pages that are new. -/
def twoMachines : WorkingSet := { (({} : WorkingSet).setMachineStats ⟨1⟩ 100).setMachineStats ⟨2⟩ 100 with
    mWorkingSet := pages
    mWorkingSetPendingAdd := pages }

theorem not_contains_twoMachines (m : MachineId) (p : PageId) :
    ¬ (twoMachines pages).mWorkingSetPages.mPages.contains m p := by
  exact contains_empty

theorem sound_twoMachines : (twoMachines pages).Sound := by
  have h : ((({} : WorkingSet).setMachineStats ⟨1⟩ 100).setMachineStats ⟨2⟩ 100).Sound :=
    (sound_initial.setMachineStats (by decide)).setMachineStats (by decide)
  have hnone := not_contains_twoMachines pages
  exact ⟨h.tidy, h.sizes, h.ram, h.targets, fun m p hc => absurd hc (hnone m p), fun p _ m => hnone m p⟩

/-- All the pages are target pages of the first machine. -/
def allOnFirst : WorkingSet := { twoMachines pages with
    mPageAllocation := { mTargetPages := (∅ : TwoWaySetMap MachineId PageId).insertValues ⟨1⟩ pages } }

theorem sound_allOnFirst : (allOnFirst pages).Sound := by
  have h := sound_twoMachines pages
  refine ⟨h.tidy, h.sizes, h.ram, fun m p hc => ?_, h.owned, h.pending⟩
  obtain ⟨rfl, -⟩ | hc := contains_insertValues.1 hc
  · show (⟨1⟩ : MachineId) ∈ (twoMachines ∅).mWorkingSetPages.machines
    decide
  · exact absurd hc contains_empty

/-- Twenty pages of 5 bytes. -/
def twentyPages : Finset PageId := (Finset.range 20).image fun n => ⟨n, 5, 5⟩

/-- Twenty pages of 5 bytes fill the first machine: the first loop makes moves, and none of them overfills the
second. -/
theorem terminates_iff_smallPages : TooMuch (allOnFirst twentyPages).idealWSFraction (allOnFirst twentyPages).placed ∧
    (allOnFirst twentyPages).OverfillsFinitely := by
  have hsmall : ∀ p ∈ twentyPages, ∀ m ∈ (allOnFirst twentyPages).mWorkingSetPages.machines, 20 * (p.bytecount : ℤ) ≤
      (allOnFirst twentyPages).mWorkingSetPages.memoryFor m := by
    decide +kernel
  have hends := (sound_allOnFirst twentyPages).terminates_of_smallPages fun p hp => hsmall p <|
    hp.resolve_right fun ⟨m, hc⟩ => not_contains_twoMachines twentyPages m p hc
  exact ⟨by decide +kernel, ((sound_allOnFirst _).terminates_iff.1 hends (by decide +kernel)).1⟩

/-- A page of 100 bytes goes back and forth between two machines of 100 bytes. -/
theorem not_terminates : ¬ ∀ s : WorkingSet, s.Sound → s.Terminates := by
  intro h
  refine Sound.not_terminates_of_largePage (s := twoMachines {⟨1, 100, 100⟩}) (p := ⟨1, 100, 100⟩) (sound_twoMachines _)
    (by decide +kernel) ⟨⟨1⟩, by decide +kernel⟩ (by decide +kernel) (h _ (sound_twoMachines _))

end Cumulus.PageLayoutCalculator.TaskAllocator.WorkingSet
