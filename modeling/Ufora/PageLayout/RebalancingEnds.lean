import Ufora.PageLayout.Rebalancing
import Mathlib.Tactic.Linarith

/-!
# When rebalancing ends

A round of the first loop takes one machine below the threshold, and a round of the second one gives a page to a
machine below it, for good, unless a move takes another machine across the threshold: the machine that gets the page
in the first loop, the one that gives it in the second. So each loop ends exactly when it makes finitely many such
moves. It makes none where every page is small.
-/

open Ordered Loop List Finset Option MapWithIndex Cumulus.PageLayoutCalculator.Move
  Cumulus.PageLayoutCalculator.Rebalancing

namespace Cumulus.PageLayoutCalculator

open Fora (PageId)

/-- The move takes the machine that gets the page above the threshold. -/
def Move.Overfills (threshold : ℚ) (mv : Move) : Prop := mv.before.bytecountRatioFor mv.machine ≤ threshold ∧
    threshold < (mv.before.move mv.page mv.machine).bytecountRatioFor mv.machine

instance (threshold : ℚ) : DecidablePred (Overfills threshold) := fun _ => inferInstanceAs (Decidable (_ ∧ _))

/-- The move takes a machine that gives the page below the threshold. -/
def Move.Underfills (threshold : ℚ) (mv : Move) : Prop :=
  ∃ m ∈ mv.before.mPages.getKeys mv.page, threshold ≤ mv.before.bytecountRatioFor m ∧
    (mv.before.move mv.page mv.machine).bytecountRatioFor m < threshold

instance (threshold : ℚ) : DecidablePred (Underfills threshold) := fun _ =>
  inferInstanceAs (Decidable (∃ m ∈ _, _))

namespace Rebalancing

variable {target : TwoWaySetMap MachineId PageId} {memory : ℤ} {ideal threshold : ℚ}
  {s s' s'' r r' : Rebalancing} {m machine : MachineId} {p : PageId} {P : Move → Prop}

/-! ## The most and the least loaded machine -/

/-- What the loops rely on: the tables are right, there are machines, the target pages are on known ones, and the ideal
fraction is that of the machines together. -/
structure Ready (target : TwoWaySetMap MachineId PageId) (memory : ℤ) (ideal : ℚ) (s : Rebalancing) : Prop where
  tidy : s.mWorkingSetPages.Tidy
  nonempty : s.mWorkingSetPages.machines.Nonempty
  ram : (memory : ℚ) = ∑ m ∈ s.mWorkingSetPages.machines, (s.mWorkingSetPages.memoryFor m : ℚ)
  ideal_eq : s.idealFraction memory = ideal
  targets : ∀ m p, target.contains m p → m ∈ s.mWorkingSetPages.machines

theorem tryGetValue_eq_some_iff (h : s.mWorkingSetPages.Tidy) {v : ℚ} :
    s.mWorkingSetPages.mBytecountRatios.tryGetValue m = some v ↔ m ∈ s.mWorkingSetPages.machines ∧
    s.wspRatio m = v := by
  rw [wspRatio, PageMachineMap.bytecountRatioFor, h.ratios]
  split
  · next hm => simp [hm]
  · next hm => simp [hm]

theorem mostLoadedMachine_spec (h : s.mWorkingSetPages.Tidy) (hm : s.mostLoadedMachine = some m) :
    m ∈ s.mWorkingSetPages.machines ∧ ∀ m' ∈ s.mWorkingSetPages.machines, s.wspRatio m' ≤ s.wspRatio m := by
  obtain ⟨highest, hh, hk⟩ := bind_eq_some_iff.1 hm
  obtain ⟨hmem, rfl⟩ := (tryGetValue_eq_some_iff h).1 (tryGetValue_of_head? hk)
  exact ⟨hmem, fun m' hm' => (highestValue_spec hh).2 m' _ ((tryGetValue_eq_some_iff h).2 ⟨hm', rfl⟩)⟩

theorem leastLoadedMachine_spec (h : s.mWorkingSetPages.Tidy) (hm : s.leastLoadedMachine = some m) :
    m ∈ s.mWorkingSetPages.machines ∧ ∀ m' ∈ s.mWorkingSetPages.machines, s.wspRatio m ≤ s.wspRatio m' := by
  obtain ⟨lowest, hl, hk⟩ := bind_eq_some_iff.1 hm
  obtain ⟨hmem, rfl⟩ := (tryGetValue_eq_some_iff h).1 (tryGetValue_of_head? hk)
  exact ⟨hmem, fun m' hm' => (lowestValue_spec hl).2 m' _ ((tryGetValue_eq_some_iff h).2 ⟨hm', rfl⟩)⟩

/-- A nonempty set has a first and a last element. -/
theorem exists_head?_ascending {α : Type*} [LinearOrder α] {t : Finset α} (h : t.Nonempty) :
    (∃ a, (ascending t).head? = some a) ∧ ∃ a, (ascending t).getLast? = some a := by
  obtain ⟨a, ha⟩ := h
  have hne : ascending t ≠ [] := ne_nil_of_mem (mem_ascending.2 ha)
  exact ⟨⟨_, head?_eq_some_head hne⟩, ⟨_, getLast?_eq_some_getLast hne⟩⟩

section

variable (h : s.Ready target memory ideal)
include h

theorem Ready.exists_mostLoadedMachine : ∃ m, s.mostLoadedMachine = some m := by
  obtain ⟨m, hm⟩ := h.nonempty
  have hv : s.mWorkingSetPages.mBytecountRatios.hasValue (s.wspRatio m) :=
    hasValue_iff.2 ⟨m, (tryGetValue_eq_some_iff h.tidy).2 ⟨hm, rfl⟩⟩
  obtain ⟨highest, hh⟩ := (exists_head?_ascending ⟨_, Finmap.mem_keys.2 hv⟩).2
  obtain ⟨k, hk⟩ := hasValue_iff.1 (highestValue_spec hh).1
  obtain ⟨first, hf⟩ := (exists_head?_ascending ⟨k, mem_getKeys.2 hk⟩).1
  exact ⟨first, bind_eq_some_iff.2 ⟨highest, hh, hf⟩⟩

theorem Ready.exists_leastLoadedMachine : ∃ m, s.leastLoadedMachine = some m := by
  obtain ⟨m, hm⟩ := h.nonempty
  have hv : s.mWorkingSetPages.mBytecountRatios.hasValue (s.wspRatio m) :=
    hasValue_iff.2 ⟨m, (tryGetValue_eq_some_iff h.tidy).2 ⟨hm, rfl⟩⟩
  obtain ⟨lowest, hl⟩ := (exists_head?_ascending ⟨_, Finmap.mem_keys.2 hv⟩).1
  obtain ⟨k, hk⟩ := hasValue_iff.1 (lowestValue_spec hl).1
  obtain ⟨first, hf⟩ := (exists_head?_ascending ⟨k, mem_getKeys.2 hk⟩).1
  exact ⟨first, bind_eq_some_iff.2 ⟨lowest, hl, hf⟩⟩

/-- The most loaded machine is loaded at least as much as all machines together. -/
theorem Ready.ideal_le (hm : s.mostLoadedMachine = some m) : ideal ≤ s.wspRatio m := by
  obtain ⟨m', hm', hle⟩ := h.tidy.exists_mean_le h.nonempty
  rw [← h.ideal_eq, idealFraction, h.ram]
  exact hle.trans ((mostLoadedMachine_spec h.tidy hm).2 m' hm')

/-- The least loaded machine is loaded at most as much as all machines together. -/
theorem Ready.le_ideal (hm : s.leastLoadedMachine = some m) : s.wspRatio m ≤ ideal := by
  obtain ⟨m', hm', hle⟩ := h.tidy.exists_le_mean h.nonempty
  rw [← h.ideal_eq, idealFraction, h.ram]
  exact ((leastLoadedMachine_spec h.tidy hm).2 m' hm').trans hle

theorem Ready.ideal_nonneg : 0 ≤ ideal := by
  have htotal : (0 : ℚ) ≤ s.mWorkingSetPages.mTotalBytecount := by exact_mod_cast h.tidy.total_nonneg
  rw [← h.ideal_eq, idealFraction, h.ram]
  exact div_nonneg htotal (h.tidy.memory_pos h.nonempty).le

/-! ## Sequences of moves -/

end

/-- From the first state, moves of pages that belong to a machine to known machines, each of which has the property,
lead to the second one. -/
inductive Reaches (P : Move → Prop) (r : Rebalancing) : Rebalancing → Prop where
  | refl : Reaches P r r
  | move {r' : Rebalancing} {p : PageId} {machine : MachineId} (h : Reaches P r r')
      (hp : ∃ m, r'.mWorkingSetPages.mPages.contains m p) (hm : machine ∈ r'.mWorkingSetPages.machines)
      (hP : P ⟨r'.mWorkingSetPages, p, machine⟩) : Reaches P r (r'.move p machine)

theorem Reaches.trans (h : Reaches P s s') (h' : Reaches P s' s'') : Reaches P s s'' := by
  induction h' with
  | refl => exact h
  | move _ hp hm hP ih => exact .move ih hp hm hP

theorem Reaches.single (hp : ∃ m, r.mWorkingSetPages.mPages.contains m p) (hm : machine ∈ r.mWorkingSetPages.machines)
    (hP : P ⟨r.mWorkingSetPages, p, machine⟩) : Reaches P r (r.move p machine) :=
  .move .refl hp hm hP

section

variable (h : Reaches P r r')
include h

section

variable (hr : r.mWorkingSetPages.Tidy)
include hr

/-- What holds of the tables and is kept by every move with the property is kept by sequences of them. -/
theorem Reaches.invariant {I : PageMachineMap → Prop} (hI : I r.mWorkingSetPages)
    (hmove : ∀ t t' p machine, I t → (∃ m, t.mPages.contains m p) → PageMachineMap.Moved t t' p machine → I t') :
    r'.mWorkingSetPages.Tidy ∧ I r'.mWorkingSetPages := by
  induction h with
  | refl => exact ⟨hr, hI⟩
  | move _ hp hm _ ih =>
    obtain ⟨ht, hI⟩ := ih
    have hmoved := ht.moved hp hm
    exact ⟨hmoved.tidy, hmove _ _ _ _ hI hp hmoved⟩

theorem Reaches.machines : r'.mWorkingSetPages.machines = r.mWorkingSetPages.machines :=
  (h.invariant (I := fun t => t.machines = r.mWorkingSetPages.machines) hr rfl
    fun _ _ _ _ hI _ hmoved => hmoved.machines.trans hI).2

theorem Reaches.memoryFor (m : MachineId) : r'.mWorkingSetPages.memoryFor m = r.mWorkingSetPages.memoryFor m :=
  (h.invariant (I := fun t => t.memoryFor m = r.mWorkingSetPages.memoryFor m) hr rfl
    fun _ _ _ _ hI _ hmoved => (hmoved.memoryFor m).trans hI).2

theorem Reaches.total : r'.mWorkingSetPages.mTotalBytecount = r.mWorkingSetPages.mTotalBytecount :=
  (h.invariant (I := fun t => t.mTotalBytecount = r.mWorkingSetPages.mTotalBytecount) hr rfl
    fun _ _ _ _ hI _ hmoved => hmoved.total.trans hI).2

/-- No page is lost, and no page is new. -/
theorem Reaches.placed_iff :
    (∃ m, r'.mWorkingSetPages.mPages.contains m p) ↔ ∃ m, r.mWorkingSetPages.mPages.contains m p := by
  refine (h.invariant (I := fun t => (∃ m, t.mPages.contains m p) ↔ ∃ m, r.mWorkingSetPages.mPages.contains m p) hr
    Iff.rfl fun t t' q d hI hq hmoved => Iff.trans ?_ hI).2
  by_cases hpq : p = q
  · subst hpq
    exact iff_of_true ⟨d, (hmoved.contains d p).2 (by rw [if_pos rfl])⟩ hq
  · exact exists_congr fun m => by rw [hmoved.contains, if_neg hpq]

end

theorem Reaches.ready (hr : r.Ready target memory ideal) : r'.Ready target memory ideal := by
  have hm := h.machines hr.tidy
  refine ⟨(h.invariant (I := fun _ => True) hr.tidy trivial fun _ _ _ _ _ _ _ => trivial).1, ?_, ?_, ?_, ?_⟩
  · rw [hm]
    exact hr.nonempty
  · rw [hm, hr.ram]
    exact sum_congr rfl fun m _ => by rw [h.memoryFor hr.tidy m]
  · rw [← hr.ideal_eq, idealFraction, idealFraction, h.total hr.tidy]
  · intro m p hc
    rw [hm]
    exact hr.targets m p hc

end

/-- A loop over pages each turn of which makes such moves. -/
theorem Reaches.foldl {f : Rebalancing → PageId → Rebalancing} {l : List PageId}
    (hf : ∀ s, Reaches P r s → ∀ p ∈ l, Reaches P s (f s p)) (h : Reaches P r s) : Reaches P r (l.foldl f s) := by
  induction l generalizing s with
  | nil => exact h
  | cons p l ih =>
    exact ih (fun s hs q hq => hf s hs q (mem_cons_of_mem p hq)) (h.trans (hf s h p mem_cons_self))

/-! ## What the functions move -/

/-- The machine that gets the page is not loaded much more than all machines together. -/
def ToLoaded (ideal : ℚ) (mv : Move) : Prop := mv.before.bytecountRatioFor mv.machine ≤ ideal + 1 / 20

/-- Only machines that are loaded at least as much as all machines together give pages. -/
def FromLoaded (ideal : ℚ) (mv : Move) : Prop :=
  ∀ m, mv.before.mPages.contains m mv.page → ideal ≤ mv.before.bytecountRatioFor m

theorem bestTarget_spec {w : ℚ} (h : s.bestTarget target p = some (m, w)) :
    target.contains m p ∧ w = s.wspRatio m := by
  have hloop : ∀ (l : List MachineId) (best : Smallest MachineId),
      (∀ b ∈ best, target.contains b.1 p ∧ b.2 = s.wspRatio b.1) → (∀ t ∈ l, target.contains t p) →
      ∀ b ∈ l.foldl (fun best targetM => best.observe targetM (s.wspRatio targetM)) best,
        target.contains b.1 p ∧ b.2 = s.wspRatio b.1 := by
    intro l
    induction l with
    | nil => exact fun best hb _ => hb
    | cons t l ih =>
      intro best hb hl
      refine ih _ (fun b hbm => ?_) fun t' ht' => hl t' (mem_cons_of_mem t ht')
      have ht : target.contains t p := hl t mem_cons_self
      cases best with
      | none =>
        obtain rfl := some.inj hbm
        exact ⟨ht, rfl⟩
      | some smallest =>
        simp only [Smallest.observe] at hbm
        split at hbm
        · obtain rfl := some.inj hbm
          exact ⟨ht, rfl⟩
        · exact hb b hbm
  exact hloop _ none (by simp) (fun t ht => TwoWaySetMap.mem_getKeys.1 (mem_ascending.1 ht)) (m, w) h

theorem Ready.moveToTarget (h : s.Ready target memory ideal)
    (hp : ∃ m, s.mWorkingSetPages.mPages.contains m p) :
    Reaches (ToLoaded ideal) s (s.moveToTarget target (ideal + 1 / 20) p) := by
  rw [Rebalancing.moveToTarget]
  cases hb : s.bestTarget target p with
  | none => exact .refl
  | some best =>
    obtain ⟨m, w⟩ := best
    obtain ⟨hc, rfl⟩ := bestTarget_spec hb
    simp only []
    split
    · next hlt => exact .single hp (h.targets m p hc) hlt.le
    · exact .refl

theorem Ready.moveToTargets (h : r.Ready target memory ideal) {targetFraction : ℚ}
    {fractions : MapWithIndex PageId (ℚ ×ₗ MachineId)} {l : List (ℚ ×ₗ MachineId)}
    (hf : ∀ value, ∀ p ∈ fractions.getKeys value, ∃ m, r.mWorkingSetPages.mPages.contains m p)
    (hs : Reaches (ToLoaded ideal) r s) :
    Reaches (ToLoaded ideal) r (s.moveToTargets target machine targetFraction (ideal + 1 / 20) fractions l) := by
  induction l generalizing s with
  | nil => exact hs
  | cons value l ih =>
    rw [moveToTargets]
    split
    · refine ih (hs.foldl fun s' hs' p hp => ?_)
      have hplaced := (hs'.placed_iff h.tidy).2 (hf value p (mem_ascending.1 hp))
      exact (hs'.ready h).moveToTarget hplaced
    · exact hs

/-- The table of fractions is about pages of the machine. -/
theorem contains_of_mem_fractions {value : ℚ ×ₗ MachineId}
    (h : p ∈ (s.fractions target machine).getKeys value) : s.mWorkingSetPages.mPages.contains machine p := by
  rw [fractions, mem_getKeys] at h
  have hl : ∀ q ∈ s.pagesOf machine, s.mWorkingSetPages.mPages.contains machine q := fun q hq => mem_ascending.1 hq
  have hf : ∀ q v, (∅ : MapWithIndex PageId (ℚ ×ₗ MachineId)).tryGetValue q = some v →
      s.mWorkingSetPages.mPages.contains machine q := by simp
  generalize s.pagesOf machine = l at h hl
  generalize (∅ : MapWithIndex PageId (ℚ ×ₗ MachineId)) = fractions at h hf
  induction l generalizing fractions with
  | nil => exact hf p value h
  | cons q l ih =>
    refine ih (fun q hq => hl q (mem_cons_of_mem _ hq)) _ h fun q' v hq => ?_
    beta_reduce at hq
    split at hq
    · rw [tryGetValue_set] at hq
      split at hq
      · next he => exact he ▸ hl q mem_cons_self
      · exact hf q' v hq
    · exact hf q' v hq

theorem mem_pagesOf_of_head? (h : (s.pagesOf machine).head? = some p) : s.mWorkingSetPages.mPages.contains machine p :=
  mem_ascending.1 (mem_of_mem_head? h)

section

variable (h : s.Ready target memory ideal)
include h

theorem Ready.moveToLeastLoaded {targetFraction : ℚ} (turns : ℕ) :
    Reaches (ToLoaded ideal) s (s.moveToLeastLoaded machine targetFraction turns) := by
  induction turns generalizing s with
  | zero => exact .refl
  | succ turns ih =>
    rw [moveToLeastLoaded]
    split
    · next p leastLoaded hp hleast =>
      split
      · have hmove : Reaches (ToLoaded ideal) s (s.move p leastLoaded) := by
          refine .single ⟨machine, mem_pagesOf_of_head? hp⟩ (leastLoadedMachine_spec h.tidy hleast).1 ?_
          exact (h.le_ideal hleast).trans (by linarith)
        exact hmove.trans (ih (hmove.ready h))
      · exact .refl
    · exact .refl

theorem Ready.reallocateWorkingSetPagesAway (machine : MachineId)
    (targetFraction : ℚ) (allowMove : Bool) : Reaches (ToLoaded ideal) s
      (s.reallocateWorkingSetPagesAway target memory machine targetFraction allowMove) := by
  rw [Rebalancing.reallocateWorkingSetPagesAway]
  split
  · exact .refl
  · split
    · exact h.moveToLeastLoaded _
    · rw [h.ideal_eq]
      exact h.moveToTargets (fun value p hp => ⟨machine, contains_of_mem_fractions hp⟩) .refl

theorem Ready.moveAway : Reaches (ToLoaded ideal) s (s.moveAway target memory ideal) := by
  rw [Rebalancing.moveAway]
  split
  · exact .refl
  · next machine _ =>
    have haway := h.reallocateWorkingSetPagesAway machine (ideal + 1 / 20) false
    simp only []
    split
    · exact haway
    · exact haway.trans ((haway.ready h).reallocateWorkingSetPagesAway _ _ true)

/-! ## The first loop -/

end

/-- How many of the moves have a property. -/
def count (Q : Move → Prop) [DecidablePred Q] (s : Rebalancing) : ℕ := s.moves.countP Q

theorem count_move (Q : Move → Prop) [DecidablePred Q] (s : Rebalancing) (p : PageId) (machine : MachineId) :
    (s.move p machine).count Q = s.count Q + if Q ⟨s.mWorkingSetPages, p, machine⟩ then 1 else 0 := by
  rw [count, move, countP_append, countP_singleton, count]
  simp

theorem Reaches.count_le {Q : Move → Prop} [DecidablePred Q] (h : Reaches P r r') : r.count Q ≤ r'.count Q := by
  induction h with
  | refl => exact le_rfl
  | move _ _ _ _ ih =>
    rw [count_move]
    omega

/-- The machines above the threshold. -/
def overfull (threshold : ℚ) (s : Rebalancing) : Finset MachineId :=
  s.mWorkingSetPages.machines.filter fun m => threshold < s.wspRatio m

/-- Moves that overfill no machine take no machine above the threshold. -/
theorem Reaches.overfull_subset (h : Reaches P r r') (hr : r.mWorkingSetPages.Tidy)
    (hc : r'.count (Overfills threshold) = r.count (Overfills threshold)) :
    r'.overfull threshold ⊆ r.overfull threshold := by
  induction h with
  | refl => exact Finset.Subset.refl _
  | @move r₁ p machine h hp hm hP ih =>
    rw [count_move] at hc
    have hle := h.count_le (Q := Overfills threshold)
    have hnot : ¬ Overfills threshold ⟨r₁.mWorkingSetPages, p, machine⟩ := by
      intro ho
      rw [if_pos ho] at hc
      omega
    rw [if_neg hnot, add_zero] at hc
    refine Finset.Subset.trans (fun m hmem => ?_) (ih hc)
    have ht := (h.invariant (I := fun _ => True) hr trivial fun _ _ _ _ _ _ _ => trivial).1
    have hmoved := ht.moved hp hm
    obtain ⟨hmem, hlt⟩ := mem_filter.1 hmem
    have hmem' : m ∈ r₁.mWorkingSetPages.machines := by
      rw [← hmoved.machines]
      exact hmem
    refine mem_filter.2 ⟨hmem', ?_⟩
    by_cases he : m = machine
    · subst he
      by_contra hle
      exact hnot ⟨not_lt.1 hle, hlt⟩
    · exact hlt.trans_le (hmoved.ratio_le ht he)

section

variable (h : s.Ready target memory ideal)
include h

/-- The loop that moves pages to the least loaded machine ends because the machine is not loaded too much any more, if
it has as many turns as the machine has pages. -/
theorem Ready.wspRatio_moveToLeastLoaded {targetFraction : ℚ}
    (hideal : ideal ≤ targetFraction) {turns : ℕ} (hturns : (s.pagesOf machine).length ≤ turns) :
    (s.moveToLeastLoaded machine targetFraction turns).wspRatio machine ≤ targetFraction := by
  have h0 : 0 ≤ targetFraction := h.ideal_nonneg.trans hideal
  have hempty : s.pagesOf machine = [] → s.wspRatio machine ≤ targetFraction := by
    intro he
    refine le_of_eq_of_le (h.tidy.ratio_of_empty ?_) h0
    rw [← toFinset_ascending (s.mWorkingSetPages.mPages.getValues machine)]
    exact (toFinset_eq_empty_iff _).2 he
  induction turns generalizing s with
  | zero => exact hempty (eq_nil_of_length_eq_zero (Nat.le_zero.1 hturns))
  | succ turns ih =>
    obtain ⟨least, hleast⟩ := h.exists_leastLoadedMachine
    rw [Rebalancing.moveToLeastLoaded, hleast]
    cases hp : (s.pagesOf machine).head? with
    | none => exact hempty (head?_eq_none_iff.1 hp)
    | some p =>
      simp only []
      split
      · next hgo =>
        have hc := mem_pagesOf_of_head? hp
        have hmachine := (leastLoadedMachine_spec h.tidy hleast).1
        have hmoved := h.tidy.moved ⟨machine, hc⟩ hmachine
        have hmove : Reaches (ToLoaded ideal) s (s.move p least) :=
          .single ⟨machine, hc⟩ hmachine ((h.le_ideal hleast).trans (by linarith))
        have hlen : ((s.move p least).pagesOf machine).length + 1 = (s.pagesOf machine).length := by
          rw [pagesOf, pagesOf, length_ascending, length_ascending]
          show (s.mWorkingSetPages.move p least |>.mPages.getValues machine).card + 1 = _
          rw [hmoved.getValues, if_neg hgo.2.symm]
          exact card_erase_add_one hc
        have hready := hmove.ready h
        refine ih hready (by omega) fun he => le_of_eq_of_le (hready.tidy.ratio_of_empty ?_) h0
        rw [← toFinset_ascending ((s.move p least).mWorkingSetPages.mPages.getValues machine)]
        exact (toFinset_eq_empty_iff _).2 he
      · next hstop =>
        by_contra hgt
        rw [not_le] at hgt
        have he : least = machine := by
          by_contra hne
          exact hstop ⟨hgt, hne⟩
        exact absurd ((he ▸ h.le_ideal hleast).trans hideal) (not_le.2 hgt)

/-- A round of the first loop takes a machine below the threshold, if it overfills none. -/
theorem Ready.overfull_moveAway (ht : TooMuch ideal s)
    (hc : (s.moveAway target memory ideal).count (Overfills (ideal + 1 / 10)) =
      s.count (Overfills (ideal + 1 / 10))) :
    (s.moveAway target memory ideal).overfull (ideal + 1 / 10) ⊂ s.overfull (ideal + 1 / 10) := by
  have hsub := h.moveAway.overfull_subset h.tidy hc
  obtain ⟨m, hm, hgt⟩ := ht
  have hmem : m ∈ s.overfull (ideal + 1 / 10) := mem_filter.2 ⟨(mostLoadedMachine_spec h.tidy hm).1, hgt⟩
  have hfirst := h.reallocateWorkingSetPagesAway m (ideal + 1 / 20) false
  have h₁ := hfirst.ready h
  obtain ⟨m₁, hm₁⟩ := h₁.exists_mostLoadedMachine
  have hsecond := h₁.reallocateWorkingSetPagesAway m₁ (ideal + 1 / 20) true
  have heq : s.moveAway target memory ideal =
      (s.reallocateWorkingSetPagesAway target memory m (ideal + 1 / 20) false).reallocateWorkingSetPagesAway
        target memory m₁ (ideal + 1 / 20) true := by
    rw [Rebalancing.moveAway, hm]
    simp only [hm₁]
  rw [heq] at hsub hc ⊢
  generalize s.reallocateWorkingSetPagesAway target memory m (ideal + 1 / 20) false = s₁ at *
  have hdrained : (s₁.reallocateWorkingSetPagesAway target memory m₁ (ideal + 1 / 20) true).wspRatio m₁ ≤
      ideal + 1 / 20 := by
    rw [Rebalancing.reallocateWorkingSetPagesAway]
    split
    · next hlt => exact hlt.le
    · exact h₁.wspRatio_moveToLeastLoaded (by linarith) le_rfl
  generalize s₁.reallocateWorkingSetPagesAway target memory m₁ (ideal + 1 / 20) true = s₂ at *
  have hc₁ : s₁.count (Overfills (ideal + 1 / 10)) = s.count (Overfills (ideal + 1 / 10)) :=
    le_antisymm (hc ▸ hsecond.count_le) hfirst.count_le
  have hsub₁ := hfirst.overfull_subset h.tidy hc₁
  have hsub₂ := hsecond.overfull_subset h₁.tidy (hc.trans hc₁.symm)
  refine Finset.ssubset_iff_subset_ne.2 ⟨hsub, fun he => ?_⟩
  rw [← he] at hmem hsub₁
  by_cases hover : m₁ ∈ s₁.overfull (ideal + 1 / 10)
  · have hlt := (mem_filter.1 (hsub₁ hover)).2
    linarith
  · have hmem₁ := mem_filter.1 (hsub₂ hmem)
    have hmost := mostLoadedMachine_spec h₁.tidy hm₁
    refine hover (mem_filter.2 ⟨hmost.1, ?_⟩)
    exact hmem₁.2.trans_le (hmost.2 m hmem₁.1)

/-! ## The second loop -/

/-- What a round of the second loop moves: a page of a machine that is loaded enough, to one that is not. -/
theorem Ready.moveTowards_eq (hideal : 1 / 10 < ideal)
    (ht : TooLittle ideal s) : ∃ p most least, s.moveTowards ideal = s.move p least ∧
      s.mWorkingSetPages.mPages.contains most p ∧ least ∈ s.mWorkingSetPages.machines ∧
      s.wspRatio least < ideal / 3 ∧ ideal ≤ s.wspRatio most := by
  obtain ⟨least, hleast, hlt⟩ := ht
  obtain ⟨most, hmost⟩ := h.exists_mostLoadedMachine
  have hle := h.ideal_le hmost
  have hne : most ≠ least := by
    rintro rfl
    linarith
  have hpages : (s.mWorkingSetPages.mPages.getValues most).Nonempty := by
    rw [nonempty_iff_ne_empty]
    intro he
    have h0 : s.wspRatio most = 0 := h.tidy.ratio_of_empty he
    linarith
  obtain ⟨p, hp⟩ := (exists_head?_ascending hpages).1
  refine ⟨p, most, least, ?_, mem_pagesOf_of_head? hp, (leastLoadedMachine_spec h.tidy hleast).1, hlt, hle⟩
  have hp' : (s.pagesOf most).head? = some p := hp
  rw [moveTowards, hleast]
  simp only [reallocateOneWorkingSetPageTowards, hmost, hp']
  rw [if_neg, if_pos]
  · exact ⟨by linarith, hne⟩
  · rintro (hgt | he)
    · linarith
    · exact hne he.symm

theorem Ready.moveTowards (hideal : 1 / 10 < ideal) (ht : TooLittle ideal s) :
    Reaches (FromLoaded ideal) s (s.moveTowards ideal) := by
  obtain ⟨p, most, least, he, hc, hleast, -, hle⟩ := h.moveTowards_eq hideal ht
  rw [he]
  refine .single ⟨most, hc⟩ hleast fun m hm => ?_
  rw [h.tidy.single m most p hm hc]
  exact hle

end

/-- The machines below the threshold. -/
def underfull (threshold : ℚ) (s : Rebalancing) : Finset MachineId :=
  s.mWorkingSetPages.machines.filter fun m => s.wspRatio m < threshold

/-- The number of pages on the other machines. -/
def pagesElsewhere (threshold : ℚ) (s : Rebalancing) : ℕ :=
  ∑ m ∈ s.mWorkingSetPages.machines \ s.underfull threshold, (s.mWorkingSetPages.mPages.getValues m).card

section

variable (h : s.Ready target memory ideal)
include h

/-- A round of the second loop takes a machine above the threshold, or a page to one that stays below it, if it
underfills none. -/
theorem Ready.measure_moveTowards (hideal : 1 / 10 < ideal) (ht : TooLittle ideal s)
    (hc : (s.moveTowards ideal).count (Underfills (ideal / 3)) = s.count (Underfills (ideal / 3))) :
    toLex (((s.moveTowards ideal).underfull (ideal / 3)).card, (s.moveTowards ideal).pagesElsewhere (ideal / 3)) <
      toLex ((s.underfull (ideal / 3)).card, s.pagesElsewhere (ideal / 3)) := by
  obtain ⟨p, most, least, he, hcont, hleast, hlt, hle⟩ := h.moveTowards_eq hideal ht
  have hmoved := h.tidy.moved ⟨most, hcont⟩ hleast
  rw [he] at hc ⊢
  have hnot : ¬ Underfills (ideal / 3) ⟨s.mWorkingSetPages, p, least⟩ := by
    intro hu
    rw [count_move, if_pos hu] at hc
    omega
  have hmost : ideal / 3 ≤ (s.move p least).wspRatio most := by
    by_contra hlow
    refine hnot ⟨most, TwoWaySetMap.mem_getKeys.2 hcont, ?_, not_le.1 hlow⟩
    exact (show ideal / 3 ≤ ideal by linarith).trans hle
  have hsub : (s.move p least).underfull (ideal / 3) ⊆ s.underfull (ideal / 3) := by
    intro m hm
    obtain ⟨hmem, hm⟩ := mem_filter.1 hm
    have hmem : m ∈ s.mWorkingSetPages.machines := by
      rw [← hmoved.machines]
      exact hmem
    refine mem_filter.2 ⟨hmem, ?_⟩
    by_cases hmp : s.mWorkingSetPages.mPages.contains m p
    · rw [h.tidy.single m most p hmp hcont] at hm
      exact absurd hm (not_lt.2 hmost)
    · exact (hmoved.le_ratio h.tidy (.inr hmp)).trans_lt hm
  rw [Prod.Lex.lt_iff]
  rcases hsub.eq_or_ssubset with heq | hss
  · refine .inr ⟨congrArg Finset.card heq, ?_⟩
    have hmachines : (s.move p least).mWorkingSetPages.machines = s.mWorkingSetPages.machines := hmoved.machines
    simp only [ofLex_toLex, pagesElsewhere]
    rw [heq, hmachines]
    have hvalues : ∀ m ∈ s.mWorkingSetPages.machines \ s.underfull (ideal / 3),
        (s.move p least).mWorkingSetPages.mPages.getValues m = (s.mWorkingSetPages.mPages.getValues m).erase p := by
      intro m hm
      have hne : m ≠ least := by
        rintro rfl
        exact (mem_sdiff.1 hm).2 (mem_filter.2 ⟨hleast, hlt⟩)
      exact (hmoved.getValues m).trans (if_neg hne)
    refine sum_lt_sum (fun m hm => ?_) ⟨most, ?_, ?_⟩
    · rw [hvalues m hm]
      exact card_erase_le
    · refine mem_sdiff.2 ⟨h.tidy.known most p hcont, fun hu => ?_⟩
      have hlow := (mem_filter.1 hu).2
      linarith
    · rw [hvalues most]
      · exact card_erase_lt_of_mem hcont
      · refine mem_sdiff.2 ⟨h.tidy.known most p hcont, fun hu => ?_⟩
        have hlow := (mem_filter.1 hu).2
        linarith
  · exact .inl (card_lt_card hss)

/-! ## When the loops end -/

/-- The first loop ends exactly when finitely many of its moves overfill a machine. -/
theorem Ready.ends_moveAway_iff : Ends (TooMuch ideal) (Rebalancing.moveAway target memory ideal) s ↔
      ∃ N, ∀ n, (rounds (TooMuch ideal) (Rebalancing.moveAway target memory ideal) n s).count
        (Overfills (ideal + 1 / 10)) ≤ N :=
  ends_iff_bounded (I := fun s => s.Ready target memory ideal) (μ := fun s => (s.overfull (ideal + 1 / 10)).card)
    (fun _ hs _ => hs.moveAway.ready hs) (fun _ hs _ => hs.moveAway.count_le)
    (fun _ hs ht hc => card_lt_card (hs.overfull_moveAway ht hc)) h

/-- The second loop ends exactly when finitely many of its moves underfill a machine. -/
theorem Ready.ends_moveTowards_iff (hideal : 1 / 10 < ideal) :
    Ends (TooLittle ideal) (Rebalancing.moveTowards ideal) s ↔
      ∃ N, ∀ n, (rounds (TooLittle ideal) (Rebalancing.moveTowards ideal) n s).count
        (Underfills (ideal / 3)) ≤ N :=
  ends_iff_bounded (I := fun s => s.Ready target memory ideal)
    (μ := fun s => toLex ((s.underfull (ideal / 3)).card, s.pagesElsewhere (ideal / 3)))
    (fun _ hs ht => (hs.moveTowards hideal ht).ready hs) (fun _ hs ht => (hs.moveTowards hideal ht).count_le)
    (fun _ hs ht hc => hs.measure_moveTowards hideal ht hc) h

/-! ## Small and large pages -/

end

/-- No page takes more than a twentieth of the memory of a machine. -/
def SmallPages (s : Rebalancing) : Prop :=
  ∀ p, (∃ m, s.mWorkingSetPages.mPages.contains m p) → ∀ m ∈ s.mWorkingSetPages.machines,
    20 * (p.bytecount : ℤ) ≤ s.mWorkingSetPages.memoryFor m

theorem Reaches.smallPages (h : Reaches P r r') (hr : r.mWorkingSetPages.Tidy) (hsmall : r.SmallPages) :
    r'.SmallPages := by
  intro p hp m hm
  rw [h.machines hr] at hm
  rw [h.memoryFor hr]
  exact hsmall p ((h.placed_iff hr).1 hp) m hm

/-- Moves none of which has the other property are not counted. -/
theorem Reaches.count_eq {Q : Move → Prop} [DecidablePred Q] (h : Reaches P r r')
    (hQ : ∀ r₁ p machine, Reaches P r r₁ → (∃ m, r₁.mWorkingSetPages.mPages.contains m p) →
      machine ∈ r₁.mWorkingSetPages.machines → P ⟨r₁.mWorkingSetPages, p, machine⟩ →
      ¬ Q ⟨r₁.mWorkingSetPages, p, machine⟩) : r'.count Q = r.count Q := by
  induction h with
  | refl => rfl
  | move h hp hm hP ih => rw [count_move, if_neg (hQ _ _ _ h hp hm hP), add_zero, ih]

/-- What a small page takes of the memory. -/
theorem SmallPages.div_le (hsmall : s.SmallPages) (h : s.mWorkingSetPages.Tidy)
    (hp : ∃ m, s.mWorkingSetPages.mPages.contains m p) (hm : m ∈ s.mWorkingSetPages.machines) :
    (p.bytecount : ℚ) / s.mWorkingSetPages.memoryFor m ≤ 1 / 20 := by
  have hpos : (0 : ℚ) < s.mWorkingSetPages.memoryFor m := by exact_mod_cast h.positive m hm
  have hle : 20 * (p.bytecount : ℚ) ≤ s.mWorkingSetPages.memoryFor m := by exact_mod_cast hsmall p hp m hm
  rw [div_le_iff₀ hpos]
  linarith

variable (h : s.Ready target memory ideal)
include h

/-- The moves of the first loop overfill no machine where pages are small. -/
theorem Ready.not_overfills (hsmall : s.SmallPages)
    (hp : ∃ m, s.mWorkingSetPages.mPages.contains m p) (hm : machine ∈ s.mWorkingSetPages.machines)
    (hto : ToLoaded ideal ⟨s.mWorkingSetPages, p, machine⟩) :
    ¬ Overfills (ideal + 1 / 10) ⟨s.mWorkingSetPages, p, machine⟩ := by
  rintro ⟨-, hlt⟩
  have hadd := (h.tidy.moved hp hm).ratio_le_add h.tidy machine
  have hpage := hsmall.div_le h.tidy hp hm
  have hload : s.mWorkingSetPages.bytecountRatioFor machine ≤ ideal + 1 / 20 := hto
  linarith

/-- The moves of the second loop underfill no machine where pages are small. -/
theorem Ready.not_underfills (hideal : 1 / 10 < ideal)
    (hsmall : s.SmallPages) (hp : ∃ m, s.mWorkingSetPages.mPages.contains m p)
    (hm : machine ∈ s.mWorkingSetPages.machines) (hfrom : FromLoaded ideal ⟨s.mWorkingSetPages, p, machine⟩) :
    ¬ Underfills (ideal / 3) ⟨s.mWorkingSetPages, p, machine⟩ := by
  rintro ⟨m, hc, -, hlt⟩
  rw [TwoWaySetMap.mem_getKeys] at hc
  have hsub := (h.tidy.moved hp hm).ratio_sub_le h.tidy m
  have hpage := hsmall.div_le h.tidy hp (h.tidy.known m p hc)
  have hload : ideal ≤ s.mWorkingSetPages.bytecountRatioFor m := hfrom m hc
  linarith

/-- The rounds of the first loop make moves of the first loop. -/
theorem Ready.reaches_rounds_moveAway (n : ℕ) :
    Reaches (ToLoaded ideal) s (rounds (TooMuch ideal) (Rebalancing.moveAway target memory ideal) n s) :=
  rounds_invariant (I := fun r => Reaches (ToLoaded ideal) s r) (fun _ hr _ => hr.trans (hr.ready h).moveAway) .refl n

/-- The rounds of the second loop make moves of the second loop. -/
theorem Ready.reaches_rounds_moveTowards (hideal : 1 / 10 < ideal) (n : ℕ) :
    Reaches (FromLoaded ideal) s (rounds (TooLittle ideal) (Rebalancing.moveTowards ideal) n s) :=
  rounds_invariant (I := fun r => Reaches (FromLoaded ideal) s r)
    (fun _ hr ht => hr.trans ((hr.ready h).moveTowards hideal ht)) .refl n

/-- A page that takes every machine above the threshold keeps the first loop going. -/
theorem Ready.not_ends_moveAway
    (hp : ∃ m, s.mWorkingSetPages.mPages.contains m p) (hlarge : ∀ m ∈ s.mWorkingSetPages.machines,
      ideal + 1 / 10 < (p.bytecount : ℚ) / s.mWorkingSetPages.memoryFor m) :
    ¬ Ends (TooMuch ideal) (Rebalancing.moveAway target memory ideal) s := by
  rintro ⟨n, hn⟩
  have hreach := h.reaches_rounds_moveAway n
  generalize rounds (TooMuch ideal) (Rebalancing.moveAway target memory ideal) n s = r at *
  have hr := hreach.ready h
  obtain ⟨m, hc⟩ := (hreach.placed_iff h.tidy).2 hp
  obtain ⟨most, hmost⟩ := hr.exists_mostLoadedMachine
  have hm := hr.tidy.known m p hc
  refine hn ⟨most, hmost, ?_⟩
  calc ideal + 1 / 10 < (p.bytecount : ℚ) / s.mWorkingSetPages.memoryFor m := hlarge m (hreach.machines h.tidy ▸ hm)
    _ = (p.bytecount : ℚ) / r.mWorkingSetPages.memoryFor m := by rw [hreach.memoryFor h.tidy]
    _ ≤ r.wspRatio m := hr.tidy.le_ratio hc
    _ ≤ r.wspRatio most := (mostLoadedMachine_spec hr.tidy hmost).2 m hm

end Rebalancing

end Cumulus.PageLayoutCalculator
