import Ufora.Recovery.AddDropSystemCalculations

/-!
# What misses dependencies

`computeMissingDependencies` ends with the least sets of pages, vectors and computations of the system that
are closed under the rules of `checkPage`, `checkBigvec` and `checkComputation`
(`computeMissingDependencies_yields`). The loops of the calculations are worklists: `lawful_of_check` says
what a check has to do for that.
-/

open Ordered Worklist Fuel Finset Finmap TwoWaySetMap MapWithIndex

namespace Cumulus

open Fora (PageId)
open AddDropSystemCalculations

namespace AddDropSystemState

variable (state : AddDropSystemState)

/-- The objects that occur in the state. -/
def Knows : Object → Prop
  | .page p => (∃ b, state.bigvecToPages.contains b p) ∨ state.syntheticPages.hasKey p ∨
    (∃ b, state.pageBigvecReferences.contains p b) ∨ ∃ m, state.machinePageContents.contains m p
  | .computation c => c ∈ state.prioritizedRoots ∨ (∃ d, state.computationDependencies.contains c d) ∨
    (∃ d, state.computationDependencies.contains d c) ∨ (∃ b, state.computationBigvecReferences.contains c b) ∨
    state.computationOnMachine.hasKey c ∨ c ∈ state.computationStates
  | .bigvec b => (∃ c, state.computationBigvecReferences.contains c b) ∨ b ∈ state.bigvecLayouts ∨
    (∃ p, state.bigvecToPages.contains b p) ∨ (∃ p, state.syntheticPages.tryGetValue p = some b) ∨
    ∃ p, state.pageBigvecReferences.contains p b

/-- The rules of `checkPage`, `checkComputation` and `checkBigvec`. -/
def missingRule (missing : Set Object) : Set Object
  | .page p => pageIsMissing state (fun b => .bigvec b ∈ missing) p
  | .computation c =>
    computationIsMissing state (fun b => .bigvec b ∈ missing) (fun d => .computation d ∈ missing) c
  | .bigvec b => bigvecIsMissing state (fun p => .page p ∈ missing) b

/-- The objects of the system are closed under the rules. -/
def ClosedUnderMissing (missing : Set Object) : Prop := ∀ a, state.Knows a → a ∈ state.missingRule missing → a ∈ missing

/-- What the rule of an object looks at. -/
def missingDependents : Object → Set Object
  | .page p => fun
    | .bigvec b => state.bigvecToPages.contains b p
    | _ => False
  | .computation c => fun
    | .computation d => state.computationDependencies.contains d c
    | _ => False
  | .bigvec b => fun
    | .page p => state.syntheticPages.tryGetValue p = some b ∨ state.pageBigvecReferences.contains p b
    | .computation c => state.computationBigvecReferences.contains c b
    | .bigvec _ => False

end AddDropSystemState

namespace AddDropSystemCalculations

variable {state : AddDropSystemState} {stored : AddDropPersistedState} {s : AddDropSystemCalculations}
  {l : Loop} {a b : Object}

/-! ## The objects -/

/-- The objects of the system that the calculations have gathered. -/
def objects (s : AddDropSystemCalculations) : Finset Object :=
  s.allPages.image .page ∪ s.allComputations.image .computation ∪ s.allBigvecs.image .bigvec

@[simp] theorem page_mem_objects {p : PageId} : .page p ∈ s.objects ↔ p ∈ s.allPages := by
  simp [objects]

@[simp] theorem computation_mem_objects {c : ComputationId} : .computation c ∈ s.objects ↔ c ∈ s.allComputations := by
  simp [objects]

@[simp] theorem bigvec_mem_objects {b : Hash} : .bigvec b ∈ s.objects ↔ b ∈ s.allBigvecs := by
  simp [objects]

section
variable {K V : Type} [DecidableEq K] [DecidableEq V] {m : TwoWaySetMap K V}

theorem mem_keysToValues {k : K} : k ∈ m.mKeysToValues.keys ↔ ∃ v, m.contains k v := by
  rw [mem_keys]
  exact hasKey_iff

theorem mem_valuesToKeys {v : V} : v ∈ m.mValuesToKeys.keys ↔ ∃ k, m.contains k v := by
  rw [mem_keys]
  exact hasValue_iff

theorem mem_allValues {v : V} : v ∈ m.mKeysToValues.keys.biUnion m.mKeysToValues.get ↔ ∃ k, m.contains k v := by
  rw [mem_biUnion]
  refine exists_congr fun k => and_iff_right_of_imp fun hv => mem_keysToValues.2 ⟨v, hv⟩

theorem mem_keyToValue {m : MapWithIndex K V} {k : K} : k ∈ m.mKeyToValue.keys ↔ m.hasKey k := mem_keys

theorem mem_valuesOf {m : MapWithIndex K V} {v : V} :
    v ∈ m.mKeyToValue.keys.biUnion (fun k => (m.mKeyToValue.lookup k).toFinset) ↔ ∃ k, m.tryGetValue k = some v := by
  rw [mem_biUnion]
  refine exists_congr fun k => ?_
  rw [Option.mem_toFinset, Option.mem_def]
  exact and_iff_right_of_imp fun hv => mem_keyToValue.2 (hasKey_iff.2 ⟨v, hv⟩)

end

/-- `computeRoots` gathers the objects that occur in the state. -/
theorem mem_objects_computeRoots : a ∈ (computeRoots state {}).objects ↔ state.Knows a := by
  cases a with
  | page p =>
    rw [page_mem_objects]
    unfold computeRoots
    simp only [Finset.mem_union, mem_allValues, mem_keyToValue, mem_keysToValues, mem_valuesToKeys,
      Finset.notMem_empty, false_or, or_assoc]
    rfl
  | computation c =>
    rw [computation_mem_objects]
    unfold computeRoots
    simp only [Finset.mem_union, mem_allValues, mem_keyToValue, mem_keysToValues, Finset.notMem_empty,
      false_or, or_assoc]
    rfl
  | bigvec b =>
    rw [bigvec_mem_objects]
    unfold computeRoots
    simp only [Finset.mem_union, mem_allValues, mem_keysToValues, mem_valuesOf, Finset.notMem_empty, false_or, or_assoc]
    rfl

/-- The objects found to miss dependencies. -/
def missing (s : AddDropSystemCalculations) : Set Object
  | .page p => p ∈ s.pagesMissingDependencies
  | .computation c => c ∈ s.computationsMissingDependencies
  | .bigvec b => b ∈ s.bigvecsMissingDependencies

@[simp] theorem page_mem_missing {p : PageId} : .page p ∈ s.missing ↔ p ∈ s.pagesMissingDependencies := Iff.rfl

@[simp] theorem computation_mem_missing {c : ComputationId} :
    .computation c ∈ s.missing ↔ c ∈ s.computationsMissingDependencies := Iff.rfl

@[simp] theorem bigvec_mem_missing {b : Hash} : .bigvec b ∈ s.missing ↔ b ∈ s.bigvecsMissingDependencies := Iff.rfl

/-! ## Loops -/

namespace Loop

/-- The objects that a loop has still to look at. -/
def dirty (l : Loop) : Set Object
  | .page p => p ∈ l.dirtyPages
  | .computation c => c ∈ l.dirtyComputations
  | .bigvec b => b ∈ l.dirtyBigvecs

@[simp] theorem page_mem_dirty {p : PageId} : .page p ∈ l.dirty ↔ p ∈ l.dirtyPages := Iff.rfl

@[simp] theorem computation_mem_dirty {c : ComputationId} : .computation c ∈ l.dirty ↔
    c ∈ l.dirtyComputations := Iff.rfl

@[simp] theorem bigvec_mem_dirty {b : Hash} : .bigvec b ∈ l.dirty ↔ b ∈ l.dirtyBigvecs := Iff.rfl

theorem mem_of_head? {α : Type} [LinearOrder α] {dirty : Finset α} {x : α}
    (h : (ascending dirty).head? = some x) : x ∈ dirty := mem_ascending.1 (List.mem_of_head? h)

theorem notMem_of_head? {α : Type} [LinearOrder α] {dirty : Finset α} (h : (ascending dirty).head? = none)
    (x : α) : x ∉ dirty := by
  rw [← mem_ascending, List.head?_eq_none_iff.1 h]
  exact List.not_mem_nil

theorem dirty_of_front (h : l.front = some a) : a ∈ l.dirty := by
  unfold front at h
  split at h
  · next hp =>
    cases h
    exact mem_of_head? hp
  · next _ hc =>
    cases h
    exact mem_of_head? hc
  · next _ _ hb =>
    cases h
    exact mem_of_head? hb
  · cases h

theorem clean_of_front (h : l.front = none) : ∀ a, a ∉ l.dirty := by
  unfold front at h
  split at h
  · cases h
  · cases h
  · cases h
  · next hp hc hb =>
    intro a
    cases a with
    | page p => exact notMem_of_head? hp p
    | computation c => exact notMem_of_head? hc c
    | bigvec b => exact notMem_of_head? hb b

@[simp] theorem calculations_pop : (l.pop a).calculations = l.calculations := by
  cases a <;> rfl

theorem mem_dirty_pop : b ∈ (l.pop a).dirty ↔ b ∈ l.dirty ∧ b ≠ a := by
  cases a <;> cases b
  -- of objects of two kinds, popping one leaves the other
  all_goals first
    | exact (and_iff_left nofun).symm
    | exact mem_erase.trans (and_comm.trans (and_congr_right' (by simp)))

/-- A check of an object: it marks it where the rule says so, and then makes dirty what depends on it. -/
inductive Checked (r : Reading Loop Object) (a : Object) (l : Loop) : Loop → Prop
  | same : (a ∈ r.rule (r.marked l) → a ∈ r.marked l) → Checked r a l l
  | adds {l' : Loop} : r.good l' → a ∉ r.marked l → a ∈ r.rule (r.marked l) →
    (∀ b, b ∈ r.marked l' ↔ b = a ∨ b ∈ r.marked l) →
    (∀ b, b ∈ l'.dirty ↔ b ∈ l.dirty ∨ b ∈ r.dependents a) → Checked r a l l'

/-- What a worklist of objects reads off the calculations. -/
structure Reads (r : Reading Loop Object) : Prop where
  good_pop : ∀ {l a}, r.good l → r.good (l.pop a)
  marked_pop : ∀ {l a}, r.marked (l.pop a) = r.marked l
  dirty : ∀ {l}, r.dirty l = l.dirty
  rule_mono : ∀ {m m'}, m ⊆ m' → r.rule m ⊆ r.rule m'
  rule_insert : ∀ {m a b}, b ∈ r.rule (insert a m) → b ∈ r.rule m ∨ b ∈ r.dependents a
  dependents_known : ∀ {a b}, b ∈ r.dependents a → b ∈ r.known

variable {r : Reading Loop Object}

theorem Checked.good {l' : Loop} (h : Checked r a l l') (hl : r.good l) : r.good l' := by
  cases h with
  | same => exact hl
  | adds hgood => exact hgood

theorem Checked.mem_marked {l' : Loop} (h : Checked r a l l') :
    b ∈ r.marked l' ↔ b ∈ r.marked l ∨ b = a ∧ a ∈ r.rule (r.marked l) := by
  cases h with
  | same hin =>
    refine (or_iff_left_of_imp ?_).symm
    rintro ⟨rfl, hrule⟩
    exact hin hrule
  | adds _ _ hrule hmarked _ => rw [hmarked, and_iff_left hrule, or_comm]

theorem Checked.mem_dirty {l' : Loop} (h : Checked r a l l') :
    b ∈ l'.dirty ↔ b ∈ l.dirty ∨ b ∈ r.dependents a ∧ a ∉ r.marked l ∧ a ∈ r.rule (r.marked l) := by
  cases h with
  | same hin => exact (or_iff_left fun ⟨_, hnot, hrule⟩ => hnot (hin hrule)).symm
  | adds _ hnot hrule _ hdirty => rw [hdirty, and_iff_left ⟨hnot, hrule⟩]

/-- A loop that takes the objects from the front and checks them is a worklist. -/
theorem Reads.lawful {check : Object → Loop → Loop} (hr : Reads r)
    (h : ∀ l a, r.good l → Checked r a l (check a l)) : Lawful front (fun a l => check a (l.pop a)) r where
  dirty_of_pick h := hr.dirty ▸ dirty_of_front h
  clean_of_pick h := hr.dirty ▸ clean_of_front h
  good_check hl := (h _ _ (hr.good_pop hl)).good (hr.good_pop hl)
  marked_check hl := by rw [(h _ _ (hr.good_pop hl)).mem_marked, hr.marked_pop]
  dirty_check hl := by
    rw [hr.dirty, hr.dirty, (h _ _ (hr.good_pop hl)).mem_dirty, hr.marked_pop, mem_dirty_pop]
  rule_mono := hr.rule_mono
  rule_insert := hr.rule_insert
  dependents_known := hr.dependents_known

end Loop

/-! ## The loop of `computeMissingDependencies` -/

/-- The calculations with what was found to miss dependencies. -/
def withMissing (s : AddDropSystemCalculations) (pages : Finset PageId) (computations : Finset ComputationId)
    (bigvecs : Finset Hash) : AddDropSystemCalculations :=
  { s with
    pagesMissingDependencies := pages
    computationsMissingDependencies := computations
    bigvecsMissingDependencies := bigvecs }

/-- The loop as a worklist. -/
def missingReading (state : AddDropSystemState) (s : AddDropSystemCalculations) : Reading Loop Object where
  good l := ∃ pages computations bigvecs, l.calculations = s.withMissing pages computations bigvecs
  known := s.objects
  marked l := l.calculations.missing
  dirty := Loop.dirty
  rule := state.missingRule
  dependents := state.missingDependents

theorem reads_missing (hknown : ∀ a, state.Knows a → a ∈ s.objects) : Loop.Reads (missingReading state s) where
  good_pop := by
    intro l a
    show (∃ _ _ _, l.calculations = _) → ∃ _ _ _, (l.pop a).calculations = _
    rw [Loop.calculations_pop]
    exact id
  marked_pop := by
    intro l a
    show (l.pop a).calculations.missing = _
    rw [Loop.calculations_pop]
    rfl
  dirty := rfl
  rule_mono := by
    intro m m' hsub a ha
    cases a with
    | page p => exact ha.imp_right (Or.imp (fun ⟨b, hb, hm⟩ => ⟨b, hb, hsub hm⟩) fun ⟨b, hb, hm⟩ => ⟨b, hb, hsub hm⟩)
    | computation c =>
      exact ha.imp_right (Or.imp (fun ⟨d, hd, hroot, hm⟩ => ⟨d, hd, hroot, hsub hm⟩)
        fun ⟨b, hb, hm⟩ => ⟨b, hb, hsub hm⟩)
    | bigvec b => exact ha.imp_right fun ⟨p, hp, hm⟩ => ⟨p, hp, hsub hm⟩
  rule_insert := by
    intro m a b hb
    cases b with
    | page p =>
      rcases hb with hb | ⟨v, hv, rfl | hm⟩ | ⟨v, hv, rfl | hm⟩
      · exact .inl (.inl hb)
      · exact .inr (.inl (Option.mem_toFinset.1 hv))
      · exact .inl (.inr (.inl ⟨v, hv, hm⟩))
      · exact .inr (.inr hv)
      · exact .inl (.inr (.inr ⟨v, hv, hm⟩))
    | computation c =>
      rcases hb with hb | ⟨d, hd, hroot, rfl | hm⟩ | ⟨v, hv, rfl | hm⟩
      · exact .inl (.inl hb)
      · exact .inr hd
      · exact .inl (.inr (.inl ⟨d, hd, hroot, hm⟩))
      · exact .inr hv
      · exact .inl (.inr (.inr ⟨v, hv, hm⟩))
    | bigvec v =>
      rcases hb with hb | ⟨p, hp, rfl | hm⟩
      · exact .inl (.inl hb)
      · exact .inr hp
      · exact .inl (.inr ⟨p, hp, hm⟩)
  dependents_known := by
    intro a b hb
    refine hknown b ?_
    cases a with
    | page p =>
      cases b with
      | bigvec v => exact .inr (.inr (.inl ⟨p, hb⟩))
      | page _ | computation _ => exact hb.elim
    | computation c =>
      cases b with
      | computation d => exact .inr (.inl ⟨c, hb⟩)
      | page _ | bigvec _ => exact hb.elim
    | bigvec v =>
      cases b with
      | page p =>
        rcases hb with hb | hb
        · exact .inr (.inl (hasKey_iff.2 ⟨v, hb⟩))
        · exact .inr (.inr (.inl ⟨v, hb⟩))
      | computation c => exact .inr (.inr (.inr (.inl ⟨v, hb⟩)))
      | bigvec _ => exact hb.elim

theorem checked_missing (hl : (missingReading state s).good l) :
    Loop.Checked (missingReading state s) a l (checkMissing state a l) := by
  obtain ⟨pages, computations, bigvecs, hs⟩ := hl
  cases a with
  | page p | computation c | bigvec v =>
    simp only [checkMissing]
    split_ifs with hin hrule
    · exact .same fun _ => hin
    · refine .adds ⟨_, _, _, by rw [hs]; rfl⟩ hin hrule (fun b => ?_) fun b => ?_
      · show b ∈ missing _ ↔ _ ∨ b ∈ l.calculations.missing
        cases b <;> simp
      · cases b
        -- the objects of a kind that does not refer to this one, those that do in one way, and pages with vectors
        all_goals first
          | exact (or_iff_left id).symm
          | exact mem_union.trans (or_congr_right TwoWaySetMap.mem_getKeys)
          | rw [Loop.page_mem_dirty, Finset.mem_union, Finset.mem_union, MapWithIndex.mem_getKeys,
              TwoWaySetMap.mem_getKeys, or_assoc]
            rfl
    · exact .same fun h => absurd h hrule

/-- `computeMissingDependencies` ends. It finds the least set of objects closed under the rules, and changes
nothing else but the root computations it lists among them. -/
theorem computeMissingDependencies_yields (state : AddDropSystemState) :
    ∃ s, Yields (fun limit => computeMissingDependencies limit state {}) s ∧
      IsLeast {m | state.ClosedUnderMissing m} s.missing ∧
      ∃ pages computations bigvecs roots, s = { (computeRoots state {}).withMissing pages computations bigvecs with
          rootComputationsMissingDependencies := roots } := by
  have hknown a : a ∈ (computeRoots state {}).objects ↔ state.Knows a := mem_objects_computeRoots
  have hlawful := (reads_missing fun a ha => (hknown a).2 ha).lawful fun l _ hl => checked_missing hl
  obtain ⟨l, hyields, hd⟩ := hlawful.drained
    (s := { calculations := computeRoots state {}
            dirtyPages := (computeRoots state {}).allPages
            dirtyComputations := (computeRoots state {}).allComputations
            dirtyBigvecs := (computeRoots state {}).allBigvecs })
    ⟨∅, ∅, ∅, rfl⟩ (fun a ha => by cases a <;> simpa [missingReading] using ha)
  have hempty : (computeRoots state {}).missing = ∅ := by
    ext a
    cases a <;> exact iff_of_false (notMem_empty _) id
  obtain ⟨pages, computations, bigvecs, hgood⟩ := hd.good
  refine ⟨_, hyields.bind yields_some, ⟨fun a ha hrule => ?_, fun m hm a ha => ?_⟩, pages, computations, bigvecs,
    l.calculations.rootComputationsMissingDependencies ∪
      l.calculations.computationsMissingDependencies.filter fun c => c.isRoot, by rw [hgood]⟩
  · refine hd.closed (fun a _ hmem => .inr ?_) a ((hknown a).2 ha) hrule
    cases a <;> simpa [missingReading] using hmem
  · refine hd.least m (fun a hmem hrule => hm a ((hknown a).1 hmem) hrule) ?_ ha
    show (computeRoots state {}).missing ⊆ m
    rw [hempty]
    exact Set.empty_subset m

end AddDropSystemCalculations

end Cumulus
