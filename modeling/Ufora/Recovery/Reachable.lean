import Ufora.Recovery.Kept

/-!
# What is reachable

`computePageBigvecGraph` overlays the vectors and pages of the state with the persisted ones.
`computeReachableBigvecsAndPages` ends with the vectors and pages that are reached in this graph from the
vectors that a kept or loaded computation needs, as far as these vectors are among those gathered
(`computeReachableBigvecsAndPages_yields`).
-/

open Ordered Worklist Fuel Finset Finmap TwoWaySetMap MapWithIndex

namespace Cumulus

open Fora (PageId)
open AddDropSystemCalculations

/-- The objects that occur in the persisted pages and vectors. -/
def AddDropPersistedState.Knows (stored : AddDropPersistedState) : Object → Prop
  | .page p => (∃ b, stored.bigvecsToPages.contains b p) ∨ ∃ b, stored.pagesToBigvecs.contains p b
  | .computation _ => False
  | .bigvec b => (∃ p, stored.bigvecsToPages.contains b p) ∨ ∃ p, stored.pagesToBigvecs.contains p b

namespace AddDropPageAndBigvecGraph

/-- What is reached in the graph from the vectors of a source. -/
inductive Reaches (graph : AddDropPageAndBigvecGraph) (source : Hash → Prop) : Object → Prop
  | source {b : Hash} : source b → Reaches graph source (.bigvec b)
  | page {b : Hash} {p : PageId} :
    Reaches graph source (.bigvec b) → graph.bigvecToPage.contains b p → Reaches graph source (.page p)
  | bigvec {p : PageId} {b : Hash} :
    Reaches graph source (.page p) → graph.pageToBigvec.contains p b → Reaches graph source (.bigvec b)
  | synthetic {p : PageId} {b : Hash} : Reaches graph source (.page p) → graph.syntheticPages.tryGetValue p = some b →
    Reaches graph source (.bigvec b)

/-- The objects of the graph are among these. -/
structure Within (graph : AddDropPageAndBigvecGraph) (objects : Finset Object) : Prop where
  page : ∀ {b p}, graph.bigvecToPage.contains b p → .page p ∈ objects
  bigvec : ∀ {p b}, graph.pageToBigvec.contains p b → .bigvec b ∈ objects
  synthetic : ∀ {p b}, graph.syntheticPages.tryGetValue p = some b → .bigvec b ∈ objects

variable {graph : AddDropPageAndBigvecGraph} {source source' : Hash → Prop} {objects : Finset Object} {a : Object}

theorem Reaches.mono (h : graph.Reaches source a) (hsource : ∀ b, source b → source' b) : graph.Reaches source' a := by
  induction h with
  | source hb => exact .source (hsource _ hb)
  | page _ hp ih => exact .page ih hp
  | bigvec _ hb ih => exact .bigvec ih hb
  | synthetic _ hb ih => exact .synthetic ih hb

theorem Reaches.mem (h : graph.Reaches source a) (hgraph : graph.Within objects)
    (hsource : ∀ b, source b → .bigvec b ∈ objects) : a ∈ objects := by
  cases h with
  | source hb => exact hsource _ hb
  | page _ hp => exact hgraph.page hp
  | bigvec _ hb => exact hgraph.bigvec hb
  | synthetic _ hb => exact hgraph.synthetic hb

end AddDropPageAndBigvecGraph

namespace AddDropSystemCalculations

variable {state : AddDropSystemState} {stored : AddDropPersistedState}
  {s s' : AddDropSystemCalculations} {l : Loop} {a b : Object}

/-! ## The graph -/

theorem contains_foldl_update {K V : Type} [LinearOrder K] [LinearOrder V] {vs : K → Finset V} {l : List K}
    {m : TwoWaySetMap K V} {k : K} {v : V} :
    (l.foldl (fun m k => m.update k (vs k)) m).contains k v ↔ if k ∈ l then v ∈ vs k else m.contains k v := by
  induction l generalizing m with
  | nil => simp
  | cons a l ih =>
    rw [List.foldl_cons, ih, contains_update]
    by_cases hl : k ∈ l
    · rw [if_pos hl, if_pos (.tail a hl)]
    · by_cases ha : k = a
      · subst ha
        simp [hl]
      · simp [hl, ha]

/-- The graph holds the persisted pages of the vectors that have some, and the known ones of the others. -/
theorem contains_bigvecToPage {v : Hash} {p : PageId} :
    (s.computePageBigvecGraph state stored).pageAndBigvecGraph.bigvecToPage.contains v p ↔
      if stored.bigvecsToPages.hasKey v then stored.bigvecsToPages.contains v p
      else state.bigvecToPages.contains v p := by
  refine contains_foldl_update.trans ?_
  simp only [mem_ascending, mem_keys]
  rfl

/-- The graph holds the persisted vectors of the pages that have some, and the known ones of the others. -/
theorem contains_pageToBigvec {p : PageId} {v : Hash} :
    (s.computePageBigvecGraph state stored).pageAndBigvecGraph.pageToBigvec.contains p v ↔
      if stored.pagesToBigvecs.hasKey p then stored.pagesToBigvecs.contains p v
      else state.pageBigvecReferences.contains p v := by
  refine contains_foldl_update.trans ?_
  simp only [mem_ascending, mem_keys]
  rfl

/-- The graph holds the synthetic pages that are not persisted. -/
theorem tryGetValue_syntheticPages {p : PageId} :
    (s.computePageBigvecGraph state stored).pageAndBigvecGraph.syntheticPages.tryGetValue p =
      if stored.bigvecsToPages.hasValue p then none else state.syntheticPages.tryGetValue p := by
  refine (tryGetValue_foldl_discard _ _ _).trans ?_
  simp only [mem_ascending, mem_keys]
  rfl

/-- The objects gathered with the graph. -/
theorem mem_objects_computePageBigvecGraph :
    a ∈ (s.computePageBigvecGraph state stored).objects ↔ a ∈ s.objects ∨ stored.Knows a := by
  cases a with
  | page p =>
    rw [page_mem_objects, page_mem_objects]
    unfold computePageBigvecGraph
    simp only [Finset.mem_union, mem_allValues, mem_keysToValues, or_assoc]
    rfl
  | computation c =>
    rw [computation_mem_objects, computation_mem_objects]
    exact (or_iff_left id).symm
  | bigvec v =>
    rw [bigvec_mem_objects, bigvec_mem_objects]
    unfold computePageBigvecGraph
    simp only [Finset.mem_union, mem_allValues, mem_keysToValues, or_assoc]
    rfl

/-- The objects of the graph are gathered. -/
theorem within_computePageBigvecGraph (hknown : ∀ a, state.Knows a → a ∈ s.objects) :
    (s.computePageBigvecGraph state stored).pageAndBigvecGraph.Within
      (s.computePageBigvecGraph state stored).objects where
  page {v p} hp := by
    rw [contains_bigvecToPage] at hp
    rw [mem_objects_computePageBigvecGraph]
    split at hp
    · exact .inr (.inl ⟨v, hp⟩)
    · exact .inl (hknown _ (.inl ⟨v, hp⟩))
  bigvec {p v} hv := by
    rw [contains_pageToBigvec] at hv
    rw [mem_objects_computePageBigvecGraph]
    split at hv
    · exact .inr (.inr ⟨p, hv⟩)
    · exact .inl (hknown _ (.inr (.inr (.inr (.inr ⟨p, hv⟩)))))
  synthetic {p v} hv := by
    rw [tryGetValue_syntheticPages] at hv
    rw [mem_objects_computePageBigvecGraph]
    split at hv
    · cases hv
    · exact .inl (hknown _ (.inr (.inr (.inr (.inl ⟨p, hv⟩)))))

/-! ## The loop -/

/-- The objects found to be reachable. -/
def reachable (s : AddDropSystemCalculations) : Set Object
  | .page p => p ∈ s.pagesReachable
  | .computation _ => False
  | .bigvec b => b ∈ s.bigvecsReachable

/-- The calculations with what was found to be reachable. -/
def withReachable (s : AddDropSystemCalculations) (pages : Finset PageId) (bigvecs : Finset Hash) :
    AddDropSystemCalculations :=
  { s with pagesReachable := pages, bigvecsReachable := bigvecs }

/-- The loop of `computeReachableBigvecsAndPages` as a worklist. -/
def reachableReading (state : AddDropSystemState) (stored : AddDropPersistedState)
    (s : AddDropSystemCalculations) : Reading Loop Object where
  good l := ∃ pages bigvecs, l.calculations = s.withReachable pages bigvecs
  known := s.objects
  marked l := l.calculations.reachable
  dirty := Loop.dirty
  rule m := fun
    | .page p => pageIsReachable s.pageAndBigvecGraph (fun b => .bigvec b ∈ m) p
    | .computation _ => False
    | .bigvec b => bigvecIsReferenced state stored s b ∨
      bigvecIsOnPage s.pageAndBigvecGraph (fun p => .page p ∈ m) b
  dependents a := fun b =>
    match a, b with
    | .page p, .bigvec b => s.pageAndBigvecGraph.pageToBigvec.contains p b ∨
      s.pageAndBigvecGraph.syntheticPages.tryGetValue p = some b
    | .bigvec b, .page p => s.pageAndBigvecGraph.bigvecToPage.contains b p
    | _, _ => False

theorem reads_reachable (hgraph : s.pageAndBigvecGraph.Within s.objects) :
    Loop.Reads (reachableReading state stored s) where
  good_pop := by
    intro l a
    show (∃ _ _, l.calculations = _) → ∃ _ _, (l.pop a).calculations = _
    rw [Loop.calculations_pop]
    exact id
  marked_pop := by
    intro l a
    show (l.pop a).calculations.reachable = _
    rw [Loop.calculations_pop]
    rfl
  dirty := rfl
  rule_mono := by
    intro m m' hsub a ha
    cases a with
    | page p =>
      obtain ⟨b, hb, hm⟩ := ha
      exact ⟨b, hb, hsub hm⟩
    | computation _ => exact ha
    | bigvec b =>
      exact ha.imp_right (Or.imp (fun ⟨p, hp, hm⟩ => ⟨p, hp, hsub hm⟩) fun ⟨p, hp, hm⟩ => ⟨p, hp, hsub hm⟩)
  rule_insert := by
    intro m a b hb
    cases b with
    | page p =>
      obtain ⟨v, hv, rfl | hm⟩ := hb
      · exact .inr (mem_getKeys.1 hv)
      · exact .inl ⟨v, hv, hm⟩
    | computation _ => exact hb.elim
    | bigvec v =>
      rcases hb with hb | ⟨p, hp, rfl | hm⟩ | ⟨p, hp, rfl | hm⟩
      · exact .inl (.inl hb)
      · exact .inr (.inr (mem_getKeys.1 hp))
      · exact .inl (.inr (.inl ⟨p, hp, hm⟩))
      · exact .inr (.inl (mem_getKeys.1 hp))
      · exact .inl (.inr (.inr ⟨p, hp, hm⟩))
  dependents_known := by
    intro a b hb
    cases a with
    | page p =>
      cases b with
      | bigvec v => exact hb.elim hgraph.bigvec hgraph.synthetic
      | page _ | computation _ => exact hb.elim
    | computation _ => cases b <;> exact hb.elim
    | bigvec v =>
      cases b with
      | page p => exact hgraph.page hb
      | computation _ | bigvec _ => exact hb.elim

variable (state) (stored)

theorem checked_reachable (hl : (reachableReading state stored s).good l) :
    Loop.Checked (reachableReading state stored s) a l (checkReachable state stored a l) := by
  obtain ⟨pages, bigvecs, hs⟩ := hl
  have hgraph : l.calculations.pageAndBigvecGraph = s.pageAndBigvecGraph := by
    rw [hs]
    rfl
  cases a with
  | page p =>
    simp only [checkReachable, hgraph]
    split_ifs with hin hrule
    · exact .same fun _ => hin
    · refine .adds ⟨insert p pages, bigvecs, by rw [hs]; rfl⟩ hin hrule (fun b => ?_) fun b => ?_
      · cases b with
        | page q => exact mem_insert.trans (or_congr_left (by simp))
        | computation _ | bigvec _ => exact (or_iff_right nofun).symm
      · cases b with
        | bigvec v =>
          rw [Loop.bigvec_mem_dirty, Finset.mem_union, Finset.mem_union, Option.mem_toFinset, or_assoc]
          rfl
        | page _ | computation _ => exact (or_iff_left id).symm
    · exact .same fun h => absurd h hrule
  | computation _ => exact .same False.elim
  | bigvec v =>
    have href : bigvecIsReferenced state stored l.calculations v ↔
        bigvecIsReferenced state stored s v := by
      rw [hs]
      rfl
    simp only [checkReachable, hgraph, href]
    split_ifs with hin hrule
    · exact .same fun _ => hin
    · refine .adds ⟨pages, insert v bigvecs, by rw [hs]; rfl⟩ hin hrule (fun b => ?_) fun b => ?_
      · cases b with
        | bigvec w => exact mem_insert.trans (or_congr_left (by simp))
        | page _ | computation _ => exact (or_iff_right nofun).symm
      · cases b with
        | page p => exact mem_union
        | computation _ | bigvec _ => exact (or_iff_left id).symm
    · exact .same fun h => absurd h hrule

/-- `computeReachableBigvecsAndPages` ends. It finds what is reached from the vectors that a kept or loaded
computation needs, as far as these are gathered. -/
theorem computeReachableBigvecsAndPages_yields (hgraph : s.pageAndBigvecGraph.Within s.objects)
    (hpages : s.pagesReachable = ∅) (hbigvecs : s.bigvecsReachable = ∅) :
    ∃ s', Yields (fun limit => s.computeReachableBigvecsAndPages limit state stored) s' ∧
      s' = s.withReachable s'.pagesReachable s'.bigvecsReachable ∧
      ∀ a, a ∈ s'.reachable ↔ s.pageAndBigvecGraph.Reaches
        (fun b => bigvecIsReferenced state stored s b ∧ .bigvec b ∈ s.objects) a := by
  have hlawful := (reads_reachable hgraph).lawful fun l _ hl =>
    checked_reachable state stored hl
  obtain ⟨l, hyields, hd⟩ := hlawful.drained
    (s := { calculations := s, dirtyPages := s.allPages, dirtyBigvecs := s.allBigvecs })
    ⟨s.pagesReachable, s.bigvecsReachable, rfl⟩ fun a ha => by
      cases a with
      | page p => exact page_mem_objects.2 ha
      | computation _ => exact absurd ha (notMem_empty _)
      | bigvec b => exact bigvec_mem_objects.2 ha
  obtain ⟨pages, bigvecs, hgood⟩ := hd.good
  have hclosed := hd.closed fun a hrule hmem => by
    cases a with
    | page p => exact .inr (page_mem_objects.1 hmem)
    | computation _ => exact hrule.elim
    | bigvec b => exact .inr (bigvec_mem_objects.1 hmem)
  refine ⟨_, hyields.bind yields_some, by rw [hgood]; rfl, fun a => ⟨fun ha => ?_, fun ha => ?_⟩⟩
  · refine hd.least {a | s.pageAndBigvecGraph.Reaches
      (fun b => bigvecIsReferenced state stored s b ∧ .bigvec b ∈ s.objects) a}
      (fun a hmem hrule => ?_) (fun a ha => ?_) ha
    · cases a with
      | page p =>
        obtain ⟨b, hb, hreaches⟩ := hrule
        exact .page hreaches (mem_getKeys.1 hb)
      | computation _ => exact hrule.elim
      | bigvec b =>
        rcases hrule with href | ⟨p, hp, hreaches⟩ | ⟨p, hp, hreaches⟩
        · exact .source ⟨href, hmem⟩
        · exact .synthetic hreaches (mem_getKeys.1 hp)
        · exact .bigvec hreaches (mem_getKeys.1 hp)
    · cases a with
      | page p => exact absurd (hpages ▸ ha : p ∈ (∅ : Finset PageId)) (notMem_empty p)
      | computation _ => exact ha.elim
      | bigvec b => exact absurd (hbigvecs ▸ ha : b ∈ (∅ : Finset Hash)) (notMem_empty b)
  · induction ha with
    | source hb => exact hclosed _ hb.2 (.inl hb.1)
    | page _ hp ih => exact hclosed _ (hgraph.page hp) ⟨_, mem_getKeys.2 hp, ih⟩
    | bigvec _ hb ih => exact hclosed _ (hgraph.bigvec hb) (.inr (.inr ⟨_, mem_getKeys.2 hb, ih⟩))
    | synthetic _ hb ih =>
      exact hclosed _ (hgraph.synthetic hb) (.inr (.inl ⟨_, mem_getKeys.2 hb, ih⟩))

end AddDropSystemCalculations

end Cumulus
