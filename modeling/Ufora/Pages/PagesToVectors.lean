import Ufora.Lib.Run
import Ufora.Pages.BigVectorLayouts

/-!
# The pages of the current layouts

`mPagesToVectors` says for each page which vectors have it in their current layout, and a drop reads
it to find the pages that go with the dropped vector. `PagesExact` is that it says just this, and
`DropsExactly` that a drop returns just the pages no other current layout has. Both hold in every
state that calls can lead to, failed calls among them (`always_dropsExactly`).
-/

open Ordered Run Effect Fora TypedFora.Abi List Finmap TwoWaySetMap

namespace BigVectorLayouts

variable (s : BigVectorLayouts)

/-- `restrictToAddDropState(state)`: only the layouts of the state remain. -/
def restrictToAddDropState (bigvecLayouts : StdMap BigVectorId BigVectorPageLayout) : BigVectorLayouts :=
  bigvecLayouts.ascendingEntries.foldl (fun s hashAndLayout => s.registerNewLayout hashAndLayout.2)
    { s with
      mOldLayouts := ∅
      mLayouts := ∅
      mSyntheticPagesRealized := ∅
      mSyntheticPages := ∅
      mPagesToVectors := ∅
      mOldPagesToVectors := ∅ }

/-- The calls on a `BigVectorLayouts` that change it. Slices and concatenations register the layout
that they make. -/
inductive Op where
  | registerNewLayout (pageLayout : BigVectorPageLayout)
  | registerSyntheticPage (inPage : PageId) (inLayout : BigVectorPageLayout)
  | syntheticPageRealized (inPage : PageId)
  | dropLayoutForIdAndReturnOrphanedPages (identity : BigVectorId)
  | restrictToAddDropState (bigvecLayouts : StdMap BigVectorId BigVectorPageLayout)

/-- The state a call leaves, also where an assertion fails. -/
def step : Op → BigVectorLayouts
  | .registerNewLayout pageLayout => s.registerNewLayout pageLayout
  | .registerSyntheticPage inPage inLayout => s.registerSyntheticPage inPage inLayout
  | .syntheticPageRealized inPage => s.syntheticPageRealized inPage
  | .dropLayoutForIdAndReturnOrphanedPages identity =>
    exec (dropLayoutForIdAndReturnOrphanedPages identity) s
  | .restrictToAddDropState bigvecLayouts => s.restrictToAddDropState bigvecLayouts

/-- The current layout of the vector has the page. -/
def Occurs (page : PageId) (identity : BigVectorId) : Prop :=
  ∃ layout ∈ lookup identity s.mLayouts, page ∈ layout.vectorIdentities

/-- Each current layout is under its own identity, and the vectors of a page are those whose current
layouts have it. -/
structure PagesExact (s : BigVectorLayouts) : Prop where
  keyed : ∀ v layout, lookup v s.mLayouts = some layout → layout.identity = v
  pages : ∀ p v, s.mPagesToVectors.contains p v ↔ s.Occurs p v

/-- A drop returns the pages of the vector's layout that no other current layout has. It fails only
where the vector has no layout or is not the definition of one synthetic page alone. -/
def DropsExactly : Prop := ∀ v, wp (dropLayoutForIdAndReturnOrphanedPages v)
    (fun pagesOrphaned _ => ∃ layout, s.tryGetLayoutForId v = some layout ∧
      ∀ p, p ∈ pagesOrphaned ↔ p ∈ layout.vectorIdentities ∧ ∀ w, w ≠ v → ¬ s.Occurs p w)
    (fun e _ => e = .noData v ∧ s.tryGetLayoutForId v = none ∨
      e = .severalSyntheticPages v ∧ 1 < (s.mSyntheticPages.getKeys v).card) s

section
variable {s} {p : PageId} {v : BigVectorId} {layout : BigVectorPageLayout}

/-! ## One call -/

theorem contains_foldl_insert (l : List PageId) (m : TwoWaySetMap PageId BigVectorId)
    (v w : BigVectorId) : (l.foldl (fun pages page => pages.insert page v) m).contains p w ↔
      m.contains p w ∨ w = v ∧ p ∈ l := by
  induction l generalizing m with
  | nil => simp
  | cons q l ih =>
    rw [foldl_cons, ih, TwoWaySetMap.contains_insert, mem_cons]
    tauto

theorem pagesExact_empty : PagesExact {} := ⟨by simp, by simp [Occurs]⟩

section

variable (h : s.PagesExact)
include h

/-- A state that differs in other fields only. -/
theorem PagesExact.of_eq {s' : BigVectorLayouts}
    (hl : s'.mLayouts = s.mLayouts) (hp : s'.mPagesToVectors = s.mPagesToVectors) : s'.PagesExact := by
  refine ⟨fun v layout hv => h.keyed v layout (hl ▸ hv), fun p v => ?_⟩
  rw [hp, h.pages, Occurs, Occurs, hl]

/-- A layout that is registered brings its pages, unless its vector has a layout already. -/
theorem PagesExact.registerNewLayout (layout : BigVectorPageLayout) : (s.registerNewLayout layout).PagesExact := by
  simp only [BigVectorLayouts.registerNewLayout]
  split
  · exact h
  · next hn =>
    refine ⟨fun v l hv => ?_, fun p v => ?_⟩
    · rw [StdMap.lookup_insert] at hv
      split at hv
      · next he => rw [← Option.some.inj hv, he]
      · exact h.keyed v l hv
    · rw [contains_foldl_insert, h.pages, Occurs, Occurs, StdMap.lookup_insert]
      split
      · next he =>
        subst he
        simp [lookup_eq_none.2 hn]
      · next he => simp [he]

theorem PagesExact.registerSyntheticPage (p : PageId)
    (layout : BigVectorPageLayout) : (s.registerSyntheticPage p layout).PagesExact := by
  simp only [BigVectorLayouts.registerSyntheticPage]
  split
  · exact h
  · exact (h.registerNewLayout layout).of_eq rfl rfl

theorem PagesExact.syntheticPageRealized (p : PageId) : (s.syntheticPageRealized p).PagesExact := by
  simp only [BigVectorLayouts.syntheticPageRealized]
  split
  · exact h
  · exact h.of_eq rfl rfl

/-- A layout that becomes an old one takes its pages with it. -/
theorem PagesExact.retireLayout (v : BigVectorId)
    (layout : BigVectorPageLayout) : (s.retireLayout v layout).PagesExact := by
  refine ⟨fun w l hw => ?_, fun p w => ?_⟩
  · simp only [BigVectorLayouts.retireLayout, StdMap.lookup_erase] at hw
    split at hw
    · cases hw
    · exact h.keyed w l hw
  · simp only [BigVectorLayouts.retireLayout, Occurs, contains_dropValue, StdMap.lookup_erase, h.pages]
    split
    · next he => simp [he]
    · next he => simp [he]

/-- Once a vector has no current layout, the pages without a vector are those that no other current
layout has. -/
theorem PagesExact.mem_pagesWithoutVector : p ∈ (s.retireLayout v layout).pagesWithoutVector layout ↔
      p ∈ layout.vectorIdentities ∧ ∀ w, w ≠ v → ¬ s.Occurs p w := by
  simp only [pagesWithoutVector, Finset.mem_filter, mem_toFinset, hasKey_iff, not_exists]
  refine and_congr_right fun _ => forall_congr' fun w => ?_
  simp only [BigVectorLayouts.retireLayout, contains_dropValue, h.pages]
  tauto

theorem PagesExact.dropLayoutForIdAndReturnOrphanedPages (v : BigVectorId) :
    wp (dropLayoutForIdAndReturnOrphanedPages v) (fun _ s' => s'.PagesExact) (fun _ s' => s'.PagesExact) s := by
  unfold BigVectorLayouts.dropLayoutForIdAndReturnOrphanedPages
  rw [wp_ite]
  split
  · exact h
  · rw [wp_bind, wp_getLayoutForId]
    split
    · next layout _ =>
      have hr := h.retireLayout v layout
      simp only [wp_bind, wp_modify, wp_get, wp_ite, wp_lassert, wp_pure]
      split_ifs
      · exact hr.of_eq rfl rfl
      · exact hr
      · exact hr
    · exact h

theorem PagesExact.foldl_registerNewLayout (l : List (BigVectorId × BigVectorPageLayout)) :
    (l.foldl (fun s hashAndLayout => s.registerNewLayout hashAndLayout.2) s).PagesExact := by
  induction l generalizing s with
  | nil => exact h
  | cons hashAndLayout l ih => exact ih (h.registerNewLayout hashAndLayout.2)

end

theorem PagesExact.restrictToAddDropState (s : BigVectorLayouts)
    (bigvecLayouts : StdMap BigVectorId BigVectorPageLayout) :
    (s.restrictToAddDropState bigvecLayouts).PagesExact := by
  have h0 : PagesExact { mGuidsToLayouts := s.mGuidsToLayouts } := pagesExact_empty.of_eq rfl rfl
  exact h0.foldl_registerNewLayout bigvecLayouts.ascendingEntries

/-- No call breaks the relation of pages to vectors. -/
theorem PagesExact.step (h : s.PagesExact) (op : Op) : (s.step op).PagesExact := by
  cases op with
  | registerNewLayout layout => exact h.registerNewLayout layout
  | registerSyntheticPage p layout => exact h.registerSyntheticPage p layout
  | syntheticPageRealized p => exact h.syntheticPageRealized p
  | dropLayoutForIdAndReturnOrphanedPages v =>
    exact (h.dropLayoutForIdAndReturnOrphanedPages v).exec
  | restrictToAddDropState bigvecLayouts => exact .restrictToAddDropState s bigvecLayouts

/-- Where the relation of pages to vectors is exact, so is every drop. -/
theorem PagesExact.dropsExactly (h : s.PagesExact) : s.DropsExactly := by
  intro v
  unfold BigVectorLayouts.dropLayoutForIdAndReturnOrphanedPages
  rw [wp_ite]
  split
  · next hv => exact ⟨default, if_pos hv, fun p => iff_of_false (not_mem_nil) fun hp =>
      not_mem_nil hp.1⟩
  · rw [wp_bind, wp_getLayoutForId]
    split
    · next layout hl =>
      have hpages : ∃ layout', some layout = some layout' ∧
          ∀ p, p ∈ (s.retireLayout v layout).pagesWithoutVector layout ↔
            p ∈ layout'.vectorIdentities ∧ ∀ w, w ≠ v → ¬ s.Occurs p w :=
        ⟨layout, rfl, fun p => h.mem_pagesWithoutVector⟩
      simp only [wp_bind, wp_modify, wp_get, wp_ite, wp_lassert, wp_pure, hl]
      split_ifs with hs hc
      · exact hpages
      · obtain ⟨p, hp⟩ := MapWithIndex.hasValue_iff.1 hs
        have hpos : 0 < (s.mSyntheticPages.getKeys v).card := Finset.card_pos.2 ⟨p, MapWithIndex.mem_getKeys.2 hp⟩
        exact .inr ⟨trivial, lt_of_le_of_ne hpos (Ne.symm hc)⟩
      · exact hpages
    · next hn => exact .inl ⟨rfl, hn⟩

end

/-! ## Runs -/

/-- After whatever calls, a page belongs to the vectors whose current layouts have it, and a drop
returns the pages that go with the vector. -/
theorem always_dropsExactly (ops : List Op) : Always (total step) (fun s => s.PagesExact ∧ s.DropsExactly) {} ops := by
  have h : Always (total step) PagesExact {} ops := always pagesExact_empty fun s op s' h hs => by
    obtain rfl := total_eq_some.1 hs
    exact h.step op
  exact h.mono fun s h => ⟨h, h.dropsExactly⟩

end BigVectorLayouts
