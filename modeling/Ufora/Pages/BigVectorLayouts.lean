import Ufora.Containers.MapWithIndex
import Ufora.Lib.Effect
import Ufora.Pages.Basic

/-!
# `BigVectorLayouts`

`FORA/TypedFora/ABI/BigVectorLayouts.cppml`: the layouts of the vectors that a machine knows. The
layout of a dropped vector moves to `mOldLayouts`, where it can still be read. A page is orphaned by
a drop when no vector with a current layout has it any more.
-/

open Ordered Effect Fora TypedFora.Abi Finmap

/-- The state of a `BigVectorLayouts`. -/
structure BigVectorLayouts where
  mSyntheticPages : MapWithIndex PageId BigVectorId := ∅
  mSyntheticPagesRealized : Finset PageId := ∅
  mLayouts : StdMap BigVectorId BigVectorPageLayout := ∅
  mOldLayouts : StdMap BigVectorId BigVectorPageLayout := ∅
  mGuidsToLayouts : StdMap Hash BigVectorId := ∅
  mPagesToVectors : TwoWaySetMap PageId BigVectorId := ∅
  mOldPagesToVectors : TwoWaySetMap PageId BigVectorId := ∅

namespace BigVectorLayouts

variable (s : BigVectorLayouts) (identity : BigVectorId)

/-- `tryGetLayoutForId(identity)`. -/
def tryGetLayoutForId : Option BigVectorPageLayout :=
  if identity.size = 0 then some default
  else (lookup identity s.mLayouts).or (lookup identity s.mOldLayouts)

/-- `getLayoutForId(identity)`, which asserts that there is a layout. -/
def getLayoutForId : EStateM AssertionFailed BigVectorLayouts BigVectorPageLayout := do
  match (← get).tryGetLayoutForId identity with
  | some layout => return layout
  | none => throw (.noData identity)

/-- `getLayoutForId` only reads. -/
theorem wp_getLayoutForId {Q : BigVectorPageLayout → BigVectorLayouts → Prop}
    {E : AssertionFailed → BigVectorLayouts → Prop} {s : BigVectorLayouts} {v : BigVectorId} :
    wp (getLayoutForId v) Q E s ↔ match s.tryGetLayoutForId v with
      | some layout => Q layout s
      | none => E (.noData v) s := by
  unfold getLayoutForId
  rw [wp_bind, wp_get]
  cases s.tryGetLayoutForId v <;> exact Iff.rfl

/-- `registerNewLayout(pageLayout)`: does nothing for a vector that has a current layout. -/
def registerNewLayout (pageLayout : BigVectorPageLayout) : BigVectorLayouts :=
  if pageLayout.identity ∈ s.mLayouts then s
  else
    { s with
      mLayouts := Finmap.insert pageLayout.identity pageLayout s.mLayouts
      mGuidsToLayouts := Finmap.insert pageLayout.identity.guid pageLayout.identity s.mGuidsToLayouts
      mPagesToVectors := pageLayout.vectorIdentities.foldl
        (fun pages page => pages.insert page pageLayout.identity) s.mPagesToVectors }

/-- `registerSyntheticPage(inPage, inLayout)`. -/
def registerSyntheticPage (inPage : PageId) (inLayout : BigVectorPageLayout) : BigVectorLayouts :=
  if inPage ∈ s.mSyntheticPagesRealized then s
  else
    let s := s.registerNewLayout inLayout
    { s with mSyntheticPages := s.mSyntheticPages.set inPage inLayout.identity }

/-- `syntheticPageRealized(inPage)`. -/
def syntheticPageRealized (inPage : PageId) : BigVectorLayouts :=
  if inPage ∈ s.mSyntheticPagesRealized then s
  else
    { s with
      mSyntheticPagesRealized := insert inPage s.mSyntheticPagesRealized
      mSyntheticPages := s.mSyntheticPages.discard inPage }

/-- The layout of the vector becomes an old one, and its pages are no longer its pages. -/
def retireLayout (layout : BigVectorPageLayout) : BigVectorLayouts := { s with
    mOldPagesToVectors := (ascending (s.mPagesToVectors.getKeys identity)).foldl
      (fun pages page => pages.insert page identity) s.mOldPagesToVectors
    mPagesToVectors := s.mPagesToVectors.dropValue identity
    mLayouts := erase identity s.mLayouts
    mOldLayouts := Finmap.insert identity layout s.mOldLayouts }

/-- The pages of a layout that no vector has. -/
def pagesWithoutVector (layout : BigVectorPageLayout) : Finset PageId :=
  layout.vectorIdentities.toFinset.filter fun page => ¬ s.mPagesToVectors.hasKey page

/-- `dropLayoutForIdAndReturnOrphanedPages(identity)`. -/
def dropLayoutForIdAndReturnOrphanedPages : EStateM AssertionFailed BigVectorLayouts (Finset PageId) := do
  if identity.size = 0 then return ∅
  else
    let layout ← getLayoutForId identity
    modify fun s => s.retireLayout identity layout
    let pagesOrphaned := (← get).pagesWithoutVector layout
    if (← get).mSyntheticPages.hasValue identity then
      let pages := (← get).mSyntheticPages.getKeys identity
      lassert (pages.card = 1) (.severalSyntheticPages identity)
      modify fun s =>
        { s with
          mSyntheticPagesRealized := s.mSyntheticPagesRealized \ pages
          mSyntheticPages := s.mSyntheticPages.dropValue identity }
    return pagesOrphaned

/-- Dropping a layout fails only where there is none, or where the vector defines several synthetic
pages. -/
theorem wp_dropLayoutForIdAndReturnOrphanedPages {s : BigVectorLayouts} {v : BigVectorId} :
    wp (dropLayoutForIdAndReturnOrphanedPages v) (fun _ _ => True)
      (fun e _ => e = .noData v ∨ e = .severalSyntheticPages v) s := by
  unfold dropLayoutForIdAndReturnOrphanedPages
  rw [wp_ite]
  split
  · trivial
  · rw [wp_bind, wp_getLayoutForId]
    split
    · simp only [wp_bind, wp_modify, wp_get, wp_ite, wp_lassert, wp_pure]
      split_ifs
      all_goals simp
    · exact .inl rfl

end BigVectorLayouts
