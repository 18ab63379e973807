import Ufora.Lib.Changes
import Ufora.Lib.Run
import Ufora.Pages.Bytecounts

/-!
# `ThreadGroupState::PagesUsed`

`cumulus/SystemwideComputationScheduler/ThreadGroupState.hppml`: the pages that a thread group uses,
which it has touched itself or its children hold. The groups of a machine share the map of the pages
that each of them uses and the set of pages dropped across the system, so that these are references.
Every call leaves the pages of the group those that it uses (`PagesUsed.Fits.call`).

A group is only an ordered key here. Byte counts are exact integers.
-/

open Ordered List Finset TwoWaySetMap Function

namespace Cumulus.SystemwideComputationScheduler

open Fora (PageId)

/-- The members of `ThreadGroupState::PagesUsed` that are not references. -/
structure OwnPages (G : Type) [LinearOrder G] where
  mPagesAdded : Finset PageId := ∅
  mPagesDropped : Finset PageId := ∅
  mPagesTouchedBySelf : Finset PageId := ∅
  mPagesByChild : TwoWaySetMap G PageId := ∅
  mTotalBytes : ℤ := 0

/-- `ThreadGroupState::PagesUsed`. The last two members are references. -/
structure PagesUsed (G : Type) [LinearOrder G] extends OwnPages G where
  mGroup : G
  mPagesDroppedAcrossEntireSystem : Finset PageId
  mPageMapping : TwoWaySetMap G PageId

variable {G : Type} [LinearOrder G]

namespace PagesUsed

variable (s : PagesUsed G) (page : PageId)

/-- `shouldStillBeReferenced(page)`. -/
def shouldStillBeReferenced : Prop := (page ∈ s.mPagesTouchedBySelf ∨ s.mPagesByChild.hasValue page) ∧
    page ∉ s.mPagesDroppedAcrossEntireSystem
deriving Decidable

/-- `checkPageState(p)`. -/
def checkPageState (p : PageId) : PagesUsed G :=
  if ¬ s.shouldStillBeReferenced p ∧ s.mPageMapping.contains s.mGroup p then
    let s := { s with mTotalBytes := s.mTotalBytes - p.bytecount }
    let s :=
      if p ∈ s.mPagesAdded then { s with mPagesAdded := s.mPagesAdded.erase p }
      else { s with mPagesDropped := insert p s.mPagesDropped }
    { s with mPageMapping := s.mPageMapping.drop s.mGroup p }
  else if s.shouldStillBeReferenced p ∧ ¬ s.mPageMapping.contains s.mGroup p then
    let s := { s with mTotalBytes := s.mTotalBytes + p.bytecount }
    let s :=
      if p ∈ s.mPagesDropped then { s with mPagesDropped := s.mPagesDropped.erase p }
      else { s with mPagesAdded := insert p s.mPagesAdded }
    { s with mPageMapping := s.mPageMapping.insert s.mGroup p }
  else s

/-- `addChildPage(group, page)`. -/
def addChildPage (group : G) (page : PageId) : PagesUsed G :=
  if page ∈ s.mPagesDroppedAcrossEntireSystem then s
  else if s.mPagesByChild.contains group page then s
  else { s with mPagesByChild := s.mPagesByChild.insert group page }.checkPageState page

/-- `dropChildPage(group, page)`. -/
def dropChildPage (group : G) (page : PageId) : PagesUsed G :=
  if page ∈ s.mPagesDroppedAcrossEntireSystem then s
  else if ¬ s.mPagesByChild.contains group page then s
  else { s with mPagesByChild := s.mPagesByChild.drop group page }.checkPageState page

/-- The page is inserted into `mPagesTouchedBySelf` and checked. -/
def insertTouched : PagesUsed G :=
  { s with mPagesTouchedBySelf := insert page s.mPagesTouchedBySelf }.checkPageState page

/-- `touchPageForSelf(page)`. -/
def touchPageForSelf : PagesUsed G :=
  if page ∈ s.mPagesDroppedAcrossEntireSystem then s
  else if page ∈ s.mPagesTouchedBySelf then s
  else s.insertTouched page

/-- `touchChildPagesForSelf(child)`. -/
def touchChildPagesForSelf (child : G) : PagesUsed G :=
  (ascending (s.mPagesByChild.getValues child)).foldl insertTouched s

/-- `dropPageAcrossSystem(page)`. -/
def dropPageAcrossSystem : PagesUsed G := { s with
    mTotalBytes :=
      if s.mPageMapping.contains s.mGroup page then s.mTotalBytes - page.bytecount else s.mTotalBytes
    mPagesTouchedBySelf := s.mPagesTouchedBySelf.erase page
    mPageMapping := s.mPageMapping.drop s.mGroup page
    mPagesByChild := s.mPagesByChild.dropValue page
    mPagesAdded := s.mPagesAdded.erase page
    mPagesDropped := s.mPagesDropped.erase page }

/-- `dropChild(thread)`. -/
def dropChild (thread : G) : PagesUsed G :=
  (ascending (s.mPagesByChild.getValues thread)).foldl checkPageState
    { s with mPagesByChild := s.mPagesByChild.dropKey thread }

/-- `resetOwnTouchedPages()`. -/
def resetOwnTouchedPages : PagesUsed G :=
  (ascending s.mPagesTouchedBySelf).foldl checkPageState { s with mPagesTouchedBySelf := ∅ }

/-- `extractAddedAndDropped(outAdded, outDropped)`. -/
def extractAddedAndDropped : Changes PageId × PagesUsed G :=
  (⟨s.mPagesAdded, s.mPagesDropped⟩, { s with mPagesAdded := ∅, mPagesDropped := ∅ })

/-- The calls of a group, other than the drops across the system. -/
inductive Call (G : Type) where
  | addChildPage (group : G) (page : PageId)
  | dropChildPage (group : G) (page : PageId)
  | touchPageForSelf (page : PageId)
  | touchChildPagesForSelf (child : G)
  | dropChild (thread : G)
  | resetOwnTouchedPages
  | extractAddedAndDropped

/-- A call. -/
def call : Call G → PagesUsed G
  | .addChildPage group page => s.addChildPage group page
  | .dropChildPage group page => s.dropChildPage group page
  | .touchPageForSelf page => s.touchPageForSelf page
  | .touchChildPagesForSelf child => s.touchChildPagesForSelf child
  | .dropChild thread => s.dropChild thread
  | .resetOwnTouchedPages => s.resetOwnTouchedPages
  | .extractAddedAndDropped => s.extractAddedAndDropped.2

end PagesUsed

/-! ## What a group uses -/

/-- The pages that a group has touched since it was reset, and those that its children hold. -/
structure Usage (G : Type) where
  touched : Set PageId := ∅
  held : G → Set PageId := fun _ => ∅

/-- What a call means. -/
def Usage.after (u : Usage G) : PagesUsed.Call G → Usage G
  | .addChildPage group page => { u with held := update u.held group (insert page (u.held group)) }
  | .dropChildPage group page => { u with held := update u.held group (u.held group \ {page}) }
  | .touchPageForSelf page => { u with touched := insert page u.touched }
  | .touchChildPagesForSelf child => { u with touched := u.touched ∪ u.held child }
  | .dropChild thread => { u with held := update u.held thread ∅ }
  | .resetOwnTouchedPages => { u with touched := ∅ }
  | .extractAddedAndDropped => u

/-! ## The pages of a group -/

namespace PagesUsed

/-- What a group reports next. -/
def changes (s : PagesUsed G) : Changes PageId := s.extractAddedAndDropped.1

/-- The pages of a group fit its tables, but for pages that are still to be checked, the total is theirs,
and the changes lead to them. -/
structure Counted (s : PagesUsed G) (base : Finset PageId) (stale : List PageId) : Prop where
  pages : ∀ p ∉ stale, s.mPageMapping.contains s.mGroup p ↔ s.shouldStillBeReferenced p
  bytes : s.mTotalBytes = s.mPageMapping.bytesOf s.mGroup
  net : ∀ p ∉ s.mPagesDroppedAcrossEntireSystem, s.changes.NetAt base (s.mPageMapping.getValues s.mGroup) p

/-- What the calls of a group leave alone. -/
structure SameOthers (s s' : PagesUsed G) : Prop where
  group : s'.mGroup = s.mGroup
  dropped : s'.mPagesDroppedAcrossEntireSystem = s.mPagesDroppedAcrossEntireSystem
  others : ∀ g ≠ s.mGroup, s'.mPageMapping.getValues g = s.mPageMapping.getValues g

/-- What checking pages leaves alone. -/
structure SameTables (s s' : PagesUsed G) : Prop extends SameOthers s s' where
  touched : s'.mPagesTouchedBySelf = s.mPagesTouchedBySelf
  byChild : s'.mPagesByChild = s.mPagesByChild

variable {s s' s'' : PagesUsed G} {base : Finset PageId} {stale : List PageId} {p : PageId}

theorem SameOthers.refl (s : PagesUsed G) : SameOthers s s := ⟨rfl, rfl, fun _ _ => rfl⟩

theorem SameOthers.trans (h : SameOthers s s') (h' : SameOthers s' s'') : SameOthers s s'' where
  group := h'.group.trans h.group
  dropped := h'.dropped.trans h.dropped
  others g hg := (h'.others g (h.group ▸ hg)).trans (h.others g hg)

theorem SameTables.refl (s : PagesUsed G) : SameTables s s := ⟨.refl s, rfl, rfl⟩

theorem SameTables.trans (h : SameTables s s') (h' : SameTables s' s'') : SameTables s s'' where
  toSameOthers := h.toSameOthers.trans h'.toSameOthers
  touched := h'.touched.trans h.touched
  byChild := h'.byChild.trans h.byChild

theorem SameTables.should (h : SameTables s s') : s'.shouldStillBeReferenced p ↔ s.shouldStillBeReferenced p := by
  unfold shouldStillBeReferenced
  rw [h.touched, h.byChild, h.dropped]

/-- A page is no longer one of the group's. -/
def withoutPage (s : PagesUsed G) (p : PageId) : PagesUsed G := { s with
    mTotalBytes := s.mTotalBytes - p.bytecount
    mPagesAdded := (s.changes.drop p).added
    mPagesDropped := (s.changes.drop p).dropped
    mPageMapping := s.mPageMapping.drop s.mGroup p }

/-- A page becomes one of the group's. -/
def withPage (s : PagesUsed G) (p : PageId) : PagesUsed G := { s with
    mTotalBytes := s.mTotalBytes + p.bytecount
    mPagesAdded := (s.changes.add p).added
    mPagesDropped := (s.changes.add p).dropped
    mPageMapping := s.mPageMapping.insert s.mGroup p }

theorem checkPageState_eq : s.checkPageState p =
    if ¬ s.shouldStillBeReferenced p ∧ s.mPageMapping.contains s.mGroup p then s.withoutPage p
    else if s.shouldStillBeReferenced p ∧ ¬ s.mPageMapping.contains s.mGroup p then s.withPage p
    else s := by
  unfold checkPageState withoutPage withPage changes Changes.add Changes.drop
  dsimp only [extractAddedAndDropped]
  split
  · by_cases hp : p ∈ s.mPagesAdded
    · simp only [hp, if_true]
    · simp only [hp, if_false]
  split
  · by_cases hp : p ∈ s.mPagesDropped
    · simp only [hp, if_true]
    · simp only [hp, if_false]
  · rfl

theorem sameTables_withoutPage : SameTables s (s.withoutPage p) :=
  ⟨⟨rfl, rfl, fun _ hg => getValues_drop.trans (if_neg hg)⟩, rfl, rfl⟩

theorem sameTables_withPage : SameTables s (s.withPage p) :=
  ⟨⟨rfl, rfl, fun _ hg => getValues_insert.trans (if_neg hg)⟩, rfl, rfl⟩

theorem sameTables_checkPageState : SameTables s (s.checkPageState p) := by
  rw [checkPageState_eq]
  split
  · exact sameTables_withoutPage
  split
  · exact sameTables_withPage
  · exact .refl s

theorem Counted.withoutPage (h : Counted s base (p :: stale)) (hnot : ¬ s.shouldStillBeReferenced p)
    (hp : s.mPageMapping.contains s.mGroup p) : Counted (s.withoutPage p) base stale where
  pages q hq := by
    refine contains_drop.trans ?_
    rw [sameTables_withoutPage.should]
    by_cases heq : q = p
    · subst heq
      exact iff_of_false (fun hc => hc.2 ⟨rfl, rfl⟩) hnot
    · refine (and_iff_left fun hc => heq hc.2).trans (h.pages q fun hmem => ?_)
      exact (mem_cons.1 hmem).elim heq hq
  bytes := by
    show s.mTotalBytes - p.bytecount = (s.mPageMapping.drop s.mGroup p).bytesOf s.mGroup
    rw [bytesOf_drop hp, if_pos rfl, h.bytes]
  net q hq := by
    show (s.changes.drop p).NetAt base ((s.mPageMapping.drop s.mGroup p).getValues s.mGroup) q
    rw [getValues_drop, if_pos rfl]
    exact (h.net q hq).drop hp

theorem Counted.withPage (h : Counted s base (p :: stale)) (hshould : s.shouldStillBeReferenced p)
    (hp : ¬ s.mPageMapping.contains s.mGroup p) : Counted (s.withPage p) base stale where
  pages q hq := by
    refine contains_insert.trans ?_
    rw [sameTables_withPage.should]
    by_cases heq : q = p
    · subst heq
      exact iff_of_true (.inl ⟨rfl, rfl⟩) hshould
    · refine (or_iff_right fun hc => heq hc.2).trans (h.pages q fun hmem => ?_)
      exact (mem_cons.1 hmem).elim heq hq
  bytes := by
    show s.mTotalBytes + p.bytecount = (s.mPageMapping.insert s.mGroup p).bytesOf s.mGroup
    rw [bytesOf_insert hp, if_pos rfl, h.bytes]
  net q hq := by
    show (s.changes.add p).NetAt base ((s.mPageMapping.insert s.mGroup p).getValues s.mGroup) q
    rw [getValues_insert, if_pos rfl]
    exact (h.net q hq).add hp

/-- A page that was still to be checked fits when it has been. -/
theorem Counted.checkPageState (h : Counted s base (p :: stale)) : Counted (s.checkPageState p) base stale := by
  rw [checkPageState_eq]
  split
  · next hp => exact h.withoutPage hp.1 hp.2
  split
  · next hp => exact h.withPage hp.1 hp.2
  · rename_i hdrop hadd
    refine ⟨fun q hq => ?_, h.bytes, h.net⟩
    by_cases heq : q = p
    · subst heq
      constructor
      · intro hc
        exact not_not.1 fun hnot => hdrop ⟨hnot, hc⟩
      · intro hshould
        exact not_not.1 fun hnot => hadd ⟨hshould, hnot⟩
    · exact h.pages q fun hmem => (mem_cons.1 hmem).elim heq hq

/-- Checking all the pages that are still to be checked. -/
theorem Counted.checkAll (h : Counted s base stale) : Counted (stale.foldl PagesUsed.checkPageState s) base [] ∧
      SameTables s (stale.foldl PagesUsed.checkPageState s) := by
  induction stale generalizing s with
  | nil => exact ⟨h, .refl s⟩
  | cons p stale ih =>
    obtain ⟨hc, hsame⟩ := ih h.checkPageState
    exact ⟨hc, sameTables_checkPageState.trans hsame⟩

/-- The tables of a group hold what it uses, but for dropped pages, of which they hold none. -/
structure Holds (s : PagesUsed G) (u : Usage G) : Prop where
  touched : ∀ p ∉ s.mPagesDroppedAcrossEntireSystem, p ∈ s.mPagesTouchedBySelf ↔ p ∈ u.touched
  held : ∀ c, ∀ p ∉ s.mPagesDroppedAcrossEntireSystem, s.mPagesByChild.contains c p ↔ p ∈ u.held c
  notTouched : ∀ p ∈ s.mPagesDroppedAcrossEntireSystem, p ∉ s.mPagesTouchedBySelf
  notHeld : ∀ c, ∀ p ∈ s.mPagesDroppedAcrossEntireSystem, ¬ s.mPagesByChild.contains c p

variable {u : Usage G}

theorem Holds.congr (h : Holds s u) (hs : SameTables s s') : Holds s' u where
  touched := by
    rw [hs.dropped, hs.touched]
    exact h.touched
  held := by
    rw [hs.dropped, hs.byChild]
    exact h.held
  notTouched := by
    rw [hs.dropped, hs.touched]
    exact h.notTouched
  notHeld := by
    rw [hs.dropped, hs.byChild]
    exact h.notHeld

/-- Everything that is kept of the pages of a group. -/
structure Fits (s : PagesUsed G) (u : Usage G) (base : Finset PageId) : Prop where
  holds : Holds s u
  counted : Counted s base []

/-- A call leaves the pages of a group fitting what the group uses then, and those of others alone. -/
structure Called (s s' : PagesUsed G) (u : Usage G) (base : Finset PageId) : Prop where
  fits : Fits s' u base
  others : SameOthers s s'

/-- What a group uses matters up to dropped pages. -/
theorem Holds.of_usage {u' : Usage G} (h : Holds s u)
    (ht : ∀ p ∉ s.mPagesDroppedAcrossEntireSystem, p ∈ u'.touched ↔ p ∈ u.touched)
    (hh : ∀ c, ∀ p ∉ s.mPagesDroppedAcrossEntireSystem, p ∈ u'.held c ↔ p ∈ u.held c) :
    Holds s u' where
  touched p hp := (h.touched p hp).trans (ht p hp).symm
  held c p hp := (h.held c p hp).trans (hh c p hp).symm
  notTouched := h.notTouched
  notHeld := h.notHeld

/-- A call that leaves everything as it is. -/
theorem Fits.same {u' : Usage G} (h : Fits s u base)
    (ht : ∀ p ∉ s.mPagesDroppedAcrossEntireSystem, p ∈ u'.touched ↔ p ∈ u.touched)
    (hh : ∀ c, ∀ p ∉ s.mPagesDroppedAcrossEntireSystem, p ∈ u'.held c ↔ p ∈ u.held c) :
    Called s s u' base := ⟨⟨h.holds.of_usage ht hh, h.counted⟩, .refl s⟩

/-- The tables of a group are updated, and the pages that this concerns are checked. -/
theorem Fits.checkAll {touched : Finset PageId} {byChild : TwoWaySetMap G PageId}
    {u' : Usage G} (h : Fits s u base)
    (hholds : Holds { s with mPagesTouchedBySelf := touched, mPagesByChild := byChild } u')
    (hstale : ∀ p ∉ stale, p ∈ touched ∨ byChild.hasValue p ↔ p ∈ s.mPagesTouchedBySelf ∨ s.mPagesByChild.hasValue p) :
    Called s (stale.foldl checkPageState
      { s with mPagesTouchedBySelf := touched, mPagesByChild := byChild }) u' base := by
  have hcounted : Counted { s with mPagesTouchedBySelf := touched, mPagesByChild := byChild } base
      stale := by
    refine ⟨fun p hp => ?_, h.counted.bytes, h.counted.net⟩
    exact (h.counted.pages p not_mem_nil).trans (and_congr_left' (hstale p hp)).symm
  obtain ⟨hc, hsame⟩ := hcounted.checkAll
  exact ⟨⟨hholds.congr hsame, hc⟩, ⟨hsame.group, hsame.dropped, hsame.others⟩⟩

theorem mem_update_held {held : G → Set PageId} {g c : G} {pages : Set PageId} :
    p ∈ update held g pages c ↔ if c = g then p ∈ pages else p ∈ held c := by
  rw [update_apply]
  split <;> rfl

section

variable (h : Fits s u base)
include h

theorem Fits.addChildPage (group : G) (page : PageId) :
    Called s (s.addChildPage group page) (u.after (.addChildPage group page)) base := by
  unfold PagesUsed.addChildPage
  split
  · rename_i hdropped
    refine h.same (fun p hp => Iff.rfl) fun c p hp => mem_update_held.trans ?_
    have hne : p ≠ page := fun heq => hp (heq ▸ hdropped)
    split
    · subst c
      exact or_iff_right hne
    · rfl
  rename_i hdropped
  split
  · rename_i hheld
    refine h.same (fun p hp => Iff.rfl) fun c p hp => mem_update_held.trans ?_
    split
    · subst c
      refine or_iff_right_of_imp fun heq => ?_
      rw [heq]
      exact (h.holds.held group page hdropped).1 hheld
    · rfl
  · refine @checkAll _ _ _ _ [page] _ _ _ _ h ⟨h.holds.touched, fun c p hp => ?_, h.holds.notTouched,
      fun c p hp hc => ?_⟩ fun p hp => or_congr_right ?_
    · refine contains_insert.trans (Iff.trans ?_ mem_update_held.symm)
      have hheld := h.holds.held c p hp
      split
      · subst c
        rw [and_iff_right rfl]
        exact or_congr_right hheld
      · rename_i hne
        rw [hheld]
        exact or_iff_right fun heq => hne heq.1
    · obtain ⟨rfl, rfl⟩ | hc := contains_insert.1 hc
      · exact hdropped hp
      · exact h.holds.notHeld c p hp hc
    · rw [hasValue_iff, hasValue_iff]
      refine exists_congr fun c => contains_insert.trans (or_iff_right fun heq => hp ?_)
      exact List.mem_singleton.2 heq.2

theorem Fits.dropChildPage (group : G) (page : PageId) :
    Called s (s.dropChildPage group page) (u.after (.dropChildPage group page)) base := by
  unfold PagesUsed.dropChildPage
  split
  · rename_i hdropped
    refine h.same (fun p hp => Iff.rfl) fun c p hp => mem_update_held.trans ?_
    have hne : p ≠ page := fun heq => hp (heq ▸ hdropped)
    split
    · subst c
      exact and_iff_left hne
    · rfl
  split
  · rename_i hheld
    refine h.same (fun p hp => Iff.rfl) fun c p hp => mem_update_held.trans ?_
    split
    · subst c
      refine and_iff_left_of_imp fun hmem heq => hheld ?_
      rw [← Set.mem_singleton_iff.1 heq]
      exact (h.holds.held group p hp).2 hmem
    · rfl
  · refine @checkAll _ _ _ _ [page] _ _ _ _ h ⟨h.holds.touched, fun c p hp => ?_, h.holds.notTouched,
      fun c p hp hc => ?_⟩ fun p hp => or_congr_right ?_
    · refine contains_drop.trans (Iff.trans ?_ mem_update_held.symm)
      have hheld := h.holds.held c p hp
      split
      · subst c
        rw [and_iff_right rfl]
        exact and_congr_left' hheld
      · rename_i hne
        rw [hheld]
        exact and_iff_left fun heq => hne heq.1
    · exact h.holds.notHeld c p hp (contains_drop.1 hc).1
    · rw [hasValue_iff, hasValue_iff]
      refine exists_congr fun c => contains_drop.trans (and_iff_left fun heq => hp ?_)
      exact List.mem_singleton.2 heq.2

theorem Fits.insertTouched {page : PageId} (hdropped : page ∉ s.mPagesDroppedAcrossEntireSystem) :
    Called s (s.insertTouched page) { u with touched := insert page u.touched } base := by
  refine @checkAll _ _ _ _ [page] _ _ _ _ h ⟨fun p hp => ?_, h.holds.held, fun p hp hmem => ?_,
    h.holds.notHeld⟩ fun p hp => or_congr_left ?_
  · exact mem_insert.trans (or_congr_right (h.holds.touched p hp))
  · obtain rfl | hmem := mem_insert.1 hmem
    · exact hdropped hp
    · exact h.holds.notTouched p hp hmem
  · exact mem_insert.trans (or_iff_right fun heq => hp (List.mem_singleton.2 heq))

theorem Fits.touchPageForSelf (page : PageId) :
    Called s (s.touchPageForSelf page) (u.after (.touchPageForSelf page)) base := by
  unfold PagesUsed.touchPageForSelf
  split
  · next hdropped => exact h.same (fun p hp => or_iff_right fun heq => hp (heq ▸ hdropped)) fun c p hp => Iff.rfl
  rename_i hdropped
  split
  · rename_i htouched
    refine h.same (fun p hp => or_iff_right_of_imp fun heq => ?_) fun c p hp => Iff.rfl
    rw [heq]
    exact (h.holds.touched page hdropped).1 htouched
  · exact h.insertTouched hdropped

/-- Pages that are not dropped are touched, one after the other. -/
theorem Fits.touchAll {l : List PageId} (hl : ∀ p ∈ l, p ∉ s.mPagesDroppedAcrossEntireSystem) :
    Called s (l.foldl PagesUsed.insertTouched s) { u with touched := u.touched ∪ {p | p ∈ l} } base := by
  induction l generalizing s u with
  | nil => exact h.same (fun p hp => or_iff_left not_mem_nil) fun c p hp => Iff.rfl
  | cons page l ih =>
    obtain ⟨hpage, hl⟩ := forall_mem_cons.1 hl
    have hinsert := h.insertTouched hpage
    obtain ⟨hfits, hothers⟩ := ih hinsert.fits fun p hp => by
      rw [hinsert.others.dropped]
      exact hl p hp
    refine ⟨⟨hfits.holds.of_usage (fun p hp => ?_) fun c p hp => Iff.rfl, hfits.counted⟩, hinsert.others.trans hothers⟩
    show p ∈ u.touched ∨ p ∈ page :: l ↔ (p = page ∨ p ∈ u.touched) ∨ p ∈ l
    rw [List.mem_cons, or_left_comm, or_assoc]

theorem Fits.touchChildPagesForSelf (child : G) :
    Called s (s.touchChildPagesForSelf child) (u.after (.touchChildPagesForSelf child)) base := by
  obtain ⟨hfits, hothers⟩ := h.touchAll (l := ascending (s.mPagesByChild.getValues child))
    fun p hp hdropped => h.holds.notHeld child p hdropped (mem_ascending.1 hp)
  refine ⟨⟨hfits.holds.of_usage (fun p hp => or_congr_right ?_) fun c p hp => Iff.rfl, hfits.counted⟩, hothers⟩
  rw [hothers.dropped] at hp
  exact (h.holds.held child p hp).symm.trans mem_ascending.symm

theorem Fits.dropChild (thread : G) : Called s (s.dropChild thread) (u.after (.dropChild thread)) base := by
  refine h.checkAll ⟨h.holds.touched, fun c p hp => ?_, h.holds.notTouched, fun c p hp hc => ?_⟩
    fun p hp => or_congr_right ?_
  · refine contains_dropKey.trans (Iff.trans ?_ mem_update_held.symm)
    split
    · next heq => exact iff_of_false (fun hc => hc.2 heq) fun hmem => hmem.elim
    · next hne => exact (and_iff_left hne).trans (h.holds.held c p hp)
  · exact h.holds.notHeld c p hp (contains_dropKey.1 hc).1
  · rw [hasValue_iff, hasValue_iff]
    refine exists_congr fun c => contains_dropKey.trans (and_iff_left_of_imp ?_)
    intro hc heq
    exact hp (mem_ascending.2 (heq ▸ hc))

theorem Fits.resetOwnTouchedPages : Called s s.resetOwnTouchedPages (u.after .resetOwnTouchedPages) base := by
  refine h.checkAll ⟨fun p hp => ?_, h.holds.held, fun p hp => notMem_empty p,
    h.holds.notHeld⟩ fun p hp => or_congr_left ?_
  · exact iff_of_false (notMem_empty p) fun hmem => hmem.elim
  · exact iff_of_false (notMem_empty p) fun hmem => hp (mem_ascending.2 hmem)

end

/-- What a call leaves reproduced. -/
def baseAfter (s : PagesUsed G) (base : Finset PageId) : Call G → Finset PageId
  | .extractAddedAndDropped => s.changes.apply base
  | _ => base

theorem Fits.extractAddedAndDropped (h : Fits s u base) :
    Called s s.extractAddedAndDropped.2 u (s.changes.apply base) := by
  refine ⟨⟨⟨h.holds.touched, h.holds.held, h.holds.notTouched, h.holds.notHeld⟩, h.counted.pages,
    h.counted.bytes, fun p hp => ?_⟩, rfl, rfl, fun _ _ => rfl⟩
  exact Changes.netAt_of_eq (h.counted.net p hp).mem_apply

/-- Every call keeps the pages of a group fitting. -/
theorem Fits.call (h : Fits s u base) (call : Call G) :
    Called s (s.call call) (u.after call) (s.baseAfter base call) := by
  cases call with
  | addChildPage group page => exact h.addChildPage group page
  | dropChildPage group page => exact h.dropChildPage group page
  | touchPageForSelf page => exact h.touchPageForSelf page
  | touchChildPagesForSelf child => exact h.touchChildPagesForSelf child
  | dropChild thread => exact h.dropChild thread
  | resetOwnTouchedPages => exact h.resetOwnTouchedPages
  | extractAddedAndDropped => exact h.extractAddedAndDropped

/-- A page is dropped that the group does not use. -/
theorem Fits.dropUnused (h : Fits s u base) {page : PageId} (hnot : ¬ s.mPageMapping.contains s.mGroup page) :
    Fits { s with
      mPagesDroppedAcrossEntireSystem := insert page s.mPagesDroppedAcrossEntireSystem } u base := by
  have hshould : ¬ s.shouldStillBeReferenced page := fun hs =>
    hnot ((h.counted.pages page not_mem_nil).2 hs)
  have hold {q : PageId} (hq : q ∉ insert page s.mPagesDroppedAcrossEntireSystem) :
      q ∉ s.mPagesDroppedAcrossEntireSystem := fun hmem => hq (mem_insert_of_mem hmem)
  refine ⟨⟨fun q hq => h.holds.touched q (hold hq), fun c q hq => h.holds.held c q (hold hq),
    fun q hq hmem => ?_, fun c q hq hmem => ?_⟩, fun q _ => ?_, h.counted.bytes,
    fun q hq => h.counted.net q (hold hq)⟩
  · by_cases hd : q ∈ s.mPagesDroppedAcrossEntireSystem
    · exact h.holds.notTouched q hd hmem
    · obtain rfl := (mem_insert.1 hq).resolve_right hd
      exact hshould ⟨.inl hmem, hd⟩
  · by_cases hd : q ∈ s.mPagesDroppedAcrossEntireSystem
    · exact h.holds.notHeld c q hd hmem
    · obtain rfl := (mem_insert.1 hq).resolve_right hd
      exact hshould ⟨.inr (hasValue_iff.2 ⟨c, hmem⟩), hd⟩
  · refine (h.counted.pages q not_mem_nil).trans ?_
    refine ⟨fun hs => ⟨hs.1, fun hmem => ?_⟩, fun hs => ⟨hs.1, hold hs.2⟩⟩
    obtain rfl | hmem := mem_insert.1 hmem
    · exact hshould hs
    · exact hs.2 hmem

/-- A page is dropped that the group uses. -/
theorem Fits.dropUsed (h : Fits s u base) {page : PageId} (hp : s.mPageMapping.contains s.mGroup page) :
    Fits (dropPageAcrossSystem { s with
      mPagesDroppedAcrossEntireSystem := insert page s.mPagesDroppedAcrossEntireSystem } page)
      u base := by
  have hnew {q : PageId} (hq : q ∉ insert page s.mPagesDroppedAcrossEntireSystem) :
      q ≠ page ∧ q ∉ s.mPagesDroppedAcrossEntireSystem :=
    ⟨fun heq => hq (heq ▸ mem_insert_self _ _), fun hmem => hq (mem_insert_of_mem hmem)⟩
  constructor
  case holds =>
    constructor
    case touched =>
      intro q hq
      obtain ⟨hne, hq⟩ := hnew hq
      exact mem_erase.trans ((and_iff_right hne).trans (h.holds.touched q hq))
    case held =>
      intro c q hq
      obtain ⟨hne, hq⟩ := hnew hq
      exact contains_dropValue.trans ((and_iff_left hne).trans (h.holds.held c q hq))
    case notTouched =>
      intro q hq hmem
      obtain ⟨hne, hmem⟩ := mem_erase.1 hmem
      exact h.holds.notTouched q ((mem_insert.1 hq).resolve_left hne) hmem
    case notHeld =>
      intro c q hq hmem
      obtain ⟨hmem, hne⟩ := contains_dropValue.1 hmem
      exact h.holds.notHeld c q ((mem_insert.1 hq).resolve_left hne) hmem
  case counted =>
    constructor
    case pages =>
      intro q _
      refine contains_drop.trans ?_
      by_cases hne : q = page
      · subst hne
        exact iff_of_false (fun hc => hc.2 ⟨rfl, rfl⟩) fun hs => hs.2 (mem_insert_self _ _)
      · refine (and_iff_left fun hc => hne hc.2).trans
          ((h.counted.pages q not_mem_nil).trans (and_congr (or_congr ?_ ?_) (not_congr ?_)))
        · exact (mem_erase.trans (and_iff_right hne)).symm
        · rw [hasValue_iff, hasValue_iff]
          refine exists_congr fun c => ?_
          exact (contains_dropValue.trans (and_iff_left hne)).symm
        · exact (mem_insert.trans (or_iff_right hne)).symm
    case bytes =>
      show (if s.mPageMapping.contains s.mGroup page then s.mTotalBytes - page.bytecount
        else s.mTotalBytes) = (s.mPageMapping.drop s.mGroup page).bytesOf s.mGroup
      rw [if_pos hp, bytesOf_drop hp, if_pos rfl, h.counted.bytes]
    case net =>
      intro q hq
      obtain ⟨hne, hq⟩ := hnew hq
      show (s.changes.forget page).NetAt base ((s.mPageMapping.drop s.mGroup page).getValues s.mGroup) q
      rw [getValues_drop, if_pos rfl]
      exact (h.counted.net q hq).forget hne

end PagesUsed

end Cumulus.SystemwideComputationScheduler
