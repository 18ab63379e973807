import Ufora.Lib.Run
import Ufora.Pages.PageRefcountTracker

/-!
# Unpinning among `ActivePageSynchronizerImpl`s

`cumulus/SystemwideComputationScheduler/ActivePageSynchronizerImpl.cppml`: a machine that does not
want a page any more asks a machine that has the page pinned whether it may unpin its own copy.
Messages are delivered in any order. What a machine's systemwide tracker says is its own: which pages
are on a disk somewhere it has learned from the events of other machines, and the machine that it
picks among those that have a page pinned is any other one, or none. Writing pages to disk, in the
background, and loading pages are steps of their own.
-/

open PageRefcountTracker

namespace Cumulus

open Fora Ordered Effect

/-- What a `PageRefcountTracker` keeps of the pages in RAM and on disk. -/
structure PagePins where
  mPagesInRam : Finset PageId := ∅
  mPagesUnpinned : Finset PageId := ∅
  mPagesOnDisk : Finset PageId := ∅

namespace PagePins

variable (s : PagePins) (inPage : PageId)

/-- `pageIsInRamAndPinned(inPage)`. -/
def pageIsInRamAndPinned : Bool := inPage ∈ s.mPagesInRam ∧ inPage ∉ s.mPagesUnpinned

/-- `pageIsInRamAndUnpinned(inPage)`. -/
def pageIsInRamAndUnpinned : Bool := inPage ∈ s.mPagesInRam ∧ inPage ∈ s.mPagesUnpinned

/-- `pageMarkedUnpinned(inPage)`. -/
def pageMarkedUnpinned : PagePins :=
  if s.pageIsInRamAndPinned inPage then { s with mPagesUnpinned := insert inPage s.mPagesUnpinned }
  else s

/-- `pageMarkedPinned(inPage)`. -/
def pageMarkedPinned : PagePins :=
  if s.pageIsInRamAndUnpinned inPage then { s with mPagesUnpinned := s.mPagesUnpinned.erase inPage }
  else s

/-- The state that `pinPageIfInRAM(inPage)` leaves; it returns whether the page is in RAM. -/
def pinPageIfInRAM : PagePins :=
  if inPage ∉ s.mPagesInRam then s else s.pageMarkedPinned inPage

/-- `pageAddedToRAM(inPage, …)`. -/
def pageAddedToRAM : PagePins :=
  if inPage ∈ s.mPagesInRam then s
  else
    { s with
      mPagesInRam := insert inPage s.mPagesInRam
      mPagesUnpinned := s.mPagesUnpinned.erase inPage }

/-- `pageDroppedFromRam(inPage)`. -/
def pageDroppedFromRam : PagePins :=
  if inPage ∉ s.mPagesInRam then s
  else
    { s with
      mPagesUnpinned := s.mPagesUnpinned.erase inPage
      mPagesInRam := s.mPagesInRam.erase inPage }

/-- `pageSentToDisk(inPage, …)`. -/
def pageSentToDisk : PagePins := { s with mPagesOnDisk := insert inPage s.mPagesOnDisk }

/-- `getCopyOfPinnedPages()`. -/
def getCopyOfPinnedPages : Finset PageId := s.mPagesInRam \ s.mPagesUnpinned

end PagePins

/-- The pages in RAM and on disk of a tracker. -/
def PagePins.ofTracker (s : PageRefcountTracker) : PagePins where
  mPagesInRam := s.mPagesInRam
  mPagesUnpinned := s.mPagesUnpinned
  mPagesOnDisk := s.mPagesOnDisk

/-- A call of a tracker, whether it returns or throws, does to the pages in RAM and on disk what `f`
does. -/
def PagePins.OfCall {α : Type} (x : Action α) (f : PagePins → PagePins) : Prop :=
  ∀ s, wp x (fun _ s' => ofTracker s' = f (ofTracker s)) (fun _ s' => ofTracker s' = f (ofTracker s)) s

namespace PagePins

variable {page : PageId}

theorem ofTracker_of_refcountsOnly {s s' : PageRefcountTracker}
    (h : RefcountsOnly s s') : ofTracker s' = ofTracker s := by
  obtain ⟨refcounts, events, count, -, rfl⟩ := h
  rfl

theorem ofCall_pageMarkedUnpinned :
    OfCall (PageRefcountTracker.pageMarkedUnpinned page) (·.pageMarkedUnpinned page) := by
  intro s
  simp only [PageRefcountTracker.pageMarkedUnpinned, broadcastEvent_, wp_bind, wp_get, wp_modify, wp_ite, wp_pure]
  split
  · next h => simp [pageMarkedUnpinned, pageIsInRamAndPinned, ofTracker, h]
  · next h => simp [pageMarkedUnpinned, pageIsInRamAndPinned, ofTracker, not_not.1 h]

theorem ofCall_pageMarkedPinned : OfCall (PageRefcountTracker.pageMarkedPinned page) (·.pageMarkedPinned page) := by
  intro s
  simp only [PageRefcountTracker.pageMarkedPinned, broadcastEvent_, wp_bind, wp_get, wp_modify, wp_ite, wp_pure]
  split
  · next h => simp [pageMarkedPinned, pageIsInRamAndUnpinned, ofTracker, h]
  · next h => simp [pageMarkedPinned, pageIsInRamAndUnpinned, ofTracker, not_not.1 h]

theorem ofCall_pinPageIfInRAM : OfCall (PageRefcountTracker.pinPageIfInRAM page) (·.pinPageIfInRAM page) := by
  intro s
  have hpinned := @ofCall_pageMarkedPinned page s
  simp only [PageRefcountTracker.pinPageIfInRAM, wp_bind, wp_get, wp_ite, wp_pure]
  split
  · next h => simp [pinPageIfInRAM, ofTracker, h]
  · rename_i h
    have hpin : (ofTracker s).pinPageIfInRAM page = (ofTracker s).pageMarkedPinned page := if_neg h
    rw [hpin]
    exact hpinned

theorem ofCall_pageAddedToRAM {referencedBigvecs : Finset BigVectorId} :
    OfCall (PageRefcountTracker.pageAddedToRAM page referencedBigvecs) (·.pageAddedToRAM page) := by
  intro s
  simp only [PageRefcountTracker.pageAddedToRAM, broadcastEvent_, wp_bind, wp_get, wp_modify, wp_ite, wp_pure]
  split
  · next h => simp [pageAddedToRAM, ofTracker, h]
  · rename_i h
    refine (wp_forM_incref_ _).mono (fun _ _ hs => (ofTracker_of_refcountsOnly hs.1).trans ?_)
      fun _ _ hs => (ofTracker_of_refcountsOnly hs.1).trans ?_
    all_goals simp [pageAddedToRAM, ofTracker, h]

theorem ofCall_pageNotInRamOrOnDisk_ : OfCall (pageNotInRamOrOnDisk_ page) id := by
  intro s
  simp only [pageNotInRamOrOnDisk_, wp_bind, wp_get, wp_modify]
  refine (wp_forM_decref_ _).mono (fun _ _ hs => ?_) fun _ _ hs => ?_
  · have hpins := ofTracker_of_refcountsOnly hs.1
    exact hpins
  · have hpins := ofTracker_of_refcountsOnly hs.1
    exact hpins

theorem ofCall_pageDroppedFromRam :
    OfCall (PageRefcountTracker.pageDroppedFromRam page) (·.pageDroppedFromRam page) := by
  intro s
  simp only [PageRefcountTracker.pageDroppedFromRam, broadcastEvent_, wp_bind, wp_get, wp_modify, wp_ite, wp_pure]
  split
  · next h => simp [pageDroppedFromRam, ofTracker, h]
  · rename_i h
    have hdrop : (ofTracker s).pageDroppedFromRam page =
        ⟨s.mPagesInRam.erase page, s.mPagesUnpinned.erase page, s.mPagesOnDisk⟩ := if_neg h
    rw [hdrop]
    split
    all_goals
      split
      · exact ofCall_pageNotInRamOrOnDisk_ _
      · rfl

theorem ofCall_pageSentToDisk {referencedBigvecs : Finset BigVectorId} :
    OfCall (PageRefcountTracker.pageSentToDisk page referencedBigvecs) (·.pageSentToDisk page) := by
  intro s
  simp only [PageRefcountTracker.pageSentToDisk, broadcastEvent_, wp_bind, wp_get,
    wp_modify, wp_ite, wp_pure, wp_lassert]
  split
  · next h => simp [pageSentToDisk, ofTracker, h]
  · split
    · split <;> rfl
    · rfl

theorem ofCall_pageDroppedFromDisk : OfCall (pageDroppedFromDisk page)
    fun s => { s with mPagesOnDisk := s.mPagesOnDisk.erase page } := by
  intro s
  simp only [pageDroppedFromDisk, broadcastEvent_, wp_bind, wp_get, wp_modify, wp_ite, wp_pure]
  split
  · next h => simp [ofTracker, h]
  · split
    · exact ofCall_pageNotInRamOrOnDisk_ _
    · rfl

/-- What a call does to the pages in RAM and on disk. -/
def call : Op → PagePins → PagePins
  | .pageAddedToRAM inPage _, s => s.pageAddedToRAM inPage
  | .pageSentToDisk inPage _, s => s.pageSentToDisk inPage
  | .pageDroppedFromRam inPage, s => s.pageDroppedFromRam inPage
  | .pageDroppedFromDisk inPage, s => { s with mPagesOnDisk := s.mPagesOnDisk.erase inPage }
  | .pageMarkedUnpinned inPage, s => s.pageMarkedUnpinned inPage
  | .pageMarkedPinned inPage, s => s.pageMarkedPinned inPage
  | .pinPageIfInRAM inPage, s => s.pinPageIfInRAM inPage
  | _, s => s

theorem ofCall_call (op : PageRefcountTracker.Op) : OfCall (PageRefcountTracker.call op) (call op) := by
  intro s
  have hincref (t : PageRefcountTracker) (v : BigVectorId) (ht : ofTracker t = ofTracker s) :
      wp (incref_ v) (fun _ s' => ofTracker s' = ofTracker s) (fun _ s' => ofTracker s' = ofTracker s) t :=
    wp_incref_.mono (fun _ _ h => (ofTracker_of_refcountsOnly h.1).trans ht)
      fun _ _ h => (ofTracker_of_refcountsOnly h.1).trans ht
  cases op with
  | pageAddedToRAM p refs => exact ofCall_pageAddedToRAM s
  | pageSentToDisk p refs => exact ofCall_pageSentToDisk s
  | pageDroppedFromRam p => exact ofCall_pageDroppedFromRam s
  | pageDroppedFromDisk p => exact ofCall_pageDroppedFromDisk s
  | pageMarkedUnpinned p => exact ofCall_pageMarkedUnpinned s
  | pageMarkedPinned p => exact ofCall_pageMarkedPinned s
  | pinPageIfInRAM p => exact (wp_bind _ _).2 (ofCall_pinPageIfInRAM s)
  | bigVectorIncreffed v => exact hincref s v rfl
  | bigVectorDecreffed v =>
    exact wp_decref_.mono (fun _ _ h => ofTracker_of_refcountsOnly h.1) fun _ _ h => ofTracker_of_refcountsOnly h.1
  | bigVectorHeldInPersistentCache v =>
    simp only [PageRefcountTracker.call, PageRefcountTracker.bigVectorHeldInPersistentCache, wp_bind, wp_get, wp_modify,
      wp_ite, wp_pure]
    split
    · rfl
    · exact hincref _ v rfl
  | _ =>
    simp [PageRefcountTracker.call, pageReferencedInByBigvecLoadedFromPersistentCache, markPageAsNotLoadable,
      PageRefcountTracker.broadcastBigvecsInFlight, executionIsBlockedChanged, totalMemoryUsageChanged,
      createSyntheticPage, realizeSyntheticPage, sendCurrentState, bigVectorLayoutIncreffed, broadcastEvent_, call,
      ofTracker]

/-- After any calls on a tracker, also such that throw, the pages in RAM and on disk are those of the calls made on
these pages alone. -/
theorem ofTracker_calls (ops : List Op) (s : PageRefcountTracker) :
    ofTracker (ops.foldl (fun s op => exec (PageRefcountTracker.call op) s) s) =
      ops.foldl (fun s op => call op s) (ofTracker s) := by
  induction ops generalizing s with
  | nil => rfl
  | cons op ops ih => rw [List.foldl_cons, ih, (ofCall_call op s).exec, List.foldl_cons]

end PagePins

/-- `ActivePageSynchronizerToSynchronizerMessageContents`. -/
inductive UnpinContents where
  | UnpinRequest (pageId : PageId)
  | UnpinResponse (pageId : PageId) (mayUnpin : Bool)
  deriving DecidableEq

/-- `ActivePageSynchronizerToSynchronizerMessage`. -/
structure UnpinMessage (MachineId : Type) where
  sourceMachine : MachineId
  destMachine : MachineId
  contents : UnpinContents
  deriving DecidableEq

/-- What an `ActivePageSynchronizerImpl` keeps about pins, and the machine's trackers. -/
structure PageSynchronizer (MachineId : Type) [DecidableEq MachineId] where
  mPendingUnpinRequests : MapWithIndex PageId MachineId := ∅
  mSchedulerTargetPages : Finset PageId := ∅
  mSchedulerCurrentPages : Finset PageId := ∅
  mSchedulerActivePages : Finset PageId := ∅
  mDesiredPages : Finset PageId := ∅
  mPagesDroppedAcrossEntireSystem : Finset PageId := ∅
  mPageRefcountTracker : PagePins := {}
  /-- The pages for which `isPageAnywhereOnDisk` of `mSystemwidePageRefcountTracker` is true. -/
  pagesAnywhereOnDisk : Finset PageId := ∅

/-- All machines, and the messages that are in flight. -/
structure PageSynchronizers (MachineId : Type) [DecidableEq MachineId] where
  machines : MachineId → PageSynchronizer MachineId
  messages : List (UnpinMessage MachineId) := []

namespace PageSynchronizers

variable {MachineId : Type} [DecidableEq MachineId] (s : PageSynchronizers MachineId)

variable (own : MachineId)

/-- A machine changes. -/
def modify (f : PageSynchronizer MachineId → PageSynchronizer MachineId) : PageSynchronizers MachineId := { s with
    machines := Function.update s.machines own (f (s.machines own)) }

/-- The pages that a machine has change. -/
def modifyPins (f : PagePins → PagePins) : PageSynchronizers MachineId :=
  s.modify own fun m => { m with mPageRefcountTracker := f m.mPageRefcountTracker }

/-- `sendSynchronizerToSynchronizerMessage(msg)`. -/
def sendSynchronizerToSynchronizerMessage (msg : UnpinMessage MachineId) : PageSynchronizers MachineId :=
  { s with messages := s.messages ++ [msg] }

/-- `mVDM->dropPageWithoutWritingToDisk(page)`, which may fail. -/
def dropPageWithoutWritingToDisk (page : PageId) (success : Bool) : PageSynchronizers MachineId :=
  if success then s.modifyPins own (·.pageDroppedFromRam page) else s

/-- `tryToUnpinPage_(page)`, with the machine that is picked. -/
def tryToUnpinPage_ (page : PageId) (picked : Option MachineId) : PageSynchronizers MachineId :=
  let m := s.machines own
  if m.mPendingUnpinRequests.hasKey page then s
  else if page ∈ m.pagesAnywhereOnDisk ∧ page ∈ m.mSchedulerCurrentPages ∧ page ∉ m.mSchedulerActivePages then
    s.modifyPins own (·.pageMarkedUnpinned page)
  else
    match picked.filter (· ≠ own) with
    | none => s
    | some machine =>
      (s.modify own fun m =>
        { m with mPendingUnpinRequests := m.mPendingUnpinRequests.set page machine }
        ).sendSynchronizerToSynchronizerMessage ⟨own, machine, .UnpinRequest page⟩

/-- `checkIfPageWantsToBeUnpinnedLocally_(page)`. -/
def checkIfPageWantsToBeUnpinnedLocally_
    (page : PageId) (picked : Option MachineId) : PageSynchronizers MachineId :=
  let m := s.machines own
  if page ∉ m.mDesiredPages ∧ m.mPageRefcountTracker.pageIsInRamAndPinned page then
    s.tryToUnpinPage_ own page picked
  else s

/-- The case of `UnpinResponse` in `handleSynchronizerToSynchronizerMessage(message)`. -/
def handleUnpinResponse (sourceMachine : MachineId)
    (pageId : PageId) (mayUnpin : Bool) (picked : Option MachineId) (success : Bool) :
    PageSynchronizers MachineId :=
  if (s.machines own).mPendingUnpinRequests.tryGetValue pageId ≠ some sourceMachine then s
  else
    let s := s.modify own fun m =>
      { m with mPendingUnpinRequests := m.mPendingUnpinRequests.discard pageId }
    if mayUnpin then
      let s := s.modifyPins own (·.pageMarkedUnpinned pageId)
      if pageId ∉ (s.machines own).mDesiredPages ∧
          (s.machines own).mPageRefcountTracker.pageIsInRamAndUnpinned pageId then
        s.dropPageWithoutWritingToDisk own pageId success
      else s
    else
      let s := s.modifyPins own (·.pageMarkedPinned pageId)
      if pageId ∉ (s.machines own).mDesiredPages then
        s.tryToUnpinPage_ own pageId picked
      else s

/-- The case of `UnpinRequest` in `handleSynchronizerToSynchronizerMessage(message)`. -/
def handleUnpinRequest (sourceMachine : MachineId) (pageId : PageId) : PageSynchronizers MachineId :=
  let m := s.machines own
  let respond (s : PageSynchronizers MachineId) (mayUnpin : Bool) := s.sendSynchronizerToSynchronizerMessage
      ⟨own, sourceMachine, .UnpinResponse pageId mayUnpin⟩
  if m.mPendingUnpinRequests.hasKey pageId then respond s false
  else if pageId ∉ m.mPageRefcountTracker.mPagesInRam then respond s false
  else respond (s.modifyPins own (·.pinPageIfInRAM pageId)) true

/-- A message that is in flight is handled. -/
def handleSynchronizerToSynchronizerMessage
    (message : UnpinMessage MachineId) (picked : Option MachineId) (success : Bool) :
    PageSynchronizers MachineId :=
  if message ∈ s.messages then
    let s := { s with messages := s.messages.erase message }
    match message.contents with
    | .UnpinRequest pageId => s.handleUnpinRequest message.destMachine message.sourceMachine pageId
    | .UnpinResponse pageId mayUnpin =>
      s.handleUnpinResponse message.destMachine message.sourceMachine pageId mayUnpin picked success
  else s

/-- `handleSetDesiredContents_(targetPages, currentPages, activePages, …)`, with the machines that
are picked and the drops that succeed. -/
def handleSetDesiredContents_
    (targetPages currentPages activePages : Finset PageId) (picked : PageId → Option MachineId)
    (success : PageId → Bool) : PageSynchronizers MachineId :=
  let s := s.modify own fun m =>
    { m with
      mSchedulerTargetPages := targetPages
      mSchedulerCurrentPages := currentPages
      mSchedulerActivePages := activePages
      mDesiredPages := targetPages }
  let s := (ascending (s.machines own).mPageRefcountTracker.getCopyOfPinnedPages).foldl
    (fun s page =>
      if page ∉ targetPages then s.tryToUnpinPage_ own page (picked page) else s) s
  let s := (ascending targetPages).foldl
    (fun s page => s.modifyPins own (·.pinPageIfInRAM page)) s
  (ascending (s.machines own).mPageRefcountTracker.mPagesInRam).foldl
    (fun s page =>
      let m := s.machines own
      if page ∉ targetPages ∧ page ∈ currentPages ∧ (m.mPageRefcountTracker.pageIsInRamAndUnpinned page ∨
            page ∈ m.mPagesDroppedAcrossEntireSystem) then
        s.dropPageWithoutWritingToDisk own page (success page)
      else s) s

/-- What may happen at a machine. -/
inductive Step (MachineId : Type) where
  | SetDesiredContents (own : MachineId)
    (targetPages currentPages activePages : Finset PageId) (picked : PageId → Option MachineId)
    (success : PageId → Bool)
  | deliver (message : UnpinMessage MachineId) (picked : Option MachineId) (success : Bool)
  /-- The event `PageAddedToRam(page)` of some machine is consumed. -/
  | PageAddedToRam (own : MachineId) (page : PageId) (picked : Option MachineId)
  /-- The event `PageAddedToDisk(page)` of a machine reaches the systemwide tracker of another. -/
  | PageAddedToDisk (own onMachineId : MachineId) (page : PageId)
  | pageNoLongerReferencedAcrossSystem (own : MachineId) (page : PageId)
  /-- The vector data manager has loaded a page. -/
  | pageAddedToRAM (own : MachineId) (page : PageId)
  /-- The vector data manager drops a page that is unpinned. -/
  | dropUnpinnedPage (own : MachineId) (page : PageId)
  /-- A page has been written to disk. -/
  | pageSentToDisk (own : MachineId) (page : PageId)
  /-- A page cannot be loaded. -/
  | pageIsNotLoadable (own : MachineId) (page : PageId)

/-- The state after a step. -/
def step : Step MachineId → PageSynchronizers MachineId
  | .SetDesiredContents own targetPages currentPages activePages picked success =>
    s.handleSetDesiredContents_ own targetPages currentPages activePages picked success
  | .deliver message picked success =>
    s.handleSynchronizerToSynchronizerMessage message picked success
  | .PageAddedToRam own page picked =>
    if page ∉ (s.machines own).mPagesDroppedAcrossEntireSystem then
      s.checkIfPageWantsToBeUnpinnedLocally_ own page picked
    else s
  | .PageAddedToDisk own onMachineId page =>
    if page ∈ (s.machines onMachineId).mPageRefcountTracker.mPagesOnDisk then
      s.modify own fun m =>
        { m with pagesAnywhereOnDisk := insert page m.pagesAnywhereOnDisk }
    else s
  | .pageNoLongerReferencedAcrossSystem own page =>
    s.modify own fun m =>
      { m with
        mPagesDroppedAcrossEntireSystem := insert page m.mPagesDroppedAcrossEntireSystem
        mDesiredPages := m.mDesiredPages.erase page }
  | .pageAddedToRAM own page => s.modifyPins own (·.pageAddedToRAM page)
  | .dropUnpinnedPage own page =>
    if (s.machines own).mPageRefcountTracker.pageIsInRamAndUnpinned page then
      s.modifyPins own (·.pageDroppedFromRam page)
    else s
  | .pageSentToDisk own page => s.modifyPins own (·.pageSentToDisk page)
  | .pageIsNotLoadable own page =>
    s.modify own fun m => { m with mDesiredPages := m.mDesiredPages.erase page }

end PageSynchronizers

end Cumulus
