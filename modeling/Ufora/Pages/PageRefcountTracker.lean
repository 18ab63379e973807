import Ufora.Pages.BigVectorLayouts

/-!
# `PageRefcountTracker`

`FORA/VectorDataManager/PageRefcountTracker.cppml`: the pages that one machine holds, and how often
each vector is referenced there, by the machine's computations, by its persistent cache and by its
pages. What changes is broadcast as page events, which `mOnPageRefcountEvent` lists here in the order
of the broadcasts. The layouts of the vectors belong to the whole process, which may change them
between two calls.
-/

open Ordered Effect Fora TypedFora.Abi List StdMap BigVectorLayouts Finmap

/-- The state of a `PageRefcountTracker`. -/
structure PageRefcountTracker where
  mEventCount : ℕ := 1
  mBytesInRamPinned : ℤ := 0
  mBytesInRamUnpinned : ℤ := 0
  mIsExecutionCurrentlyBlocked : Bool := false
  mOnPageRefcountEvent : List (PageRefcountEvent × ℕ) := []
  mTotalBigvecRefcounts : StdMap BigVectorId ℕ := ∅
  mBigvecsHeldInPersistentCache : Finset BigVectorId := ∅
  mPagesUnmapped : Finset PageId := ∅
  mLastMemoryUsageBroadcast : MemoryUsage := {}
  mPageBigvecRefcounts : StdMap PageId (Finset BigVectorId) := ∅
  mPagesInRam : Finset PageId := ∅
  mPagesOnDisk : Finset PageId := ∅
  mPagesUnpinned : Finset PageId := ∅
  mBigVectorLayouts : BigVectorLayouts := {}

namespace PageRefcountTracker

/-- A member function of the tracker. -/
abbrev Action := EStateM AssertionFailed PageRefcountTracker

/-- `broadcastEvent_(event)`. -/
def broadcastEvent_ (event : PageRefcountEvent) : Action Unit := modify fun s =>
    { s with
      mOnPageRefcountEvent := s.mOnPageRefcountEvent ++ [(event, s.mEventCount)]
      mEventCount := s.mEventCount + 1 }

/-! ## Refcounts -/

variable (inVec : BigVectorId)

/-- `incref_(inVec)`. -/
def incref_ : Action Unit := do
  modify fun s =>
    { s with
      mTotalBigvecRefcounts := insert inVec (s.mTotalBigvecRefcounts.get inVec + 1) s.mTotalBigvecRefcounts }
  if (← get).mTotalBigvecRefcounts.get inVec = 1 then
    let layout ← onPart mBigVectorLayouts (fun l s => { s with mBigVectorLayouts := l })
      (getLayoutForId inVec)
    broadcastEvent_ (.BigVectorReferenced layout)

/-- `decref_(inVec)`. -/
def decref_ : Action Unit := do
  -- reading with `operator[]` makes an entry, also when the assertion then fails
  modify fun s =>
    { s with
      mTotalBigvecRefcounts := insert inVec (s.mTotalBigvecRefcounts.get inVec) s.mTotalBigvecRefcounts }
  lassert (0 < (← get).mTotalBigvecRefcounts.get inVec) (.decrefedWithoutPositiveRefcount inVec)
  modify fun s =>
    { s with
      mTotalBigvecRefcounts := insert inVec (s.mTotalBigvecRefcounts.get inVec - 1) s.mTotalBigvecRefcounts }
  if (← get).mTotalBigvecRefcounts.get inVec = 0 then
    broadcastEvent_ (.BigVectorNoLongerReferenced inVec)
    modify fun s =>
      { s with mTotalBigvecRefcounts := erase inVec s.mTotalBigvecRefcounts }

/-- `bigVectorIncreffed(layout)`. -/
def bigVectorLayoutIncreffed (layout : BigVectorPageLayout) : Action Unit := do
  modify fun s =>
    { s with
      mTotalBigvecRefcounts := insert layout.identity
        (s.mTotalBigvecRefcounts.get layout.identity + 1) s.mTotalBigvecRefcounts }
  if (← get).mTotalBigvecRefcounts.get layout.identity = 1 then
    modify fun s => { s with mBigVectorLayouts := s.mBigVectorLayouts.registerNewLayout layout }
    broadcastEvent_ (.BigVectorReferenced layout)

/-- `bigVectorIncreffed(inVec)`. -/
def bigVectorIncreffed : Action Unit := incref_ inVec

/-- `bigVectorDecreffed(inVec)`. -/
def bigVectorDecreffed : Action Unit := decref_ inVec

/-- `bigVectorHeldInPersistentCache(inBigvec)`. -/
def bigVectorHeldInPersistentCache (inBigvec : BigVectorId) : Action Unit := do
  if inBigvec ∈ (← get).mBigvecsHeldInPersistentCache then return
  modify fun s =>
    { s with mBigvecsHeldInPersistentCache := insert inBigvec s.mBigvecsHeldInPersistentCache }
  incref_ inBigvec

variable (inPage : PageId)

/-- `pageNotInRamOrOnDisk_(inPage)`. -/
def pageNotInRamOrOnDisk_ : Action Unit := do
  modify fun s =>
    { s with
      mPageBigvecRefcounts := insert inPage (s.mPageBigvecRefcounts.get inPage) s.mPageBigvecRefcounts }
  (ascending ((← get).mPageBigvecRefcounts.get inPage)).forM decref_
  modify fun s => { s with mPageBigvecRefcounts := erase inPage s.mPageBigvecRefcounts }

/-! ## Pages -/

variable (referencedBigvecs : Finset BigVectorId)

/-- `pageAddedToRAM(inPage, referencedBigvecs)`. -/
def pageAddedToRAM : Action Unit := do
  if inPage ∈ (← get).mPagesInRam then return
  modify fun s =>
    { s with
      mPagesUnmapped := insert inPage s.mPagesUnmapped
      mBytesInRamPinned := s.mBytesInRamPinned + inPage.bytecount }
  broadcastEvent_ (.PageAddedToRam inPage referencedBigvecs)
  modify fun s =>
    { s with
      mPageBigvecRefcounts := insert inPage referencedBigvecs s.mPageBigvecRefcounts
      mPagesInRam := insert inPage s.mPagesInRam
      mPagesUnpinned := s.mPagesUnpinned.erase inPage }
  (ascending referencedBigvecs).forM incref_

/-- `pageSentToDisk(inPage, referencedBigvecs)`. -/
def pageSentToDisk : Action Unit := do
  if inPage ∈ (← get).mPagesOnDisk then return
  broadcastEvent_ (.PageAddedToDisk inPage)
  modify fun s => { s with mPagesOnDisk := insert inPage s.mPagesOnDisk }
  if inPage ∈ (← get).mPageBigvecRefcounts then
    lassert ((← get).mPageBigvecRefcounts.get inPage = referencedBigvecs) (.referencesDiffer inPage)
  else
    modify fun s =>
      { s with
        mPageBigvecRefcounts := insert inPage referencedBigvecs s.mPageBigvecRefcounts }

/-- `pageDroppedFromRam(inPage)`. -/
def pageDroppedFromRam : Action Unit := do
  if inPage ∉ (← get).mPagesInRam then return
  if inPage ∉ (← get).mPagesUnpinned then
    modify fun s => { s with mBytesInRamPinned := s.mBytesInRamPinned - inPage.bytecount }
  else
    modify fun s => { s with mBytesInRamUnpinned := s.mBytesInRamUnpinned - inPage.bytecount }
  modify fun s =>
    { s with
      mPagesUnpinned := s.mPagesUnpinned.erase inPage
      mPagesUnmapped := s.mPagesUnmapped.erase inPage
      mPagesInRam := s.mPagesInRam.erase inPage }
  broadcastEvent_ (.PageDroppedFromRam inPage)
  if inPage ∉ (← get).mPagesOnDisk then pageNotInRamOrOnDisk_ inPage

/-- `pageDroppedFromDisk(inPage)`. -/
def pageDroppedFromDisk : Action Unit := do
  if inPage ∉ (← get).mPagesOnDisk then return
  modify fun s => { s with mPagesOnDisk := s.mPagesOnDisk.erase inPage }
  broadcastEvent_ (.PageDroppedFromDisk inPage)
  if inPage ∉ (← get).mPagesInRam then pageNotInRamOrOnDisk_ inPage

/-- `pageMarkedUnpinned(inPage)`. -/
def pageMarkedUnpinned : Action Unit := do
  if ¬ (inPage ∈ (← get).mPagesInRam ∧ inPage ∉ (← get).mPagesUnpinned) then return
  modify fun s => { s with mPagesUnpinned := insert inPage s.mPagesUnpinned }
  broadcastEvent_ (.PagePinnedStatusChanged inPage false)
  modify fun s =>
    { s with
      mBytesInRamPinned := s.mBytesInRamPinned - inPage.bytecount
      mBytesInRamUnpinned := s.mBytesInRamUnpinned + inPage.bytecount }

/-- `pageMarkedPinned(inPage)`. -/
def pageMarkedPinned : Action Unit := do
  if ¬ (inPage ∈ (← get).mPagesInRam ∧ inPage ∈ (← get).mPagesUnpinned) then return
  modify fun s =>
    { s with
      mBytesInRamPinned := s.mBytesInRamPinned + inPage.bytecount
      mBytesInRamUnpinned := s.mBytesInRamUnpinned - inPage.bytecount
      mPagesUnpinned := s.mPagesUnpinned.erase inPage }
  broadcastEvent_ (.PagePinnedStatusChanged inPage true)

/-- `pinPageIfInRAM(inPage)`: whether the page is in RAM. -/
def pinPageIfInRAM : Action Bool := do
  if inPage ∉ (← get).mPagesInRam then return false
  pageMarkedPinned inPage
  return true

variable (s : PageRefcountTracker)

/-- `getCopyOfPinnedPages()`. -/
def getCopyOfPinnedPages : Finset PageId := s.mPagesInRam \ s.mPagesUnpinned

/-! ## Broadcasts -/

/-- `pageReferencedInByBigvecLoadedFromPersistentCache(inPage, referencedBigvecs)`. -/
def pageReferencedInByBigvecLoadedFromPersistentCache : Action Unit :=
  broadcastEvent_ (.PageReferencedBigvecs inPage referencedBigvecs)

/-- `markPageAsNotLoadable(inPage)`. -/
def markPageAsNotLoadable : Action Unit := broadcastEvent_ (.PageMarkedNotLoadable inPage)

/-- `broadcastBigvecsInFlight(ids, refcount, inMoveGuid)`. -/
def broadcastBigvecsInFlight (ids : Finset BigVectorId) (refcount : ℤ) (inMoveGuid : Hash) : Action Unit :=
  if ids.Nonempty then broadcastEvent_ (.BigVectorsInFlight ids refcount inMoveGuid)
  else pure ()

/-- `executionIsBlockedChanged(inIsBlocked)`. -/
def executionIsBlockedChanged (inIsBlocked : Bool) : Action Unit := do
  modify fun s => { s with mIsExecutionCurrentlyBlocked := inIsBlocked }
  broadcastEvent_ (.ExecutionIsBlockedChanged inIsBlocked)

/-- `totalMemoryUsageChanged(inUsage)`. -/
def totalMemoryUsageChanged (inUsage : MemoryUsage) : Action Unit := do
  modify fun s => { s with mLastMemoryUsageBroadcast := inUsage }
  broadcastEvent_ (.MemoryUsageChanged inUsage)

/-- `createSyntheticPage(page, layout)`. -/
def createSyntheticPage (page : PageId) (layout : BigVectorPageLayout) : Action Unit :=
  broadcastEvent_ (.SyntheticPageCreated page layout)

/-- `realizeSyntheticPage(inPageId)`. -/
def realizeSyntheticPage (inPageId : PageId) : Action Unit := broadcastEvent_ (.SyntheticPageRealized inPageId)

/-! ## The snapshot -/

/-- The events about one page in RAM that `sendCurrentState` sends. -/
def ramPageState (page : PageId) : List PageRefcountEvent := .PageAddedToRam page (s.mPageBigvecRefcounts.get page) ::
    if page ∈ s.mPagesUnpinned then [.PagePinnedStatusChanged page false] else []

/-- The event about one vector that `sendCurrentState` sends, if it has a layout for it. -/
def bigvecState (bigvec : BigVectorId) : List PageRefcountEvent :=
  match s.mBigVectorLayouts.tryGetLayoutForId bigvec with
  | some layout => [.BigVectorReferenced layout]
  | none => []

/-- The events that `sendCurrentState` sends. The hash tables of the source are visited in
ascending order here. -/
def currentState : List PageRefcountEvent := .MemoryUsageChanged s.mLastMemoryUsageBroadcast ::
    ((ascending s.mPagesInRam).flatMap s.ramPageState ++ (ascending s.mPagesOnDisk).map .PageAddedToDisk ++
      (ascending s.mTotalBigvecRefcounts.keys).flatMap s.bigvecState)

/-- `sendCurrentState(eventConsumer)`: what the consumer gets. -/
def sendCurrentState : Action (List (PageRefcountEvent × ℕ)) := do
  let s ← get
  modify fun s =>
    { s with
      -- the source reads the references of the pages in RAM with `operator[]`
      mPageBigvecRefcounts := (ascending s.mPagesInRam).foldl
        (fun refs page => insert page (refs.get page) refs) s.mPageBigvecRefcounts
      mEventCount := s.mEventCount + 1 }
  return s.currentState.map fun event => (event, s.mEventCount)

/-! ## Calls -/

/-- The calls that may change the tracker, and the changes of the layouts by others. -/
inductive Op where
  | pageAddedToRAM (inPage : PageId) (referencedBigvecs : Finset BigVectorId)
  | pageSentToDisk (inPage : PageId) (referencedBigvecs : Finset BigVectorId)
  | pageDroppedFromRam (inPage : PageId)
  | pageDroppedFromDisk (inPage : PageId)
  | pageMarkedUnpinned (inPage : PageId)
  | pageMarkedPinned (inPage : PageId)
  | pinPageIfInRAM (inPage : PageId)
  | bigVectorLayoutIncreffed (layout : BigVectorPageLayout)
  | bigVectorIncreffed (inVec : BigVectorId)
  | bigVectorDecreffed (inVec : BigVectorId)
  | bigVectorHeldInPersistentCache (inBigvec : BigVectorId)
  | pageReferencedInByBigvecLoadedFromPersistentCache (inPage : PageId)
      (referencedBigvecs : Finset BigVectorId)
  | markPageAsNotLoadable (inPage : PageId)
  | broadcastBigvecsInFlight (ids : Finset BigVectorId) (refcount : ℤ) (inMoveGuid : Hash)
  | executionIsBlockedChanged (inIsBlocked : Bool)
  | totalMemoryUsageChanged (inUsage : MemoryUsage)
  | createSyntheticPage (page : PageId) (layout : BigVectorPageLayout)
  | realizeSyntheticPage (inPageId : PageId)
  | sendCurrentState
  | layoutsChanged (layouts : BigVectorLayouts)

/-- The call that an operation makes. -/
def call : Op → Action Unit
  | .pageAddedToRAM p refs => pageAddedToRAM p refs
  | .pageSentToDisk p refs => pageSentToDisk p refs
  | .pageDroppedFromRam p => pageDroppedFromRam p
  | .pageDroppedFromDisk p => pageDroppedFromDisk p
  | .pageMarkedUnpinned p => pageMarkedUnpinned p
  | .pageMarkedPinned p => pageMarkedPinned p
  | .pinPageIfInRAM p => pinPageIfInRAM p >>= fun _ => pure ()
  | .bigVectorLayoutIncreffed layout => bigVectorLayoutIncreffed layout
  | .bigVectorIncreffed v => bigVectorIncreffed v
  | .bigVectorDecreffed v => bigVectorDecreffed v
  | .bigVectorHeldInPersistentCache v => bigVectorHeldInPersistentCache v
  | .pageReferencedInByBigvecLoadedFromPersistentCache p refs =>
    pageReferencedInByBigvecLoadedFromPersistentCache p refs
  | .markPageAsNotLoadable p => markPageAsNotLoadable p
  | .broadcastBigvecsInFlight ids refcount guid => broadcastBigvecsInFlight ids refcount guid
  | .executionIsBlockedChanged b => executionIsBlockedChanged b
  | .totalMemoryUsageChanged usage => totalMemoryUsageChanged usage
  | .createSyntheticPage p layout => createSyntheticPage p layout
  | .realizeSyntheticPage p => realizeSyntheticPage p
  | .sendCurrentState => sendCurrentState >>= fun _ => pure ()
  | .layoutsChanged layouts => modify fun s => { s with mBigVectorLayouts := layouts }

/-! ## What the refcount calls do -/

/-- The refcount of a vector, zero where it has no entry. -/
def refcount (b : BigVectorId) : ℕ := s.mTotalBigvecRefcounts.get b

/-- The events about a vector's refcount. -/
def IsRefcountEvent : PageRefcountEvent → Prop
  | .BigVectorReferenced _ | .BigVectorNoLongerReferenced _ => True
  | _ => False

/-- A call changed refcounts only, and broadcast nothing but events about refcounts. -/
def RefcountsOnly (s' : PageRefcountTracker) : Prop := ∃ refcounts events count, (∀ e ∈ events, IsRefcountEvent e.1) ∧
    s' = { s with
      mTotalBigvecRefcounts := refcounts
      mOnPageRefcountEvent := s.mOnPageRefcountEvent ++ events
      mEventCount := count }

variable {s s' s'' : PageRefcountTracker} {v b : BigVectorId}

theorem RefcountsOnly.refl (s : PageRefcountTracker) : RefcountsOnly s s :=
  ⟨s.mTotalBigvecRefcounts, [], s.mEventCount, by simp, by simp⟩

theorem RefcountsOnly.trans (h : RefcountsOnly s s') (h' : RefcountsOnly s' s'') : RefcountsOnly s s'' := by
  obtain ⟨_, e, _, he, rfl⟩ := h
  obtain ⟨r, e', n, he', rfl⟩ := h'
  refine ⟨r, e ++ e', n, fun x hx => ?_, by simp⟩
  exact (mem_append.1 hx).elim (he x) (he' x)

/-- Setting refcounts and broadcasting at most one event about them. -/
theorem RefcountsOnly.of_events (refcounts : StdMap BigVectorId ℕ) (count : ℕ)
    (es : List (PageRefcountEvent × ℕ)) (h : ∀ e ∈ es, IsRefcountEvent e.1) :
    RefcountsOnly s { s with
      mTotalBigvecRefcounts := refcounts
      mOnPageRefcountEvent := s.mOnPageRefcountEvent ++ es
      mEventCount := count } := ⟨_, _, _, h, rfl⟩

theorem RefcountsOnly.of_refcounts (refcounts : StdMap BigVectorId ℕ) :
    RefcountsOnly s { s with mTotalBigvecRefcounts := refcounts } := by
  simpa using of_events (s := s) refcounts s.mEventCount [] (by simp)

/-- `incref_` counts one reference more. It throws where it has no layout to broadcast. -/
theorem wp_incref_ : wp (incref_ v)
    (fun _ s' => RefcountsOnly s s' ∧ ∀ b, s'.refcount b = s.refcount b + if b = v then 1 else 0)
    (fun e s' => RefcountsOnly s s' ∧ e = .noData v) s := by
  have hcount : ∀ b, StdMap.get (insert v (s.mTotalBigvecRefcounts.get v + 1)
      s.mTotalBigvecRefcounts) b = s.refcount b + if b = v then 1 else 0 := by
    intro b
    rw [get_insert]
    split
    · next h => subst h; rfl
    · rfl
  simp only [incref_, wp_bind, wp_modify, wp_get, wp_ite, wp_onPart, wp_getLayoutForId, broadcastEvent_, wp_pure]
  split
  · split
    · exact ⟨.of_events _ _ [_] (by simp [IsRefcountEvent]), hcount⟩
    · exact ⟨.of_refcounts _, trivial⟩
  · exact ⟨.of_refcounts _, hcount⟩

/-- `decref_` counts one reference less. It throws where there is none. -/
theorem wp_decref_ : wp (decref_ v)
    (fun _ s' => RefcountsOnly s s' ∧ ∀ b, s'.refcount b + (if b = v then 1 else 0) = s.refcount b)
    (fun e s' => RefcountsOnly s s' ∧ s.refcount v = 0 ∧ e = .decrefedWithoutPositiveRefcount v)
    s := by
  simp only [decref_, wp_bind, wp_modify, wp_get, wp_ite, wp_lassert, broadcastEvent_, wp_pure, get_insert, if_true]
  split
  · next hpos =>
    split
    · next hz =>
      refine ⟨.of_events _ _ [_] (by simp [IsRefcountEvent]), fun b => ?_⟩
      simp only [refcount, get_erase, get_insert]
      split
      · next h => subst h; exact (by omega : 0 + 1 = s.mTotalBigvecRefcounts.get b)
      · rfl
    · refine ⟨.of_refcounts _, fun b => ?_⟩
      simp only [refcount, get_insert]
      split
      · next h => subst h; omega
      · rfl
  · next hz => exact ⟨.of_refcounts _, by unfold refcount; omega, trivial⟩

/-- A loop of `incref_`. -/
theorem wp_forM_incref_ (l : List BigVectorId) : wp (l.forM incref_)
    (fun _ s' => RefcountsOnly s s' ∧ ∀ b, s'.refcount b = s.refcount b + l.count b)
    (fun e s' => RefcountsOnly s s' ∧ ∃ v, e = .noData v) s := by
  refine (wp_forM (fun l' s' => RefcountsOnly s s' ∧ ∀ b, s'.refcount b + l'.count b = s.refcount b + l.count b) ?_ l
      ⟨.refl s, fun _ => rfl⟩).imp fun _ s' h => ⟨h.1, by simpa using h.2⟩
  rintro v l' s' ⟨hs, hc⟩
  refine wp_incref_.mono (fun _ t h => ⟨hs.trans h.1, fun b => ?_⟩) fun e t h => ⟨hs.trans h.1, v, h.2⟩
  have := hc b
  have := h.2 b
  simp only [count_cons, beq_iff_eq, eq_comm (a := v)] at *
  omega

/-- A loop of `decref_`. It throws where a vector has fewer references than the loop takes. -/
theorem wp_forM_decref_ (l : List BigVectorId) : wp (l.forM decref_)
    (fun _ s' => RefcountsOnly s s' ∧ ∀ b, s'.refcount b + l.count b = s.refcount b)
    (fun e s' => RefcountsOnly s s' ∧ ∃ v, s.refcount v < l.count v ∧ e = .decrefedWithoutPositiveRefcount v) s := by
  refine (wp_forM (fun l' s' => RefcountsOnly s s' ∧ ∀ b, s'.refcount b + l.count b = s.refcount b + l'.count b) ?_ l
      ⟨.refl s, fun _ => rfl⟩).imp fun _ s' h => ⟨h.1, by simpa using h.2⟩
  rintro v l' s' ⟨hs, hc⟩
  refine wp_decref_.mono (fun _ t h => ⟨hs.trans h.1, fun b => ?_⟩) fun e t h => ⟨hs.trans h.1, v, ?_, h.2.2⟩
  · have := hc b
    have := h.2 b
    simp only [count_cons, beq_iff_eq, eq_comm (a := v)] at *
    omega
  · have := hc v
    simp only [count_cons_self] at this
    omega

end PageRefcountTracker
