import Ufora.Lib.Run
import Ufora.Pages.PageRefcountTracker
import Ufora.Pages.PagesOnMachines
import Mathlib.Algebra.BigOperators.Group.Finset.Basic

/-!
# Replaying the broadcasts of a tracker

A `PageRefcountTracker` broadcasts what happens to its pages, and `PagesOnMachines` keeps the pages
of a machine from these broadcasts alone. `MachinePages` is the common abstraction: where the pages
of one machine are, and what an event says about that. The consumer follows an event exactly
(`pagesOf_consumePageEvent`), and each call of the tracker broadcasts events that say what it did
(`tracked_call`). So the consumer of the broadcasts, and a consumer of one snapshot, have the pages
of the tracker at any time (`always_replays`). This holds also of calls that throw: the updates of
the page sets and their broadcasts come before anything that can throw.
-/

open Ordered Effect Fora Cumulus TypedFora.Abi Run List Finset TwoWaySetMap PagesOnMachines

/-! ## The pages of one machine -/

/-- Where the pages of one machine are. -/
@[ext] structure MachinePages where
  inRam : Finset PageId := ∅
  onDisk : Finset PageId := ∅
  pinned : Finset PageId := ∅

namespace MachinePages

variable (pages : MachinePages)

/-- What an event says about the pages of the machine that sent it. -/
def apply : PageRefcountEvent → MachinePages
  | .PageAddedToRam p _ =>
    { pages with inRam := insert p pages.inRam, pinned := insert p pages.pinned }
  | .PageDroppedFromRam p =>
    { pages with inRam := pages.inRam.erase p, pinned := pages.pinned.erase p }
  | .PagePinnedStatusChanged p true => { pages with pinned := insert p pages.pinned }
  | .PagePinnedStatusChanged p false => { pages with pinned := pages.pinned.erase p }
  | .PageAddedToDisk p => { pages with onDisk := insert p pages.onDisk }
  | .PageDroppedFromDisk p => { pages with onDisk := pages.onDisk.erase p }
  | _ => pages

/-- What a sequence of events says. -/
def applyAll (events : List PageRefcountEvent) : MachinePages := events.foldl apply pages

theorem applyAll_append (es es' : List PageRefcountEvent) :
    pages.applyAll (es ++ es') = (pages.applyAll es).applyAll es' := foldl_append

/-- Events about refcounts say nothing about pages. -/
theorem applyAll_refcountEvents (es : List PageRefcountEvent)
    (h : ∀ e ∈ es, PageRefcountTracker.IsRefcountEvent e) : pages.applyAll es = pages := by
  induction es with
  | nil => rfl
  | cons e es ih =>
    rw [List.forall_mem_cons] at h
    have he : pages.apply e = pages := by
      cases e <;> first | rfl | exact h.1.elim
    rw [applyAll, foldl_cons, he]
    exact ih h.2

end MachinePages

open MachinePages

/-! ## The consumer -/

namespace PagesOnMachines

/-- The pages that a `PagesOnMachines` has for one machine. -/
def pagesOf (c : PagesOnMachines) (m : MachineId) : MachinePages where
  inRam := c.mPagesInRam.getKeys m
  onDisk := c.mPagesOnDisk.getKeys m
  pinned := c.mPagesPinned.getKeys m

/-- A fresh consumer that gets a sequence of events from one machine. -/
def consumeAll (m : MachineId) (events : List PageRefcountEvent) : PagesOnMachines :=
  events.foldl (fun c e => c.consumePageEvent e m) {}

/-- The consumer follows what an event says. -/
theorem pagesOf_consumePageEvent (c : PagesOnMachines) (e : PageRefcountEvent) (m : MachineId) :
    (c.consumePageEvent e m).pagesOf m = (c.pagesOf m).apply e := by
  cases e with
  | PageAddedToRam p b =>
    simp [consumePageEvent, pageAddedToRam_eq, pagesOf, apply, getKeys_insert]
  | PageDroppedFromRam p =>
    simp [consumePageEvent, pageDroppedFromRam_eq, pagesOf, apply, getKeys_drop]
  | PageAddedToDisk p =>
    simp [consumePageEvent, pageAddedToDisk_eq, pagesOf, apply, getKeys_insert]
  | PageDroppedFromDisk p =>
    simp [consumePageEvent, pageDroppedFromDisk_eq, pagesOf, apply, getKeys_drop]
  | PagePinnedStatusChanged p isPinned =>
    cases isPinned <;> simp [consumePageEvent, pagesOf, apply, getKeys_drop, getKeys_insert]
  | PageReferencedBigvecs p b =>
    unfold consumePageEvent pageReferencedBigvecs setPageBigvecs
    dsimp only
    split_ifs <;> rfl
  | ExecutionIsBlockedChanged isBlocked => cases isBlocked <;> rfl
  | _ => rfl

/-- A fresh consumer has the pages that the events say. -/
theorem pagesOf_consumeAll (m : MachineId) (events : List PageRefcountEvent) :
    (consumeAll m events).pagesOf m = applyAll {} events := by
  have h0 : pagesOf {} m = {} := by
    simp [pagesOf, getKeys_empty]
  have key : ∀ c : PagesOnMachines, (events.foldl (fun c e => c.consumePageEvent e m) c).pagesOf m =
        (c.pagesOf m).applyAll events := by
    induction events with
    | nil => exact fun c => rfl
    | cons e events ih =>
      intro c
      rw [foldl_cons, ih, pagesOf_consumePageEvent]
      rfl
  rw [consumeAll, key, h0]

end PagesOnMachines

/-! ## The tracker -/

namespace PageRefcountTracker

variable (t : PageRefcountTracker)

/-- The pages that the tracker holds. -/
def pages : MachinePages where
  inRam := t.mPagesInRam
  onDisk := t.mPagesOnDisk
  pinned := t.getCopyOfPinnedPages

/-- The events that the tracker has broadcast. -/
def broadcasts : List PageRefcountEvent := t.mOnPageRefcountEvent.map Prod.fst

/-- The bytes of a set of pages. -/
def bytes (pages : Finset PageId) : ℤ := ∑ p ∈ pages, (p.bytecount : ℤ)

theorem bytes_insert {pages : Finset PageId} {p : PageId} (h : p ∉ pages) :
    bytes (insert p pages) = bytes pages + p.bytecount := by
  rw [bytes, sum_insert h, add_comm]
  rfl

theorem bytes_erase {pages : Finset PageId} {p : PageId} (h : p ∈ pages) :
    bytes (pages.erase p) = bytes pages - p.bytecount := by
  have := add_sum_erase pages (fun p => (p.bytecount : ℤ)) h
  unfold bytes
  omega

/-- The byte totals are those of the pinned and of the unpinned pages in RAM. -/
def BytesExact : Prop := t.mBytesInRamPinned = bytes t.pages.pinned ∧
    t.mBytesInRamUnpinned = bytes (t.pages.inRam \ t.pages.pinned)

/-- The broadcasts so far say which pages the tracker holds, and its byte totals are right. -/
structure Tracked (t : PageRefcountTracker) : Prop where
  said : applyAll {} t.broadcasts = t.pages
  unpinnedInRam : t.mPagesUnpinned ⊆ t.mPagesInRam
  pinnedBytes : t.mBytesInRamPinned = bytes (t.mPagesInRam \ t.mPagesUnpinned)
  unpinnedBytes : t.mBytesInRamUnpinned = bytes t.mPagesUnpinned

section
variable {t t' : PageRefcountTracker} {p : PageId} {v : BigVectorId}

section

variable (h : Tracked t)
include h

theorem Tracked.bytesExact : BytesExact t := by
  refine ⟨h.pinnedBytes, ?_⟩
  rw [h.unpinnedBytes]
  congr 1
  simp [pages, getCopyOfPinnedPages, inter_eq_right.2 h.unpinnedInRam]

/-- Changes of refcounts leave the pages and what was said about them. -/
theorem Tracked.refcountsOnly (hr : RefcountsOnly t t') : Tracked t' := by
  obtain ⟨_, events, _, he, rfl⟩ := hr
  refine ⟨?_, h.unpinnedInRam, h.pinnedBytes, h.unpinnedBytes⟩
  have := h.said
  unfold broadcasts at this ⊢
  rw [map_append, applyAll_append, this]
  exact applyAll_refcountEvents _ _ (by simpa using he)

/-- A call that broadcasts one event, about a page set that changes as the event says. -/
theorem Tracked.of_broadcast (e : PageRefcountEvent) (n : ℕ)
    (hb : t'.mOnPageRefcountEvent = t.mOnPageRefcountEvent ++ [(e, n)])
    (hp : t.pages.apply e = t'.pages) (hu : t'.mPagesUnpinned ⊆ t'.mPagesInRam)
    (hpb : t'.mBytesInRamPinned = bytes (t'.mPagesInRam \ t'.mPagesUnpinned))
    (hub : t'.mBytesInRamUnpinned = bytes t'.mPagesUnpinned) : Tracked t' := by
  refine ⟨?_, hu, hpb, hub⟩
  rw [broadcasts, hb, map_append, applyAll_append, ← hp, ← h.said]
  rfl

/-- A broadcast that says nothing about pages. -/
theorem Tracked.of_broadcast_only (e : PageRefcountEvent) (n : ℕ) (he : t.pages.apply e = t.pages)
    (hb : t'.mOnPageRefcountEvent = t.mOnPageRefcountEvent ++ [(e, n)])
    (hr : t'.mPagesInRam = t.mPagesInRam) (hd : t'.mPagesOnDisk = t.mPagesOnDisk)
    (hu : t'.mPagesUnpinned = t.mPagesUnpinned) (hpb : t'.mBytesInRamPinned = t.mBytesInRamPinned)
    (hub : t'.mBytesInRamUnpinned = t.mBytesInRamUnpinned) : Tracked t' := by
  refine h.of_broadcast e n hb ?_ ?_ ?_ ?_
  · rw [he]
    simp only [pages, getCopyOfPinnedPages, hr, hd, hu]
  · simpa only [hr, hu] using h.unpinnedInRam
  · simpa only [hr, hu, hpb] using h.pinnedBytes
  · simpa only [hu, hub] using h.unpinnedBytes

/-! ## The calls -/

theorem Tracked.incref_ : wp (incref_ v) (fun _ => Tracked) (fun _ => Tracked) t :=
  wp_incref_.mono (fun _ _ h' => h.refcountsOnly h'.1) fun _ _ h' => h.refcountsOnly h'.1

theorem Tracked.decref_ : wp (decref_ v) (fun _ => Tracked) (fun _ => Tracked) t :=
  wp_decref_.mono (fun _ _ h' => h.refcountsOnly h'.1) fun _ _ h' => h.refcountsOnly h'.1

/-- A loop of `incref_` or of `decref_` changes refcounts only. -/
theorem Tracked.forM_incref_ (l : List BigVectorId) :
    wp (l.forM PageRefcountTracker.incref_) (fun _ => Tracked) (fun _ => Tracked) t :=
  (wp_forM_incref_ l).mono (fun _ _ h' => h.refcountsOnly h'.1) fun _ _ h' => h.refcountsOnly h'.1

theorem Tracked.pageNotInRamOrOnDisk_ : wp (pageNotInRamOrOnDisk_ p) (fun _ => Tracked) (fun _ => Tracked) t := by
  simp only [PageRefcountTracker.pageNotInRamOrOnDisk_, wp_bind, wp_get, wp_modify]
  have h' (refs : StdMap PageId (Finset BigVectorId)) {t : PageRefcountTracker} (h : Tracked t) :
      Tracked { t with mPageBigvecRefcounts := refs } :=
    ⟨h.said, h.unpinnedInRam, h.pinnedBytes, h.unpinnedBytes⟩
  exact (wp_forM_decref_ _).mono (fun _ _ hr => h' _ ((h' _ h).refcountsOnly hr.1))
    fun _ _ hr => (h' _ h).refcountsOnly hr.1

theorem Tracked.pageAddedToRAM (refs : Finset BigVectorId) :
    wp (pageAddedToRAM p refs) (fun _ => Tracked) (fun _ => Tracked) t := by
  simp only [PageRefcountTracker.pageAddedToRAM, wp_bind, wp_get, wp_ite, wp_modify, wp_pure, broadcastEvent_]
  split
  · exact h
  · next hp =>
    have hu : t.mPagesUnpinned.erase p = t.mPagesUnpinned := erase_eq_of_notMem fun hpu => hp (h.unpinnedInRam hpu)
    have hs : insert p t.mPagesInRam \ t.mPagesUnpinned = insert p (t.mPagesInRam \ t.mPagesUnpinned) :=
      insert_sdiff_of_notMem _ fun hpu => hp (h.unpinnedInRam hpu)
    refine forM_incref_ (h.of_broadcast (.PageAddedToRam p refs) t.mEventCount rfl
      ?_ ?_ ?_ ?_) _
    · simp only [MachinePages.apply, pages, getCopyOfPinnedPages, hu, hs]
    · simpa only [hu] using h.unpinnedInRam.trans (subset_insert p _)
    · simp only [hu, hs, h.pinnedBytes]
      rw [bytes_insert fun hpr => hp (sdiff_subset hpr)]
    · simpa only [hu] using h.unpinnedBytes

theorem Tracked.pageSentToDisk (refs : Finset BigVectorId) :
    wp (pageSentToDisk p refs) (fun _ => Tracked) (fun _ => Tracked) t := by
  simp only [PageRefcountTracker.pageSentToDisk, wp_bind, wp_get, wp_ite, wp_modify, wp_pure,
    broadcastEvent_, wp_lassert]
  have h' r : Tracked { t with
      mEventCount := t.mEventCount + 1
      mOnPageRefcountEvent := t.mOnPageRefcountEvent ++ [(.PageAddedToDisk p, t.mEventCount)]
      mPagesOnDisk := insert p t.mPagesOnDisk
      mPageBigvecRefcounts := r } :=
    h.of_broadcast (.PageAddedToDisk p) t.mEventCount rfl rfl h.unpinnedInRam h.pinnedBytes h.unpinnedBytes
  split_ifs
  exacts [h, h' _, h' _, h' _]

theorem Tracked.pageDroppedFromRam : wp (pageDroppedFromRam p) (fun _ => Tracked) (fun _ => Tracked) t := by
  simp only [PageRefcountTracker.pageDroppedFromRam, wp_bind, wp_get, wp_ite, wp_modify, wp_pure, broadcastEvent_]
  have hs : t.mPagesInRam.erase p \ t.mPagesUnpinned.erase p = (t.mPagesInRam \ t.mPagesUnpinned).erase p := by
    ext q
    simp only [mem_sdiff, mem_erase]
    tauto
  -- the byte total that the page was part of
  have h' (pinned unpinned : ℤ) (hp : pinned = bytes ((t.mPagesInRam \ t.mPagesUnpinned).erase p))
      (hu : unpinned = bytes (t.mPagesUnpinned.erase p)) : Tracked { t with
        mEventCount := t.mEventCount + 1
        mBytesInRamPinned := pinned
        mBytesInRamUnpinned := unpinned
        mOnPageRefcountEvent := t.mOnPageRefcountEvent ++ [(.PageDroppedFromRam p, t.mEventCount)]
        mPagesUnmapped := t.mPagesUnmapped.erase p
        mPagesInRam := t.mPagesInRam.erase p
        mPagesUnpinned := t.mPagesUnpinned.erase p } := by
    refine h.of_broadcast (.PageDroppedFromRam p) t.mEventCount rfl ?_ (erase_subset_erase p h.unpinnedInRam) ?_ hu
    · simp only [MachinePages.apply, pages, getCopyOfPinnedPages, hs]
    · simpa only [hs] using hp
  split
  · exact h
  · next hr =>
    have hr : p ∈ t.mPagesInRam := not_not.1 hr
    split
    · next hu =>
      have hb := h' (t.mBytesInRamPinned - p.bytecount) t.mBytesInRamUnpinned
        (by rw [bytes_erase (mem_sdiff.2 ⟨hr, hu⟩), h.pinnedBytes])
        (by rw [erase_eq_of_notMem hu, h.unpinnedBytes])
      split
      · exact hb.pageNotInRamOrOnDisk_
      · exact hb
    · next hu =>
      have hu : p ∈ t.mPagesUnpinned := not_not.1 hu
      have hb := h' t.mBytesInRamPinned (t.mBytesInRamUnpinned - p.bytecount)
        (by rw [erase_eq_of_notMem fun hp => (mem_sdiff.1 hp).2 hu, h.pinnedBytes])
        (by rw [bytes_erase hu, h.unpinnedBytes])
      split
      · exact hb.pageNotInRamOrOnDisk_
      · exact hb

theorem Tracked.pageDroppedFromDisk : wp (pageDroppedFromDisk p) (fun _ => Tracked) (fun _ => Tracked) t := by
  simp only [PageRefcountTracker.pageDroppedFromDisk, wp_bind, wp_get, wp_ite, wp_modify, wp_pure, broadcastEvent_]
  have h' : Tracked { t with
      mEventCount := t.mEventCount + 1
      mOnPageRefcountEvent := t.mOnPageRefcountEvent ++ [(.PageDroppedFromDisk p, t.mEventCount)]
      mPagesOnDisk := t.mPagesOnDisk.erase p } :=
    h.of_broadcast (.PageDroppedFromDisk p) t.mEventCount rfl rfl h.unpinnedInRam h.pinnedBytes h.unpinnedBytes
  split
  · exact h
  · split
    · exact h'.pageNotInRamOrOnDisk_
    · exact h'

theorem Tracked.pageMarkedUnpinned : wp (pageMarkedUnpinned p) (fun _ => Tracked) (fun _ => Tracked) t := by
  simp only [PageRefcountTracker.pageMarkedUnpinned, wp_bind, wp_get, wp_ite, wp_modify, wp_pure, broadcastEvent_]
  split
  · exact h
  · next hp =>
    obtain ⟨hr, hu⟩ := not_not.1 hp
    have hs : t.mPagesInRam \ insert p t.mPagesUnpinned = (t.mPagesInRam \ t.mPagesUnpinned).erase p := by
      rw [sdiff_insert]
    refine h.of_broadcast (.PagePinnedStatusChanged p false) t.mEventCount rfl ?_ ?_ ?_ ?_
    · simp only [MachinePages.apply, pages, getCopyOfPinnedPages, hs]
    · exact insert_subset hr h.unpinnedInRam
    · simp only [hs, h.pinnedBytes]
      rw [bytes_erase (mem_sdiff.2 ⟨hr, hu⟩)]
    · simp only [h.unpinnedBytes]
      rw [bytes_insert hu]

theorem Tracked.pageMarkedPinned : wp (pageMarkedPinned p) (fun _ => Tracked) (fun _ => Tracked) t := by
  simp only [PageRefcountTracker.pageMarkedPinned, wp_bind, wp_get, wp_ite, wp_modify, wp_pure, broadcastEvent_]
  split
  · exact h
  · next hp =>
    obtain ⟨hr, hu⟩ := not_not.1 hp
    have hs : t.mPagesInRam \ t.mPagesUnpinned.erase p = insert p (t.mPagesInRam \ t.mPagesUnpinned) := sdiff_erase hr
    refine h.of_broadcast (.PagePinnedStatusChanged p true) t.mEventCount rfl ?_ ?_ ?_ ?_
    · simp only [MachinePages.apply, pages, getCopyOfPinnedPages, hs]
    · exact (erase_subset _ _).trans h.unpinnedInRam
    · simp only [hs, h.pinnedBytes]
      rw [bytes_insert fun hpr => (mem_sdiff.1 hpr).2 hu]
    · simp only [h.unpinnedBytes]
      rw [bytes_erase hu]

theorem Tracked.bigVectorLayoutIncreffed (l : BigVectorPageLayout) :
    wp (bigVectorLayoutIncreffed l) (fun _ => Tracked) (fun _ => Tracked) t := by
  simp only [PageRefcountTracker.bigVectorLayoutIncreffed, wp_bind, wp_get, wp_ite, wp_modify, wp_pure, broadcastEvent_]
  split_ifs
  · exact h.of_broadcast_only (.BigVectorReferenced l) t.mEventCount rfl rfl rfl rfl rfl rfl rfl
  · exact h.refcountsOnly (.of_refcounts _)

/-- Every call keeps track of the pages, whether it returns or throws. -/
theorem tracked_call (op : Op) : wp (call op) (fun _ => Tracked) (fun _ => Tracked) t := by
  cases op with
  | pageAddedToRAM p refs => exact h.pageAddedToRAM refs
  | pageSentToDisk p refs => exact h.pageSentToDisk refs
  | pageDroppedFromRam p => exact h.pageDroppedFromRam
  | pageDroppedFromDisk p => exact h.pageDroppedFromDisk
  | pageMarkedUnpinned p => exact h.pageMarkedUnpinned
  | pageMarkedPinned p => exact h.pageMarkedPinned
  | pinPageIfInRAM p =>
    simp only [call, pinPageIfInRAM, wp_bind, wp_get, wp_ite, wp_pure]
    split
    · exact h
    · exact h.pageMarkedPinned
  | bigVectorLayoutIncreffed layout => exact h.bigVectorLayoutIncreffed layout
  | bigVectorIncreffed v => exact h.incref_
  | bigVectorDecreffed v => exact h.decref_
  | bigVectorHeldInPersistentCache v =>
    simp only [call, bigVectorHeldInPersistentCache, wp_bind, wp_get, wp_ite, wp_modify, wp_pure]
    split
    · exact h
    · exact Tracked.incref_ ⟨h.said, h.unpinnedInRam, h.pinnedBytes, h.unpinnedBytes⟩
  | broadcastBigvecsInFlight ids refcount guid =>
    simp only [call, broadcastBigvecsInFlight, wp_ite, wp_pure]
    split
    · exact h.of_broadcast_only _ t.mEventCount rfl rfl rfl rfl rfl rfl rfl
    · exact h
  | sendCurrentState | layoutsChanged => exact ⟨h.said, h.unpinnedInRam, h.pinnedBytes, h.unpinnedBytes⟩
  | _ => exact h.of_broadcast_only _ t.mEventCount rfl rfl rfl rfl rfl rfl rfl

/-! ## The snapshot -/

end

/-- The events about the pages in RAM. -/
theorem applyAll_ramPageState (t : PageRefcountTracker) (l : List PageId) (inRam onDisk : Finset PageId) :
    applyAll ⟨inRam, onDisk, inRam \ t.mPagesUnpinned⟩ (l.flatMap t.ramPageState) =
      ⟨inRam ∪ l.toFinset, onDisk, (inRam ∪ l.toFinset) \ t.mPagesUnpinned⟩ := by
  induction l generalizing inRam with
  | nil => simp [applyAll]
  | cons p l ih =>
    have hp : applyAll ⟨inRam, onDisk, inRam \ t.mPagesUnpinned⟩ (t.ramPageState p) =
        ⟨insert p inRam, onDisk, insert p inRam \ t.mPagesUnpinned⟩ := by
      unfold ramPageState
      split
      · next hu =>
        simp only [applyAll, foldl_cons, foldl_nil, apply, insert_sdiff_of_mem _ hu]
        rw [erase_insert (by simp [hu])]
      · next hu =>
        simp only [applyAll, foldl_cons, foldl_nil, apply, insert_sdiff_of_notMem _ hu]
    rw [flatMap_cons, applyAll_append, hp, ih, toFinset_cons, insert_union, union_insert]

/-- The events about the pages on disk. -/
theorem applyAll_pageAddedToDisk (pages : MachinePages) (l : List PageId) : pages.applyAll (l.map .PageAddedToDisk) =
      { pages with onDisk := pages.onDisk ∪ l.toFinset } := by
  induction l generalizing pages with
  | nil => simp [applyAll]
  | cons p l ih =>
    rw [List.map_cons, applyAll, foldl_cons]
    refine (ih _).trans ?_
    simp only [apply, toFinset_cons, insert_union, union_insert]

/-- The snapshot says which pages the tracker holds. -/
theorem applyAll_currentState (t : PageRefcountTracker) : applyAll {} t.currentState = t.pages := by
  unfold currentState
  rw [← singleton_append, applyAll_append, applyAll_append, applyAll_append]
  have h0 : applyAll {} [.MemoryUsageChanged t.mLastMemoryUsageBroadcast] =
      ⟨∅, ∅, ∅ \ t.mPagesUnpinned⟩ := by simp [applyAll, apply]
  rw [h0, applyAll_ramPageState, applyAll_pageAddedToDisk, applyAll_refcountEvents]
  · simp [pages, getCopyOfPinnedPages]
  · intro e he
    obtain ⟨v, -, hv⟩ := mem_flatMap.1 he
    unfold bigvecState at hv
    split at hv
    · rw [List.mem_singleton.1 hv]
      trivial
    · cases hv

end

/-! ## Runs -/

/-- One call. A call that throws leaves the state at the throw. -/
def step (op : Op) : PageRefcountTracker := exec (call op) t

/-- Fed with all broadcasts of the tracker, a consumer has the pages of the tracker, and so has one
that is fed with a snapshot only; the byte totals are those of the pages. -/
def Replays (m : MachineId) (t : PageRefcountTracker) : Prop :=
  (consumeAll m t.broadcasts).pagesOf m = t.pages ∧ BytesExact t ∧ wp sendCurrentState
      (fun sent _ => (consumeAll m (sent.map Prod.fst)).pagesOf m = t.pages)
      (fun _ _ => False) t

theorem Tracked.replays {t : PageRefcountTracker} (h : Tracked t) (m : MachineId) : Replays m t := by
  refine ⟨?_, h.bytesExact, ?_⟩
  · rw [pagesOf_consumeAll, h.said]
  · simp only [sendCurrentState, wp_bind, wp_get, wp_modify, wp_pure, List.map_map]
    rw [pagesOf_consumeAll, ← applyAll_currentState t]
    congr 1
    exact map_id _

/-- After any calls on a tracker, the consumer of its broadcasts and the consumer of its snapshot
have its pages. -/
theorem always_replays (m : MachineId) (layouts : BigVectorLayouts) (ops : List Op) :
    Always (total step) (Replays m) { mBigVectorLayouts := layouts } ops := by
  have h0 : Tracked { mBigVectorLayouts := layouts } := ⟨rfl, by simp, rfl, rfl⟩
  refine Always.mono (always h0 fun t op t' h he => ?_) fun t h => h.replays m
  rw [← total_eq_some.1 he]
  exact (tracked_call h op).exec

end PageRefcountTracker
