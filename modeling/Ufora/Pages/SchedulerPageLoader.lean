import Ufora.Lib.Ordered
import Ufora.Lib.Run

/-!
# `SchedulerPageLoader`

`cumulus/SystemwideComputationScheduler/SchedulerPageLoader.hppml`: the pages that a scheduler wants in RAM are
loaded from a queue. A page whose load was triggered stays at the head of the queue, so that a load that fails is
tried again. Where several loads may be in progress, the next look at the queue takes such a page out, as it needs
no load while it is being loaded; a load that fails after that is never tried again (`not_always_desiredWaiting`).
-/

open Ordered Run Finset List Option

/-- A `SchedulerPageLoader`, but for its callbacks. -/
structure SchedulerPageLoader (PageId : Type) where
  mIsPaused : Bool := false
  mPagesToLoad : Finset PageId := ∅
  mPagesToLoadQueue : List PageId := []
  mPageLoadInProgress : Finset PageId := ∅
  mPagesToLoadAhead : ℕ

namespace SchedulerPageLoader

/-- The callbacks, by what they answer during a call. -/
structure Callbacks (PageId : Type) where
  mTriggerPageLoad : PageId → Bool
  mNeedsPageLoad : PageId → Bool

/-- A page that is triggered, and the loads in progress then. -/
abbrev Trigger (PageId : Type) := PageId × Finset PageId

variable {PageId : Type} [LinearOrder PageId] (c : Callbacks PageId) (s : SchedulerPageLoader PageId)

/-- The condition of the loop of `checkIfNeedAdditionalPageLoad()`. -/
def Looks : Prop := s.mPagesToLoad.card ≠ 0 ∧ s.mPageLoadInProgress.card < s.mPagesToLoadAhead ∧ s.mIsPaused = false

instance : Decidable s.Looks := inferInstanceAs (Decidable (_ ∧ _ ∧ _))

/-- The loop of `checkIfNeedAdditionalPageLoad()` over the queue, with what it triggers. There is no result where
the head of an empty queue is read. -/
def checkQueue (s : SchedulerPageLoader PageId) :
    List PageId → Option (SchedulerPageLoader PageId × List (Trigger PageId))
  | [] => if s.Looks then none else some ({ s with mPagesToLoadQueue := [] }, [])
  | page :: queue =>
    if ¬ s.Looks then some ({ s with mPagesToLoadQueue := page :: queue }, [])
    else if page ∉ s.mPagesToLoad then checkQueue s queue
    else if ¬ c.mNeedsPageLoad page then checkQueue { s with mPagesToLoad := s.mPagesToLoad.erase page } queue
    else some ({ s with
      mPagesToLoadQueue := page :: queue
      mPageLoadInProgress :=
        if c.mTriggerPageLoad page then insert page s.mPageLoadInProgress else s.mPageLoadInProgress },
      [(page, s.mPageLoadInProgress)])

/-- `checkIfNeedAdditionalPageLoad()`. -/
def checkIfNeedAdditionalPageLoad : Option (SchedulerPageLoader PageId × List (Trigger PageId)) :=
  s.checkQueue c s.mPagesToLoadQueue

/-- A page of the new set comes into the queue, where it needs to be loaded and is not there. -/
def enqueue (s : SchedulerPageLoader PageId) (page : PageId) : SchedulerPageLoader PageId :=
  if page ∉ s.mPagesToLoad ∧ c.mNeedsPageLoad page then
    { s with mPagesToLoad := insert page s.mPagesToLoad, mPagesToLoadQueue := s.mPagesToLoadQueue ++ [page] }
  else s

/-- `setDesiredPages(inPages)`. -/
def setDesiredPages (inPages : Finset PageId) : Option (SchedulerPageLoader PageId × List (Trigger PageId)) :=
  let s := (ascending inPages).foldl (enqueue c) s
  checkIfNeedAdditionalPageLoad c { s with
    mPagesToLoad := s.mPagesToLoad.filter fun page => page ∈ inPages ∨ page ∈ s.mPageLoadInProgress }

/-- `pageLoadCompleted(inPage)`. -/
def pageLoadCompleted (inPage : PageId) : Option (SchedulerPageLoader PageId × List (Trigger PageId)) :=
  if inPage ∈ s.mPageLoadInProgress then
    checkIfNeedAdditionalPageLoad c { s with mPageLoadInProgress := s.mPageLoadInProgress.erase inPage }
  else some (s, [])

/-- `setIsPaused(isPaused)`. -/
def setIsPaused (isPaused : Bool) : Option (SchedulerPageLoader PageId × List (Trigger PageId)) :=
  checkIfNeedAdditionalPageLoad c { s with mIsPaused := isPaused }

/-- `pageDroppedAcrossEntireSystem(page)`. -/
def pageDroppedAcrossEntireSystem (page : PageId) : Option (SchedulerPageLoader PageId × List (Trigger PageId)) :=
  checkIfNeedAdditionalPageLoad c { s with
    mPagesToLoad := s.mPagesToLoad.erase page
    mPageLoadInProgress := s.mPageLoadInProgress.erase page }

/-! ## Runs -/

/-- A function of the loader with its argument. -/
inductive Op (PageId : Type) where
  | setDesiredPages (inPages : Finset PageId)
  | pageLoadCompleted (inPage : PageId)
  | setIsPaused (isPaused : Bool)
  | pageDroppedAcrossEntireSystem (page : PageId)
  | checkIfNeedAdditionalPageLoad

def Op.call : Op PageId → Option (SchedulerPageLoader PageId × List (Trigger PageId))
  | setDesiredPages inPages => s.setDesiredPages c inPages
  | pageLoadCompleted inPage => s.pageLoadCompleted c inPage
  | setIsPaused isPaused => s.setIsPaused c isPaused
  | pageDroppedAcrossEntireSystem page => s.pageDroppedAcrossEntireSystem c page
  | checkIfNeedAdditionalPageLoad => s.checkIfNeedAdditionalPageLoad c

/-- The pages of the latest desired set that were not dropped across the entire system since. -/
def Op.desired (desired : Finset PageId) : Op PageId → Finset PageId
  | setDesiredPages inPages => inPages
  | pageDroppedAcrossEntireSystem page => desired.erase page
  | _ => desired

/-- The load of the page is no longer in progress when the loader looks at the queue. -/
def Op.Ends (page : PageId) : Op PageId → Prop
  | pageLoadCompleted inPage => inPage = page
  | pageDroppedAcrossEntireSystem dropped => dropped = page
  | _ => False

/-- A loader with what is known of the last call: the desired pages after it, the pages that needed a load then,
and what was triggered. -/
structure System (PageId : Type) where
  loader : SchedulerPageLoader PageId
  desired : Finset PageId := ∅
  mNeedsPageLoad : PageId → Bool := fun _ => false
  triggers : List (Trigger PageId) := []

namespace System

/-- `SchedulerPageLoader(inTriggerPageLoad, inNeedsPageLoad, pagesToLoadAhead)`. -/
def initial (pagesToLoadAhead : ℕ) : System PageId where
  loader := { mPagesToLoadAhead := pagesToLoadAhead }

def step (t : System PageId) (call : Op PageId × Callbacks PageId) : Option (System PageId) :=
  (call.1.call call.2 t.loader).map fun result =>
    ⟨result.1, call.1.desired t.desired, call.2.mNeedsPageLoad, result.2⟩

/-- What should hold after every call. -/
structure Correct (t : System PageId) : Prop where
  ahead : t.loader.mPageLoadInProgress.card ≤ t.loader.mPagesToLoadAhead
  triggered : ∀ trigger ∈ t.triggers, trigger.1 ∉ trigger.2
  waiting : ∀ page ∈ t.desired, t.mNeedsPageLoad page →
    page ∈ t.loader.mPagesToLoad ∧ page ∈ t.loader.mPagesToLoadQueue ∨ page ∈ t.loader.mPageLoadInProgress

/-- A page does not need to be loaded while a load of it is in progress. -/
def Exclusive (t : System PageId) (call : Op PageId × Callbacks PageId) : Prop :=
  ∀ page ∈ t.loader.mPageLoadInProgress, call.2.mNeedsPageLoad page → call.1.Ends page

/-- A desired page that needs to be loaded, and did not in the call before, is waiting in the queue, unless the
desired pages are set anew. -/
def Expected (t : System PageId) (call : Op PageId × Callbacks PageId) : Prop :=
  match call.1 with
  | .setDesiredPages _ => True
  | op => ∀ page ∈ op.desired t.desired, call.2.mNeedsPageLoad page → ¬ t.mNeedsPageLoad page →
    page ∈ t.loader.mPagesToLoad

end System

variable {c s} {page : PageId} {pages : List PageId}

/-- Every page that is to be loaded is in the queue. -/
def Queued (s : SchedulerPageLoader PageId) : Prop := ∀ page ∈ s.mPagesToLoad, page ∈ s.mPagesToLoadQueue

/-- What a look at the queue does: a page that needs to be loaded stays there. -/
theorem checkQueue_spec (hq : ∀ page ∈ s.mPagesToLoad, page ∈ pages)
    (hn : s.mPageLoadInProgress.card ≤ s.mPagesToLoadAhead)
    (hc : ∀ page ∈ s.mPageLoadInProgress, ¬ c.mNeedsPageLoad page) :
    ∃ s' triggers, s.checkQueue c pages = some (s', triggers) ∧ s'.Queued ∧
      s'.mPageLoadInProgress.card ≤ s'.mPagesToLoadAhead ∧ (∀ trigger ∈ triggers, trigger.1 ∉ trigger.2) ∧
      ∀ page ∈ s.mPagesToLoad, c.mNeedsPageLoad page → page ∈ s'.mPagesToLoad := by
  fun_induction checkQueue c s pages with
  | case1 s hgo =>
    obtain ⟨page, hpage⟩ := card_ne_zero.1 hgo.1
    exact absurd (hq page hpage) not_mem_nil
  | case2 s hgo | case3 s page queue hgo => exact ⟨_, [], rfl, hq, hn, nofun, fun _ hp _ => hp⟩
  | case4 s page queue hgo hstale ih =>
    refine ih (fun p hp => (mem_cons.1 (hq p hp)).resolve_left ?_) hn hc
    rintro rfl
    exact hstale hp
  | case5 s page queue hgo hmem hneeds ih =>
    obtain ⟨s', triggers, he, hq', hn', ht, hkept⟩ := ih (fun p hp =>
      (mem_cons.1 (hq p (mem_erase.1 hp).2)).resolve_left (mem_erase.1 hp).1) hn hc
    refine ⟨s', triggers, he, hq', hn', ht, fun p hp hpn => hkept p (mem_erase.2 ⟨?_, hp⟩) hpn⟩
    rintro rfl
    contradiction
  | case6 s page queue hgo hmem hneeds =>
    refine ⟨_, _, rfl, hq, ?_, fun trigger ht => ?_, fun _ hp _ => hp⟩
    · split
      · exact (card_insert_le _ _).trans (not_not.1 hgo).2.1
      · exact hn
    · obtain rfl := List.mem_singleton.1 ht
      exact fun hp => hc page hp (not_not.1 hneeds)

theorem queued_enqueue (hq : s.Queued) (page : PageId) : (s.enqueue c page).Queued := by
  unfold enqueue
  split
  · intro p hp
    rcases mem_insert.1 hp with rfl | hp
    · exact mem_append_right _ (List.mem_singleton.2 rfl)
    · exact mem_append_left _ (hq p hp)
  · exact hq

/-- What setting the pages brings into the queue: each of them that needs to be loaded is there, and the loads in
progress are as they were. -/
theorem foldl_enqueue_spec (pages : List PageId) (hq : s.Queued) : (pages.foldl (enqueue c) s).Queued ∧
      (pages.foldl (enqueue c) s).mPageLoadInProgress = s.mPageLoadInProgress ∧
      (pages.foldl (enqueue c) s).mPagesToLoadAhead = s.mPagesToLoadAhead ∧
      ∀ page, (page ∈ s.mPagesToLoad ∨ page ∈ pages ∧ c.mNeedsPageLoad page) →
        page ∈ (pages.foldl (enqueue c) s).mPagesToLoad := by
  induction pages generalizing s with
  | nil => exact ⟨hq, rfl, rfl, fun page hp => hp.resolve_right fun h => not_mem_nil h.1⟩
  | cons page pages ih =>
    obtain ⟨hq', hp', hn', hm⟩ := ih (queued_enqueue (c := c) hq page)
    refine ⟨hq', hp'.trans ?_, hn'.trans ?_, fun p hp => hm p ?_⟩
    · unfold enqueue; split <;> rfl
    · unfold enqueue; split <;> rfl
    · unfold enqueue
      grind

namespace System

/-- What holds of a loader between the calls. -/
structure Inv (t : System PageId) : Prop where
  queued : t.loader.Queued
  ahead : t.loader.mPageLoadInProgress.card ≤ t.loader.mPagesToLoadAhead
  triggered : ∀ trigger ∈ t.triggers, trigger.1 ∉ trigger.2
  waiting : ∀ page ∈ t.desired, t.mNeedsPageLoad page → page ∈ t.loader.mPagesToLoad

variable {t : System PageId} {call : Op PageId × Callbacks PageId}

omit [LinearOrder PageId] in
theorem Inv.correct (h : t.Inv) : t.Correct where
  ahead := h.ahead
  triggered := h.triggered
  waiting page hd hneeds := .inl ⟨h.waiting page hd hneeds, h.queued page (h.waiting page hd hneeds)⟩

/-- A call returns and keeps the invariant, as no desired page that needs a load has left the queue. -/
theorem Inv.step (h : t.Inv) (hc : t.Exclusive call) (he : t.Expected call) : ∃ t', t.step call = some t' ∧ t'.Inv := by
  obtain ⟨op, c⟩ := call
  have look : ∀ {s : SchedulerPageLoader PageId}, op.call c t.loader = s.checkIfNeedAdditionalPageLoad c →
      s.Queued → s.mPageLoadInProgress.card ≤ s.mPagesToLoadAhead →
      (∀ page ∈ s.mPageLoadInProgress, ¬ c.mNeedsPageLoad page) →
      (∀ page ∈ op.desired t.desired, c.mNeedsPageLoad page → page ∈ s.mPagesToLoad) →
      ∃ t', t.step (op, c) = some t' ∧ t'.Inv := by
    intro s hop hq hn hex hw
    obtain ⟨s', triggers, hs, hq', hn', ht, hkept⟩ := checkQueue_spec (c := c) hq hn hex
    refine ⟨⟨s', op.desired t.desired, c.mNeedsPageLoad, triggers⟩, ?_, hq', hn', ht, fun page hd hneeds => ?_⟩
    · simp only [System.step, hop, checkIfNeedAdditionalPageLoad, hs, map_some]
    · exact hkept page (hw page hd hneeds) hneeds
  have kept : ∀ page ∈ op.desired t.desired, (∀ inPages, op ≠ .setDesiredPages inPages) →
      c.mNeedsPageLoad page → page ∈ t.loader.mPagesToLoad := by
    intro page hd hop hneeds
    by_cases hbefore : t.mNeedsPageLoad page
    · refine h.waiting page ?_ hbefore
      cases op with
      | setDesiredPages inPages => exact absurd rfl (hop inPages)
      | pageDroppedAcrossEntireSystem dropped => exact (mem_erase.1 hd).2
      | _ => exact hd
    · cases op with
      | setDesiredPages inPages => exact absurd rfl (hop inPages)
      | _ => exact he page hd hneeds hbefore
  cases op with
  | setDesiredPages inPages =>
    obtain ⟨hq, hp, hn, hm⟩ := foldl_enqueue_spec (c := c) (ascending inPages) h.queued
    refine look rfl (fun page hpage => hq page (mem_filter.1 hpage).1) ?_ (fun page hpage hneeds => ?_)
      (fun page hd hneeds => ?_)
    · exact (congrArg card hp).trans_le (h.ahead.trans_eq hn.symm)
    · exact hc page (hp ▸ hpage) hneeds
    · exact mem_filter.2 ⟨hm page (.inr ⟨mem_ascending.2 hd, hneeds⟩), .inl hd⟩
  | pageLoadCompleted inPage =>
    by_cases hin : inPage ∈ t.loader.mPageLoadInProgress
    · refine look (if_pos hin) h.queued ((card_le_card (erase_subset _ _)).trans h.ahead)
        (fun page hpage hneeds => ?_) (fun page hd hneeds => kept page hd nofun hneeds)
      exact (mem_erase.1 hpage).1 (hc page (mem_erase.1 hpage).2 hneeds).symm
    · refine ⟨⟨t.loader, t.desired, c.mNeedsPageLoad, []⟩, ?_, h.queued, h.ahead, nofun, fun page hd hneeds => ?_⟩
      · simp only [System.step, Op.call, pageLoadCompleted, if_neg hin, map_some, Op.desired]
      · exact kept page hd nofun hneeds
  | pageDroppedAcrossEntireSystem dropped =>
    refine look rfl (fun page hpage => h.queued page (mem_erase.1 hpage).2)
      ((card_le_card (erase_subset _ _)).trans h.ahead) (fun page hpage hneeds => ?_) (fun page hd hneeds => ?_)
    · exact (mem_erase.1 hpage).1 (hc page (mem_erase.1 hpage).2 hneeds).symm
    · exact mem_erase.2 ⟨(mem_erase.1 hd).1, kept page hd nofun hneeds⟩
  | _ => exact look rfl h.queued h.ahead hc fun page hd hneeds => kept page hd nofun hneeds

/-- In every run in which no desired page comes to need a load after it left the queue, no call reads an empty
queue, and after each of them every desired page that needs a load is waiting or in progress. -/
theorem always_desiredWaiting {pagesToLoadAhead : ℕ} {calls : List (Op PageId × Callbacks PageId)}
    (h : EveryStep step (fun t call => t.Exclusive call ∧ t.Expected call) (initial pagesToLoadAhead) calls) :
    (run step (initial pagesToLoadAhead) calls).isSome ∧ Always step Correct (initial pagesToLoadAhead) calls := by
  obtain ⟨hr, ha⟩ := returns_of_everyStep (P := Inv)
    ⟨nofun, Nat.zero_le _, fun _ ht => absurd ht not_mem_nil, fun page hp => absurd hp (notMem_empty page)⟩
    (fun t call ht hc => ht.step hc.1 hc.2) h
  exact ⟨hr, ha.mono fun t ht => ht.correct⟩

/-- Where one load may be in progress, one that fails is tried again. -/
theorem always_desiredWaiting_retried : (run step (initial 1)
    [(.setDesiredPages {1, 2}, ⟨fun _ => true, fun _ => true⟩),
      (.pageLoadCompleted 1, ⟨fun _ => true, fun _ => true⟩)]).isSome ∧
    Always step Correct (initial 1) [(Op.setDesiredPages {1, 2}, ⟨fun _ => true, fun _ => true⟩),
      (.pageLoadCompleted 1, (⟨fun _ => true, fun _ => true⟩ : Callbacks ℕ))] := by
  refine always_desiredWaiting (everyStep_cons.2 ⟨⟨fun page hpage => absurd hpage (notMem_empty page), trivial⟩,
    fun t ht => everyStep_cons.2 ⟨?_, fun _ _ => everyStep_nil⟩⟩)
  obtain rfl := some.inj ht
  exact ⟨fun page hpage _ => (List.mem_singleton.1 hpage).symm, fun page _ _ h => absurd rfl h⟩

/-- Where two loads may be in progress, page `1` leaves the queue when page `2` is triggered, and is lost when its
load fails. -/
theorem not_always_desiredWaiting : ¬ ∀ calls : List (Op ℕ × Callbacks ℕ), EveryStep step Exclusive (initial 2) calls →
      Always step Correct (initial 2) calls := by
  intro h
  have := (h [(.setDesiredPages {1, 2}, ⟨fun _ => true, fun _ => true⟩),
    (.checkIfNeedAdditionalPageLoad, ⟨fun _ => true, fun page => page ≠ 1⟩),
    (.pageLoadCompleted 1, ⟨fun _ => true, fun page => page = 1⟩)] ?_).last rfl
  · exact absurd (this.waiting 1 (by decide) rfl) (by decide)
  · refine everyStep_cons.2 ⟨?_, fun t ht => ?_⟩
    · exact fun page hpage => absurd hpage (notMem_empty page)
    · obtain rfl := some.inj ht
      refine everyStep_cons.2 ⟨fun page hpage hneeds => ?_, fun t ht => ?_⟩
      · exact absurd (List.mem_singleton.1 hpage) (of_decide_eq_true hneeds)
      · exact everyStep_cons.2 ⟨fun page _ hneeds => (of_decide_eq_true hneeds).symm, fun _ _ => everyStep_nil⟩

end System
end SchedulerPageLoader
