import Ufora.Pages.BigVectorLayouts
import Ufora.Pages.PagesOnMachines

/-!
# `SystemwidePageRefcountTracker`

`cumulus/SystemwidePageRefcountTracker.cppml`: which vectors are referenced anywhere in the system,
as one machine knows it from the page events of all of them. A vector is referenced by a move that is
in flight, by a machine, by a synthetic page that it defines, or by a page. When nothing references
it any more it is declared dropped, and the internal pages that only its layout had are orphaned and
removed, which can drop further vectors.

The tracker is modelled together with a record that the code does not read: `declared` lists each
vector that is declared dropped with the tracker at that moment.
-/

open Ordered Effect Fora Cumulus TypedFora.Abi Finmap BigVectorLayouts

/-- The state of a `SystemwidePageRefcountTracker`. -/
structure SystemwidePageRefcountTracker where
  mIsTornDown : Bool := false
  mPagesOnMachines : PagesOnMachines := {}
  mBigvecsInFlight : StdMap BigVectorId ℤ := ∅
  mPendingInFlightBigvecs : StdMap Hash (Finset BigVectorId) := ∅
  mPendingInFlightBigvecRefcounts : StdMap Hash ℤ := ∅
  mBigVectorReferences : TwoWaySetMap BigVectorId MachineId := ∅
  mSyntheticPages : MapWithIndex PageId BigVectorId := ∅
  mSyntheticPagesRealized : Finset PageId := ∅
  mBigVectorReferenceCounts : StdMap (BigVectorId × MachineId) ℤ := ∅
  mOnPageNoLongerReferencedAcrossEntireSystem : List PageId := []
  mDroppedBigvecs : Finset Hash := ∅
  mBigVectorLayouts : BigVectorLayouts := {}

namespace SystemwidePageRefcountTracker

variable (s : SystemwidePageRefcountTracker)

/-- `isBigvecNotReferenced_(identity)`. -/
def isBigvecNotReferenced_ (identity : BigVectorId) : Prop :=
  identity ∉ s.mBigvecsInFlight ∧ ¬ s.mBigVectorReferences.hasKey identity ∧ ¬ s.mSyntheticPages.hasValue identity ∧
    ¬ s.mPagesOnMachines.isBigvecReferencedByPage identity
deriving Decidable

/-- `isBigVectorDroppedAcrossEntireSystem(id)`. -/
def isBigVectorDroppedAcrossEntireSystem (id : Hash) : Prop := id ∈ s.mDroppedBigvecs

end SystemwidePageRefcountTracker

/-- A tracker with the record of what it declares. -/
structure ObservedTracker where
  tracker : SystemwidePageRefcountTracker := {}
  declared : List (BigVectorId × SystemwidePageRefcountTracker) := []

namespace ObservedTracker

variable (o : ObservedTracker)

/-- `mDroppedBigvecs.insert(id.guid())`: the vector is declared dropped. -/
def declare (id : BigVectorId) : ObservedTracker := { o with
    declared := o.declared ++ [(id, o.tracker)]
    tracker := { o.tracker with mDroppedBigvecs := insert id.guid o.tracker.mDroppedBigvecs } }

/-- `mSyntheticPages.drop(page)`. -/
def dropSynthetic (page : PageId) : ObservedTracker := { o with
    tracker := { o.tracker with mSyntheticPages := o.tracker.mSyntheticPages.discard page } }

/-- `mPagesOnMachines.markInternalPageDropped(page)`, and the listeners are told. -/
def removePage (page : PageId) : ObservedTracker := { o with
    tracker := { o.tracker with
        mPagesOnMachines := o.tracker.mPagesOnMachines.markInternalPageDropped page
        mOnPageNoLongerReferencedAcrossEntireSystem :=
          o.tracker.mOnPageNoLongerReferencedAcrossEntireSystem ++ [page] } }

/-- The layouts change. -/
def withLayouts (layouts : BigVectorLayouts) : ObservedTracker :=
  { o with tracker := { o.tracker with mBigVectorLayouts := layouts } }

end ObservedTracker

namespace SystemwidePageRefcountTracker

/-- A member function of the tracker. -/
abbrev Action := EStateM AssertionFailed ObservedTracker

/-- Reads the tracker. -/
def self : Action SystemwidePageRefcountTracker := do return (← get).tracker

/-- Updates the tracker. -/
def update (f : SystemwidePageRefcountTracker → SystemwidePageRefcountTracker) : Action Unit :=
  modify fun o => { o with tracker := f o.tracker }

/-- A call on `mBigVectorLayouts`. -/
def onLayouts {α : Type} (x : EStateM AssertionFailed BigVectorLayouts α) : Action α :=
  onPart (fun o => o.tracker.mBigVectorLayouts) (fun l o => o.withLayouts l) x

/-- A call on `mPagesOnMachines`. -/
def onPagesOnMachines {α : Type} (x : EStateM AssertionFailed PagesOnMachines α) : Action α :=
  onPart (fun o => o.tracker.mPagesOnMachines)
    (fun p o => { o with tracker := { o.tracker with mPagesOnMachines := p } }) x

/-! ## Dropping a vector -/

/-- `bigVectorDroppedAcrossEntireSystem_(id)`, with a bound on its recursion. -/
def dropAcross : ℕ → BigVectorId → Action Unit
  | 0, _ => throw .recursionLimit
  | limit + 1, id => do
    modify fun o => o.declare id
    let pages ← onLayouts (dropLayoutForIdAndReturnOrphanedPages id)
    (ascending pages).forM fun page => do
      if page.isInternal then
        match (← self).mSyntheticPages.tryGetValue page with
        | some bigvec =>
          modify fun o => o.dropSynthetic page
          if (← self).isBigvecNotReferenced_ bigvec then dropAcross limit bigvec
        | none =>
          match (← self).mPagesOnMachines.bigvecsReferencedByPage page with
          | none => pure ()
          | some bigvecs => (ascending bigvecs).forM fun bigvec => do
            if (← self).isBigvecNotReferenced_ bigvec then dropAcross limit bigvec
        modify fun o => o.removePage page

/-- `bigVectorDroppedAcrossEntireSystem_(id)`. Each nested call that it makes has removed a
synthetic page. -/
def bigVectorDroppedAcrossEntireSystem_ (id : BigVectorId) : Action Unit := do
  dropAcross ((← self).mSyntheticPages.size + 1) id

/-- Declares a vector dropped if nothing references it. -/
def dropIfNotReferenced (id : BigVectorId) : Action Unit := do
  if (← self).isBigvecNotReferenced_ id then bigVectorDroppedAcrossEntireSystem_ id

/-- `bigVectorInFlightRefcountChanged_(identity, netChange)`. -/
def bigVectorInFlightRefcountChanged_ (netChange : ℤ) (identity : BigVectorId) : Action Unit := do
  update fun s =>
    { s with
      mBigvecsInFlight := insert identity (s.mBigvecsInFlight.get identity + netChange) s.mBigvecsInFlight }
  lassert (0 ≤ (← self).mBigvecsInFlight.get identity) (.negativeInFlight identity)
  if (← self).mBigvecsInFlight.get identity = 0 then
    update fun s => { s with mBigvecsInFlight := erase identity s.mBigvecsInFlight }
  dropIfNotReferenced identity

/-! ## Page events -/

/-- The branch `SyntheticPageCreated` of `consumePageEvent`. -/
def syntheticPageCreated (pageId : PageId) (layout : BigVectorPageLayout) : Action Unit := do
  update fun s =>
    { s with mBigVectorLayouts := s.mBigVectorLayouts.registerSyntheticPage pageId layout }
  if (← self).mSyntheticPages.hasKey pageId then
    lassert ((← self).mSyntheticPages.tryGetValue pageId = some layout.identity)
      (.syntheticPageDiffers pageId)
  if pageId ∉ (← self).mSyntheticPagesRealized then
    update fun s => { s with mSyntheticPages := s.mSyntheticPages.set pageId layout.identity }

/-- The branch `SyntheticPageRealized` of `consumePageEvent`. -/
def syntheticPageRealized (pageId : PageId) : Action Unit := do
  update fun s =>
    { s with mBigVectorLayouts := s.mBigVectorLayouts.syntheticPageRealized pageId }
  match (← self).mSyntheticPages.tryGetValue pageId with
  | some id =>
    modify fun o => o.dropSynthetic pageId
    dropIfNotReferenced id
  | none => pure ()
  update fun s => { s with mSyntheticPagesRealized := insert pageId s.mSyntheticPagesRealized }

/-- The branch `BigVectorReferenced` of `consumePageEvent`. -/
def bigVectorReferenced (layout : BigVectorPageLayout) (inMachineId : MachineId) : Action Unit := update fun s =>
    { s with
      mBigVectorLayouts := s.mBigVectorLayouts.registerNewLayout layout
      mBigVectorReferences := s.mBigVectorReferences.insert layout.identity inMachineId
      mBigVectorReferenceCounts := insert (layout.identity, inMachineId)
        (s.mBigVectorReferenceCounts.get (layout.identity, inMachineId) + 1)
        s.mBigVectorReferenceCounts }

/-- The branch `BigVectorNoLongerReferenced` of `consumePageEvent`. -/
def bigVectorNoLongerReferenced (identity : BigVectorId) (inMachineId : MachineId) : Action Unit := do
  update fun s =>
    { s with
      mBigVectorReferenceCounts := insert (identity, inMachineId)
        (s.mBigVectorReferenceCounts.get (identity, inMachineId) - 1)
        s.mBigVectorReferenceCounts }
  if (← self).mBigVectorReferenceCounts.get (identity, inMachineId) = 0 then
    update fun s =>
      { s with
        mBigVectorReferences := s.mBigVectorReferences.drop identity inMachineId
        mBigVectorReferenceCounts := erase (identity, inMachineId) s.mBigVectorReferenceCounts }
  dropIfNotReferenced identity

/-- The branch `BigVectorsInFlight` of `consumePageEvent`. -/
def bigVectorsInFlight (ids : Finset BigVectorId) (refcount : ℤ) (hash : Hash) : Action Unit := do
  if (← self).mPendingInFlightBigvecRefcounts.get hash = 0 then
    update fun s =>
      { s with
        mPendingInFlightBigvecRefcounts := insert hash refcount s.mPendingInFlightBigvecRefcounts
        mPendingInFlightBigvecs := insert hash ids s.mPendingInFlightBigvecs }
    (ascending ids).forM (bigVectorInFlightRefcountChanged_ 1)
  else
    lassert ((← self).mPendingInFlightBigvecRefcounts.get hash = -refcount)
      (.refcountNotOpposite hash)
    (ascending ((← self).mPendingInFlightBigvecs.get hash)).forM
      (bigVectorInFlightRefcountChanged_ (-1))
    update fun s =>
      { s with
        mPendingInFlightBigvecs := erase hash s.mPendingInFlightBigvecs
        mPendingInFlightBigvecRefcounts := erase hash s.mPendingInFlightBigvecRefcounts }

/-- `consumePageEvent(inEvent, inMachineId)`. -/
def consumePageEvent (inEvent : PageRefcountEvent) (inMachineId : MachineId) : Action Unit := do
  if (← self).mIsTornDown then return
  lassert ((← self).mPagesOnMachines.hasMachine inMachineId) (.cantFind inMachineId)
  update fun s =>
    { s with mPagesOnMachines := s.mPagesOnMachines.consumePageEvent inEvent inMachineId }
  match inEvent with
  | .SyntheticPageCreated pageId layout => syntheticPageCreated pageId layout
  | .SyntheticPageRealized pageId => syntheticPageRealized pageId
  | .BigVectorReferenced layout => bigVectorReferenced layout inMachineId
  | .BigVectorNoLongerReferenced identity => bigVectorNoLongerReferenced identity inMachineId
  | .BigVectorsInFlight ids refcount hash => bigVectorsInFlight ids refcount hash
  | .PageAddedToRam _ _ | .PageReferencedBigvecs _ _ | .PagePinnedStatusChanged _ _
  | .PageDroppedFromRam _ | .PageAddedToDisk _ | .PageDroppedFromDisk _
  | .ExecutionIsBlockedChanged _ | .PageMarkedNotLoadable _ | .MemoryUsageChanged _ => pure ()

/-! ## Machines -/

/-- `addMachine(inMachineId)`. -/
def addMachine (inMachineId : MachineId) : Action Unit := do
  if (← self).mIsTornDown then return
  onPagesOnMachines (PagesOnMachines.addMachine inMachineId)

/-- Declares a vector dropped if no machine references it and no move has it in flight. -/
def dropIfNotHeld (id : BigVectorId) : Action Unit := do
  if ¬ (← self).mBigVectorReferences.hasKey id ∧ id ∉ (← self).mBigvecsInFlight then
    bigVectorDroppedAcrossEntireSystem_ id

/-- `dropMachine(inMachineId)`. -/
def dropMachine (inMachineId : MachineId) : Action Unit := do
  if (← self).mIsTornDown then return
  onPagesOnMachines (PagesOnMachines.dropMachine inMachineId)
  let bigvecs := (← self).mBigVectorReferences.getKeys inMachineId
  update fun s =>
    { s with
      mBigVectorReferenceCounts := (ascending bigvecs).foldl
        (fun counts id => erase (id, inMachineId) counts) s.mBigVectorReferenceCounts
      mBigVectorReferences := s.mBigVectorReferences.dropValue inMachineId }
  (ascending bigvecs).forM dropIfNotHeld

/-- `teardown()`. -/
def teardown : Action Unit := update fun s => { s with mIsTornDown := true }

/-! ## Calls -/

/-- The calls on the tracker, and the changes of the layouts by others. -/
inductive Op where
  | addMachine (inMachineId : MachineId)
  | dropMachine (inMachineId : MachineId)
  | consumePageEvent (inEvent : PageRefcountEvent) (inMachineId : MachineId)
  | teardown
  | layoutsChanged (layouts : BigVectorLayouts)

/-- The call that an operation makes. -/
def handle : Op → Action Unit
  | .addMachine m => addMachine m
  | .dropMachine m => dropMachine m
  | .consumePageEvent e m => consumePageEvent e m
  | .teardown => teardown
  | .layoutsChanged layouts => update fun s => { s with mBigVectorLayouts := layouts }

/-! ## Rules -/

variable {o : ObservedTracker} {E : AssertionFailed → ObservedTracker → Prop}

@[simp] theorem wp_self {Q : SystemwidePageRefcountTracker → ObservedTracker → Prop} :
    wp self Q E o ↔ Q o.tracker o := Iff.rfl

@[simp] theorem wp_update {Q : PUnit → ObservedTracker → Prop}
    (f : SystemwidePageRefcountTracker → SystemwidePageRefcountTracker) :
    wp (update f) Q E o ↔ Q ⟨⟩ { o with tracker := f o.tracker } := Iff.rfl

/-- What the cascade of a drop keeps, where the vectors that it drops are of the kind `F` and the
internal pages that it removes of the kind `R`: dropping a layout, dropping a synthetic page with the
check that follows and removing a page keep it, and lead to vectors and pages of these kinds. -/
structure FollowsCascade (F : BigVectorId → Prop) (R : PageId → Prop) (I : ObservedTracker → Prop) : Prop where
  listed : ∀ o, I o → o.tracker.mPagesOnMachines.Listed
  layouts : ∀ o id, F id → I o → wp (dropLayoutForIdAndReturnOrphanedPages id)
    (fun pages l => I (o.withLayouts l) ∧ ∀ page ∈ pages, page.isInternal → R page)
    (fun e l => I (o.withLayouts l) ∧ e.ofDrop) o.tracker.mBigVectorLayouts
  synthetic : ∀ o page bigvec, R page → I o → o.tracker.mSyntheticPages.tryGetValue page = some bigvec →
    if (o.dropSynthetic page).tracker.isBigvecNotReferenced_ bigvec then
      F bigvec ∧ I ((o.dropSynthetic page).declare bigvec)
    else I (o.dropSynthetic page)
  remove : ∀ o page, R page → I o → I (o.removePage page)

/-- The cascade keeps what it should once `id` is declared. It stays within its limit, since each
nested call has dropped a synthetic page: what a page references is referenced, so that nothing is
dropped because of it. -/
theorem FollowsCascade.wp_dropAcross {F : BigVectorId → Prop} {R : PageId → Prop} {I : ObservedTracker → Prop}
    (hI : FollowsCascade F R I) (n : ℕ) (id : BigVectorId) (o : ObservedTracker) (hid : F id)
    (h : I (o.declare id)) (hl : o.tracker.mSyntheticPages.size < n) :
    wp (dropAcross n id) (fun _ o' => I o' ∧ o'.tracker.mSyntheticPages.size ≤ o.tracker.mSyntheticPages.size)
      (fun e o' => I o' ∧ e.ofDrop) o := by
  induction n generalizing id o with
  | zero => exact absurd hl (Nat.not_lt_zero _)
  | succ n ih =>
    unfold dropAcross
    rw [wp_bind, wp_modify, wp_bind, onLayouts, wp_onPart]
    refine (hI.layouts (o.declare id) id hid h).mono (fun pages l hpages => ?_) fun _ _ he => he
    obtain ⟨h, hpages⟩ := hpages
    refine (wp_forM (fun l o' => (I o' ∧
      o'.tracker.mSyntheticPages.size ≤ o.tracker.mSyntheticPages.size) ∧ ∀ page ∈ l, page.isInternal → R page)
        (fun page l o' ho' => ?_) _ ⟨⟨h, le_rfl⟩, fun page hp => hpages page (mem_ascending.1 hp)⟩).imp fun _ _ h => h.1
    obtain ⟨⟨ho', hle⟩, hl'⟩ := ho'
    rw [List.forall_mem_cons] at hl'
    rw [wp_ite]
    split
    · next hinternal =>
      have hpage := hl'.1 hinternal
      rw [wp_bind, wp_self]
      split
      · next bigvec hb =>
        have hs := hI.synthetic o' page bigvec hpage ho' hb
        have hsize : (o'.dropSynthetic page).tracker.mSyntheticPages.size + 1 =
          o'.tracker.mSyntheticPages.size := MapWithIndex.size_discard hb
        simp only [wp_bind, wp_modify, wp_self, wp_ite]
        split
        · next hn =>
          rw [if_pos hn] at hs
          refine (ih bigvec _ hs.1 hs.2 (by omega)).mono
            (fun _ o'' h'' => ⟨⟨hI.remove _ _ hpage h''.1, ?_⟩, hl'.2⟩) fun _ _ h'' => h''
          change o''.tracker.mSyntheticPages.size ≤ _
          omega
        · next hn =>
          rw [if_neg hn] at hs
          refine ⟨⟨hI.remove _ _ hpage hs, ?_⟩, hl'.2⟩
          change (o'.dropSynthetic page).tracker.mSyntheticPages.size ≤ _
          omega
      · rw [wp_bind, wp_self]
        split
        · exact ⟨⟨hI.remove _ _ hpage ho', hle⟩, hl'.2⟩
        · next bigvecs hb =>
          rw [wp_bind]
          have hsame := wp_forM (E := fun (e : AssertionFailed) o'' => I o'' ∧ e.ofDrop)
            (f := fun bigvec => do
              if (← self).isBigvecNotReferenced_ bigvec then dropAcross n bigvec)
            (fun l o'' => o'' = o' ∧ ∀ b ∈ l, b ∈ bigvecs)
            (fun bigvec l o'' ho => ?_) (ascending bigvecs) (s := o') ⟨rfl, by simp⟩
          · refine hsame.imp fun _ o'' ho => ?_
            obtain ⟨rfl, -⟩ := ho
            exact ⟨⟨hI.remove _ _ hpage ho', hle⟩, hl'.2⟩
          · obtain ⟨rfl, hm⟩ := ho
            rw [List.forall_mem_cons] at hm
            have href : o''.tracker.mPagesOnMachines.isBigvecReferencedByPage bigvec := by
              refine (hI.listed _ ho').isBigvecReferencedByPage_iff.2 ⟨page, ?_⟩
              unfold PagesOnMachines.bigvecsReferencedByPage at hb
              rw [StdMap.get, hb]
              exact hm.1
            rw [wp_bind, wp_self, wp_ite, wp_pure, if_neg fun hn => hn.2.2.2 href]
            exact ⟨rfl, hm.2⟩
    · exact ⟨⟨ho', hle⟩, hl'.2⟩

/-- The rule for a whole call. -/
theorem FollowsCascade.wp_drop {F : BigVectorId → Prop} {R : PageId → Prop} {I : ObservedTracker → Prop}
    (hI : FollowsCascade F R I) {id : BigVectorId} (hid : F id) (h : I (o.declare id)) :
    wp (bigVectorDroppedAcrossEntireSystem_ id) (fun _ => I) (fun e o' => I o' ∧ e.ofDrop) o := by
  unfold bigVectorDroppedAcrossEntireSystem_
  rw [wp_bind, wp_self]
  exact (hI.wp_dropAcross _ id o hid h (Nat.lt_succ_self _)).mono (fun _ _ h' => h'.1) fun _ _ h' => h'

/-- What the cascade of a drop keeps whatever it drops and removes. -/
structure CascadeInvariant (I : ObservedTracker → Prop) : Prop where
  listed : ∀ o, I o → o.tracker.mPagesOnMachines.Listed
  layouts : ∀ o l, I o → I (o.withLayouts l)
  synthetic : ∀ o page bigvec, I o → o.tracker.mSyntheticPages.tryGetValue page = some bigvec →
    if (o.dropSynthetic page).tracker.isBigvecNotReferenced_ bigvec then
      I ((o.dropSynthetic page).declare bigvec)
    else I (o.dropSynthetic page)
  remove : ∀ o page, I o → I (o.removePage page)

/-- The rule for a whole call. -/
theorem CascadeInvariant.wp_drop {I : ObservedTracker → Prop} (hI : CascadeInvariant I)
    {id : BigVectorId} (h : I (o.declare id)) :
    wp (bigVectorDroppedAcrossEntireSystem_ id) (fun _ => I) (fun e o' => I o' ∧ e.ofDrop) o := by
  have hfollows : FollowsCascade (fun _ => True) (fun _ => True) I := by
    refine ⟨hI.listed, fun o id _ ho => ?_, fun o page bigvec _ ho hb => ?_, fun o page _ => hI.remove o page⟩
    · refine wp_dropLayoutForIdAndReturnOrphanedPages.mono (fun _ l _ => ⟨hI.layouts o l ho, by simp⟩)
        fun e l he => ⟨hI.layouts o l ho, ?_⟩
      obtain rfl | rfl := he <;> rfl
    · simpa only [true_and] using hI.synthetic o page bigvec ho hb
  exact hfollows.wp_drop trivial h

/-- The rule for a checked call. -/
theorem CascadeInvariant.wp_dropIfNotReferenced {I : ObservedTracker → Prop}
    (hI : CascadeInvariant I) {id : BigVectorId}
    (h : if o.tracker.isBigvecNotReferenced_ id then I (o.declare id) else I o) :
    wp (dropIfNotReferenced id) (fun _ => I) (fun e o' => I o' ∧ e.ofDrop) o := by
  unfold dropIfNotReferenced
  rw [wp_bind, wp_self, wp_ite, wp_pure]
  split
  · next hn => rw [if_pos hn] at h; exact hI.wp_drop h
  · next hn => rwa [if_neg hn] at h

/-- The moves in flight are the same. -/
structure SameMoves (s s' : SystemwidePageRefcountTracker) : Prop where
  inFlight : s'.mBigvecsInFlight = s.mBigvecsInFlight
  pending : s'.mPendingInFlightBigvecs = s.mPendingInFlightBigvecs
  refcounts : s'.mPendingInFlightBigvecRefcounts = s.mPendingInFlightBigvecRefcounts

/-- What page events keep: declaring what nothing references, removing a page and whatever leaves the
moves in flight alone keep it. -/
structure HandlerInvariant (I : ObservedTracker → Prop) : Prop where
  listed : ∀ o, I o → o.tracker.mPagesOnMachines.Listed
  declare : ∀ o id, I o → o.tracker.isBigvecNotReferenced_ id → I (o.declare id)
  remove : ∀ o page, I o → I (o.removePage page)
  update : ∀ o s, I o → s.mPagesOnMachines.Listed → SameMoves o.tracker s → I { o with tracker := s }

variable {I : ObservedTracker → Prop}

variable (hI : HandlerInvariant I)
include hI

theorem HandlerInvariant.same {s : SystemwidePageRefcountTracker} (h : I o)
    (hp : s.mPagesOnMachines = o.tracker.mPagesOnMachines) (hs : SameMoves o.tracker s) :
    I { o with tracker := s } :=
  hI.update o s h (hp ▸ hI.listed o h) hs

theorem HandlerInvariant.cascade : CascadeInvariant I where
  listed := hI.listed
  layouts _ _ h := hI.same h rfl ⟨rfl, rfl, rfl⟩
  synthetic o page bigvec h _ := by
    have h' : I (o.dropSynthetic page) := hI.same h rfl ⟨rfl, rfl, rfl⟩
    split
    · next hn => exact hI.declare _ _ h' hn
    · exact h'
  remove := hI.remove

theorem HandlerInvariant.wp_dropIfNotReferenced_ofDrop {id : BigVectorId} (h : I o) :
    wp (dropIfNotReferenced id) (fun _ => I) (fun e o' => I o' ∧ e.ofDrop) o := by
  refine hI.cascade.wp_dropIfNotReferenced ?_
  split
  · next hn => exact hI.declare o id h hn
  · exact h

theorem HandlerInvariant.wp_dropIfNotReferenced {id : BigVectorId} (h : I o) :
    wp (dropIfNotReferenced id) (fun _ => I) (fun e o' => I o' ∧ e ≠ .recursionLimit) o :=
  (hI.wp_dropIfNotReferenced_ofDrop h).mono (fun _ _ h => h) fun _ _ h => ⟨h.1, AssertionFailed.ne_recursionLimit h.2⟩

/-- The rule for page events. What the halves of a move do is left to the invariant. -/
theorem HandlerInvariant.wp_consumePageEvent (h : I o) (e : PageRefcountEvent)
    (m : MachineId) (hmove : ∀ ids refcount hash o, e = .BigVectorsInFlight ids refcount hash → I o →
      wp (bigVectorsInFlight ids refcount hash) (fun _ => I) (fun e o' => I o' ∧ e ≠ .recursionLimit) o) :
    wp (consumePageEvent e m) (fun _ => I) (fun e o' => I o' ∧ e ≠ .recursionLimit) o := by
  simp only [consumePageEvent, wp_bind, wp_self, wp_ite, wp_pure, wp_lassert, wp_update]
  split
  · exact h
  split
  swap
  · exact ⟨h, by simp⟩
  have h' := hI.update o { o.tracker with
    mPagesOnMachines := o.tracker.mPagesOnMachines.consumePageEvent e m } h
      ((hI.listed o h).consumePageEvent e m) ⟨rfl, rfl, rfl⟩
  generalize ({ o with tracker := { o.tracker with
    mPagesOnMachines := o.tracker.mPagesOnMachines.consumePageEvent e m } } : ObservedTracker) = o at h'
  cases e with
  | SyntheticPageCreated page layout =>
    simp only [syntheticPageCreated, wp_bind, wp_update, wp_self, wp_ite, wp_lassert, wp_pure]
    split_ifs <;> first
      | exact hI.same h' rfl ⟨rfl, rfl, rfl⟩
      | exact ⟨hI.same h' rfl ⟨rfl, rfl, rfl⟩, by simp⟩
  | SyntheticPageRealized page =>
    simp only [syntheticPageRealized, wp_bind, wp_update, wp_self]
    split
    · simp only [wp_bind, wp_modify]
      refine (hI.wp_dropIfNotReferenced ?_).imp fun _ _ h => ?_
      · exact hI.same (o := o.dropSynthetic page) (hI.same h' rfl ⟨rfl, rfl, rfl⟩) rfl ⟨rfl, rfl, rfl⟩
      · exact hI.same h rfl ⟨rfl, rfl, rfl⟩
    · exact hI.same (o := o) h' rfl ⟨rfl, rfl, rfl⟩
  | BigVectorReferenced layout => exact hI.same h' rfl ⟨rfl, rfl, rfl⟩
  | BigVectorNoLongerReferenced id =>
    simp only [bigVectorNoLongerReferenced, wp_bind, wp_update, wp_self, wp_ite]
    split
    all_goals exact hI.wp_dropIfNotReferenced (hI.same h' rfl ⟨rfl, rfl, rfl⟩)
  | BigVectorsInFlight ids refcount hash => exact hmove ids refcount hash o rfl h'
  | _ => exact h'

end SystemwidePageRefcountTracker
