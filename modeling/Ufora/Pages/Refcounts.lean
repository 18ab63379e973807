import Ufora.Lib.Run
import Ufora.Pages.PageRefcountTracker
import Mathlib.Algebra.Ring.Int.Defs
import Mathlib.Data.Nat.Cast.Basic

/-!
# The refcounts of a tracker

The refcount of a vector should be the number of references that others hold on it plus the number
of pages on the machine that reference it. `pagesBalance` is what the pages leave of a refcount. A
call changes it by what the caller takes or gives back (`external`), and, in two cases, by a leak:
`pageSentToDisk` of a page that is not in RAM records its references without counting them, and
`pageAddedToRAM` of a page that is on disk counts references that are counted already
(`wp_call_pagesBalance`). So the refcounts are exact throughout a run in which no call leaks, and
`decref_` never fails there.
-/

open Ordered Effect Fora TypedFora.Abi Run List Finset Finmap StdMap

namespace PageRefcountTracker

/-! ## Pages and the references they record -/

variable (t : PageRefcountTracker)

/-- The pages on the machine. -/
def heldPages : Finset PageId := t.mPagesInRam ∪ t.mPagesOnDisk

/-- The pages on the machine that reference the vector. -/
def pagesReferencing (b : BigVectorId) : Finset PageId := t.heldPages.filter fun p => b ∈ t.mPageBigvecRefcounts.get p

/-- What the pages leave of the refcount of a vector. -/
def pagesBalance (b : BigVectorId) : ℤ := t.refcount b - (t.pagesReferencing b).card

/-- The references of a page are recorded as long as it is on the machine. -/
def Recorded : Prop := ∀ p, p ∈ t.mPageBigvecRefcounts ↔ p ∈ t.heldPages

section
variable {t t' : PageRefcountTracker} {p : PageId} {b v : BigVectorId}

theorem RefcountsOnly.recorded (h : RefcountsOnly t t') (hr : Recorded t) : Recorded t' := by
  obtain ⟨_, _, _, _, rfl⟩ := h
  exact hr

theorem RefcountsOnly.pagesReferencing (h : RefcountsOnly t t') (b : BigVectorId) :
    t'.pagesReferencing b = t.pagesReferencing b := by
  obtain ⟨_, _, _, _, rfl⟩ := h
  rfl

/-- The pages other than `p` that reference the vector. -/
def othersReferencing (t : PageRefcountTracker) (p : PageId) (b : BigVectorId) : Finset PageId :=
  (t.heldPages.erase p).filter fun q => b ∈ t.mPageBigvecRefcounts.get q

/-- One page apart, the pages that reference a vector are the others that do. -/
theorem card_pagesReferencing (t : PageRefcountTracker) (p : PageId) (b : BigVectorId) :
    (t.pagesReferencing b).card = (t.othersReferencing p b).card +
      if p ∈ t.heldPages ∧ b ∈ t.mPageBigvecRefcounts.get p then 1 else 0 := by
  have he : t.othersReferencing p b = (t.pagesReferencing b).erase p := by
    ext q
    simp only [othersReferencing, pagesReferencing, Finset.mem_filter, Finset.mem_erase, and_assoc]
  have hm : p ∈ t.pagesReferencing b ↔ p ∈ t.heldPages ∧ b ∈ t.mPageBigvecRefcounts.get p := Finset.mem_filter
  rw [he]
  split
  · next h => exact (card_erase_add_one (hm.2 h)).symm
  · next h => rw [erase_eq_of_notMem fun hp => h (hm.1 hp), Nat.add_zero]

/-- Two trackers that hold and record the same apart from one page have the same others. -/
theorem othersReferencing_congr (hh : t'.heldPages.erase p = t.heldPages.erase p)
    (hr : ∀ q, q ≠ p → t'.mPageBigvecRefcounts.get q = t.mPageBigvecRefcounts.get q)
    (b : BigVectorId) : t'.othersReferencing p b = t.othersReferencing p b := by
  unfold othersReferencing
  rw [hh]
  refine filter_congr fun q hq => ?_
  rw [hr q (ne_of_mem_erase hq)]

end

/-! ## What a call does to the balance -/

/-- The references that the caller takes on a vector, or gives back. A vector is held once in the
persistent cache. -/
def external : Op → BigVectorId → ℤ
  | .bigVectorLayoutIncreffed layout, b => if b = layout.identity then 1 else 0
  | .bigVectorIncreffed v, b => if b = v then 1 else 0
  | .bigVectorDecreffed v, b => if b = v then -1 else 0
  | .bigVectorHeldInPersistentCache v, b =>
    if v ∉ t.mBigvecsHeldInPersistentCache ∧ b = v then 1 else 0
  | _, _ => 0

/-- What a call adds to the refcount of a vector though no reference to it came or went. -/
def leak : Op → BigVectorId → ℤ
  | .pageAddedToRAM p _, b =>
    if p ∉ t.mPagesInRam ∧ p ∈ t.mPagesOnDisk ∧ b ∈ t.mPageBigvecRefcounts.get p then 1 else 0
  | .pageSentToDisk p refs, b =>
    if p ∉ t.mPagesInRam ∧ p ∉ t.mPagesOnDisk ∧ b ∈ refs then -1 else 0
  | _, _ => 0

/-- The pages that references are recorded for stay, and the balance changes by `d`. -/
def Balanced (d : BigVectorId → ℤ) (t' : PageRefcountTracker) : Prop :=
  Recorded t' ∧ ∀ b, t'.pagesBalance b = t.pagesBalance b + d b

/-- A call fails in `decref_` only where the refcount does not cover the pages. -/
def FailsShort (e : AssertionFailed) (_ : PageRefcountTracker) : Prop :=
  ∀ v, e = .decrefedWithoutPositiveRefcount v → t.pagesBalance v < 0

section
variable {t t' : PageRefcountTracker} {p : PageId} {b v : BigVectorId}

theorem count_ascending (s : Finset BigVectorId) (b : BigVectorId) : (ascending s).count b =
    if b ∈ s then 1 else 0 := by
  simp only [(ascending_nodup s).count, mem_ascending]

theorem Balanced.of_refcountsOnly (hr : Recorded t) (h : RefcountsOnly t t') {d : BigVectorId → ℤ}
    (hd : ∀ b, (t'.refcount b : ℤ) = t.refcount b + d b) : Balanced t d t' := by
  refine ⟨h.recorded hr, fun b => ?_⟩
  unfold pagesBalance
  rw [h.pagesReferencing, hd]
  omega

theorem Balanced.congr {d d' : BigVectorId → ℤ} (h : Balanced t d t') (hd : ∀ b, d b = d' b) :
    Balanced t d' t' := ⟨h.1, fun b => (h.2 b).trans (congrArg _ (hd b))⟩

/-- Where only one page comes, goes or records other references, the balance changes by what the
refcounts change beyond that. -/
theorem Balanced.of_page (p : PageId) (hr : Recorded t) (hh : ∀ q, q ≠ p → (q ∈ t'.heldPages ↔ q ∈ t.heldPages))
    (hrec : ∀ q, q ≠ p → lookup q t'.mPageBigvecRefcounts = lookup q t.mPageBigvecRefcounts)
    (hp : p ∈ t'.mPageBigvecRefcounts ↔ p ∈ t'.heldPages) {d : BigVectorId → ℤ} (hd : ∀ b, (t'.refcount b : ℤ) -
        (if p ∈ t'.heldPages ∧ b ∈ t'.mPageBigvecRefcounts.get p then 1 else 0) =
      t.refcount b - (if p ∈ t.heldPages ∧ b ∈ t.mPageBigvecRefcounts.get p then 1 else 0) + d b) :
    Balanced t d t' := by
  refine ⟨fun q => ?_, fun b => ?_⟩
  · rcases eq_or_ne q p with rfl | hq
    · exact hp
    · rw [hh q hq, ← hr q, ← lookup_isSome, ← lookup_isSome, hrec q hq]
  · have ho : t'.othersReferencing p b = t.othersReferencing p b := by
      refine othersReferencing_congr (ext fun q => ?_) (fun q hq => ?_) b
      · simp only [Finset.mem_erase]
        exact and_congr_right (hh q)
      · simp only [StdMap.get, hrec q hq]
    have := hd b
    unfold pagesBalance
    rw [card_pagesReferencing t' p, card_pagesReferencing t p, ho]
    simp only [Nat.cast_add, Nat.cast_ite, Nat.cast_one, Nat.cast_zero]
    omega

/-- A page that leaves the machine takes its references with it. -/
theorem wp_pageNotInRamOrOnDisk_ {t₀ : PageRefcountTracker} (hr : Recorded t₀)
    (hp : p ∈ t₀.heldPages) (hh : t.heldPages = t₀.heldPages.erase p)
    (hrec : t.mPageBigvecRefcounts = t₀.mPageBigvecRefcounts)
    (hc : t.mTotalBigvecRefcounts = t₀.mTotalBigvecRefcounts) :
    wp (pageNotInRamOrOnDisk_ p) (fun _ => Balanced t₀ fun _ => 0) (FailsShort t₀) t := by
  simp only [pageNotInRamOrOnDisk_, wp_bind, wp_get, wp_modify, get_insert, if_true, hrec]
  refine (wp_forM_decref_ _).mono ?_ ?_
  · rintro _ _ ⟨⟨refcounts, _, _, -, rfl⟩, hs⟩
    refine .of_page p hr ?_ ?_ ?_ ?_
    · intro q hq
      change q ∈ t.heldPages ↔ _
      rw [hh, Finset.mem_erase]
      exact and_iff_right hq
    · intro q hq
      simp [hq]
    · change p ∈ erase p _ ↔ p ∈ t.heldPages
      rw [hh, Finmap.mem_erase]
      simp
    · intro b
      have hs := hs b
      have hn : p ∉ t.heldPages := by rw [hh]; exact notMem_erase p _
      change (_ : ℤ) - (if p ∈ t.heldPages ∧ _ then 1 else 0) = _
      rw [count_ascending] at hs
      simp only [refcount, hc] at hs
      simp only [refcount, hp, hn, true_and, false_and, if_false]
      split at hs
      · next hb => rw [if_pos hb]; omega
      · next hb => rw [if_neg hb]; omega
  · rintro e _ ⟨-, v, hv, rfl⟩ w hw
    cases hw
    have hcard := card_pagesReferencing t₀ p v
    rw [count_ascending] at hv
    simp only [refcount, hc] at hv
    simp only [hp, true_and] at hcard
    unfold pagesBalance refcount
    split at hv
    · next hm =>
      rw [if_pos hm] at hcard
      omega
    · omega

variable (hr : Recorded t)
include hr

/-- `pageAddedToRAM` counts the references of the page, also where they are counted already. -/
theorem wp_pageAddedToRAM (refs : Finset BigVectorId) :
    wp (pageAddedToRAM p refs) (fun _ => Balanced t (t.leak (.pageAddedToRAM p refs))) (FailsShort t) t := by
  simp only [pageAddedToRAM, wp_bind, wp_get, wp_ite, wp_modify, wp_pure, broadcastEvent_]
  split
  · next hp => exact .of_refcountsOnly hr (.refl t) fun b => by simp [leak, hp]
  · next hp =>
    refine (wp_forM_incref_ _).mono ?_ ?_
    · rintro _ _ ⟨⟨refcounts, _, _, -, rfl⟩, hs⟩
      refine .of_page p hr ?_ ?_ ?_ ?_
      · intro q hq
        simp [heldPages, hq]
      · intro q hq
        simp [hq]
      · simp [heldPages]
      · intro b
        have hs := hs b
        rw [count_ascending] at hs
        simp only [refcount] at hs
        simp only [refcount, heldPages, leak, hp, get_insert, Finset.mem_union,
          Finset.mem_insert, true_or, true_and, false_or, not_false_eq_true, if_true]
        split_ifs at hs ⊢ <;> omega
    · rintro e _ ⟨-, v, rfl⟩ w hw
      cases hw

/-- `pageSentToDisk` records references without counting them. -/
theorem wp_pageSentToDisk (refs : Finset BigVectorId) :
    wp (pageSentToDisk p refs) (fun _ => Balanced t (t.leak (.pageSentToDisk p refs))) (FailsShort t) t := by
  simp only [pageSentToDisk, wp_bind, wp_get, wp_ite, wp_modify, wp_pure, broadcastEvent_, wp_lassert]
  have hrp : p ∈ t.mPageBigvecRefcounts ↔ p ∈ t.mPagesInRam ∨ p ∈ t.mPagesOnDisk := by
    rw [hr p, heldPages, Finset.mem_union]
  split
  · next hp => exact .of_refcountsOnly hr (.refl t) fun b => by simp [leak, hp]
  · next hp =>
    simp only [hp, or_false] at hrp
    split
    · next hm =>
      have hram := hrp.1 hm
      split
      · refine .of_page p hr (fun q hq => ?_) (fun q hq => ?_) ?_ fun b => ?_
        · simp [heldPages, hq]
        · rfl
        · simp [heldPages, hm]
        · simp [refcount, heldPages, leak, hram]
      · rintro v hv
        cases hv
    · next hm =>
      have hram : p ∉ t.mPagesInRam := fun h => hm (hrp.2 h)
      refine .of_page p hr (fun q hq => ?_) (fun q hq => ?_) ?_ fun b => ?_
      · simp [heldPages, hq]
      · simp [hq]
      · simp [heldPages]
      · simp only [refcount, heldPages, leak, hp, hram, get_insert, Finset.mem_union,
          Finset.mem_insert, or_true, true_and, or_false, false_and, not_false_eq_true, if_true,
          if_false]
        split_ifs <;> omega

theorem wp_pageDroppedFromRam : wp (pageDroppedFromRam p) (fun _ => Balanced t fun _ => 0) (FailsShort t) t := by
  simp only [pageDroppedFromRam, wp_bind, wp_get, wp_ite, wp_modify, wp_pure, broadcastEvent_]
  split
  · exact .of_refcountsOnly hr (.refl t) fun b => by simp
  · next hp =>
    have hp : p ∈ t.mPagesInRam := not_not.1 hp
    -- the two branches differ in a byte total only
    have key pinned unpinned : wp (if p ∉ t.mPagesOnDisk then pageNotInRamOrOnDisk_ p else pure ())
          (fun _ => Balanced t fun _ => 0) (FailsShort t) { t with
            mEventCount := t.mEventCount + 1
            mBytesInRamPinned := pinned
            mBytesInRamUnpinned := unpinned
            mOnPageRefcountEvent := t.mOnPageRefcountEvent ++ [(.PageDroppedFromRam p, t.mEventCount)]
            mPagesUnmapped := t.mPagesUnmapped.erase p
            mPagesInRam := t.mPagesInRam.erase p
            mPagesUnpinned := t.mPagesUnpinned.erase p } := by
      rw [wp_ite, wp_pure]
      split
      · next hd =>
        refine wp_pageNotInRamOrOnDisk_ hr (by simp [heldPages, hp]) ?_ rfl rfl
        simp [heldPages, erase_union_distrib, erase_eq_of_notMem hd]
      · next hd =>
        have hd : p ∈ t.mPagesOnDisk := not_not.1 hd
        refine .of_page p hr (fun q hq => ?_) (fun q hq => ?_) ?_ fun b => ?_
        · simp [heldPages, hq]
        · rfl
        · simp [heldPages, hd, hr p]
        · simp [refcount, heldPages, hd]
    simp only [wp_ite, wp_pure] at key
    split
    · exact key _ _
    · exact key _ _

theorem wp_pageDroppedFromDisk : wp (pageDroppedFromDisk p) (fun _ => Balanced t fun _ => 0) (FailsShort t) t := by
  simp only [pageDroppedFromDisk, wp_bind, wp_get, wp_ite, wp_modify, wp_pure, broadcastEvent_]
  split
  · exact .of_refcountsOnly hr (.refl t) fun b => by simp
  · next hp =>
    have hp : p ∈ t.mPagesOnDisk := not_not.1 hp
    split
    · next hram =>
      refine wp_pageNotInRamOrOnDisk_ hr (by simp [heldPages, hp]) ?_ rfl rfl
      simp [heldPages, erase_union_distrib, erase_eq_of_notMem hram]
    · next hram =>
      have hram : p ∈ t.mPagesInRam := not_not.1 hram
      refine .of_page p hr (fun q hq => ?_) (fun q hq => ?_) ?_ fun b => ?_
      · simp [heldPages, hq]
      · rfl
      · simp [heldPages, hram, hr p]
      · simp [refcount, heldPages, hram]

/-- Counting one reference more changes the balance by it. -/
theorem wp_incref_balance : wp (incref_ v) (fun _ => Balanced t fun b => if b = v then 1 else 0) (FailsShort t) t := by
  refine wp_incref_.mono (fun _ t' h => .of_refcountsOnly hr h.1 fun b => ?_) fun e _ h w hw => ?_
  · rw [h.2 b]
    split <;> simp
  · rw [h.2] at hw
    cases hw

/-- `bigVectorIncreffed(layout)` counts one reference more. -/
theorem wp_bigVectorLayoutIncreffed_balance (l : BigVectorPageLayout) : wp (bigVectorLayoutIncreffed l)
      (fun _ => Balanced t fun b => if b = l.identity then 1 else 0) (FailsShort t) t := by
  simp only [bigVectorLayoutIncreffed, wp_bind, wp_get, wp_ite, wp_modify, wp_pure, broadcastEvent_]
  split
  all_goals
    refine ⟨hr, fun b => ?_⟩
    simp only [pagesBalance, refcount, pagesReferencing, heldPages, get_insert]
    split
    · next h => subst h; omega
    · omega

/-- A call that leaves the page sets, what they record and the refcounts. -/
theorem Balanced.of_same (hp : t'.mPagesInRam = t.mPagesInRam) (hd : t'.mPagesOnDisk = t.mPagesOnDisk)
    (hrec : t'.mPageBigvecRefcounts = t.mPageBigvecRefcounts)
    (hc : t'.mTotalBigvecRefcounts = t.mTotalBigvecRefcounts) : Balanced t (fun _ => 0) t' := by
  refine ⟨fun q => ?_, fun b => ?_⟩
  · rw [hrec, heldPages, hp, hd]
    exact hr q
  · simp only [pagesBalance, refcount, pagesReferencing, heldPages, hp, hd, hrec, hc, add_zero]

/-- The references of the pages in RAM are recorded, so that reading them makes no entry. -/
theorem recorded_after_sendCurrentState : (ascending t.mPagesInRam).foldl
        (fun refs page => Finmap.insert page (StdMap.get refs page) refs) t.mPageBigvecRefcounts =
      t.mPageBigvecRefcounts := by
  have hl : ∀ p ∈ ascending t.mPagesInRam, p ∈ t.mPageBigvecRefcounts := fun p hp =>
    (hr p).2 (mem_union_left _ (mem_ascending.1 hp))
  generalize ascending t.mPagesInRam = l at hl
  induction l with
  | nil => rfl
  | cons p l ih =>
    rw [List.forall_mem_cons] at hl
    rw [foldl_cons, insert_get hl.1, ih hl.2]

/-- What a call changes in the balance: the caller's own references and the leak. A call fails in
`decref_` only where the balance does not cover it. -/
theorem wp_call_balance (op : Op) : wp (call op) (fun _ => Balanced t fun b => external t op b + leak t op b)
    (fun e _ => ∀ v, e = .decrefedWithoutPositiveRefcount v →
      t.pagesBalance v < 0 ∨ op = .bigVectorDecreffed v ∧ t.pagesBalance v ≤ 0) t := by
  have of_wp {d : BigVectorId → ℤ} {x : Action Unit} (h : wp x (fun _ => Balanced t d) (FailsShort t) t)
      (hd : ∀ b, d b = external t op b + leak t op b) : wp x
        (fun _ => Balanced t fun b => external t op b + leak t op b)
        (fun e _ => ∀ v, e = .decrefedWithoutPositiveRefcount v →
          t.pagesBalance v < 0 ∨ op = .bigVectorDecreffed v ∧ t.pagesBalance v ≤ 0) t :=
    h.mono (fun _ _ h => h.congr hd) fun _ _ h v hv => .inl (h v hv)
  cases op with
  | pageAddedToRAM p refs => exact of_wp (wp_pageAddedToRAM hr refs) fun b => (zero_add _).symm
  | pageSentToDisk p refs => exact of_wp (wp_pageSentToDisk hr refs) fun b => (zero_add _).symm
  | pageDroppedFromRam p => exact of_wp (wp_pageDroppedFromRam hr) fun b => rfl
  | pageDroppedFromDisk p => exact of_wp (wp_pageDroppedFromDisk hr) fun b => rfl
  | bigVectorIncreffed v => exact of_wp (wp_incref_balance hr) fun b => (add_zero _).symm
  | bigVectorLayoutIncreffed layout =>
    exact of_wp (wp_bigVectorLayoutIncreffed_balance hr layout) fun b => (add_zero _).symm
  | bigVectorDecreffed v =>
    refine wp_decref_.mono (fun _ t' h => .of_refcountsOnly hr h.1 fun b => ?_) fun e _ h w hw => .inr ?_
    · have := h.2 b
      simp only [external, leak]
      split_ifs at this ⊢ <;> omega
    · rw [h.2.2] at hw
      cases hw
      refine ⟨rfl, ?_⟩
      unfold pagesBalance
      omega
  | bigVectorHeldInPersistentCache v =>
    refine of_wp (d := fun b => if v ∉ t.mBigvecsHeldInPersistentCache ∧ b = v then 1 else 0) ?_
      fun b => (add_zero _).symm
    simp only [call, bigVectorHeldInPersistentCache, wp_bind, wp_get, wp_ite, wp_modify, wp_pure]
    split
    · next hv => exact (Balanced.of_same hr rfl rfl rfl rfl).congr fun b => by simp [hv]
    · next hv =>
      refine (wp_incref_balance (t := { t with
        mBigvecsHeldInPersistentCache := insert v t.mBigvecsHeldInPersistentCache }) hr).imp fun _ _ h => ?_
      exact Balanced.congr (t := t) h fun b => by simp [hv]
  | sendCurrentState =>
    exact .of_same hr rfl rfl (recorded_after_sendCurrentState hr) rfl
  | pinPageIfInRAM | pageMarkedPinned | pageMarkedUnpinned =>
    simp only [call, pinPageIfInRAM, pageMarkedPinned, pageMarkedUnpinned, wp_bind, wp_get, wp_ite, wp_modify,
      wp_pure, broadcastEvent_]
    split_ifs <;> exact .of_same hr rfl rfl rfl rfl
  | broadcastBigvecsInFlight ids refcount guid =>
    simp only [call, broadcastBigvecsInFlight, wp_ite, wp_pure]
    split <;> exact .of_same hr rfl rfl rfl rfl
  | _ => exact .of_same hr rfl rfl rfl rfl

end

/-! ## Runs -/

/-- A tracker together with the references that its callers hold: their increfs and the holds of the
persistent cache, less the decrefs. -/
structure Accounted where
  tracker : PageRefcountTracker
  outstanding : BigVectorId → ℤ := fun _ => 0

variable (a : Accounted)

/-- One call that returns. -/
def countedStep (op : Op) : Option Accounted := (returned (call op) a.tracker).map fun t =>
    { tracker := t, outstanding := fun b => a.outstanding b + external a.tracker op b }

/-- A decref gives back a reference that was taken before. -/
def DecrefMatched : Op → Prop
  | .bigVectorDecreffed v => 0 < a.outstanding v
  | _ => True

instance (op : Op) : Decidable (DecrefMatched a op) := by
  cases op <;> unfold DecrefMatched <;> infer_instance

/-- Each refcount is the references of the callers and the pages on the machine that reference the
vector. -/
def RefcountsExact : Prop := ∀ b, (a.tracker.refcount b : ℤ) = a.outstanding b + (a.tracker.pagesReferencing b).card

/-- The assertion in `decref_` does not fail in the call. -/
def DecrefHolds (op : Op) : Prop :=
  wp (call op) (fun _ _ => True) (fun e _ => ∀ v, e ≠ .decrefedWithoutPositiveRefcount v) a.tracker

/-- The call neither counts references of a page that is on disk, nor records references of a page
that is not in RAM. -/
def CountsEach : Op → Prop
  | .pageAddedToRAM p _ => p ∉ a.tracker.mPagesInRam → p ∈ a.tracker.mPagesOnDisk →
    a.tracker.mPageBigvecRefcounts.get p = ∅
  | .pageSentToDisk p refs => p ∉ a.tracker.mPagesInRam → p ∉ a.tracker.mPagesOnDisk → refs = ∅
  | _ => True

instance (op : Op) : Decidable (CountsEach a op) := by
  cases op <;> unfold CountsEach <;> infer_instance

/-- What every run has: the recorded references belong to the pages on the machine, and no caller
gives back more than it took. -/
structure Sound (a : Accounted) : Prop where
  recorded : Recorded a.tracker
  outstanding : ∀ b, 0 ≤ a.outstanding b

section
variable {a a' : Accounted} {op : Op}

/-- A call leaks nothing exactly when it counts each page once. -/
theorem leak_eq_zero_iff : (∀ b, leak a.tracker op b = 0) ↔ CountsEach a op := by
  cases op with
  | pageAddedToRAM p refs | pageSentToDisk p refs =>
    simp only [leak, CountsEach, eq_empty_iff_forall_notMem]
    refine ⟨fun h hr hd b hb => ?_, fun h b => if_neg fun hl => h hl.1 hl.2.1 b hl.2.2⟩
    have := h b
    rw [if_pos ⟨hr, hd, hb⟩] at this
    cases this
  | _ => exact iff_of_true (fun _ => rfl) trivial

theorem refcountsExact_iff : RefcountsExact a ↔ ∀ b, a.tracker.pagesBalance b = a.outstanding b := by
  refine forall_congr' fun b => ?_
  unfold pagesBalance
  omega

/-- A call that returns. -/
theorem balanced_of_countedStep (h : Recorded a.tracker) (hs : countedStep a op = some a') :
    Balanced a.tracker (fun b => external a.tracker op b + leak a.tracker op b) a'.tracker ∧
      ∀ b, a'.outstanding b = a.outstanding b + external a.tracker op b := by
  obtain ⟨t, ht, rfl⟩ := Option.map_eq_some_iff.1 hs
  exact ⟨(wp_call_balance h op).returned ht, fun _ => rfl⟩

theorem Sound.countedStep (h : Sound a) (hm : DecrefMatched a op) (hs : countedStep a op = some a') : Sound a' := by
  obtain ⟨hb, ho⟩ := balanced_of_countedStep h.recorded hs
  refine ⟨hb.1, fun b => ?_⟩
  have h0 := h.outstanding b
  rw [ho b]
  cases op with
  | bigVectorDecreffed v =>
    have : 0 < a.outstanding v := hm
    simp only [external]
    split
    · next hv => subst hv; omega
    · omega
  | bigVectorIncreffed | bigVectorLayoutIncreffed => simp only [external]; split <;> omega
  | bigVectorHeldInPersistentCache v => simp only [external]; split <;> omega
  | _ => simpa only [external, add_zero] using h0

/-- A call keeps the refcounts exact exactly when it counts each page once. -/
theorem refcountsExact_step_iff (h : Recorded a.tracker) (he : RefcountsExact a)
    (hs : countedStep a op = some a') : RefcountsExact a' ↔ CountsEach a op := by
  obtain ⟨hb, ho⟩ := balanced_of_countedStep h hs
  rw [← leak_eq_zero_iff, refcountsExact_iff]
  refine forall_congr' fun b => ?_
  rw [hb.2 b, ho b, refcountsExact_iff.1 he b]
  dsimp only
  omega

/-- With exact refcounts the assertion in `decref_` does not fail. -/
theorem decrefHolds_of_refcountsExact (h : Sound a) (he : RefcountsExact a)
    (hm : DecrefMatched a op) : DecrefHolds a op := by
  refine (wp_call_balance h.recorded op).mono (fun _ _ _ => trivial) fun e _ hshort v hv => ?_
  have he := refcountsExact_iff.1 he v
  rcases hshort v hv with h' | ⟨hop, h'⟩
  · have := h.outstanding v
    omega
  · subst hop
    have : 0 < a.outstanding v := hm
    omega

end

variable (layouts : BigVectorLayouts)

/-- A tracker on which no call was made. -/
def start : Accounted := { tracker := { mBigVectorLayouts := layouts } }

theorem sound_start : Sound (start layouts) :=
  ⟨fun p => by simp [start, heldPages, Finmap.notMem_empty], fun _ => le_rfl⟩

theorem refcountsExact_start : RefcountsExact (start layouts) := fun b => by simp [start, refcount, pagesReferencing]

/-- In every run of calls whose decrefs are matched: where each page is counted once, the refcounts
are exact and the assertion in `decref_` does not fail; and where all calls return, the refcounts
are exact only then. -/
theorem refcountsExact_iff_countsEach (layouts : BigVectorLayouts) (ops : List Op)
    (hm : EveryStep countedStep DecrefMatched (start layouts) ops) :
    (EveryStep countedStep CountsEach (start layouts) ops → Always countedStep RefcountsExact (start layouts) ops ∧
        EveryStep countedStep DecrefHolds (start layouts) ops) ∧
    ((run countedStep (start layouts) ops).isSome → Always countedStep RefcountsExact (start layouts) ops →
        EveryStep countedStep CountsEach (start layouts) ops) := by
  have hsound : Always countedStep Sound (start layouts) ops :=
    always_of_everyStep (sound_start layouts) (fun a op a' h hm hs => h.countedStep hm hs) hm
  constructor
  · intro hc
    have hexact : Always countedStep (fun a => Sound a ∧ RefcountsExact a) (start layouts) ops :=
      always_of_everyStep ⟨sound_start layouts, refcountsExact_start layouts⟩
        (fun a op a' h hc hs => ⟨h.1.countedStep hc.1 hs,
          (refcountsExact_step_iff h.1.recorded h.2 hs).2 hc.2⟩) (hm.and hc)
    exact ⟨hexact.mono fun a => And.right, hm.of_always hexact fun a op h hm =>
      decrefHolds_of_refcountsExact h.1 h.2 hm⟩
  · intro hr he pre op a hp hs
    obtain ⟨a', hstep, hs'⟩ := exists_step_of_run hr hp hs
    have hpre := (prefix_append pre [op]).trans hp
    exact (refcountsExact_step_iff (hsound pre a hpre hs).recorded (he pre a hpre hs) hstep).1 (he _ a' hp hs')

/-- The condition holds of a run in which a page is written to disk while it is in RAM, and the
caller gives back what it took. -/
theorem refcountsExact_of_page_in_ram : Always countedStep RefcountsExact (start {})
      [.bigVectorLayoutIncreffed ⟨[⟨7, 10, 10⟩], ⟨5, 1⟩⟩, .pageAddedToRAM ⟨8, 10, 10⟩ {⟨5, 1⟩},
        .pageSentToDisk ⟨8, 10, 10⟩ {⟨5, 1⟩}, .bigVectorDecreffed ⟨5, 1⟩] := by
  exact ((refcountsExact_iff_countsEach {} _ (by decide)).1 (by decide)).1

/-- A page goes from RAM to disk and back: its references are counted twice. And a page that is sent
to disk after it left RAM references a vector that no refcount has, so that the assertion in
`decref_` fails when it is dropped. -/
theorem not_refcountsExact_of_page_on_disk : (¬ Always countedStep RefcountsExact (start {})
      [.bigVectorLayoutIncreffed ⟨[⟨7, 10, 10⟩], ⟨5, 1⟩⟩, .pageAddedToRAM ⟨8, 10, 10⟩ {⟨5, 1⟩},
        .pageSentToDisk ⟨8, 10, 10⟩ {⟨5, 1⟩}, .pageDroppedFromRam ⟨8, 10, 10⟩,
        .pageAddedToRAM ⟨8, 10, 10⟩ {⟨5, 1⟩}]) ∧
    ¬ EveryStep countedStep DecrefHolds (start {})
      [.pageSentToDisk ⟨8, 10, 10⟩ {⟨5, 1⟩}, .pageDroppedFromDisk ⟨8, 10, 10⟩] := by
  constructor
  · intro h
    have := h.last rfl ⟨5, 1⟩
    revert this
    decide
  · intro h
    exact h [.pageSentToDisk ⟨8, 10, 10⟩ {⟨5, 1⟩}] (.pageDroppedFromDisk ⟨8, 10, 10⟩) _ prefix_rfl rfl ⟨5, 1⟩ rfl

end PageRefcountTracker
