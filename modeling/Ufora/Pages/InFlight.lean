import Ufora.Pages.Safety

/-!
# The moves in flight

A move sends two messages with its guid, one when it starts and one when it ends, and they come from different
machines, so that either may be the first. The tracker counts the vectors of a guid when it takes the first half
and takes them off the counts with the second. Where the drops that a half makes return, the count of a vector is the
number of guids of which one half has been taken and whose set contains it (`always_inFlightRight`). An assertion
that fails in the midst of a second half leaves vectors in flight for good (`not_always_inFlightRight`).
-/

open Ordered Effect Fora Cumulus TypedFora.Abi Run Finset Finmap StdMap

namespace SystemwidePageRefcountTracker

/-- A tracker with the halves that it has taken, a guid and a refcount each. The `int32_t` counts are exact integers. -/
structure Watched where
  observed : ObservedTracker := {}
  taken : Finset (Hash × ℤ) := ∅

namespace Watched

/-- One call. A half is taken unless the tracker is torn down. -/
def step (w : Watched) (op : Op) : Watched where
  observed := SystemwidePageRefcountTracker.step w.observed op
  taken :=
    match op with
    | .consumePageEvent (.BigVectorsInFlight _ refcount hash) _ =>
      if w.observed.tracker.mIsTornDown then w.taken else insert (hash, refcount) w.taken
    | _ => w.taken

end Watched

/-- Exactly one half of the guid has been taken. -/
def Half (taken : Finset (Hash × ℤ)) (guid : Hash) : Prop :=
  ((guid, 1) ∈ taken ∧ (guid, -1) ∉ taken) ∨ ((guid, -1) ∈ taken ∧ (guid, 1) ∉ taken)
deriving Decidable

variable (vectors : Hash → Finset BigVectorId)

/-- The guids of which exactly one half has been taken and whose set contains the vector. -/
def openMoves (taken : Finset (Hash × ℤ)) (v : BigVectorId) : Finset Hash :=
  (taken.image Prod.fst).filter fun guid => Half taken guid ∧ v ∈ vectors guid

/-- The table has the counts, and no entry where the count is zero. -/
def Counts (table : StdMap BigVectorId ℤ) (count : BigVectorId → ℕ) : Prop :=
  ∀ v, lookup v table = if count v = 0 then none else some (count v : ℤ)

/-- The count of every vector is the number of its open moves. -/
def InFlightRight (w : Watched) : Prop :=
  Counts w.observed.tracker.mBigvecsInFlight fun v => (openMoves vectors w.taken v).card

/-- A message of a move is a half that has not been taken before and comes from a known machine, and no drop that
handling it makes fails an assertion. -/
def HandledHalf (w : Watched) : Op → Prop
  | .consumePageEvent (.BigVectorsInFlight ids refcount hash) m =>
    ids = vectors hash ∧ (refcount = 1 ∨ refcount = -1) ∧ (hash, refcount) ∉ w.taken ∧
      (w.observed.tracker.mIsTornDown = false → w.observed.tracker.mPagesOnMachines.hasMachine m) ∧
      wp (consumePageEvent (.BigVectorsInFlight ids refcount hash) m) (fun _ _ => True) (fun e _ => e.ofDrop = false)
        w.observed
  | _ => True

section
variable {vectors} {taken : Finset (Hash × ℤ)} {guid g : Hash} {refcount : ℤ}
  {v id : BigVectorId} {o : ObservedTracker} {w : Watched}

/-! ## Open moves -/

theorem mem_openMoves : guid ∈ openMoves vectors taken v ↔ Half taken guid ∧ v ∈ vectors guid := by
  refine mem_filter.trans (and_iff_right_of_imp fun h => ?_)
  obtain ⟨h | h, -⟩ := h
  · exact mem_image_of_mem Prod.fst h.1
  · exact mem_image_of_mem Prod.fst h.1

/-- A half that is taken opens its guid or closes it. -/
theorem half_insert (hr : refcount = 1 ∨ refcount = -1) (hnew : (guid, refcount) ∉ taken) :
    Half (insert (guid, refcount) taken) g ↔ if g = guid then ¬ Half taken guid else Half taken g := by
  split
  · next he =>
    subst he
    rcases hr with rfl | rfl <;> simp [Half, hnew]
  · next he => simp [Half, he]

theorem openMoves_insert (hr : refcount = 1 ∨ refcount = -1) (hnew : (guid, refcount) ∉ taken) :
    openMoves vectors (insert (guid, refcount) taken) v = if v ∉ vectors guid then openMoves vectors taken v
      else if Half taken guid then (openMoves vectors taken v).erase guid
      else insert guid (openMoves vectors taken v) := by
  ext g
  split_ifs <;> simp only [Finset.mem_erase, Finset.mem_insert, mem_openMoves, half_insert hr hnew] <;> grind

/-- The count of a vector of the guid goes up with the first half and down with the second. -/
theorem card_openMoves_insert (hr : refcount = 1 ∨ refcount = -1) (hnew : (guid, refcount) ∉ taken) :
    ((openMoves vectors taken v).card : ℤ) + (if v ∈ vectors guid then (if Half taken guid then -1 else 1) else 0) =
      (openMoves vectors (insert (guid, refcount) taken) v).card := by
  rw [openMoves_insert hr hnew]
  by_cases hv : v ∈ vectors guid
  · by_cases hh : Half taken guid
    · have hmem : guid ∈ openMoves vectors taken v := mem_openMoves.2 ⟨hh, hv⟩
      have hpos := card_pos.2 ⟨guid, hmem⟩
      simp only [hv, hh, not_true, if_true, if_false, card_erase_of_mem hmem]
      omega
    · have hmem : guid ∉ openMoves vectors taken v := fun h => hh (mem_openMoves.1 h).1
      simp [hv, hh, card_insert_of_notMem hmem]
  · simp [hv]

/-! ## Counting -/

/-- The moves in flight are those of the tracker, whatever the cascade drops. -/
theorem handlerInvariant_sameMoves (s : SystemwidePageRefcountTracker) :
    HandlerInvariant fun o => o.tracker.mPagesOnMachines.Listed ∧ SameMoves s o.tracker where
  listed _ h := h.1
  declare _ _ h _ := ⟨h.1, h.2.1, h.2.2, h.2.3⟩
  remove _ page h := ⟨h.1.markInternalPageDropped page, h.2.1, h.2.2, h.2.3⟩
  update _ _ h hl hs := ⟨hl, hs.1.trans h.2.1, hs.2.trans h.2.2, hs.3.trans h.2.3⟩

theorem wp_dropIfNotReferenced_sameMoves (hl : o.tracker.mPagesOnMachines.Listed) :
    wp (dropIfNotReferenced id) (fun _ o' => o'.tracker.mPagesOnMachines.Listed ∧ SameMoves o.tracker o'.tracker)
      (fun e _ => e.ofDrop) o :=
  ((handlerInvariant_sameMoves o.tracker).wp_dropIfNotReferenced_ofDrop ⟨hl, rfl, rfl, rfl⟩).mono (fun _ _ h => h)
    fun _ _ h => h.2

/-- The count of one vector changes. -/
theorem wp_bigVectorInFlightRefcountChanged_ (hl : o.tracker.mPagesOnMachines.Listed) {count count' : BigVectorId → ℕ}
    {netChange : ℤ} (h : Counts o.tracker.mBigvecsInFlight count)
    (hc : ∀ v, (count v : ℤ) + (if v = id then netChange else 0) = count' v) :
    wp (bigVectorInFlightRefcountChanged_ netChange id) (fun _ o' => o'.tracker.mPagesOnMachines.Listed ∧
      Counts o'.tracker.mBigvecsInFlight count' ∧
      o'.tracker.mPendingInFlightBigvecs = o.tracker.mPendingInFlightBigvecs ∧
      o'.tracker.mPendingInFlightBigvecRefcounts = o.tracker.mPendingInFlightBigvecRefcounts)
      (fun e _ => e.ofDrop) o := by
  have hget : o.tracker.mBigvecsInFlight.get id = count id := by
    rw [StdMap.get, h id]
    split
    · next hz => rw [hz]; rfl
    · rfl
  have hid : (count id : ℤ) + netChange = count' id := by simpa using hc id
  have hother (v : BigVectorId) (hv : v ≠ id) : count' v = count v := Int.natCast_inj.1
      (by simpa [hv] using (hc v).symm)
  simp only [bigVectorInFlightRefcountChanged_, wp_bind, wp_update, wp_self, wp_lassert, wp_ite,
    get_insert, if_true, hget, hid]
  rw [if_pos (Int.natCast_nonneg _)]
  split
  · next hz =>
    refine (wp_dropIfNotReferenced_sameMoves ?_).imp fun _ o' ho' => ?_
    · exact hl
    refine ⟨ho'.1, fun v => ?_, ho'.2.2, ho'.2.3⟩
    rw [ho'.2.1, StdMap.lookup_erase, StdMap.lookup_insert, h v]
    by_cases hv : v = id
    · subst hv
      simp [Int.natCast_eq_zero.1 hz]
    · simp [hv, hother v hv]
  · next hz =>
    refine (wp_dropIfNotReferenced_sameMoves ?_).imp fun _ o' ho' => ?_
    · exact hl
    refine ⟨ho'.1, fun v => ?_, ho'.2.2, ho'.2.3⟩
    rw [ho'.2.1, StdMap.lookup_insert, h v]
    by_cases hv : v = id
    · subst hv
      rw [if_pos rfl, if_neg fun he => hz (Int.natCast_eq_zero.2 he)]
    · simp [hv, hother v hv]

/-- The counts of some vectors change. -/
theorem wp_forM_refcountChanged (l : List BigVectorId) (hnodup : l.Nodup) (hl : o.tracker.mPagesOnMachines.Listed)
    {count count' : BigVectorId → ℕ} {netChange : ℤ} (h : Counts o.tracker.mBigvecsInFlight count)
    (hc : ∀ v, (count v : ℤ) + (if v ∈ l then netChange else 0) = count' v) :
    wp (l.forM (bigVectorInFlightRefcountChanged_ netChange)) (fun _ o' => o'.tracker.mPagesOnMachines.Listed ∧
      Counts o'.tracker.mBigvecsInFlight count' ∧
      o'.tracker.mPendingInFlightBigvecs = o.tracker.mPendingInFlightBigvecs ∧
      o'.tracker.mPendingInFlightBigvecRefcounts = o.tracker.mPendingInFlightBigvecRefcounts)
      (fun e _ => e.ofDrop) o := by
  induction l generalizing o count with
  | nil =>
    have he : count = count' := funext fun v => Int.natCast_inj.1 (by simpa using hc v)
    exact ⟨hl, he ▸ h, rfl, rfl⟩
  | cons id l ih =>
    obtain ⟨hnot, hnodup⟩ := List.nodup_cons.1 hnodup
    show wp (bigVectorInFlightRefcountChanged_ netChange id >>= fun _ => l.forM _) _ _ o
    rw [wp_bind]
    refine (@wp_bigVectorInFlightRefcountChanged_ id _ hl _ (fun v => if v = id then count' v else count v)
      _ h fun v => ?_).imp fun _ o' ho' => ?_
    · have hv := hc v
      split_ifs <;> simp_all
    · obtain ⟨hl', hcounts, hpending, hrefcounts⟩ := ho'
      refine (ih hnodup hl' hcounts fun v => ?_).imp fun _ o'' ho'' => ⟨ho''.1, ho''.2.1,
        ho''.2.2.1.trans hpending, ho''.2.2.2.trans hrefcounts⟩
      have hv := hc v
      by_cases he : v = id
      · subst he
        simp [hnot]
      · simpa [he] using hv

/-! ## One call -/

/-- The refcount that waits for the other half. -/
def waiting (taken : Finset (Hash × ℤ)) (guid : Hash) : ℤ :=
  (if (guid, 1) ∈ taken then 1 else 0) - if (guid, -1) ∈ taken then 1 else 0

theorem half_iff_waiting : Half taken guid ↔ waiting taken guid ≠ 0 := by
  unfold Half waiting
  split_ifs <;> simp_all

theorem waiting_insert (hr : refcount = 1 ∨ refcount = -1) (hnew : (guid, refcount) ∉ taken) :
    waiting (insert (guid, refcount) taken) g = waiting taken g + if g = guid then refcount else 0 := by
  rcases eq_or_ne g guid with rfl | hne
  · rcases hr with rfl | rfl <;> simp [waiting, hnew, sub_eq_add_neg, add_comm]
  · simp [waiting, hne]

theorem waiting_eq_neg (hr : refcount = 1 ∨ refcount = -1) (hnew : (guid, refcount) ∉ taken)
    (hhalf : Half taken guid) : waiting taken guid = -refcount := by
  rw [half_iff_waiting] at hhalf
  unfold waiting at hhalf ⊢
  rcases hr with rfl | rfl <;> simp_all

/-- What holds between the calls. -/
structure Watched.Inv (vectors : Hash → Finset BigVectorId) (w : Watched) : Prop where
  listed : w.observed.tracker.mPagesOnMachines.Listed
  right : InFlightRight vectors w
  refcounts : ∀ guid, w.observed.tracker.mPendingInFlightBigvecRefcounts.get guid = waiting w.taken guid
  pending : ∀ guid, Half w.taken guid → w.observed.tracker.mPendingInFlightBigvecs.get guid = vectors guid

/-- A half whose drops return is counted. -/
theorem Watched.Inv.bigVectorsInFlight {s : SystemwidePageRefcountTracker} (h : w.Inv vectors)
    (hs : SameMoves w.observed.tracker s) (hl : s.mPagesOnMachines.Listed) (hr : refcount = 1 ∨ refcount = -1)
    (hnew : (guid, refcount) ∉ w.taken) :
    wp (bigVectorsInFlight (vectors guid) refcount guid)
      (fun _ o' => Watched.Inv vectors ⟨o', insert (guid, refcount) w.taken⟩) (fun e _ => e.ofDrop)
      { w.observed with tracker := s } := by
  have hcard v := @card_openMoves_insert vectors _ _ _ v hr hnew
  have hright : Counts s.mBigvecsInFlight fun v => (openMoves vectors w.taken v).card := by
    rw [hs.inFlight]
    exact h.right
  simp only [SystemwidePageRefcountTracker.bigVectorsInFlight, wp_bind, wp_self, wp_ite, wp_update, wp_lassert]
  by_cases hhalf : Half w.taken guid
  · have hopposite : s.mPendingInFlightBigvecRefcounts.get guid = -refcount := by
      rw [hs.refcounts, h.refcounts, waiting_eq_neg hr hnew hhalf]
    rw [if_neg (by rcases hr with rfl | rfl <;> simp [hopposite]), if_pos hopposite, hs.pending, h.pending guid hhalf]
    refine (@wp_forM_refcountChanged _ _ (ascending_nodup _) hl _ (fun v =>
      (openMoves vectors (insert (guid, refcount) w.taken) v).card) _ hright fun v => ?_).imp
      fun _ o' ho' => ?_
    · simp only [← hcard v, if_pos hhalf, mem_ascending]
    · obtain ⟨hl', hcounts, hpending, hrefcounts⟩ := ho'
      refine ⟨hl', hcounts, fun g => ?_, fun g hg => ?_⟩
      · rw [get_erase, hrefcounts, hs.refcounts, h.refcounts, waiting_insert hr hnew]
        split
        · next he => rw [he, waiting_eq_neg hr hnew hhalf, neg_add_cancel]; rfl
        · rw [add_zero]
      · rw [half_insert hr hnew] at hg
        rw [get_erase, hpending, hs.pending]
        split_ifs at hg ⊢ with he
        · exact absurd hhalf hg
        · exact h.pending g hg
  · rw [if_pos (by rw [hs.refcounts, h.refcounts, not_not.1 (mt half_iff_waiting.2 hhalf)])]
    refine (@wp_forM_refcountChanged _ _ (ascending_nodup _) hl _ (fun v =>
      (openMoves vectors (insert (guid, refcount) w.taken) v).card) _ hright fun v => ?_).imp
      fun _ o' ho' => ?_
    · simp only [← hcard v, if_neg hhalf, mem_ascending]
    · obtain ⟨hl', hcounts, hpending, hrefcounts⟩ := ho'
      refine ⟨hl', hcounts, fun g => ?_, fun g hg => ?_⟩
      · rw [hrefcounts, get_insert, hs.refcounts, h.refcounts, waiting_insert hr hnew]
        split
        · next he => rw [he, not_not.1 (mt half_iff_waiting.2 hhalf), zero_add]
        · rw [add_zero]
      · rw [half_insert hr hnew] at hg
        rw [hpending, get_insert, hs.pending]
        split_ifs at hg ⊢ with he
        · rw [he]
        · exact h.pending g hg

/-- The other calls leave the moves in flight alone, whether they return or throw. -/
theorem wp_handle_sameMoves (hl : o.tracker.mPagesOnMachines.Listed) (op : Op)
    (hop : ∀ ids refcount hash m, op ≠ .consumePageEvent (.BigVectorsInFlight ids refcount hash) m) :
    wp (handle op) (fun _ o' => o'.tracker.mPagesOnMachines.Listed ∧ SameMoves o.tracker o'.tracker)
      (fun _ o' => o'.tracker.mPagesOnMachines.Listed ∧ SameMoves o.tracker o'.tracker) o := by
  have hI := handlerInvariant_sameMoves o.tracker
  have ho : o.tracker.mPagesOnMachines.Listed ∧ SameMoves o.tracker o.tracker := ⟨hl, rfl, rfl, rfl⟩
  cases op with
  | addMachine m =>
    simp only [handle, addMachine, onPagesOnMachines, PagesOnMachines.addMachine, wp_bind, wp_self, wp_ite, wp_pure,
      wp_onPart, wp_get, wp_lassert, wp_modify]
    split_ifs <;> exact ⟨hl, rfl, rfl, rfl⟩
  | consumePageEvent e m =>
    exact (hI.wp_consumePageEvent ho e m fun ids refcount hash _ he =>
      absurd (he ▸ rfl) (hop ids refcount hash m)).mono (fun _ _ h => h) fun _ _ h => h.1
  | dropMachine m =>
    simp only [handle, dropMachine, onPagesOnMachines, PagesOnMachines.dropMachine, wp_bind, wp_self, wp_ite, wp_pure,
      wp_onPart, wp_get, wp_lassert, wp_modify, wp_update]
    split_ifs
    · exact ho
    · refine (wp_forM (fun _ o' => o'.tracker.mPagesOnMachines.Listed ∧ SameMoves o.tracker o'.tracker)
        (fun id _ o' h => ?_) _ ⟨hl, rfl, rfl, rfl⟩).imp fun _ _ h => h
      simp only [dropIfNotHeld, wp_bind, wp_self, wp_ite, wp_pure]
      split
      · exact (hI.cascade.wp_drop ⟨h.1, h.2.1, h.2.2, h.2.3⟩).mono (fun _ _ h => h) fun _ _ h => h.1
      · exact h
    · exact ⟨hl, rfl, rfl, rfl⟩
  | teardown | layoutsChanged => exact ⟨hl, rfl, rfl, rfl⟩

theorem Watched.Inv.of_sameMoves (h : w.Inv vectors) (hl : o.tracker.mPagesOnMachines.Listed)
    (hs : SameMoves w.observed.tracker o.tracker) : Watched.Inv vectors ⟨o, w.taken⟩ := by
  refine ⟨hl, ?_, ?_, ?_⟩
  · rw [InFlightRight, hs.inFlight]
    exact h.right
  · rw [hs.refcounts]
    exact h.refcounts
  · rw [hs.pending]
    exact h.pending

theorem Watched.Inv.step (h : w.Inv vectors) (op : Op) (hop : HandledHalf vectors w op) : (w.step op).Inv vectors := by
  by_cases hmove : ∃ ids refcount hash m, op = .consumePageEvent (.BigVectorsInFlight ids refcount hash) m
  · obtain ⟨ids, refcount, hash, m, rfl⟩ := hmove
    obtain ⟨rfl, hr, hnew, hknown, hdrops⟩ := hop
    have hwp : wp (consumePageEvent (.BigVectorsInFlight (vectors hash) refcount hash) m)
        (fun _ o' => Watched.Inv vectors ⟨o',
          if w.observed.tracker.mIsTornDown then w.taken else insert (hash, refcount) w.taken⟩)
        (fun e _ => e.ofDrop) w.observed := by
      simp only [consumePageEvent, wp_bind, wp_self, wp_ite, wp_pure, wp_lassert, wp_update]
      split_ifs with htorn hm
      · exact h
      · exact h.bigVectorsInFlight ⟨rfl, rfl, rfl⟩ (h.listed.consumePageEvent _ m) hr hnew
      · exact absurd (hknown (eq_false_of_ne_true htorn)) hm
    refine ((hwp.and hdrops).mono (fun _ _ h => h.1) fun _ _ h => ?_).exec
    exact absurd h.1 (ne_true_of_eq_false h.2)
  · have htaken : (w.step op).taken = w.taken := by
      cases op with
      | consumePageEvent e m =>
        cases e with
        | BigVectorsInFlight ids refcount hash => exact absurd ⟨_, _, _, _, rfl⟩ hmove
        | _ => rfl
      | _ => rfl
    have hs := (wp_handle_sameMoves h.listed op fun ids refcount hash m he =>
      hmove ⟨ids, refcount, hash, m, he⟩).exec
    have hinv := h.of_sameMoves hs.1 hs.2
    rw [← htaken] at hinv
    exact hinv

/-! ## Runs -/

theorem inv_empty (layouts : BigVectorLayouts) :
    Watched.Inv vectors { observed := { tracker := { mBigVectorLayouts := layouts } } } where
  listed := PagesOnMachines.listed_empty
  right v := by simp [openMoves]
  refcounts guid := by simp [waiting]
  pending guid hh := by simp [Half] at hh

end

/-- In every run each of whose messages of moves is a new half whose drops return, the count of every vector
is the number of guids of which exactly one half has been taken and whose set contains the vector, and a vector has
no entry where that is zero. -/
theorem always_inFlightRight (vectors : Hash → Finset BigVectorId) (layouts : BigVectorLayouts) (ops : List Op)
    (h : EveryStep (total Watched.step) (HandledHalf vectors)
      { observed := { tracker := { mBigVectorLayouts := layouts } } } ops) :
    Always (total Watched.step) (InFlightRight vectors)
      { observed := { tracker := { mBigVectorLayouts := layouts } } } ops :=
  (always_of_everyStep (inv_empty layouts) (fun _ op _ h hc he => total_eq_some.1 he ▸ h.step op hc) h).mono
    fun _ h => h.right

/-- Two moves of a vector overlap; of the second one the later half comes first. -/
theorem always_inFlightRight_overlapping : Always (total Watched.step) (InFlightRight fun _ => {⟨5, 1⟩})
    { observed := { tracker := { mBigVectorLayouts := {} } } }
    [.addMachine ⟨1⟩, .consumePageEvent (.BigVectorsInFlight {⟨5, 1⟩} 1 7) ⟨1⟩,
      .consumePageEvent (.BigVectorsInFlight {⟨5, 1⟩} (-1) 8) ⟨1⟩,
      .consumePageEvent (.BigVectorsInFlight {⟨5, 1⟩} (-1) 7) ⟨1⟩] := by
  refine always_inFlightRight _ {} _ ?_
  simp only [everyStep_cons, everyStep_nil, total_eq_some, HandledHalf, forall_eq', and_true, true_and]
  refine ⟨⟨by decide, by decide, by decide, trivial⟩, ⟨by decide, by decide, by decide, trivial⟩,
    by decide, by decide, by decide, trivial⟩

/-- The end of a move takes two vectors off the counts. Nothing references the first one any more, its layout is
not known, and the assertion that then fails leaves the second one in flight. -/
theorem not_always_inFlightRight : ¬ Always (total Watched.step) (InFlightRight fun _ => {⟨5, 1⟩, ⟨6, 1⟩}) {}
    [.addMachine ⟨1⟩, .consumePageEvent (.BigVectorsInFlight {⟨5, 1⟩, ⟨6, 1⟩} 1 7) ⟨1⟩,
      .consumePageEvent (.BigVectorsInFlight {⟨5, 1⟩, ⟨6, 1⟩} (-1) 7) ⟨1⟩] := by
  intro h
  have hlast := h.last rfl ⟨6, 1⟩
  revert hlast
  decide

end SystemwidePageRefcountTracker
