import Ufora.Pages.SystemwidePageRefcountTracker

/-!
# The pages that a call may orphan

A vector that falls takes along the internal pages that no other current layout has, and a synthetic
page that goes may make the vector fall that defines it. `Falls` and `Goes` are the vectors and the
pages that this reaches, read off the layouts and the pages before the call, and a call drops and
removes no others. `OrphansNoLastReference` asks that a call takes away all references to a vector
that a page references only where it looks at the vector in any case.
-/

open Ordered Effect Fora Cumulus TypedFora.Abi List Finset Finmap TwoWaySetMap MapWithIndex Option PagesOnMachines

namespace BigVectorLayouts

/-- A layout that becomes an old one can still be read. -/
theorem tryGetLayoutForId_retireLayout {s : BigVectorLayouts} {v w : BigVectorId} {l : BigVectorPageLayout}
    (h : s.tryGetLayoutForId v = some l) : (s.retireLayout v l).tryGetLayoutForId w = s.tryGetLayoutForId w := by
  unfold tryGetLayoutForId at h ⊢
  split
  · rfl
  · next hw =>
    simp only [retireLayout, StdMap.lookup_erase, StdMap.lookup_insert]
    split
    · next heq =>
      subst heq
      rw [if_neg hw] at h
      rw [h]
      rfl
    · rfl

/-- Dropping a layout leaves every layout readable and takes pages from the dropped vector only. The
pages that it returns are pages of the layout that no vector has any more. -/
theorem dropLayoutForIdAndReturnOrphanedPages_spec {s : BigVectorLayouts} {v : BigVectorId} :
    wp (dropLayoutForIdAndReturnOrphanedPages v)
      (fun pages l => ((∀ w, l.tryGetLayoutForId w = s.tryGetLayoutForId w) ∧
        ∀ p w, s.mPagesToVectors.contains p w → w ≠ v → l.mPagesToVectors.contains p w) ∧
        ∀ p ∈ pages, (∃ layout ∈ s.tryGetLayoutForId v, p ∈ layout.vectorIdentities) ∧
          ∀ w, ¬ l.mPagesToVectors.contains p w)
      (fun e l => ((∀ w, l.tryGetLayoutForId w = s.tryGetLayoutForId w) ∧
        ∀ p w, s.mPagesToVectors.contains p w → w ≠ v → l.mPagesToVectors.contains p w) ∧ e.ofDrop) s := by
  unfold dropLayoutForIdAndReturnOrphanedPages
  rw [wp_ite]
  split
  · exact ⟨⟨fun _ => rfl, fun _ _ h _ => h⟩, by simp⟩
  · rw [wp_bind, wp_getLayoutForId]
    split
    · next layout hlayout =>
      have hsame : (∀ w, (s.retireLayout v layout).tryGetLayoutForId w = s.tryGetLayoutForId w) ∧
          ∀ p w, s.mPagesToVectors.contains p w → w ≠ v → (s.retireLayout v layout).mPagesToVectors.contains p w :=
        ⟨fun w => tryGetLayoutForId_retireLayout hlayout, fun p w h hw => contains_dropValue.2 ⟨h, hw⟩⟩
      have hpages : ∀ p ∈ (s.retireLayout v layout).pagesWithoutVector layout,
          (∃ layout ∈ s.tryGetLayoutForId v, p ∈ layout.vectorIdentities) ∧
            ∀ w, ¬ (s.retireLayout v layout).mPagesToVectors.contains p w := by
        intro p hp
        obtain ⟨hmem, hkey⟩ := Finset.mem_filter.1 hp
        rw [TwoWaySetMap.hasKey_iff, not_exists] at hkey
        exact ⟨⟨layout, hlayout, mem_toFinset.1 hmem⟩, hkey⟩
      simp only [wp_bind, wp_modify, wp_get, wp_ite, wp_lassert, wp_pure]
      split_ifs
      · exact ⟨hsame, hpages⟩
      · exact ⟨hsame, rfl⟩
      · exact ⟨hsame, hpages⟩
    · exact ⟨⟨fun _ => rfl, fun _ _ h _ => h⟩, rfl⟩

end BigVectorLayouts

namespace SystemwidePageRefcountTracker

/-! ## What a call may drop -/

section
variable (s : SystemwidePageRefcountTracker) (op : Op) (v : BigVectorId) (page : PageId)

/-- A vector that a machine or a move has. -/
def Held : Prop := s.mBigVectorReferences.hasKey v ∨ v ∈ s.mBigvecsInFlight

/-- The layout of the vector has the page, an internal one. -/
def HasInternalPage : Prop :=
  page.isInternal ∧ ∃ layout ∈ s.mBigVectorLayouts.tryGetLayoutForId v, page ∈ layout.vectorIdentities

/-- The vectors that the call takes a reference from, and then looks at. -/
def looksAt : Op → Finset BigVectorId
  | .dropMachine m => s.mBigVectorReferences.getKeys m
  | .consumePageEvent (.SyntheticPageRealized page) _ => (s.mSyntheticPages.tryGetValue page).toFinset
  | .consumePageEvent (.BigVectorNoLongerReferenced id) _ => {id}
  | .consumePageEvent (.BigVectorsInFlight ids _ hash) _ =>
    if s.mPendingInFlightBigvecRefcounts.get hash = 0 then ids else s.mPendingInFlightBigvecs.get hash
  | _ => ∅

/-- The change that a half of a move makes to the counts of its vectors. -/
def netChangeFor (hash : Hash) : ℤ := if s.mPendingInFlightBigvecRefcounts.get hash = 0 then 1 else -1

/-- The vector is held, and still is when the call has taken its references away. -/
def HeldAfter : Op → Prop
  | .dropMachine m => (s.mBigVectorReferences.dropValue m).hasKey v ∨ v ∈ s.mBigvecsInFlight
  | .consumePageEvent (.BigVectorNoLongerReferenced id) m => v ∈ s.mBigvecsInFlight ∨
      (if s.mBigVectorReferenceCounts.get (id, m) - 1 = 0 then s.mBigVectorReferences.drop id m
        else s.mBigVectorReferences).hasKey v
  | .consumePageEvent (.BigVectorsInFlight ids refcount hash) m => s.mBigVectorReferences.hasKey v ∨
      v ∈ s.mBigvecsInFlight ∧ (v ∈ s.looksAt (.consumePageEvent (.BigVectorsInFlight ids refcount hash) m) →
        s.mBigvecsInFlight.get v + s.netChangeFor hash ≠ 0)
  | _ => s.Held v

/-- The synthetic pages when the call has taken its references away. -/
def syntheticAfter : Op → MapWithIndex PageId BigVectorId
  | .consumePageEvent (.SyntheticPageRealized page) _ => s.mSyntheticPages.discard page
  | _ => s.mSyntheticPages

end

mutual

/-- A vector that the call may drop: one that it looks at, or that defines a synthetic page that goes.
No machine and no move has it, and all synthetic pages and pages go that reference it, which
`dropMachine` does not ask of the vectors it looks at. -/
inductive Falls (s : SystemwidePageRefcountTracker) (op : Op) : BigVectorId → Prop
  | machine {m : MachineId} {v : BigVectorId} (hop : op = .dropMachine m) (hmem : v ∈ s.looksAt op)
      (hheld : ¬ s.HeldAfter v op) : Falls s op v
  | lookedAt {v : BigVectorId} (hmem : v ∈ s.looksAt op) (hheld : ¬ s.HeldAfter v op)
      (hsynthetic : ∀ page, (s.syntheticAfter op).tryGetValue page = some v → Goes s op page)
      (hpages : ∀ page, v ∈ s.mPagesOnMachines.mPageBigvecs.get page → Goes s op page) : Falls s op v
  | synthetic {v : BigVectorId} {page : PageId} (hgoes : Goes s op page)
      (hpage : s.mSyntheticPages.tryGetValue page = some v) (hheld : ¬ s.HeldAfter v op)
      (hsynthetic : ∀ page, (s.syntheticAfter op).tryGetValue page = some v → Goes s op page)
      (hpages : ∀ page, v ∈ s.mPagesOnMachines.mPageBigvecs.get page → Goes s op page) : Falls s op v

/-- A page that the call may remove: an internal page of a vector that may be dropped, as may be all
vectors that have it in their current layouts. -/
inductive Goes (s : SystemwidePageRefcountTracker) (op : Op) : PageId → Prop
  | orphaned {v : BigVectorId} {page : PageId} (hfalls : Falls s op v) (hpage : s.HasInternalPage v page)
      (hall : ∀ w, s.mBigVectorLayouts.mPagesToVectors.contains page w → Falls s op w) : Goes s op page

end

section
variable (s : SystemwidePageRefcountTracker) (op : Op) (v : BigVectorId)

/-- The call may take every reference to the vector away. -/
def LosesReferences : Prop := ¬ s.HeldAfter v op ∧
  (∀ page, (s.syntheticAfter op).tryGetValue page = some v → Goes s op page) ∧
  ∀ page, v ∈ s.mPagesOnMachines.mPageBigvecs.get page → Goes s op page

/-- The call drops a machine that references the vector. -/
def DropsMachineOf : Op → Prop
  | .dropMachine m => v ∈ s.mBigVectorReferences.getKeys m
  | _ => False

/-- Each vector that a page references and of which the call may take every reference away has been
declared dropped, or the call drops a machine that references it. -/
def OrphansNoLastReference : Prop := ∀ page, ∀ v ∈ s.mPagesOnMachines.mPageBigvecs.get page,
  s.LosesReferences op v → s.isBigVectorDroppedAcrossEntireSystem v.guid ∨ s.DropsMachineOf v op

end

section
variable {s : SystemwidePageRefcountTracker} {op : Op} {v : BigVectorId} {page : PageId}

instance : Decidable (s.HeldAfter v op) := by
  refine op.casesOn (fun _ => ?_) (fun _ => ?_) (fun e _ => ?_) ?_ fun _ => ?_
  on_goal 3 => cases e
  all_goals unfold HeldAfter Held; infer_instance

/-- A synthetic page that is left was there before the call. -/
theorem tryGetValue_syntheticAfter (h : (s.syntheticAfter op).tryGetValue page = some v) :
    s.mSyntheticPages.tryGetValue page = some v := by
  unfold syntheticAfter at h
  split at h
  · rw [tryGetValue_discard] at h
    split at h
    · cases h
    · exact h
  · exact h

end

/-! ## While a call drops vectors -/

/-- Where a call is that has taken its references away: only pages that go and vectors that fall are
missing. -/
structure Dropping (s : SystemwidePageRefcountTracker) (op : Op) (o : ObservedTracker) : Prop where
  listed : o.tracker.mPagesOnMachines.Listed
  held : ∀ v, s.HeldAfter v op → o.tracker.Held v
  synthetic : ∀ p v, (s.syntheticAfter op).tryGetValue p = some v →
    o.tracker.mSyntheticPages.tryGetValue p = some v ∨ Goes s op p
  syntheticBefore : ∀ p v, o.tracker.mSyntheticPages.tryGetValue p = some v → s.mSyntheticPages.tryGetValue p = some v
  pages : ∀ p, ∀ v ∈ s.mPagesOnMachines.mPageBigvecs.get p,
    v ∈ o.tracker.mPagesOnMachines.mPageBigvecs.get p ∨ Goes s op p
  pagesBefore : ∀ p, o.tracker.mPagesOnMachines.mPageBigvecs.get p ⊆ s.mPagesOnMachines.mPageBigvecs.get p
  layouts : ∀ v, o.tracker.mBigVectorLayouts.tryGetLayoutForId v = s.mBigVectorLayouts.tryGetLayoutForId v
  vectors : ∀ p v, s.mBigVectorLayouts.mPagesToVectors.contains p v →
    o.tracker.mBigVectorLayouts.mPagesToVectors.contains p v ∨ Falls s op v
  dropped : s.mDroppedBigvecs ⊆ o.tracker.mDroppedBigvecs

/-- The vector has been declared dropped unless something references it, or the call drops a machine
that does. -/
def Kept (s : SystemwidePageRefcountTracker) (op : Op) (v : BigVectorId) (o : ObservedTracker) : Prop :=
  o.tracker.isBigvecNotReferenced_ v → o.tracker.isBigVectorDroppedAcrossEntireSystem v.guid ∨ s.DropsMachineOf v op

/-- What machines and moves have is the same, and no declaration is taken back. -/
structure SameHolders (o o' : ObservedTracker) : Prop where
  inFlight : o'.tracker.mBigvecsInFlight = o.tracker.mBigvecsInFlight
  references : o'.tracker.mBigVectorReferences = o.tracker.mBigVectorReferences
  dropped : o.tracker.mDroppedBigvecs ⊆ o'.tracker.mDroppedBigvecs

section
variable {s : SystemwidePageRefcountTracker} {op : Op} {o o' o'' : ObservedTracker} {id v : BigVectorId} {page : PageId}

instance : IsPreorder ObservedTracker SameHolders where
  refl _ := ⟨rfl, rfl, Finset.Subset.refl _⟩
  trans _ _ _ h h' :=
    ⟨h'.inFlight.trans h.inFlight, h'.references.trans h.references, h.dropped.trans h'.dropped⟩

/-- A declaration changes no holder. -/
theorem sameHolders_declare (o : ObservedTracker) (id : BigVectorId) : SameHolders o (o.declare id) :=
  ⟨rfl, rfl, subset_insert _ _⟩

/-- Machines and moves have the same vectors. -/
theorem SameHolders.held (h : SameHolders o o') : o'.tracker.Held v ↔ o.tracker.Held v := by
  unfold Held
  rw [h.inFlight, h.references]

/-- Dropping a synthetic page takes a reference from the vector that defines it only. -/
theorem isBigvecNotReferenced_dropSynthetic {bigvec : BigVectorId}
    (hb : o.tracker.mSyntheticPages.tryGetValue page = some bigvec) (hv : v ≠ bigvec)
    (hn : (o.dropSynthetic page).tracker.isBigvecNotReferenced_ v) : o.tracker.isBigvecNotReferenced_ v := by
  refine ⟨hn.1, hn.2.1, fun hs => hn.2.2.1 ?_, hn.2.2.2⟩
  obtain ⟨q, hq⟩ := hasValue_iff.1 hs
  refine hasValue_iff.2 ⟨q, ?_⟩
  simp only [ObservedTracker.dropSynthetic, tryGetValue_discard]
  rw [if_neg, hq]
  rintro rfl
  exact hv (some.inj (hq.symm.trans hb))

/-- A vector that is looked at may have lost its last reference. -/
theorem kept_declare (hk : v ≠ id → Kept s op v o) :
    if o.tracker.isBigvecNotReferenced_ id then Kept s op v (o.declare id) else Kept s op v o := by
  split
  · intro hn
    by_cases hid : v = id
    · exact .inl (hid ▸ mem_insert_self _ _)
    · exact (hk hid hn).imp_left (mem_insert_of_mem ·)
  · next hid =>
    by_cases heq : v = id
    · exact fun hn => absurd (heq ▸ hn) hid
    · exact hk heq

namespace Dropping

/-- The call has taken its references away, and changed nothing else. -/
theorem start (hl : o.tracker.mPagesOnMachines.Listed) (hheld : ∀ v, s.HeldAfter v op → o.tracker.Held v)
    (hy : o.tracker.mSyntheticPages = s.syntheticAfter op)
    (hp : o.tracker.mPagesOnMachines.mPageBigvecs = s.mPagesOnMachines.mPageBigvecs)
    (hb : ∀ v, o.tracker.mBigVectorLayouts.tryGetLayoutForId v = s.mBigVectorLayouts.tryGetLayoutForId v)
    (hv : o.tracker.mBigVectorLayouts.mPagesToVectors = s.mBigVectorLayouts.mPagesToVectors)
    (hd : o.tracker.mDroppedBigvecs = s.mDroppedBigvecs) : Dropping s op o where
  listed := hl
  held := hheld
  synthetic p v h := .inl (hy ▸ h)
  syntheticBefore p v h := tryGetValue_syntheticAfter (hy ▸ h)
  pages p v h := .inl (hp ▸ h)
  pagesBefore p := by rw [hp]
  layouts := hb
  vectors p v h := .inl (hv ▸ h)
  dropped := by rw [hd]

section
variable (h : Dropping s op o)
include h

/-- Whatever references a vector that nothing references any more has gone. -/
theorem gone (hn : o.tracker.isBigvecNotReferenced_ v) : s.LosesReferences op v := by
  refine ⟨fun hheld => (h.held v hheld).elim hn.2.1 hn.1, fun page hp => ?_, fun page hp => ?_⟩
  · exact (h.synthetic page v hp).resolve_left fun hp => hn.2.2.1 (hasValue_iff.2 ⟨page, hp⟩)
  · exact (h.pages page v hp).resolve_left fun hp =>
      hn.2.2.2 (h.listed.isBigvecReferencedByPage_iff.2 ⟨page, hp⟩)

/-- A vector is declared dropped. -/
theorem declare : Dropping s op (o.declare id) := { h with dropped := h.dropped.trans (subset_insert _ _) }

/-- A layout is dropped of a vector that falls. -/
theorem withLayouts {l : BigVectorLayouts}
    (hl : ∀ w, l.tryGetLayoutForId w = o.tracker.mBigVectorLayouts.tryGetLayoutForId w)
    (hv : ∀ p w, o.tracker.mBigVectorLayouts.mPagesToVectors.contains p w → w ≠ id → l.mPagesToVectors.contains p w)
    (hid : Falls s op id) : Dropping s op (o.withLayouts l) :=
  { h with
    layouts := fun w => (hl w).trans (h.layouts w)
    vectors := fun p w hw => by
      by_cases heq : w = id
      · exact .inr (heq ▸ hid)
      · exact (h.vectors p w hw).imp_left fun hw => hv p w hw heq }

/-- A synthetic page that goes is dropped. -/
theorem dropSynthetic (hgoes : Goes s op page) : Dropping s op (o.dropSynthetic page) :=
  { h with
    synthetic := fun p v hp => by
      by_cases heq : p = page
      · exact .inr (heq ▸ hgoes)
      · refine (h.synthetic p v hp).imp_left fun hp => ?_
        rw [ObservedTracker.dropSynthetic, tryGetValue_discard, if_neg heq]
        exact hp
    syntheticBefore := fun p v hp => by
      rw [ObservedTracker.dropSynthetic, tryGetValue_discard] at hp
      split at hp
      · cases hp
      · exact h.syntheticBefore p v hp }

/-- A page that goes is removed. -/
theorem removePage (hgoes : Goes s op page) : Dropping s op (o.removePage page) :=
  { h with
    listed := h.listed.markInternalPageDropped page
    pages := fun p v hp => by
      by_cases heq : p = page
      · exact .inr (heq ▸ hgoes)
      · refine (h.pages p v hp).imp_left fun hp => ?_
        simpa only [ObservedTracker.removePage, markInternalPageDropped, StdMap.get_erase, if_neg heq] using hp
    pagesBefore := fun p v hp => by
      simp only [ObservedTracker.removePage, markInternalPageDropped, StdMap.get_erase] at hp
      split at hp
      · exact absurd hp (Finset.notMem_empty v)
      · exact h.pagesBefore p hp }

/-- The removed page did not hold the last reference to a vector that is not declared dropped. -/
theorem kept_removePage (hc : s.OrphansNoLastReference op) (hk : Kept s op v o) (hgoes : Goes s op page) :
    Kept s op v (o.removePage page) := by
  intro hn
  by_cases hb : o.tracker.isBigvecNotReferenced_ v
  · exact hk hb
  -- whatever references `v` is gone, so it was the page
  have hv : v ∈ o.tracker.mPagesOnMachines.mPageBigvecs.get page := by
    by_contra hv
    refine hb ⟨hn.1, hn.2.1, hn.2.2.1, fun href => hn.2.2.2 ?_⟩
    obtain ⟨q, hq⟩ := h.listed.isBigvecReferencedByPage_iff.1 href
    refine isBigvecReferencedByPage_markInternalPageDropped.2 ⟨q, ?_, (h.listed q v).2 hq⟩
    rintro rfl
    exact hv hq
  exact (hc page v (h.pagesBefore page hv) ((h.removePage hgoes).gone hn)).imp_left (h.dropped ·)

end

/-- The cascade stays among the vectors that fall and the pages that go. -/
theorem follows (hc : s.OrphansNoLastReference op) (v : BigVectorId) (o : ObservedTracker) :
    FollowsCascade (Falls s op) (Goes s op) (fun o' => (Dropping s op o' ∧ Kept s op v o') ∧ SameHolders o o') where
  listed _ h := h.1.1.listed
  layouts o' id hid h := by
    obtain ⟨⟨hd, hk⟩, hsame⟩ := h
    refine BigVectorLayouts.dropLayoutForIdAndReturnOrphanedPages_spec.mono (fun pages l hl => ?_) fun e l hl => ?_
    · obtain ⟨⟨hlayouts, hvectors⟩, hpages⟩ := hl
      have hd' := hd.withLayouts hlayouts hvectors hid
      refine ⟨⟨⟨hd', hk⟩, hsame.inFlight, hsame.references, hsame.dropped⟩, fun page hp hinternal => ?_⟩
      obtain ⟨⟨layout, hlayout, hmem⟩, hnone⟩ := hpages page hp
      exact .orphaned hid ⟨hinternal, layout, hd.layouts id ▸ hlayout, hmem⟩ fun w hw =>
        (hd'.vectors page w hw).resolve_left (hnone w)
    · obtain ⟨⟨hlayouts, hvectors⟩, he⟩ := hl
      exact ⟨⟨⟨hd.withLayouts hlayouts hvectors hid, hk⟩, hsame.inFlight, hsame.references, hsame.dropped⟩, he⟩
  synthetic o' page bigvec hgoes h hb := by
    obtain ⟨⟨hd, hk⟩, hsame⟩ := h
    have hd' := hd.dropSynthetic hgoes
    have hother : v ≠ bigvec → Kept s op v (o'.dropSynthetic page) := fun hne hn =>
      hk (isBigvecNotReferenced_dropSynthetic hb hne hn)
    have hk' := kept_declare hother
    have hsame' : SameHolders o (o'.dropSynthetic page) := ⟨hsame.inFlight, hsame.references, hsame.dropped⟩
    split
    · next hn =>
      rw [if_pos hn] at hk'
      obtain ⟨hheld, hsynthetic, hpages⟩ := hd'.gone hn
      exact ⟨.synthetic hgoes (hd.syntheticBefore page bigvec hb) hheld hsynthetic hpages, ⟨hd'.declare, hk'⟩,
        trans_of SameHolders hsame' (sameHolders_declare _ bigvec)⟩
    · next hn =>
      rw [if_neg hn] at hk'
      exact ⟨⟨hd', hk'⟩, hsame'⟩
  remove o' page hgoes h :=
    ⟨⟨h.1.1.removePage hgoes, h.1.1.kept_removePage hc h.1.2 hgoes⟩, h.2.inFlight, h.2.references, h.2.dropped⟩

/-- The call looks at a vector that may have lost its last reference. -/
theorem dropIfNotReferenced (h : Dropping s op o) (hc : s.OrphansNoLastReference op) (hid : id ∈ s.looksAt op)
    (hk : v ≠ id → Kept s op v o) : wp (dropIfNotReferenced id)
      (fun _ o' => (Dropping s op o' ∧ Kept s op v o') ∧ SameHolders o o') (fun _ _ => True) o := by
  have hk' := kept_declare hk
  simp only [SystemwidePageRefcountTracker.dropIfNotReferenced, wp_bind, wp_self, wp_ite, wp_pure]
  split
  · next hn =>
    rw [if_pos hn] at hk'
    obtain ⟨hheld, hsynthetic, hpages⟩ := h.gone hn
    exact ((follows hc v o).wp_drop (.lookedAt hid hheld hsynthetic hpages)
      ⟨⟨h.declare, hk'⟩, sameHolders_declare o id⟩).mono (fun _ _ h => h) fun _ _ _ => trivial
  · next hn =>
    rw [if_neg hn] at hk'
    exact ⟨⟨h, hk'⟩, refl_of SameHolders o⟩

/-- `dropMachine` looks at a vector, which it drops if no machine and no move has it. -/
theorem dropIfNotHeld {m : MachineId} (hc : s.OrphansNoLastReference (.dropMachine m))
    (hid : id ∈ s.looksAt (.dropMachine m)) (h : Dropping s (.dropMachine m) o) (hk : Kept s (.dropMachine m) v o) :
    wp (dropIfNotHeld id) (fun _ o' => (Dropping s (.dropMachine m) o' ∧ Kept s (.dropMachine m) v o') ∧
      SameHolders o o' ∧ (o'.tracker.isBigVectorDroppedAcrossEntireSystem id.guid ∨ o'.tracker.Held id))
      (fun _ _ => True) o := by
  simp only [SystemwidePageRefcountTracker.dropIfNotHeld, wp_bind, wp_self, wp_ite, wp_pure]
  split
  · next hn =>
    have hfalls : Falls s (.dropMachine m) id := .machine rfl hid fun hheld => (h.held id hheld).elim hn.1 hn.2
    have hk' : Kept s (.dropMachine m) v (o.declare id) := fun hn => (hk hn).imp_left (mem_insert_of_mem ·)
    refine ((follows hc v (o.declare id)).wp_drop hfalls ⟨⟨h.declare, hk'⟩, refl_of SameHolders _⟩).mono
      (fun _ o' ho' => ?_) fun _ _ _ => trivial
    exact ⟨ho'.1, trans_of SameHolders (sameHolders_declare o id) ho'.2, .inl (ho'.2.dropped (mem_insert_self _ _))⟩
  · next hn => exact ⟨⟨h, hk⟩, refl_of SameHolders o, .inr (by rwa [← not_or, not_not] at hn)⟩

end Dropping

end

end SystemwidePageRefcountTracker
