import Ufora.Scheduling.PagesUsed

/-!
# `ThreadGroupStatusTracker`

`cumulus/SystemwideComputationScheduler/ThreadGroupStatusTracker.hppml`: the thread groups that a machine
keeps the state of. Of a state the pages are kept, and of the tracker what these refer to: the pages
dropped across the system, which are recorded before the groups drop them, and the pages of the groups.
What else the handlers do with a group does not touch its pages.
-/

open Ordered Run List Finset Finmap TwoWaySetMap Function Option

namespace Cumulus.SystemwideComputationScheduler

open Fora (PageId)

variable {G : Type} [LinearOrder G]

/-- `ThreadGroupStatusTracker`. -/
structure ThreadGroupStatusTracker (G : Type) [LinearOrder G] where
  mStates : StdMap G (OwnPages G) := ∅
  mFinishedGroups : Finset G := ∅
  mPagesUsedByThreadGroups : TwoWaySetMap G PageId := ∅
  mPagesDropped : Finset PageId := ∅

namespace ThreadGroupStatusTracker

variable (t : ThreadGroupStatusTracker G) (group : G)

/-- The pages of a group, with what their references refer to. -/
def pagesUsed (own : OwnPages G) : PagesUsed G := { own with
    mGroup := group
    mPagesDroppedAcrossEntireSystem := t.mPagesDropped
    mPageMapping := t.mPagesUsedByThreadGroups }

/-- What a call on the pages of a group leaves. -/
def withPagesUsed (s : PagesUsed G) : ThreadGroupStatusTracker G := { t with
    mStates := t.mStates.insert s.mGroup s.toOwnPages
    mPagesUsedByThreadGroups := s.mPageMapping }

/-- `ensureThreadGroup(group)`. -/
def ensureThreadGroup : ThreadGroupStatusTracker G :=
  if group ∈ t.mStates then t else { t with mStates := t.mStates.insert group {} }

/-- A call on the pages of a group, as the handlers of the tracker make them. -/
def onGroup (call : PagesUsed.Call G) : ThreadGroupStatusTracker G :=
  if group ∈ t.mFinishedGroups then t
  else
    let t := t.ensureThreadGroup group
    match t.mStates.lookup group with
    | none => t
    | some own => t.withPagesUsed ((t.pagesUsed group own).call call)

/-- `removeGroupIfFinished(group)`, for a group that is finished. -/
def removeGroup : ThreadGroupStatusTracker G :=
  if group ∈ t.mStates then
    { t with
      mFinishedGroups := insert group t.mFinishedGroups
      mStates := t.mStates.erase group
      mPagesUsedByThreadGroups := t.mPagesUsedByThreadGroups.dropKey group }
  else t

/-- A turn of the loop in `pageNoLongerReferencedAcrossSystem(page)`. -/
def dropPageOfGroup (page : PageId) (t : ThreadGroupStatusTracker G) (group : G) :
    ThreadGroupStatusTracker G :=
  match t.mStates.lookup group with
  | none => t
  | some own => t.withPagesUsed ((t.pagesUsed group own).dropPageAcrossSystem page)

/-- `pageNoLongerReferencedAcrossSystem(page)`, up to the assertion at its end. -/
def dropPage (page : PageId) : ThreadGroupStatusTracker G :=
  (ascending (t.mPagesUsedByThreadGroups.getKeys page)).foldl (dropPageOfGroup page)
    { t with mPagesDropped := insert page t.mPagesDropped }

/-- `pageNoLongerReferencedAcrossSystem(page)`. -/
def pageNoLongerReferencedAcrossSystem (page : PageId) : Option (ThreadGroupStatusTracker G) := do
  let t := t.dropPage page
  guard (¬ t.mPagesUsedByThreadGroups.hasValue page)
  return t

end ThreadGroupStatusTracker

/-- A tracker, with what its groups use and what the changes that each of them reported so far make out
of the empty set. -/
structure Observed (G : Type) [LinearOrder G] where
  tracker : ThreadGroupStatusTracker G := {}
  usage : G → Usage G := fun _ => {}
  reproduced : G → Finset PageId := fun _ => ∅

/-- What happens to a tracker. -/
inductive Op (G : Type) where
  | onGroup (group : G) (call : PagesUsed.Call G)
  | removeGroup (group : G)
  | pageNoLongerReferencedAcrossSystem (page : PageId)

/-- The changes that a group would report. -/
def ThreadGroupStatusTracker.changes (t : ThreadGroupStatusTracker G)
    (group : G) : Changes PageId :=
  match t.mStates.lookup group with
  | none => ⟨∅, ∅⟩
  | some own => (t.pagesUsed group own).extractAddedAndDropped.1

variable (o : Observed G)

/-- What has been reproduced after a call. -/
def Observed.reproducedAfter (group : G) : PagesUsed.Call G → G → Finset PageId
  | .extractAddedAndDropped => update o.reproduced group
      ((o.tracker.changes group).apply (o.reproduced group))
  | _ => o.reproduced

/-- An operation, where its assertion holds. -/
def step : Op G → Option (Observed G)
  | .onGroup group call => some
    { tracker := o.tracker.onGroup group call
      usage := update o.usage group ((o.usage group).after call)
      reproduced := o.reproducedAfter group call }
  | .removeGroup group => some { o with tracker := o.tracker.removeGroup group }
  | .pageNoLongerReferencedAcrossSystem page => do
    return { o with tracker := ← o.tracker.pageNoLongerReferencedAcrossSystem page }

/-- The pages of a group are those that it uses and that are not dropped, the total is theirs, and what
the group would report makes what has been reproduced so far into them, up to dropped pages. -/
structure CorrectAt (o : Observed G) (group : G) (own : OwnPages G) : Prop where
  pages : ∀ p, o.tracker.mPagesUsedByThreadGroups.contains group p ↔
    (p ∈ (o.usage group).touched ∨ ∃ child, p ∈ (o.usage group).held child) ∧ p ∉ o.tracker.mPagesDropped
  bytes : own.mTotalBytes = o.tracker.mPagesUsedByThreadGroups.bytesOf group
  reproduces : ∀ p ∉ o.tracker.mPagesDropped, p ∈ (o.tracker.changes group).apply (o.reproduced group) ↔
      o.tracker.mPagesUsedByThreadGroups.contains group p

/-- The pages of every group are right. -/
def Correct : Prop := ∀ group own, o.tracker.mStates.lookup group = some own → CorrectAt o group own

/-! ## The groups of a tracker -/

namespace PagesUsed

variable {s s' : PagesUsed G} {u : Usage G} {base : Finset PageId}

/-- The pages of a group depend on its own entries of the map only. -/
theorem Fits.of_values (h : Fits s u base) (ho : s'.toOwnPages = s.toOwnPages) (hg : s'.mGroup = s.mGroup)
    (hd : s'.mPagesDroppedAcrossEntireSystem = s.mPagesDroppedAcrossEntireSystem)
    (hv : s'.mPageMapping.getValues s.mGroup = s.mPageMapping.getValues s.mGroup) :
    Fits s' u base := by
  obtain ⟨own, group, dropped, mapping⟩ := s
  obtain ⟨own', group', dropped', mapping'⟩ := s'
  obtain rfl : own' = own := ho
  obtain rfl : group' = group := hg
  obtain rfl : dropped' = dropped := hd
  have hv : mapping'.getValues group' = mapping.getValues group' := hv
  have hc p : mapping'.contains group' p ↔ mapping.contains group' p := by
    rw [← mem_getValues, hv, mem_getValues]
  obtain ⟨⟨ht, hh, hnt, hnh⟩, hpages, hbytes, hnet⟩ := h
  refine ⟨⟨ht, hh, hnt, hnh⟩, fun p hp => (hc p).trans (hpages p hp), ?_, fun p hp => ?_⟩
  · show own'.mTotalBytes = Fora.totalBytecount (mapping'.getValues group')
    rw [hv]
    exact hbytes
  · rw [hv]
    exact hnet p hp

/-- A new group uses nothing. -/
theorem fits_new {t : ThreadGroupStatusTracker G} {group : G}
    (h : t.mPagesUsedByThreadGroups.getValues group = ∅) : Fits (t.pagesUsed group {}) {} ∅ := by
  have hnot p : ¬ t.mPagesUsedByThreadGroups.contains group p := fun hp =>
    notMem_empty p (h ▸ mem_getValues.2 hp)
  refine ⟨⟨fun p _ => ?_, fun c p _ => ?_, fun p _ => notMem_empty p,
    fun c p _ => contains_empty⟩, fun p _ => ?_, ?_, fun p _ => ?_⟩
  · exact iff_of_false (notMem_empty p) fun hmem => hmem.elim
  · exact iff_of_false contains_empty fun hmem => hmem.elim
  · refine iff_of_false (hnot p) fun hs => hs.1.elim (notMem_empty p) fun hc => ?_
    obtain ⟨c, hc⟩ := hasValue_iff.1 hc
    exact contains_empty hc
  · show (0 : ℤ) = Fora.totalBytecount (t.mPagesUsedByThreadGroups.getValues group)
    rw [h, Fora.totalBytecount_empty]
  · show Changes.NetAt ⟨∅, ∅⟩ ∅ (t.mPagesUsedByThreadGroups.getValues group) p
    rw [h]
    exact Changes.netAt_empty

end PagesUsed

open PagesUsed (Fits Call)

/-- How the states of a tracker fit what its groups use. -/
structure Kept (o : Observed G) : Prop where
  fits : ∀ group own, o.tracker.mStates.lookup group = some own →
    Fits (o.tracker.pagesUsed group own) (o.usage group) (o.reproduced group)
  absent : ∀ group ∉ o.tracker.mStates, o.tracker.mPagesUsedByThreadGroups.getValues group = ∅
  unused : ∀ group ∉ o.tracker.mStates, group ∉ o.tracker.mFinishedGroups → o.usage group = {} ∧ o.reproduced group = ∅
  finished : ∀ group ∈ o.tracker.mFinishedGroups, group ∉ o.tracker.mStates

theorem kept_initial : Kept ({} : Observed G) where
  fits group own h := by
    rw [lookup_empty] at h
    cases h
  absent group _ := getValues_empty
  unused group _ _ := ⟨rfl, rfl⟩
  finished group h := absurd h (notMem_empty group)

variable {o} {group : G}

theorem Kept.correct (h : Kept o) : Correct o := by
  intro group own hown
  have hfits := h.fits group own hown
  have hchanges : o.tracker.changes group = (o.tracker.pagesUsed group own).changes := by
    unfold ThreadGroupStatusTracker.changes
    rw [hown]
    rfl
  refine ⟨fun p => ?_, hfits.counted.bytes, fun p hp => ?_⟩
  · refine (hfits.counted.pages p not_mem_nil).trans (and_congr_left fun hp => or_congr ?_ ?_)
    · exact hfits.holds.touched p hp
    · exact hasValue_iff.trans (exists_congr fun c => hfits.holds.held c p hp)
  · rw [hchanges]
    exact (hfits.counted.net p hp).mem_apply

/-! ### Calls -/

theorem Kept.ensureThreadGroup (h : Kept o) (hnot : group ∉ o.tracker.mFinishedGroups) :
    Kept { o with tracker := o.tracker.ensureThreadGroup group } := by
  unfold ThreadGroupStatusTracker.ensureThreadGroup
  split
  · exact h
  rename_i hgroup
  have hmem {g : G} : g ∈ o.tracker.mStates.insert group {} ↔ g = group ∨ g ∈ o.tracker.mStates := mem_insert
  constructor
  case fits =>
    intro g own hown
    rw [StdMap.lookup_insert] at hown
    split at hown
    · subst g
      obtain rfl := some.inj hown
      obtain ⟨husage, hbase⟩ := h.unused group hgroup hnot
      rw [husage, hbase]
      exact PagesUsed.fits_new (h.absent group hgroup)
    · exact h.fits g own hown
  case absent => exact fun g hg => h.absent g fun hold => hg (hmem.2 (.inr hold))
  case unused => exact fun g hg => h.unused g fun hold => hg (hmem.2 (.inr hold))
  case finished =>
    intro g hg hmem'
    obtain rfl | hold := hmem.1 hmem'
    · exact hnot hg
    · exact h.finished g hg hold

theorem mem_ensureThreadGroup (t : ThreadGroupStatusTracker G) :
    group ∈ (t.ensureThreadGroup group).mStates := by
  unfold ThreadGroupStatusTracker.ensureThreadGroup
  split
  · assumption
  · exact mem_insert.2 (.inl rfl)

/-- A call on the pages of a group that has a state. -/
theorem Kept.call {own : OwnPages G} (h : Kept o)
    (hown : o.tracker.mStates.lookup group = some own) (call : Call G) :
    Kept
      { tracker := o.tracker.withPagesUsed ((o.tracker.pagesUsed group own).call call)
        usage := update o.usage group ((o.usage group).after call)
        reproduced := update o.reproduced group
          ((o.tracker.pagesUsed group own).baseAfter (o.reproduced group) call) } := by
  obtain ⟨hfits, hothers⟩ := (h.fits group own hown).call call
  have hgroup : ((o.tracker.pagesUsed group own).call call).mGroup = group := hothers.group
  have hmem : group ∈ o.tracker.mStates := mem_iff.2 ⟨own, hown⟩
  have hkeys {g : G} : g ∈ (o.tracker.withPagesUsed ((o.tracker.pagesUsed group own).call call)).mStates ↔
        g ∈ o.tracker.mStates := by
    refine mem_insert.trans (or_iff_right_of_imp fun heq => ?_)
    rw [heq, hgroup]
    exact hmem
  constructor
  case fits =>
    intro g own' hown'
    have hlookup : lookup g (o.tracker.mStates.insert
        ((o.tracker.pagesUsed group own).call call).mGroup
        ((o.tracker.pagesUsed group own).call call).toOwnPages) = some own' := hown'
    rw [StdMap.lookup_insert, hgroup] at hlookup
    dsimp only
    split at hlookup
    · subst g
      obtain rfl := some.inj hlookup
      rw [update_self, update_self]
      exact hfits.of_values rfl hgroup.symm hothers.dropped.symm rfl
    · rename_i hne
      rw [update_of_ne hne, update_of_ne hne]
      exact (h.fits g own' hlookup).of_values rfl rfl rfl (hothers.others g hne)
  case absent =>
    intro g hg
    have hne : g ≠ group := fun heq => hg (hkeys.2 (heq ▸ hmem))
    exact (hothers.others g hne).trans (h.absent g fun hold => hg (hkeys.2 hold))
  case unused =>
    intro g hg hfin
    have hne : g ≠ group := fun heq => hg (hkeys.2 (heq ▸ hmem))
    dsimp only
    rw [update_of_ne hne, update_of_ne hne]
    exact h.unused g (fun hold => hg (hkeys.2 hold)) hfin
  case finished => exact fun g hg hold => h.finished g hg (hkeys.1 hold)

theorem reproducedAfter_eq {own : OwnPages G}
    (hown : o.tracker.mStates.lookup group = some own) (call : Call G) :
    o.reproducedAfter group call = update o.reproduced group
      ((o.tracker.pagesUsed group own).baseAfter (o.reproduced group) call) := by
  have hchanges : o.tracker.changes group = (o.tracker.pagesUsed group own).changes := by
    unfold ThreadGroupStatusTracker.changes
    rw [hown]
    rfl
  cases call with
  | extractAddedAndDropped =>
    show update o.reproduced group ((o.tracker.changes group).apply (o.reproduced group)) = _
    rw [hchanges]
    rfl
  | _ => exact (update_eq_self group o.reproduced).symm

/-- A group without a state reports nothing, as a new one does. -/
theorem reproducedAfter_ensureThreadGroup (call : Call G) : o.reproducedAfter group call =
      { o with tracker := o.tracker.ensureThreadGroup group }.reproducedAfter group call := by
  have hchanges : (o.tracker.ensureThreadGroup group).changes group = o.tracker.changes group := by
    unfold ThreadGroupStatusTracker.ensureThreadGroup
    split
    · rfl
    rename_i hgroup
    unfold ThreadGroupStatusTracker.changes
    rw [lookup_eq_none.2 hgroup, StdMap.lookup_insert, if_pos rfl]
    rfl
  cases call with
  | extractAddedAndDropped =>
    show _ = update o.reproduced group (((o.tracker.ensureThreadGroup group).changes group).apply (o.reproduced group))
    rw [hchanges]
    rfl
  | _ => rfl

/-- What a finished group is told is lost. -/
theorem Kept.callFinished (h : Kept o) (hfin : group ∈ o.tracker.mFinishedGroups) (call : Call G) : Kept
      { tracker := o.tracker
        usage := update o.usage group ((o.usage group).after call)
        reproduced := o.reproducedAfter group call } := by
  have hbase {g : G} (hne : g ≠ group) : o.reproducedAfter group call g = o.reproduced g := by
    cases call with
    | extractAddedAndDropped => exact update_of_ne hne ..
    | _ => rfl
  constructor
  case fits =>
    intro g own hown
    have hne : g ≠ group := fun heq =>
      h.finished group hfin (heq ▸ mem_iff.2 ⟨own, hown⟩)
    dsimp only
    rw [update_of_ne hne, hbase hne]
    exact h.fits g own hown
  case absent => exact h.absent
  case unused =>
    intro g hg hnot
    have hne : g ≠ group := fun heq => hnot (heq ▸ hfin)
    dsimp only
    rw [update_of_ne hne, hbase hne]
    exact h.unused g hg hnot
  case finished => exact h.finished

theorem Kept.onGroup (h : Kept o) (call : Call G) : Kept
      { tracker := o.tracker.onGroup group call
        usage := update o.usage group ((o.usage group).after call)
        reproduced := o.reproducedAfter group call } := by
  by_cases hfin : group ∈ o.tracker.mFinishedGroups
  · have htracker : o.tracker.onGroup group call = o.tracker := if_pos hfin
    rw [htracker]
    exact h.callFinished hfin call
  · have hensured := h.ensureThreadGroup hfin
    obtain ⟨own, hown⟩ := mem_iff.1 (@mem_ensureThreadGroup _ _ group o.tracker)
    have htracker : o.tracker.onGroup group call = (o.tracker.ensureThreadGroup group).withPagesUsed
        (((o.tracker.ensureThreadGroup group).pagesUsed group own).call call) := by
      unfold ThreadGroupStatusTracker.onGroup
      rw [if_neg hfin]
      dsimp only
      rw [hown]
    rw [htracker, reproducedAfter_ensureThreadGroup, reproducedAfter_eq hown]
    exact hensured.call hown call

/-! ### Groups that finish -/

theorem Kept.removeGroup (h : Kept o) : Kept { o with tracker := o.tracker.removeGroup group } := by
  unfold ThreadGroupStatusTracker.removeGroup
  split
  swap
  · exact h
  have hmem {g : G} : g ∈ o.tracker.mStates.erase group ↔ g ≠ group ∧ g ∈ o.tracker.mStates := mem_erase
  have hvalues {g : G} : (o.tracker.mPagesUsedByThreadGroups.dropKey group).getValues g =
      if g = group then ∅ else o.tracker.mPagesUsedByThreadGroups.getValues g :=
    getValues_dropKey
  constructor
  case fits =>
    intro g own hown
    rw [StdMap.lookup_erase] at hown
    split at hown
    · cases hown
    · next hne => exact (h.fits g own hown).of_values rfl rfl rfl (hvalues.trans (if_neg hne))
  case absent =>
    intro g hg
    refine hvalues.trans ?_
    split
    · rfl
    · next hne => exact h.absent g fun hold => hg (hmem.2 ⟨hne, hold⟩)
  case unused =>
    intro g hg hnot
    have hne : g ≠ group := fun heq => hnot (heq ▸ mem_insert_self _ _)
    exact h.unused g (fun hold => hg (hmem.2 ⟨hne, hold⟩)) fun hfin =>
      hnot (mem_insert_of_mem hfin)
  case finished =>
    intro g hg hold
    obtain ⟨hne, hold⟩ := hmem.1 hold
    exact h.finished g ((mem_insert.1 hg).resolve_left hne) hold

/-! ### Pages that are dropped -/

/-- The groups that are still to drop a page use it, and those that are done fit without it. -/
structure Dropping (o : Observed G) (page : PageId) (rest : List G)
    (t : ThreadGroupStatusTracker G) : Prop where
  dropped : t.mPagesDropped = insert page o.tracker.mPagesDropped
  finished : t.mFinishedGroups = o.tracker.mFinishedGroups
  states : ∀ g, g ∈ t.mStates ↔ g ∈ o.tracker.mStates
  absent : ∀ g ∉ t.mStates, t.mPagesUsedByThreadGroups.getValues g = ∅
  done : ∀ g own, t.mStates.lookup g = some own → g ∉ rest → Fits (t.pagesUsed g own) (o.usage g) (o.reproduced g)
  todo : ∀ g own, t.mStates.lookup g = some own → g ∈ rest → t.mPagesUsedByThreadGroups.contains g page ∧
      Fits { t.pagesUsed g own with
        mPagesDroppedAcrossEntireSystem := o.tracker.mPagesDropped } (o.usage g) (o.reproduced g)

theorem Dropping.turn {page : PageId} {g : G} {rest : List G}
    {t : ThreadGroupStatusTracker G} (h : Dropping o page (g :: rest) t)
    (hg : g ∉ rest) : Dropping o page rest (t.dropPageOfGroup page g) := by
  unfold ThreadGroupStatusTracker.dropPageOfGroup
  cases hown : t.mStates.lookup g with
  | none =>
    have hne {g' : G} {own : OwnPages G} (hown' : t.mStates.lookup g' = some own) :
        g' ≠ g := fun heq => by
      rw [heq, hown] at hown'
      cases hown'
    refine ⟨h.dropped, h.finished, h.states, h.absent, fun g' own hown' hnot => ?_,
      fun g' own hown' hmem => h.todo g' own hown' (.tail _ hmem)⟩
    exact h.done g' own hown' fun hmem => (mem_cons.1 hmem).elim (hne hown') hnot
  | some own =>
    obtain ⟨hpage, hfits⟩ := h.todo g own hown (.head _)
    have hdropped := hfits.dropUsed hpage
    have hmem : g ∈ t.mStates := mem_iff.2 ⟨own, hown⟩
    have hkeys {g' : G} {own' : OwnPages G} : g' ∈ t.mStates.insert g own' ↔ g' ∈ t.mStates :=
      mem_insert.trans (or_iff_right_of_imp fun heq => heq ▸ hmem)
    have hvalues {g' : G} (hne : g' ≠ g) : (t.mPagesUsedByThreadGroups.drop g page).getValues g' =
          t.mPagesUsedByThreadGroups.getValues g' :=
      getValues_drop.trans (if_neg hne)
    constructor
    case dropped => exact h.dropped
    case finished => exact h.finished
    case states => exact fun g' => hkeys.trans (h.states g')
    case absent =>
      intro g' hg'
      have hne : g' ≠ g := fun heq => hg' (hkeys.2 (heq ▸ hmem))
      exact (hvalues hne).trans (h.absent g' fun hold => hg' (hkeys.2 hold))
    case done =>
      intro g' own' hown' hnot
      have hlookup : lookup g' (t.mStates.insert g
          ((t.pagesUsed g own).dropPageAcrossSystem page).toOwnPages) = some own' := hown'
      rw [StdMap.lookup_insert] at hlookup
      split at hlookup
      · subst g'
        obtain rfl := some.inj hlookup
        exact hdropped.of_values rfl rfl h.dropped rfl
      · rename_i hne
        refine (h.done g' own' hlookup fun hmem => ?_).of_values rfl rfl rfl (hvalues hne)
        exact (mem_cons.1 hmem).elim hne hnot
    case todo =>
      intro g' own' hown' hrest
      have hne : g' ≠ g := fun heq => hg (heq ▸ hrest)
      have hlookup : lookup g' (t.mStates.insert g
          ((t.pagesUsed g own).dropPageAcrossSystem page).toOwnPages) = some own' := hown'
      rw [StdMap.lookup_insert, if_neg hne] at hlookup
      obtain ⟨hpage', hfits'⟩ := h.todo g' own' hlookup (.tail _ hrest)
      refine ⟨contains_drop.2 ⟨hpage', fun heq => hne heq.1⟩, ?_⟩
      exact hfits'.of_values rfl rfl rfl (hvalues hne)

theorem Dropping.loop {page : PageId} {rest : List G}
    {t : ThreadGroupStatusTracker G} (h : Dropping o page rest t) (hn : rest.Nodup) :
    Dropping o page [] (rest.foldl (ThreadGroupStatusTracker.dropPageOfGroup page) t) := by
  induction rest generalizing t with
  | nil => exact h
  | cons g rest ih =>
    obtain ⟨hg, hn⟩ := nodup_cons.1 hn
    exact ih (h.turn hg) hn

/-- The groups that use a page drop it, and no group uses it then. -/
theorem Kept.dropPage (h : Kept o) (page : PageId) : Kept { o with tracker := o.tracker.dropPage page } ∧
      ¬ (o.tracker.dropPage page).mPagesUsedByThreadGroups.hasValue page := by
  have hstart : Dropping o page (ascending (o.tracker.mPagesUsedByThreadGroups.getKeys page))
      { o.tracker with mPagesDropped := insert page o.tracker.mPagesDropped } := by
    refine ⟨rfl, rfl, fun g => Iff.rfl, h.absent, fun g own hown hnot => ?_, fun g own hown hmem => ?_⟩
    · refine ((h.fits g own hown).dropUnused fun hc => hnot ?_).of_values rfl rfl rfl rfl
      exact mem_ascending.2 (mem_getKeys.2 hc)
    · refine ⟨mem_getKeys.1 (mem_ascending.1 hmem), ?_⟩
      exact (h.fits g own hown).of_values rfl rfl rfl rfl
  have hend := hstart.loop (ascending_nodup _)
  have hkept : Kept { o with tracker := o.tracker.dropPage page } := by
    refine ⟨fun g own hown => hend.done g own hown not_mem_nil, hend.absent,
      fun g hg hnot => h.unused g (fun hold => hg ((hend.states g).2 hold)) fun hfin => hnot ?_,
      fun g hg hold => h.finished g ?_ ((hend.states g).1 hold)⟩
    · exact hend.finished ▸ hfin
    · exact hend.finished ▸ hg
  refine ⟨hkept, fun hvalue => ?_⟩
  obtain ⟨g, hg⟩ := hasValue_iff.1 hvalue
  by_cases hstate : g ∈ (o.tracker.dropPage page).mStates
  · obtain ⟨own, hown⟩ := mem_iff.1 hstate
    have hshould := ((hkept.fits g own hown).counted.pages page not_mem_nil).1 hg
    refine hshould.2 ?_
    show page ∈ (o.tracker.dropPage page).mPagesDropped
    rw [show (o.tracker.dropPage page).mPagesDropped = _ from hend.dropped]
    exact mem_insert_self _ _
  · have hnone := hend.absent g hstate
    exact notMem_empty page (hnone ▸ mem_getValues.2 hg)

/-! ### Runs -/

theorem Kept.step (h : Kept o) (op : Op G) : ∃ o', step o op = some o' ∧ Kept o' := by
  cases op with
  | onGroup group call => exact ⟨_, rfl, h.onGroup call⟩
  | removeGroup group => exact ⟨_, rfl, h.removeGroup⟩
  | pageNoLongerReferencedAcrossSystem page =>
    obtain ⟨hkept, hnot⟩ := h.dropPage page
    refine ⟨_, ?_, hkept⟩
    show (o.tracker.pageNoLongerReferencedAcrossSystem page).bind _ = _
    unfold ThreadGroupStatusTracker.pageNoLongerReferencedAcrossSystem
    simp [hnot]

/-- In every run no assertion fails, and the pages of every group are those that it uses and that are not
dropped, the total is theirs, and what the group reports leads to them. -/
theorem always_correct (ops : List (Op G)) :
    (run step ({} : Observed G) ops).isSome ∧ Always step Correct {} ops := by
  obtain ⟨hr, ha⟩ := @returns_of_everyStep _ _ _ _ (fun _ _ => True) _ ops kept_initial
    (fun _ op h _ => h.step op) fun _ _ _ _ _ => trivial
  exact ⟨hr, ha.mono fun _ h => h.correct⟩

end Cumulus.SystemwideComputationScheduler
