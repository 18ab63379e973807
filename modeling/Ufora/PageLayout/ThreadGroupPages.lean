import Ufora.Containers.SetWithChanges
import Ufora.Lib.Run
import Ufora.Pages.Bytecounts

/-!
# `ThreadGroupPages`

`cumulus/PageLayoutCalculator/ThreadGroupPages.hppml`: which thread groups are active. The pages of the
active groups have to fit into a number of bytes; a page that several groups use counts once. Whenever
anything has changed, groups are deactivated until the rest fits, and then every group that still fits is
activated.

Byte counts are exact integers. A failed assertion is `none`.
-/

open Ordered Run List Finset TwoWaySetMap SetWithChanges

namespace TwoWaySetMap

open Fora

variable {K V : Type*} [DecidableEq K] [DecidableEq V]

/-- The values that some key has. -/
def values (m : TwoWaySetMap K V) : Finset V := m.mValuesToKeys.keys

variable {m : TwoWaySetMap K V} {k : K} {v : V}

theorem mem_values : v ∈ m.values ↔ ∃ k, m.contains k v := Finmap.mem_keys.trans hasValue_iff

theorem values_empty : (∅ : TwoWaySetMap K V).values = ∅ := Finmap.keys_empty

theorem hasValue_iff_mem_values : m.hasValue v ↔ v ∈ m.values := Finmap.mem_keys.symm

theorem values_insert : (m.insert k v).values = Insert.insert v m.values := by
  ext w
  simp only [mem_values, contains_insert, mem_insert, exists_or, exists_and_right, exists_eq, true_and]

/-- Where the last key gives up a value, it is one no more. -/
theorem values_drop (h : m.contains k v) :
    (m.drop k v).values = if (m.drop k v).hasValue v then m.values else m.values.erase v := by
  have hmem {w : V} : w ∈ (m.drop k v).values ↔ w ∈ m.values ∧ (w = v → (m.drop k v).hasValue v) := by
    by_cases hw : w = v
    · subst w
      simp only [← hasValue_iff_mem_values, true_implies]
      exact ⟨fun hv => ⟨hasValue_iff.2 ⟨k, h⟩, hv⟩, And.right⟩
    · simp [mem_values, hw]
  ext w
  rw [hmem]
  split
  · next hv => exact ⟨And.left, fun hw => ⟨hw, fun _ => hv⟩⟩
  · rename_i hv
    rw [mem_erase, and_comm]
    exact and_congr_left fun _ => ⟨fun hw he => hv (hw he), fun hw he => absurd he hw⟩

end TwoWaySetMap

namespace Cumulus.PageLayoutCalculator

open Fora (PageId totalBytecount totalBytecount_insert totalBytecount_erase totalBytecount_union)

/-- `ThreadGroupPages`. -/
structure ThreadGroupPages (G : Type) [LinearOrder G] where
  mPages : TwoWaySetMap G PageId := ∅
  mActivePages : TwoWaySetMap G PageId := ∅
  mActiveThreadGroups : SetWithChanges G := {}
  mInactiveThreadGroupsWithThreads : Finset G := ∅
  mInactiveThreadGroupsWithoutThreads : Finset G := ∅
  mTotalBytes : ℤ := 0
  mActiveBytes : ℤ := 0
  mMaxActiveBytes : ℤ := 0

namespace ThreadGroupPages

variable {G : Type} [LinearOrder G]

/-! ## The active pages and their bytes -/

variable (active : TwoWaySetMap G PageId × ℤ)

/-- A page becomes an active page of a group, in `mActivePages` and `mActiveBytes`. -/
def insertActive (group : G) (page : PageId) : TwoWaySetMap G PageId × ℤ :=
  (active.1.insert group page, if active.1.hasValue page then active.2 else active.2 + page.bytecount)

/-- A page is no active page of a group any more, in `mActivePages` and `mActiveBytes`. -/
def dropActive (group : G) (page : PageId) : TwoWaySetMap G PageId × ℤ :=
  let pages := active.1.drop group page
  (pages, if pages.hasValue page then active.2 else active.2 - page.bytecount)

/-- The bytes are those of the distinct pages. -/
def Counted : Prop := active.2 = totalBytecount active.1.values

section
variable {active} {group group' : G} {page page' : PageId}

theorem Counted.insertActive (h : Counted active) : Counted (insertActive active group page) := by
  show (if active.1.hasValue page then _ else _) = _
  rw [ThreadGroupPages.insertActive, values_insert]
  split
  · next hp => rw [h, insert_eq_of_mem (hasValue_iff_mem_values.1 hp)]
  · next hp => rw [h, totalBytecount_insert (mt hasValue_iff_mem_values.2 hp)]

theorem Counted.dropActive (h : Counted active) (hp : active.1.contains group page) :
    Counted (dropActive active group page) := by
  show (if (active.1.drop group page).hasValue page then _ else _) = _
  rw [ThreadGroupPages.dropActive]
  rw [values_drop hp]
  split
  · exact h
  · rw [h, totalBytecount_erase (mem_values.2 ⟨group, hp⟩)]

variable {l : List PageId}

/-- The loop that activates a group's pages. -/
theorem Counted.insertAll (h : Counted active) :
    Counted (l.foldl (fun a p => ThreadGroupPages.insertActive a group p) active) := by
  induction l generalizing active with
  | nil => exact h
  | cons p l ih => exact ih h.insertActive

theorem contains_insertAll : (l.foldl (fun a p => insertActive a group p) active).1.contains group' page' ↔
      group' = group ∧ page' ∈ l ∨ active.1.contains group' page' := by
  induction l generalizing active with
  | nil => simp
  | cons p l ih =>
    rw [foldl_cons, ih, insertActive, TwoWaySetMap.contains_insert, List.mem_cons]
    tauto

/-- The loop that deactivates a group's pages. -/
theorem Counted.dropAll (h : Counted active) (hn : l.Nodup) (hl : ∀ p ∈ l, active.1.contains group p) :
    Counted (l.foldl (fun a p => ThreadGroupPages.dropActive a group p) active) := by
  induction l generalizing active with
  | nil => exact h
  | cons p l ih =>
    have hp := nodup_cons.1 hn
    refine ih (h.dropActive (hl p (.head l))) hp.2 fun q hq => ?_
    refine contains_drop.2 ⟨hl q (.tail p hq), fun he => hp.1 ?_⟩
    rw [← he.2]
    exact hq

theorem contains_dropAll : (l.foldl (fun a p => dropActive a group p) active).1.contains group' page' ↔
      active.1.contains group' page' ∧ ¬ (group' = group ∧ page' ∈ l) := by
  induction l generalizing active with
  | nil => simp
  | cons p l ih =>
    rw [foldl_cons, ih, dropActive, contains_drop, List.mem_cons]
    tauto

end

/-! ## The loops -/

variable (s : ThreadGroupPages G)

/-- The bytes of a group's pages that are not active, summed up as `tryToActivateOne` does. -/
def inactiveBytes (group : G) : ℤ := (ascending (s.mPages.getValues group)).foldl
    (fun bytecount p => if s.mActivePages.hasValue p then bytecount else bytecount + p.bytecount) 0

/-- The body of `deactivateOne()`. -/
def deactivate (group : G) : ThreadGroupPages G :=
  let active := (ascending (s.mPages.getValues group)).foldl (fun a p => dropActive a group p)
    (s.mActivePages, s.mActiveBytes)
  { s with
    mActivePages := active.1
    mActiveBytes := active.2
    mActiveThreadGroups := s.mActiveThreadGroups.erase group
    mInactiveThreadGroupsWithThreads := insert group s.mInactiveThreadGroupsWithThreads }

/-- `deactivateOne()`: the assertion is that some group is active. -/
def deactivateOne : Option (ThreadGroupPages G) :=
  (ascending s.mActiveThreadGroups.mElements).head?.map s.deactivate

/-- What `tryToActivateOne()` does with a group that fits. -/
def activate (group : G) : ThreadGroupPages G :=
  let active := (ascending (s.mPages.getValues group)).foldl (fun a p => insertActive a group p)
    (s.mActivePages, s.mActiveBytes)
  { s with
    mActivePages := active.1
    mActiveBytes := active.2
    mActiveThreadGroups := s.mActiveThreadGroups.insert group
    mInactiveThreadGroupsWithThreads := s.mInactiveThreadGroupsWithThreads.erase group }

/-- `tryToActivateOne()`: the first group that fits is activated; `none` where it returns false. -/
def tryToActivateOne : Option (ThreadGroupPages G) :=
  ((ascending s.mInactiveThreadGroupsWithThreads).find? fun group =>
    s.inactiveBytes group + s.mActiveBytes < s.mMaxActiveBytes).map s.activate

theorem card_deactivateOne {s s' : ThreadGroupPages G} (h : s.deactivateOne = some s') :
    s'.mActiveThreadGroups.mElements.card < s.mActiveThreadGroups.mElements.card := by
  obtain ⟨group, hg, rfl⟩ := Option.map_eq_some_iff.1 h
  show (s.mActiveThreadGroups.erase group).mElements.card < _
  rw [mElements_erase]
  exact card_erase_lt_of_mem (mem_ascending.1 (mem_of_mem_head? hg))

theorem card_tryToActivateOne {s s' : ThreadGroupPages G} (h : s.tryToActivateOne = some s') :
    s'.mInactiveThreadGroupsWithThreads.card < s.mInactiveThreadGroupsWithThreads.card := by
  obtain ⟨group, hg, rfl⟩ := Option.map_eq_some_iff.1 h
  exact card_erase_lt_of_mem (mem_ascending.1 (mem_of_find?_eq_some hg))

/-- The first loop of `checkActivation()`. It ends, as every round takes a group out of the active
ones. -/
def deactivateUntilFits (s : ThreadGroupPages G) : Option (ThreadGroupPages G) :=
  if s.mMaxActiveBytes < s.mActiveBytes then
    match _h : s.deactivateOne with
    | none => none
    | some s' => s'.deactivateUntilFits
  else some s
termination_by s.mActiveThreadGroups.mElements.card
decreasing_by exact card_deactivateOne _h

/-- The second loop of `checkActivation()`. It ends, as every round takes a group out of the inactive
ones. -/
def activateWhileFits (s : ThreadGroupPages G) : ThreadGroupPages G :=
  if s.mInactiveThreadGroupsWithThreads = ∅ then s
  else
    match _h : s.tryToActivateOne with
    | none => s
    | some s' => s'.activateWhileFits
termination_by s.mInactiveThreadGroupsWithThreads.card
decreasing_by exact card_tryToActivateOne _h

/-- `checkActivation()`. -/
def checkActivation : Option (ThreadGroupPages G) := s.deactivateUntilFits.map activateWhileFits

/-! ## The operations -/

/-- `hasGroup(group)`. -/
def hasGroup (group : G) : Prop :=
  s.mActiveThreadGroups.contains group ∨ group ∈ s.mInactiveThreadGroupsWithThreads ∨
    group ∈ s.mInactiveThreadGroupsWithoutThreads
deriving Decidable

/-- `setMaxActiveBytes(inMaxActiveBytes)`. -/
def setMaxActiveBytes (inMaxActiveBytes : ℤ) : Option (ThreadGroupPages G) :=
  checkActivation { s with mMaxActiveBytes := inMaxActiveBytes }

/-- A group that is not known becomes active, or inactive without threads. The assertion is that it has
no pages. -/
def withGroup (group : G) (threads : ℤ) : Option (ThreadGroupPages G) :=
  if s.hasGroup group then some s
  else if s.mPages.hasKey group then none
  else if threads ≠ 0 then
    some { s with mActiveThreadGroups := s.mActiveThreadGroups.insert group }
  else
    some { s with
      mInactiveThreadGroupsWithoutThreads := insert group s.mInactiveThreadGroupsWithoutThreads }

/-- What `setGroupThreads` does with an active group that has no threads any more. -/
def deactivateWithoutThreads (group : G) : ThreadGroupPages G :=
  let pages := s.mActivePages.dropKey group
  { s with
    mActiveThreadGroups := s.mActiveThreadGroups.erase group
    mInactiveThreadGroupsWithoutThreads := insert group s.mInactiveThreadGroupsWithoutThreads
    mActivePages := pages
    mActiveBytes := (ascending (s.mPages.getValues group)).foldl
      (fun bytes p => if pages.hasValue p then bytes else bytes - p.bytecount) s.mActiveBytes }

/-- The group is put into the set that its number of threads asks for. -/
def moveGroup (group : G) (threads : ℤ) : ThreadGroupPages G :=
  if s.mActiveThreadGroups.contains group ∧ threads = 0 then s.deactivateWithoutThreads group
  else if group ∈ s.mInactiveThreadGroupsWithoutThreads ∧ threads ≠ 0 then
    { s with
      mInactiveThreadGroupsWithoutThreads := s.mInactiveThreadGroupsWithoutThreads.erase group
      mInactiveThreadGroupsWithThreads := insert group s.mInactiveThreadGroupsWithThreads }
  else if group ∈ s.mInactiveThreadGroupsWithThreads ∧ threads = 0 then
    { s with
      mInactiveThreadGroupsWithThreads := s.mInactiveThreadGroupsWithThreads.erase group
      mInactiveThreadGroupsWithoutThreads := insert group s.mInactiveThreadGroupsWithoutThreads }
  else s

/-- `setGroupThreads(group, threads)`. -/
def setGroupThreads (group : G) (threads : ℤ) : Option (ThreadGroupPages G) :=
  (s.withGroup group threads).bind fun s => (s.moveGroup group threads).checkActivation

/-- `add(group, page)`, the assertion is that the group is known. -/
def add (group : G) (page : PageId) : Option (ThreadGroupPages G) :=
  if s.hasGroup group then
    let s := { s with
      mTotalBytes := if s.mPages.hasValue page then s.mTotalBytes else s.mTotalBytes + page.bytecount
      mPages := s.mPages.insert group page }
    let active := insertActive (s.mActivePages, s.mActiveBytes) group page
    checkActivation <| if s.mActiveThreadGroups.contains group then
        { s with mActivePages := active.1, mActiveBytes := active.2 }
      else s
  else none

/-- `drop(group, page)`. -/
def drop (s : ThreadGroupPages G) (group : G) (page : PageId) :
    Option (ThreadGroupPages G) :=
  let pages := s.mPages.drop group page
  let s := { s with
    mPages := pages
    mTotalBytes := if pages.hasValue page then s.mTotalBytes else s.mTotalBytes - page.bytecount }
  let active := dropActive (s.mActivePages, s.mActiveBytes) group page
  checkActivation <| if s.mActivePages.contains group page then
      { s with mActivePages := active.1, mActiveBytes := active.2 }
    else s

/-- What `groupFinished` does to the sets of groups. -/
def eraseGroup (group : G) : ThreadGroupPages G := { s with
    mActiveThreadGroups := (s.mActiveThreadGroups.erase group).removeFromTrackingSet group
    mInactiveThreadGroupsWithoutThreads := s.mInactiveThreadGroupsWithoutThreads.erase group
    mInactiveThreadGroupsWithThreads := s.mInactiveThreadGroupsWithThreads.erase group }

/-- `groupFinished(group)`. -/
def groupFinished (group : G) : Option (ThreadGroupPages G) :=
  if s.hasGroup group then
    ((ascending (s.mPages.getValues group)).foldlM (fun (s : ThreadGroupPages G) p =>
      s.drop group p) s).bind fun s => (s.eraseGroup group).checkActivation
  else some s

/-- `pageDroppedAcrossEntireSystem(page)`. -/
def pageDroppedAcrossEntireSystem (page : PageId) : Option (ThreadGroupPages G) := checkActivation { s with
    mTotalBytes := if s.mPages.hasValue page then s.mTotalBytes - page.bytecount else s.mTotalBytes
    mActiveBytes :=
      if s.mActivePages.hasValue page then s.mActiveBytes - page.bytecount else s.mActiveBytes
    mActivePages := s.mActivePages.dropValue page
    mPages := s.mPages.dropValue page }

/-! ## Runs -/

/-- The operations. The maximum that is set is not negative. -/
inductive Op (G : Type) where
  | setMaxActiveBytes (inMaxActiveBytes : ℤ) (nonneg : 0 ≤ inMaxActiveBytes)
  | setGroupThreads (group : G) (threads : ℤ)
  | add (group : G) (page : PageId)
  | drop (group : G) (page : PageId)
  | groupFinished (group : G)
  | pageDroppedAcrossEntireSystem (page : PageId)

/-- The groups, and which of them were last said to have threads and to have none. -/
structure Observed (G : Type) [LinearOrder G] where
  groups : ThreadGroupPages G := {}
  withThreads : Finset G := ∅
  withoutThreads : Finset G := ∅

/-- The known groups with threads, after a group was said to have a number of threads. -/
def withThreadsSet (withThreads : Finset G) (group : G) (threads : ℤ) : Finset G :=
  if threads ≠ 0 then insert group withThreads else withThreads.erase group

/-- The known groups without threads, after that. -/
def withoutThreadsSet (withoutThreads : Finset G) (group : G) (threads : ℤ) : Finset G :=
  if threads ≠ 0 then withoutThreads.erase group else insert group withoutThreads

/-- An operation is called. The assertion of `add` fails before anything has changed. -/
def step (o : Observed G) : Op G → Option (Observed G)
  | .setMaxActiveBytes inMaxActiveBytes _ =>
    (o.groups.setMaxActiveBytes inMaxActiveBytes).map fun s => { o with groups := s }
  | .setGroupThreads group threads =>
    (o.groups.setGroupThreads group threads).map fun s =>
      { groups := s
        withThreads := withThreadsSet o.withThreads group threads
        withoutThreads := withoutThreadsSet o.withoutThreads group threads }
  | .add group page =>
    if o.groups.hasGroup group then (o.groups.add group page).map fun s => { o with groups := s }
    else some o
  | .drop group page => (o.groups.drop group page).map fun s => { o with groups := s }
  | .groupFinished group =>
    (o.groups.groupFinished group).map fun s =>
      { groups := s
        withThreads := o.withThreads.erase group
        withoutThreads := o.withoutThreads.erase group }
  | .pageDroppedAcrossEntireSystem page =>
    (o.groups.pageDroppedAcrossEntireSystem page).map fun s => { o with groups := s }

/-- The distinct pages of a set of groups. -/
def pagesOf (groups : Finset G) : Finset PageId := groups.biUnion s.mPages.getValues

/-- The property: every known group is in one of the three sets, the active pages are those of the
active groups, their bytes are counted and not more than allowed, and no other group with threads
fits. -/
structure Correct (o : Observed G) : Prop where
  groupsWithThreads : o.groups.mActiveThreadGroups.mElements ∪ o.groups.mInactiveThreadGroupsWithThreads = o.withThreads
  groupsWithoutThreads : o.groups.mInactiveThreadGroupsWithoutThreads = o.withoutThreads
  activeOrNot : Disjoint o.groups.mActiveThreadGroups.mElements o.groups.mInactiveThreadGroupsWithThreads
  threadsOrNot : Disjoint o.withThreads o.withoutThreads
  restricted : ∀ group page, o.groups.mActivePages.contains group page ↔
    o.groups.mPages.contains group page ∧ group ∈ o.groups.mActiveThreadGroups.mElements
  bytes : o.groups.mActiveBytes = totalBytecount (o.groups.pagesOf o.groups.mActiveThreadGroups.mElements)
  fits : o.groups.mActiveBytes ≤ o.groups.mMaxActiveBytes
  full : ∀ group ∈ o.groups.mInactiveThreadGroupsWithThreads, o.groups.mMaxActiveBytes ≤
      totalBytecount (o.groups.pagesOf (insert group o.groups.mActiveThreadGroups.mElements))

/-! ## What the loops keep -/

/-- What holds whenever `checkActivation()` is called and throughout its loops. -/
structure Sound (s : ThreadGroupPages G) (withThreads withoutThreads : Finset G) : Prop where
  groupsWithThreads : s.mActiveThreadGroups.mElements ∪ s.mInactiveThreadGroupsWithThreads = withThreads
  groupsWithoutThreads : s.mInactiveThreadGroupsWithoutThreads = withoutThreads
  activeOrNot : Disjoint s.mActiveThreadGroups.mElements s.mInactiveThreadGroupsWithThreads
  threadsOrNot : Disjoint withThreads withoutThreads
  restricted : ∀ group page, s.mActivePages.contains group page ↔
    s.mPages.contains group page ∧ group ∈ s.mActiveThreadGroups.mElements
  counted : Counted (s.mActivePages, s.mActiveBytes)
  known : ∀ group page, s.mPages.contains group page → group ∈ withThreads ∪ withoutThreads
  nonneg : 0 ≤ s.mMaxActiveBytes

section
variable {s s' : ThreadGroupPages G} {withThreads withoutThreads : Finset G}
  {group : G} {page : PageId}

section

variable (h : Sound s withThreads withoutThreads)
include h

/-- The active pages are those of the active groups. -/
theorem Sound.values_eq : s.mActivePages.values = s.pagesOf s.mActiveThreadGroups.mElements := by
  ext page
  simp only [mem_values, h.restricted, pagesOf, mem_biUnion, mem_getValues, and_comm]

theorem Sound.bytes : s.mActiveBytes = totalBytecount (s.pagesOf s.mActiveThreadGroups.mElements) :=
  h.values_eq ▸ h.counted

theorem Sound.hasGroup_iff : s.hasGroup group ↔ group ∈ withThreads ∪ withoutThreads := by
  rw [← h.groupsWithThreads, ← h.groupsWithoutThreads, mem_union, mem_union, or_assoc]
  rfl

end

/-- The sum over the pages of a list that no key has, counted a number of times. -/
theorem foldl_bytes (m : TwoWaySetMap G PageId) {l : List PageId} (hl : l.Nodup) (c b : ℤ) :
    l.foldl (fun (bytes : ℤ) p => if m.hasValue p then bytes else bytes + c * p.bytecount) b =
      b + c * totalBytecount (l.toFinset \ m.values) := by
  induction l generalizing b with
  | nil => simp
  | cons p l ih =>
    have hp := nodup_cons.1 hl
    rw [foldl_cons, ih hp.2, toFinset_cons]
    split
    · next hv => rw [insert_sdiff_of_mem _ (hasValue_iff_mem_values.1 hv)]
    · rename_i hv
      rw [insert_sdiff_of_notMem _ (mt hasValue_iff_mem_values.2 hv),
        totalBytecount_insert (by simp [hp.1]), Int.mul_add]
      omega

theorem inactiveBytes_eq :
    s.inactiveBytes group = totalBytecount (s.mPages.getValues group \ s.mActivePages.values) := by
  have hsum := foldl_bytes s.mActivePages (ascending_nodup (s.mPages.getValues group)) 1 0
  simp only [toFinset_ascending, Int.one_mul, Int.zero_add] at hsum
  exact hsum

section

variable (h : Sound s withThreads withoutThreads)
include h

/-- The bytes that would be active with one more group. -/
theorem Sound.bytes_insert : s.inactiveBytes group + s.mActiveBytes =
      totalBytecount (s.pagesOf (insert group s.mActiveThreadGroups.mElements)) := by
  have hp : s.pagesOf (insert group s.mActiveThreadGroups.mElements) =
      s.mPages.getValues group \ s.mActivePages.values ∪ s.mActivePages.values := by
    rw [sdiff_union_self_eq_union, h.values_eq]
    exact biUnion_insert
  rw [hp, totalBytecount_union sdiff_disjoint, inactiveBytes_eq]
  exact congrArg _ h.counted

/-- Deactivating a group. -/
theorem Sound.deactivate (hg : group ∈ s.mActiveThreadGroups.mElements) :
    Sound (s.deactivate group) withThreads withoutThreads where
  groupsWithThreads := by
    show (s.mActiveThreadGroups.erase group).mElements ∪ insert group _ = _
    rw [mElements_erase, union_insert, ← insert_union, insert_erase hg]
    exact h.groupsWithThreads
  groupsWithoutThreads := h.groupsWithoutThreads
  activeOrNot := by
    show Disjoint (s.mActiveThreadGroups.erase group).mElements (insert group _)
    rw [mElements_erase, disjoint_insert_right]
    exact ⟨notMem_erase _ _, h.activeOrNot.mono_left (erase_subset _ _)⟩
  threadsOrNot := h.threadsOrNot
  restricted group' page' := by
    unfold ThreadGroupPages.deactivate
    rw [contains_dropAll, h.restricted, mElements_erase, mem_erase, mem_ascending, mem_getValues]
    constructor
    · intro hc
      exact ⟨hc.1.1, fun he => hc.2 ⟨he, he ▸ hc.1.1⟩, hc.1.2⟩
    · intro hc
      exact ⟨⟨hc.1, hc.2.2⟩, fun he => hc.2.1 he.1⟩
  counted := h.counted.dropAll (ascending_nodup _) fun p hp =>
    (h.restricted group p).2 ⟨mem_getValues.1 (mem_ascending.1 hp), hg⟩
  known := h.known
  nonneg := h.nonneg

/-- Activating a group. -/
theorem Sound.activate (hg : group ∈ s.mInactiveThreadGroupsWithThreads) :
    Sound (s.activate group) withThreads withoutThreads where
  groupsWithThreads := by
    show (s.mActiveThreadGroups.insert group).mElements ∪ erase _ group = _
    rw [mElements_insert, insert_union, ← union_insert, insert_erase hg]
    exact h.groupsWithThreads
  groupsWithoutThreads := h.groupsWithoutThreads
  activeOrNot := by
    show Disjoint (s.mActiveThreadGroups.insert group).mElements (erase _ group)
    rw [mElements_insert, disjoint_insert_left]
    exact ⟨notMem_erase _ _, h.activeOrNot.mono_right (erase_subset _ _)⟩
  threadsOrNot := h.threadsOrNot
  restricted group' page' := by
    unfold ThreadGroupPages.activate
    rw [contains_insertAll, h.restricted, mElements_insert, mem_insert, mem_ascending, mem_getValues]
    constructor
    · rintro (⟨rfl, hc⟩ | hc)
      · exact ⟨hc, .inl rfl⟩
      · exact ⟨hc.1, .inr hc.2⟩
    · rintro ⟨hc, rfl | hm⟩
      · exact .inl ⟨rfl, hc⟩
      · exact .inr ⟨hc, hm⟩
  counted := h.counted.insertAll
  known := h.known
  nonneg := h.nonneg

/-- While too many bytes are active, some group is active. -/
theorem Sound.deactivateOne (hb : s.mMaxActiveBytes < s.mActiveBytes) :
    ∃ group ∈ s.mActiveThreadGroups.mElements, s.deactivateOne = some (s.deactivate group) := by
  cases ha : ascending s.mActiveThreadGroups.mElements with
  | nil =>
    have hempty : s.mActiveThreadGroups.mElements = ∅ := by
      rw [← toFinset_ascending s.mActiveThreadGroups.mElements, ha, toFinset_nil]
    have hzero : s.mActiveBytes = 0 := by
      rw [h.bytes, hempty]
      exact Fora.totalBytecount_empty
    have := h.nonneg
    omega
  | cons group l =>
    refine ⟨group, mem_ascending.1 (ha ▸ .head l), ?_⟩
    unfold ThreadGroupPages.deactivateOne
    rw [ha]
    rfl

/-- The first loop. -/
theorem Sound.deactivateUntilFits : ∃ s', s.deactivateUntilFits = some s' ∧ Sound s' withThreads withoutThreads ∧
      s'.mActiveBytes ≤ s'.mMaxActiveBytes ∧ s'.mPages = s.mPages := by
  induction s using deactivateUntilFits.induct with
  | case1 s hb hn =>
    obtain ⟨group, -, hd⟩ := h.deactivateOne hb
    rw [hd] at hn
    cases hn
  | case2 s hb s' hd ih =>
    obtain ⟨group, hg, hd'⟩ := h.deactivateOne hb
    obtain rfl := Option.some.inj (hd'.symm.trans hd)
    obtain ⟨t, ht, hs, hf, hp⟩ := ih (h.deactivate hg)
    refine ⟨t, ?_, hs, hf, hp⟩
    rw [ThreadGroupPages.deactivateUntilFits, if_pos hb]
    split
    · rename_i hn
      rw [hd] at hn
      cases hn
    · rename_i s'' hd''
      obtain rfl := Option.some.inj (hd'.symm.trans hd'')
      exact ht
  | case3 s hb =>
    refine ⟨s, ?_, h, not_lt.1 hb, rfl⟩
    rw [ThreadGroupPages.deactivateUntilFits, if_neg hb]

/-- The second loop. -/
theorem Sound.activateWhileFits (hf : s.mActiveBytes ≤ s.mMaxActiveBytes) :
    Sound s.activateWhileFits withThreads withoutThreads ∧
      s.activateWhileFits.mActiveBytes ≤ s.activateWhileFits.mMaxActiveBytes ∧
      (∀ group ∈ s.activateWhileFits.mInactiveThreadGroupsWithThreads,
        s.activateWhileFits.tryToActivateOne = none) ∧ s.activateWhileFits.mPages = s.mPages := by
  induction s using activateWhileFits.induct with
  | case1 s hn =>
    rw [ThreadGroupPages.activateWhileFits, if_pos hn]
    exact ⟨h, hf, fun group hg => by simp [hn] at hg, rfl⟩
  | case2 s hn ht =>
    have heq : s.activateWhileFits = s := by
      rw [ThreadGroupPages.activateWhileFits, if_neg hn]
      split
      · rfl
      · rename_i s' ht'
        rw [ht] at ht'
        cases ht'
    rw [heq]
    exact ⟨h, hf, fun _ _ => ht, rfl⟩
  | case3 s hn s' ht ih =>
    have heq : s.activateWhileFits = s'.activateWhileFits := by
      rw [ThreadGroupPages.activateWhileFits, if_neg hn]
      split
      · rename_i ht'
        rw [ht] at ht'
        cases ht'
      · next s'' ht' => rw [Option.some.inj (ht.symm.trans ht')]
    obtain ⟨group, hg, rfl⟩ := Option.map_eq_some_iff.1 ht
    have hm := mem_ascending.1 (mem_of_find?_eq_some hg)
    have hfit := find?_some hg
    have hs' := h.activate hm
    rw [heq]
    refine ih hs' ?_
    have hb : (s.activate group).mActiveBytes = s.inactiveBytes group + s.mActiveBytes := by
      rw [hs'.bytes, h.bytes_insert]
      show totalBytecount ((s.activate group).pagesOf (s.mActiveThreadGroups.insert group).mElements) = _
      rw [mElements_insert]
      rfl
    rw [hb]
    exact (of_decide_eq_true hfit).le

end

/-- What holds after `checkActivation()`. -/
structure Settled (s : ThreadGroupPages G) (withThreads withoutThreads : Finset G) :
    Prop extends Sound s withThreads withoutThreads where
  fits : s.mActiveBytes ≤ s.mMaxActiveBytes
  full : ∀ group ∈ s.mInactiveThreadGroupsWithThreads,
    s.mMaxActiveBytes ≤ totalBytecount (s.pagesOf (insert group s.mActiveThreadGroups.mElements))

section

variable (h : Sound s withThreads withoutThreads)
include h

theorem Sound.checkActivation : ∃ s', s.checkActivation = some s' ∧ Settled s' withThreads withoutThreads ∧
      s'.mPages = s.mPages := by
  obtain ⟨t, ht, hs, hf, hp⟩ := h.deactivateUntilFits
  obtain ⟨hs', hf', hn, hp'⟩ := hs.activateWhileFits hf
  refine ⟨t.activateWhileFits, ?_, ⟨hs', hf', fun group hg => ?_⟩, hp'.trans hp⟩
  · unfold ThreadGroupPages.checkActivation
    rw [ht]
    rfl
  · have hnone := find?_eq_none.1 (Option.map_eq_none_iff.1 (hn group hg)) group (mem_ascending.2 hg)
    rw [← hs'.bytes_insert]
    simpa using hnone

theorem Sound.settles : ∃ s', s.checkActivation = some s' ∧ Settled s' withThreads withoutThreads := by
  obtain ⟨s', hc, hs', -⟩ := h.checkActivation
  exact ⟨s', hc, hs'⟩

/-! ## What the operations keep -/

theorem Sound.setMaxActiveBytes {inMaxActiveBytes : ℤ}
    (hn : 0 ≤ inMaxActiveBytes) : ∃ s', s.setMaxActiveBytes inMaxActiveBytes = some s' ∧
      Settled s' withThreads withoutThreads := by
  have hs : Sound { s with mMaxActiveBytes := inMaxActiveBytes } withThreads withoutThreads := { h with nonneg := hn }
  exact hs.settles

/-- Deactivating a group for good. The bytes that go are those of its pages that no other active group
has. -/
theorem deactivateWithoutThreads_counted (hg : group ∈ s.mActiveThreadGroups.mElements) :
    Counted ((s.deactivateWithoutThreads group).mActivePages, (s.deactivateWithoutThreads group).mActiveBytes) := by
  have hv : s.mActivePages.values = (s.mPages.getValues group \ (s.mActivePages.dropKey group).values) ∪
        (s.mActivePages.dropKey group).values := by
    rw [sdiff_union_self_eq_union]
    ext page
    simp only [mem_values, mem_union, mem_getValues, contains_dropKey]
    constructor
    · rintro ⟨group', hc⟩
      by_cases he : group' = group
      · exact .inl ((h.restricted group page).1 (he ▸ hc)).1
      · exact .inr ⟨group', hc, he⟩
    · rintro (hc | ⟨group', hc, -⟩)
      · exact ⟨group, (h.restricted group page).2 ⟨hc, hg⟩⟩
      · exact ⟨group', hc⟩
  have hb := h.counted
  unfold Counted at hb ⊢
  dsimp only at hb
  rw [hv, totalBytecount_union sdiff_disjoint] at hb
  have hsum := foldl_bytes (s.mActivePages.dropKey group)
    (ascending_nodup (s.mPages.getValues group)) (-1) s.mActiveBytes
  simp only [toFinset_ascending, Int.neg_mul, Int.one_mul, ← Int.sub_eq_add_neg] at hsum
  unfold deactivateWithoutThreads
  dsimp only
  rw [hsum, hb]
  omega

end

theorem disjoint_threadsSet (h : Disjoint withThreads withoutThreads) (threads : ℤ) :
    Disjoint (withThreadsSet withThreads group threads) (withoutThreadsSet withoutThreads group threads) := by
  unfold withThreadsSet withoutThreadsSet
  rw [Finset.disjoint_left] at h ⊢
  intro g
  split <;> grind

theorem subset_threadsSet (threads : ℤ) : withThreads ∪ withoutThreads ⊆
    withThreadsSet withThreads group threads ∪ withoutThreadsSet withoutThreads group threads := by
  unfold withThreadsSet withoutThreadsSet
  intro g
  split <;> grind

section

variable (h : Sound s withThreads withoutThreads)
include h

/-- Putting a known group where its threads ask for. -/
theorem Sound.moveGroup (hg : group ∈ withThreads ∪ withoutThreads) (threads : ℤ) :
    Sound (s.moveGroup group threads) (withThreadsSet withThreads group threads)
      (withoutThreadsSet withoutThreads group threads) := by
  have hd := @disjoint_threadsSet _ _ _ _ group h.threadsOrNot threads
  have hsub := @subset_threadsSet _ _ withThreads withoutThreads group threads
  have hdis := disjoint_left.1 h.threadsOrNot
  have hact := disjoint_left.1 h.activeOrNot
  have hknown : ∀ g p, s.mPages.contains g p → g ∈ withThreadsSet withThreads group threads ∪
      withoutThreadsSet withoutThreads group threads := fun g p hp => hsub (h.known g p hp)
  have hw : group ∈ s.mActiveThreadGroups.mElements ∪ s.mInactiveThreadGroupsWithThreads ↔
      group ∈ withThreads := by rw [h.groupsWithThreads]
  unfold ThreadGroupPages.moveGroup
  split
  · rename_i hc
    obtain ⟨ha, rfl⟩ := hc
    refine ⟨?_, ?_, ?_, hd, fun g p => ?_, deactivateWithoutThreads_counted h ha, hknown, h.nonneg⟩
    · show (s.mActiveThreadGroups.erase group).mElements ∪ _ = withThreads.erase group
      rw [mElements_erase, ← h.groupsWithThreads, erase_union_distrib, erase_eq_of_notMem (hact ha)]
      rfl
    · exact congrArg (insert group) h.groupsWithoutThreads
    · show Disjoint (s.mActiveThreadGroups.erase group).mElements _
      rw [mElements_erase]
      exact h.activeOrNot.mono_left (erase_subset _ _)
    · show (s.mActivePages.dropKey group).contains g p ↔ _ ∧ g ∈ (s.mActiveThreadGroups.erase group).mElements
      rw [contains_dropKey, h.restricted, mElements_erase, mem_erase, and_comm (a := g ≠ group), and_assoc]
      rfl
  · rename_i hc
    split
    · rename_i hi
      refine ⟨?_, ?_, ?_, hd, h.restricted, h.counted, hknown, h.nonneg⟩
      · rw [union_insert, h.groupsWithThreads]
        exact (if_pos hi.2).symm
      · rw [h.groupsWithoutThreads]
        exact (if_pos hi.2).symm
      · refine disjoint_insert_right.2 ⟨fun ha => ?_, h.activeOrNot⟩
        refine hdis (hw.1 (mem_union_left _ ha)) ?_
        rw [← h.groupsWithoutThreads]
        exact hi.1
    · rename_i hi
      split
      · rename_i hj
        obtain ⟨hj, rfl⟩ := hj
        refine ⟨?_, ?_, h.activeOrNot.mono_right (erase_subset _ _), hd, h.restricted, h.counted, hknown, h.nonneg⟩
        · show s.mActiveThreadGroups.mElements ∪ erase _ group = withThreads.erase group
          rw [← h.groupsWithThreads, erase_union_distrib, erase_eq_of_notMem fun ha => hact ha hj]
        · exact congrArg (insert group) h.groupsWithoutThreads
      · rename_i hj
        have hw' : withThreadsSet withThreads group threads = withThreads ∧
            withoutThreadsSet withoutThreads group threads = withoutThreads := by
          unfold withThreadsSet withoutThreadsSet
          by_cases ht : threads = 0
          · have hnot : group ∉ withThreads := fun hm =>
              (mem_union.1 (hw.2 hm)).elim (fun ha => hc ⟨ha, ht⟩) fun ha => hj ⟨ha, ht⟩
            simp only [ht, ne_eq, not_true_eq_false, if_false, erase_eq_of_notMem hnot, true_and]
            exact insert_eq_of_mem ((mem_union.1 hg).resolve_left hnot)
          · have hnot : group ∉ withoutThreads := fun hm =>
              hi ⟨h.groupsWithoutThreads.symm ▸ hm, ht⟩
            simp only [ht, ne_eq, not_false_eq_true, if_true, erase_eq_of_notMem hnot, and_true]
            exact insert_eq_of_mem ((mem_union.1 hg).resolve_right hnot)
        rw [hw'.1, hw'.2]
        exact h

/-- Taking in a group that is not known, before it is put where its threads ask for. -/
theorem Sound.withGroup (group : G) (threads : ℤ) :
    ∃ s' withThreads' withoutThreads', s.withGroup group threads = some s' ∧
      Sound s' withThreads' withoutThreads' ∧ group ∈ withThreads' ∪ withoutThreads' ∧
      withThreadsSet withThreads' group threads = withThreadsSet withThreads group threads ∧
      withoutThreadsSet withoutThreads' group threads = withoutThreadsSet withoutThreads group threads := by
  unfold ThreadGroupPages.withGroup
  by_cases hk : s.hasGroup group
  · exact ⟨s, withThreads, withoutThreads, if_pos hk, h, h.hasGroup_iff.1 hk, rfl, rfl⟩
  rw [if_neg hk]
  have hnew := mt h.hasGroup_iff.2 hk
  simp only [mem_union, not_or] at hnew
  have hpages : ¬ s.mPages.hasKey group := fun hp => by
    obtain ⟨page, hc⟩ := hasKey_iff.1 hp
    exact hk (h.hasGroup_iff.2 (h.known group page hc))
  rw [if_neg hpages]
  split
  · rename_i ht
    refine ⟨_, insert group withThreads, withoutThreads, rfl, ?_, by simp, ?_, rfl⟩
    · refine ⟨?_, h.groupsWithoutThreads, ?_, ?_, fun g p => ?_, h.counted, fun g p hp => ?_, h.nonneg⟩
      · rw [mElements_insert, insert_union, h.groupsWithThreads]
      · rw [mElements_insert, disjoint_insert_left]
        refine ⟨fun hm => hnew.1 ?_, h.activeOrNot⟩
        rw [← h.groupsWithThreads]
        exact mem_union_right _ hm
      · exact disjoint_insert_left.2 ⟨hnew.2, h.threadsOrNot⟩
      · rw [h.restricted, mElements_insert, mem_insert]
        refine and_congr_right fun hp => ⟨.inr, fun hm => hm.resolve_left ?_⟩
        rintro rfl
        exact hpages (hasKey_iff.2 ⟨p, hp⟩)
      · rw [insert_union]
        exact mem_insert_of_mem (h.known g p hp)
    · unfold withThreadsSet
      rw [if_pos ht, if_pos ht, insert_idem]
  · rename_i ht
    refine ⟨_, withThreads, insert group withoutThreads, rfl, ?_, by simp, rfl, ?_⟩
    · refine ⟨h.groupsWithThreads, congrArg (insert group) h.groupsWithoutThreads, h.activeOrNot, ?_,
        h.restricted, h.counted, fun g p hp => ?_, h.nonneg⟩
      · exact disjoint_insert_right.2 ⟨hnew.1, h.threadsOrNot⟩
      · rw [union_insert]
        exact mem_insert_of_mem (h.known g p hp)
    · unfold withoutThreadsSet
      rw [if_neg ht, if_neg ht, insert_idem]

theorem Sound.setGroupThreads (group : G) (threads : ℤ) : ∃ s', s.setGroupThreads group threads = some s' ∧
      Settled s' (withThreadsSet withThreads group threads) (withoutThreadsSet withoutThreads group threads) := by
  obtain ⟨t, withThreads', withoutThreads', ht, hs, hg, hw, hwo⟩ := h.withGroup group threads
  obtain ⟨s', hc, hs', -⟩ := (hs.moveGroup hg threads).checkActivation
  rw [hw, hwo] at hs'
  refine ⟨s', ?_, hs'⟩
  unfold ThreadGroupPages.setGroupThreads
  rw [ht]
  exact hc

theorem Sound.add (page : PageId) (hg : s.hasGroup group) :
    ∃ s', s.add group page = some s' ∧ Settled s' withThreads withoutThreads := by
  have hknown : ∀ g p, (s.mPages.insert group page).contains g p → g ∈ withThreads ∪ withoutThreads := by
    intro g p hc
    obtain ⟨rfl, -⟩ | hc := contains_insert.1 hc
    · exact h.hasGroup_iff.1 hg
    · exact h.known g p hc
  unfold ThreadGroupPages.add
  rw [if_pos hg]
  dsimp only
  split
  · rename_i ha
    refine Sound.settles ⟨h.groupsWithThreads, h.groupsWithoutThreads, h.activeOrNot,
      h.threadsOrNot, fun g p => ?_, h.counted.insertActive, hknown, h.nonneg⟩
    show (s.mActivePages.insert group page).contains g p ↔ (s.mPages.insert group page).contains g p ∧ _
    rw [TwoWaySetMap.contains_insert, TwoWaySetMap.contains_insert, h.restricted]
    constructor
    · rintro (⟨rfl, rfl⟩ | hc)
      · exact ⟨.inl ⟨rfl, rfl⟩, ha⟩
      · exact ⟨.inr hc.1, hc.2⟩
    · rintro ⟨hc | hc, hm⟩
      · exact .inl hc
      · exact .inr ⟨hc, hm⟩
  · rename_i ha
    refine Sound.settles ⟨h.groupsWithThreads, h.groupsWithoutThreads, h.activeOrNot,
      h.threadsOrNot, fun g p => ?_, h.counted, hknown, h.nonneg⟩
    rw [TwoWaySetMap.contains_insert, h.restricted]
    refine and_congr_left fun hm => ⟨.inr, fun hc => hc.resolve_left ?_⟩
    rintro ⟨rfl, -⟩
    exact ha hm

theorem Sound.drop (group : G) (page : PageId) :
    ∃ s', s.drop group page = some s' ∧ Settled s' withThreads withoutThreads ∧
      s'.mPages = s.mPages.drop group page := by
  have hknown : ∀ g p, (s.mPages.drop group page).contains g p → g ∈ withThreads ∪ withoutThreads :=
    fun g p hc => h.known g p (contains_drop.1 hc).1
  unfold ThreadGroupPages.drop
  dsimp only
  split
  · rename_i ha
    refine checkActivation ⟨h.groupsWithThreads, h.groupsWithoutThreads, h.activeOrNot,
      h.threadsOrNot, fun g p => ?_, h.counted.dropActive ha, hknown, h.nonneg⟩
    show (s.mActivePages.drop group page).contains g p ↔ (s.mPages.drop group page).contains g p ∧ _
    rw [contains_drop, contains_drop, h.restricted, and_right_comm]
  · rename_i ha
    refine checkActivation ⟨h.groupsWithThreads, h.groupsWithoutThreads, h.activeOrNot,
      h.threadsOrNot, fun g p => ?_, h.counted, hknown, h.nonneg⟩
    rw [contains_drop, h.restricted, and_right_comm, iff_self_and]
    rintro hc ⟨rfl, rfl⟩
    exact ha ((h.restricted g p).2 hc)

end

/-- The loop of `groupFinished`. -/
theorem Settled.dropAll (h : Settled s withThreads withoutThreads) (group : G)
    (l : List PageId) : ∃ s', l.foldlM (fun (s : ThreadGroupPages G) p => s.drop group p) s =
      some s' ∧ Settled s' withThreads withoutThreads ∧
      s'.mPages = l.foldl (fun m p => m.drop group p) s.mPages := by
  induction l generalizing s with
  | nil => exact ⟨s, rfl, h, rfl⟩
  | cons p l ih =>
    obtain ⟨t, ht, hs, hp⟩ := h.toSound.drop group p
    obtain ⟨s', hl, hs', hp'⟩ := ih hs
    refine ⟨s', ?_, hs', ?_⟩
    · rw [foldlM_cons, ht]
      exact hl
    · rw [hp', hp]
      rfl

/-- A group without pages goes. -/
theorem Sound.eraseGroup (h : Sound s withThreads withoutThreads) (hp : ∀ page, ¬ s.mPages.contains group page) :
    Sound (s.eraseGroup group) (withThreads.erase group) (withoutThreads.erase group) where
  groupsWithThreads := by
    show ((s.mActiveThreadGroups.erase group).removeFromTrackingSet group).mElements ∪ erase _ group = _
    rw [mElements_removeFromTrackingSet, mElements_erase, ← erase_union_distrib, h.groupsWithThreads]
  groupsWithoutThreads := congrArg (fun t => Finset.erase t group) h.groupsWithoutThreads
  activeOrNot := by
    show Disjoint ((s.mActiveThreadGroups.erase group).removeFromTrackingSet group).mElements (erase _ group)
    rw [mElements_removeFromTrackingSet, mElements_erase]
    exact h.activeOrNot.mono (erase_subset _ _) (erase_subset _ _)
  threadsOrNot := h.threadsOrNot.mono (erase_subset _ _) (erase_subset _ _)
  restricted g p := by
    show s.mActivePages.contains g p ↔ s.mPages.contains g p ∧
      g ∈ ((s.mActiveThreadGroups.erase group).removeFromTrackingSet group).mElements
    rw [mElements_removeFromTrackingSet, mElements_erase, mem_erase, h.restricted]
    refine and_congr_right fun hc => ⟨fun hm => ⟨?_, hm⟩, And.right⟩
    rintro rfl
    exact hp p hc
  counted := h.counted
  known g p hc := by
    rw [← erase_union_distrib]
    refine mem_erase.2 ⟨?_, h.known g p hc⟩
    rintro rfl
    exact hp p hc
  nonneg := h.nonneg

theorem Settled.groupFinished (h : Settled s withThreads withoutThreads) (group : G) :
    ∃ s', s.groupFinished group = some s' ∧ Settled s' (withThreads.erase group) (withoutThreads.erase group) := by
  unfold ThreadGroupPages.groupFinished
  by_cases hg : s.hasGroup group
  · obtain ⟨t, ht, hs, hp⟩ := h.dropAll group (ascending (s.mPages.getValues group))
    have hnone : ∀ page, ¬ t.mPages.contains group page := by
      intro page hc
      have hc' : (s.mPages.dropKey group).contains group page := by
        rw [hp] at hc
        exact hc
      exact (contains_dropKey.1 hc').2 rfl
    obtain ⟨s', hc, hs', -⟩ := (hs.toSound.eraseGroup hnone).checkActivation
    refine ⟨s', ?_, hs'⟩
    rw [if_pos hg, ht]
    exact hc
  · have hnot := mt h.hasGroup_iff.2 hg
    simp only [mem_union, not_or] at hnot
    rw [erase_eq_of_notMem hnot.1, erase_eq_of_notMem hnot.2]
    exact ⟨s, if_neg hg, h⟩

theorem Sound.pageDroppedAcrossEntireSystem (h : Sound s withThreads withoutThreads) (page : PageId) :
    ∃ s', s.pageDroppedAcrossEntireSystem page = some s' ∧ Settled s' withThreads withoutThreads := by
  refine Sound.settles ⟨h.groupsWithThreads, h.groupsWithoutThreads, h.activeOrNot,
    h.threadsOrNot, fun g p => ?_, ?_, fun g p hc => ?_, h.nonneg⟩
  · rw [contains_dropValue, contains_dropValue, h.restricted, and_right_comm]
  · have hv : (s.mActivePages.dropValue page).values = s.mActivePages.values.erase page := by
      ext p
      simp only [mem_values, contains_dropValue, mem_erase, exists_and_right, and_comm (a := p ≠ page)]
    have hb := h.counted
    unfold Counted at hb ⊢
    dsimp only at hb ⊢
    rw [hv]
    split
    · next hp => rw [hb, totalBytecount_erase (hasValue_iff_mem_values.1 hp)]
    · next hp => rw [hb, erase_eq_of_notMem (mt hasValue_iff_mem_values.2 hp)]
  · exact h.known g p (contains_dropValue.1 hc).1

end

/-! ## Every run -/

theorem settled_start : Settled ({} : ThreadGroupPages G) ∅ ∅ where
  groupsWithThreads := rfl
  groupsWithoutThreads := rfl
  activeOrNot := disjoint_empty_left _
  threadsOrNot := disjoint_empty_left _
  restricted group page := by simp
  counted := by
    show (0 : ℤ) = totalBytecount (∅ : TwoWaySetMap G PageId).values
    rw [values_empty, Fora.totalBytecount_empty]
  known group page hc := absurd hc contains_empty
  nonneg := le_rfl
  fits := le_rfl
  full group hg := absurd hg (notMem_empty group)

/-- One operation returns and keeps what holds. -/
theorem step_settled {o : Observed G} (h : Settled o.groups o.withThreads o.withoutThreads)
    (op : Op G) :
    ∃ o', step o op = some o' ∧ Settled o'.groups o'.withThreads o'.withoutThreads := by
  cases op with
  | setMaxActiveBytes inMaxActiveBytes nonneg =>
    obtain ⟨s', hs, h'⟩ := h.toSound.setMaxActiveBytes nonneg
    exact ⟨{ o with groups := s' }, congrArg (Option.map _) hs, h'⟩
  | setGroupThreads group threads =>
    obtain ⟨s', hs, h'⟩ := h.toSound.setGroupThreads group threads
    exact ⟨⟨s', _, _⟩, congrArg (Option.map _) hs, h'⟩
  | add group page =>
    by_cases hg : o.groups.hasGroup group
    · obtain ⟨s', hs, h'⟩ := h.toSound.add page hg
      exact ⟨{ o with groups := s' }, (if_pos hg).trans (congrArg (Option.map _) hs), h'⟩
    · exact ⟨o, if_neg hg, h⟩
  | drop group page =>
    obtain ⟨s', hs, h', -⟩ := h.toSound.drop group page
    exact ⟨{ o with groups := s' }, congrArg (Option.map _) hs, h'⟩
  | groupFinished group =>
    obtain ⟨s', hs, h'⟩ := h.groupFinished group
    exact ⟨⟨s', _, _⟩, congrArg (Option.map _) hs, h'⟩
  | pageDroppedAcrossEntireSystem page =>
    obtain ⟨s', hs, h'⟩ := h.toSound.pageDroppedAcrossEntireSystem page
    exact ⟨{ o with groups := s' }, congrArg (Option.map _) hs, h'⟩

theorem Settled.correct {o : Observed G} (h : Settled o.groups o.withThreads o.withoutThreads) : Correct o :=
  { h with bytes := h.bytes }

/-- Every run of the operations returns from all of them, no assertion of the loops fails, and the
property holds in all its states. -/
theorem always_activated (ops : List (Op G)) : (run step ({} : Observed G) ops).isSome ∧
      Always step Correct ({} : Observed G) ops := by
  obtain ⟨hr, ha⟩ := returns_of_everyStep (s := ({} : Observed G)) (C := fun _ _ => True)
    (P := fun o => Settled o.groups o.withThreads o.withoutThreads) settled_start
    (fun o op h _ => step_settled h op) fun _ _ _ _ _ => trivial
  exact ⟨hr, ha.mono fun _ h => h.correct⟩

end ThreadGroupPages

end Cumulus.PageLayoutCalculator
