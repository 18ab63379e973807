import Ufora.Containers.TwoWaySetMap
import Ufora.Lib.Effect
import Ufora.Pages.Basic

/-!
# `PagesOnMachines`

`cumulus/PagesOnMachines.cppml`: which pages are on which machines, as one machine knows it from the
page events of all of them. The primary data is one relation between pages and machines for each of
RAM, disk and pinning; the four sets of pages and the two tables of byte counts are derived data,
which each operation updates on its own.
-/

open Ordered Effect Fora Cumulus Finmap TwoWaySetMap

/-- The state of a `PagesOnMachines`. -/
structure PagesOnMachines where
  mMachineToBytesOnDisk : StdMap MachineId ℤ := ∅
  mMachineToBytesInRam : StdMap MachineId ℤ := ∅
  mMachineIdSet : Finset MachineId := ∅
  mAllPagesInRam : Finset PageId := ∅
  mAllPagesOnDisk : Finset PageId := ∅
  mAllPagesOnlyInRam : Finset PageId := ∅
  mAllPagesOnlyOnDisk : Finset PageId := ∅
  mPagesInRam : TwoWaySetMap PageId MachineId := ∅
  mPagesPinned : TwoWaySetMap PageId MachineId := ∅
  mPagesOnDisk : TwoWaySetMap PageId MachineId := ∅
  mMachinesWhereExecutionIsBlocked : Finset MachineId := ∅
  mMachineMemoryUsage : StdMap MachineId MemoryUsage := ∅
  mDroppedInternalPages : Finset PageId := ∅
  mPagesMarkedNotLoadable : Finset PageId := ∅
  mPageBigvecs : StdMap PageId (Finset BigVectorId) := ∅
  mPageBigvecSetMap : TwoWaySetMap PageId BigVectorId := ∅

namespace PagesOnMachines

/-! ## The readers -/

variable (s : PagesOnMachines) (page : PageId)

/-- `bigvecsReferencedByPage(page)`. -/
def bigvecsReferencedByPage : Option (Finset BigVectorId) := lookup page s.mPageBigvecs

/-- `isBigvecReferencedByPage(page)`: some page references the vector. -/
def isBigvecReferencedByPage (bigvec : BigVectorId) : Prop := s.mPageBigvecSetMap.hasValue bigvec
deriving Decidable

variable (inMachineId : MachineId)

/-- `hasMachine(inMachineId)`. -/
def hasMachine : Prop := inMachineId ∈ s.mMachineIdSet
deriving Decidable

/-! ## The events -/

variable (bigvecs : Finset BigVectorId)

/-- Records the vectors that a page references, unless the page has them already. -/
def setPageBigvecs : PagesOnMachines :=
  if page ∈ s.mPageBigvecs then s
  else
    { s with
      mPageBigvecs := insert page bigvecs s.mPageBigvecs
      mPageBigvecSetMap := s.mPageBigvecSetMap.insertValues page bigvecs }

/-- The branch `PageReferencedBigvecs` of `consumePageEvent`. -/
def pageReferencedBigvecs : PagesOnMachines :=
  if page ∈ s.mDroppedInternalPages then s else s.setPageBigvecs page bigvecs

/-- The branch `PageAddedToRam` of `consumePageEvent`. -/
def pageAddedToRam (inMachineId : MachineId) : PagesOnMachines :=
  let s :=
    if s.mPagesInRam.contains page inMachineId then s
    else
      { s with
        mMachineToBytesInRam := insert inMachineId
          (s.mMachineToBytesInRam.get inMachineId + page.bytecount) s.mMachineToBytesInRam }
  let s := s.setPageBigvecs page bigvecs
  let s := { s with
      mAllPagesInRam := insert page s.mAllPagesInRam
      mAllPagesOnlyOnDisk := s.mAllPagesOnlyOnDisk.erase page }
  let s :=
    if s.mPagesOnDisk.hasKey page then s
    else { s with mAllPagesOnlyInRam := insert page s.mAllPagesOnlyInRam }
  { s with
    mPagesInRam := s.mPagesInRam.insert page inMachineId
    mPagesPinned := s.mPagesPinned.insert page inMachineId }

/-- The branch `PageDroppedFromRam` of `consumePageEvent`. -/
def pageDroppedFromRam : PagesOnMachines :=
  let s :=
    if s.mPagesInRam.contains page inMachineId then
      { s with
        mMachineToBytesInRam := insert inMachineId
          (s.mMachineToBytesInRam.get inMachineId - page.bytecount) s.mMachineToBytesInRam }
    else s
  let s := { s with
      mPagesInRam := s.mPagesInRam.drop page inMachineId
      mPagesPinned := s.mPagesPinned.drop page inMachineId }
  if s.mPagesInRam.hasKey page then s
  else
    let s := { s with mAllPagesInRam := s.mAllPagesInRam.erase page }
    if s.mPagesOnDisk.hasKey page then
      { s with mAllPagesOnDisk := insert page s.mAllPagesOnDisk }
    else s

/-- The branch `PageAddedToDisk` of `consumePageEvent`. -/
def pageAddedToDisk : PagesOnMachines :=
  let s :=
    if s.mPagesOnDisk.contains page inMachineId then s
    else
      { s with
        mMachineToBytesOnDisk := insert inMachineId
          (s.mMachineToBytesOnDisk.get inMachineId + page.bytecount) s.mMachineToBytesOnDisk }
  let s := { s with
      mPagesOnDisk := s.mPagesOnDisk.insert page inMachineId
      mAllPagesOnDisk := insert page s.mAllPagesOnDisk
      mAllPagesOnlyInRam := s.mAllPagesOnlyInRam.erase page }
  if s.mPagesInRam.hasKey page then s
  else { s with mAllPagesOnlyOnDisk := insert page s.mAllPagesOnlyOnDisk }

/-- The branch `PageDroppedFromDisk` of `consumePageEvent`. -/
def pageDroppedFromDisk : PagesOnMachines :=
  let s :=
    if s.mPagesOnDisk.contains page inMachineId then
      { s with
        mMachineToBytesOnDisk := insert inMachineId
          (s.mMachineToBytesOnDisk.get inMachineId - page.bytecount) s.mMachineToBytesOnDisk }
    else s
  let s := { s with mPagesOnDisk := s.mPagesOnDisk.drop page inMachineId }
  if s.mPagesOnDisk.hasKey page then s
  else
    let s := { s with mAllPagesOnDisk := s.mAllPagesOnDisk.erase page }
    if s.mPagesInRam.hasKey page then
      { s with mAllPagesOnlyInRam := insert page s.mAllPagesOnlyInRam }
    else s

/-- `consumePageEvent(inEvent, inMachineId)`. -/
def consumePageEvent (inEvent : PageRefcountEvent) (inMachineId : MachineId) : PagesOnMachines :=
  match inEvent with
  | .PageReferencedBigvecs page bigvecs => s.pageReferencedBigvecs page bigvecs
  | .PageAddedToRam page bigvecs => s.pageAddedToRam page bigvecs inMachineId
  | .PageDroppedFromRam page => s.pageDroppedFromRam page inMachineId
  | .PagePinnedStatusChanged page isPinned =>
    if isPinned then { s with mPagesPinned := s.mPagesPinned.insert page inMachineId }
    else { s with mPagesPinned := s.mPagesPinned.drop page inMachineId }
  | .PageMarkedNotLoadable page =>
    { s with mPagesMarkedNotLoadable := insert page s.mPagesMarkedNotLoadable }
  | .PageAddedToDisk page => s.pageAddedToDisk page inMachineId
  | .PageDroppedFromDisk page => s.pageDroppedFromDisk page inMachineId
  | .ExecutionIsBlockedChanged isBlocked =>
    if isBlocked then
      { s with
        mMachinesWhereExecutionIsBlocked := insert inMachineId s.mMachinesWhereExecutionIsBlocked }
    else
      { s with
        mMachinesWhereExecutionIsBlocked := s.mMachinesWhereExecutionIsBlocked.erase inMachineId }
  | .MemoryUsageChanged usage =>
    { s with mMachineMemoryUsage := insert inMachineId usage s.mMachineMemoryUsage }
  | .BigVectorReferenced _ | .BigVectorNoLongerReferenced _ | .BigVectorsInFlight _ _ _
  | .SyntheticPageCreated _ _ | .SyntheticPageRealized _ => s

/-! ## The machines -/

/-- `addMachine(inMachineId)`. -/
def addMachine : EStateM AssertionFailed PagesOnMachines Unit := do
  lassert (inMachineId ∉ (← get).mMachineIdSet) (.alreadyHave inMachineId)
  modify fun s => { s with mMachineIdSet := insert inMachineId s.mMachineIdSet }

/-- `dropMachine(inMachineId)`. -/
def dropMachine : EStateM AssertionFailed PagesOnMachines Unit := do
  lassert (inMachineId ∈ (← get).mMachineIdSet) (.cantFind inMachineId)
  modify fun s =>
    { s with
      mMachineIdSet := s.mMachineIdSet.erase inMachineId
      mMachinesWhereExecutionIsBlocked := s.mMachinesWhereExecutionIsBlocked.erase inMachineId }
  modify fun s =>
    { s with
      mPagesOnDisk := s.mPagesOnDisk.dropValue inMachineId
      mPagesPinned := s.mPagesPinned.dropValue inMachineId
      mPagesInRam := s.mPagesInRam.dropValue inMachineId }

/-- `markInternalPageDropped(page)`. -/
def markInternalPageDropped : PagesOnMachines := { s with
    mPageBigvecs := erase page s.mPageBigvecs
    mPageBigvecSetMap := s.mPageBigvecSetMap.dropKey page
    mDroppedInternalPages := insert page s.mDroppedInternalPages }

/-! ## What the events leave

Each branch that changes the relations between pages and machines, as one update of the state. -/

section
variable {s} {p : PageId} {b : Finset BigVectorId} {m : MachineId}

theorem pageAddedToRam_eq : s.pageAddedToRam p b m = { s with
      mMachineToBytesInRam := if s.mPagesInRam.contains p m then s.mMachineToBytesInRam else
        insert m (s.mMachineToBytesInRam.get m + p.bytecount) s.mMachineToBytesInRam
      mAllPagesInRam := insert p s.mAllPagesInRam
      mAllPagesOnlyOnDisk := s.mAllPagesOnlyOnDisk.erase p
      mAllPagesOnlyInRam := if s.mPagesOnDisk.hasKey p then s.mAllPagesOnlyInRam else
        insert p s.mAllPagesOnlyInRam
      mPagesInRam := s.mPagesInRam.insert p m
      mPagesPinned := s.mPagesPinned.insert p m
      mPageBigvecs := (s.setPageBigvecs p b).mPageBigvecs
      mPageBigvecSetMap := (s.setPageBigvecs p b).mPageBigvecSetMap } := by
  unfold pageAddedToRam setPageBigvecs
  dsimp only
  split_ifs <;> rfl

theorem pageDroppedFromRam_eq : s.pageDroppedFromRam p m = { s with
      mMachineToBytesInRam := if s.mPagesInRam.contains p m then
        insert m (s.mMachineToBytesInRam.get m - p.bytecount) s.mMachineToBytesInRam
        else s.mMachineToBytesInRam
      mAllPagesInRam := if (s.mPagesInRam.drop p m).hasKey p then s.mAllPagesInRam else
        s.mAllPagesInRam.erase p
      mAllPagesOnDisk := if ¬ (s.mPagesInRam.drop p m).hasKey p ∧ s.mPagesOnDisk.hasKey p then
        insert p s.mAllPagesOnDisk else s.mAllPagesOnDisk
      mPagesInRam := s.mPagesInRam.drop p m
      mPagesPinned := s.mPagesPinned.drop p m } := by
  unfold pageDroppedFromRam
  split_ifs <;> simp_all

theorem pageAddedToDisk_eq : s.pageAddedToDisk p m = { s with
      mMachineToBytesOnDisk := if s.mPagesOnDisk.contains p m then s.mMachineToBytesOnDisk else
        insert m (s.mMachineToBytesOnDisk.get m + p.bytecount) s.mMachineToBytesOnDisk
      mAllPagesOnDisk := insert p s.mAllPagesOnDisk
      mAllPagesOnlyInRam := s.mAllPagesOnlyInRam.erase p
      mAllPagesOnlyOnDisk := if s.mPagesInRam.hasKey p then s.mAllPagesOnlyOnDisk else
        insert p s.mAllPagesOnlyOnDisk
      mPagesOnDisk := s.mPagesOnDisk.insert p m } := by
  unfold pageAddedToDisk
  dsimp only
  split_ifs <;> rfl

theorem pageDroppedFromDisk_eq : s.pageDroppedFromDisk p m = { s with
      mMachineToBytesOnDisk := if s.mPagesOnDisk.contains p m then
        insert m (s.mMachineToBytesOnDisk.get m - p.bytecount) s.mMachineToBytesOnDisk
        else s.mMachineToBytesOnDisk
      mAllPagesOnDisk := if (s.mPagesOnDisk.drop p m).hasKey p then s.mAllPagesOnDisk else
        s.mAllPagesOnDisk.erase p
      mAllPagesOnlyInRam := if ¬ (s.mPagesOnDisk.drop p m).hasKey p ∧ s.mPagesInRam.hasKey p then
        insert p s.mAllPagesOnlyInRam else s.mAllPagesOnlyInRam
      mPagesOnDisk := s.mPagesOnDisk.drop p m } := by
  unfold pageDroppedFromDisk
  split_ifs <;> simp_all

end

/-! ## The references of pages -/

/-- The two records of the references of pages agree. -/
def Listed : Prop := ∀ p b, s.mPageBigvecSetMap.contains p b ↔ b ∈ s.mPageBigvecs.get p

variable {s} {p : PageId} {v : BigVectorId}

/-- What a page references is referenced. -/
theorem Listed.isBigvecReferencedByPage_iff (h : s.Listed) :
    s.isBigvecReferencedByPage v ↔ ∃ p, v ∈ s.mPageBigvecs.get p := by
  unfold isBigvecReferencedByPage
  rw [hasValue_iff]
  exact exists_congr fun p => h p v

theorem listed_empty : Listed {} := fun p b => by simp

theorem Listed.setPageBigvecs (h : s.Listed) (p : PageId) (b : Finset BigVectorId) : (s.setPageBigvecs p b).Listed := by
  unfold PagesOnMachines.setPageBigvecs
  split
  · exact h
  · next hp =>
    intro q v
    have hn : v ∉ s.mPageBigvecs.get p := by
      rw [StdMap.get, lookup_eq_none.2 hp]
      simp
    simp only [contains_insertValues, StdMap.get_insert, h q v]
    split
    · next hq => subst hq; simp [hn]
    · next hq => simp [hq]

/-- A page event changes the records of the pages' references only by recording those of a page. -/
theorem consumePageEvent_rule {P : StdMap PageId (Finset BigVectorId) → TwoWaySetMap PageId BigVectorId → Prop}
    (h : P s.mPageBigvecs s.mPageBigvecSetMap)
    (hset : ∀ p b, P (s.setPageBigvecs p b).mPageBigvecs (s.setPageBigvecs p b).mPageBigvecSetMap)
    (e : PageRefcountEvent) (m : MachineId) :
    P (s.consumePageEvent e m).mPageBigvecs (s.consumePageEvent e m).mPageBigvecSetMap := by
  cases e with
  | PageAddedToRam p b =>
    simp only [consumePageEvent, pageAddedToRam_eq]
    exact hset p b
  | PageReferencedBigvecs p b =>
    simp only [consumePageEvent, pageReferencedBigvecs]
    split
    · exact h
    · exact hset p b
  | PageDroppedFromRam p =>
    simp only [consumePageEvent, pageDroppedFromRam_eq]
    exact h
  | PageAddedToDisk p =>
    simp only [consumePageEvent, pageAddedToDisk_eq]
    exact h
  | PageDroppedFromDisk p =>
    simp only [consumePageEvent, pageDroppedFromDisk_eq]
    exact h
  | PagePinnedStatusChanged p isPinned => cases isPinned <;> exact h
  | ExecutionIsBlockedChanged isBlocked => cases isBlocked <;> exact h
  | _ => exact h

/-- No event breaks the records. -/
theorem Listed.consumePageEvent (h : s.Listed) (e : PageRefcountEvent) (m : MachineId) :
    (s.consumePageEvent e m).Listed :=
  consumePageEvent_rule (P := fun bigvecs map => ∀ p b, map.contains p b ↔ b ∈ bigvecs.get p) h (h.setPageBigvecs ·) e m

theorem Listed.markInternalPageDropped (h : s.Listed) (p : PageId) : (s.markInternalPageDropped p).Listed := by
  intro q v
  simp only [PagesOnMachines.markInternalPageDropped, contains_dropKey, StdMap.get_erase, h q v]
  split
  · next hq => simp [hq]
  · next hq => simp [hq]

/-- Removing a page removes the references of that page. -/
theorem isBigvecReferencedByPage_markInternalPageDropped : (s.markInternalPageDropped p).isBigvecReferencedByPage v ↔
      ∃ q, q ≠ p ∧ s.mPageBigvecSetMap.contains q v := by
  unfold isBigvecReferencedByPage markInternalPageDropped
  rw [hasValue_iff]
  exact exists_congr fun q => by rw [contains_dropKey, and_comm]

end PagesOnMachines
