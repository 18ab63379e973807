import Ufora.Containers.SetWithChanges
import Ufora.Lib.Run
import Ufora.Pages.Bytecounts

/-!
# `MachinePageAllocation`

`cumulus/PageLayoutCalculator/MachinePageAllocation.hppml`: the pages that are on machines, as far as is
known, and those that are meant to be there. What is requested and what is acknowledged reaches it
independently; the tables of what is meant to be are adjusted with every change.

Byte counts are exact integers. A machine without an entry in a table of bytes has none there.
-/

open Ordered Run Finset TwoWaySetMap SetWithChanges

namespace Cumulus.PageLayoutCalculator

open Fora (PageId)

/-- `m[machine] += bytes`. -/
def addBytes (m : StdMap MachineId ℤ) (machine : MachineId) (bytes : ℤ) : StdMap MachineId ℤ :=
  m.insert machine (m.get machine + bytes)

/-- `MachinePageAllocation`. -/
structure MachinePageAllocation where
  mPages : TwoWaySetMap MachineId PageId := ∅
  mMachineBytes : StdMap MachineId ℤ := ∅
  mMachineAddBytes : StdMap MachineId ℤ := ∅
  mMachineDropBytes : StdMap MachineId ℤ := ∅
  mNewAdds : TwoWaySetMap MachineId PageId := ∅
  mNewDrops : TwoWaySetMap MachineId PageId := ∅
  mRequestedAdds : TwoWaySetMap MachineId PageId := ∅
  mRequestedDrops : TwoWaySetMap MachineId PageId := ∅
  mTargetPages : TwoWaySetMap MachineId PageId := ∅
  mTargetPageChanges : SetWithChanges (MachineId × PageId) := {}

namespace MachinePageAllocation

variable (s : MachinePageAllocation) (machine : MachineId) (page : PageId)

/-- `mTargetPages.insert(machine, page)`, with the entry in the changes. -/
def insertTarget : MachinePageAllocation := { s with
    mTargetPages := s.mTargetPages.insert machine page
    mTargetPageChanges := s.mTargetPageChanges.insert (machine, page) }

/-- `mTargetPages.drop(machine, page)`, with the entry in the changes. -/
def dropTarget : MachinePageAllocation := { s with
    mTargetPages := s.mTargetPages.drop machine page
    mTargetPageChanges := s.mTargetPageChanges.erase (machine, page) }

/-- `mRequestedAdds.drop(machine, page)`, with the bytes. -/
def dropRequestedAdd : MachinePageAllocation := { s with
    mRequestedAdds := s.mRequestedAdds.drop machine page
    mMachineAddBytes := addBytes s.mMachineAddBytes machine (-page.bytecount) }

/-- `mRequestedDrops.drop(machine, page)`, with the bytes. -/
def dropRequestedDrop : MachinePageAllocation := { s with
    mRequestedDrops := s.mRequestedDrops.drop machine page
    mMachineDropBytes := addBytes s.mMachineDropBytes machine (-page.bytecount) }

/-- `pageAdded(machine, page)`. -/
def pageAdded : MachinePageAllocation :=
  if s.mPages.contains machine page then s
  else
    let s := { s with
      mPages := s.mPages.insert machine page
      mMachineBytes := addBytes s.mMachineBytes machine page.bytecount }
    if s.mRequestedAdds.contains machine page then
      let s := s.dropRequestedAdd machine page
      if s.mNewAdds.contains machine page then { s with mNewAdds := s.mNewAdds.drop machine page }
      else s
    else s.insertTarget machine page

/-- `pageDropped(machine, page)`. -/
def pageDropped : MachinePageAllocation :=
  if ¬ s.mPages.contains machine page then s
  else
    let s := { s with
      mPages := s.mPages.drop machine page
      mMachineBytes := addBytes s.mMachineBytes machine (-page.bytecount) }
    if s.mRequestedDrops.contains machine page then
      let s := s.dropRequestedDrop machine page
      if s.mNewDrops.contains machine page then { s with mNewDrops := s.mNewDrops.drop machine page }
      else s
    else s.dropTarget machine page

/-- What `requestPageAdd(machine, page)` does to the requests. -/
def withRequestedAdd : MachinePageAllocation :=
  if s.mRequestedDrops.contains machine page then s.dropRequestedDrop machine page
  else
    { s with
      mMachineAddBytes := addBytes s.mMachineAddBytes machine page.bytecount
      mRequestedAdds := s.mRequestedAdds.insert machine page }

/-- What `requestPageDrop(machine, page)` does to the requests. -/
def withRequestedDrop : MachinePageAllocation :=
  if s.mRequestedAdds.contains machine page then s.dropRequestedAdd machine page
  else
    { s with
      mMachineDropBytes := addBytes s.mMachineDropBytes machine page.bytecount
      mRequestedDrops := s.mRequestedDrops.insert machine page }

/-- `requestPageAdd(machine, page)`. -/
def requestPageAdd : MachinePageAllocation :=
  if s.mTargetPages.contains machine page then s
  else
    let s := (s.insertTarget machine page).withRequestedAdd machine page
    if s.mNewDrops.contains machine page then { s with mNewDrops := s.mNewDrops.drop machine page }
    else { s with mNewAdds := s.mNewAdds.insert machine page }

/-- `requestPageDrop(machine, page)`. -/
def requestPageDrop : MachinePageAllocation :=
  if ¬ s.mTargetPages.contains machine page then s
  else
    let s := (s.dropTarget machine page).withRequestedDrop machine page
    if s.mNewAdds.contains machine page then { s with mNewAdds := s.mNewAdds.drop machine page }
    else { s with mNewDrops := s.mNewDrops.insert machine page }

/-- The bytes of a page are taken from each machine of a set. -/
def subtractBytes (m : StdMap MachineId ℤ) (machines : Finset MachineId) (page : PageId) : StdMap MachineId ℤ :=
  (ascending machines).foldl (fun m machine => addBytes m machine (-page.bytecount)) m

/-- `pageDroppedAcrossEntireSystem(page)`. -/
def pageDroppedAcrossEntireSystem : MachinePageAllocation := { s with
    mMachineBytes := subtractBytes s.mMachineBytes (s.mPages.getKeys page) page
    mMachineAddBytes := subtractBytes s.mMachineAddBytes (s.mRequestedAdds.getKeys page) page
    mMachineDropBytes := subtractBytes s.mMachineDropBytes (s.mRequestedDrops.getKeys page) page
    mNewAdds := s.mNewAdds.dropValue page
    mNewDrops := s.mNewDrops.dropValue page
    mPages := s.mPages.dropValue page
    mTargetPages := s.mTargetPages.dropValue page
    mRequestedAdds := s.mRequestedAdds.dropValue page
    mRequestedDrops := s.mRequestedDrops.dropValue page }

/-- `extractNewAddsAndDrops(outAdds, outDrops)`. -/
def extractNewAddsAndDrops : (TwoWaySetMap MachineId PageId × TwoWaySetMap MachineId PageId) × MachinePageAllocation :=
  ((s.mNewAdds, s.mNewDrops), { s with mNewAdds := ∅, mNewDrops := ∅ })

/-- `extractTargetChanges(outAdds, outDrops)`. -/
def extractTargetChanges : Changes (MachineId × PageId) × MachinePageAllocation :=
  let extracted := s.mTargetPageChanges.extractChanges
  (extracted.1, { s with mTargetPageChanges := extracted.2 })

/-- `bytesAddedToMachine(machine)`. -/
def bytesAddedToMachine : ℤ := s.mMachineAddBytes.get machine

/-- `bytesDroppedFromMachine(machine)`. -/
def bytesDroppedFromMachine : ℤ := s.mMachineDropBytes.get machine

/-- `bytesOnMachine(machine)`. -/
def bytesOnMachine : ℤ := s.mMachineBytes.get machine

/-- `bytesTargetedOnMachine(machine)`. -/
def bytesTargetedOnMachine : ℤ :=
  s.bytesOnMachine machine + s.bytesAddedToMachine machine - s.bytesDroppedFromMachine machine

/-! ## Runs -/

/-- The operations. -/
inductive Op where
  | pageAdded (machine : MachineId) (page : PageId)
  | pageDropped (machine : MachineId) (page : PageId)
  | requestPageAdd (machine : MachineId) (page : PageId)
  | requestPageDrop (machine : MachineId) (page : PageId)
  | pageDroppedAcrossEntireSystem (page : PageId)
  | extractNewAddsAndDrops
  | extractTargetChanges

/-- An allocation, and the set that the changes extracted so far make out of the empty one. -/
structure Observed where
  allocation : MachinePageAllocation := {}
  reproduced : Finset (MachineId × PageId) := ∅

/-- An operation is called. -/
def step (o : Observed) : Op → Observed
  | .pageAdded machine page => { o with allocation := o.allocation.pageAdded machine page }
  | .pageDropped machine page => { o with allocation := o.allocation.pageDropped machine page }
  | .requestPageAdd machine page => { o with allocation := o.allocation.requestPageAdd machine page }
  | .requestPageDrop machine page => { o with allocation := o.allocation.requestPageDrop machine page }
  | .pageDroppedAcrossEntireSystem page =>
    { o with allocation := o.allocation.pageDroppedAcrossEntireSystem page }
  | .extractNewAddsAndDrops => { o with allocation := o.allocation.extractNewAddsAndDrops.2 }
  | .extractTargetChanges =>
    { allocation := o.allocation.extractTargetChanges.2
      reproduced := o.allocation.extractTargetChanges.1.apply o.reproduced }

/-- The target pages are those that are on the machines and not to be dropped, and those that are to be
added, and the bytes are theirs. -/
structure Targeted (s : MachinePageAllocation) : Prop where
  target : ∀ m p, s.mTargetPages.contains m p ↔
    (s.mPages.contains m p ∧ ¬ s.mRequestedDrops.contains m p) ∨ s.mRequestedAdds.contains m p
  adds : ∀ m p, s.mRequestedAdds.contains m p → ¬ s.mPages.contains m p
  drops : ∀ m p, s.mRequestedDrops.contains m p → s.mPages.contains m p
  bytes : ∀ m, s.bytesTargetedOnMachine m = s.mTargetPages.bytesOf m

/-- What an extraction of the changes would report makes what has been reproduced so far into the target
pages. -/
def Reproduces (o : Observed) : Prop := ∀ m p, (m, p) ∈ o.allocation.extractTargetChanges.1.apply o.reproduced ↔
    o.allocation.mTargetPages.contains m p

/-- What an allocation is meant to keep. -/
structure Correct (o : Observed) : Prop where
  targeted : Targeted o.allocation
  reproduces : Reproduces o

/-- A page is not dropped across the system while it is meant to be on a machine. -/
def Untargeted (o : Observed) : Op → Prop
  | .pageDroppedAcrossEntireSystem page => ∀ m, ¬ o.allocation.mTargetPages.contains m page
  | _ => True

/-! ## The tables -/

variable {s} {o : Observed} {machine m : MachineId} {page p : PageId}

@[simp] theorem get_addBytes {t : StdMap MachineId ℤ} {bytes : ℤ} :
    (addBytes t machine bytes).get m = t.get m + if m = machine then bytes else 0 := by
  unfold addBytes
  rw [StdMap.get_insert]
  split
  · rw [‹m = machine›]
  · exact (add_zero _).symm

theorem get_subtractBytes {t : StdMap MachineId ℤ} {ms : Finset MachineId} :
    (subtractBytes t ms page).get m = t.get m - if m ∈ ms then (page.bytecount : ℤ) else 0 := by
  have hloop (l : List MachineId) (t : StdMap MachineId ℤ) (hl : l.Nodup) :
      (l.foldl (fun t machine => addBytes t machine (-page.bytecount)) t).get m =
        t.get m - if m ∈ l then (page.bytecount : ℤ) else 0 := by
    induction l generalizing t with
    | nil => exact (sub_zero _).symm
    | cons machine l ih =>
      obtain ⟨hnot, hl⟩ := List.nodup_cons.1 hl
      rw [List.foldl_cons, ih _ hl, get_addBytes]
      by_cases hm : m = machine
      · subst hm
        simp [hnot, sub_eq_add_neg]
      · simp [hm]
  have hsum := hloop (ascending ms) t (ascending_nodup _)
  simp only [mem_ascending] at hsum
  exact hsum

/-- The pages on the machines, the requests and the target pages fit, and so do the tables of bytes. -/
structure Tables (s : MachinePageAllocation) : Prop where
  target : ∀ m p, s.mTargetPages.contains m p ↔
    (s.mPages.contains m p ∧ ¬ s.mRequestedDrops.contains m p) ∨ s.mRequestedAdds.contains m p
  adds : ∀ m p, s.mRequestedAdds.contains m p → ¬ s.mPages.contains m p
  drops : ∀ m p, s.mRequestedDrops.contains m p → s.mPages.contains m p
  bytesOnMachine : ∀ m, s.mMachineBytes.get m = s.mPages.bytesOf m
  bytesAdded : ∀ m, s.mMachineAddBytes.get m = s.mRequestedAdds.bytesOf m
  bytesDropped : ∀ m, s.mMachineDropBytes.get m = s.mRequestedDrops.bytesOf m

theorem tables_empty : Tables {} := by
  constructor
  case target => simp
  case adds => simp
  case drops => simp
  all_goals
    intro m
    rw [StdMap.get_empty, bytesOf, getValues_empty]
    rfl

theorem Tables.targeted (h : Tables s) : Targeted s where
  target := h.target
  adds := h.adds
  drops := h.drops
  bytes m := by
    have htarget : s.mTargetPages.getValues m =
        (s.mPages.getValues m \ s.mRequestedDrops.getValues m) ∪ s.mRequestedAdds.getValues m := by
      ext p
      rw [mem_union, mem_sdiff]
      exact h.target m p
    have hdisjoint : Disjoint (s.mPages.getValues m \ s.mRequestedDrops.getValues m)
        (s.mRequestedAdds.getValues m) := by
      refine disjoint_left.2 fun p hp hadd => ?_
      exact h.adds m p hadd (mem_sdiff.1 hp).1
    have hsub : s.mRequestedDrops.getValues m ⊆ s.mPages.getValues m := fun p => h.drops m p
    have hbytes : s.mTargetPages.bytesOf m = s.mPages.bytesOf m - s.mRequestedDrops.bytesOf m +
        s.mRequestedAdds.bytesOf m := by
      unfold bytesOf
      rw [htarget, Fora.totalBytecount_union hdisjoint, Fora.totalBytecount_sdiff hsub]
    have hon : s.bytesOnMachine m = s.mPages.bytesOf m := h.bytesOnMachine m
    have hadded : s.bytesAddedToMachine m = s.mRequestedAdds.bytesOf m := h.bytesAdded m
    have hdropped : s.bytesDroppedFromMachine m = s.mRequestedDrops.bytesOf m := h.bytesDropped m
    unfold bytesTargetedOnMachine
    omega

theorem Tables.withNewAdds (h : Tables s) (adds : TwoWaySetMap MachineId PageId) : Tables { s with mNewAdds := adds } :=
  ⟨h.target, h.adds, h.drops, h.bytesOnMachine, h.bytesAdded, h.bytesDropped⟩

theorem Tables.withNewDrops (h : Tables s) (drops : TwoWaySetMap MachineId PageId) :
    Tables { s with mNewDrops := drops } :=
  ⟨h.target, h.adds, h.drops, h.bytesOnMachine, h.bytesAdded, h.bytesDropped⟩

/-- A page on a machine, the requests for it and the target pages fit. -/
def Fits (s : MachinePageAllocation) (m : MachineId) (p : PageId) : Prop := (s.mTargetPages.contains m p ↔
    (s.mPages.contains m p ∧ ¬ s.mRequestedDrops.contains m p) ∨ s.mRequestedAdds.contains m p) ∧
  (s.mRequestedAdds.contains m p → ¬ s.mPages.contains m p) ∧
  (s.mRequestedDrops.contains m p → s.mPages.contains m p)

/-- A table holds the bytes of the pages of every machine. -/
def Sums (t : StdMap MachineId ℤ) (pages : TwoWaySetMap MachineId PageId) : Prop := ∀ m, t.get m = pages.bytesOf m

theorem tables_iff : Tables s ↔ (∀ m p, Fits s m p) ∧ Sums s.mMachineBytes s.mPages ∧
    Sums s.mMachineAddBytes s.mRequestedAdds ∧ Sums s.mMachineDropBytes s.mRequestedDrops := by
  constructor
  · exact fun h => ⟨fun m p => ⟨h.target m p, h.adds m p, h.drops m p⟩, h.bytesOnMachine, h.bytesAdded, h.bytesDropped⟩
  · exact fun ⟨hfits, hon, hadded, hdropped⟩ => ⟨fun m p => (hfits m p).1, fun m p => (hfits m p).2.1,
      fun m p => (hfits m p).2.2, hon, hadded, hdropped⟩

section
variable {t : StdMap MachineId ℤ} {pages : TwoWaySetMap MachineId PageId}

theorem Sums.insert (h : Sums t pages) (hnot : ¬ pages.contains machine page) :
    Sums (addBytes t machine page.bytecount) (pages.insert machine page) := fun m => by
  rw [get_addBytes, bytesOf_insert hnot, h m]

theorem Sums.drop (h : Sums t pages) (hc : pages.contains machine page) :
    Sums (addBytes t machine (-page.bytecount)) (pages.drop machine page) := fun m => by
  rw [get_addBytes, bytesOf_drop hc, h m]
  split <;> omega

theorem Sums.dropValue (h : Sums t pages) :
    Sums (subtractBytes t (pages.getKeys page) page) (pages.dropValue page) := fun m => by
  simp only [get_subtractBytes, mem_getKeys, bytesOf_dropValue, h m]

end

theorem Tables.pageAdded (h : Tables s) : Tables (s.pageAdded machine page) := by
  obtain ⟨hfits, hon, hadded, hdropped⟩ := tables_iff.1 h
  unfold MachinePageAllocation.pageAdded
  split
  · exact h
  rename_i hnot
  dsimp only
  split
  · rename_i hadd
    have htables : Tables (dropRequestedAdd { s with
        mPages := s.mPages.insert machine page
        mMachineBytes := addBytes s.mMachineBytes machine page.bytecount } machine page) := by
      refine tables_iff.2 ⟨fun m p => ?_, hon.insert hnot, hadded.drop hadd, hdropped⟩
      simp only [Fits, dropRequestedAdd, TwoWaySetMap.contains_insert, contains_drop] at *
      grind
    split
    · exact htables.withNewAdds _
    · exact htables
  · refine tables_iff.2 ⟨fun m p => ?_, hon.insert hnot, hadded, hdropped⟩
    simp only [Fits, insertTarget, TwoWaySetMap.contains_insert] at *
    grind

theorem Tables.pageDropped (h : Tables s) : Tables (s.pageDropped machine page) := by
  obtain ⟨hfits, hon, hadded, hdropped⟩ := tables_iff.1 h
  unfold MachinePageAllocation.pageDropped
  split
  · exact h
  rename_i hpage
  have hpage := not_not.1 hpage
  dsimp only
  split
  · rename_i hdrop
    have htables : Tables (dropRequestedDrop { s with
        mPages := s.mPages.drop machine page
        mMachineBytes := addBytes s.mMachineBytes machine (-page.bytecount) } machine page) := by
      refine tables_iff.2 ⟨fun m p => ?_, hon.drop hpage, hadded, hdropped.drop hdrop⟩
      simp only [Fits, dropRequestedDrop, contains_drop] at *
      grind
    split
    · exact htables.withNewDrops _
    · exact htables
  · refine tables_iff.2 ⟨fun m p => ?_, hon.drop hpage, hadded, hdropped⟩
    simp only [Fits, dropTarget, contains_drop] at *
    grind

theorem Tables.requestPageAdd (h : Tables s) : Tables (s.requestPageAdd machine page) := by
  obtain ⟨hfits, hon, hadded, hdropped⟩ := tables_iff.1 h
  unfold MachinePageAllocation.requestPageAdd
  split
  · exact h
  rename_i hnot
  dsimp only
  have htables : Tables ((s.insertTarget machine page).withRequestedAdd machine page) := by
    have hnot := mt (hfits machine page).1.2 hnot
    unfold withRequestedAdd
    split
    · rename_i hdrop
      refine tables_iff.2 ⟨fun m p => ?_, hon, hadded, hdropped.drop hdrop⟩
      simp only [Fits, dropRequestedDrop, insertTarget, TwoWaySetMap.contains_insert, contains_drop] at *
      grind
    · refine tables_iff.2 ⟨fun m p => ?_, hon, hadded.insert fun hadd => hnot (.inr hadd), hdropped⟩
      simp only [Fits, insertTarget, TwoWaySetMap.contains_insert] at *
      grind
  split
  · exact htables.withNewDrops _
  · exact htables.withNewAdds _

theorem Tables.requestPageDrop (h : Tables s) : Tables (s.requestPageDrop machine page) := by
  obtain ⟨hfits, hon, hadded, hdropped⟩ := tables_iff.1 h
  unfold MachinePageAllocation.requestPageDrop
  split
  · exact h
  rename_i htargeted
  dsimp only
  have htables : Tables ((s.dropTarget machine page).withRequestedDrop machine page) := by
    have htargeted := (hfits machine page).1.1 (not_not.1 htargeted)
    unfold withRequestedDrop
    split
    · rename_i hadd
      refine tables_iff.2 ⟨fun m p => ?_, hon, hadded.drop hadd, hdropped⟩
      simp only [Fits, dropRequestedAdd, dropTarget, contains_drop] at *
      grind
    · rename_i hadd
      obtain ⟨hpage, hdrop⟩ := htargeted.resolve_right hadd
      refine tables_iff.2 ⟨fun m p => ?_, hon, hadded, hdropped.insert hdrop⟩
      simp only [Fits, dropTarget, TwoWaySetMap.contains_insert, contains_drop] at *
      grind
  split
  · exact htables.withNewAdds _
  · exact htables.withNewDrops _

theorem Tables.pageDroppedAcrossEntireSystem (h : Tables s) : Tables (s.pageDroppedAcrossEntireSystem page) := by
  obtain ⟨hfits, hon, hadded, hdropped⟩ := tables_iff.1 h
  refine tables_iff.2 ⟨fun m p => ?_, hon.dropValue, hadded.dropValue, hdropped.dropValue⟩
  simp only [Fits, MachinePageAllocation.pageDroppedAcrossEntireSystem, contains_dropValue] at *
  grind

/-! ## The changes -/

/-- Two allocations have the same target pages and the same changes of them. -/
def SameTargets (s s' : MachinePageAllocation) : Prop :=
  s'.mTargetPages = s.mTargetPages ∧ s'.mTargetPageChanges = s.mTargetPageChanges

theorem targets_pageAdded : SameTargets s (s.pageAdded machine page) ∨
    SameTargets (s.insertTarget machine page) (s.pageAdded machine page) := by
  unfold pageAdded
  split
  · exact .inl ⟨rfl, rfl⟩
  dsimp only
  split
  · split <;> exact .inl ⟨rfl, rfl⟩
  · exact .inr ⟨rfl, rfl⟩

theorem targets_pageDropped : SameTargets s (s.pageDropped machine page) ∨
    SameTargets (s.dropTarget machine page) (s.pageDropped machine page) := by
  unfold pageDropped
  split
  · exact .inl ⟨rfl, rfl⟩
  dsimp only
  split
  · split <;> exact .inl ⟨rfl, rfl⟩
  · exact .inr ⟨rfl, rfl⟩

theorem targets_requestPageAdd : SameTargets s (s.requestPageAdd machine page) ∨
    SameTargets (s.insertTarget machine page) (s.requestPageAdd machine page) := by
  unfold requestPageAdd withRequestedAdd
  split
  · exact .inl ⟨rfl, rfl⟩
  · dsimp only
    split <;> split <;> exact .inr ⟨rfl, rfl⟩

theorem targets_requestPageDrop : SameTargets s (s.requestPageDrop machine page) ∨
    SameTargets (s.dropTarget machine page) (s.requestPageDrop machine page) := by
  unfold requestPageDrop withRequestedDrop
  split
  · exact .inl ⟨rfl, rfl⟩
  · dsimp only
    split <;> split <;> exact .inr ⟨rfl, rfl⟩

/-- The elements of the changes are the target pages. -/
def Agrees (s : MachinePageAllocation) : Prop :=
  ∀ m p, s.mTargetPageChanges.contains (m, p) ↔ s.mTargetPages.contains m p

theorem Agrees.insertTarget (h : Agrees s) : Agrees (s.insertTarget machine page) := by
  intro m p
  refine SetWithChanges.contains_insert.trans ?_
  refine (or_congr Prod.mk_inj (h m p)).trans contains_insert.symm

theorem Agrees.dropTarget (h : Agrees s) : Agrees (s.dropTarget machine page) := by
  intro m p
  refine contains_erase.trans ?_
  rw [h m p, and_comm]
  exact (and_congr_right' (not_congr Prod.mk_inj)).trans contains_drop.symm

/-- A property of the target pages and their changes that inserting and dropping keeps is kept by all
operations on single pages. -/
theorem of_targets {Q : MachinePageAllocation → Prop} (hsame : ∀ s s', SameTargets s s' → Q s → Q s')
    (hinsert : ∀ s machine page, Q s → Q (s.insertTarget machine page))
    (hdrop : ∀ s machine page, Q s → Q (s.dropTarget machine page)) (h : Q s) :
    Q (s.pageAdded machine page) ∧ Q (s.pageDropped machine page) ∧
      Q (s.requestPageAdd machine page) ∧ Q (s.requestPageDrop machine page) := by
  refine ⟨?_, ?_, ?_, ?_⟩
  · exact targets_pageAdded.elim (hsame _ _ · h) (hsame _ _ · (hinsert s machine page h))
  · exact targets_pageDropped.elim (hsame _ _ · h) (hsame _ _ · (hdrop s machine page h))
  · exact targets_requestPageAdd.elim (hsame _ _ · h) (hsame _ _ · (hinsert s machine page h))
  · exact targets_requestPageDrop.elim (hsame _ _ · h) (hsame _ _ · (hdrop s machine page h))

theorem agrees_of_sameTargets {s' : MachinePageAllocation} (he : SameTargets s s') (h : Agrees s) : Agrees s' := by
  intro m p
  rw [he.1, he.2]
  exact h m p

theorem follows_of_sameTargets {s' : MachinePageAllocation} {base : Finset (MachineId × PageId)}
    (he : SameTargets s s') (h : s.mTargetPageChanges.Follows base) :
    s'.mTargetPageChanges.Follows base := by
  rw [he.2]
  exact h

/-- Dropping a page across the system leaves the changes as they are. They fit only where the page was
no target page. -/
theorem agrees_pageDroppedAcrossEntireSystem (h : Agrees s) :
    Agrees (s.pageDroppedAcrossEntireSystem page) ↔ ∀ m, ¬ s.mTargetPages.contains m page := by
  constructor
  · intro ha m hm
    have hgone := (ha m page).1 ((h m page).2 hm)
    exact (contains_dropValue.1 hgone).2 rfl
  · intro hnot m p
    refine (h m p).trans (contains_dropValue.trans (and_iff_left_of_imp ?_)).symm
    intro hp heq
    exact hnot m (heq ▸ hp)

/-! ## Runs keep the target pages -/

/-- What holds in every state of every run. -/
structure Observed.Kept (o : Observed) : Prop where
  tables : Tables o.allocation
  follows : o.allocation.mTargetPageChanges.Follows o.reproduced

theorem kept_initial : Observed.Kept {} := ⟨tables_empty, follows_empty⟩

/-- The changes reproduce the target pages exactly where their elements are the target pages. -/
theorem Observed.Kept.reproduces_iff (h : o.Kept) : Reproduces o ↔ Agrees o.allocation := by
  have happly := h.follows.extractChanges.1
  refine forall₂_congr fun m p => iff_congr ?_ Iff.rfl
  show (m, p) ∈ (o.allocation.mTargetPageChanges.extractChanges.1).apply o.reproduced ↔ _
  rw [happly]
  exact Iff.rfl

theorem Observed.Kept.correct_iff_agrees (h : o.Kept) : Correct o ↔ Agrees o.allocation :=
  ⟨fun hc => h.reproduces_iff.1 hc.reproduces, fun ha => ⟨h.tables.targeted, h.reproduces_iff.2 ha⟩⟩

theorem Observed.Kept.step (h : o.Kept) (op : Op) : (step o op).Kept := by
  have hfollows {machine : MachineId} {page : PageId} :=
    @of_targets o.allocation machine page (fun s => s.mTargetPageChanges.Follows o.reproduced)
      (fun _ _ => follows_of_sameTargets) (fun _ _ _ h => h.insert) (fun _ _ _ h => h.erase) h.follows
  cases op with
  | pageAdded machine page => exact ⟨h.tables.pageAdded, hfollows.1⟩
  | pageDropped machine page => exact ⟨h.tables.pageDropped, hfollows.2.1⟩
  | requestPageAdd machine page => exact ⟨h.tables.requestPageAdd, hfollows.2.2.1⟩
  | requestPageDrop machine page => exact ⟨h.tables.requestPageDrop, hfollows.2.2.2⟩
  | pageDroppedAcrossEntireSystem page => exact ⟨h.tables.pageDroppedAcrossEntireSystem, h.follows⟩
  | extractNewAddsAndDrops => exact ⟨(h.tables.withNewAdds ∅).withNewDrops ∅, h.follows⟩
  | extractTargetChanges =>
    have t := h.tables
    obtain ⟨happly, hnew⟩ := h.follows.extractChanges
    refine ⟨⟨t.target, t.adds, t.drops, t.bytesOnMachine, t.bytesAdded, t.bytesDropped⟩, ?_⟩
    show o.allocation.mTargetPageChanges.extractChanges.2.Follows
      (o.allocation.mTargetPageChanges.extractChanges.1.apply o.reproduced)
    rw [happly]
    exact hnew

/-- An operation keeps the changes fitting exactly where it drops no target page across the system. -/
theorem agrees_step (h : Agrees o.allocation) (op : Op) : Agrees (step o op).allocation ↔ Untargeted o op := by
  have hagrees {machine : MachineId} {page : PageId} := @of_targets o.allocation machine page _
      (fun _ _ => agrees_of_sameTargets) (fun _ _ _ h => h.insertTarget)
      (fun _ _ _ h => h.dropTarget) h
  cases op with
  | pageAdded machine page => exact iff_of_true hagrees.1 trivial
  | pageDropped machine page => exact iff_of_true hagrees.2.1 trivial
  | requestPageAdd machine page => exact iff_of_true hagrees.2.2.1 trivial
  | requestPageDrop machine page => exact iff_of_true hagrees.2.2.2 trivial
  | pageDroppedAcrossEntireSystem page => exact agrees_pageDroppedAcrossEntireSystem h
  | extractNewAddsAndDrops | extractTargetChanges => exact iff_of_true h trivial

/-- A run keeps the target pages, their bytes and their changes right exactly where it drops no page
across the system that is meant to be on a machine. -/
theorem always_correct_iff (ops : List Op) :
    Always (total step) Correct {} ops ↔ EveryStep (total step) Untargeted {} ops := by
  refine always_iff_everyStep (I := Observed.Kept) kept_initial ?_ ?_ ?_ ?_
  · refine kept_initial.correct_iff_agrees.2 fun m p => ?_
    exact iff_of_false (notMem_empty (m, p)) contains_empty
  · intro o op o' h he
    obtain rfl := total_eq_some.1 he
    exact h.step op
  · intro o op o' h hc he
    obtain rfl := total_eq_some.1 he
    rw [(h.step op).correct_iff_agrees]
    exact agrees_step (h.correct_iff_agrees.1 hc) op
  · intro o op _ _ he
    cases he

/-- In every run, the target pages are those on the machines, without the drops and with the adds that are requested,
and the tables of bytes count them. -/
theorem always_tables (ops : List Op) : Always (total step) (fun o => Tables o.allocation) {} ops :=
  (always kept_initial fun _ op _ h he => total_eq_some.1 he ▸ h.step op).mono fun _ h => h.tables

/-- A page that is added to a machine and then dropped across the system stays among the changes. -/
theorem not_always_correct : ¬ ∀ ops, Always (total step) Correct {} ops := by
  intro h
  have hlast := (h [.pageAdded ⟨1⟩ ⟨1, 8, 8⟩, .pageDroppedAcrossEntireSystem ⟨1, 8, 8⟩]).last rfl
  have hgone := (hlast.reproduces ⟨1⟩ ⟨1, 8, 8⟩).1 (by decide)
  exact absurd hgone (by decide)

end MachinePageAllocation

end Cumulus.PageLayoutCalculator
