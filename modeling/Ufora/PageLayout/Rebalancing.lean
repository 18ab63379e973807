import Ufora.Lib.Loop
import Ufora.PageLayout.MachinePageAllocation
import Ufora.PageLayout.PageMachineMap

/-!
# Rebalancing the pages of the working set

`rebalanceWorkingSetPages` of `cumulus/PageLayoutCalculator/TaskAllocator.hppml`: pages that are new in the working set
are given to machines, then pages are moved away from the most loaded machine as long as it is loaded too much, and
then towards the least loaded one as long as it is loaded too little.

Fractions are exact rational numbers. Beside the code's state, each page that is moved is recorded, with the tables
before. Where there is no machine, and the code would read an empty map, nothing is done: it returns before that.
-/

open Ordered

namespace Cumulus.PageLayoutCalculator

open Fora (PageId)

/-- `Smallest`: the value with the smallest weight that it has observed, the first one of these. -/
abbrev Smallest (T : Type*) := Option (T × ℚ)

/-- `observe(value, weight)`. -/
def Smallest.observe {T : Type*} (s : Smallest T) (value : T) (weight : ℚ) : Smallest T :=
  match s with
  | none => some (value, weight)
  | some smallest => if weight < smallest.2 then some (value, weight) else s

/-- A page that is moved to a machine, and the tables before. -/
structure Move where
  before : PageMachineMap
  page : PageId
  machine : MachineId

/-- The working set pages, and the moves that led there. -/
structure Rebalancing where
  mWorkingSetPages : PageMachineMap
  moves : List Move := []

namespace Rebalancing

/-- `mWorkingSetPages.dropPage(page)` and `mWorkingSetPages.add(machine, page)`. -/
def move (s : Rebalancing) (page : PageId) (machine : MachineId) : Rebalancing where
  mWorkingSetPages := s.mWorkingSetPages.move page machine
  moves := s.moves ++ [⟨s.mWorkingSetPages, page, machine⟩]

variable (s : Rebalancing)

/-- `wspRatio(m)`. -/
def wspRatio (m : MachineId) : ℚ := s.mWorkingSetPages.bytecountRatioFor m

/-- `mostLoadedMachine()`. -/
def mostLoadedMachine : Option MachineId := do
  let highest ← s.mWorkingSetPages.mBytecountRatios.highestValue
  (ascending (s.mWorkingSetPages.mBytecountRatios.getKeys highest)).head?

/-- `leastLoadedMachine()`. -/
def leastLoadedMachine : Option MachineId := do
  let lowest ← s.mWorkingSetPages.mBytecountRatios.lowestValue
  (ascending (s.mWorkingSetPages.mBytecountRatios.getKeys lowest)).head?

/-- The pages of a machine, in the order in which they are visited. -/
def pagesOf (machine : MachineId) : List PageId := ascending (s.mWorkingSetPages.mPages.getValues machine)

variable (targetPages : TwoWaySetMap MachineId PageId) (mTotalRAM : ℤ)

/-- The least loaded one of the machines that are to have the page, with its load. -/
def bestTarget (s : Rebalancing) (p : PageId) : Smallest MachineId :=
  (ascending (targetPages.getKeys p)).foldl (fun best targetM => best.observe targetM (s.wspRatio targetM)) none

/-- The loop of `reallocateWorkingSetPagesAway` where pages may move to machines that are not to have them. Every turn
takes a page from the machine, so that it has as many turns as the machine has pages at most. -/
def moveToLeastLoaded (machine : MachineId) (targetFraction : ℚ) : ℕ → Rebalancing → Rebalancing
  | 0, s => s
  | turns + 1, s =>
    match (s.pagesOf machine).head?, s.leastLoadedMachine with
    | some p, some leastLoaded =>
      if s.wspRatio machine > targetFraction ∧ leastLoaded ≠ machine then
        moveToLeastLoaded machine targetFraction turns (s.move p leastLoaded)
      else s
    | _, _ => s

/-- The table `fractions`: the load of the best target of each page of the machine, with that target. -/
def fractions (s : Rebalancing) (machine : MachineId) : MapWithIndex PageId (ℚ ×ₗ MachineId) :=
  (s.pagesOf machine).foldl (fun fractions p =>
    match s.bestTarget targetPages p with
    | some (targetM, weight) => fractions.set p (toLex (weight, targetM))
    | none => fractions) ∅

/-- A turn of the inner loop of `reallocateWorkingSetPagesAway`: a page moves to its best target if that is not loaded
too much itself. -/
def moveToTarget (idealWsRatio : ℚ) (s : Rebalancing) (p : PageId) : Rebalancing :=
  match s.bestTarget targetPages p with
  | some (targetM, weight) => if weight < idealWsRatio then s.move p targetM else s
  | none => s

/-- The outer loop of `reallocateWorkingSetPagesAway` where pages move only to machines that are to have them. -/
def moveToTargets (machine : MachineId) (targetFraction idealWsRatio : ℚ)
    (fractions : MapWithIndex PageId (ℚ ×ₗ MachineId)) : List (ℚ ×ₗ MachineId) → Rebalancing → Rebalancing
  | [], s => s
  | fracMachine :: rest, s =>
    if s.wspRatio machine > targetFraction then
      moveToTargets machine targetFraction idealWsRatio fractions rest
        ((ascending (fractions.getKeys fracMachine)).foldl (moveToTarget targetPages idealWsRatio) s)
    else s

/-- `mWorkingSetPages.totalBytecount() / double(mTotalRAM)`. -/
def idealFraction (s : Rebalancing) : ℚ := s.mWorkingSetPages.mTotalBytecount / mTotalRAM

/-- `reallocateWorkingSetPagesAway(machine, targetFraction, allowMove)`. -/
def reallocateWorkingSetPagesAway (machine : MachineId) (targetFraction : ℚ) (allowMove : Bool) (s : Rebalancing) :
    Rebalancing :=
  if s.wspRatio machine < targetFraction then s
  else if allowMove then s.moveToLeastLoaded machine targetFraction (s.pagesOf machine).length
  else
    let idealWsRatio := s.idealFraction mTotalRAM + 1 / 20
    let fractions := s.fractions targetPages machine
    s.moveToTargets targetPages machine targetFraction idealWsRatio fractions (ascending fractions.mValueToKeys.keys)

/-- `reallocateOneWorkingSetPageTowards(machine, targetFraction)`. -/
def reallocateOneWorkingSetPageTowards (machine : MachineId) (targetFraction : ℚ) (s : Rebalancing) : Rebalancing :=
  match s.mostLoadedMachine with
  | none => s
  | some mostLoaded =>
    if s.wspRatio machine > targetFraction ∨ machine = mostLoaded then s
    else
      match (s.pagesOf mostLoaded).head? with
      | some p => if s.wspRatio machine < targetFraction ∧ mostLoaded ≠ machine then s.move p machine else s
      | none => s

/-! ## The two loops -/

variable (idealWSFraction : ℚ)

/-- The test of the first loop. -/
def TooMuch (s : Rebalancing) : Prop := ∃ m ∈ s.mostLoadedMachine, s.wspRatio m > idealWSFraction + 1 / 10

instance : DecidablePred (TooMuch idealWSFraction) := fun _ =>
  inferInstanceAs (Decidable (∃ m ∈ _, _))

/-- The body of the first loop. -/
def moveAway (s : Rebalancing) : Rebalancing :=
  match s.mostLoadedMachine with
  | none => s
  | some machine =>
    let s := s.reallocateWorkingSetPagesAway targetPages mTotalRAM machine (idealWSFraction + 1 / 20) false
    match s.mostLoadedMachine with
    | none => s
    | some machine => s.reallocateWorkingSetPagesAway targetPages mTotalRAM machine (idealWSFraction + 1 / 20) true

/-- The test of the second loop. -/
def TooLittle (s : Rebalancing) : Prop := ∃ m ∈ s.leastLoadedMachine, s.wspRatio m < idealWSFraction / 3

instance : DecidablePred (TooLittle idealWSFraction) := fun _ =>
  inferInstanceAs (Decidable (∃ m ∈ _, _))

/-- The body of the second loop. -/
def moveTowards (s : Rebalancing) : Rebalancing :=
  match s.leastLoadedMachine with
  | none => s
  | some machine => s.reallocateOneWorkingSetPageTowards machine (idealWSFraction - 1 / 20)

/-- The first loop. -/
def firstLoop (limit : ℕ) (s : Rebalancing) : Option Rebalancing :=
  Loop.whileLoop (TooMuch idealWSFraction) (moveAway targetPages mTotalRAM idealWSFraction) limit s

/-- The second loop, which is made only where the ideal fraction is not small. -/
def secondLoop (limit : ℕ) (s : Rebalancing) : Option Rebalancing :=
  if idealWSFraction > 1 / 10 then Loop.whileLoop (TooLittle idealWSFraction) (moveTowards idealWSFraction) limit s
  else some s

end Rebalancing

namespace TaskAllocator

/-- The tables of a `TaskAllocator` that are about the pages of the working set. -/
structure WorkingSet where
  mMachineSizes : StdMap MachineId ℤ := ∅
  mTotalRAM : ℤ := 0
  mWorkingSet : Finset PageId := ∅
  mWorkingSetPendingAdd : Finset PageId := ∅
  mWorkingSetPages : PageMachineMap := {}
  mPageAllocation : MachinePageAllocation := {}
  mDropped : Finset PageId := ∅

namespace WorkingSet

variable (s : WorkingSet)

/-- `setMachineStats(machine, bytesAvailable, ..)`. -/
def setMachineStats (machine : MachineId) (bytesAvailable : ℤ) : WorkingSet := { s with
    mTotalRAM := s.mTotalRAM + (bytesAvailable - s.mMachineSizes.get machine)
    mMachineSizes := s.mMachineSizes.insert machine bytesAvailable
    mWorkingSetPages := s.mWorkingSetPages.setMemory machine bytesAvailable }

/-- `addToWorkingSet(page)`. -/
def addToWorkingSet (page : PageId) : Option WorkingSet := do
  guard (page ∉ s.mDropped)
  return if page ∈ s.mWorkingSet then s else
    { s with
      mWorkingSet := insert page s.mWorkingSet
      mWorkingSetPendingAdd := insert page s.mWorkingSetPendingAdd }

/-- `dropFromWorkingSet(page)`. -/
def dropFromWorkingSet (page : PageId) : WorkingSet := { s with
    mWorkingSetPendingAdd := s.mWorkingSetPendingAdd.erase page
    mWorkingSet := s.mWorkingSet.erase page
    mWorkingSetPages := s.mWorkingSetPages.dropPage page }

/-- `pageAdded(machine, page)`. -/
def pageAdded (s : WorkingSet) (machine : MachineId) (page : PageId) : Option WorkingSet := do
  guard (page ∉ s.mDropped)
  return { s with mPageAllocation := s.mPageAllocation.pageAdded machine page }

/-- `pageDroppedAcrossEntireSystem(page)`. -/
def pageDroppedAcrossEntireSystem (s : WorkingSet) (page : PageId) : WorkingSet := { s with
    mPageAllocation := s.mPageAllocation.pageDroppedAcrossEntireSystem page
    mWorkingSet := s.mWorkingSet.erase page
    mWorkingSetPages := s.mWorkingSetPages.dropPage page
    mDropped := insert page s.mDropped }

/-- A turn of the loop of `rebalanceWorkingSetPages` over the pages that are new. -/
def addPending (targetPages : TwoWaySetMap MachineId PageId) (s : PageMachineMap) (page : PageId) : PageMachineMap :=
  match (Rebalancing.mk s []).bestTarget targetPages page, (Rebalancing.mk s []).leastLoadedMachine with
  | some (best, _), _ => s.add best page
  | none, some leastLoaded => s.add leastLoaded page
  | none, none => s

/-- What the two loops start from. -/
def placed : Rebalancing where
  mWorkingSetPages :=
    (ascending s.mWorkingSetPendingAdd).foldl (addPending s.mPageAllocation.mTargetPages) s.mWorkingSetPages

/-- `idealWSFraction`. -/
def idealWSFraction : ℚ := s.placed.idealFraction s.mTotalRAM

/-- `rebalanceWorkingSetPages()`, where each of the two loops makes so many rounds at most. -/
def rebalanceWorkingSetPages (limit : ℕ) (s : WorkingSet) : Option WorkingSet :=
  if s.mTotalRAM = 0 then some s
  else do
    let r ← s.placed.firstLoop s.mPageAllocation.mTargetPages s.mTotalRAM s.idealWSFraction limit
    let r ← r.secondLoop s.idealWSFraction limit
    return { s with mWorkingSetPages := r.mWorkingSetPages, mWorkingSetPendingAdd := ∅ }

end WorkingSet

end TaskAllocator

end Cumulus.PageLayoutCalculator
