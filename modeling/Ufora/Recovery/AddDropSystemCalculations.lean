import Ufora.Containers.MapWithIndex
import Ufora.Lib.Worklist
import Ufora.PersistentCache.PersistentCacheKey

/-!
# `AddDropSystemCalculations`

`cumulus/AddDropSystemCalculations.cppml`: what can be kept when a machine was added or lost. From the state
of the whole system, the worker that leads computes what misses dependencies, which computations are valid,
which of them are kept and which are loaded from checkpoints, and which vectors and pages these reach.

The loops go round at most `limit` times and `chooseKeptComputationsBelow` goes at most `limit` levels down:
`none` says that the limit was reached.
-/

open Ordered UInt64 Worklist

namespace Cumulus

open Fora (PageId MemoryUsage)

/-- An `AddDropSystemState`. Of `prioritizedRoots`, `bigvecLayouts` and `computationStates` the keys are
kept, which is what the calculations read. -/
structure AddDropSystemState where
  memoryUsage : StdMap MachineId MemoryUsage := ∅
  prioritizedRoots : Finset ComputationId := ∅
  computationDependencies : TwoWaySetMap ComputationId ComputationId := ∅
  bigvecLayouts : Finset Hash := ∅
  syntheticPages : MapWithIndex PageId Hash := ∅
  bigvecToPages : TwoWaySetMap Hash PageId := ∅
  machinePageContents : TwoWaySetMap MachineId PageId := ∅
  pageBigvecReferences : TwoWaySetMap PageId Hash := ∅
  computationBigvecReferences : TwoWaySetMap ComputationId Hash := ∅
  computationOnMachine : MapWithIndex ComputationId MachineId := ∅
  computationStates : Finset ComputationId := ∅

/-- A `CheckpointedComputationStatus`: the references and the children are in tables of their own. -/
structure CheckpointedComputationStatus where
  bytecount : UInt64

/-- An `AddDropPersistedState`. -/
structure AddDropPersistedState where
  persistedComputationBigvecReferences : TwoWaySetMap ComputationId Hash := ∅
  bigvecsHeldInPersistentCache : Finset Hash := ∅
  bigvecsToPages : TwoWaySetMap Hash PageId := ∅
  pagesToBigvecs : TwoWaySetMap PageId Hash := ∅
  persistedComputationDependencies : TwoWaySetMap ComputationId ComputationId := ∅
  persistedComputationCheckpointStatus : StdMap ComputationId CheckpointedComputationStatus := ∅
  persistedComputationCheckpointAndFile : StdMap ComputationId (CheckpointRequest ×ₗ Hash) := ∅

/-- An `AddDropPageAndBigvecGraph`. -/
structure AddDropPageAndBigvecGraph where
  pageToBigvec : TwoWaySetMap PageId Hash := ∅
  bigvecToPage : TwoWaySetMap Hash PageId := ∅
  syntheticPages : MapWithIndex PageId Hash := ∅

/-- An `AddDropSystemCalculations`. -/
structure AddDropSystemCalculations where
  allComputations : Finset ComputationId := ∅
  allBigvecs : Finset Hash := ∅
  allPages : Finset PageId := ∅
  rootComputations : Finset ComputationId := ∅
  computationsMissingDependencies : Finset ComputationId := ∅
  rootComputationsMissingDependencies : Finset ComputationId := ∅
  pagesMissingDependencies : Finset PageId := ∅
  bigvecsMissingDependencies : Finset Hash := ∅
  bigvecsRecoverable : Finset Hash := ∅
  computationsValid : Finset ComputationId := ∅
  computationsKept : Finset ComputationId := ∅
  persistedComputationsLoaded : Finset ComputationId := ∅
  bigvecsReachable : Finset Hash := ∅
  pagesReachable : Finset PageId := ∅
  persistedComputationsToLoad : MapWithIndex ComputationId MachineId := ∅
  requiredCompleteWipeDueToLackOfSpace : Bool := false
  pageAndBigvecGraph : AddDropPageAndBigvecGraph := {}

namespace AddDropSystemCalculations

/-! ## The objects of the system -/

variable (state : AddDropSystemState) (s : AddDropSystemCalculations)

/-- `computeRoots(state)`. -/
def computeRoots : AddDropSystemCalculations :=
  let dependencies := state.computationDependencies.mKeysToValues
  let references := state.computationBigvecReferences.mKeysToValues
  let bigvecPages := state.bigvecToPages.mKeysToValues
  let synthetic := state.syntheticPages.mKeyToValue
  let pageBigvecs := state.pageBigvecReferences.mKeysToValues
  let allComputations := s.allComputations ∪ state.prioritizedRoots ∪ dependencies.keys ∪
    dependencies.keys.biUnion dependencies.get ∪ references.keys ∪ state.computationOnMachine.mKeyToValue.keys ∪
    state.computationStates
  { s with
    allComputations
    allBigvecs := s.allBigvecs ∪ references.keys.biUnion references.get ∪ state.bigvecLayouts ∪
      bigvecPages.keys ∪ synthetic.keys.biUnion (fun page => (synthetic.lookup page).toFinset) ∪
      pageBigvecs.keys.biUnion pageBigvecs.get
    allPages := s.allPages ∪ bigvecPages.keys.biUnion bigvecPages.get ∪ synthetic.keys ∪ pageBigvecs.keys ∪
      state.machinePageContents.mValuesToKeys.keys
    rootComputations := s.rootComputations ∪ allComputations.image ComputationId.rootComputation }

/-- What the loops look at. -/
inductive Object where
  | page (page : PageId)
  | computation (computation : ComputationId)
  | bigvec (bigvec : Hash)
  deriving DecidableEq

/-- The calculations, and the objects that a loop has still to look at. -/
structure Loop where
  calculations : AddDropSystemCalculations
  dirtyPages : Finset PageId := ∅
  dirtyComputations : Finset ComputationId := ∅
  dirtyBigvecs : Finset Hash := ∅

namespace Loop

/-- The object that `popFront` takes: the first page, else the first computation, else the first vector. -/
def front (l : Loop) : Option Object :=
  match (ascending l.dirtyPages).head?, (ascending l.dirtyComputations).head?, (ascending l.dirtyBigvecs).head? with
  | some page, _, _ => some (.page page)
  | none, some computation, _ => some (.computation computation)
  | none, none, some bigvec => some (.bigvec bigvec)
  | none, none, none => none

/-- What `popFront` leaves. -/
def pop (l : Loop) : Object → Loop
  | .page page => { l with dirtyPages := l.dirtyPages.erase page }
  | .computation computation => { l with dirtyComputations := l.dirtyComputations.erase computation }
  | .bigvec bigvec => { l with dirtyBigvecs := l.dirtyBigvecs.erase bigvec }

end Loop

/-! ## What misses dependencies -/

/-- Whether `checkPage` finds a page to be missing. -/
def pageIsMissing (bigvecMissing : Hash → Prop) (page : PageId) : Prop :=
  ¬ state.syntheticPages.hasKey page ∧ ¬ state.machinePageContents.hasValue page ∨
  (∃ bigvec ∈ (state.syntheticPages.tryGetValue page).toFinset, bigvecMissing bigvec) ∨
  ∃ bigvec ∈ state.pageBigvecReferences.getValues page, bigvecMissing bigvec

/-- Whether `checkBigvec` finds a vector to be missing. -/
def bigvecIsMissing (pageMissing : PageId → Prop) (bigvec : Hash) : Prop :=
  bigvec ∉ state.bigvecLayouts ∨ ∃ page ∈ state.bigvecToPages.getValues bigvec, pageMissing page

/-- Whether `checkComputation` finds a computation to be missing. -/
def computationIsMissing (bigvecMissing : Hash → Prop)
    (computationMissing : ComputationId → Prop) (compId : ComputationId) : Prop :=
  ¬ state.computationOnMachine.hasKey compId ∨
  (∃ dep ∈ state.computationDependencies.getValues compId, ¬ dep.isRoot ∧ computationMissing dep) ∨
  ∃ bigvec ∈ state.computationBigvecReferences.getValues compId, bigvecMissing bigvec

section
variable (bigvecMissing : Hash → Prop) [DecidablePred bigvecMissing]
  (pageMissing : PageId → Prop) [DecidablePred pageMissing]
  (computationMissing : ComputationId → Prop) [DecidablePred computationMissing]

instance (page : PageId) : Decidable (pageIsMissing state bigvecMissing page) :=
  inferInstanceAs (Decidable (_ ∧ _ ∨ _ ∨ _))

instance (bigvec : Hash) : Decidable (bigvecIsMissing state pageMissing bigvec) := inferInstanceAs (Decidable (_ ∨ _))

instance (compId : ComputationId) : Decidable (computationIsMissing state bigvecMissing computationMissing compId) :=
  inferInstanceAs (Decidable (_ ∨ _ ∨ _))

end

/-- The `checkPage`, `checkComputation` and `checkBigvec` of `computeMissingDependencies`. -/
def checkMissing : Object → Loop → Loop
  | .page page, l =>
    if page ∈ l.calculations.pagesMissingDependencies then l
    else if pageIsMissing state (· ∈ l.calculations.bigvecsMissingDependencies) page then
      { l with
        calculations := { l.calculations with
            pagesMissingDependencies := insert page l.calculations.pagesMissingDependencies }
        dirtyBigvecs := l.dirtyBigvecs ∪ state.bigvecToPages.getKeys page }
    else l
  | .computation compId, l =>
    if compId ∈ l.calculations.computationsMissingDependencies then l
    else if computationIsMissing state (· ∈ l.calculations.bigvecsMissingDependencies)
        (· ∈ l.calculations.computationsMissingDependencies) compId then
      { l with
        calculations := { l.calculations with
            computationsMissingDependencies := insert compId l.calculations.computationsMissingDependencies }
        dirtyComputations := l.dirtyComputations ∪ state.computationDependencies.getKeys compId }
    else l
  | .bigvec bigvec, l =>
    if bigvec ∈ l.calculations.bigvecsMissingDependencies then l
    else if bigvecIsMissing state (· ∈ l.calculations.pagesMissingDependencies) bigvec then
      { l with
        calculations := { l.calculations with
            bigvecsMissingDependencies := insert bigvec l.calculations.bigvecsMissingDependencies }
        dirtyPages := l.dirtyPages ∪ state.syntheticPages.getKeys bigvec ∪ state.pageBigvecReferences.getKeys bigvec
        dirtyComputations := l.dirtyComputations ∪ state.computationBigvecReferences.getKeys bigvec }
    else l

variable (limit : ℕ)

/-- `computeMissingDependencies(state)`. -/
def computeMissingDependencies (state : AddDropSystemState) (s : AddDropSystemCalculations) :
    Option AddDropSystemCalculations := do
  let s := s.computeRoots state
  let l ← drain Loop.front (fun object l => checkMissing state object (l.pop object)) limit
    { calculations := s
      dirtyPages := s.allPages
      dirtyComputations := s.allComputations
      dirtyBigvecs := s.allBigvecs }
  return { l.calculations with
    rootComputationsMissingDependencies := l.calculations.rootComputationsMissingDependencies ∪
      l.calculations.computationsMissingDependencies.filter fun c => c.isRoot }

/-! ## What is valid -/

/-- Whether `checkComputation` finds a computation to be valid. -/
def computationIsValid (bigvecLost : Hash → Prop) (valid : ComputationId → Prop) (compId : ComputationId) : Prop :=
  state.computationOnMachine.hasKey compId ∧
  (∀ child ∈ state.computationDependencies.getValues compId, ¬ child.isRoot → valid child) ∧
  ∀ bigvec ∈ state.computationBigvecReferences.getValues compId, ¬ bigvecLost bigvec

instance (bigvecLost : Hash → Prop) [DecidablePred bigvecLost]
    (valid : ComputationId → Prop) [DecidablePred valid] (compId : ComputationId) :
    Decidable (computationIsValid state bigvecLost valid compId) :=
  inferInstanceAs (Decidable (_ ∧ _ ∧ _))

/-- The `checkComputation` of `computeValidComputations`, whose loop comes to no other objects. -/
def checkValid : Object → Loop → Loop
  | .computation compId, l =>
    if compId ∈ l.calculations.computationsValid then l
    else if computationIsValid state
        (fun b => b ∈ l.calculations.bigvecsMissingDependencies ∧ b ∉ l.calculations.bigvecsRecoverable)
        (· ∈ l.calculations.computationsValid) compId then
      { l with
        calculations := { l.calculations with computationsValid := insert compId l.calculations.computationsValid }
        dirtyComputations := l.dirtyComputations ∪ state.computationDependencies.getKeys compId }
    else l
  | _, l => l

/-- `computeValidComputations(state)`. -/
def computeValidComputations (state : AddDropSystemState) (s : AddDropSystemCalculations) :
    Option AddDropSystemCalculations := do
  let l ← drain Loop.front (fun object l => checkValid state object (l.pop object)) limit
    { calculations := s, dirtyComputations := s.allComputations }
  return l.calculations

/-! ## What is kept and what is loaded -/

variable (stored : AddDropPersistedState)

/-- `computePageBigvecGraph(state, persistedState)`. -/
def computePageBigvecGraph (s : AddDropSystemCalculations) : AddDropSystemCalculations :=
  let bigvecPages := stored.bigvecsToPages.mKeysToValues
  let pageBigvecs := stored.pagesToBigvecs.mKeysToValues
  { s with
    pageAndBigvecGraph :=
      { pageToBigvec := (ascending pageBigvecs.keys).foldl (fun m page => m.update page (pageBigvecs.get page))
            state.pageBigvecReferences
        bigvecToPage := (ascending bigvecPages.keys).foldl (fun m bigvec => m.update bigvec (bigvecPages.get bigvec))
            state.bigvecToPages
        syntheticPages := (ascending stored.bigvecsToPages.mValuesToKeys.keys).foldl MapWithIndex.discard
            state.syntheticPages }
    allBigvecs := s.allBigvecs ∪ bigvecPages.keys ∪ pageBigvecs.keys.biUnion pageBigvecs.get
    allPages := s.allPages ∪ bigvecPages.keys.biUnion bigvecPages.get ∪ pageBigvecs.keys }

/-- `chooseKeptComputationsBelow(computation, state, persistedState)`. -/
def chooseKeptComputationsBelow (state : AddDropSystemState) (stored : AddDropPersistedState) :
    ℕ → AddDropSystemCalculations → ComputationId → Option AddDropSystemCalculations
  | 0, _, _ => none
  | limit + 1, s, computation =>
    if computation ∈ s.computationsValid then
      (ascending (state.computationDependencies.getValues computation)).foldlM
        (chooseKeptComputationsBelow state stored limit)
        { s with computationsKept := insert computation s.computationsKept }
    else if computation ∈ stored.persistedComputationCheckpointStatus then
      (ascending (stored.persistedComputationDependencies.getValues computation)).foldlM
        (chooseKeptComputationsBelow state stored limit)
        { s with persistedComputationsLoaded := insert computation s.persistedComputationsLoaded }
    else some s

/-! ## What is reachable -/

/-- Whether `checkPage` finds a page to be reachable. -/
def pageIsReachable (graph : AddDropPageAndBigvecGraph) (bigvecReachable : Hash → Prop) (page : PageId) : Prop :=
  ∃ bigvec ∈ graph.bigvecToPage.getKeys page, bigvecReachable bigvec

/-- Whether `checkBigvec` finds that a computation needs a vector. -/
def bigvecIsReferenced (s : AddDropSystemCalculations) (bigvec : Hash) : Prop :=
  (∃ computation ∈ state.computationBigvecReferences.getKeys bigvec, computation ∈ s.computationsKept) ∨
  ∃ computation ∈ stored.persistedComputationBigvecReferences.getKeys bigvec,
    computation ∈ s.persistedComputationsLoaded
deriving Decidable

/-- Whether `checkBigvec` finds that a reachable page needs a vector. -/
def bigvecIsOnPage (graph : AddDropPageAndBigvecGraph) (pageReachable : PageId → Prop) (bigvec : Hash) : Prop :=
  (∃ page ∈ graph.syntheticPages.getKeys bigvec, pageReachable page) ∨
  ∃ page ∈ graph.pageToBigvec.getKeys bigvec, pageReachable page

section
variable (graph : AddDropPageAndBigvecGraph) (stored : AddDropPersistedState)
  (bigvecReachable : Hash → Prop) [DecidablePred bigvecReachable]
  (pageReachable : PageId → Prop) [DecidablePred pageReachable]

instance (page : PageId) : Decidable (pageIsReachable graph bigvecReachable page) :=
  inferInstanceAs (Decidable (∃ _ ∈ _, _))

instance (bigvec : Hash) : Decidable (bigvecIsOnPage graph pageReachable bigvec) := inferInstanceAs (Decidable (_ ∨ _))

end

/-- The `checkPage` and `checkBigvec` of `computeReachableBigvecsAndPages`, whose loop comes to no
computations. -/
def checkReachable : Object → Loop → Loop
  | .page page, l =>
    if page ∈ l.calculations.pagesReachable then l
    else if pageIsReachable l.calculations.pageAndBigvecGraph (· ∈ l.calculations.bigvecsReachable) page then
      { l with
        calculations := { l.calculations with pagesReachable := insert page l.calculations.pagesReachable }
        dirtyBigvecs := l.dirtyBigvecs ∪ l.calculations.pageAndBigvecGraph.pageToBigvec.getValues page ∪
          (l.calculations.pageAndBigvecGraph.syntheticPages.tryGetValue page).toFinset }
    else l
  | .bigvec bigvec, l =>
    if bigvec ∈ l.calculations.bigvecsReachable then l
    else if bigvecIsReferenced state stored l.calculations bigvec ∨
        bigvecIsOnPage l.calculations.pageAndBigvecGraph (· ∈ l.calculations.pagesReachable) bigvec then
      { l with
        calculations := { l.calculations with bigvecsReachable := insert bigvec l.calculations.bigvecsReachable }
        dirtyPages := l.dirtyPages ∪ l.calculations.pageAndBigvecGraph.bigvecToPage.getValues bigvec }
    else l
  | .computation _, l => l

/-- `computeReachableBigvecsAndPages(state, persistedState)`. -/
def computeReachableBigvecsAndPages (state : AddDropSystemState)
    (stored : AddDropPersistedState) (s : AddDropSystemCalculations) :
    Option AddDropSystemCalculations := do
  let l ← drain Loop.front (fun object l => checkReachable state stored object (l.pop object))
    limit { calculations := s, dirtyPages := s.allPages, dirtyBigvecs := s.allBigvecs }
  return l.calculations

/-! ## The machines that load -/

/-- A `uint64_t` as a `double`: rounded to 53 bits, half to even. -/
def toDouble (n : UInt64) : ℕ :=
  let unit := 2 ^ (n.toNat.log2 - 52)
  let quotient := n.toNat / unit
  let rest := n.toNat % unit
  if 2 * rest < unit ∨ 2 * rest = unit ∧ quotient % 2 = 0 then quotient * unit else (quotient + 1) * unit

/-- The bytes that a machine has for computations, as the code subtracts them. -/
def bytesFor (usage : MemoryUsage) : UInt64 :=
  let pageletsOnlyInExecutionContexts :=
    if usage.bytesUsedByPageletsInVectors < usage.bytesUsedByAllPagelets then
      ofNat usage.bytesUsedByAllPagelets - ofNat usage.bytesUsedByPageletsInVectors
    else 0
  max 0 (ofNat usage.maxMemoryAvailable - ofNat usage.bytesUsedByContextsExcludingPagelets -
    pageletsOnlyInExecutionContexts)

/-- The assertions of `allocatedPersistedComputationsToMachines`. -/
inductive AllocationError where
  | noCheckpointStatus
  | noCheckpointFile

/-- `best`, after `Smallest` has observed the machines on which so many bytes fit. -/
def bestMachine (memoryUsage : StdMap MachineId MemoryUsage) (bytesLoading : StdMap MachineId UInt64)
    (bytes : UInt64) : Option MachineId :=
  let remaining (machine : MachineId) : UInt64 := (memoryUsage.lookup machine).elim 0 bytesFor
  let loading (machine : MachineId) : UInt64 := (bytesLoading.lookup machine).getD 0
  (ascending memoryUsage.keys).foldl (fun best machine =>
    if loading machine + bytes < remaining machine then
      match best with
      | none => some machine
      | some b => if toDouble (loading machine) < toDouble (loading b) then some machine else some b
    else best) none

variable (stored : AddDropPersistedState)

/-- The file of a computation that is loaded. -/
def fileOf (computation : ComputationId) : Except AllocationError (CheckpointRequest ×ₗ Hash) :=
  match stored.persistedComputationCheckpointAndFile.lookup computation with
  | some file => .ok file
  | none => .error .noCheckpointFile

/-- The bytes of a computation that is loaded. -/
def bytesOf (computation : ComputationId) : Except AllocationError UInt64 :=
  match stored.persistedComputationCheckpointStatus.lookup computation with
  | some status => .ok status.bytecount
  | none => .error .noCheckpointStatus

/-- `allocateComputationToMachine(computations)`, with the bytes that each machine loads already: `none` where
they fit nowhere. -/
def allocateComputationToMachine (computations : Finset ComputationId) (s : AddDropSystemCalculations)
    (bytesLoading : StdMap MachineId UInt64) :
    Except AllocationError (Option (AddDropSystemCalculations × StdMap MachineId UInt64)) := do
  let bytes ← (ascending computations).foldlM (fun bytes computation => do
    return bytes + (← bytesOf stored computation)) 0
  match bestMachine state.memoryUsage bytesLoading bytes with
  | none => return none
  | some machine =>
    return some ({ s with
      persistedComputationsToLoad := (ascending computations).foldl (fun m computation => m.set computation machine)
        s.persistedComputationsToLoad },
      bytesLoading.insert machine ((bytesLoading.lookup machine).getD 0 + bytes))

/-- The computations to load of each file, one file after the other: `none` once those of one fit nowhere. -/
def allocateFiles
    (byFile : StdMap (CheckpointRequest ×ₗ Hash) (Finset ComputationId)) (s : AddDropSystemCalculations) :
    Except AllocationError (Option AddDropSystemCalculations) := do
  let allocated ← (ascending byFile.keys).foldlM (fun allocated file => do
    match allocated with
    | none => return none
    | some (s, bytesLoading) =>
      allocateComputationToMachine state stored (byFile.get file) s bytesLoading)
    (some (s, ∅))
  return allocated.map Prod.fst

/-- The calculations after a complete wipe. -/
def wiped : AddDropSystemCalculations := { s with
    computationsValid := ∅
    computationsKept := ∅
    persistedComputationsToLoad := ∅
    bigvecsReachable := ∅
    pagesReachable := ∅
    persistedComputationsLoaded := ∅
    requiredCompleteWipeDueToLackOfSpace := true }

/-- `persistedCompsToLoadByFile`, from the computations to load. -/
def persistedCompsToLoadByFile (computations : List ComputationId) :
    Except AllocationError (StdMap (CheckpointRequest ×ₗ Hash) (Finset ComputationId)) :=
  computations.foldlM (fun byFile computation => do
    let file ← fileOf stored computation
    return Finmap.insert file (insert computation (StdMap.get byFile file)) byFile) ∅

/-- `allocatedPersistedComputationsToMachines(state, persistedState)`. -/
def allocatedPersistedComputationsToMachines (s : AddDropSystemCalculations) :
    Except AllocationError AddDropSystemCalculations := do
  let byFile ← persistedCompsToLoadByFile stored (ascending s.persistedComputationsLoaded)
  return (← allocateFiles state stored byFile s).getD s.wiped

/-! ## The whole calculation -/

/-- `computeRecoverableAndValidComputations(state, persistedState)`, all but its last call. -/
def computeReachability (state : AddDropSystemState) (stored : AddDropPersistedState)
    (s : AddDropSystemCalculations) : Option AddDropSystemCalculations := do
  let s := s.computePageBigvecGraph state stored
  let s := { s with bigvecsRecoverable := stored.bigvecsHeldInPersistentCache }
  let s ← s.computeValidComputations limit state
  let s ← (ascending s.rootComputations).foldlM (chooseKeptComputationsBelow state stored limit) s
  s.computeReachableBigvecsAndPages limit state stored

/-- `computeRecoverableAndValidComputations(state, persistedState)`. -/
def computeRecoverableAndValidComputations (state : AddDropSystemState)
    (stored : AddDropPersistedState) (s : AddDropSystemCalculations) :
    Option (Except AllocationError AddDropSystemCalculations) := do
  let s ← s.computeReachability limit state stored
  return s.allocatedPersistedComputationsToMachines state stored

/-- `validateComputations(state, persistedState)`: whether none of its assertions fails. -/
def validateComputations : Prop := (∀ c ∈ s.computationsValid, state.computationOnMachine.hasKey c) ∧
  (∀ c ∈ s.computationsKept, ∀ bv ∈ state.computationBigvecReferences.getValues c,
    bv ∈ s.bigvecsReachable ∧ (bv ∉ s.bigvecsMissingDependencies ∨ bv ∈ s.bigvecsRecoverable)) ∧
  (∀ c ∈ s.computationsValid, c.isRoot → c ∈ s.computationsKept) ∧
  (∀ bv ∈ s.bigvecsReachable, ∀ page ∈ s.pageAndBigvecGraph.bigvecToPage.getValues bv, page ∈ s.pagesReachable) ∧
  ∀ page ∈ s.pagesReachable, (∀ bv ∈ s.pageAndBigvecGraph.pageToBigvec.getValues page, bv ∈ s.bigvecsReachable) ∧
    ∀ bv ∈ (s.pageAndBigvecGraph.syntheticPages.tryGetValue page).toFinset, bv ∈ s.bigvecsReachable

end AddDropSystemCalculations

end Cumulus
