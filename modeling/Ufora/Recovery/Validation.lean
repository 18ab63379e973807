import Ufora.Lib.Effect
import Ufora.Recovery.Reachable

/-!
# The recovered state

The calculations as a whole, for every state and every persisted state. `recovers_iff` says when they do what
they are for: when what is chosen goes round no cycle, and every vector that a loaded computation needs occurs
in the state or among the persisted pages and vectors.
-/

open Effect Ordered Worklist Fuel Relation Finset Option TwoWaySetMap StdMap Finmap

namespace Cumulus

open Fora (PageId MemoryUsage)
open AddDropSystemCalculations

namespace AddDropSystemCalculations

variable {state : AddDropSystemState} {stored : AddDropPersistedState}
  {s s' : AddDropSystemCalculations} {a : Object} {c d : ComputationId}

/-! ## The machines that load -/

/-- The calculations with computations given to machines. -/
def withMachines (s : AddDropSystemCalculations) (machines : MapWithIndex ComputationId MachineId) :
    AddDropSystemCalculations :=
  { s with persistedComputationsToLoad := machines }

/-- What giving computations to machines leaves: the computations with their machines, or a complete wipe. -/
def Allocated (s s' : AddDropSystemCalculations) : Prop := (∃ machines, s' = s.withMachines machines) ∨ s' = s.wiped

variable {computations : Finset ComputationId}

theorem withMachines_of_allocate
    {bytesLoading bytesLoading' : StdMap MachineId UInt64}
    (h : allocateComputationToMachine state stored computations s bytesLoading =
      .ok (some (s', bytesLoading'))) : ∃ machines, s' = s.withMachines machines := by
  obtain ⟨bytes, -, h⟩ := ok_of_bind h
  split at h
  · cases h
  · cases h
    exact ⟨_, rfl⟩

variable {byFile : StdMap (CheckpointRequest ×ₗ Hash) (Finset ComputationId)}

theorem withMachines_of_allocateFiles
    (h : allocateFiles state stored byFile s = .ok (some s')) : ∃ machines, s' = s.withMachines machines := by
  obtain ⟨allocated, hfold, h⟩ := ok_of_bind h
  have hkeeps := foldlM_keeps (I := fun allocated : Option (AddDropSystemCalculations × StdMap MachineId UInt64) =>
    ∀ p ∈ allocated, ∃ machines, p.1 = s.withMachines machines) (fun allocated file next hI hround => ?_)
    (fun p hp => ?_) hfold
  · cases allocated with
    | none => cases h
    | some p =>
      cases h
      exact hkeeps p rfl
  · cases allocated with
    | none =>
      cases hround
      exact hI
    | some p =>
      rintro ⟨t, bytesLoading⟩ rfl
      obtain ⟨machines, hp⟩ := hI p rfl
      obtain ⟨machines', ht⟩ := withMachines_of_allocate hround
      exact ⟨machines', by rw [ht, hp]; rfl⟩
  · cases hp
    exact ⟨_, rfl⟩

theorem allocated (h : s.allocatedPersistedComputationsToMachines state stored = .ok s') : Allocated s s' := by
  obtain ⟨byFile, -, h⟩ := ok_of_bind h
  obtain ⟨allocated, hfiles, h⟩ := ok_of_bind h
  cases h
  cases allocated with
  | none => exact .inr rfl
  | some t => exact .inl (withMachines_of_allocateFiles hfiles)

/-- Where the files of some computations are known, these are grouped by their files. -/
theorem byFile_returns {computations : List ComputationId}
    (hfile : ∀ c ∈ computations, c ∈ stored.persistedComputationCheckpointAndFile) :
    ∃ byFile, persistedCompsToLoadByFile stored computations = .ok byFile ∧
      ∀ file, ∀ c ∈ StdMap.get byFile file, c ∈ computations := by
  refine foldlM_returns (I := fun byFile => ∀ file, ∀ c ∈ StdMap.get byFile file, c ∈ computations)
    (fun c hc byFile hI => ?_) fun file c hc => absurd hc (notMem_empty c)
  obtain ⟨file, hf⟩ := mem_keys_iff.1 (mem_keys.2 (hfile c hc))
  refine ⟨Finmap.insert file (insert c (StdMap.get byFile file)) byFile, ?_, fun file' d hd => ?_⟩
  · unfold fileOf
    rw [hf]
    rfl
  · rw [get_insert] at hd
    split at hd
    · rcases mem_insert.1 hd with rfl | hd
      · exact hc
      · exact hI file d hd
    · exact hI file' d hd

/-- Where the checkpoint status of some computations is known, a machine is sought for them. -/
theorem allocate_returns (state : AddDropSystemState) (bytesLoading : StdMap MachineId UInt64)
    (hstatus : ∀ c ∈ computations, c ∈ stored.persistedComputationCheckpointStatus) :
    ∃ r, allocateComputationToMachine state stored computations s bytesLoading = .ok r := by
  refine bind_returns ((foldlM_returns (I := fun _ => True) (fun c hc bytes _ => ?_) trivial).imp fun _ => And.left)
    fun bytes => ?_
  · obtain ⟨status, hst⟩ := mem_keys_iff.1 (mem_keys.2 (hstatus c (mem_ascending.1 hc)))
    refine ⟨bytes + status.bytecount, ?_, trivial⟩
    unfold bytesOf
    rw [hst]
    rfl
  · split
    · exact ⟨_, rfl⟩
    · exact ⟨_, rfl⟩

theorem allocateFiles_returns
    (hstatus : ∀ file, ∀ c ∈ byFile.get file, c ∈ stored.persistedComputationCheckpointStatus) :
    ∃ r, allocateFiles state stored byFile s = .ok r := by
  refine bind_returns ((foldlM_returns (I := fun _ => True) (fun file _ allocated _ => ?_) trivial).imp
    fun _ => And.left) fun allocated => ⟨_, rfl⟩
  cases allocated with
  | none => exact ⟨none, rfl, trivial⟩
  | some p =>
    obtain ⟨r, hr⟩ := allocate_returns (s := p.1) state p.2 (hstatus file)
    exact ⟨r, hr, trivial⟩

/-- Where the checkpoint status and the file of every loaded computation are known, machines are sought for
all of them. -/
theorem allocated_returns (state : AddDropSystemState)
    (hstatus : ∀ c ∈ s.persistedComputationsLoaded, c ∈ stored.persistedComputationCheckpointStatus)
    (hfile : ∀ c ∈ s.persistedComputationsLoaded, c ∈ stored.persistedComputationCheckpointAndFile) :
    ∃ s', s.allocatedPersistedComputationsToMachines state stored = .ok s' := by
  obtain ⟨byFile, hbyFile, hmem⟩ := byFile_returns fun c hc =>
    hfile c (mem_ascending.1 hc)
  unfold allocatedPersistedComputationsToMachines
  rw [hbyFile]
  show ∃ s', (do return (← allocateFiles state stored byFile s).getD s.wiped) = Except.ok s'
  exact bind_returns (allocateFiles_returns fun file c hc => hstatus c (mem_ascending.1 (hmem file c hc)))
    fun allocated => ⟨_, rfl⟩

end AddDropSystemCalculations

/-! ## What the calculations are for -/

namespace AddDropSystemState

variable (state : AddDropSystemState)

/-- The vectors that are in every set closed under the rules. -/
def MissingBigvec (b : Hash) : Prop := ∀ m, state.ClosedUnderMissing m → .bigvec b ∈ m

variable (stored : AddDropPersistedState)

/-- The vectors that miss dependencies and are not in the persistent cache. -/
def Lost (b : Hash) : Prop := state.MissingBigvec b ∧ b ∉ stored.bigvecsHeldInPersistentCache

/-- The valid computations. -/
def IsValid : ComputationId → Prop := state.Valid (state.Lost stored)

/-- The computations that come below the root of a known computation. -/
def Chosen (c : ComputationId) : Prop := ∃ k, state.Knows (.computation k) ∧
    ReflTransGen (state.Below stored (state.IsValid stored)) k.rootComputation c

/-- What recovery asks of the state: no computation chosen is below itself, and every vector that a chosen
computation loaded from its checkpoint needs is a vector that occurs in the state or in the persisted graph. -/
structure Recoverable (state : AddDropSystemState) (stored : AddDropPersistedState) : Prop where
  acyclic : ∀ c, state.Chosen stored c →
    ¬ TransGen (state.Below stored (state.IsValid stored)) c c
  known : ∀ c, state.Chosen stored c → ¬ state.IsValid stored c →
    c ∈ stored.persistedComputationCheckpointStatus →
    ∀ b, stored.persistedComputationBigvecReferences.contains c b →
      state.Knows (.bigvec b) ∨ stored.Knows (.bigvec b)

end AddDropSystemState

namespace AddDropSystemCalculations

variable (state : AddDropSystemState) (stored : AddDropPersistedState)

/-- `computeMissingDependencies` and the calls of `computeRecoverableAndValidComputations` but the last. -/
def reachability (limit : ℕ) : Option AddDropSystemCalculations :=
  (computeMissingDependencies limit state {}).bind fun s => s.computeReachability limit state stored

/-- `computeMissingDependencies` and `computeRecoverableAndValidComputations`. -/
def recovery (limit : ℕ) : Option (Except AllocationError AddDropSystemCalculations) :=
  (computeMissingDependencies limit state {}).bind fun s =>
    s.computeRecoverableAndValidComputations limit state stored

/-- The calculations do what they are for. -/
structure Recovers (state : AddDropSystemState) (stored : AddDropPersistedState) : Prop where
  /-- What misses dependencies is the least set closed under the rules. -/
  missing : ∃ s, Yields (fun limit => computeMissingDependencies limit state {}) s ∧
    IsLeast {m | state.ClosedUnderMissing m} s.missing
  /-- What is reachable is what is reached from the kept and the loaded computations. -/
  reachable : ∃ s, Yields (reachability state stored) s ∧ ∀ a, a ∈ s.reachable ↔
    s.pageAndBigvecGraph.Reaches (bigvecIsReferenced state stored s) a
  /-- The calculations return where each computation with a checkpoint status has a file. -/
  returns : (∀ c ∈ stored.persistedComputationCheckpointStatus,
      c ∈ stored.persistedComputationCheckpointAndFile) →
    ∃ s, Yields (recovery state stored) (.ok s)
  /-- No assertion of `validateComputations` fails. -/
  validated : ∀ s, Yields (recovery state stored) (.ok s) → s.validateComputations state

/-! ## The calculations up to the choice -/

/-- The calculations before computations are chosen. -/
structure Prepared (state : AddDropSystemState) (stored : AddDropPersistedState)
    (s : AddDropSystemCalculations) : Prop where
  objects : ∀ a, a ∈ s.objects ↔ state.Knows a ∨ stored.Knows a
  graph : s.pageAndBigvecGraph.Within s.objects
  roots : ∀ c, c ∈ s.rootComputations ↔ ∃ k, state.Knows (.computation k) ∧ k.rootComputation = c
  missing : ∀ b, b ∈ s.bigvecsMissingDependencies ↔ state.MissingBigvec b
  recoverable : s.bigvecsRecoverable = stored.bigvecsHeldInPersistentCache
  valid : ∀ c, c ∈ s.computationsValid ↔ state.IsValid stored c
  kept : s.computationsKept = ∅
  loaded : s.persistedComputationsLoaded = ∅
  pages : s.pagesReachable = ∅
  bigvecs : s.bigvecsReachable = ∅

/-- The calculations with the graph and what is recoverable. -/
def withGraph (s : AddDropSystemCalculations) : AddDropSystemCalculations :=
  { s.computePageBigvecGraph state stored with
    bigvecsRecoverable := stored.bigvecsHeldInPersistentCache }

variable {state} {stored : AddDropPersistedState}
  {s s' : AddDropSystemCalculations} {c d : ComputationId}

/-- The roots that `computeRoots` lists. -/
theorem mem_rootComputations : c ∈ (computeRoots state {}).rootComputations ↔
    ∃ k, state.Knows (.computation k) ∧ k.rootComputation = c := by
  have hall k : k ∈ (computeRoots state {}).allComputations ↔ state.Knows (.computation k) :=
    computation_mem_objects.symm.trans mem_objects_computeRoots
  simp only [← hall]
  exact mem_union.trans ((or_iff_right (notMem_empty c)).trans mem_image)

theorem prepared (state : AddDropSystemState) (stored : AddDropPersistedState) :
    ∃ s₀ s, Yields (fun limit => computeMissingDependencies limit state {}) s₀ ∧
      IsLeast {m | state.ClosedUnderMissing m} s₀.missing ∧
      Yields (fun limit => (s₀.withGraph state stored).computeValidComputations limit state) s ∧
      Prepared state stored s := by
  obtain ⟨s₀, hyields, hleast, pages, computations, bigvecs, roots, hs₀⟩ := computeMissingDependencies_yields state
  have hobjects a : a ∈ s₀.objects ↔ state.Knows a := by
    rw [hs₀]
    exact mem_objects_computeRoots
  have hall a : a ∈ (s₀.withGraph state stored).objects ↔ state.Knows a ∨ stored.Knows a :=
    Iff.trans (@mem_objects_computePageBigvecGraph state _ _ _) (or_congr_left (hobjects a))
  have hmissing b : b ∈ s₀.bigvecsMissingDependencies ↔ state.MissingBigvec b :=
    ⟨fun hb m hm => hleast.2 hm hb, fun hb => hb _ hleast.1⟩
  obtain ⟨s, hvalid, hs, hmem⟩ := computeValidComputations_yields (s := s₀.withGraph state stored)
    (fun a ha => (hall a).2 (.inl ha)) (by rw [hs₀]; rfl)
  have hlost : (s₀.withGraph state stored).Lost = state.Lost stored := by
    funext b
    exact propext (and_congr_left fun _ => hmissing b)
  refine ⟨s₀, s, hyields, hleast, hvalid, ?_⟩
  rw [hlost] at hmem
  rw [hs]
  constructor
  case objects => exact hall
  case graph => exact within_computePageBigvecGraph fun a ha => (hobjects a).2 ha
  case roots =>
    rw [hs₀]
    exact fun c => mem_rootComputations
  case missing => exact hmissing
  case recoverable => rfl
  case valid => exact hmem
  all_goals
    rw [hs₀]
    rfl

/-! ## The choice -/

theorem Prepared.below (h : Prepared state stored s) :
    state.Below stored (· ∈ s.computationsValid) = state.Below stored (state.IsValid stored) := by
  rw [show (· ∈ s.computationsValid) = state.IsValid stored from funext fun c => propext (h.valid c)]

/-- What may come below anything. -/
def targets (state : AddDropSystemState) (stored : AddDropPersistedState) : Finset ComputationId :=
  state.computationDependencies.mValuesToKeys.keys ∪ stored.persistedComputationDependencies.mValuesToKeys.keys

theorem mem_targets {valid : ComputationId → Prop} (h : state.Below stored valid c d) :
    d ∈ targets state stored := by
  rcases h with ⟨-, hd⟩ | ⟨-, -, hd⟩
  · exact mem_union_left _ (mem_valuesToKeys.2 ⟨c, hd⟩)
  · exact mem_union_right _ (mem_valuesToKeys.2 ⟨c, hd⟩)

/-- Where nothing chosen is below itself, there is a rank that falls downwards. -/
theorem exists_rank_below
    (h : ∀ c, state.Chosen stored c →
      ¬ TransGen (state.Below stored (state.IsValid stored)) c c) :
    ∃ rank : ComputationId → ℕ, ∀ c d, state.Chosen stored c →
      state.Below stored (state.IsValid stored) c d → rank d < rank c := by
  have hacyclic : Digraph.Acyclic (fun d c => state.Chosen stored c ∧
      state.Below stored (state.IsValid stored) c d) := by
    intro c hc
    have hswap : TransGen (Function.swap fun d c => state.Chosen stored c ∧
        state.Below stored (state.IsValid stored) c d) c c := transGen_swap.2 hc
    have hchosen : state.Chosen stored c := by
      obtain ⟨_, hc, -⟩ := TransGen.head'_iff.1 hswap
      exact hc.1
    exact h c hchosen (TransGen.mono (fun _ _ hab => hab.2) c c hswap)
  obtain ⟨rank, -, hrank⟩ := Digraph.exists_rank hacyclic (targets state stored)
    fun d c hdc => mem_targets hdc.2
  exact ⟨rank, fun c d hc hcd => hrank d c ⟨hc, hcd⟩⟩

section

variable (h : Prepared state stored s)
include h

theorem chosen_of_root (hc : c ∈ s.rootComputations) : state.Chosen stored c := by
  obtain ⟨k, hk, rfl⟩ := (h.roots c).1 hc
  exact ⟨k, hk, .refl⟩

theorem chosen_iff : state.Chosen stored d ↔
    ∃ c, c ∈ ascending s.rootComputations ∧ ReflTransGen (s.below state stored) c d := by
  unfold below
  rw [h.below]
  constructor
  · rintro ⟨k, hk, hd⟩
    exact ⟨_, mem_ascending.2 ((h.roots _).2 ⟨k, hk, rfl⟩), hd⟩
  · rintro ⟨c, hc, hd⟩
    obtain ⟨k, hk, rfl⟩ := (h.roots c).1 (mem_ascending.1 hc)
    exact ⟨k, hk, hd⟩

/-- Where nothing chosen is below itself, choosing ends. -/
theorem Prepared.choose_yields (hacyclic : ∀ c, state.Chosen stored c →
      ¬ TransGen (state.Below stored (state.IsValid stored)) c c) :
    ∃ s', Yields (fun limit => (ascending s.rootComputations).foldlM
      (chooseKeptComputationsBelow state stored limit) s) s' := by
  obtain ⟨rank, hrank⟩ := exists_rank_below hacyclic
  have hbelow := h.below
  obtain ⟨s', hs', -⟩ := yields_foldlM (l := ascending s.rootComputations) (b := s)
    (g := chooseKeptComputationsBelow state stored)
    (I := fun t => t.computationsValid = s.computationsValid)
    (fun c hc t ht => AddDropSystemCalculations.choose_yields (P := state.Chosen stored) (fun c d hc hcd => by
        obtain ⟨k, hk, hkc⟩ := hc
        exact ⟨k, hk, hkc.tail (hbelow ▸ hcd)⟩)
      (fun c d hc hcd => hrank c d hc (hbelow ▸ hcd)) (chosen_of_root h (mem_ascending.1 hc)) ht) rfl
  exact ⟨s', hs'⟩

/-- Where choosing ends, nothing chosen is below itself. -/
theorem Prepared.acyclic {limit : ℕ}
    (hs' : (ascending s.rootComputations).foldlM (chooseKeptComputationsBelow state stored limit) s =
      some s') (hc : state.Chosen stored c) :
    ¬ TransGen (state.Below stored (state.IsValid stored)) c c := by
  obtain ⟨root, hroot, hd⟩ := (chosen_iff h).1 hc
  have hret := returns_of_foldlM rfl hs' hroot
  rw [← h.below]
  rcases reflTransGen_iff_eq_or_transGen.1 hd with rfl | hd
  · exact hret.not_below
  · obtain ⟨n, -, hret⟩ := hret.belowAll hd
    exact hret.not_below

/-! ## The calculations after reachability -/

end

/-- The calculations before machines are sought. -/
structure Settled (state : AddDropSystemState) (stored : AddDropPersistedState)
    (s : AddDropSystemCalculations) : Prop where
  objects : ∀ a, a ∈ s.objects ↔ state.Knows a ∨ stored.Knows a
  graph : s.pageAndBigvecGraph.Within s.objects
  missing : ∀ b, b ∈ s.bigvecsMissingDependencies ↔ state.MissingBigvec b
  recoverable : s.bigvecsRecoverable = stored.bigvecsHeldInPersistentCache
  valid : ∀ c, c ∈ s.computationsValid ↔ state.IsValid stored c
  kept : ∀ c, c ∈ s.computationsKept ↔ state.IsValid stored c ∧ state.Chosen stored c
  loaded : ∀ c, c ∈ s.persistedComputationsLoaded ↔
    (¬ state.IsValid stored c ∧ c ∈ stored.persistedComputationCheckpointStatus) ∧
      state.Chosen stored c
  reachable : ∀ a, a ∈ s.reachable ↔ s.pageAndBigvecGraph.Reaches
    (fun b => bigvecIsReferenced state stored s b ∧ .bigvec b ∈ s.objects) a

theorem Prepared.settled (h : Prepared state stored s)
    (hchose : Chose state stored s (· ∈ ascending s.rootComputations) s') :
    ∃ s'', Yields (fun limit => s'.computeReachableBigvecsAndPages limit state stored) s'' ∧
      Settled state stored s'' := by
  obtain ⟨kept, loaded, rfl⟩ := hchose.frame
  obtain ⟨s'', hyields, hs'', hreachable⟩ := computeReachableBigvecsAndPages_yields state
    stored (s := s.withChoice kept loaded) h.graph h.pages h.bigvecs
  refine ⟨s'', hyields, ?_⟩
  rw [hs''] at hreachable ⊢
  constructor
  case objects => exact h.objects
  case graph => exact h.graph
  case missing => exact h.missing
  case recoverable => exact h.recoverable
  case valid => exact h.valid
  case kept =>
    intro c
    refine (hchose.kept c).trans ?_
    rw [h.kept, h.valid, ← chosen_iff h]
    exact or_iff_right (notMem_empty c)
  case loaded =>
    intro c
    refine (hchose.loaded c).trans ?_
    rw [h.loaded, h.valid, ← chosen_iff h]
    exact or_iff_right (notMem_empty c)
  case reachable => exact hreachable

/-- Where nothing chosen is below itself, the calculations get to the machines. -/
theorem reachability_yields
    (hacyclic : ∀ c, state.Chosen stored c →
      ¬ TransGen (state.Below stored (state.IsValid stored)) c c) :
    ∃ s, Yields (reachability state stored) s ∧ Settled state stored s := by
  obtain ⟨s₀, s₁, hmissing, -, hvalid, hprepared⟩ := prepared state stored
  obtain ⟨s₂, hchoose⟩ := hprepared.choose_yields hacyclic
  obtain ⟨n, hn⟩ := id hchoose
  obtain ⟨s₃, hreachable, hsettled⟩ := hprepared.settled (chose_of_foldlM (fun _ _ _ => chose_of_choose) (hn n le_rfl))
  exact ⟨s₃, hmissing.bind (hvalid.bind (hchoose.bind hreachable)), hsettled⟩

/-- Where the calculations get to the machines, nothing chosen is below itself. -/
theorem acyclic_of_reachability (h : Yields (reachability state stored) s)
    (hc : state.Chosen stored c) :
    ¬ TransGen (state.Below stored (state.IsValid stored)) c c := by
  obtain ⟨s₀, s₁, ⟨n₀, hmissing⟩, -, ⟨n₁, hvalid⟩, hprepared⟩ := prepared state stored
  obtain ⟨n, hn⟩ := h
  have hrun := hn (n + n₀ + n₁) (by omega)
  have hfirst : computeMissingDependencies (n + n₀ + n₁) state {} = some s₀ := hmissing _ (by omega)
  unfold reachability at hrun
  rw [hfirst, bind_some] at hrun
  obtain ⟨s₁', h₁, hrun⟩ := bind_eq_some_iff.1 hrun
  have he : some s₁ = some s₁' := (hvalid _ (by omega)).symm.trans h₁
  cases he
  obtain ⟨s₂, h₂, -⟩ := bind_eq_some_iff.1 hrun
  exact hprepared.acyclic h₂ hc

/-- A vector that a computation needs is gathered, unless only loaded computations need it. -/
theorem Settled.exact_iff (h : Settled state stored s) :
    (∀ a, a ∈ s.reachable ↔ s.pageAndBigvecGraph.Reaches (bigvecIsReferenced state stored s) a) ↔
      ∀ b, bigvecIsReferenced state stored s b → .bigvec b ∈ s.objects := by
  constructor
  · intro hexact b hb
    have hreaches := (h.reachable (.bigvec b)).1 ((hexact (.bigvec b)).2 (.source hb))
    exact hreaches.mem h.graph fun _ hb => hb.2
  · intro hknown a
    rw [h.reachable]
    exact ⟨fun ha => ha.mono fun _ => And.left, fun ha => ha.mono fun b hb => ⟨hb, hknown b hb⟩⟩

theorem Settled.referenced_known (h : Settled state stored s) :
    (∀ b, bigvecIsReferenced state stored s b → .bigvec b ∈ s.objects) ↔
      ∀ c, state.Chosen stored c → ¬ state.IsValid stored c →
        c ∈ stored.persistedComputationCheckpointStatus →
        ∀ b, stored.persistedComputationBigvecReferences.contains c b →
          state.Knows (.bigvec b) ∨ stored.Knows (.bigvec b) := by
  constructor
  · intro hknown c hc hinvalid hstatus b hb
    refine (h.objects _).1 (hknown b (.inr ⟨c, mem_getKeys.2 hb, ?_⟩))
    exact (h.loaded c).2 ⟨⟨hinvalid, hstatus⟩, hc⟩
  · rintro hknown b (⟨c, hc, -⟩ | ⟨c, hc, hloaded⟩)
    · exact (h.objects _).2 (.inl (.inl ⟨c, mem_getKeys.1 hc⟩))
    · obtain ⟨⟨hinvalid, hstatus⟩, hchosen⟩ := (h.loaded c).1 hloaded
      exact (h.objects _).2 (hknown c hchosen hinvalid hstatus b (mem_getKeys.1 hc))

/-! ## The validation -/

theorem Settled.validated (h : Settled state stored s) : s.validateComputations state := by
  have hsource {b : Hash} (hb : b ∈ s.bigvecsReachable) : s.pageAndBigvecGraph.Reaches _ (.bigvec b) :=
    (h.reachable (.bigvec b)).1 hb
  refine ⟨fun c hc => ?_, fun c hc b hb => ⟨?_, ?_⟩, fun c hc hroot => ?_, fun b hb p hp => ?_,
    fun p hp => ⟨fun b hb => ?_, fun b hb => ?_⟩⟩
  · cases (h.valid c).1 hc with
    | intro hon => exact hon
  · refine (h.reachable (.bigvec b)).2 (.source ⟨.inl ⟨c, mem_getKeys.2 hb, hc⟩, ?_⟩)
    exact (h.objects _).2 (.inl (.inl ⟨c, hb⟩))
  · rw [h.missing, h.recoverable]
    cases ((h.kept c).1 hc).1 with
    | intro _ _ hlost => exact or_iff_not_imp_right.2 fun hnot hm => hlost b hb ⟨hm, hnot⟩
  · refine (h.kept c).2 ⟨(h.valid c).1 hc, c, ?_, ?_⟩
    · cases (h.valid c).1 hc with
      | intro hon => exact .inr (.inr (.inr (.inr (.inl hon))))
    · rw [ComputationId.rootComputation_of_isRoot hroot]
  · exact (h.reachable (.page p)).2 (.page (hsource hb) hp)
  · exact (h.reachable (.bigvec b)).2 (.bigvec ((h.reachable (.page p)).1 hp) hb)
  · exact (h.reachable (.bigvec b)).2 (.synthetic ((h.reachable (.page p)).1 hp) (mem_toFinset.1 hb))

theorem validated_of_allocated (h : s.validateComputations state) (ha : Allocated s s') :
    s'.validateComputations state := by
  rcases ha with ⟨machines, rfl⟩ | rfl
  · exact h
  · exact ⟨fun _ hc => absurd hc (notMem_empty _), fun _ hc => absurd hc (notMem_empty _),
      fun _ hc => absurd hc (notMem_empty _), fun _ hb => absurd hb (notMem_empty _),
      fun _ hp => absurd hp (notMem_empty _)⟩

/-- The whole calculation is the last call after the others. -/
theorem recovery_eq (n : ℕ) : recovery state stored n = (reachability state stored n).bind
      fun s => some (s.allocatedPersistedComputationsToMachines state stored) := by
  unfold recovery reachability
  rw [bind_assoc]
  rfl

theorem Recovers.recoverable (h : Recovers state stored) : state.Recoverable stored := by
  obtain ⟨s, hyields, hexact⟩ := h.reachable
  have hacyclic := fun c hc => acyclic_of_reachability (c := c) hyields hc
  obtain ⟨s', hyields', hsettled⟩ := reachability_yields hacyclic
  obtain rfl := hyields.unique hyields'
  exact ⟨hacyclic, hsettled.referenced_known.1 (hsettled.exact_iff.1 hexact)⟩

theorem recovers_of_recoverable (h : state.Recoverable stored) : Recovers state stored := by
  obtain ⟨s₀, -, hmissing, hleast, -, -⟩ := prepared state stored
  obtain ⟨s, hyields, hsettled⟩ := reachability_yields h.acyclic
  have hrecovery : Yields (recovery state stored)
      (s.allocatedPersistedComputationsToMachines state stored) :=
    (hyields.bind yields_some).congr recovery_eq
  refine ⟨⟨s₀, hmissing, hleast⟩, ⟨s, hyields, hsettled.exact_iff.2 (hsettled.referenced_known.2 h.known)⟩,
    fun hfile => ?_, fun s' hs' => ?_⟩
  · obtain ⟨s', hs'⟩ := allocated_returns (s := s) state
      (fun c hc => ((hsettled.loaded c).1 hc).1.2) fun c hc => hfile c ((hsettled.loaded c).1 hc).1.2
    exact ⟨s', hs' ▸ hrecovery⟩
  · exact validated_of_allocated hsettled.validated (allocated (hrecovery.unique hs'))

/-- The calculations do what they are for exactly in the states that are recoverable. -/
theorem recovers_iff_recoverable (state : AddDropSystemState) (stored : AddDropPersistedState) :
    Recovers state stored ↔ state.Recoverable stored :=
  ⟨Recovers.recoverable, recovers_of_recoverable⟩

/-- Two root computations on a machine that depend on each other. -/
def circularRoots : AddDropSystemState where
  computationDependencies := ((∅ : TwoWaySetMap ComputationId ComputationId).insert (.Root 1) (.Root 2)).insert
    (.Root 2) (.Root 1)
  computationOnMachine := ((∅ : MapWithIndex ComputationId MachineId).set (.Root 1) ⟨1⟩).set (.Root 2) ⟨1⟩

/-- A root computation that a client asks for and that is on no machine. -/
def lostRoot : AddDropSystemState where
  prioritizedRoots := {.Root 1}

/-- The checkpoint of this computation: it needs a vector without pages, of which nothing else is known. -/
def emptyVector : AddDropPersistedState where
  persistedComputationBigvecReferences := (∅ : TwoWaySetMap ComputationId Hash).insert (.Root 1) 5
  bigvecsHeldInPersistentCache := {5}
  persistedComputationCheckpointStatus := Finmap.singleton (.Root 1) { bytecount := 8 }
  persistedComputationCheckpointAndFile := Finmap.singleton (.Root 1) (toLex (⟨0, true, 1⟩, 7))

theorem below_circularRoots {i j : Hash} (h : circularRoots.computationDependencies.contains (.Root i) (.Root j))
    (hon : circularRoots.computationOnMachine.hasKey (.Root i)) :
    circularRoots.Below {} (circularRoots.IsValid {}) (.Root i) (.Root j) := by
  refine .inl ⟨.intro hon (fun child hchild hroot => ?_) fun b hb => absurd hb contains_empty, h⟩
  refine absurd ?_ hroot
  have hdeps : circularRoots.computationDependencies.contains (.Root i) child := hchild
  unfold circularRoots at hdeps
  simp only [contains_insert, contains_empty, or_false] at hdeps
  rcases hdeps with ⟨-, rfl⟩ | ⟨-, rfl⟩
  · rfl
  · rfl

/-- Choosing goes round in circles, and a vector that is only a persisted computation's is not found to be
reachable. -/
theorem not_recovers : ¬ Recovers circularRoots {} ∧ ¬ Recovers lostRoot emptyVector := by
  constructor
  · intro h
    have hfirst := below_circularRoots (i := 1) (j := 2) (by decide +kernel) (by decide +kernel)
    have hsecond := below_circularRoots (i := 2) (j := 1) (by decide +kernel) (by decide +kernel)
    refine h.recoverable.acyclic (.Root 1) ⟨.Root 1, ?_, .refl⟩ (.head hfirst (.single hsecond))
    exact .inr (.inr (.inr (.inr (.inl (by decide +kernel)))))
  · intro h
    have hchosen : lostRoot.Chosen emptyVector (.Root 1) := ⟨.Root 1, .inl (mem_singleton_self _), .refl⟩
    have hinvalid : ¬ lostRoot.IsValid emptyVector (.Root 1) := by
      intro hvalid
      cases hvalid with
      | intro hon => exact absurd hon (by decide +kernel)
    rcases h.recoverable.known (.Root 1) hchosen hinvalid (by decide +kernel) 5 (by decide +kernel) with hk | hk
    · rcases hk with ⟨_, hk⟩ | hk | ⟨_, hk⟩ | ⟨_, hk⟩ | ⟨_, hk⟩
      · exact contains_empty hk
      · exact notMem_empty _ hk
      · exact contains_empty hk
      · rw [show lostRoot.syntheticPages = ∅ from rfl, MapWithIndex.tryGetValue_empty] at hk
        cases hk
      · exact contains_empty hk
    · rcases hk with ⟨_, hk⟩ | ⟨_, hk⟩
      · exact contains_empty hk
      · exact contains_empty hk

end AddDropSystemCalculations

end Cumulus
