import Ufora.Lib.Rank
import Ufora.Lib.Run
import Ufora.Recovery.Validation

/-!
# The machines that load

`allocatedPersistedComputationsToMachines` gives the persisted computations, file by file, to machines that
have memory left for them. The memory left is computed by subtracting unsigned numbers: a machine that uses
more than its limit looks as if it had nearly all of the 64-bit numbers left. `allocates_iff` says for which
memory usages the computations are given to machines as they should be, whatever these computations are.
-/

open Effect Ordered Rank Run List Finset Option StdMap MapWithIndex Nat

namespace Cumulus.AddDropSystemCalculations

open Fora (PageId MemoryUsage)

/-! ## What should be -/

/-- `bytesUsedByPageletsOnlyInExecutionContexts()`. -/
def bytesUsedByPageletsOnlyInExecutionContexts (usage : MemoryUsage) : UInt64 :=
  if usage.bytesUsedByPageletsInVectors < usage.bytesUsedByAllPagelets then
    UInt64.ofNat usage.bytesUsedByAllPagelets - UInt64.ofNat usage.bytesUsedByPageletsInVectors
  else 0

/-- The bytes that a machine uses, of those that are subtracted from its limit. -/
def bytesUsed (usage : MemoryUsage) : ℕ := (UInt64.ofNat usage.bytesUsedByContextsExcludingPagelets).toNat +
    (bytesUsedByPageletsOnlyInExecutionContexts usage).toNat

/-- The memory that a machine has left: its limit minus what is used, or zero if more is used. -/
def bytesLeft (usage : MemoryUsage) : ℕ := (UInt64.ofNat usage.maxMemoryAvailable).toNat - bytesUsed usage

/-- The memory that a machine of the system has left. -/
def memoryLeft (used : StdMap MachineId MemoryUsage) (machine : MachineId) : ℕ :=
  (used.lookup machine).elim 0 bytesLeft

variable (stored : AddDropPersistedState)

/-- The bytes of a persisted computation. -/
def bytecountOf (computation : ComputationId) : UInt64 :=
  (stored.persistedComputationCheckpointStatus.lookup computation).elim 0 (·.bytecount)

/-- The bytes of some persisted computations. -/
def totalBytecount (ids : Finset ComputationId) : ℕ := ∑ c ∈ ids, (bytecountOf stored c).toNat

/-- The computations to load that are in a file. -/
def inFile (s : AddDropSystemCalculations) (file : CheckpointRequest ×ₗ Hash) : Finset ComputationId :=
  s.persistedComputationsLoaded.filter fun c =>
    stored.persistedComputationCheckpointAndFile.lookup c = some file

/-- How the computations to load should be given to machines: those of a machine are less than the memory that
it has left, those of a file are on one machine, and all of them are given to machines or everything is wiped. -/
structure Allocates (state : AddDropSystemState) (stored : AddDropPersistedState)
    (s s' : AddDropSystemCalculations) : Prop where
  room : ∀ machine, (s'.persistedComputationsToLoad.getKeys machine).Nonempty →
    totalBytecount stored (s'.persistedComputationsToLoad.getKeys machine) < memoryLeft state.memoryUsage machine
  oneMachine : ∀ file, ∀ c ∈ inFile stored s' file, ∀ d ∈ inFile stored s' file,
    s'.persistedComputationsToLoad.tryGetValue c = s'.persistedComputationsToLoad.tryGetValue d
  complete : (s' = s.withMachines s'.persistedComputationsToLoad ∧
    ∀ c, s'.persistedComputationsToLoad.hasKey c ↔ c ∈ s.persistedComputationsLoaded) ∨ s' = s.wiped

/-- The computations to load are known: they have a checkpoint status and a file, and those of a file together
with the memory left on a machine are no more bytes than 64 bits count. -/
structure Loadable (state : AddDropSystemState) (stored : AddDropPersistedState)
    (s : AddDropSystemCalculations) : Prop where
  fresh : s.persistedComputationsToLoad = ∅
  status : ∀ c ∈ s.persistedComputationsLoaded, c ∈ stored.persistedComputationCheckpointStatus
  file : ∀ c ∈ s.persistedComputationsLoaded, c ∈ stored.persistedComputationCheckpointAndFile
  counts : ∀ file machine, totalBytecount stored (inFile stored s file) +
    memoryLeft state.memoryUsage machine ≤ 2 ^ 64

/-- The difference that the code computes is the memory left, except where it is 1 and a machine before has
exactly one byte left. -/
def CountsRight (used : StdMap MachineId MemoryUsage) : Prop :=
  ∀ machine usage, used.lookup machine = some usage → (bytesFor usage).toNat = bytesLeft usage ∨
      (bytesFor usage = 1 ∧ ∃ before < machine, ∃ usage', used.lookup before = some usage' ∧
        bytesFor usage' = 1 ∧ bytesLeft usage' = 1)

/-- Within its limit, the memory that a machine has left is computed right. -/
theorem bytesFor_toNat {usage : MemoryUsage} (h : bytesUsed usage ≤ (UInt64.ofNat usage.maxMemoryAvailable).toNat) :
    (bytesFor usage).toNat = bytesLeft usage := by
  have hmax : ∀ x : UInt64, max 0 x = x := fun x => if_pos (UInt64.le_iff_toNat_le.2 (zero_le _))
  have hb : bytesFor usage = UInt64.ofNat usage.maxMemoryAvailable -
      UInt64.ofNat usage.bytesUsedByContextsExcludingPagelets -
      bytesUsedByPageletsOnlyInExecutionContexts usage := hmax _
  unfold bytesLeft bytesUsed at *
  rw [hb, UInt64.toNat_sub_of_le, UInt64.toNat_sub_of_le]
  · omega
  · rw [UInt64.le_iff_toNat_le]
    omega
  · rw [UInt64.le_iff_toNat_le, UInt64.toNat_sub_of_le]
    · omega
    · rw [UInt64.le_iff_toNat_le]
      omega

/-- Where the difference that the code computes is not the memory left, there is none left. -/
theorem bytesLeft_eq_zero {usage : MemoryUsage} (h : (bytesFor usage).toNat ≠ bytesLeft usage) : bytesLeft usage = 0 :=
  Nat.sub_eq_zero_of_le (le_of_not_ge fun hle => h (bytesFor_toNat hle))

/-! ## The machine that is chosen -/

section
variable {used : StdMap MachineId MemoryUsage} {loading : StdMap MachineId UInt64}
  {bytes : UInt64} {machine best : MachineId}

variable (loading)

/-- The bytes that a machine loads already. -/
def loadingOn (machine : MachineId) : UInt64 := (loading.lookup machine).getD 0

variable (used)

/-- The bytes that the code takes a machine to have left. -/
def remainingOn (machine : MachineId) : UInt64 := (used.lookup machine).elim 0 bytesFor

/-- The bytes fit on a machine, as the code compares. -/
def FitsOn (bytes : UInt64) (machine : MachineId) : Prop :=
  loadingOn loading machine + bytes < remainingOn used machine
deriving Decidable

variable {used} {loading} (used) (loading)

/-- One round of `bestMachine`. -/
def observe (bytes : UInt64) (best : Option MachineId) (machine : MachineId) : Option MachineId :=
  if FitsOn used loading bytes machine then
    match best with
    | none => some machine
    | some b =>
      if toDouble (loadingOn loading machine) < toDouble (loadingOn loading b) then some machine
      else some b
  else best

/-- The machine that was chosen among some: the first one that loads least, of those on which the bytes fit. -/
def Chosen (bytes : UInt64) (machines : List MachineId) : Option MachineId → Prop
  | none => ∀ m ∈ machines, ¬ FitsOn used loading bytes m
  | some best => best ∈ machines ∧ FitsOn used loading bytes best ∧
    ∀ m ∈ machines, FitsOn used loading bytes m →
      toDouble (loadingOn loading best) ≤ toDouble (loadingOn loading m) ∧
      (m < best → toDouble (loadingOn loading best) < toDouble (loadingOn loading m))

variable {used} {loading}

theorem Chosen.observe {ms : List MachineId} {best : Option MachineId}
    (h : Chosen used loading bytes ms best) (hlt : ∀ m ∈ ms, m < machine) :
    Chosen used loading bytes (ms ++ [machine])
      (observe used loading bytes best machine) := by
  unfold AddDropSystemCalculations.observe
  by_cases hf : FitsOn used loading bytes machine
  · rw [if_pos hf]
    cases best with
    | none =>
      refine ⟨by simp, hf, fun m hm hfm => ?_⟩
      rcases mem_append.1 hm with hm | hm
      · exact absurd hfm (h m hm)
      · rw [List.mem_singleton.1 hm]
        exact ⟨le_rfl, fun hlt => absurd hlt (lt_irrefl _)⟩
    | some b =>
      obtain ⟨hb, hfb, hleast⟩ := h
      dsimp only
      split
      · rename_i hw
        refine ⟨by simp, hf, fun m hm hfm => ?_⟩
        rcases mem_append.1 hm with hm | hm
        · have hlt := hw.trans_le (hleast m hm hfm).1
          exact ⟨hlt.le, fun _ => hlt⟩
        · rw [List.mem_singleton.1 hm]
          exact ⟨le_rfl, fun hlt => absurd hlt (lt_irrefl _)⟩
      · rename_i hw
        refine ⟨mem_append_left _ hb, hfb, fun m hm hfm => ?_⟩
        rcases mem_append.1 hm with hm | hm
        · exact hleast m hm hfm
        · rw [List.mem_singleton.1 hm]
          exact ⟨not_lt.1 hw, fun hmb => absurd hmb (hlt b hb).not_gt⟩
  · rw [if_neg hf]
    cases best with
    | none =>
      intro m hm
      rcases mem_append.1 hm with hm | hm
      · exact h m hm
      · rw [List.mem_singleton.1 hm]
        exact hf
    | some b =>
      refine ⟨mem_append_left _ h.1, h.2.1, fun m hm hfm => ?_⟩
      rcases mem_append.1 hm with hm | hm
      · exact h.2.2 m hm hfm
      · rw [List.mem_singleton.1 hm] at hfm
        exact absurd hfm hf

theorem chosen_bestMachine : Chosen used loading bytes (ascending used.keys)
    (bestMachine used loading bytes) := by
  have key : ∀ (rest pre : List MachineId) (best : Option MachineId),
      (pre ++ rest).Pairwise (· < ·) → Chosen used loading bytes pre best →
      Chosen used loading bytes (pre ++ rest)
        (rest.foldl (AddDropSystemCalculations.observe used loading bytes) best) := by
    intro rest
    induction rest with
    | nil =>
      intro pre best _ h
      rw [append_nil]
      exact h
    | cons m rest ih =>
      intro pre best hp h
      have hm : ∀ x ∈ pre, x < m := fun x hx => (pairwise_append.1 hp).2.2 x hx m (.head _)
      have hcons : pre ++ m :: rest = (pre ++ [m]) ++ rest := by simp
      rw [hcons] at hp ⊢
      exact ih _ _ hp (h.observe hm)
  exact key _ [] none (strictlyAscending _) fun _ hm => absurd hm not_mem_nil

/-- A machine on which bytes fit is one of the system. -/
theorem FitsOn.mem_keys (h : FitsOn used loading bytes machine) : machine ∈ ascending used.keys := by
  rw [mem_ascending, mem_keys_iff]
  cases hu : used.lookup machine with
  | some usage => exact ⟨usage, rfl⟩
  | none =>
    unfold FitsOn remainingOn at h
    rw [hu, UInt64.lt_iff_toNat_lt] at h
    exact absurd h (not_lt_zero _)

theorem fitsOn_bestMachine (h : bestMachine used loading bytes = some best) :
    FitsOn used loading bytes best := by
  have hc := @chosen_bestMachine used loading bytes
  rw [h] at hc
  exact hc.2.1

theorem bestMachine_least (h : bestMachine used loading bytes = some best)
    (hf : FitsOn used loading bytes machine) :
    toDouble (loadingOn loading best) ≤ toDouble (loadingOn loading machine) ∧
      (machine < best → toDouble (loadingOn loading best) < toDouble (loadingOn loading machine)) := by
  have hc := @chosen_bestMachine used loading bytes
  rw [h] at hc
  exact hc.2.2 machine hf.mem_keys hf

theorem exists_bestMachine (hf : FitsOn used loading bytes machine) :
    ∃ best, bestMachine used loading bytes = some best := by
  have hc := @chosen_bestMachine used loading bytes
  cases h : bestMachine used loading bytes with
  | some best => exact ⟨best, rfl⟩
  | none =>
    rw [h] at hc
    exact absurd hf (hc machine hf.mem_keys)

/-- Only zero is zero as a double. -/
theorem toDouble_eq_zero {n : UInt64} : toDouble n = 0 ↔ n = 0 := by
  constructor
  · intro h
    by_contra hn
    have hpos : n.toNat ≠ 0 := fun h0 => hn (UInt64.toNat_inj.1 h0)
    have hunit : 2 ^ (n.toNat.log2 - 52) ≤ n.toNat :=
      (Nat.pow_le_pow_right two_pos (Nat.sub_le _ _)).trans (Nat.log2_self_le hpos)
    have hq : 0 < n.toNat / 2 ^ (n.toNat.log2 - 52) := Nat.div_pos hunit (Nat.two_pow_pos _)
    unfold toDouble at h
    dsimp only at h
    split at h
    · exact absurd h (Nat.mul_pos hq (Nat.two_pow_pos _)).ne'
    · exact absurd h (Nat.mul_pos (Nat.succ_pos _) (Nat.two_pow_pos _)).ne'
  · rintro rfl
    rfl

end

/-! ## One file -/

section
variable {state : AddDropSystemState} {stored : AddDropPersistedState}
  {s t : AddDropSystemCalculations} {ids : Finset ComputationId}
  {loading : StdMap MachineId UInt64} {file : CheckpointRequest ×ₗ Hash}

/-- The bytes of some computations, as the code adds them up. -/
def bytesOfAll (stored : AddDropPersistedState) (ids : Finset ComputationId) : UInt64 :=
  (ascending ids).foldl (fun bytes c => bytes + bytecountOf stored c) 0

theorem foldlM_bytes {l : List ComputationId}
    (h : ∀ c ∈ l, c ∈ stored.persistedComputationCheckpointStatus) (bytes : UInt64) :
    (l.foldlM (fun bytes c => do return bytes + (← bytesOf stored c)) bytes : Except AllocationError UInt64) =
      .ok (l.foldl (fun bytes c => bytes + bytecountOf stored c) bytes) := by
  induction l generalizing bytes with
  | nil => rfl
  | cons c l ih =>
    obtain ⟨status, hst⟩ := mem_keys_iff.1 (Finmap.mem_keys.2 (h c (.head l)))
    have hc : bytesOf stored c = .ok (bytecountOf stored c) := by
      unfold bytesOf bytecountOf
      rw [hst]
      rfl
    rw [foldlM_cons, hc]
    exact ih (fun d hd => h d (.tail c hd)) _

theorem bytesOfAll_toNat (h : totalBytecount stored ids < 2 ^ 64) :
    (bytesOfAll stored ids).toNat = totalBytecount stored ids := by
  have key : ∀ (l : List ComputationId) (bytes : UInt64),
      bytes.toNat + (l.map fun c => (bytecountOf stored c).toNat).sum < 2 ^ 64 →
      (l.foldl (fun bytes c => bytes + bytecountOf stored c) bytes).toNat =
        bytes.toNat + (l.map fun c => (bytecountOf stored c).toNat).sum := by
    intro l
    induction l with
    | nil => simp
    | cons c l ih =>
      intro bytes hlt
      rw [List.map_cons, List.sum_cons] at hlt ⊢
      have hadd : (bytes + bytecountOf stored c).toNat = bytes.toNat + (bytecountOf stored c).toNat := by
        rw [UInt64.toNat_add]
        omega
      rw [foldl_cons, ih _ (by omega), hadd]
      omega
  have hsum : ((ascending ids).map fun c => (bytecountOf stored c).toNat).sum =
      totalBytecount stored ids := by
    unfold totalBytecount
    rw [sum_eq_multiset_sum, ← ascending_coe, Multiset.map_coe, Multiset.sum_coe]
  have := key (ascending ids) 0
  rw [hsum, UInt64.toNat_zero, zero_add] at this
  exact this h

theorem tryGetValue_setAll {l : List ComputationId} {machine : MachineId} {c : ComputationId}
    (m : MapWithIndex ComputationId MachineId) :
    (l.foldl (fun m c => m.set c machine) m).tryGetValue c = if c ∈ l then some machine else m.tryGetValue c := by
  induction l generalizing m with
  | nil => simp
  | cons d l ih =>
    rw [foldl_cons, ih, tryGetValue_set]
    by_cases hl : c ∈ l
    · simp [hl]
    · simp [hl]

/-- The computations of a file after they were given to a machine. -/
def placed (s : AddDropSystemCalculations) (ids : Finset ComputationId) (machine : MachineId) :
    AddDropSystemCalculations :=
  s.withMachines ((ascending ids).foldl (fun m c => m.set c machine) s.persistedComputationsToLoad)

theorem tryGetValue_placed {machine : MachineId} {c : ComputationId} :
    (s.placed ids machine).persistedComputationsToLoad.tryGetValue c =
      if c ∈ ids then some machine else s.persistedComputationsToLoad.tryGetValue c := by
  unfold placed withMachines
  rw [tryGetValue_setAll]
  simp

theorem getKeys_placed {machine machine' : MachineId}
    (hnew : ∀ c ∈ ids, ¬ s.persistedComputationsToLoad.hasKey c) :
    (s.placed ids machine).persistedComputationsToLoad.getKeys machine' =
      if machine' = machine then s.persistedComputationsToLoad.getKeys machine' ∪ ids
      else s.persistedComputationsToLoad.getKeys machine' := by
  have hnone : ∀ c ∈ ids, s.persistedComputationsToLoad.tryGetValue c = none := fun c hc =>
    not_isSome_iff_eq_none.1 fun h => hnew c hc (hasKey_iff.2 (isSome_iff_exists.1 h))
  ext c
  by_cases hm : machine' = machine
  · subst machine'
    rw [if_pos rfl, mem_union, mem_getKeys, mem_getKeys, tryGetValue_placed]
    split
    · next hc => simp [hc]
    · next hc => simp [hc]
  · rw [if_neg hm, mem_getKeys, mem_getKeys, tryGetValue_placed]
    split
    · next hc => simp [hnone c hc, Ne.symm hm]
    · rfl

/-- What giving the computations of one file to a machine leaves. -/
theorem allocate_eq (h : ∀ c ∈ ids, c ∈ stored.persistedComputationCheckpointStatus) :
    allocateComputationToMachine state stored ids s loading =
      .ok ((bestMachine state.memoryUsage loading (bytesOfAll stored ids)).map
        fun machine => (s.placed ids machine, loading.insert machine
          (loadingOn loading machine + bytesOfAll stored ids))) := by
  unfold allocateComputationToMachine
  rw [foldlM_bytes fun c hc => h c (mem_ascending.1 hc)]
  show (match bestMachine state.memoryUsage loading (bytesOfAll stored ids) with
    | none => return none
    | some machine => return some _) = _
  cases bestMachine state.memoryUsage loading (bytesOfAll stored ids) <;> rfl

/-- The computations, grouped by their files. -/
theorem byFile_eq {ids : List ComputationId}
    (hfile : ∀ c ∈ ids, c ∈ stored.persistedComputationCheckpointAndFile) :
    ∃ byFile, persistedCompsToLoadByFile stored ids = .ok byFile ∧
      (∀ file c, c ∈ StdMap.get byFile file ↔ c ∈ ids ∧
        stored.persistedComputationCheckpointAndFile.lookup c = some file) ∧
      ∀ file, file ∈ byFile.keys ↔ ∃ c ∈ ids,
        stored.persistedComputationCheckpointAndFile.lookup c = some file := by
  have key : ∀ (rest pre : List ComputationId)
      (byFile : StdMap (CheckpointRequest ×ₗ Hash) (Finset ComputationId)),
      (∀ c ∈ rest, c ∈ stored.persistedComputationCheckpointAndFile) →
      (∀ file c, c ∈ StdMap.get byFile file ↔ c ∈ pre ∧
        stored.persistedComputationCheckpointAndFile.lookup c = some file) →
      (∀ file, file ∈ byFile.keys ↔ ∃ c ∈ pre,
        stored.persistedComputationCheckpointAndFile.lookup c = some file) →
      ∃ byFile', rest.foldlM (fun byFile computation => do
          let file ← fileOf stored computation
          return Finmap.insert file (insert computation (StdMap.get byFile file)) byFile) byFile = .ok byFile' ∧
        (∀ file c, c ∈ StdMap.get byFile' file ↔ c ∈ pre ++ rest ∧
          stored.persistedComputationCheckpointAndFile.lookup c = some file) ∧
        ∀ file, file ∈ byFile'.keys ↔ ∃ c ∈ pre ++ rest,
          stored.persistedComputationCheckpointAndFile.lookup c = some file := by
    intro rest
    induction rest with
    | nil =>
      intro pre byFile _ hget hkeys
      rw [append_nil]
      exact ⟨byFile, rfl, hget, hkeys⟩
    | cons c rest ih =>
      intro pre byFile hrest hget hkeys
      obtain ⟨file, hf⟩ := mem_keys_iff.1 (Finmap.mem_keys.2 (hrest c (.head rest)))
      have hc : fileOf stored c = .ok file := by
        unfold fileOf
        rw [hf]
      have hget₁ : ∀ file' d, d ∈ get (Finmap.insert file (insert c (get byFile file)) byFile)
          file' ↔ d ∈ pre ++ [c] ∧ stored.persistedComputationCheckpointAndFile.lookup d = some file' := by
        intro file' d
        rw [get_insert]
        split
        · rename_i he
          subst he
          rw [mem_insert, hget, mem_append, List.mem_singleton]
          constructor
          · rintro (rfl | hd)
            · exact ⟨.inr rfl, hf⟩
            · exact ⟨.inl hd.1, hd.2⟩
          · rintro ⟨hd | hd, hl⟩
            · exact .inr ⟨hd, hl⟩
            · exact .inl hd
        · rename_i he
          rw [hget, mem_append, List.mem_singleton]
          refine and_congr_left fun hl => (or_iff_left ?_).symm
          rintro rfl
          exact he (some.inj (hl.symm.trans hf))
      have hkeys₁ : ∀ file', file' ∈ (Finmap.insert file (insert c (get byFile file)) byFile).keys ↔
          ∃ d ∈ pre ++ [c], stored.persistedComputationCheckpointAndFile.lookup d = some file' := by
        intro file'
        rw [Finmap.mem_keys, Finmap.mem_insert, ← Finmap.mem_keys, hkeys]
        simp only [mem_append, List.mem_singleton, or_and_right, exists_or, exists_eq_left, hf, some_inj]
        rw [or_comm, eq_comm (a := file')]
      obtain ⟨byFile', hfold, hget', hkeys'⟩ := ih (pre ++ [c]) _ (fun d hd => hrest d (.tail c hd)) hget₁ hkeys₁
      rw [append_assoc] at hget' hkeys'
      refine ⟨byFile', ?_, hget', hkeys'⟩
      rw [foldlM_cons, hc]
      exact hfold
  exact key ids [] ∅ hfile (by simp) (by simp)

end

/-! ## All files -/

section
variable {state : AddDropSystemState} {stored : AddDropPersistedState}
  {s : AddDropSystemCalculations} {p : AddDropSystemCalculations × StdMap MachineId UInt64}
  {files : List (CheckpointRequest ×ₗ Hash)} {file : CheckpointRequest ×ₗ Hash} {machine : MachineId}
  {bytes : UInt64}

/-- What holds once the computations of some files are given to machines. -/
structure Placed (state : AddDropSystemState) (stored : AddDropPersistedState)
    (s : AddDropSystemCalculations) (files : List (CheckpointRequest ×ₗ Hash))
    (p : AddDropSystemCalculations × StdMap MachineId UInt64) : Prop where
  same : p.1 = s.withMachines p.1.persistedComputationsToLoad
  keys : ∀ c, p.1.persistedComputationsToLoad.hasKey c ↔ ∃ file ∈ files, c ∈ inFile stored s file
  oneMachine : ∀ file ∈ files, ∃ machine, ∀ c ∈ inFile stored s file,
    p.1.persistedComputationsToLoad.tryGetValue c = some machine
  loading : ∀ machine, (loadingOn p.2 machine).toNat =
    totalBytecount stored (p.1.persistedComputationsToLoad.getKeys machine)
  room : ∀ machine, (p.1.persistedComputationsToLoad.getKeys machine).Nonempty →
    totalBytecount stored (p.1.persistedComputationsToLoad.getKeys machine) <
      memoryLeft state.memoryUsage machine

section

variable (h : Placed state stored s files p)
include h

/-- A machine with at most one byte left loads nothing that counts. -/
theorem Placed.loading_eq_zero
    (hleft : memoryLeft state.memoryUsage machine ≤ 1) : loadingOn p.2 machine = 0 := by
  have hl := h.loading machine
  rw [← UInt64.toNat_inj, hl]
  rcases (p.1.persistedComputationsToLoad.getKeys machine).eq_empty_or_nonempty with he | hne
  · rw [he]
    rfl
  · have hroom := h.room machine hne
    exact lt_one_iff.1 (hroom.trans_le hleft)

variable (hcounts : CountsRight state.memoryUsage)
include hcounts

/-- Of the machine that is chosen, the memory left is computed right. -/
theorem Placed.remaining_eq (hb : bestMachine state.memoryUsage p.2 bytes = some machine) :
    (remainingOn state.memoryUsage machine).toNat = memoryLeft state.memoryUsage machine := by
  have hfits := fitsOn_bestMachine hb
  obtain ⟨usage, hu⟩ := mem_keys_iff.1 (mem_ascending.1 hfits.mem_keys)
  have hrem : remainingOn state.memoryUsage machine = bytesFor usage := by
    unfold remainingOn
    rw [hu]
    rfl
  have hleft : memoryLeft state.memoryUsage machine = bytesLeft usage := by
    unfold memoryLeft
    rw [hu]
    rfl
  rw [hrem, hleft]
  by_contra hne
  obtain ⟨hone, before, hlt, usage', hu', hone', hleft'⟩ := (hcounts machine usage hu).resolve_left hne
  -- the machine uses more than its limit, so it has got nothing yet, and the one before fits as well
  have hzero := bytesLeft_eq_zero hne
  have hload := @loading_eq_zero _ _ _ _ _ machine h (by omega)
  have hleft₁ : memoryLeft state.memoryUsage before = 1 := by
    unfold memoryLeft
    rw [hu']
    exact hleft'
  have hload' := h.loading_eq_zero hleft₁.le
  have hfits' : FitsOn state.memoryUsage p.2 bytes before := by
    unfold FitsOn at hfits ⊢
    rw [hrem, hone, hload] at hfits
    rw [hload']
    unfold remainingOn
    rw [hu']
    exact hfits.trans_eq hone'.symm
  have hless := (bestMachine_least hb hfits').2 hlt
  rw [hload', toDouble_eq_zero.2 rfl] at hless
  exact absurd hless (not_lt_zero _)

variable (hb : bestMachine state.memoryUsage p.2 (bytesOfAll stored (inFile stored s file)) =
  some machine)
include hb

/-- The chosen machine has room for the computations of the file. -/
theorem Placed.total_lt (hl : Loadable state stored s) :
    (loadingOn p.2 machine + bytesOfAll stored (inFile stored s file)).toNat =
        totalBytecount stored (p.1.persistedComputationsToLoad.getKeys machine) +
          totalBytecount stored (inFile stored s file) ∧
      totalBytecount stored (p.1.persistedComputationsToLoad.getKeys machine) +
          totalBytecount stored (inFile stored s file) <
        memoryLeft state.memoryUsage machine := by
  have hfits := fitsOn_bestMachine hb
  have hrem := h.remaining_eq hcounts hb
  unfold FitsOn at hfits
  rw [UInt64.lt_iff_toNat_lt, hrem] at hfits
  have hc := hl.counts file machine
  have hbytes := @bytesOfAll_toNat stored (inFile stored s file) (by omega)
  have hkeys : totalBytecount stored (p.1.persistedComputationsToLoad.getKeys machine) <
      memoryLeft state.memoryUsage machine := by
    rcases (p.1.persistedComputationsToLoad.getKeys machine).eq_empty_or_nonempty with he | hne
    · rw [he]
      exact zero_lt_of_lt hfits
    · exact h.room machine hne
  have hsum : (loadingOn p.2 machine + bytesOfAll stored (inFile stored s file)).toNat =
      totalBytecount stored (p.1.persistedComputationsToLoad.getKeys machine) +
        totalBytecount stored (inFile stored s file) := by
    rw [UInt64.toNat_add, h.loading machine, hbytes]
    omega
  exact ⟨hsum, hsum ▸ hfits⟩

/-- Giving the computations of one more file to a machine. -/
theorem Placed.allocate (hl : Loadable state stored s) (hnew : file ∉ files) :
    Placed state stored s (files ++ [file]) (p.1.placed (inFile stored s file) machine,
      p.2.insert machine (loadingOn p.2 machine + bytesOfAll stored (inFile stored s file))) := by
  obtain ⟨hsum, hlt⟩ := h.total_lt hcounts hb hl
  have hfresh : ∀ c ∈ inFile stored s file, ¬ p.1.persistedComputationsToLoad.hasKey c := by
    intro c hc hk
    obtain ⟨file', hf', hc'⟩ := (h.keys c).1 hk
    have he := (mem_filter.1 hc).2.symm.trans (mem_filter.1 hc').2
    exact hnew (some.inj he ▸ hf')
  have hdis : Disjoint (p.1.persistedComputationsToLoad.getKeys machine) (inFile stored s file) := by
    rw [Finset.disjoint_right]
    intro c hc hm
    exact hfresh c hc (hasKey_iff.2 ⟨machine, mem_getKeys.1 hm⟩)
  have htotal : totalBytecount stored (p.1.persistedComputationsToLoad.getKeys machine ∪
      inFile stored s file) =
      totalBytecount stored (p.1.persistedComputationsToLoad.getKeys machine) +
        totalBytecount stored (inFile stored s file) := sum_union hdis
  constructor
  · rw [h.same]
    rfl
  · intro c
    rw [hasKey_iff, tryGetValue_placed]
    split
    · next hc => exact iff_of_true ⟨machine, rfl⟩ ⟨file, by simp, hc⟩
    · rename_i hc
      rw [← hasKey_iff, h.keys]
      simp only [mem_append, List.mem_singleton, or_and_right, exists_or, exists_eq_left, hc, or_false]
  · intro file' hf'
    rcases mem_append.1 hf' with hf' | hf'
    · obtain ⟨m, hm⟩ := h.oneMachine file' hf'
      refine ⟨m, fun c hc => ?_⟩
      rw [tryGetValue_placed, if_neg fun hc' => hfresh c hc' ((h.keys c).2 ⟨file', hf', hc⟩)]
      exact hm c hc
    · rw [List.mem_singleton.1 hf']
      exact ⟨machine, fun c hc => by rw [tryGetValue_placed, if_pos hc]⟩
  · intro m
    rw [getKeys_placed hfresh]
    unfold loadingOn
    rw [lookup_insert]
    split
    · rename_i hm
      rw [hm, htotal, ← hsum]
      rfl
    · exact h.loading m
  · intro m
    rw [getKeys_placed hfresh]
    split
    · rename_i hm
      intro _
      rw [hm, htotal]
      exact hlt
    · exact h.room m

end

/-- Before any file. -/
theorem placed_nil (h : s.persistedComputationsToLoad = ∅) : Placed state stored s [] (s, ∅) where
  same := rfl
  keys c := by
    rw [hasKey_iff, h]
    simp
  oneMachine file hf := absurd hf not_mem_nil
  loading machine := by
    have hempty : s.persistedComputationsToLoad.getKeys machine = ∅ := by
      rw [h]
      rfl
    rw [hempty]
    rfl
  room machine hne := by
    rw [h] at hne
    exact absurd hne not_nonempty_empty

/-- One round of the loop over the files. -/
def allocateFile (state : AddDropSystemState) (stored : AddDropPersistedState)
    (byFile : StdMap (CheckpointRequest ×ₗ Hash) (Finset ComputationId))
    (allocated : Option (AddDropSystemCalculations × StdMap MachineId UInt64)) (file : CheckpointRequest ×ₗ Hash) :
    Except AllocationError (Option (AddDropSystemCalculations × StdMap MachineId UInt64)) :=
  match allocated with
  | none => return none
  | some (s, loading) =>
    allocateComputationToMachine state stored (byFile.get file) s loading

theorem allocateFiles_eq (byFile : StdMap (CheckpointRequest ×ₗ Hash) (Finset ComputationId)) :
    allocateFiles state stored byFile s = (do
      let allocated ← (ascending byFile.keys).foldlM (allocateFile state stored byFile) (some (s, ∅))
      return allocated.map Prod.fst) := rfl

/-- The loop over the files. -/
theorem Placed.allocateFiles (h : Placed state stored s files p)
    (hcounts : CountsRight state.memoryUsage) (hl : Loadable state stored s)
    {byFile : StdMap (CheckpointRequest ×ₗ Hash) (Finset ComputationId)}
    (hget : ∀ file, get byFile file = inFile stored s file)
    {rest : List (CheckpointRequest ×ₗ Hash)} (hnodup : (files ++ rest).Nodup) :
    ∃ r, rest.foldlM (allocateFile state stored byFile) (some p) = .ok r ∧
      ∀ q ∈ r, Placed state stored s (files ++ rest) q := by
  induction rest generalizing files p with
  | nil =>
    refine ⟨some p, rfl, fun q hq => ?_⟩
    rw [append_nil, ← mem_some_iff.1 hq]
    exact h
  | cons file rest ih =>
    have hcons : files ++ file :: rest = (files ++ [file]) ++ rest := by simp
    have hstatus : ∀ c ∈ inFile stored s file, c ∈ stored.persistedComputationCheckpointStatus := by
      intro c hc
      exact hl.status c (mem_filter.1 hc).1
    have hstep := @allocate_eq state _ p.1 _ p.2 hstatus
    rw [foldlM_cons]
    unfold allocateFile
    dsimp only
    rw [hget, hstep]
    cases hb : bestMachine state.memoryUsage p.2 (bytesOfAll stored (inFile stored s file)) with
    | none =>
      refine ⟨none, ?_, fun q hq => nomatch hq⟩
      have hnone : ∀ l : List (CheckpointRequest ×ₗ Hash),
          l.foldlM (allocateFile state stored byFile) none = .ok none := by
        intro l
        induction l with
        | nil => rfl
        | cons f l ih => exact ih
      exact hnone rest
    | some machine =>
      have hnew : file ∉ files := fun hm =>
        (nodup_append.1 hnodup).2.2 file hm file (.head rest) rfl
      rw [hcons] at hnodup ⊢
      exact ih (h.allocate hcounts hb hl hnew) hnodup

/-- Where the memory left is computed right, the computations are given to machines as they should be. -/
theorem allocates_of_countsRight (hcounts : CountsRight state.memoryUsage) (hl : Loadable state stored s) :
    ∃ s', s.allocatedPersistedComputationsToMachines state stored = .ok s' ∧
      Allocates state stored s s' := by
  obtain ⟨byFile, hby, hmem, hkeys⟩ := @byFile_eq stored
    (ascending s.persistedComputationsLoaded) fun c hc => hl.file c (mem_ascending.1 hc)
  have hget : ∀ file, get byFile file = inFile stored s file := by
    intro file
    unfold inFile
    ext c
    rw [hmem, mem_ascending, Finset.mem_filter]
  obtain ⟨r, hr, hplaced⟩ := @Placed.allocateFiles _ _ _ _ _ (@placed_nil state stored _ hl.fresh)
    hcounts hl _ hget (ascending byFile.keys) (ascending_nodup _)
  have hfiles : allocateFiles state stored byFile s = .ok (r.map Prod.fst) := by
    rw [allocateFiles_eq, hr]
    rfl
  have hrun : s.allocatedPersistedComputationsToMachines state stored = .ok ((r.map Prod.fst).getD s.wiped) := by
    unfold allocatedPersistedComputationsToMachines
    rw [hby]
    show (do
      return (← allocateFiles state stored byFile s).getD s.wiped) = _
    rw [hfiles]
    rfl
  refine ⟨_, hrun, ?_⟩
  cases r with
  | none =>
    refine ⟨fun machine hne => absurd hne not_nonempty_empty, fun file c hc => ?_, .inr rfl⟩
    exact absurd (Finset.mem_filter.1 hc).1 (notMem_empty c)
  | some q =>
    have hq := hplaced q rfl
    have hloaded : q.1.persistedComputationsLoaded = s.persistedComputationsLoaded := by
      rw [hq.same]
      rfl
    have hin : ∀ file, inFile stored q.1 file = inFile stored s file := by
      intro file
      unfold inFile
      rw [hloaded]
    refine ⟨hq.room, fun file c hc d hd => ?_, .inl ⟨hq.same, fun c => (hq.keys c).trans ?_⟩⟩
    · rw [map_some, getD_some, hin] at hc hd
      have hf : file ∈ [] ++ ascending byFile.keys := by
        obtain ⟨hcl, hcf⟩ := mem_filter.1 hc
        exact mem_ascending.2 ((hkeys file).2 ⟨c, mem_ascending.2 hcl, hcf⟩)
      obtain ⟨machine, hm⟩ := hq.oneMachine file hf
      exact (hm c hc).trans (hm d hd).symm
    · constructor
      · rintro ⟨file, -, hc⟩
        exact (mem_filter.1 hc).1
      · intro hc
        obtain ⟨file, hf⟩ := mem_keys_iff.1 (Finmap.mem_keys.2 (hl.file c hc))
        refine ⟨file, mem_ascending.2 ((hkeys file).2 ⟨c, mem_ascending.2 hc, hf⟩), ?_⟩
        exact mem_filter.2 ⟨hc, hf⟩

end

/-! ## Files of one computation each -/

section
variable {state : AddDropSystemState} {used : StdMap MachineId MemoryUsage}
  {loading bytesLoading' : StdMap MachineId UInt64} {sizes : List UInt64} {bytes : UInt64}
  {machine : MachineId}

/-- So many bytes are given to a machine: the loop over the files, for files of one computation each. -/
def place (used : StdMap MachineId MemoryUsage) (loading : StdMap MachineId UInt64)
    (bytes : UInt64) : Option (StdMap MachineId UInt64) :=
  (bestMachine used loading bytes).map fun machine =>
    loading.insert machine (loadingOn loading machine + bytes)

/-- A table of the first root computations. -/
def rootTable {α : Type} (n : ℕ) (f : ℕ → α) : StdMap ComputationId α :=
  (List.range n).foldl (fun m i => m.insert (.Root i) (f i)) ∅

theorem lookup_rootTable {α : Type} {n : ℕ} {f : ℕ → α} {c : ComputationId} {a : α} :
    (rootTable n f).lookup c = some a ↔ ∃ i < n, c = .Root i ∧ f i = a := by
  induction n with
  | zero => simp [rootTable]
  | succ n ih =>
    have hsucc : rootTable (n + 1) f = (rootTable n f).insert (.Root n) (f n) := by
      unfold rootTable
      rw [range_succ, foldl_append]
      rfl
    rw [hsucc, lookup_insert]
    split
    · rename_i hc
      subst hc
      constructor
      · intro h
        exact ⟨n, lt_succ_self n, rfl, some.inj h⟩
      · rintro ⟨i, -, hi, rfl⟩
        rw [ComputationId.Root.inj hi]
    · rename_i hc
      rw [ih]
      constructor
      · rintro ⟨i, hi, h⟩
        exact ⟨i, hi.trans (lt_succ_self n), h⟩
      · rintro ⟨i, hi, rfl, h⟩
        refine ⟨i, lt_of_le_of_ne (Nat.lt_succ_iff.1 hi) fun he => hc ?_, rfl, h⟩
        rw [he]

/-- The file of a root computation. -/
def rootFile (i : ℕ) : CheckpointRequest ×ₗ Hash := toLex (⟨0, false, 0⟩, i)

/-- Persisted root computations of the given sizes, each in its own file. -/
def persistedOf (sizes : List UInt64) : AddDropPersistedState where
  persistedComputationCheckpointStatus := rootTable sizes.length fun i => ⟨sizes.getD i 0⟩
  persistedComputationCheckpointAndFile := rootTable sizes.length rootFile

/-- The first root computations are to be loaded. -/
def loadedOf (n : ℕ) : AddDropSystemCalculations where
  persistedComputationsLoaded := (Finset.range n).image .Root

theorem rootFile_lt {i j : ℕ} : rootFile i < rootFile j ↔ i < j := by
  unfold rootFile
  rw [Prod.Lex.toLex_lt_toLex]
  simp

theorem rootFile_injective : Function.Injective rootFile := by
  intro i j h
  exact congrArg (fun p : CheckpointRequest ×ₗ Hash => (ofLex p).2) h

theorem bytecountOf_root {i : ℕ} (hi : i < sizes.length) :
    bytecountOf (persistedOf sizes) (.Root i) = sizes.getD i 0 := by
  have hl : (persistedOf sizes).persistedComputationCheckpointStatus.lookup (.Root i) =
      some ⟨sizes.getD i 0⟩ := lookup_rootTable.2 ⟨i, hi, rfl, rfl⟩
  unfold bytecountOf
  rw [hl]
  rfl

theorem mem_inFile_root {file : CheckpointRequest ×ₗ Hash} {c : ComputationId} :
    c ∈ inFile (persistedOf sizes) (loadedOf sizes.length) file ↔
      ∃ i < sizes.length, c = .Root i ∧ rootFile i = file := by
  unfold inFile
  rw [Finset.mem_filter, show (persistedOf sizes).persistedComputationCheckpointAndFile.lookup c =
    some file ↔ _ from lookup_rootTable]
  refine and_iff_right_of_imp ?_
  rintro ⟨i, hi, rfl, -⟩
  exact mem_image.2 ⟨i, Finset.mem_range.2 hi, rfl⟩

theorem inFile_root {i : ℕ} (hi : i < sizes.length) :
    inFile (persistedOf sizes) (loadedOf sizes.length) (rootFile i) = {.Root i} := by
  ext c
  rw [mem_inFile_root, Finset.mem_singleton]
  constructor
  · rintro ⟨j, -, rfl, hf⟩
    rw [rootFile_injective hf]
  · rintro rfl
    exact ⟨i, hi, rfl, rfl⟩

theorem bytesOfAll_root {i : ℕ} (hi : i < sizes.length) : bytesOfAll (persistedOf sizes) {.Root i} =
    sizes.getD i 0 := by
  have ha : ascending ({.Root i} : Finset ComputationId) = [.Root i] := by
    have := length_ascending ({.Root i} : Finset ComputationId)
    obtain ⟨c, hc⟩ := length_eq_one_iff.1 (this.trans (card_singleton _))
    have hm : c ∈ ascending ({.Root i} : Finset ComputationId) := hc ▸ .head _
    rw [hc, Finset.mem_singleton.1 (mem_ascending.1 hm)]
  unfold bytesOfAll
  rw [ha, foldl_cons, foldl_nil, bytecountOf_root hi]
  exact UInt64.zero_add _

theorem loadable_files (sizes : List UInt64) : ∀ c ∈ (loadedOf sizes.length).persistedComputationsLoaded,
      c ∈ (persistedOf sizes).persistedComputationCheckpointAndFile := by
  intro c hc
  obtain ⟨i, hi, rfl⟩ := mem_image.1 hc
  exact Finmap.mem_keys.1 (mem_keys_iff.2 ⟨_, lookup_rootTable.2 ⟨i, Finset.mem_range.1 hi, rfl, rfl⟩⟩)

/-- Small computations are loadable. -/
theorem loadable_root (state : AddDropSystemState) (hsmall : ∀ i, (sizes.getD i 0).toNat ≤ 1) :
    Loadable state (persistedOf sizes) (loadedOf sizes.length) where
  fresh := rfl
  status c hc := by
    obtain ⟨i, hi, rfl⟩ := mem_image.1 hc
    exact Finmap.mem_keys.1 (mem_keys_iff.2 ⟨_, lookup_rootTable.2 ⟨i, Finset.mem_range.1 hi, rfl, rfl⟩⟩)
  file := loadable_files sizes
  counts file machine := by
    have hleft : memoryLeft state.memoryUsage machine < 2 ^ 64 := by
      unfold memoryLeft
      cases state.memoryUsage.lookup machine with
      | none => exact Nat.two_pow_pos 64
      | some usage => exact (sub_le _ _).trans_lt (UInt64.toNat_lt _)
    have hfile : totalBytecount (persistedOf sizes)
        (inFile (persistedOf sizes) (loadedOf sizes.length) file) ≤ 1 := by
      rcases (inFile (persistedOf sizes) (loadedOf sizes.length) file).eq_empty_or_nonempty with he | ⟨c, hc⟩
      · rw [he]
        exact zero_le _
      · obtain ⟨i, hi, -, rfl⟩ := mem_inFile_root.1 hc
        rw [inFile_root hi]
        unfold totalBytecount
        rw [Finset.sum_singleton, bytecountOf_root hi]
        exact hsmall i
    omega

section
variable {byFile : StdMap (CheckpointRequest ×ₗ Hash) (Finset ComputationId)}
  (hget : ∀ file, get byFile file = inFile (persistedOf sizes) (loadedOf sizes.length) file)

include hget

/-- One file. -/
theorem allocateFile_root {i : ℕ} (hi : i < sizes.length) (t : AddDropSystemCalculations)
    (hb : bestMachine state.memoryUsage loading (sizes.getD i 0) = some machine) :
    allocateFile state (persistedOf sizes) byFile (some (t, loading)) (rootFile i) =
      .ok (some (t.placed {.Root i} machine,
        loading.insert machine (loadingOn loading machine + sizes.getD i 0))) := by
  have hstatus : ∀ c ∈ ({.Root i} : Finset ComputationId),
      c ∈ (persistedOf sizes).persistedComputationCheckpointStatus := by
    intro c hc
    rw [Finset.mem_singleton.1 hc]
    exact Finmap.mem_keys.1 (mem_keys_iff.2 ⟨_, lookup_rootTable.2 ⟨i, hi, rfl, rfl⟩⟩)
  have hstep := @allocate_eq state _ t _ loading hstatus
  rw [bytesOfAll_root hi, hb] at hstep
  unfold allocateFile
  dsimp only
  rw [hget, inFile_root hi, hstep]
  rfl

/-- The loop over the first files. -/
theorem foldlM_root {k : ℕ} (hk : k ≤ sizes.length)
    (hrun : run (place state.memoryUsage) ∅ (sizes.take k) = some loading) :
    ∃ t, ((List.range k).map rootFile).foldlM (allocateFile state (persistedOf sizes) byFile)
      (some (loadedOf sizes.length, ∅)) = .ok (some (t, loading)) := by
  induction k generalizing loading with
  | zero =>
    rw [take_zero, run_nil] at hrun
    rw [← some.inj hrun]
    exact ⟨_, rfl⟩
  | succ k ih =>
    have hlt : k < sizes.length := hk
    have hsize : sizes.getD k 0 = sizes[k] := by simp [List.getD, hlt]
    rw [take_succ_eq_append_getElem hlt, run_concat, ← hsize] at hrun
    obtain ⟨before, hbefore, hplace⟩ := bind_eq_some_iff.1 hrun
    obtain ⟨t, ht⟩ := ih hlt.le hbefore
    obtain ⟨m, hm, rfl⟩ := map_eq_some_iff.1 hplace
    refine ⟨t.placed {.Root k} m, ?_⟩
    rw [range_succ, map_append, foldlM_append, ht]
    show allocateFile state (persistedOf sizes) byFile (some (t, before)) (rootFile k) >>= pure = _
    rw [allocateFile_root hget hlt t hm]
    rfl

end

/-- Where the last of some files goes to a machine with no memory left, the computations are not given to
machines as they should be. -/
theorem not_allocates (hrun : run (place state.memoryUsage) ∅ sizes = some loading)
    (hb : bestMachine state.memoryUsage loading bytes = some machine)
    (hleft : memoryLeft state.memoryUsage machine = 0) :
    ¬ ∃ s', (loadedOf (sizes.length + 1)).allocatedPersistedComputationsToMachines state
        (persistedOf (sizes ++ [bytes])) = .ok s' ∧
      Allocates state (persistedOf (sizes ++ [bytes])) (loadedOf (sizes.length + 1)) s' := by
  have hlen : (sizes ++ [bytes]).length = sizes.length + 1 := by simp
  have hlt : sizes.length < (sizes ++ [bytes]).length := by simp
  rw [← hlen]
  have hload := loadable_files (sizes ++ [bytes])
  obtain ⟨byFile, hby, hmem, hkeys⟩ := @byFile_eq (persistedOf (sizes ++ [bytes]))
    (ascending (loadedOf (sizes ++ [bytes]).length).persistedComputationsLoaded)
    fun c hc => hload c (mem_ascending.1 hc)
  have hget : ∀ file, get byFile file =
      inFile (persistedOf (sizes ++ [bytes])) (loadedOf (sizes ++ [bytes]).length) file := by
    intro file
    unfold inFile
    ext c
    rw [hmem, mem_ascending, Finset.mem_filter]
  have hasc : ascending byFile.keys = (List.range (sizes.length + 1)).map rootFile := by
    refine List.Perm.eq_of_pairwise (fun _ _ _ _ hlt hgt => absurd hgt (lt_asymm hlt))
      (strictlyAscending _) ?_ ((perm_ext_iff_of_nodup (ascending_nodup _) ?_).2 fun file => ?_)
    · exact pairwise_map.2 (pairwise_lt_range.imp rootFile_lt.2)
    · exact nodup_range.map rootFile_injective
    · rw [mem_ascending, hkeys, List.mem_map]
      constructor
      · rintro ⟨c, hc, hf⟩
        obtain ⟨i, hi, -, rfl⟩ := lookup_rootTable.1 hf
        exact ⟨i, List.mem_range.2 (hlen ▸ hi), rfl⟩
      · rintro ⟨i, hi, rfl⟩
        have hi' : i < (sizes ++ [bytes]).length := hlen ▸ List.mem_range.1 hi
        exact ⟨.Root i, mem_ascending.2 (mem_image.2 ⟨i, Finset.mem_range.2 hi', rfl⟩),
          lookup_rootTable.2 ⟨i, hi', rfl, rfl⟩⟩
  have htake : run (place state.memoryUsage) ∅ ((sizes ++ [bytes]).take sizes.length) =
      some loading := by rw [take_left, hrun]
  have hsize : (sizes ++ [bytes]).getD sizes.length 0 = bytes := by simp
  obtain ⟨t, ht⟩ := foldlM_root hget hlt.le htake
  have hlast := @allocateFile_root state loading _ machine _ hget _ hlt t (hsize.symm ▸ hb)
  have hfiles : allocateFiles state (persistedOf (sizes ++ [bytes])) byFile
      (loadedOf (sizes ++ [bytes]).length) = .ok (some (t.placed {.Root sizes.length} machine)) := by
    rw [allocateFiles_eq, hasc, range_succ, map_append, foldlM_append, ht]
    show ((allocateFile state (persistedOf (sizes ++ [bytes])) byFile (some (t, loading))
      (rootFile sizes.length) >>= pure) >>= _) = _
    rw [hlast]
    rfl
  rintro ⟨s', hs', hallocates⟩
  unfold allocatedPersistedComputationsToMachines at hs'
  rw [hby] at hs'
  change (do
    return (← allocateFiles state (persistedOf (sizes ++ [bytes])) byFile
      (loadedOf (sizes ++ [bytes]).length)).getD _) = _ at hs'
  rw [hfiles] at hs'
  cases hs'
  have hmem : ComputationId.Root sizes.length ∈ (t.placed {.Root sizes.length} machine
      ).persistedComputationsToLoad.getKeys machine := by
    rw [mem_getKeys, tryGetValue_placed, if_pos (Finset.mem_singleton_self _)]
  have hroom := hallocates.room machine ⟨_, hmem⟩
  rw [hleft] at hroom
  exact not_lt_zero _ hroom

/-! ## The files that show a wrong count -/

theorem loadingOn_insert {machine' : MachineId} : loadingOn (loading.insert machine bytes) machine' =
    if machine' = machine then bytes else loadingOn loading machine' := by
  unfold loadingOn
  rw [lookup_insert]
  split <;> rfl

/-- A machine that loads nothing is chosen before those that load something. -/
theorem loadingOn_bestMachine (hb : bestMachine used loading bytes = some machine)
    {machine' : MachineId} (hf : FitsOn used loading bytes machine')
    (hzero : loadingOn loading machine' = 0) : loadingOn loading machine = 0 := by
  have hle := (bestMachine_least hb hf).1
  rw [hzero, toDouble_eq_zero.2 rfl] at hle
  exact toDouble_eq_zero.1 (le_zero.1 hle)

/-- Files of one byte go to one machine after the other that has more than a byte left, as far as the code
sees, unless one of them goes to a machine with no memory left. -/
theorem exists_loadUp (hleft : ∀ m, loadingOn loading m ≠ 0 → memoryLeft used m ≠ 0) :
    ∃ sizes bytesLoading', (∀ b ∈ sizes, b = 1) ∧ run (place used) loading sizes = some bytesLoading' ∧
      ((∃ m, bestMachine used bytesLoading' 1 = some m ∧ memoryLeft used m = 0) ∨
        ((∀ m, 1 < remainingOn used m → loadingOn bytesLoading' m ≠ 0) ∧
          ∀ m, loadingOn bytesLoading' m ≠ 0 → memoryLeft used m ≠ 0)) := by
  induction hn : (used.keys.filter fun m => loadingOn loading m = 0).card
    using Nat.strong_induction_on generalizing loading with
  | _ n ih =>
    by_cases hall : ∀ m, 1 < remainingOn used m → loadingOn loading m ≠ 0
    · exact ⟨[], loading, fun b hb => absurd hb not_mem_nil, rfl, .inr ⟨hall, hleft⟩⟩
    simp only [not_forall, not_not] at hall
    obtain ⟨m, hm, hzero⟩ := hall
    have hfits : FitsOn used loading 1 m := by
      unfold FitsOn
      rw [hzero, UInt64.zero_add]
      exact hm
    obtain ⟨best, hb⟩ := exists_bestMachine hfits
    have hbest := loadingOn_bestMachine hb hfits hzero
    by_cases hno : memoryLeft used best = 0
    · exact ⟨[], loading, fun b hb => absurd hb not_mem_nil, rfl, .inl ⟨best, hb, hno⟩⟩
    have hplace : place used loading 1 = some (loading.insert best 1) := by
      unfold place
      rw [hb, map_some, hbest, UInt64.zero_add]
    have hone : (1 : UInt64) ≠ 0 := by decide
    have hfewer : (used.keys.filter fun m => loadingOn (loading.insert best 1) m = 0).card < n := by
      rw [← hn]
      refine card_lt_card (Finset.ssubset_iff_subset_ne.2 ⟨fun x hx => ?_, fun he => ?_⟩)
      · obtain ⟨hk, hx⟩ := Finset.mem_filter.1 hx
        rw [loadingOn_insert] at hx
        split at hx
        · exact absurd hx hone
        · exact mem_filter.2 ⟨hk, hx⟩
      · have hmem : best ∈ used.keys.filter fun m => loadingOn loading m = 0 :=
          mem_filter.2 ⟨mem_ascending.1 (fitsOn_bestMachine hb).mem_keys, hbest⟩
        rw [← he, Finset.mem_filter, loadingOn_insert, if_pos rfl] at hmem
        exact hone hmem.2
    have hleft' : ∀ m, loadingOn (loading.insert best 1) m ≠ 0 → memoryLeft used m ≠ 0 := by
      intro x hx
      rw [loadingOn_insert] at hx
      split at hx
      · next he => exact he ▸ hno
      · exact hleft x hx
    obtain ⟨sizes, bytesLoading', hsizes, hrun, hend⟩ := ih _ hfewer hleft' rfl
    refine ⟨1 :: sizes, bytesLoading', forall_mem_cons.2 ⟨rfl, hsizes⟩, ?_, hend⟩
    rw [run_cons, hplace]
    exact hrun

/-- Where the memory left is not computed right, some files go wrong. -/
theorem exists_wrong (h : ¬ CountsRight used) :
    ∃ sizes loading bytes m, (∀ b ∈ sizes, b = 1) ∧ bytes.toNat ≤ 1 ∧
      run (place used) ∅ sizes = some loading ∧
      bestMachine used loading bytes = some m ∧ memoryLeft used m = 0 := by
  have hstart : ∀ m, loadingOn ∅ m ≠ 0 → memoryLeft used m ≠ 0 := fun m hm => absurd rfl hm
  obtain ⟨sizes, loading, hsizes, hrun, ⟨m, hm, hleft⟩ | ⟨hloaded, hroom⟩⟩ := exists_loadUp hstart
  · exact ⟨sizes, loading, 1, m, hsizes, le_rfl, hrun, hm, hleft⟩
  unfold CountsRight at h
  simp only [not_forall, not_or] at h
  obtain ⟨wrong, usage, hu, hne, hbefore⟩ := h
  have hzero := bytesLeft_eq_zero hne
  have hleft : memoryLeft used wrong = 0 := by
    unfold memoryLeft
    rw [hu]
    exact hzero
  have hrem : remainingOn used wrong = bytesFor usage := by
    unfold remainingOn
    rw [hu]
    rfl
  have hload : loadingOn loading wrong = 0 := by
    by_contra hl
    exact hroom wrong hl hleft
  -- no byte fits on the machine, so exactly an empty file does
  have hone : bytesFor usage = 1 := by
    have hle : ¬ 1 < bytesFor usage := fun hlt => hloaded wrong (hrem ▸ hlt) hload
    rw [hzero] at hne
    rw [UInt64.lt_iff_toNat_lt, UInt64.toNat_one] at hle
    rw [← UInt64.toNat_inj, UInt64.toNat_one]
    omega
  have hfits : FitsOn used loading 0 wrong := by
    unfold FitsOn
    rw [hload, hrem, hone]
    decide
  obtain ⟨best, hb⟩ := exists_bestMachine hfits
  refine ⟨sizes, loading, 0, best, hsizes, zero_le _, hrun, hb, ?_⟩
  by_contra hbest
  have hbload := loadingOn_bestMachine hb hfits hload
  have hbfits := fitsOn_bestMachine hb
  obtain ⟨usage', hu'⟩ := mem_keys_iff.1 (mem_ascending.1 hbfits.mem_keys)
  have hrem' : remainingOn used best = bytesFor usage' := by
    unfold remainingOn
    rw [hu']
    rfl
  have hleft' : memoryLeft used best = bytesLeft usage' := by
    unfold memoryLeft
    rw [hu']
    rfl
  have hright : (bytesFor usage').toNat = bytesLeft usage' := by
    by_contra hne'
    exact hbest (hleft'.trans (bytesLeft_eq_zero hne'))
  have hone' : bytesFor usage' = 1 := by
    have hle : ¬ 1 < bytesFor usage' := fun hlt => hloaded best (hrem' ▸ hlt) hbload
    rw [hleft'] at hbest
    rw [UInt64.lt_iff_toNat_lt, UInt64.toNat_one] at hle
    rw [← UInt64.toNat_inj, UInt64.toNat_one]
    omega
  rcases lt_trichotomy best wrong with hlt | rfl | hlt
  · refine hbefore ⟨hone, best, hlt, usage', hu', hone', ?_⟩
    rw [← hright, hone']
    rfl
  · exact hbest hleft
  · have hless := (bestMachine_least hb hfits).2 hlt
    rw [hload, toDouble_eq_zero.2 rfl] at hless
    exact absurd hless (not_lt_zero _)

end

/-! ## Every memory usage -/

/-- The computations that are to be loaded are given to machines as they should be, whatever they are, exactly
where the memory left is computed right. -/
theorem allocates_iff (state : AddDropSystemState) : (∀ stored s, Loadable state stored s →
      ∃ s', s.allocatedPersistedComputationsToMachines state stored = .ok s' ∧
        Allocates state stored s s') ↔ CountsRight state.memoryUsage := by
  constructor
  · intro h
    by_contra hcounts
    obtain ⟨sizes, loading, bytes, machine, hsizes, hbytes, hrun, hb, hleft⟩ := exists_wrong hcounts
    have hlen : (sizes ++ [bytes]).length = sizes.length + 1 := by simp
    have hsmall : ∀ i, ((sizes ++ [bytes]).getD i 0).toNat ≤ 1 := by
      intro i
      rcases lt_or_ge i (sizes ++ [bytes]).length with hi | hi
      · have hmem : (sizes ++ [bytes]).getD i 0 ∈ sizes ++ [bytes] := by
          rw [List.getD, getElem?_eq_getElem hi]
          exact getElem_mem hi
        rcases mem_append.1 hmem with hm | hm
        · rw [hsizes _ hm]
          exact le_rfl
        · rw [List.mem_singleton.1 hm]
          exact hbytes
      · rw [List.getD, getElem?_eq_none hi]
        exact zero_le 1
    have hload := loadable_root state hsmall
    rw [hlen] at hload
    exact not_allocates hrun hb hleft (h _ _ hload)
  · intro hcounts stored s hl
    exact allocates_of_countsRight hcounts hl

/-- A machine that uses 20 bytes and may use 10. -/
def overLimit : AddDropSystemState where
  memoryUsage := (∅ : StdMap MachineId MemoryUsage).insert ⟨1⟩
    { bytesUsedByContextsExcludingPagelets := 20, maxMemoryAvailable := 10 }

/-- A computation of one byte is given to the machine, which has no memory left. -/
theorem not_allocates_overLimit : Loadable overLimit (persistedOf [1]) (loadedOf 1) ∧
    ¬ ∃ s', (loadedOf 1).allocatedPersistedComputationsToMachines overLimit (persistedOf [1]) = .ok s' ∧
      Allocates overLimit (persistedOf [1]) (loadedOf 1) s' := by
  refine ⟨@loadable_root [1] overLimit fun i => ?_, @not_allocates overLimit ∅ [] _ ⟨1⟩ rfl
    (by decide +kernel) (by decide +kernel)⟩
  cases i with
  | zero => exact le_rfl
  | succ i => exact zero_le 1

end Cumulus.AddDropSystemCalculations
