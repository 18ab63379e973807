import Ufora.Memory.ByteRanges
import Ufora.Lib.Effect
import Ufora.Lib.Run

/-!
# `LargeMemoryBlockTracker`

`FORA/VectorDataManager/LargeMemoryBlockTracker.hppml`: large blocks of memory, in ranges that are used and
ranges that are not. In every run the used and the unused addresses are those of the memory that was added and
not released, no address is both, and no two unused ranges touch (`tracked_and_answers`).
-/

open Ordered Effect Finset ByteRanges False

/-- A `LargeMemoryBlockTracker`. -/
structure LargeMemoryBlockTracker where
  mBytesUsed : ℤ := 0
  mBytesUnused : ℤ := 0
  mUsedBlocks : ByteRanges := {}
  mUnusedBlocks : ByteRanges := {}

namespace LargeMemoryBlockTracker

/-- The assertions that fail. `recursionLimit` stands for a loop that does not end. -/
inductive TrackerError where
  | nullBase
  | notContained
  | recursionLimit

/-- A member function. -/
abbrev Call := EStateM TrackerError LargeMemoryBlockTracker

variable (base : ℕ) (inBytes : ℕ)

/-- `addUnusedBytes(base, inBytes)`. -/
def addUnusedBytes : Call Unit := do
  lassert (base ≠ 0) .nullBase
  modify fun s => { s with
    mUnusedBlocks := s.mUnusedBlocks.addRange base inBytes
    mBytesUnused := s.mBytesUnused + inBytes }

/-- `addUsedBytes(base, inBytes)`. -/
def addUsedBytes : Call Unit := do
  lassert (base ≠ 0) .nullBase
  modify fun s => { s with
    mUsedBlocks := s.mUsedBlocks.addRange base inBytes
    mBytesUsed := s.mBytesUsed + inBytes }

/-- `useRange(base, inBytes)`. -/
def useRange : Call Unit := do
  lassert ((← get).mUnusedBlocks.containsRangeEntirely base inBytes) .notContained
  modify fun s => { s with
    mUnusedBlocks := s.mUnusedBlocks.dropRange base inBytes
    mUsedBlocks := s.mUsedBlocks.addRange base inBytes
    mBytesUsed := s.mBytesUsed + inBytes
    mBytesUnused := s.mBytesUnused - inBytes }

/-- `stopUsingRange(base, inBytes)`. -/
def stopUsingRange : Call Unit := do
  lassert ((← get).mUsedBlocks.containsRangeEntirely base inBytes) .notContained
  modify fun s => { s with
    mBytesUnused := s.mBytesUnused + inBytes
    mBytesUsed := s.mBytesUsed - inBytes
    mUsedBlocks := s.mUsedBlocks.dropRange base inBytes
    mUnusedBlocks := s.mUnusedBlocks.addRange base inBytes }

/-- `allocateBytes(inBytes)`: the smallest range that could hold the bytes, or `nullptr`. -/
def allocateBytes : Call (Option ℕ) := do
  match (← get).mUnusedBlocks.lowerBound inBytes with
  | some base =>
    useRange base inBytes
    return some base
  | none => return none

/-- `deallocateBytes(base, inBytes)`. -/
def deallocateBytes : Call Unit := stopUsingRange base inBytes

/-- The loop of `deallocateAllUsedRanges`. -/
def deallocateRanges : ℕ → Call Unit
  | 0 => throw .recursionLimit
  | limit + 1 => do
    match (← get).mUsedBlocks.smallestBlock with
    | some range =>
      deallocateBytes range.1 range.2
      deallocateRanges limit
    | none => return

/-- `deallocateAllUsedRanges()`. -/
def deallocateAllUsedRanges : Call Unit := do
  deallocateRanges ((← get).mUsedBlocks.mBlocks.size + 1)

/-- `unusedBytesReleasedToOS(base, inBytes)`. -/
def unusedBytesReleasedToOS : Call Unit := do
  lassert ((← get).mUnusedBlocks.containsRangeEntirely base inBytes) .notContained
  modify fun s => { s with
    mUnusedBlocks := s.mUnusedBlocks.dropRange base inBytes
    mBytesUnused := s.mBytesUnused - inBytes }

/-- `rangeContaining(ptr)`. -/
def rangeContaining (s : LargeMemoryBlockTracker) (ptr : ℕ) : ℕ × ℕ :=
  if (s.mUsedBlocks.rangeContaining ptr).1 ≠ 0 then s.mUsedBlocks.rangeContaining ptr
  else s.mUnusedBlocks.rangeContaining ptr

/-- `validateUsedBytecount()` and `validateUnusedBytecount()`: the ranges are found by their bases, and their
sizes add up to the total. -/
def validateBytecount (s : LargeMemoryBlockTracker) (blocks : ByteRanges) (total : ℤ) : Prop :=
  (∀ k n, blocks.mBlocks.tryGetValue k = some n → s.rangeContaining k = (k, n)) ∧
    ((∑ k ∈ blocks.mBlocks.mKeyToValue.keys, blocks.mBlocks.mKeyToValue.get k : ℕ) : ℤ) = total

/-- `validateState()`. -/
def validateState (s : LargeMemoryBlockTracker) : Prop :=
  s.validateBytecount s.mUsedBlocks s.mBytesUsed ∧ s.validateBytecount s.mUnusedBlocks s.mBytesUnused ∧
    ∀ k n k' n', s.mUnusedBlocks.mBlocks.tryGetValue k = some n →
      s.mUnusedBlocks.mBlocks.tryGetValue k' = some n' → k < k' → k + n < k'

/-! ## Runs -/

/-- A tracker, with the memory that was added to it and not released. -/
structure System where
  tracker : LargeMemoryBlockTracker := {}
  memory : Finset ℕ := ∅

/-- The calls. -/
inductive Op where
  | addUnusedBytes (base inBytes : ℕ)
  | addUsedBytes (base inBytes : ℕ)
  | allocateBytes (inBytes : ℕ)
  | deallocateBytes (base inBytes : ℕ)
  | unusedBytesReleasedToOS (base inBytes : ℕ)
  | deallocateAllUsedRanges

/-- What the callers see to: memory is added once, sizes are positive, and ranges are given back that are in
use and released that are not. -/
def Op.Sensible (s : System) : Op → Prop
  | .addUnusedBytes base inBytes | .addUsedBytes base inBytes =>
    0 < inBytes ∧ Disjoint (Ico base (base + inBytes)) s.memory
  | .allocateBytes inBytes => 0 < inBytes
  | .deallocateBytes base inBytes =>
    0 < inBytes ∧ Ico base (base + inBytes) ⊆ s.tracker.mUsedBlocks.addresses
  | .unusedBytesReleasedToOS base inBytes =>
    0 < inBytes ∧ Ico base (base + inBytes) ⊆ s.tracker.mUnusedBlocks.addresses
  | .deallocateAllUsedRanges => True

instance (s : System) : ∀ op : Op, Decidable (op.Sensible s)
  | .addUnusedBytes _ _ | .addUsedBytes _ _ => inferInstanceAs (Decidable (_ ∧ _))
  | .allocateBytes inBytes => inferInstanceAs (Decidable (0 < inBytes))
  | .deallocateBytes _ _ | .unusedBytesReleasedToOS _ _ => inferInstanceAs (Decidable (_ ∧ _))
  | .deallocateAllUsedRanges => .isTrue trivial

/-- A call. -/
def Op.call : Op → Call Unit
  | .addUnusedBytes base inBytes => LargeMemoryBlockTracker.addUnusedBytes base inBytes
  | .addUsedBytes base inBytes => LargeMemoryBlockTracker.addUsedBytes base inBytes
  | .allocateBytes inBytes => do let _ ← LargeMemoryBlockTracker.allocateBytes inBytes
  | .deallocateBytes base inBytes => LargeMemoryBlockTracker.deallocateBytes base inBytes
  | .unusedBytesReleasedToOS base inBytes => LargeMemoryBlockTracker.unusedBytesReleasedToOS base inBytes
  | .deallocateAllUsedRanges => LargeMemoryBlockTracker.deallocateAllUsedRanges

/-- The memory after a call. The null pointer is refused. -/
def Op.memory (memory : Finset ℕ) : Op → Finset ℕ
  | .addUnusedBytes base inBytes | .addUsedBytes base inBytes =>
    if base = 0 then memory else memory ∪ Ico base (base + inBytes)
  | .unusedBytesReleasedToOS base inBytes => memory \ Ico base (base + inBytes)
  | _ => memory

/-- One call of callers that see to it. -/
def step (s : System) (op : Op) : Option System :=
  if op.Sensible s then some ⟨exec op.call s.tracker, op.memory s.memory⟩ else none

/-! ## What is tracked -/

/-- Used and unused addresses are apart and are those of the memory, there are as many as the totals say, no
two unused ranges touch, and the assertions of `validateState` hold. -/
structure Tracked (s : System) : Prop where
  disjoint : Disjoint s.tracker.mUsedBlocks.addresses s.tracker.mUnusedBlocks.addresses
  union : s.tracker.mUsedBlocks.addresses ∪ s.tracker.mUnusedBlocks.addresses = s.memory
  bytesUsed : s.tracker.mBytesUsed = s.tracker.mUsedBlocks.addresses.card
  bytesUnused : s.tracker.mBytesUnused = s.tracker.mUnusedBlocks.addresses.card
  apart : ∀ k n k' n', s.tracker.mUnusedBlocks.mBlocks.tryGetValue k = some n →
    s.tracker.mUnusedBlocks.mBlocks.tryGetValue k' = some n' → k + n ≠ k'
  valid : s.tracker.validateState

/-- A call returns, unless it is given the null pointer to add. `allocateBytes` returns bytes that were not
used, or finds that no so many addresses side by side are unused; `deallocateAllUsedRanges` leaves none used. -/
def Op.Answers (s : System) : Op → Prop
  | .addUnusedBytes base inBytes => base ≠ 0 →
    wp (LargeMemoryBlockTracker.addUnusedBytes base inBytes) (fun _ _ => True) (fun _ _ => False) s.tracker
  | .addUsedBytes base inBytes => base ≠ 0 →
    wp (LargeMemoryBlockTracker.addUsedBytes base inBytes) (fun _ _ => True) (fun _ _ => False) s.tracker
  | .allocateBytes inBytes =>
    wp (LargeMemoryBlockTracker.allocateBytes inBytes) (fun
      | some base, tracker => Ico base (base + inBytes) ⊆ s.tracker.mUnusedBlocks.addresses ∧
        Disjoint (Ico base (base + inBytes)) s.tracker.mUsedBlocks.addresses ∧
        tracker.mUsedBlocks.addresses = s.tracker.mUsedBlocks.addresses ∪ Ico base (base + inBytes)
      | none, _ => ∀ base, ¬ Ico base (base + inBytes) ⊆ s.tracker.mUnusedBlocks.addresses)
      (fun _ _ => False) s.tracker
  | .deallocateAllUsedRanges =>
    wp LargeMemoryBlockTracker.deallocateAllUsedRanges (fun _ tracker => tracker.mUsedBlocks.addresses = ∅)
      (fun _ _ => False) s.tracker
  | op => wp op.call (fun _ _ => True) (fun _ _ => False) s.tracker

/-- Between two calls, for the memory `memory`. -/
structure Tidy (memory : Finset ℕ) (s : LargeMemoryBlockTracker) : Prop where
  used : s.mUsedBlocks.Tidy
  unused : s.mUnusedBlocks.Tidy
  disjoint : Disjoint s.mUsedBlocks.addresses s.mUnusedBlocks.addresses
  union : s.mUsedBlocks.addresses ∪ s.mUnusedBlocks.addresses = memory
  bytesUsed : s.mBytesUsed = s.mUsedBlocks.addresses.card
  bytesUnused : s.mBytesUnused = s.mUnusedBlocks.addresses.card

variable {memory : Finset ℕ} {s : LargeMemoryBlockTracker} {base inBytes}

theorem Tidy.used_subset (h : Tidy memory s) : s.mUsedBlocks.addresses ⊆ memory := h.union ▸ subset_union_left

theorem Tidy.unused_subset (h : Tidy memory s) : s.mUnusedBlocks.addresses ⊆ memory := h.union ▸ subset_union_right

theorem Tidy.tracked {s : System} (h : Tidy s.memory s.tracker) : Tracked s where
  disjoint := h.disjoint
  union := h.union
  bytesUsed := h.bytesUsed
  bytesUnused := h.bytesUnused
  apart k n k' n' hk hk' he := by
    have hpos := h.unused.pos hk
    have := h.unused.lt_of_lt hk hk' (by omega)
    omega
  valid := by
    have hmem : ∀ {b : ByteRanges}, b.Tidy → ∀ {k n}, b.mBlocks.tryGetValue k = some n → k ∈ b.addresses := by
      intro b hb k n hk
      have hpos := hb.pos hk
      exact mem_addresses.2 ⟨k, n, hk, le_rfl, by omega⟩
    have hfound : ∀ {b : ByteRanges}, b.Tidy → ∀ {k n}, b.mBlocks.tryGetValue k = some n →
        b.rangeContaining k = (k, n) := by
      intro b hb k n hk
      have hpos := hb.pos hk
      exact hb.rangeContaining_of_mem hk le_rfl (by omega)
    refine ⟨⟨fun k n hk => ?_, ?_⟩, ⟨fun k n hk => ?_, ?_⟩, fun k n k' n' hk hk' => h.unused.lt_of_lt hk hk'⟩
    · unfold rangeContaining
      rw [hfound h.used hk, if_pos (h.used.base_ne_zero hk)]
    · rw [h.bytesUsed, h.used.card_addresses]
    · have hno := disjoint_right.1 h.disjoint (hmem h.unused hk)
      unfold rangeContaining
      rw [rangeContaining_of_notMem hno, if_neg (not_not.2 rfl), hfound h.unused hk]
    · rw [h.bytesUnused, h.unused.card_addresses]

/-! ## The calls -/

theorem card_union_Ico {S : Finset ℕ} (h : Disjoint (Ico base (base + inBytes)) S) :
    ((S ∪ Ico base (base + inBytes)).card : ℤ) = S.card + inBytes := by
  rw [card_union_of_disjoint h.symm, Nat.card_Ico, Nat.add_sub_cancel_left]
  rfl

theorem card_sdiff_Ico {S : Finset ℕ} (h : Ico base (base + inBytes) ⊆ S) :
    ((S \ Ico base (base + inBytes)).card : ℤ) = S.card - inBytes := by
  have hcard := card_sdiff_add_card_eq_card h
  rw [Nat.card_Ico, Nat.add_sub_cancel_left] at hcard
  omega

theorem Tidy.addUnusedBytes (h : Tidy memory s) (hbase : base ≠ 0) (hpos : 0 < inBytes)
    (hnew : Disjoint (Ico base (base + inBytes)) memory) :
    wp (addUnusedBytes base inBytes) (fun _ s' => Tidy (memory ∪ Ico base (base + inBytes)) s')
      (fun _ _ => False) s := by
  have hunused := hnew.mono_right h.unused_subset
  obtain ⟨htidy, haddresses⟩ := h.unused.addRange hbase hpos hunused
  unfold LargeMemoryBlockTracker.addUnusedBytes
  rw [wp_bind, wp_lassert, if_pos hbase, wp_modify]
  refine ⟨h.used, htidy, ?_, ?_, h.bytesUsed, ?_⟩
  · rw [haddresses, disjoint_union_right]
    exact ⟨h.disjoint, (hnew.mono_right h.used_subset).symm⟩
  · rw [haddresses, ← union_assoc, h.union]
  · rw [haddresses, card_union_Ico hunused]
    exact congrArg (· + (inBytes : ℤ)) h.bytesUnused

theorem Tidy.addUsedBytes (h : Tidy memory s) (hbase : base ≠ 0) (hpos : 0 < inBytes)
    (hnew : Disjoint (Ico base (base + inBytes)) memory) :
    wp (addUsedBytes base inBytes) (fun _ s' => Tidy (memory ∪ Ico base (base + inBytes)) s')
      (fun _ _ => False) s := by
  have hused := hnew.mono_right h.used_subset
  obtain ⟨htidy, haddresses⟩ := h.used.addRange hbase hpos hused
  unfold LargeMemoryBlockTracker.addUsedBytes
  rw [wp_bind, wp_lassert, if_pos hbase, wp_modify]
  refine ⟨htidy, h.unused, ?_, ?_, ?_, h.bytesUnused⟩
  · rw [haddresses, disjoint_union_left]
    exact ⟨h.disjoint, hnew.mono_right h.unused_subset⟩
  · rw [haddresses, union_right_comm, h.union]
  · rw [haddresses, card_union_Ico hused]
    exact congrArg (· + (inBytes : ℤ)) h.bytesUsed

/-- Bytes in a range begin at an address that is not the null pointer. -/
theorem base_ne_zero_of_subset {b : ByteRanges} (hb : b.Tidy) (hpos : 0 < inBytes)
    (hsub : Ico base (base + inBytes) ⊆ b.addresses) : base ≠ 0 := by
  obtain ⟨k, n, hk, hle, -⟩ := hb.exists_of_subset hpos hsub
  have := hb.base_ne_zero hk
  omega

section

variable (h : Tidy memory s)
include h

theorem Tidy.useRange (hpos : 0 < inBytes) (hsub : Ico base (base + inBytes) ⊆ s.mUnusedBlocks.addresses) :
    wp (useRange base inBytes) (fun _ s' => Tidy memory s' ∧
      s'.mUsedBlocks.addresses = s.mUsedBlocks.addresses ∪ Ico base (base + inBytes))
      (fun _ _ => False) s := by
  have hdisjoint : Disjoint (Ico base (base + inBytes)) s.mUsedBlocks.addresses :=
    (h.disjoint.mono_right hsub).symm
  obtain ⟨hdropped, hunused⟩ := h.unused.dropRange hpos hsub
  obtain ⟨hadded, hused⟩ := h.used.addRange (base_ne_zero_of_subset h.unused hpos hsub) hpos hdisjoint
  unfold LargeMemoryBlockTracker.useRange
  rw [wp_bind, wp_get, wp_bind, wp_lassert, if_pos ((h.unused.containsRangeEntirely_iff hpos).2 hsub), wp_modify]
  refine ⟨⟨hadded, hdropped, ?_, ?_, ?_, ?_⟩, hused⟩
  · rw [hused, hunused, disjoint_union_left]
    exact ⟨h.disjoint.mono_right sdiff_subset, disjoint_sdiff⟩
  · rw [hused, hunused, union_assoc, union_sdiff_of_subset hsub, h.union]
  · rw [hused, card_union_Ico hdisjoint]
    exact congrArg (· + (inBytes : ℤ)) h.bytesUsed
  · rw [hunused, card_sdiff_Ico hsub]
    exact congrArg (· - (inBytes : ℤ)) h.bytesUnused

theorem Tidy.stopUsingRange (hpos : 0 < inBytes) (hsub : Ico base (base + inBytes) ⊆ s.mUsedBlocks.addresses) :
    wp (stopUsingRange base inBytes) (fun _ s' => Tidy memory s' ∧
      s'.mUsedBlocks = s.mUsedBlocks.dropRange base inBytes) (fun _ _ => False) s := by
  have hdisjoint : Disjoint (Ico base (base + inBytes)) s.mUnusedBlocks.addresses := h.disjoint.mono_left hsub
  obtain ⟨hdropped, hused⟩ := h.used.dropRange hpos hsub
  obtain ⟨hadded, hunused⟩ := h.unused.addRange (base_ne_zero_of_subset h.used hpos hsub) hpos hdisjoint
  unfold LargeMemoryBlockTracker.stopUsingRange
  rw [wp_bind, wp_get, wp_bind, wp_lassert, if_pos ((h.used.containsRangeEntirely_iff hpos).2 hsub), wp_modify]
  refine ⟨⟨hdropped, hadded, ?_, ?_, ?_, ?_⟩, rfl⟩
  · rw [hused, hunused, disjoint_union_right]
    exact ⟨h.disjoint.mono_left sdiff_subset, sdiff_disjoint⟩
  · rw [hused, hunused, union_comm s.mUnusedBlocks.addresses, ← union_assoc, sdiff_union_of_subset hsub, h.union]
  · rw [hused, card_sdiff_Ico hsub]
    exact congrArg (· - (inBytes : ℤ)) h.bytesUsed
  · rw [hunused, card_union_Ico hdisjoint]
    exact congrArg (· + (inBytes : ℤ)) h.bytesUnused

theorem Tidy.unusedBytesReleasedToOS (hpos : 0 < inBytes)
    (hsub : Ico base (base + inBytes) ⊆ s.mUnusedBlocks.addresses) :
    wp (unusedBytesReleasedToOS base inBytes)
      (fun _ s' => Tidy (memory \ Ico base (base + inBytes)) s') (fun _ _ => False) s := by
  obtain ⟨hdropped, hunused⟩ := h.unused.dropRange hpos hsub
  unfold LargeMemoryBlockTracker.unusedBytesReleasedToOS
  rw [wp_bind, wp_get, wp_bind, wp_lassert, if_pos ((h.unused.containsRangeEntirely_iff hpos).2 hsub), wp_modify]
  refine ⟨h.used, hdropped, ?_, ?_, h.bytesUsed, ?_⟩
  · rw [hunused]
    exact h.disjoint.mono_right sdiff_subset
  · have hused : s.mUsedBlocks.addresses \ Ico base (base + inBytes) = s.mUsedBlocks.addresses :=
      sdiff_eq_self_of_disjoint (h.disjoint.mono_right hsub)
    rw [hunused, ← h.union, union_sdiff_distrib, hused]
  · rw [hunused, card_sdiff_Ico hsub]
    exact congrArg (· - (inBytes : ℤ)) h.bytesUnused

/-- `allocateBytes` finds bytes wherever so many unused addresses lie side by side. -/
theorem Tidy.allocateBytes (hpos : 0 < inBytes) : wp (allocateBytes inBytes) (fun
      | some base, s' => Tidy memory s' ∧ Ico base (base + inBytes) ⊆ s.mUnusedBlocks.addresses ∧
        s'.mUsedBlocks.addresses = s.mUsedBlocks.addresses ∪ Ico base (base + inBytes)
      | none, s' => s' = s ∧ ∀ base, ¬ Ico base (base + inBytes) ⊆ s.mUnusedBlocks.addresses)
      (fun _ _ => False) s := by
  unfold LargeMemoryBlockTracker.allocateBytes
  rw [wp_bind, wp_get]
  split
  · next base hbase =>
    obtain ⟨n, hn, hle⟩ := lowerBound_eq_some hbase
    have hsub : Ico base (base + inBytes) ⊆ s.mUnusedBlocks.addresses := by
      intro ptr hptr
      rw [mem_Ico] at hptr
      exact mem_addresses.2 ⟨base, n, hn, hptr.1, by omega⟩
    rw [wp_bind]
    exact (h.useRange hpos hsub).imp fun _ s' hs' => ⟨hs'.1, hsub, hs'.2⟩
  · next hnone =>
    refine ⟨rfl, fun base hsub => ?_⟩
    obtain ⟨k, n, hk, hle, hend⟩ := h.unused.exists_of_subset hpos hsub
    have hlt := lowerBound_eq_none hnone hk
    omega

/-- Each turn of the loop drops one range. -/
theorem Tidy.deallocateRanges {limit : ℕ} (hlimit : s.mUsedBlocks.mBlocks.size < limit) :
    wp (deallocateRanges limit) (fun _ s' => Tidy memory s' ∧ s'.mUsedBlocks.addresses = ∅) (fun _ _ => False) s := by
  induction limit generalizing s with
  | zero => omega
  | succ limit ih =>
    unfold LargeMemoryBlockTracker.deallocateRanges
    rw [wp_bind, wp_get]
    split
    · next range hrange =>
      obtain ⟨k, n⟩ := range
      have hk := ByteRanges.Tidy.smallestBlock_eq_some hrange
      have hsub : Ico k (k + n) ⊆ s.mUsedBlocks.addresses := by
        intro ptr hptr
        rw [mem_Ico] at hptr
        exact mem_addresses.2 ⟨k, n, hk, hptr.1, hptr.2⟩
      have hsize := h.used.size_dropRange hk
      rw [wp_bind]
      refine (h.stopUsingRange (h.used.pos hk) hsub).imp fun _ s' hs' => ih hs'.1 ?_
      rw [hs'.2]
      omega
    · next hnone => exact ⟨h, smallestBlock_eq_none hnone⟩

theorem Tidy.deallocateAllUsedRanges :
    wp deallocateAllUsedRanges (fun _ s' => Tidy memory s' ∧ s'.mUsedBlocks.addresses = ∅) (fun _ _ => False) s := by
  unfold LargeMemoryBlockTracker.deallocateAllUsedRanges
  rw [wp_bind, wp_get]
  exact h.deallocateRanges (Nat.lt_succ_self _)

end

/-- One call: what it leaves and what it answers. -/
theorem Tidy.call {s : System} (h : Tidy s.memory s.tracker) {op : Op} (hop : op.Sensible s) :
    Tidy (op.memory s.memory) (exec op.call s.tracker) ∧ op.Answers s := by
  cases op with
  | addUnusedBytes base inBytes =>
    by_cases hbase : base = 0
    · refine ⟨?_, fun hne => absurd hbase hne⟩
      show Tidy (if base = 0 then _ else _) _
      rw [if_pos hbase]
      refine wp.exec (P := Tidy s.memory) ?_
      show wp (LargeMemoryBlockTracker.addUnusedBytes base inBytes) _ _ _
      unfold LargeMemoryBlockTracker.addUnusedBytes
      rw [wp_bind, wp_lassert, if_neg (not_not.2 hbase)]
      exact h
    · have hcall := h.addUnusedBytes hbase hop.1 hop.2
      refine ⟨?_, fun _ => hcall.imp fun _ _ _ => trivial⟩
      show Tidy (if base = 0 then _ else _) _
      rw [if_neg hbase]
      exact (hcall.mono (fun _ _ => id) fun _ _ => elim).exec
  | addUsedBytes base inBytes =>
    by_cases hbase : base = 0
    · refine ⟨?_, fun hne => absurd hbase hne⟩
      show Tidy (if base = 0 then _ else _) _
      rw [if_pos hbase]
      refine wp.exec (P := Tidy s.memory) ?_
      show wp (LargeMemoryBlockTracker.addUsedBytes base inBytes) _ _ _
      unfold LargeMemoryBlockTracker.addUsedBytes
      rw [wp_bind, wp_lassert, if_neg (not_not.2 hbase)]
      exact h
    · have hcall := h.addUsedBytes hbase hop.1 hop.2
      refine ⟨?_, fun _ => hcall.imp fun _ _ _ => trivial⟩
      show Tidy (if base = 0 then _ else _) _
      rw [if_neg hbase]
      exact (hcall.mono (fun _ _ => id) fun _ _ => elim).exec
  | allocateBytes inBytes =>
    have hcall := h.allocateBytes hop
    refine ⟨?_, hcall.imp fun base s' hs' => ?_⟩
    · refine wp.exec (P := Tidy s.memory) ?_
      show wp (LargeMemoryBlockTracker.allocateBytes inBytes >>= fun _ => pure ()) _ _ _
      rw [wp_bind]
      refine hcall.mono (fun base s' hs' => ?_) fun _ _ => elim
      cases base with
      | some base => exact hs'.1
      | none => exact hs'.1 ▸ h
    · cases base with
      | some base => exact ⟨hs'.2.1, (h.disjoint.mono_right hs'.2.1).symm, hs'.2.2⟩
      | none => exact hs'.2
  | deallocateBytes base inBytes =>
    have hcall := h.stopUsingRange hop.1 hop.2
    exact ⟨(hcall.mono (fun _ _ hs' => hs'.1) fun _ _ => elim).exec, hcall.imp fun _ _ _ => trivial⟩
  | unusedBytesReleasedToOS base inBytes =>
    have hcall := h.unusedBytesReleasedToOS hop.1 hop.2
    exact ⟨(hcall.mono (fun _ _ => id) fun _ _ => elim).exec, hcall.imp fun _ _ _ => trivial⟩
  | deallocateAllUsedRanges =>
    have hcall := h.deallocateAllUsedRanges
    exact ⟨(hcall.mono (fun _ _ hs' => hs'.1) fun _ _ => elim).exec, hcall.imp fun _ _ hs' => hs'.2⟩

end LargeMemoryBlockTracker
