import Ufora.Containers.MapWithIndex
import Ufora.Lib.Interval
import Mathlib.Algebra.BigOperators.Group.Finset.Basic
import Mathlib.Order.Interval.Finset.Nat

/-!
# `ByteRanges`

`FORA/VectorDataManager/ByteRanges.hppml`: ranges of bytes, by base address, with an index by size. An address
is the number it is, and the null pointer is `0`. As intervals of addresses the ranges are tidy: none is empty,
and no two of them overlap or touch, since a range that is added is merged with its neighbours.
-/

open Ordered List Finset Finmap Option StdMap MapWithIndex LineInterval

/-- A `ByteRanges`. -/
structure ByteRanges where
  mBlocks : MapWithIndex ℕ ℕ := ∅

namespace ByteRanges

variable (b : ByteRanges)

/-- `rangeContaining(ptr)`: the last range that begins at or before the address, if the address is in it. -/
def rangeContaining (ptr : ℕ) : ℕ × ℕ :=
  match ((ascending b.mBlocks.mKeyToValue.keys).filter (· ≤ ptr)).getLast? with
  | none => (0, 0)
  | some base =>
    if ptr < base + b.mBlocks.mKeyToValue.get base then (base, b.mBlocks.mKeyToValue.get base) else (0, 0)

/-- `dropRange(base, inBytes)`. Its callers have looked that one range contains the bytes, so `mBlocks.drop`
finds that range. -/
def dropRange (base inBytes : ℕ) : ByteRanges :=
  let range := b.rangeContaining base
  let blocks := b.mBlocks.discard range.1
  let blocks := if range.1 < base then blocks.set range.1 (base - range.1) else blocks
  { mBlocks :=
      if base + inBytes < range.1 + range.2 then
        blocks.set (base + inBytes) (range.1 + range.2 - (base + inBytes))
      else blocks }

/-- `addRange(base, inBytes)`. -/
def addRange (base inBytes : ℕ) : ByteRanges :=
  let rangeBelow := b.rangeContaining (base - 1)
  let rangeAbove := b.rangeContaining (base + inBytes)
  let below := rangeBelow.1 ≠ 0 ∧ b.mBlocks.hasKey rangeBelow.1
  let blocks := if below then b.mBlocks.discard rangeBelow.1 else b.mBlocks
  let start := if below then rangeBelow.1 else base
  let bytes := if below then inBytes + rangeBelow.2 else inBytes
  if rangeAbove.1 ≠ 0 ∧ blocks.hasKey rangeAbove.1 then
    { mBlocks := (blocks.discard rangeAbove.1).set start (bytes + rangeAbove.2) }
  else
    { mBlocks := blocks.set start bytes }

/-- `containsRangeEntirely(base, bytes)`. -/
def containsRangeEntirely (base bytes : ℕ) : Prop := (b.rangeContaining base).1 ≠ 0 ∧
    base + bytes ≤ (b.rangeContaining base).1 + (b.rangeContaining base).2
deriving Decidable

/-- The interval of a range. -/
def interval (base inBytes : ℕ) : LineInterval Unit ℕ := ⟨(), base, base + inBytes⟩

/-- The stored ranges. -/
def ranges : Set (LineInterval Unit ℕ) :=
  {r | ∃ base inBytes, b.mBlocks.tryGetValue base = some inBytes ∧ r = interval base inBytes}

/-- The addresses in the ranges. -/
def addresses : Finset ℕ := b.mBlocks.mKeyToValue.keys.biUnion fun base =>
    Finset.Ico base (base + b.mBlocks.mKeyToValue.get base)

/-- The stored ranges are tidy, and none begins at the null pointer. -/
structure Tidy (b : ByteRanges) : Prop where
  tidy : LineInterval.Tidy b.ranges
  null : b.mBlocks.tryGetValue 0 = none

variable {b} {base inBytes ptr k n : ℕ}

theorem get_of_tryGetValue (hk : b.mBlocks.tryGetValue k = some n) : b.mBlocks.mKeyToValue.get k = n := by
  have hk' : lookup k b.mBlocks.mKeyToValue = some n := hk
  rw [StdMap.get, hk']
  rfl

theorem mem_addresses : ptr ∈ b.addresses ↔ ∃ k n, b.mBlocks.tryGetValue k = some n ∧ k ≤ ptr ∧ ptr < k + n := by
  unfold addresses
  simp only [mem_biUnion, mem_Ico]
  constructor
  · rintro ⟨k, hk, hle, hlt⟩
    obtain ⟨n, hn⟩ := mem_keys_iff.1 hk
    rw [get_of_tryGetValue hn] at hlt
    exact ⟨k, n, hn, hle, hlt⟩
  · rintro ⟨k, n, hn, hle, hlt⟩
    refine ⟨k, mem_keys_iff.2 ⟨n, hn⟩, hle, ?_⟩
    rw [get_of_tryGetValue hn]
    exact hlt

/-- The points of the intervals are the addresses. -/
theorem mem_cover {p : Unit × ℕ} : p ∈ cover b.ranges ↔ p.2 ∈ b.addresses := by
  rw [mem_addresses]
  constructor
  · rintro ⟨_, ⟨k, n, hn, rfl⟩, -, hle, hlt⟩
    exact ⟨k, n, hn, hle, hlt⟩
  · rintro ⟨k, n, hn, hle, hlt⟩
    exact ⟨interval k n, ⟨k, n, hn, rfl⟩, rfl, hle, hlt⟩

section
variable (hk : b.mBlocks.tryGetValue k = some n)
include hk

/-- Two stored ranges with an address in common are one. -/
theorem Tidy.eq_of_mem (h : b.Tidy) {k' n' : ℕ} (hk' : b.mBlocks.tryGetValue k' = some n') (hle : k ≤ ptr)
    (hlt : ptr < k + n) (hle' : k' ≤ ptr) (hlt' : ptr < k' + n') : k = k' ∧ n = n' := by
  have he := h.tidy.disjoint (interval k n) ⟨k, n, hk, rfl⟩ (interval k' n') ⟨k', n', hk', rfl⟩
    (overlaps_of_mem (p := ((), ptr)) ⟨rfl, hle, hlt⟩ ⟨rfl, hle', hlt'⟩)
  have hlo : k = k' := congrArg lo he
  have hhi : k + n = k' + n' := congrArg hi he
  omega

/-- Of two stored ranges, one ends before the other begins. -/
theorem Tidy.lt_of_lt (h : b.Tidy) {k' n' : ℕ} (hk' : b.mBlocks.tryGetValue k' = some n') (hlt : k < k') : k + n < k' :=
  h.tidy.lt_of_lo_lt (r := interval k n) (s := interval k' n') ⟨k, n, hk, rfl⟩ ⟨k', n', hk', rfl⟩ rfl hlt

theorem Tidy.pos (h : b.Tidy) : 0 < n := by
  have hlt : k < k + n := h.tidy.nonempty (interval k n) ⟨k, n, hk, rfl⟩
  omega

theorem Tidy.base_ne_zero (h : b.Tidy) : k ≠ 0 := by
  rintro rfl
  cases h.null.symm.trans hk

/-! ## Looking a range up -/

/-- A range that contains an address is found. -/
theorem Tidy.rangeContaining_of_mem (h : b.Tidy) (hle : k ≤ ptr) (hlt : ptr < k + n) :
    b.rangeContaining ptr = (k, n) := by
  have hmem : k ∈ (ascending b.mBlocks.mKeyToValue.keys).filter (· ≤ ptr) := by
    rw [mem_filter, mem_ascending]
    exact ⟨mem_keys_iff.2 ⟨n, hk⟩, decide_eq_true hle⟩
  have hlast : ((ascending b.mBlocks.mKeyToValue.keys).filter (· ≤ ptr)).getLast? = some k := by
    obtain ⟨last, hlast⟩ := ne_none_iff_exists'.1 fun hnone =>
      ne_nil_of_mem hmem (getLast?_eq_none_iff.1 hnone)
    have hmem' := mem_of_getLast? hlast
    rw [mem_filter, mem_ascending, mem_keys_iff] at hmem'
    obtain ⟨⟨n', hn'⟩, hle'⟩ := hmem'
    have hge : k ≤ last := by
      have hsorted := (pairwise_ascending b.mBlocks.mKeyToValue.keys).filter (fun x => decide (x ≤ ptr))
      obtain ⟨l, hl⟩ := getLast?_eq_some_iff.1 hlast
      rw [hl] at hsorted hmem
      rcases mem_append.1 hmem with hin | hin
      · exact (pairwise_append.1 hsorted).2.2 k hin last (List.mem_singleton_self last)
      · exact (List.mem_singleton.1 hin).le
    rw [hlast]
    rcases hge.lt_or_eq with hgt | he
    · exact absurd (h.lt_of_lt hk hn' hgt) (by have := of_decide_eq_true hle'; omega)
    · rw [he]
  unfold rangeContaining
  rw [hlast]
  dsimp only
  rw [get_of_tryGetValue hk, if_pos hlt]

end

/-- Elsewhere there is no range. -/
theorem rangeContaining_of_notMem (h : ptr ∉ b.addresses) : b.rangeContaining ptr = (0, 0) := by
  unfold rangeContaining
  split
  · rfl
  · next last hlast =>
    refine if_neg fun hlt => h ?_
    have hmem := mem_of_getLast? hlast
    rw [mem_filter, mem_ascending, mem_keys_iff] at hmem
    obtain ⟨⟨n, hn⟩, hle⟩ := hmem
    rw [get_of_tryGetValue hn] at hlt
    exact mem_addresses.2 ⟨last, n, hn, of_decide_eq_true hle, hlt⟩

/-- Bytes that lie side by side in the ranges lie in one of them. -/
theorem Tidy.exists_of_subset (h : b.Tidy) (hpos : 0 < inBytes)
    (hsub : Finset.Ico base (base + inBytes) ⊆ b.addresses) :
    ∃ k n, b.mBlocks.tryGetValue k = some n ∧ k ≤ base ∧ base + inBytes ≤ k + n := by
  obtain ⟨k, n, hk, hle, hlt⟩ := mem_addresses.1 (hsub (mem_Ico.2 ⟨le_rfl, by omega⟩))
  refine ⟨k, n, hk, hle, not_lt.1 fun hend => ?_⟩
  obtain ⟨k', n', hk', hle', hlt'⟩ := mem_addresses.1 (hsub (mem_Ico.2 ⟨by omega, hend⟩))
  rcases lt_trichotomy k k' with hc | rfl | hc
  · exact absurd (h.lt_of_lt hk hk' hc) (by omega)
  · rw [hk] at hk'
    obtain rfl := some.inj hk'
    omega
  · exact absurd (h.lt_of_lt hk' hk hc) (by omega)

theorem Tidy.containsRangeEntirely_iff (h : b.Tidy) (hpos : 0 < inBytes) :
    b.containsRangeEntirely base inBytes ↔ Finset.Ico base (base + inBytes) ⊆ b.addresses := by
  constructor
  · rintro ⟨hne, hend⟩
    by_cases hbase : base ∈ b.addresses
    · obtain ⟨k, n, hk, hle, hlt⟩ := mem_addresses.1 hbase
      rw [h.rangeContaining_of_mem hk hle hlt] at hend
      intro ptr hptr
      rw [mem_Ico] at hptr
      exact mem_addresses.2 ⟨k, n, hk, by omega, by omega⟩
    · rw [rangeContaining_of_notMem hbase] at hne
      exact absurd rfl hne
  · intro hsub
    obtain ⟨k, n, hk, hle, hend⟩ := h.exists_of_subset hpos hsub
    unfold containsRangeEntirely
    rw [h.rangeContaining_of_mem hk hle (by omega)]
    exact ⟨h.base_ne_zero hk, hend⟩

/-! ## Dropping a range -/

theorem interval_eq {lo hi : ℕ} (hle : lo ≤ hi) : (⟨(), lo, hi⟩ : LineInterval Unit ℕ) = interval lo (hi - lo) := by
  unfold interval
  rw [Nat.add_sub_cancel' hle]

section

variable (h : b.Tidy)
include h

/-- What stays of the range that contains the bytes are the parts before and after them. -/
theorem Tidy.tryGetValue_dropRange (hpos : 0 < inBytes) (hk : b.mBlocks.tryGetValue k = some n)
    (hle : k ≤ base) (hend : base + inBytes ≤ k + n) (x : ℕ) :
    (b.dropRange base inBytes).mBlocks.tryGetValue x =
      if x = base + inBytes ∧ base + inBytes < k + n then some (k + n - (base + inBytes))
      else if x = k then if k < base then some (base - k) else none else b.mBlocks.tryGetValue x := by
  unfold dropRange
  rw [h.rangeContaining_of_mem hk hle (by omega)]
  dsimp only
  by_cases hafter : base + inBytes < k + n
  · rw [if_pos hafter, tryGetValue_set]
    simp only [hafter, and_true]
    split
    · rfl
    by_cases hbefore : k < base
    · rw [if_pos hbefore, tryGetValue_set, if_pos hbefore, tryGetValue_discard]
      split <;> rfl
    · rw [if_neg hbefore, tryGetValue_discard, if_neg hbefore]
  · rw [if_neg hafter]
    simp only [hafter, and_false, if_false]
    by_cases hbefore : k < base
    · rw [if_pos hbefore, tryGetValue_set, if_pos hbefore, tryGetValue_discard]
      split <;> rfl
    · rw [if_neg hbefore, tryGetValue_discard, if_neg hbefore]

/-- Dropping bytes cuts their interval out of the ranges. -/
theorem Tidy.ranges_dropRange (hpos : 0 < inBytes) (hk : b.mBlocks.tryGetValue k = some n)
    (hle : k ≤ base) (hend : base + inBytes ≤ k + n) :
    (b.dropRange base inBytes).ranges = cutOut b.ranges (interval base inBytes) := by
  have hlookup := h.tryGetValue_dropRange hpos hk hle hend
  have hover : (interval k n).Overlaps (interval base inBytes) :=
    ⟨rfl, show k < base + inBytes by omega, show base < k + n by omega⟩
  have hself : ∀ x y, b.mBlocks.tryGetValue x = some y →
      (interval x y).Overlaps (interval base inBytes) → x = k ∧ y = n := by
    rintro x y hx ⟨-, hlo, hhi⟩
    change x < base + inBytes at hlo
    exact @eq_of_mem _ (max x base) _ _ hx h _ _ hk (le_max_left _ _) (max_lt (by have := h.pos hx; omega) hhi)
      (hle.trans (le_max_right _ _)) (max_lt (by omega) (by omega))
  ext r
  constructor
  · rintro ⟨x, y, hx, rfl⟩
    rw [hlookup] at hx
    split at hx
    · next hafter =>
      obtain rfl := some.inj hx
      refine ⟨interval k n, ⟨k, n, hk, rfl⟩, ?_⟩
      rw [hafter.1, ← interval_eq hend]
      exact .after hover hafter.2
    split at hx
    · next hxk =>
      split at hx
      · next hbefore =>
        obtain rfl := some.inj hx
        refine ⟨interval k n, ⟨k, n, hk, rfl⟩, ?_⟩
        rw [hxk, ← interval_eq hle]
        exact .before hover hbefore
      · cases hx
    · next hxk => exact ⟨interval x y, ⟨x, y, hx, rfl⟩, .whole fun ho => hxk (hself x y hx ho).1⟩
  · rintro ⟨_, ⟨x, y, hx, rfl⟩, hpart⟩
    cases hpart with
    | whole hno =>
      have hxk : x ≠ k := by
        rintro rfl
        obtain rfl := some.inj (hx.symm.trans hk)
        exact hno hover
      refine ⟨x, y, ?_, rfl⟩
      rw [hlookup, if_neg, if_neg hxk, hx]
      rintro ⟨hxe, hafter⟩
      exact hxk (@eq_of_mem _ x _ _ hx h _ _ hk le_rfl (by have := h.pos hx; omega) (by omega) (by omega)).1
    | before ho hlt =>
      obtain ⟨rfl, rfl⟩ := hself x y hx ho
      change x < base at hlt
      refine ⟨x, base - x, ?_, interval_eq hle⟩
      rw [hlookup, if_neg (by omega), if_pos rfl, if_pos hlt]
    | after ho hlt =>
      obtain ⟨rfl, rfl⟩ := hself x y hx ho
      refine ⟨base + inBytes, x + y - (base + inBytes), ?_, interval_eq hlt.le⟩
      rw [hlookup, if_pos ⟨rfl, hlt⟩]

/-- Bytes in the ranges are dropped, and no others. -/
theorem Tidy.dropRange (hpos : 0 < inBytes)
    (hsub : Finset.Ico base (base + inBytes) ⊆ b.addresses) : (b.dropRange base inBytes).Tidy ∧
      (b.dropRange base inBytes).addresses = b.addresses \ Finset.Ico base (base + inBytes) := by
  obtain ⟨k, n, hk, hle, hend⟩ := h.exists_of_subset hpos hsub
  have hranges := h.ranges_dropRange hpos hk hle hend
  refine ⟨⟨?_, ?_⟩, ?_⟩
  · rw [hranges]
    exact h.tidy.cutOut (show base < base + inBytes by omega)
  · have hk0 := h.base_ne_zero hk
    rw [h.tryGetValue_dropRange hpos hk hle hend, if_neg (by omega), if_neg hk0.symm, h.null]
  · ext ptr
    have hcover := mem_cover (b := b.dropRange base inBytes) (p := ((), ptr))
    rw [← hcover, hranges, cover_cutOut, mem_sdiff, mem_Ico]
    refine and_congr mem_cover (not_congr ?_)
    exact and_iff_right rfl

/-! ## Adding a range -/

/-- The range below new bytes, if there is one: the one that ends where they begin. -/
theorem Tidy.rangeBelow (hnew : base ∉ b.addresses) :
    (∃ k n, b.rangeContaining (base - 1) = (k, n) ∧ b.mBlocks.tryGetValue k = some n ∧ k + n = base) ∨
    (b.rangeContaining (base - 1) = (0, 0) ∧ ∀ k n, b.mBlocks.tryGetValue k = some n → k + n ≠ base) := by
  by_cases hmem : base - 1 ∈ b.addresses
  · obtain ⟨k, n, hk, hle, hlt⟩ := mem_addresses.1 hmem
    refine .inl ⟨k, n, h.rangeContaining_of_mem hk hle hlt, hk, ?_⟩
    by_contra hne
    exact hnew (mem_addresses.2 ⟨k, n, hk, by omega, by omega⟩)
  · refine .inr ⟨rangeContaining_of_notMem hmem, fun k n hk he => hmem ?_⟩
    have hpos := h.pos hk
    exact mem_addresses.2 ⟨k, n, hk, by omega, by omega⟩

/-- The range above new bytes, if there is one: the one that begins where they end. -/
theorem Tidy.rangeAbove (hpos : 0 < inBytes) (hnew : base + inBytes - 1 ∉ b.addresses) :
    (∃ n, b.rangeContaining (base + inBytes) = (base + inBytes, n) ∧ b.mBlocks.tryGetValue (base + inBytes) = some n) ∨
    (b.rangeContaining (base + inBytes) = (0, 0) ∧ b.mBlocks.tryGetValue (base + inBytes) = none) := by
  by_cases hmem : base + inBytes ∈ b.addresses
  · obtain ⟨k, n, hk, hle, hlt⟩ := mem_addresses.1 hmem
    obtain rfl : k = base + inBytes := by
      by_contra hne
      exact hnew (mem_addresses.2 ⟨k, n, hk, by omega, by omega⟩)
    exact .inl ⟨n, h.rangeContaining_of_mem hk hle hlt, hk⟩
  · refine .inr ⟨rangeContaining_of_notMem hmem, eq_none_iff_forall_ne_some.2 fun n hn => hmem ?_⟩
    have hpos' := h.pos hn
    exact mem_addresses.2 ⟨base + inBytes, n, hn, le_rfl, by omega⟩

/-- The bytes are merged with the ranges that they touch. -/
theorem Tidy.tryGetValue_addRange (hpos : 0 < inBytes)
    (hfirst : base ∉ b.addresses) (hlast : base + inBytes - 1 ∉ b.addresses) : ∃ lo bytes,
      LineInterval.Joined b.ranges (interval base inBytes) (interval lo bytes) ∧
      (lo = base ∨ ∃ n, b.mBlocks.tryGetValue lo = some n ∧ lo + n = base) ∧
      ∀ x, (b.addRange base inBytes).mBlocks.tryGetValue x = if x = lo then some bytes
        else if x = base + inBytes then none else b.mBlocks.tryGetValue x := by
  have hjoined : ∀ {lo bytes}, ((lo = base ∧ ∀ k n, b.mBlocks.tryGetValue k = some n → k + n ≠ base) ∨
        ∃ n, b.mBlocks.tryGetValue lo = some n ∧ lo + n = base) →
      ((lo + bytes = base + inBytes ∧ b.mBlocks.tryGetValue (base + inBytes) = none) ∨
        ∃ n, b.mBlocks.tryGetValue (base + inBytes) = some n ∧ lo + bytes = base + inBytes + n) →
      LineInterval.Joined b.ranges (interval base inBytes) (interval lo bytes) := by
    rintro lo bytes hlo hhi
    refine ⟨rfl, ?_, ?_⟩
    · refine hlo.imp (fun ⟨he, hno⟩ => ⟨he, ?_⟩) fun ⟨n, hn, he⟩ => ⟨interval lo n, ⟨lo, n, hn, rfl⟩, ⟨rfl, he⟩, rfl⟩
      rintro _ ⟨k, n, hk, rfl⟩ ⟨-, ht⟩
      exact hno k n hk ht
    · refine hhi.imp (fun ⟨he, hno⟩ => ⟨he, ?_⟩) fun ⟨n, hn, he⟩ =>
        ⟨interval (base + inBytes) n, ⟨_, n, hn, rfl⟩, ⟨rfl, rfl⟩, he⟩
      rintro _ ⟨k, n, hk, rfl⟩ ⟨-, ht⟩
      change base + inBytes = k at ht
      rw [← ht, hno] at hk
      cases hk
  unfold addRange
  rcases h.rangeBelow hfirst with ⟨k, n, hbelow, hk, hkn⟩ | ⟨hbelow, hbelow'⟩
  · have hk0 := h.base_ne_zero hk
    have hkey : b.mBlocks.hasKey k := hasKey_iff.2 ⟨n, hk⟩
    rcases h.rangeAbove hpos hlast with ⟨m, habove, hm⟩ | ⟨habove, habove'⟩
    · have hkey' : (b.mBlocks.discard k).hasKey (base + inBytes) := hasKey_discard.2 ⟨by omega, hasKey_iff.2 ⟨m, hm⟩⟩
      refine ⟨k, inBytes + n + m, hjoined (.inr ⟨n, hk, hkn⟩) (.inr ⟨m, hm, by omega⟩), .inr ⟨n, hk, hkn⟩, fun x => ?_⟩
      have h0 : base + inBytes ≠ 0 := by omega
      simp only [hbelow, habove, ne_eq, hk0, not_false_eq_true, hkey, and_self, if_true, hkey', h0,
        tryGetValue_set, tryGetValue_discard]
      split
      · rfl
      · rfl
    · refine ⟨k, inBytes + n, hjoined (.inr ⟨n, hk, hkn⟩) (.inl ⟨by omega, habove'⟩), .inr ⟨n, hk, hkn⟩, fun x => ?_⟩
      simp only [hbelow, habove, ne_eq, hk0, not_false_eq_true, hkey, and_self, if_true, not_true,
        false_and, if_false, tryGetValue_set, tryGetValue_discard]
      split
      · rfl
      · split
        · next he => rw [he, habove']
        · rfl
  · rcases h.rangeAbove hpos hlast with ⟨m, habove, hm⟩ | ⟨habove, habove'⟩
    · have hkey' : b.mBlocks.hasKey (base + inBytes) := hasKey_iff.2 ⟨m, hm⟩
      refine ⟨base, inBytes + m, hjoined (.inl ⟨rfl, hbelow'⟩) (.inr ⟨m, hm, by omega⟩), .inl rfl, fun x => ?_⟩
      have h0 : base + inBytes ≠ 0 := by omega
      simp only [hbelow, habove, ne_eq, not_true, false_and, if_false, h0, not_false_eq_true, hkey',
        and_self, if_true, tryGetValue_set, tryGetValue_discard]
    · refine ⟨base, inBytes, hjoined (.inl ⟨rfl, hbelow'⟩) (.inl ⟨rfl, habove'⟩), .inl rfl, fun x => ?_⟩
      simp only [hbelow, habove, ne_eq, not_true, false_and, if_false, tryGetValue_set]
      split
      · rfl
      · split
        · next he => rw [he, habove']
        · rfl

/-- Adding bytes joins their interval to the ranges. -/
theorem Tidy.addRange (hbase : base ≠ 0) (hpos : 0 < inBytes)
    (hnew : Disjoint (Finset.Ico base (base + inBytes)) b.addresses) : (b.addRange base inBytes).Tidy ∧
      (b.addRange base inBytes).addresses = b.addresses ∪ Finset.Ico base (base + inBytes) := by
  have hnotMem : ∀ ptr, base ≤ ptr → ptr < base + inBytes → ptr ∉ b.addresses := fun ptr hle hlt =>
    disjoint_left.1 hnew (mem_Ico.2 ⟨hle, hlt⟩)
  have hfirst := hnotMem base le_rfl (by omega)
  obtain ⟨lo, bytes, hjoined, hlo, hlookup⟩ := h.tryGetValue_addRange hpos hfirst (hnotMem _ (by omega) (by omega))
  have hranges : (b.addRange base inBytes).ranges = join b.ranges (interval base inBytes) (interval lo bytes) := by
    ext r
    constructor
    · rintro ⟨x, y, hx, rfl⟩
      rw [hlookup] at hx
      split at hx
      · next he =>
        obtain rfl := some.inj hx
        exact .inr (he ▸ rfl)
      split at hx
      · cases hx
      next hxlo hxhi =>
      refine .inl ⟨⟨x, y, hx, rfl⟩, fun ht => ?_, fun ht => hxhi ht.2.symm⟩
      have hend : x + y = base := ht.2
      have hy := h.pos hx
      rcases hlo with rfl | ⟨n, hn, he⟩
      · rcases hjoined.lo with ⟨-, hno⟩ | ⟨_, ⟨k, n, hk, rfl⟩, ht', he⟩
        · exact hno _ ⟨x, y, hx, rfl⟩ ht
        · have hk' : k + n = lo := ht'.2
          have hn := h.pos hk
          change lo = k at he
          omega
      · have hn' := h.pos hn
        exact hxlo (@eq_of_mem _ (base - 1) _ _ hx h _ _ hn (by omega) (by omega) (by omega) (by omega)).1
    · rintro (⟨⟨x, y, hx, rfl⟩, hno, hno'⟩ | rfl)
      · refine ⟨x, y, ?_, rfl⟩
        rw [hlookup, if_neg, if_neg, hx]
        · exact fun he => hno' ⟨rfl, he.symm⟩
        · rintro rfl
          rcases hlo with rfl | ⟨n, hn, he⟩
          · exact hfirst (mem_addresses.2 ⟨x, y, hx, le_rfl, by have := h.pos hx; omega⟩)
          · obtain rfl := some.inj (hx.symm.trans hn)
            exact hno ⟨rfl, he⟩
      · exact ⟨lo, bytes, by rw [hlookup, if_pos rfl], rfl⟩
  have hlt : (interval base inBytes).lo < (interval base inBytes).hi := show base < base + inBytes by omega
  refine ⟨⟨?_, ?_⟩, ?_⟩
  · rw [hranges]
    refine h.tidy.join hlt ?_ hjoined
    rintro _ ⟨x, y, hx, rfl⟩ ⟨-, hlo', hhi'⟩
    have hy := h.pos hx
    exact hnotMem (max x base) (le_max_right _ _) (max_lt hlo' (by omega))
      (mem_addresses.2 ⟨x, y, hx, le_max_left _ _, max_lt (by omega) hhi'⟩)
  · have hlo0 : lo ≠ 0 := by
      rcases hlo with rfl | ⟨n, hn, -⟩
      · exact hbase
      · exact h.base_ne_zero hn
    rw [hlookup, if_neg hlo0.symm, if_neg (by omega), h.null]
  · ext ptr
    have hcover := mem_cover (b := b.addRange base inBytes) (p := ((), ptr))
    rw [← hcover, hranges, h.tidy.cover_join hlt hjoined, Finset.mem_union, mem_Ico]
    refine or_congr mem_cover ?_
    exact and_iff_right rfl

end

theorem tidy_empty : Tidy {} where
  tidy := by
    have hempty : ranges {} = ∅ := by
      ext r
      refine iff_of_false ?_ (Set.notMem_empty r)
      rintro ⟨k, n, hk, -⟩
      cases tryGetValue_empty.symm.trans hk
    rw [hempty]
    exact LineInterval.tidy_empty
  null := tryGetValue_empty

/-! ## Sizes -/

/-- `smallestBlockSize()` and the first block of that size, where there is a block. -/
def smallestBlock (b : ByteRanges) : Option (ℕ × ℕ) := do
  let size ← b.mBlocks.lowestValue
  let base ← (ascending (b.mBlocks.getKeys size)).head?
  return (base, size)

/-- The smallest size that is not below `inBytes`, and the first block of that size. -/
def lowerBound (b : ByteRanges) (inBytes : ℕ) : Option ℕ := do
  let size ← ((ascending b.mBlocks.mValueToKeys.keys).filter (inBytes ≤ ·)).head?
  (ascending (b.mBlocks.getKeys size)).head?

/-- There are as many addresses as the sizes add up to. -/
theorem Tidy.card_addresses (h : b.Tidy) :
    b.addresses.card = ∑ k ∈ b.mBlocks.mKeyToValue.keys, b.mBlocks.mKeyToValue.get k := by
  unfold addresses
  rw [card_biUnion]
  · exact sum_congr rfl fun k _ => by rw [Nat.card_Ico, Nat.add_sub_cancel_left]
  · intro k hk k' hk' hne
    obtain ⟨n, hn⟩ := mem_keys_iff.1 hk
    obtain ⟨n', hn'⟩ := mem_keys_iff.1 hk'
    refine disjoint_left.2 fun ptr hp hp' => hne ?_
    rw [mem_Ico, get_of_tryGetValue hn] at hp
    rw [mem_Ico, get_of_tryGetValue hn'] at hp'
    exact (h.eq_of_mem hn hn' hp.1 hp.2 hp'.1 hp'.2).1

theorem Tidy.smallestBlock_eq_some {base size : ℕ} (h : b.smallestBlock = some (base, size)) :
    b.mBlocks.tryGetValue base = some size := by
  obtain ⟨size', -, h⟩ := bind_eq_some_iff.1 h
  obtain ⟨base', hbase, h⟩ := bind_eq_some_iff.1 h
  obtain ⟨rfl, rfl⟩ := Prod.mk.inj (some.inj h)
  exact tryGetValue_of_head? hbase

/-- A value that the index lists has a first key. -/
theorem exists_head?_getKeys {size : ℕ} (h : size ∈ b.mBlocks.mValueToKeys.keys) :
    ∃ base, (ascending (b.mBlocks.getKeys size)).head? = some base := by
  obtain ⟨k, hk⟩ := hasValue_iff.1 (mem_keys.1 h)
  refine ne_none_iff_exists'.1 fun hnone => ?_
  have hmem := mem_ascending.2 (mem_getKeys.2 hk)
  rw [head?_eq_none_iff.1 hnone] at hmem
  cases hmem

theorem smallestBlock_eq_none (h : b.smallestBlock = none) : b.addresses = ∅ := by
  have hkeys : b.mBlocks.mValueToKeys.keys = ∅ := by
    refine eq_empty_of_forall_notMem fun size hsize => ?_
    unfold smallestBlock lowestValue at h
    cases hhead : (ascending b.mBlocks.mValueToKeys.keys).head? with
    | none =>
      have hmem := mem_ascending.2 hsize
      rw [head?_eq_none_iff.1 hhead] at hmem
      cases hmem
    | some lowest =>
      obtain ⟨base, hbase⟩ := exists_head?_getKeys (b := b) (mem_ascending.1 (mem_of_mem_head? hhead))
      rw [hhead] at h
      change (do let base ← (ascending (b.mBlocks.getKeys lowest)).head?; return (base, lowest)) = none at h
      rw [hbase] at h
      cases h
  refine eq_empty_of_forall_notMem fun ptr hptr => ?_
  obtain ⟨k, n, hk, -⟩ := mem_addresses.1 hptr
  have hvalue := mem_keys.2 (hasValue_iff.2 ⟨k, hk⟩)
  rw [hkeys] at hvalue
  exact notMem_empty _ hvalue

theorem lowerBound_eq_some (h : b.lowerBound inBytes = some base) :
    ∃ n, b.mBlocks.tryGetValue base = some n ∧ inBytes ≤ n := by
  obtain ⟨size, hsize, h⟩ := bind_eq_some_iff.1 h
  have hmem := mem_of_mem_head? hsize
  rw [mem_filter] at hmem
  exact ⟨size, tryGetValue_of_head? h, of_decide_eq_true hmem.2⟩

theorem lowerBound_eq_none (h : b.lowerBound inBytes = none) (hk : b.mBlocks.tryGetValue k = some n) : n < inBytes := by
  by_contra hle
  have hmem : n ∈ (ascending b.mBlocks.mValueToKeys.keys).filter (inBytes ≤ ·) := by
    rw [mem_filter, mem_ascending]
    exact ⟨mem_keys.2 (hasValue_iff.2 ⟨k, hk⟩), decide_eq_true (not_lt.1 hle)⟩
  unfold lowerBound at h
  cases hhead : ((ascending b.mBlocks.mValueToKeys.keys).filter (inBytes ≤ ·)).head? with
  | none =>
    rw [head?_eq_none_iff.1 hhead] at hmem
    cases hmem
  | some size =>
    have hsize := (mem_filter.1 (mem_of_mem_head? hhead)).1
    obtain ⟨base, hbase⟩ := exists_head?_getKeys (b := b) (mem_ascending.1 hsize)
    rw [hhead] at h
    cases h.symm.trans hbase

/-- A range that is dropped as a whole leaves one range less. -/
theorem Tidy.size_dropRange (h : b.Tidy) (hk : b.mBlocks.tryGetValue k = some n) :
    (b.dropRange k n).mBlocks.size + 1 = b.mBlocks.size := by
  have hpos := h.pos hk
  unfold ByteRanges.dropRange
  rw [h.rangeContaining_of_mem hk le_rfl (by omega)]
  dsimp only
  rw [if_neg (lt_irrefl _), if_neg (lt_irrefl _)]
  exact size_discard hk

end ByteRanges
