import Ufora.Vectors.TreeBalance

/-!
# Associating the values of a pagelet tree with a handle

`PageletTree::associateValues` (`FORA/VectorDataManager/PageletTree.cppml`) gives a `BigVectorHandle` the arrays
that hold the values of a tree at a sequence of positions. Each array comes with a `RangeToIntegerSequence`, which
says where in the array the value for an index of the handle is. An operation is `none` where an `lassert` of it
fails.

A position of the sequence is in one of the two sides of a node. The positions in one side are neighbours in the
sequence, so that they are a sequence with the same stride (`targets_part`).
-/

open Selection IntegerSequence List Option Function Int

/-- `RangeToIntegerSequence`: the indices from `lowIndex` on and before `highIndex` stand for the elements of an
arithmetic sequence. -/
structure RangeToIntegerSequence where
  lowIndex : ℤ
  highIndex : ℤ
  offset : ℤ
  stride : ℤ

namespace RangeToIntegerSequence

/-- `RangeToIntegerSequence(seq)`. -/
def ofSequence (seq : IntegerSequence) : RangeToIntegerSequence := ⟨0, seq.size, seq.offset, seq.stride⟩

variable (m : RangeToIntegerSequence)

def offsetForIndex (index : ℤ) : ℤ := m.offset + m.stride * index

def indexIsValid (index : ℤ) : Prop := index ≥ m.lowIndex ∧ index < m.highIndex
deriving Decidable

def width : ℤ := max 0 (m.highIndex - m.lowIndex)

/-- `offsetInputs(shiftBy)`: the same elements for other indices. -/
def offsetInputs (shiftBy : ℤ) : RangeToIntegerSequence :=
  ⟨m.lowIndex + shiftBy, m.highIndex + shiftBy, m.offset - m.stride * shiftBy, m.stride⟩

end RangeToIntegerSequence

namespace Fora

/-- `ForaValueArraySlice`; an array is the list of its values. -/
structure ForaValueArraySlice (α : Type) where
  array : List α
  mapping : RangeToIntegerSequence

namespace ForaValueArraySlice

variable {α : Type}

/-- The value that a slice has for an index (`operator[]`), if the index is valid. -/
def get (slice : ForaValueArraySlice α) (index : ℤ) : Option α :=
  if slice.mapping.indexIsValid index then nth slice.array (slice.mapping.offsetForIndex index) else none

/-- The valid indices of a slice, each with its value. -/
def entries (slice : ForaValueArraySlice α) : List (ℤ × Option α) :=
  (List.range slice.mapping.width.toNat).map fun (j : ℕ) =>
    (slice.mapping.lowIndex + j, slice.get (slice.mapping.lowIndex + j))

end ForaValueArraySlice

/-- `BigVectorHandle::associateArray(array, offset, sequence, pageId)`: what is given to the handle. -/
def BigVectorHandle.associateArray {α PageId : Type} (array : List α) (offset : ℤ) (sequence : IntegerSequence)
    (pageId : Option PageId) : ForaValueArraySlice α × Option PageId :=
  (⟨array, (RangeToIntegerSequence.ofSequence sequence).offsetInputs offset⟩, pageId)

namespace PageletTree

variable {α PageId : Type}

/-- `associateValues(inPtr, offset, valsWithinPage, pageId)`: the slices that the handle is given, in order. -/
def associateValues : PageletTree α → ℤ → IntegerSequence → Option PageId →
    Option (List (ForaValueArraySlice α × Option PageId))
  | leaf pagelet leafValuesUsed, offset, valsWithinPage, pageId =>
    if valsWithinPage.size = 0 then some []
    else do
      let sliceWithinArray ← valsWithinPage.intersect (range leafValuesUsed)
      if sliceWithinArray.size ≠ 0 then
        return [BigVectorHandle.associateArray pagelet offset sliceWithinArray pageId]
      else return []
  | node left leftPtrValuesUsed right rightPtrValuesUsed, offset, valsWithinPage, pageId =>
    if valsWithinPage.size = 0 then some []
    else do
      let leftSubrange ← valsWithinPage.intersect (range leftPtrValuesUsed)
      let rightSubrange ← valsWithinPage.intersect (range rightPtrValuesUsed leftPtrValuesUsed)
      let leftRangeOffset := offset + (leftSubrange.offset - valsWithinPage.offset).tdiv valsWithinPage.stride
      let rightRangeOffset := offset + (rightSubrange.offset - valsWithinPage.offset).tdiv valsWithinPage.stride
      let inLeft ← left.associateValues leftRangeOffset leftSubrange pageId
      let inRight ← right.associateValues rightRangeOffset (rightSubrange.offsetBy (-leftPtrValuesUsed)) pageId
      return inLeft ++ inRight

end PageletTree

end Fora

namespace IntegerSequence

variable {s t r : IntegerSequence} {low n off x : ℤ}

/-! ## Intersections with neighbouring integers -/

/-- An intersection that is not empty has the least common stride. -/
theorem intersectOrdered_stride (h : s.intersectOrdered t = some r) (h0 : r.size ≠ 0) :
    r.stride = Int.lcm t.stride s.stride := by
  unfold intersectOrdered at h
  simp only at h
  split at h
  · obtain rfl := some.inj h
    exact absurd rfl h0
  · simp only [bind_eq_bind, bind_eq_some_iff] at h
    obtain ⟨K, -, _, -, _, -, h⟩ := h
    split at h
    · obtain rfl := some.inj h
      exact absurd rfl h0
    · obtain rfl := some.inj h
      rfl

theorem intersectPositive_stride (hd : 0 < s.stride) (h : s.intersectPositive (range n low) = some r)
    (h0 : r.size ≠ 0) : r.stride = s.stride := by
  have habs : ((s.stride.natAbs : ℕ) : ℤ) = s.stride := by rw [Int.natCast_natAbs, abs_of_pos hd]
  unfold intersectPositive at h
  split at h
  · rw [intersectOrdered_stride h h0]
    show ((Int.lcm s.stride 1 : ℕ) : ℤ) = _
    rw [Int.lcm_one_right, habs]
  · rw [intersectOrdered_stride h h0]
    show ((Int.lcm 1 s.stride : ℕ) : ℤ) = _
    rw [Int.lcm_one_left, habs]

/-- The elements between two bounds are as far from each other as those of the sequence. -/
theorem intersect_range_stride (hd : s.stride ≠ 0) (h : s.intersect (range n low) = some r) (h0 : r.size ≠ 0) :
    r.stride = s.stride := by
  unfold intersect at h
  split at h
  · obtain rfl := some.inj h
    exact absurd rfl h0
  simp only [bind_eq_bind, bind_eq_some_iff] at h
  obtain ⟨_, -, h⟩ := h
  rw [if_neg (show ¬ (range n low).stride < 0 by show ¬ (1 : ℤ) < 0; omega)] at h
  split at h
  · rename_i hneg
    obtain ⟨q, hq, hr⟩ := bind_eq_some_iff.1 h
    obtain rfl := some.inj hr
    have hstride := intersectPositive_stride (s := s.reversed) (neg_pos.2 hneg) hq h0
    show -q.stride = s.stride
    rw [hstride]
    exact neg_neg _
  · exact intersectPositive_stride (by omega) h h0

/-! ## The elements with the indices that they are for -/

/-- The elements of a sequence, each with the index that it is for, where the first one is for `off`. -/
def targets (off : ℤ) (s : IntegerSequence) : List (ℤ × ℤ) :=
  (List.range s.size.toNat).map fun (i : ℕ) => (off + i, s.offsetForIndex i)

theorem targets_empty (h : s.size = 0) : targets off s = [] := by
  rw [targets, h]
  rfl

/-- The index of an element is found by dividing by the stride. -/
theorem targets_eq (hd : s.stride ≠ 0) : targets off s = s.values.map fun x =>
    (off + (x - s.offset) / s.stride, x) := by
  rw [targets, values, progression, List.map_map]
  refine map_congr_left fun i _ => ?_
  rw [comp_apply, offsetForIndex, add_sub_cancel_left, mul_ediv_cancel_left _ hd]

@[simp] theorem length_targets (off : ℤ) (s : IntegerSequence) : (targets off s).length = s.size.toNat := by
  rw [targets, length_map, length_range]

theorem head_targets (h : 0 < s.size) : (targets off s)[0]? = some (off, s.offset) := by
  have hlt : 0 < s.size.toNat := by omega
  rw [targets, getElem?_map, getElem?_range hlt]
  simp [offsetForIndex]

theorem targets_offsetBy (by' : ℤ) : targets off (s.offsetBy by') = (targets off s).map fun p => (p.1, p.2 + by') := by
  rw [targets, targets, List.map_map]
  refine map_congr_left fun i _ => ?_
  show (off + (i : ℤ), s.offset + by' + s.stride * i) = (off + (i : ℤ), s.offset + s.stride * i + by')
  rw [add_right_comm]

theorem dvd_of_mem_values (h : x ∈ s.values) : s.stride ∣ x - s.offset := by
  rw [values, mem_progression] at h
  obtain ⟨k, -, rfl⟩ := h
  rw [add_sub_cancel_left]
  exact dvd_mul_right ..

theorem offset_mem_values (h : 0 < s.size) : s.offset ∈ s.values := by
  rw [values, mem_progression]
  exact ⟨0, by omega, by simp⟩

/-- The elements between two bounds, from the index on that the division finds for the first of them, are for
the indices that they are for in the whole sequence. -/
theorem targets_part (off low : ℤ) (hs : 0 ≤ s.size) (hd : s.stride ≠ 0) (hn : 0 ≤ n) :
    ∃ r, s.intersect (range n low) = some r ∧ 0 ≤ r.size ∧ (r.size ≠ 0 → r.stride ≠ 0) ∧
      (∀ x ∈ r.values, x ∈ s.values ∧ low ≤ x ∧ x < low + n) ∧
      targets (off + (r.offset - s.offset).tdiv s.stride) r =
        (targets off s).filter fun p => low ≤ p.2 ∧ p.2 < low + n := by
  obtain ⟨r, hr, hsize, -, hvalues⟩ := intersect_values hs (t := range n low) hn hd one_ne_zero
  have hin : r.values = s.values.filter fun x => low ≤ x ∧ x < low + n := by
    rw [hvalues]
    exact filter_congr fun x _ => by rw [decide_eq_decide, mem_range_values]
  have hmem : ∀ x ∈ r.values, x ∈ s.values ∧ low ≤ x ∧ x < low + n := by
    intro x hx
    rw [hin, mem_filter, decide_eq_true_iff] at hx
    exact hx
  have hpart : ((targets off s).filter fun p => low ≤ p.2 ∧ p.2 < low + n) =
      r.values.map fun x => (off + (x - s.offset) / s.stride, x) := by
    rw [targets_eq hd, List.filter_map, hin]
    rfl
  refine ⟨r, hr, hsize, fun h0 => ?_, hmem, ?_⟩
  · rw [intersect_range_stride hd hr h0]
    exact hd
  rw [hpart]
  rcases eq_or_ne r.size 0 with h0 | h0
  · rw [targets_empty h0, values_eq_nil h0]
    rfl
  · have hstride := intersect_range_stride hd hr h0
    have hfirst := dvd_of_mem_values (hmem _ (offset_mem_values (by omega))).1
    rw [targets_eq (hstride ▸ hd)]
    refine map_congr_left fun x _ => ?_
    rw [hstride, tdiv_eq_ediv_of_dvd hfirst, add_assoc, ← add_ediv_of_dvd_left hfirst, sub_add_sub_cancel']

end IntegerSequence

namespace Fora

open IntegerSequence

variable {α PageId : Type} {t : PageletTree α} {vals : IntegerSequence} {off : ℤ}

/-- A slice has the values of the array at the elements of the sequence. -/
theorem entries_associateArray {pagelet : List α} {pageId : Option PageId} (h : 0 ≤ vals.size) :
    (BigVectorHandle.associateArray pagelet off vals pageId).1.entries =
      (targets off vals).map fun p => (p.1, nth pagelet p.2) := by
  have hwidth : max 0 (vals.size + off - (0 + off)) = vals.size := by omega
  unfold ForaValueArraySlice.entries targets
  rw [List.map_map]
  show (List.range (max 0 (vals.size + off - (0 + off))).toNat).map _ = _
  rw [hwidth]
  refine map_congr_left fun i hi => ?_
  have hlt : (i : ℤ) < vals.size := by
    have := mem_range.1 hi
    omega
  have hvalid : ((RangeToIntegerSequence.ofSequence vals).offsetInputs off).indexIsValid (0 + off + i) :=
    ⟨by show 0 + off + (i : ℤ) ≥ 0 + off; omega, by show 0 + off + (i : ℤ) < vals.size + off; omega⟩
  show (0 + off + (i : ℤ), ForaValueArraySlice.get _ (0 + off + (i : ℤ))) = _
  rw [ForaValueArraySlice.get, BigVectorHandle.associateArray, if_pos hvalid]
  show (0 + off + (i : ℤ), nth pagelet (vals.offset - vals.stride * off + vals.stride * (0 + off + i))) =
    (off + (i : ℤ), nth pagelet (vals.offset + vals.stride * i))
  rw [zero_add, show vals.offset - vals.stride * off + vals.stride * (off + i) = vals.offset + vals.stride * i by ring]

namespace PageletTree

/-- What the slices given to a handle say together. -/
def entriesOf (slices : List (ForaValueArraySlice α × Option PageId)) : List (ℤ × Option α) :=
  slices.flatMap fun slice => slice.1.entries

/-- The entry that a handle should have for an index and a position of the tree. -/
def entryAt (t : PageletTree α) (p : ℤ × ℤ) : ℤ × Option α := (p.1, nth t.values p.2)

/-- A sequence that has a stride where it has elements. -/
structure Proper (vals : IntegerSequence) : Prop where
  size_nonneg : 0 ≤ vals.size
  stride_ne_zero : vals.size ≠ 0 → vals.stride ≠ 0

theorem mem_values_of_mem_targets {p : ℤ × ℤ} (h : p ∈ targets off vals) : p.2 ∈ vals.values := by
  rw [targets, List.mem_map] at h
  obtain ⟨i, hi, rfl⟩ := h
  rw [IntegerSequence.values, mem_progression]
  exact ⟨i, mem_range.1 hi, rfl⟩

theorem nth_take {xs : List α} {k : ℕ} {x : ℤ} (h : x < k) : nth (xs.take k) x = nth xs x := by
  unfold nth
  split
  · rw [getElem?_take_of_lt (by omega)]
  · rfl

variable {left right : PageletTree α} {leftUsed rightUsed : ℕ}

/-- The values at positions in the left side of a node. -/
theorem nth_node_left {x : ℤ} (h : left.WellFormed) (hle : leftUsed ≤ left.size) (hx : x < leftUsed) :
    nth (node left leftUsed right rightUsed).values x = nth left.values x := by
  have hlen : (left.values.take leftUsed).length = leftUsed := by
    rw [length_take, length_values h, min_eq_left hle]
  rw [values, nth_append_left (by omega), nth_take hx]

/-- The values at positions in the right side of a node. -/
theorem nth_node_right {x : ℤ} (h : left.WellFormed)
    (hle : leftUsed ≤ left.size) (hx : leftUsed ≤ x) (hlt : x < leftUsed + rightUsed) :
    nth (node left leftUsed right rightUsed).values x = nth right.values (x - leftUsed) := by
  have hlen : (left.values.take leftUsed).length = leftUsed := by
    rw [length_take, length_values h, min_eq_left hle]
  rw [values, nth_append_right (by omega), hlen, nth_take (by omega)]

/-- The entries of the two sides of a node, where the positions in the right one are counted from its start. -/
theorem perm_sides (h : left.WellFormed) (hle : leftUsed ≤ left.size) {ps : List (ℤ × ℤ)}
    (hps : ∀ p ∈ ps, 0 ≤ p.2 ∧ p.2 < leftUsed + (rightUsed : ℤ)) :
    ((ps.filter fun p => 0 ≤ p.2 ∧ p.2 < 0 + (leftUsed : ℤ)).map left.entryAt ++
      ((ps.filter fun p => (leftUsed : ℤ) ≤ p.2 ∧ p.2 < leftUsed + (rightUsed : ℤ)).map
        fun p => (p.1, p.2 + -(leftUsed : ℤ))).map right.entryAt).Perm
      (ps.map (node left leftUsed right rightUsed).entryAt) := by
  have hleft : (ps.filter fun p => 0 ≤ p.2 ∧ p.2 < 0 + (leftUsed : ℤ)).map left.entryAt =
      (ps.filter fun p => 0 ≤ p.2 ∧ p.2 < 0 + (leftUsed : ℤ)).map (node left leftUsed right rightUsed).entryAt := by
    refine map_congr_left fun p hp => ?_
    have hin := of_decide_eq_true (mem_filter.1 hp).2
    rw [entryAt, entryAt, nth_node_left h hle (by omega)]
  have hright : ((ps.filter fun p => (leftUsed : ℤ) ≤ p.2 ∧ p.2 < leftUsed + (rightUsed : ℤ)).map
        fun p => (p.1, p.2 + -(leftUsed : ℤ))).map right.entryAt =
      (ps.filter fun p => !decide (0 ≤ p.2 ∧ p.2 < 0 + (leftUsed : ℤ))).map
        (node left leftUsed right rightUsed).entryAt := by
    have hnot : (ps.filter fun p => (leftUsed : ℤ) ≤ p.2 ∧ p.2 < leftUsed + (rightUsed : ℤ)) =
        ps.filter fun p => !decide (0 ≤ p.2 ∧ p.2 < 0 + (leftUsed : ℤ)) := by
      refine filter_congr fun p hp => ?_
      have hin := hps p hp
      rw [← decide_not, decide_eq_decide]
      omega
    rw [List.map_map, ← hnot]
    refine map_congr_left fun p hp => ?_
    have hin := of_decide_eq_true (mem_filter.1 hp).2
    rw [comp_apply, entryAt, entryAt, nth_node_right h hle hin.1 hin.2, sub_eq_add_neg]
  rw [hleft, hright, ← map_append]
  exact (filter_append_perm _ _).map _

/-- Each position of a sequence is given to the handle once, for its index and with its value. -/
theorem associateValues_entries (hwf : t.WellFormed) (hp : Proper vals)
    (hvals : ∀ x ∈ vals.values, 0 ≤ x ∧ x < t.size) (pageId : Option PageId) :
    ∃ slices, t.associateValues off vals pageId = some slices ∧
      (entriesOf slices).Perm ((targets off vals).map t.entryAt) := by
  induction t generalizing vals off with
  | leaf pagelet used =>
    unfold associateValues
    rcases eq_or_ne vals.size 0 with h0 | h0
    · rw [if_pos h0, targets_empty h0]
      exact ⟨[], rfl, .refl _⟩
    rw [if_neg h0]
    have hpos : 0 < vals.size := lt_of_le_of_ne hp.size_nonneg (Ne.symm h0)
    obtain ⟨r, hr, hsize, -, -, htargets⟩ := targets_part off 0 (n := used) hp.size_nonneg
      (hp.stride_ne_zero h0) (by omega)
    have hall : ∀ p ∈ targets off vals, 0 ≤ p.2 ∧ p.2 < 0 + (used : ℤ) := by
      intro p hmem
      have := hvals _ (mem_values_of_mem_targets hmem)
      rwa [zero_add]
    rw [filter_eq_self.2 fun p hmem => decide_eq_true (hall p hmem)] at htargets
    have hlen := congrArg length htargets
    rw [length_targets, length_targets] at hlen
    have hrpos : 0 < r.size := by omega
    -- The first position is in the array, so that the index does not move.
    have hhead := congrArg (·[0]?) htargets
    simp only [head_targets hpos, head_targets hrpos, some.injEq, Prod.mk.injEq] at hhead
    rw [hhead.1] at htargets
    rw [hr]
    simp only [bind_eq_bind, bind_some]
    rw [if_pos hrpos.ne']
    refine ⟨_, rfl, ?_⟩
    rw [entriesOf, flatMap_singleton, entries_associateArray hsize, htargets]
    refine List.Perm.of_eq (map_congr_left fun p hmem => ?_)
    have := hall p hmem
    rw [entryAt, values, nth_take (by omega)]
  | node left leftUsed right rightUsed ihl ihr =>
    obtain ⟨⟨hl, hlwf⟩, hr, hrwf⟩ := hwf
    unfold associateValues
    rcases eq_or_ne vals.size 0 with h0 | h0
    · rw [if_pos h0, targets_empty h0]
      exact ⟨[], rfl, .refl _⟩
    rw [if_neg h0]
    have hd := hp.stride_ne_zero h0
    obtain ⟨leftSubrange, hleft, hlsize, hlstride, hlmem, hltargets⟩ :=
      targets_part off 0 hp.size_nonneg hd (n := leftUsed) (by omega)
    obtain ⟨rightSubrange, hright, hrsize, hrstride, hrmem, hrtargets⟩ :=
      targets_part off leftUsed hp.size_nonneg hd (n := rightUsed) (by omega)
    rw [hleft, hright]
    simp only [bind_eq_bind, bind_some]
    have hlproper : Proper leftSubrange := ⟨hlsize, hlstride⟩
    have hrproper : Proper (rightSubrange.offsetBy (-leftUsed)) := ⟨hrsize, hrstride⟩
    have hlin : ∀ x ∈ leftSubrange.values, 0 ≤ x ∧ x < left.size := by
      intro x hx
      have := (hlmem x hx).2
      omega
    have hrin : ∀ x ∈ (rightSubrange.offsetBy (-leftUsed)).values, 0 ≤ x ∧ x < right.size := by
      intro x hx
      rw [values_offsetBy] at hx
      obtain ⟨y, hy, rfl⟩ := mem_map.1 hx
      have := (hrmem y hy).2
      omega
    obtain ⟨inLeft, hinLeft, hlperm⟩ :=
      @ihl leftSubrange (off + (leftSubrange.offset - vals.offset).tdiv vals.stride) hlwf hlproper hlin
    obtain ⟨inRight, hinRight, hrperm⟩ :=
      @ihr (rightSubrange.offsetBy (-leftUsed)) (off + (rightSubrange.offset - vals.offset).tdiv vals.stride)
        hrwf hrproper hrin
    rw [hinLeft, hinRight]
    refine ⟨inLeft ++ inRight, rfl, ?_⟩
    rw [hltargets] at hlperm
    rw [targets_offsetBy, hrtargets] at hrperm
    rw [entriesOf, flatMap_append]
    refine (hlperm.append hrperm).trans (perm_sides hlwf hl fun p hmem => ?_)
    have hin := hvals _ (mem_values_of_mem_targets hmem)
    exact_mod_cast hin

/-! ## Collapsing -/

/-- Collapsing keeps the number of values, so that the sides of a node have the values that are used of them. -/
theorem withSmallPageletsCollapsed_total (wantsCollapse : PageletTree α → Bool) (h : t.WellFormed) :
    ∃ l, t.withSmallPageletsCollapsed wantsCollapse = some l ∧ l.size = t.size := by
  induction t with
  | leaf pagelet used => exact ⟨_, rfl, rfl⟩
  | node left leftUsed right rightUsed ihl ihr =>
    unfold withSmallPageletsCollapsed
    split
    · have hlen : leftUsed + rightUsed ≤ (node left leftUsed right rightUsed).collapseToSinglePagelet.length := by
        rw [collapseToSinglePagelet_eq h, length_values h]
        exact le_rfl
      unfold ofPagelet
      rw [guard_pos hlen]
      exact ⟨_, rfl, rfl⟩
    · obtain ⟨newLeft, hleft, hlsize⟩ := ihl h.1.2
      obtain ⟨newRight, hright, hrsize⟩ := ihr h.2.2
      rw [hleft, hright]
      simp only [bind_eq_bind, bind_some]
      unfold ofTrees
      rw [guard_pos (hlsize ▸ h.1.1), guard_pos (hrsize ▸ h.2.1)]
      exact ⟨_, rfl, rfl⟩

/-- The slices of the arrays that a handle is given have, together, one entry for each element of the sequence:
for the index that is as far from the offset as the element is from the start of the sequence, with the value of the
tree at the element. Collapsing a tree, in part or as a whole, leaves its values as they are. -/
theorem associateValues_correct (hwf : t.WellFormed) (hvals : vals.Inside t.size) (off : ℤ)
    (pageId : Option PageId) (wantsCollapse : PageletTree α → Bool) :
    (∃ slices, t.associateValues off vals pageId = some slices ∧
      (entriesOf slices).Perm ((List.range vals.size.toNat).map fun (i : ℕ) =>
        (off + i, nth t.values (vals.offsetForIndex i)))) ∧
    (∃ l, t.withSmallPageletsCollapsed wantsCollapse = some l ∧ l.WellFormed ∧ l.size = t.size ∧
      ∀ x, nth l.values x = nth t.values x) ∧
    ∀ x, nth t.collapseToSinglePagelet x = nth t.values x := by
  refine ⟨?_, ?_, fun x => by rw [collapseToSinglePagelet_eq hwf]⟩
  · obtain ⟨slices, hslices, hperm⟩ := associateValues_entries hwf
      ⟨hvals.size_nonneg, fun _ => hvals.stride_ne_zero⟩ hvals.mem_bounds pageId
    refine ⟨slices, hslices, hperm.trans (.of_eq ?_)⟩
    rw [targets, List.map_map]
    rfl
  · obtain ⟨l, hl, hsize⟩ := withSmallPageletsCollapsed_total wantsCollapse hwf
    obtain ⟨hlwf, hvalues⟩ := withSmallPageletsCollapsed_holds hwf hl
    exact ⟨l, hl, hlwf, hsize, fun x => by rw [hvalues]⟩

/-- The values of two leaves, where one value of the second is not used, backwards. -/
theorem associateValues_correct_backwards :
    (∃ slices, (node (leaf [1, 2] 2) 2 (leaf [3, 4] 2) 1).associateValues 5 ⟨3, 2, -1⟩ (some ()) = some slices ∧
      (entriesOf slices).Perm ((List.range (3 : ℤ).toNat).map fun (i : ℕ) => ((5 : ℤ) + i,
        nth (node (leaf [1, 2] 2) 2 (leaf [3, 4] 2) 1).values ((⟨3, 2, -1⟩ : IntegerSequence).offsetForIndex i)))) ∧
    (∃ l, (node (leaf [1, 2] 2) 2 (leaf [3, 4] 2) 1).withSmallPageletsCollapsed (fun _ => true) = some l ∧
      l.WellFormed ∧ l.size = (node (leaf [1, 2] 2) 2 (leaf [3, 4] 2) 1).size ∧
      ∀ x, nth l.values x = nth (node (leaf [1, 2] 2) 2 (leaf [3, 4] 2) 1).values x) ∧
    ∀ x, nth (node (leaf [1, 2] 2) 2 (leaf [3, 4] 2) 1).collapseToSinglePagelet x =
      nth (node (leaf [1, 2] 2) 2 (leaf [3, 4] 2) 1).values x := by
  refine associateValues_correct ?_ ?_ 5 (some ()) fun _ => true
  · exact ⟨⟨by decide, show 2 ≤ 2 by decide⟩, by decide, show 2 ≤ 2 by decide⟩
  · exact ⟨by decide, by decide, by decide⟩

end PageletTree

end Fora
