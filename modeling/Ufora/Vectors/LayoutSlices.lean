import Ufora.Vectors.BigVectorPageLayout

/-!
# The values of a page layout

What each operation of `BigVectorPageLayout` does to the list of values that a layout stands for.
-/

open Selection Ordered IntegerSequence List Option Effect

namespace TypedFora.Vectors

namespace VectorDataIDSlice

variable {s t u : VectorDataIDSlice} {seq : IntegerSequence}

theorem length_elements (hs : 0 ≤ s.size) : (s.elements.length : ℤ) = s.size := by
  rw [elements, length_map, length_values]
  exact Int.toNat_of_nonneg hs

theorem sliceBounds_elements (hs : 0 ≤ s.size) {low high stride : Option ℤ} (hd : stride ≠ some 0) :
    ∃ r, s.sliceBounds low high stride = some r ∧ 0 ≤ r.size ∧
      r.elements = select s.elements (slicePositions s.elements.length low high stride) := by
  obtain ⟨r, hr, hsize, -, hvalues⟩ := (@sliceBounds_values _ hs low high) hd
  refine ⟨⟨s.vector, r⟩, by rw [sliceBounds, hr]; rfl, hsize, ?_⟩
  rw [elements, hvalues, elements, select_map, length_map, length_values]

theorem sliceSequence_elements (hs : 0 ≤ s.size) (hq : 0 ≤ seq.size) (hd : seq.stride ≠ 0) :
    ∃ r, s.sliceSequence seq = some r ∧ 0 ≤ r.size ∧ r.elements = select s.elements seq.values := by
  obtain ⟨r, hr, hsize, hvalues⟩ := sliceSequence_values hs hq hd
  refine ⟨⟨s.vector, r⟩, by rw [sliceSequence, hr]; rfl, hsize, ?_⟩
  rw [elements, hvalues, elements, select_map]

/-- Sequential slices are one slice. -/
theorem isSequentialWith_elements (hs : 0 ≤ s.size) (ht : 0 ≤ t.size) (h : s.isSequentialWith t = some u) :
    u.size = s.size + t.size ∧ u.elements = s.elements ++ t.elements := by
  unfold isSequentialWith at h
  split at h
  · cases h
  next hv =>
  obtain ⟨q, hq, rfl⟩ := map_eq_some_iff.1 h
  unfold IntegerSequence.isSequentialWith at hq
  split at hq
  · cases hq
  next hstride =>
  split at hq
  · cases hq
  next hoffset =>
  cases hq
  refine ⟨rfl, ?_⟩
  have hs' : 0 ≤ s.slice.size := hs
  have ht' : 0 ≤ t.slice.size := ht
  simp only [elements, values, ← map_append, not_not.1 hv, ← not_not.1 hstride, ← not_not.1 hoffset]
  rw [Int.toNat_add hs' ht', progression_add, Int.toNat_of_nonneg hs', mul_comm s.slice.stride]

end VectorDataIDSlice

namespace BigVectorPageLayout

variable {layout lhs rhs : BigVectorPageLayout} {slices : List VectorDataIDSlice} {guid : Hash} {k : ℕ}
  {x low high : ℤ}

@[simp] theorem elementsOf_append (a b : List VectorDataIDSlice) :
    elementsOf (a ++ b) = elementsOf a ++ elementsOf b := flatMap_append

@[simp] theorem elementsOf_singleton (s : VectorDataIDSlice) : elementsOf [s] = s.elements := flatMap_singleton ..

variable (slices)

/-- The lists of values of the page slices. -/
def parts : List (List (VectorDataID × ℤ)) := slices.map VectorDataIDSlice.elements

theorem flatten_parts : (parts slices).flatten = elementsOf slices := rfl

@[simp] theorem length_parts : (parts slices).length = slices.length := length_map _

variable {slices}

/-- Where a page slice starts. -/
theorem start_parts (h : ∀ s ∈ slices, 0 < s.size) (k : ℕ) :
    (start (parts slices) k : ℤ) = ((slices.take k).map VectorDataIDSlice.size).sum := by
  rw [start, parts, ← map_take, List.map_map]
  have htake : ∀ s ∈ slices.take k, 0 < s.size := fun s hs => h s (mem_of_mem_take hs)
  generalize slices.take k = l at htake
  induction l with
  | nil => rfl
  | cons s l ih =>
    simp only [map_cons, sum_cons, Nat.cast_add, Function.comp_apply]
    rw [ih fun t ht => htake t (.tail _ ht), s.length_elements (htake s (.head _)).le]

theorem length_elementsOf (h : ∀ s ∈ slices, 0 < s.size) :
    ((elementsOf slices).length : ℤ) = (slices.map VectorDataIDSlice.size).sum := by
  rw [← flatten_parts, ← start_length, start_parts h, length_parts, take_length]

theorem WellFormed.length_elements (h : layout.WellFormed) : (layout.elements.length : ℤ) = layout.size := by
  rw [elements, length_elementsOf h.nonempty, h.size_eq]

/-! ## Construction -/

theorem runningTotals_append (slices : List VectorDataIDSlice) (s : VectorDataIDSlice) :
    runningTotals (slices ++ [s]) = runningTotals slices ++ [(slices.map VectorDataIDSlice.size).sum + s.size] := by
  rw [runningTotals, length_append, length_singleton, range_succ, map_append, runningTotals]
  refine congrArg₂ _ (map_congr_left fun k hk => ?_) ?_
  · rw [take_append_of_le_length (mem_range.1 hk)]
  · rw [map_singleton, take_of_length_le (by simp), map_append, sum_append]
    simp

/-- The totals that the loop of the constructor collects. -/
theorem foldl_add (h : ∀ s ∈ slices, 0 < s.size) : let totals := slices.foldl Totals.add {}
    totals.cumulativeOffset = (slices.map VectorDataIDSlice.size).sum ∧ 0 ≤ totals.cumulativeOffset ∧
      ascending totals.cumulativeSizes = runningTotals slices ∧
      ∀ total ∈ totals.cumulativeSizes, total ≤ totals.cumulativeOffset := by
  induction slices using reverseRecOn with
  | nil => exact ⟨rfl, le_rfl, rfl, nofun⟩
  | append_singleton slices s ih =>
    have hs : 0 < s.size := h s (by simp)
    obtain ⟨hoffset, hnn, hsizes, hle⟩ := ih fun t ht => h t (mem_append_left _ ht)
    rw [foldl_append, foldl_cons, foldl_nil]
    simp only [Totals.add]
    refine ⟨by simp [hoffset], by omega, ?_, fun total ht => ?_⟩
    · rw [ascending_insert_of_lt fun total ht => lt_of_le_of_lt (hle total ht) (by omega), hsizes,
        runningTotals_append, hoffset]
    · rcases Finset.mem_insert.1 ht with rfl | ht
      · exact le_rfl
      · have := hle total ht
        omega

/-- A layout that the constructor makes of nonempty slices. -/
theorem ofSlices_wellFormed (h : ∀ s ∈ slices, 0 < s.size) (guid : Hash) : (ofSlices slices guid).WellFormed := by
  obtain ⟨hoffset, hnn, hsizes, -⟩ := foldl_add h
  exact ⟨h, hsizes, (Int.toNat_of_nonneg hnn).trans hoffset⟩

theorem ofSlices_elements (slices : List VectorDataIDSlice) (guid : Hash) :
    (ofSlices slices guid).elements = elementsOf slices := rfl

/-- The layout without slices. -/
theorem wellFormed_empty : WellFormed {} := ⟨nofun, rfl, rfl⟩

/-- A slice that is added unless it is empty. -/
theorem append_nonempty {newIds : List VectorDataIDSlice} {s : VectorDataIDSlice}
    (hne : ∀ t ∈ newIds, 0 < t.size) (hs : 0 ≤ s.size) :
    (∀ t ∈ if s.size ≠ 0 then newIds ++ [s] else newIds, 0 < t.size) ∧
      elementsOf (if s.size ≠ 0 then newIds ++ [s] else newIds) = elementsOf newIds ++ s.elements := by
  split
  · refine ⟨fun t ht => ?_, by simp⟩
    rcases mem_append.1 ht with ht | ht
    · exact hne t ht
    · obtain rfl := mem_singleton.1 ht
      omega
  · next hz =>
    have hzero : s.slice.size = 0 := not_not.1 hz
    refine ⟨hne, ?_⟩
    rw [VectorDataIDSlice.elements, values_eq_nil hzero]
    simp

/-! ## Concatenation -/

/-- A concatenation stands for the values of both layouts. -/
theorem concatenate_elements (hl : lhs.WellFormed) (hr : rhs.WellFormed) (guid : Hash) :
    (concatenate lhs rhs guid).WellFormed ∧ (concatenate lhs rhs guid).elements = lhs.elements ++ rhs.elements := by
  unfold concatenate
  generalize hf : (fun slices next => _) = f
  suffices h : (∀ s ∈ rhs.vectorIdentities.foldl f lhs.vectorIdentities, 0 < s.size) ∧
      elementsOf (rhs.vectorIdentities.foldl f lhs.vectorIdentities) = lhs.elements ++ rhs.elements by
    exact ⟨ofSlices_wellFormed h.1 guid, h.2⟩
  unfold elements
  have hr := hr.nonempty
  generalize rhs.vectorIdentities = more at hr
  induction more using reverseRecOn with
  | nil => exact ⟨hl.nonempty, (append_nil _).symm⟩
  | append_singleton more next ih =>
    obtain ⟨hne, helements⟩ := ih fun s hs => hr s (mem_append_left _ hs)
    have hnext : 0 < next.size := hr next (by simp)
    rw [foldl_append, foldl_cons, foldl_nil, elementsOf_append, ← append_assoc, ← helements]
    generalize more.foldl f lhs.vectorIdentities = slices at hne
    subst hf
    simp only
    split
    · next fused hfused =>
      obtain ⟨last, hlast, hseq⟩ := bind_eq_some_iff.1 hfused
      obtain ⟨before, rfl⟩ := getLast?_eq_some_iff.1 hlast
      have hlastpos : 0 < last.size := hne last (by simp)
      obtain ⟨hsize, helems⟩ := VectorDataIDSlice.isSequentialWith_elements hlastpos.le hnext.le hseq
      rw [dropLast_concat]
      refine ⟨fun s hs => ?_, ?_⟩
      · rcases mem_append.1 hs with hs | hs
        · exact hne s (mem_append_left _ hs)
        · obtain rfl := mem_singleton.1 hs
          omega
      · simp [helems]
    · refine ⟨fun s hs => ?_, by simp⟩
      rcases mem_append.1 hs with hs | hs
      · exact hne s hs
      · obtain rfl := mem_singleton.1 hs
        exact hnext

/-! ## Where the page slices lie -/

/-- Position `x` lies in the page slice `k`. -/
structure Holds (layout : BigVectorPageLayout) (k : ℕ) (x : ℤ) : Prop where
  lt : k < layout.vectorIdentities.length
  start_le : (start (parts layout.vectorIdentities) k : ℤ) ≤ x
  lt_start : x < (start (parts layout.vectorIdentities) (k + 1) : ℤ)

section

variable (h : layout.WellFormed)
include h

/-- A page slice is not empty. -/
theorem WellFormed.start_lt (hk : k < layout.vectorIdentities.length) :
    (start (parts layout.vectorIdentities) (k + 1) : ℤ) = start (parts layout.vectorIdentities) k +
      layout.vectorIdentities[k].size ∧ 0 < layout.vectorIdentities[k].size := by
  have hpos := h.nonempty _ (getElem_mem hk)
  refine ⟨?_, hpos⟩
  rw [start_succ (by simpa using hk), Nat.cast_add]
  simp only [parts, getElem_map]
  rw [VectorDataIDSlice.length_elements hpos.le]

theorem WellFormed.start_length :
    (start (parts layout.vectorIdentities) layout.vectorIdentities.length : ℤ) = layout.size := by
  rw [start_parts h.nonempty, take_length, h.size_eq]

theorem WellFormed.length_cumulative : (ascending layout.cumulativeSizes).length = layout.vectorIdentities.length := by
  rw [h.cumulative, runningTotals, length_map, length_range]

theorem WellFormed.card_cumulative : layout.cumulativeSizes.card = layout.vectorIdentities.length := by
  rw [← length_ascending, h.length_cumulative]

theorem WellFormed.getElem?_cumulative (hk : k < layout.vectorIdentities.length) :
    (ascending layout.cumulativeSizes)[k]? = some (start (parts layout.vectorIdentities) (k + 1) : ℤ) := by
  rw [h.cumulative, runningTotals, getElem?_map, getElem?_range hk, start_parts h.nonempty]
  rfl

theorem WellFormed.startIndex_eq (hk : k ≤ layout.vectorIdentities.length) :
    layout.startIndex k = some (start (parts layout.vectorIdentities) k : ℤ) := by
  unfold startIndex
  split
  · next h0 => rw [h0]; rfl
  · next h0 => rw [h.getElem?_cumulative (by omega), Nat.sub_add_cancel (by omega)]

/-- How many totals are below a value. -/
theorem WellFormed.lowerBound_spec (x : ℤ) : lowerBound layout.cumulativeSizes x ≤ layout.vectorIdentities.length ∧
      (∀ k < lowerBound layout.cumulativeSizes x, (start (parts layout.vectorIdentities) (k + 1) : ℤ) < x) ∧
      (lowerBound layout.cumulativeSizes x < layout.vectorIdentities.length →
        x ≤ (start (parts layout.vectorIdentities) (lowerBound layout.cumulativeSizes x + 1) : ℤ)) := by
  have hsplit := takeWhile_append_dropWhile (p := fun y => decide (y < x)) (l := ascending layout.cumulativeSizes)
  have hlen := congrArg length hsplit
  rw [length_append, h.length_cumulative, ← lowerBound] at hlen
  refine ⟨by omega, fun k hk => ?_, fun hlt => ?_⟩
  · have hget := h.getElem?_cumulative (k := k) (by omega)
    rw [← hsplit, getElem?_append_left hk] at hget
    simpa using mem_takeWhile_imp (mem_of_getElem? hget)
  · have hget := h.getElem?_cumulative hlt
    generalize (start (parts layout.vectorIdentities) _ : ℤ) = total at hget ⊢
    rw [← hsplit, lowerBound, getElem?_append_right le_rfl, Nat.sub_self, ← head?_eq_getElem?] at hget
    have hne : (ascending layout.cumulativeSizes).dropWhile (fun y => decide (y < x)) ≠ [] := by
      intro he
      rw [he] at hget
      cases hget
    have hnot := head_dropWhile_not (fun y => decide (y < x)) hne
    rw [head?_eq_some_head hne, some.injEq] at hget
    rw [hget] at hnot
    simpa using hnot

/-- A position of the layout lies in the page slice that the totals tell. -/
theorem WellFormed.holds_of_lowerBound (h0 : 0 ≤ x) (hx : x < layout.size) :
    ∃ k, layout.Holds k x ∧ lowerBound layout.cumulativeSizes x < layout.vectorIdentities.length ∧
      (if (start (parts layout.vectorIdentities) (lowerBound layout.cumulativeSizes x + 1) : ℤ) = x then
        lowerBound layout.cumulativeSizes x + 1 else lowerBound layout.cumulativeSizes x) = k := by
  obtain ⟨hle, hbelow, habove⟩ := h.lowerBound_spec x
  generalize lowerBound layout.cumulativeSizes x = lb at hle hbelow habove ⊢
  have hlast := h.start_length
  have hlb : lb < layout.vectorIdentities.length := by
    refine lt_of_le_of_ne hle fun he => ?_
    rcases Nat.eq_zero_or_pos lb with hz | hpos
    · subst hz
      rw [← he, start_zero] at hlast
      omega
    · have := hbelow (lb - 1) (by omega)
      rw [Nat.sub_add_cancel hpos, he] at this
      omega
  refine ⟨_, ?_, hlb, rfl⟩
  split
  · next heq =>
    have hnext : lb + 1 < layout.vectorIdentities.length := by
      refine lt_of_le_of_ne hlb fun he => ?_
      rw [he] at heq
      omega
    have hstep := h.start_lt hnext
    exact ⟨hnext, heq.le, by omega⟩
  · next hne =>
    refine ⟨hlb, ?_, by omega⟩
    rcases Nat.eq_zero_or_pos lb with hz | hpos
    · rw [hz]
      simpa using h0
    · have := hbelow (lb - 1) (by omega)
      rw [Nat.sub_add_cancel hpos] at this
      exact this.le

/-- `sliceContaining` finds the page slice of a position. -/
theorem WellFormed.sliceContaining_holds (h0 : 0 ≤ x) (hx : x < layout.size) :
    layout.Holds (sliceContaining layout.cumulativeSizes x) x := by
  obtain ⟨k, hk, hlt, rfl⟩ := h.holds_of_lowerBound h0 hx
  unfold sliceContaining
  rw [if_neg (by rw [h.card_cumulative]; omega), h.getElem?_cumulative hlt]
  simpa using hk

/-- `sliceAtIndex` finds the page slice of a position. -/
theorem WellFormed.sliceAtIndex_holds (h0 : 0 ≤ x) (hx : x < layout.size) :
    ∃ k, layout.sliceAtIndex x = some k ∧ layout.Holds k x := by
  obtain ⟨k, hk, hlt, rfl⟩ := h.holds_of_lowerBound h0 hx
  refine ⟨_, ?_, hk⟩
  unfold sliceAtIndex
  simp [h0, hx.le, h.getElem?_cumulative hlt]

/-! ## Slices that cover a range -/

/-- Positions outside a page slice select nothing of it. -/
theorem WellFormed.select_part_eq_nil (hk : k < layout.vectorIdentities.length)
    {is : List ℤ} (his : ∀ i ∈ is, i < (start (parts layout.vectorIdentities) k : ℤ) ∨
      (start (parts layout.vectorIdentities) (k + 1) : ℤ) ≤ i) :
    select ((parts layout.vectorIdentities).getD k [])
      (is.map (· - (start (parts layout.vectorIdentities) k : ℤ))) = [] := by
  refine select_eq_nil fun i hi => ?_
  obtain ⟨j, hj, rfl⟩ := mem_map.1 hi
  have hstep := h.start_lt hk
  have hlen := VectorDataIDSlice.length_elements hstep.2.le
  rw [getD_eq_getElem _ _ (by simpa using hk)]
  simp only [parts, getElem_map]
  have := his j hj
  simp only [parts] at this hstep
  omega

/-- Ascending positions select from the page slices that hold the first and the last one and those
between. -/
theorem WellFormed.select_elements {is : List ℤ} (hasc : is.Pairwise (· ≤ ·))
    {first last : ℕ} {low high : ℤ} (hfirst : layout.Holds first low) (hlast : layout.Holds last high)
    (his : ∀ i ∈ is, low ≤ i ∧ i ≤ high) (hle : low ≤ high) :
    select layout.elements is = (List.range' first (last + 1 - first)).flatMap fun k =>
      select ((parts layout.vectorIdentities).getD k [])
        (is.map (· - (start (parts layout.vectorIdentities) k : ℤ))) := by
  have hmono := fun {k l : ℕ} => start_mono (parts layout.vectorIdentities) (k := k) (l := l)
  have hfl : first ≤ last := by
    by_contra hc
    have := hmono (show last + 1 ≤ first by omega)
    have := hfirst.start_le
    have := hlast.lt_start
    omega
  rw [elements, ← flatten_parts, select_flatten _ hasc, length_parts]
  have hlt := hlast.lt
  obtain ⟨rest, hrest⟩ := Nat.exists_eq_add_of_le (show last + 1 ≤ layout.vectorIdentities.length from hlt)
  have hsplit : List.range layout.vectorIdentities.length =
      List.range first ++ List.range' first (last + 1 - first) ++ List.range' (last + 1) rest := by
    have hinner := range'_append_1 (s := 0) (m := first) (n := last + 1 - first)
    have houter := range'_append_1 (s := 0) (m := last + 1) (n := rest)
    rw [Nat.zero_add, Nat.add_sub_cancel' (by omega)] at hinner
    rw [Nat.zero_add, ← hrest] at houter
    rw [range_eq_range', range_eq_range', hinner, houter]
  rw [hsplit, flatMap_append, flatMap_append]
  have hbefore : ((List.range first).flatMap fun k => select ((parts layout.vectorIdentities).getD k [])
      (is.map (· - (start (parts layout.vectorIdentities) k : ℤ)))) = [] := by
    refine flatMap_eq_nil_iff.2 fun k hk => ?_
    have hk := mem_range.1 hk
    refine h.select_part_eq_nil (by omega) fun i hi => .inr ?_
    have := hmono (show k + 1 ≤ first from hk)
    have := hfirst.start_le
    have := his i hi
    omega
  have hafter : ((range' (last + 1) rest).flatMap fun k =>
      select ((parts layout.vectorIdentities).getD k [])
        (is.map (· - (start (parts layout.vectorIdentities) k : ℤ)))) = [] := by
    refine flatMap_eq_nil_iff.2 fun k hk => ?_
    have hk := mem_range'_1.1 hk
    refine h.select_part_eq_nil (by omega) fun i hi => .inl ?_
    have := hmono (show last + 1 ≤ k from hk.1)
    have := hlast.lt_start
    have := his i hi
    omega
  rw [hbefore, hafter, nil_append, append_nil]

end

/-- The loop over the page slices of a sequence. -/
theorem WellFormed.foldlM_covering (h : layout.WellFormed) {seq : IntegerSequence} (hs : 0 ≤ seq.size)
    (hd : seq.stride ≠ 0) {first count : ℕ} (hcount : first + count ≤ layout.vectorIdentities.length) :
    ∃ tr, (range' first count).foldlM (fun tr slice => do
        let start ← layout.startIndex slice
        let page ← layout.vectorIdentities[slice]?
        return addIfNonempty tr (← page.sliceSequence (seq.offsetBy (-start)))) [] = some tr ∧
      (∀ s ∈ tr, 0 < s.size) ∧
      elementsOf tr = (range' first count).flatMap fun k =>
        select ((parts layout.vectorIdentities).getD k [])
          (seq.values.map (· - (start (parts layout.vectorIdentities) k : ℤ))) := by
  refine foldlM_eq_some (I := fun before tr => (∀ s ∈ tr, 0 < s.size) ∧
    elementsOf tr = before.flatMap fun k => select ((parts layout.vectorIdentities).getD k [])
      (seq.values.map (· - (start (parts layout.vectorIdentities) k : ℤ)))) (b := []) ⟨nofun, rfl⟩ ?_
  rintro before k after hl tr ⟨hne, helements⟩
  have hmem : k ∈ range' first count := by rw [hl]; simp
  have hk : k < layout.vectorIdentities.length := by
    have := mem_range'_1.1 hmem
    omega
  have hpage := (h.start_lt hk).2
  obtain ⟨piece, hpiece, hsize, hvalues⟩ := @VectorDataIDSlice.sliceSequence_elements _
    (seq.offsetBy (-(start (parts layout.vectorIdentities) k : ℤ))) hpage.le hs hd
  rw [h.startIndex_eq hk.le, getElem?_eq_getElem hk]
  simp only [bind_eq_bind, bind_some, hpiece, Option.pure_def]
  refine ⟨_, rfl, ?_⟩
  have hpart : (parts layout.vectorIdentities).getD k [] = layout.vectorIdentities[k].elements := by
    rw [getD_eq_getElem _ _ (by simpa using hk)]
    simp [parts]
  rw [flatMap_append, flatMap_singleton, ← helements, hpart]
  rw [values_offsetBy] at hvalues
  simp only [← sub_eq_add_neg] at hvalues
  rw [← hvalues]
  exact append_nonempty hne hsize

/-- The slices that cover an ascending sequence that meets the layout list the values at its
positions. -/
theorem WellFormed.slicesCoveringSequence_elements (h : layout.WellFormed) {seq : IntegerSequence}
    (hs : 0 ≤ seq.size) (hd : 0 < seq.stride) (hmeet : ∃ x ∈ seq.values, 0 ≤ x ∧ x < layout.size) :
    ∃ ids, layout.slicesCoveringSequence seq = some ids ∧ (∀ s ∈ ids, 0 < s.size) ∧
      elementsOf ids = select layout.elements seq.values := by
  obtain ⟨x, hx, hx0, hxs⟩ := hmeet
  have hlen := h.length_elements
  obtain ⟨r, hr, hrsize, hrstride, hrvalues⟩ := intersect_values (s := seq) (t := .range layout.size) hs
    (by show 0 ≤ layout.size; omega) hd.ne' one_ne_zero
  have hmem : ∀ y, y ∈ r.values ↔ y ∈ seq.values ∧ 0 ≤ y ∧ y < layout.size := by
    intro y
    rw [hrvalues, mem_filter, decide_eq_true_iff, mem_range_values, zero_add]
  have hxr : x ∈ r.values := (hmem x).2 ⟨hx, hx0, hxs⟩
  have hrpos : 0 < r.size := by
    refine lt_of_le_of_ne hrsize fun h0 => ?_
    rw [values_eq_nil h0.symm] at hxr
    cases hxr
  have hrd : 0 < r.stride := (mul_pos_iff_of_pos_right hd).1 (hrstride hrpos.ne')
  have hvalues : ∀ y ∈ r.values, r.smallestValue ≤ y ∧ y ≤ r.largestValue := by
    intro y hy
    rw [mem_values hrpos hrd] at hy
    rw [smallestValue, if_neg (by omega)]
    exact ⟨hy.1, hy.2.1⟩
  have hsmall : r.smallestValue ∈ r.values := by
    rw [mem_values hrpos hrd, smallestValue, if_neg (by omega), largestValue, if_pos hrd, sub_self]
    exact ⟨le_rfl, le_add_of_nonneg_right (mul_nonneg (by omega) hrd.le), dvd_zero _⟩
  have hlarge : r.largestValue ∈ r.values := by
    rw [mem_values hrpos hrd, largestValue, if_pos hrd, add_sub_cancel_left]
    exact ⟨le_add_of_nonneg_right (mul_nonneg (by omega) hrd.le), le_rfl, Dvd.intro_left _ rfl⟩
  have hfirst := h.sliceContaining_holds ((hmem _).1 hsmall).2.1 ((hmem _).1 hsmall).2.2
  have hlast := h.sliceContaining_holds ((hmem _).1 hlarge).2.1 ((hmem _).1 hlarge).2.2
  have hcount := hlast.lt
  have hfirstlt := hfirst.lt
  unfold slicesCoveringSequence
  rw [if_neg ?_, hr]
  · simp only [bind_eq_bind, bind_some]
    rw [min_eq_left (by omega)]
    generalize sliceContaining layout.cumulativeSizes r.smallestValue = first at hfirst hfirstlt ⊢
    generalize sliceContaining layout.cumulativeSizes r.largestValue = last at hlast hcount ⊢
    obtain ⟨tr, htr, hne, helements⟩ := @foldlM_covering _ h _ hrsize hrd.ne' first (last + 1 - first) (by omega)
    simp only [bind_eq_bind] at htr
    rw [htr]
    rw [← (@select_elements _ h r.values) ((pairwise_progression hrd).imp le_of_lt) hfirst hlast hvalues
      (hvalues _ hsmall).2] at helements
    have hsum : (tr.map (·.slice.size)).sum = r.size := by
      have hcountElements := length_elementsOf hne
      rw [helements, length_select fun i hi => by rw [hlen]; exact ((hmem i).1 hi).2, length_values,
        Int.toNat_of_nonneg hrsize] at hcountElements
      exact hcountElements.symm
    simp only [bind_some, hsum, Option.pure_def]
    refine ⟨tr, rfl, hne, helements.trans ?_⟩
    rw [hrvalues]
    refine select_filter fun i _ _ hi => ?_
    rw [decide_eq_true_iff, mem_range_values, ← hlen]
    omega
  · rintro (h0 | h0)
    · rw [values_eq_nil h0] at hx
      cases hx
    · rw [h.card_cumulative] at h0
      omega

/-! ## Slices with a stride -/

/-- The positions that are a multiple of `d`. -/
def multiples (n : ℕ) (d : ℤ) : List ℤ := (progression n 0 1).filter (d ∣ ·)

variable {d o off : ℤ}

/-- The distance of the first multiple of `d` that is not before `c`. -/
theorem phase_spec {c : ℤ} (hd : 0 < d) (hc : 0 ≤ c)
    (ho : o = if c.tmod d ≠ 0 then d - c.tmod d else 0) : 0 ≤ o ∧ o < d ∧ d ∣ o + c := by
  rw [Int.tmod_eq_emod_of_nonneg hc] at ho
  have hlt := Int.emod_lt_of_pos c hd
  have hnn := Int.emod_nonneg c hd.ne'
  have hdiv := Int.emod_add_mul_ediv c d
  subst ho
  split
  · exact ⟨by omega, by omega, ⟨c / d + 1, by linarith⟩⟩
  · next h => exact ⟨le_rfl, hd, ⟨c / d, by rw [not_not.1 h] at hdiv; linarith⟩⟩

variable {α : Type*}

/-- The multiples in a concatenation: those in the first list, and those in the second one whose
distance from the first multiple in it is a multiple. -/
theorem select_multiples_append (xs ys : List α) (hlt : o < d) (hdvd : d ∣ o + xs.length) :
    select (xs ++ ys) (multiples (xs ++ ys).length d) = select xs (multiples xs.length d) ++
      select ys ((progression ys.length 0 1).filter fun i => o ≤ i ∧ i < ys.length ∧ d ∣ i - o) := by
  have hasc : (multiples (xs ++ ys).length d).Pairwise (· ≤ ·) := ((pairwise_progression one_pos).filter _).imp le_of_lt
  have hleft : select xs (multiples (xs ++ ys).length d) = select xs (multiples xs.length d) := by
    rw [multiples, length_append, progression_add, filter_append, select_append_right,
      @select_eq_nil _ _ (filter _ (progression ys.length _ 1)) fun i hi => ?_, append_nil]
    · rfl
    · have := (mem_progression_iff one_pos).1 (mem_of_mem_filter hi)
      omega
  rw [select_append hasc, hleft]
  congr 1
  have hright : select ys ((multiples (xs ++ ys).length d).map (· - (xs.length : ℤ))) =
      select ys (((multiples (xs ++ ys).length d).map (· - (xs.length : ℤ))).filter fun i => 0 ≤ i) :=
    (select_filter fun i _ hi _ => by simpa using hi).symm
  rw [hright]
  congr 1
  refine eq_of_ascending ?_ ((pairwise_progression one_pos).filter _) fun x => ?_
  · refine List.Pairwise.filter _ (pairwise_map.2 ?_)
    exact ((pairwise_progression one_pos).filter _).imp fun h => by omega
  · have hclass : d ∣ x + xs.length ↔ d ∣ x - o := by
      rw [show x + xs.length = (x - o) + (o + xs.length) by ring, dvd_add_left hdvd]
    rw [mem_filter, mem_filter, List.mem_map, mem_positions]
    simp only [multiples, mem_filter, mem_positions, decide_eq_true_eq, length_append]
    constructor
    · rintro ⟨⟨y, ⟨⟨hy0, hy⟩, hdy⟩, rfl⟩, hx⟩
      have hdx : d ∣ y - xs.length - o := hclass.1 (by rwa [sub_add_cancel])
      exact ⟨⟨hx, by omega⟩, le_of_dvd hdx (by omega), by omega, hdx⟩
    · rintro ⟨⟨hx0, hx⟩, -, -, hdx⟩
      exact ⟨⟨x + xs.length, ⟨⟨by omega, by push_cast; omega⟩, hclass.2 hdx⟩, by ring⟩, hx0⟩

variable {ids : List VectorDataIDSlice}

/-- The loop for a positive stride lists every so many-th value. -/
theorem everyStride_elements (hne : ∀ s ∈ ids, 0 < s.size) (hd : 0 < d) :
    ∃ r, everyStride ids d = some r ∧ (∀ s ∈ r.1, 0 < s.size) ∧
      elementsOf r.1 = select (elementsOf ids) (multiples (elementsOf ids).length d) := by
  refine (foldlM_eq_some (l := ids) (b := (([], 0) : List VectorDataIDSlice × ℤ))
    (I := fun before (st : List VectorDataIDSlice × ℤ) =>
      (∀ s ∈ st.1, 0 < s.size) ∧ st.2 = (elementsOf before).length ∧
      elementsOf st.1 = select (elementsOf before) (multiples (elementsOf before).length d))
    ⟨nofun, rfl, rfl⟩ ?_).imp fun r h => ⟨h.1, h.2.1, h.2.2.2⟩
  rintro before id after hl ⟨newIds, offset⟩ ⟨hnew, hoffset, helements⟩
  simp only at hnew hoffset helements ⊢
  have hid : 0 < id.size := hne id (by rw [hl]; simp)
  obtain ⟨h0, hlt, hdvd⟩ := phase_spec hd (show 0 ≤ offset by omega) rfl
  have hphase : (if d - offset.tmod d = d then 0 else d - offset.tmod d) =
      if offset.tmod d ≠ 0 then d - offset.tmod d else 0 := by
    split <;> split <;> omega
  rw [hphase]
  generalize (if offset.tmod d ≠ 0 then d - offset.tmod d else 0) = o at h0 hlt hdvd ⊢
  obtain ⟨sub, hsub, hsize, hvalues⟩ := @VectorDataIDSlice.sliceBounds_elements _ hid.le
    (some o) none (some d) (by simp; omega)
  rw [hsub]
  refine ⟨_, rfl, ?_⟩
  have hlen := id.length_elements hid.le
  rw [elementsOf_append, elementsOf_singleton, length_append, Nat.cast_add, hlen]
  have hselect : sub.elements = select id.elements
      ((progression id.elements.length 0 1).filter fun i => o ≤ i ∧ i < id.elements.length ∧ d ∣ i - o) := by
    rw [hvalues]
    simp only [slicePositions, getD_some, hd, if_true, elim_none, ListSlice.position, if_neg (not_lt.2 h0)]
  rw [hoffset] at hdvd
  rw [← length_append, select_multiples_append _ _ hlt hdvd, ← helements, ← hselect]
  obtain ⟨hne', helements'⟩ := append_nonempty hnew hsize
  exact ⟨hne', by rw [hoffset], helements'⟩

/-- The positions from the end that a descending slice without an upper bound lists. -/
theorem select_descending (xs : List α) (hd : d < 0) (hlt : o < xs.length) :
    select xs (slicePositions xs.length (some (xs.length - 1 - o)) none (some d)) =
      select xs.reverse ((progression xs.length 0 1).filter fun i =>
        o ≤ i ∧ i < xs.length ∧ -d ∣ i - o) := by
  rw [select_of_reverse]
  congr 1
  simp only [slicePositions, getD_some, if_neg (not_lt.2 hd.le), elim_none,
    ListSlice.position, if_neg (show ¬ (xs.length : ℤ) - 1 - o < 0 by omega)]
  refine eq_of_descending ?_ ?_ fun x => ?_
  · exact (pairwise_reverse.2 (pairwise_progression one_pos)).filter _
  · exact pairwise_map.2 (((pairwise_progression one_pos).filter _).imp fun h => by omega)
  · have hclass : ∀ y, d ∣ (xs.length - 1 - y) - (xs.length - 1 - o) ↔ -d ∣ y - o := by
      intro y
      rw [Int.neg_dvd, ← Int.dvd_neg]
      ring_nf
    simp only [mem_filter, mem_reverse, mem_positions, List.mem_map, decide_eq_true_eq]
    constructor
    · rintro ⟨⟨hx0, hx⟩, hle, -, hdvd⟩
      refine ⟨xs.length - 1 - x, ⟨⟨by omega, by omega⟩, by omega, by omega, ?_⟩, by ring⟩
      rw [← hclass, show (xs.length : ℤ) - 1 - (xs.length - 1 - x) = x by ring]
      exact hdvd
    · rintro ⟨y, ⟨⟨hy0, hy⟩, hle, -, hdvd⟩, rfl⟩
      exact ⟨⟨by omega, by omega⟩, by omega, by omega, (hclass y).2 hdvd⟩

/-- The loop for a negative stride lists every so many-th value from the end. -/
theorem everyStrideBackwards_elements (hne : ∀ s ∈ ids, 0 < s.size)
    (hd : d < 0) : ∃ r, everyStrideBackwards ids d = some r ∧ (∀ s ∈ r.1, 0 < s.size) ∧
      elementsOf r.1 = select (elementsOf ids).reverse (multiples (elementsOf ids).length (-d)) := by
  have hrev : elementsOf ids = elementsOf ids.reverse.reverse := by rw [reverse_reverse]
  rw [hrev]
  refine (foldlM_eq_some (l := ids.reverse) (b := (([], 0) : List VectorDataIDSlice × ℤ))
    (I := fun before (st : List VectorDataIDSlice × ℤ) => (∀ s ∈ st.1, 0 < s.size) ∧
      st.2 = (elementsOf before.reverse).length ∧ elementsOf st.1 =
        select (elementsOf before.reverse).reverse (multiples (elementsOf before.reverse).length (-d)))
    ⟨nofun, rfl, rfl⟩ ?_).imp fun r h => ⟨h.1, h.2.1, h.2.2.2⟩
  rintro before id after hl ⟨newIds, offset⟩ ⟨hnew, hoffset, helements⟩
  simp only at hnew hoffset helements ⊢
  have hid : 0 < id.size := hne id (by rw [← mem_reverse, hl]; simp)
  obtain ⟨h0, hlt, hdvd⟩ := phase_spec (neg_pos.2 hd) (show 0 ≤ offset by omega) rfl
  generalize (if offset.tmod (-d) ≠ 0 then -d - offset.tmod (-d) else 0) = o at h0 hlt hdvd ⊢
  have hlen := id.length_elements hid.le
  rw [reverse_append, reverse_singleton, elementsOf_append, elementsOf_singleton, reverse_append]
  have hmul := select_multiples_append (elementsOf before.reverse).reverse id.elements.reverse hlt
    (by rw [length_reverse, ← hoffset]; exact hdvd)
  rw [length_append, length_reverse, length_reverse, Nat.add_comm] at hmul
  rw [length_append, hmul, ← helements]
  have htotal : offset + id.size = ((id.elements.length + (elementsOf before.reverse).length : ℕ) : ℤ) := by
    omega
  by_cases hin : o < id.size
  · obtain ⟨sub, hsub, hsize, hvalues⟩ := @VectorDataIDSlice.sliceBounds_elements _ hid.le
      (some (id.size - 1 - o)) none (some d) (by simp; omega)
    rw [if_pos hin, hsub]
    refine ⟨_, rfl, ?_⟩
    rw [← hlen, select_descending id.elements hd (by omega)] at hvalues
    rw [← hvalues]
    obtain ⟨hne', helements'⟩ := append_nonempty hnew hsize
    exact ⟨hne', htotal, helements'⟩
  · rw [if_neg hin]
    refine ⟨_, rfl, hnew, htotal, ?_⟩
    rw [show ((progression id.elements.length 0 1).filter fun i =>
        o ≤ i ∧ i < id.elements.length ∧ -d ∣ i - o) = [] by
      refine filter_eq_nil_iff.2 fun i _ => ?_
      rw [decide_eq_true_iff]
      omega]
    simp

/-- There are `n` multiples of `d` up to the `n`-th one. -/
theorem multiples_eq {m n : ℕ} (hd : 0 < d) (hlt : d * (n - 1) < m) (hle : m ≤ d * n) :
    multiples m d = progression n 0 d := by
  refine eq_of_ascending ((pairwise_progression one_pos).filter _) (pairwise_progression hd) fun x => ?_
  rw [multiples, mem_filter, mem_positions, decide_eq_true_iff, mem_progression_iff hd, zero_add, sub_zero]
  constructor
  · rintro ⟨⟨h0, hx⟩, hdvd⟩
    exact ⟨h0, by omega, hdvd⟩
  · rintro ⟨h0, hx, k, rfl⟩
    have hk : k ≤ n - 1 := Int.le_sub_one_of_lt (lt_of_mul_lt_mul_left hx hd.le)
    have := mul_le_mul_of_nonneg_left hk hd.le
    exact ⟨⟨h0, by omega⟩, Dvd.intro _ rfl⟩

/-- Every `d`-th value of a stretch that may go beyond the end. -/
theorem select_every {xs : List α} {n : ℕ} (hd : 0 < d) (hoff : 0 ≤ off)
    (hlast : off + d * (n - 1) < xs.length) (hn : 0 < n) {stretch : List α}
    (hs : stretch = select xs (progression (d * n).toNat off 1)) :
    select stretch (multiples stretch.length d) = select xs (progression n off d) := by
  have hnn : 0 ≤ d * (n - 1 : ℤ) := mul_nonneg hd.le (by omega)
  generalize hm : (min (d * n) (xs.length - off)).toNat = m
  have hmle : m ≤ (d * n).toNat := by omega
  obtain ⟨rest, hrest⟩ := Nat.exists_eq_add_of_le hmle
  have hin : ∀ i ∈ progression m off 1, 0 ≤ i ∧ i < xs.length := fun i hi => by
    rw [mem_progression_iff one_pos] at hi
    omega
  have hcut : stretch = select xs (progression m off 1) := by
    rw [hs, hrest, progression_add, select_append_right,
      @select_eq_nil _ _ (progression rest _ 1) fun i hi => ?_, append_nil]
    rw [mem_progression_iff one_pos] at hi
    omega
  have hmul : multiples m d = progression n 0 d := by
    have hexp : d * (n - 1 : ℤ) = d * n - d := by ring
    exact multiples_eq hd (by omega) (by omega)
  rw [hcut, length_select hin, length_progression, hmul, select_select hin]
  have hbound : ∀ i ∈ progression n 0 d, 0 ≤ i ∧ i < m := fun i hi => by
    rw [← hmul] at hi
    exact mem_positions.1 (mem_of_mem_filter hi)
  rw [select_progression hbound, mul_zero, add_zero, one_mul]

/-- Every `-d`-th value of a stretch, from its end. -/
theorem select_every_descending {xs : List α} {n : ℕ} (hd : d < 0) (hoff : off < xs.length)
    (hlast : 0 ≤ off + d * (n - 1)) (hn : 0 < n) {stretch : List α}
    (hs : stretch = select xs (progression (1 - d * (n - 1)).toNat (off + d * (n - 1)) 1)) :
    select stretch.reverse (multiples stretch.length (-d)) = select xs (progression n off d) := by
  have hnn : d * (n - 1 : ℤ) ≤ 0 := mul_nonpos_of_nonpos_of_nonneg hd.le (by omega)
  obtain ⟨m, hm⟩ : ∃ m : ℕ, (m : ℤ) = 1 - d * (n - 1) := ⟨_, Int.toNat_of_nonneg (by omega)⟩
  rw [← hm, Int.toNat_natCast] at hs
  have hin : ∀ i ∈ progression m (off + d * (n - 1)) 1, 0 ≤ i ∧ i < xs.length := fun i hi => by
    rw [mem_progression_iff one_pos] at hi
    omega
  have hinrev : ∀ i ∈ (progression m (off + d * (n - 1)) 1).reverse, 0 ≤ i ∧ i < xs.length := fun i hi =>
    hin i (mem_reverse.1 hi)
  have hmul : multiples m (-d) = progression n 0 (-d) := by
    have hexp : -d * (n : ℤ) = -d + -(d * (n - 1)) := by ring
    refine multiples_eq (neg_pos.2 hd) ?_ (by omega)
    rw [hm, neg_mul]
    omega
  have hbound : ∀ i ∈ progression n 0 (-d), 0 ≤ i ∧ i < m := fun i hi => by
    rw [← hmul] at hi
    exact mem_positions.1 (mem_of_mem_filter hi)
  have hlen : stretch.length = m := by rw [hs, length_select hin, length_progression]
  rw [hlen, hmul, hs, ← select_reverse, select_select hinrev, reverse_progression, hm,
    show off + d * (n - 1) + (1 - d * (n - 1) - 1) * 1 = off by ring, select_progression hbound]
  congr 2 <;> ring

theorem WellFormed.slicesCoveringRange_elements (h : layout.WellFormed) {low high : ℤ} (hle : low ≤ high)
    (hmeet : ∃ x, (low ≤ x ∧ x < high) ∧ 0 ≤ x ∧ x < layout.size) :
    ∃ ids, layout.slicesCoveringRange low high = some ids ∧ (∀ s ∈ ids, 0 < s.size) ∧
      elementsOf ids = select layout.elements (progression (high - low).toNat low 1) := by
  obtain ⟨x, hx, hin⟩ := hmeet
  refine @slicesCoveringSequence_elements _ h (.range (high - low) low) (by simp [IntegerSequence.range]; omega)
    one_pos ⟨x, ?_, hin⟩
  rw [mem_range_values]
  omega

/-- Slicing a layout by positions inside it lists its values at these positions. -/
theorem WellFormed.sliceSequence_elements (h : layout.WellFormed) {seq : IntegerSequence}
    (hq : seq.Inside layout.size) (guid : Hash) :
    ∃ r, layout.sliceSequence seq guid = some r ∧ r.WellFormed ∧ r.elements = select layout.elements seq.values := by
  have hlen := h.length_elements
  have hsize := hq.size_nonneg
  unfold sliceSequence
  simp only [hq.stride_ne_zero, ne_eq, not_false_eq_true, Option.pure_def, bind_eq_bind]
  split
  · next h0 => exact ⟨_, rfl, wellFormed_empty, by rw [values_eq_nil h0]; rfl⟩
  next h0 =>
  have hcast : (seq.size.toNat : ℤ) = seq.size := Int.toNat_of_nonneg hsize
  have hmem : ∀ i, i < seq.size.toNat → 0 ≤ seq.offset + seq.stride * i ∧
      seq.offset + seq.stride * i < layout.size := fun i hi =>
    hq.mem_bounds _ (mem_progression.2 ⟨i, hi, rfl⟩)
  have hfirst := hmem 0 (by omega)
  have hlast := hmem (seq.size.toNat - 1) (by omega)
  rw [Nat.cast_sub (by omega), hcast] at hlast
  simp only [Nat.cast_zero, mul_zero, add_zero, Nat.cast_one] at hfirst hlast
  split
  · next hpos =>
    have hspan : 0 < seq.stride * seq.size := mul_pos hpos (by omega)
    obtain ⟨ids, hids, hne, helements⟩ := @slicesCoveringRange_elements _ h seq.offset seq.endValue
      (by unfold endValue; omega)
      ⟨seq.offset, ⟨le_rfl, by unfold endValue; omega⟩, hfirst⟩
    rw [show seq.endValue - seq.offset = seq.stride * seq.size by rw [endValue, add_sub_cancel_left]] at helements
    rw [hids]
    split
    · next hone =>
      refine ⟨_, rfl, ofSlices_wellFormed hne guid, ?_⟩
      rw [ofSlices_elements, helements, hone, one_mul, values, hone]
    · obtain ⟨r, hr, hrne, hrelements⟩ := everyStride_elements hne hpos
      simp only [bind_some, hr]
      refine ⟨_, rfl, ofSlices_wellFormed hrne guid, ?_⟩
      rw [ofSlices_elements, hrelements]
      rw [← hcast] at helements hlast
      exact select_every hpos hfirst.1 (by rw [hlen]; exact hlast.2) (by omega) helements
  · next hneg =>
    have hneg : seq.stride < 0 := lt_of_le_of_ne (not_lt.1 hneg) hq.stride_ne_zero
    have hsmall : seq.smallestValue = seq.offset + seq.stride * (seq.size - 1) := by
      rw [smallestValue, if_pos hneg, mul_comm]
    have hlarge : seq.largestValue = seq.offset := by rw [largestValue, if_neg (by omega)]
    have hspan : seq.stride * (seq.size - 1) ≤ 0 := mul_nonpos_of_nonpos_of_nonneg hneg.le (by omega)
    have hcount : seq.containingRange.size = 1 - seq.stride * (seq.size - 1) := by
      rw [IntegerRange.size, containingRange, hsmall, hlarge]
      simp only
      omega
    have hvalues : (ofRange seq.containingRange).values =
        progression (1 - seq.stride * (seq.size - 1)).toNat (seq.offset + seq.stride * (seq.size - 1)) 1 := by
      rw [← hcount, ← hsmall]
      rfl
    obtain ⟨ids, hids, hne, helements⟩ := @slicesCoveringSequence_elements _ h (ofRange seq.containingRange)
      (by simp only [ofRange, hcount]; omega) one_pos ⟨seq.offset, by
        rw [hvalues, mem_progression_iff one_pos]
        exact ⟨by omega, by omega, one_dvd _⟩, hfirst⟩
    rw [hvalues] at helements
    have hsum : (ids.map VectorDataIDSlice.size).sum = seq.containingRange.size := by
      rw [← length_elementsOf hne, helements, length_select fun i hi => ?_, length_progression, hcount]
      · omega
      · rw [mem_progression_iff one_pos] at hi
        omega
    obtain ⟨r, hr, hrne, hrelements⟩ := everyStrideBackwards_elements hne hneg
    rw [hids]
    simp only [bind_some, hsum, hr]
    refine ⟨_, rfl, ofSlices_wellFormed hrne guid, ?_⟩
    rw [ofSlices_elements, hrelements]
    rw [← hcast] at helements hlast
    exact select_every_descending hneg (by rw [hlen]; exact hfirst.2) hlast.1 (by omega) helements

end BigVectorPageLayout

end TypedFora.Vectors
