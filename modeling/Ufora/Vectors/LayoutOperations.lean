import Ufora.Vectors.LayoutSlices

/-!
# The operations of page layouts

A layout stands for a list of values; slicing it, covering a range of it, concatenating it and looking
up positions of it do what the list operations do, for every layout that has a page slice. Without
one, `sliceAtIndex` reads a total that is not there.
-/

open Selection Ordered IntegerSequence List Option

namespace TypedFora.Vectors.BigVectorPageLayout

variable {layout : BigVectorPageLayout} {k : ℕ} {x : ℤ}

/-- Positions of a list, selected from all of them. -/
theorem select_positions {n : ℕ} {is : List ℤ} (h : ∀ i ∈ is, 0 ≤ i ∧ i < n) : select (progression n 0 1) is = is := by
  rw [select]
  conv_rhs => rw [← filterMap_some (l := is)]
  refine filterMap_congr fun i hi => ?_
  rw [nth_progression (h i hi).1 (h i hi).2, zero_add, one_mul]

/-- Slicing a layout by bounds lists its values at the positions that the bounds stand for. -/
theorem WellFormed.sliceBounds_elements (h : layout.WellFormed) (low high : Option ℤ) {stride : Option ℤ}
    (hd : stride ≠ some 0) (guid : Hash) :
    ∃ r, layout.sliceBounds low high stride guid = some r ∧ r.WellFormed ∧
      r.elements = select layout.elements (slicePositions layout.elements.length low high stride) := by
  have hlen := h.length_elements
  have hsize : 0 ≤ (range layout.size).size := by show 0 ≤ layout.size; omega
  obtain ⟨seq, hseq, hseqsize, hstride, hvalues⟩ := (@sliceBounds_values _ hsize low high) hd
  have htoNat : (range layout.size).size.toNat = layout.elements.length := by
    show layout.size.toNat = _
    omega
  have hrange : (range layout.size).values = progression layout.elements.length 0 1 := by
    rw [values, htoNat]
    rfl
  rw [htoNat, hrange, select_positions fun i hi => mem_slicePositions hi] at hvalues
  obtain ⟨r, hr, hwf, helements⟩ := @sliceSequence_elements _ h seq ⟨hseqsize, hstride one_ne_zero, fun i hi => by
      rw [hvalues] at hi
      rw [← hlen]
      exact mem_slicePositions hi⟩ guid
  refine ⟨r, ?_, hwf, by rw [helements, hvalues]⟩
  rw [sliceBounds, hseq]
  exact hr

/-- Where a page slice starts. -/
theorem start_eq (layout : BigVectorPageLayout) (k : ℕ) :
    start (parts layout.vectorIdentities) k = (elementsOf (layout.vectorIdentities.take k)).length := by
  rw [start, parts, ← map_take, elementsOf, length_flatMap, List.map_map]
  rfl

/-- A position of the layout lies in page slice `k`. -/
def HoldsIndex (layout : BigVectorPageLayout) (k : ℕ) (index : ℤ) : Prop :=
  ∃ s, layout.vectorIdentities[k]? = some s ∧ (elementsOf (layout.vectorIdentities.take k)).length ≤ index ∧
    index < (elementsOf (layout.vectorIdentities.take k)).length + s.size

theorem WellFormed.holdsIndex (h : layout.WellFormed) (hk : layout.Holds k x) : layout.HoldsIndex k x := by
  refine ⟨_, getElem?_eq_getElem hk.lt, ?_, ?_⟩
  · rw [← start_eq]
    exact hk.start_le
  · rw [← start_eq, ← (h.start_lt hk.lt).1]
    exact hk.lt_start

/-- The page slices from `a` on and before `b` are those of the values of the slice. -/
structure ExactRange (layout : BigVectorPageLayout) (slice : BigVectorSlice) (a b : ℕ) : Prop where
  left_le : a ≤ layout.vectorIdentities.length
  right_le : b ≤ layout.vectorIdentities.length
  left_eq : (elementsOf (layout.vectorIdentities.take a)).length = slice.indexLow
  right_eq : (elementsOf (layout.vectorIdentities.take b)).length = slice.indexHigh

/-- Different page slices start at different positions. -/
theorem WellFormed.start_injective (h : layout.WellFormed) {k l : ℕ} (hk : k ≤ layout.vectorIdentities.length)
    (hl : l ≤ layout.vectorIdentities.length)
    (heq : start (parts layout.vectorIdentities) k = start (parts layout.vectorIdentities) l) : k = l := by
  have hstrict : ∀ {k l : ℕ}, k < l → l ≤ layout.vectorIdentities.length →
      start (parts layout.vectorIdentities) k < start (parts layout.vectorIdentities) l := by
    intro k l hlt hl
    have hstep := h.start_lt (show k < layout.vectorIdentities.length by omega)
    have hmono := start_mono (parts layout.vectorIdentities) (show k + 1 ≤ l from hlt)
    omega
  rcases lt_trichotomy k l with hlt | rfl | hlt
  · have := hstrict hlt hl
    omega
  · rfl
  · have := hstrict hlt hk
    omega

/-- `sliceAtIndex` of a position or of the end of a layout that has a page slice: the only page slice
that may start there is the one it finds. -/
theorem WellFormed.sliceAtIndex_start (h : layout.WellFormed) (hne : layout.vectorIdentities ≠ []) (h0 : 0 ≤ x)
    (hx : x ≤ layout.size) :
    ∃ k ≤ layout.vectorIdentities.length, layout.sliceAtIndex x = some k ∧
      ∀ l ≤ layout.vectorIdentities.length, (start (parts layout.vectorIdentities) l : ℤ) = x → l = k := by
  rcases lt_or_eq_of_le hx with hlt | rfl
  · obtain ⟨k, hk, hholds⟩ := h.sliceAtIndex_holds h0 hlt
    refine ⟨k, hholds.lt.le, hk, fun l hl hstart => ?_⟩
    by_contra hc
    have h1 := hholds.start_le
    have h2 := hholds.lt_start
    rcases lt_or_gt_of_ne hc with hlk | hlk
    · have hmono := start_mono (parts layout.vectorIdentities) (show l + 1 ≤ k from hlk)
      have hstep := h.start_lt (show l < layout.vectorIdentities.length by have := hholds.lt; omega)
      omega
    · have hmono := start_mono (parts layout.vectorIdentities) (show k + 1 ≤ l from hlk)
      omega
  · have hpos : 0 < layout.vectorIdentities.length := length_pos_iff.2 hne
    refine ⟨layout.vectorIdentities.length, le_rfl, ?_, fun l hl hstart => ?_⟩
    · obtain ⟨hle, hbelow, habove⟩ := h.lowerBound_spec layout.size
      have hlast := h.start_length
      generalize hlb : lowerBound layout.cumulativeSizes layout.size = lb at hle hbelow habove
      have hlt : lb < layout.vectorIdentities.length := by
        refine lt_of_le_of_ne hle fun he => ?_
        have := hbelow (lb - 1) (by omega)
        rw [he, Nat.sub_add_cancel hpos] at this
        omega
      have hend : lb + 1 = layout.vectorIdentities.length := by
        have hmono := start_mono (parts layout.vectorIdentities) (show lb + 1 ≤ layout.vectorIdentities.length from hlt)
        exact h.start_injective hlt le_rfl (by omega)
      have htotal := h.getElem?_cumulative hlt
      rw [hend, hlast] at htotal
      unfold sliceAtIndex
      simp only [hlb, htotal]
      simp [h0, hend]
    · refine h.start_injective hl le_rfl ?_
      have := h.start_length
      omega

/-- The page slices that a stretch of the values maps to are an exact range where there is one. -/
theorem WellFormed.mapIndices_exact (h : layout.WellFormed) (hne : layout.vectorIdentities ≠ [])
    {slice : BigVectorSlice} (hlow : slice.indexLow ≤ slice.indexHigh) (hhigh : slice.indexHigh ≤ layout.size) :
    ∃ r, layout.mapIndicesToExactSliceRange slice = some r ∧ ∀ a b, r = some (a, b) ↔ layout.ExactRange slice a b := by
  obtain ⟨a, ha, hsa, hua⟩ := h.sliceAtIndex_start hne (x := slice.indexLow) (by omega) (by omega)
  obtain ⟨b, hb, hsb, hub⟩ := h.sliceAtIndex_start hne (x := slice.indexHigh) (by omega) hhigh
  have hiff : ∀ a' b', layout.ExactRange slice a' b' ↔ (a' = a ∧ b' = b) ∧
      (start (parts layout.vectorIdentities) a : ℤ) = slice.indexLow ∧
      (start (parts layout.vectorIdentities) b : ℤ) = slice.indexHigh := by
    intro a' b'
    constructor
    · rintro ⟨hla, hlb, hea, heb⟩
      rw [← start_eq] at hea heb
      obtain rfl := hua a' hla (by omega)
      obtain rfl := hub b' hlb (by omega)
      exact ⟨⟨rfl, rfl⟩, by omega, by omega⟩
    · rintro ⟨⟨rfl, rfl⟩, hea, heb⟩
      exact ⟨ha, hb, by rw [← start_eq]; omega, by rw [← start_eq]; omega⟩
  unfold mapIndicesToExactSliceRange
  simp only [hsa, hsb, h.startIndex_eq ha, h.startIndex_eq hb, bind_eq_bind, bind_some, Option.pure_def]
  split
  · next heq =>
    refine ⟨_, rfl, fun a' b' => ?_⟩
    rw [hiff, and_iff_left heq, some.injEq, Prod.mk.injEq, eq_comm (a := a), eq_comm (a := b)]
  · next hno =>
    refine ⟨_, rfl, fun a' b' => ?_⟩
    rw [hiff]
    exact ⟨nofun, fun hc => absurd hc.2 hno⟩

/-- The operations of a layout do what the list operations do to the values that it stands for, and
find the page slices that hold its positions. -/
structure Correct (layout : BigVectorPageLayout) : Prop where
  sliceBounds : ∀ low high stride guid, stride ≠ some 0 →
    ∃ r, layout.sliceBounds low high stride guid = some r ∧ r.WellFormed ∧
      r.elements = select layout.elements (slicePositions layout.elements.length low high stride)
  sliceSequence : ∀ seq guid, seq.Inside layout.size → ∃ r, layout.sliceSequence seq guid = some r ∧ r.WellFormed ∧
      r.elements = select layout.elements seq.values
  slicesCoveringRange : ∀ low high, (∃ x, (low ≤ x ∧ x < high) ∧ 0 ≤ x ∧ x < layout.size) →
    ∃ ids, layout.slicesCoveringRange low high = some ids ∧ (∀ s ∈ ids, 0 < s.size) ∧
      elementsOf ids = select layout.elements (progression (high - low).toNat low 1)
  concatenate : ∀ rhs guid, rhs.WellFormed → (concatenate layout rhs guid).WellFormed ∧
      (BigVectorPageLayout.concatenate layout rhs guid).elements = layout.elements ++ rhs.elements
  sliceAtIndex : ∀ index, 0 ≤ index → index < layout.size →
    ∃ k, layout.sliceAtIndex index = some k ∧ layout.HoldsIndex k index
  mapIndices : ∀ slice, slice.indexLow ≤ slice.indexHigh → slice.indexHigh ≤ layout.size →
    ∃ r, layout.mapIndicesToExactSliceRange slice = some r ∧ ∀ a b, r = some (a, b) ↔ layout.ExactRange slice a b

/-- The layout without page slices has no total that `sliceAtIndex` could read. -/
theorem mapIndices_empty (h : layout.WellFormed) (hempty : layout.vectorIdentities = []) (guid : Hash) :
    layout.mapIndicesToExactSliceRange ⟨guid, 0, 0⟩ = none := by
  have hnil : ascending layout.cumulativeSizes = [] := by
    rw [h.cumulative, hempty]
    rfl
  unfold mapIndicesToExactSliceRange sliceAtIndex
  simp [hnil]

/-- The operations of a layout are correct exactly where it has a page slice. -/
theorem correct_iff (h : layout.WellFormed) : layout.Correct ↔ layout.vectorIdentities ≠ [] := by
  constructor
  · intro hc hempty
    have hsize : (0 : ℕ) ≤ layout.size := by rw [← h.length_elements]; simp
    obtain ⟨r, hr, -⟩ := hc.mapIndices ⟨0, 0, 0⟩ le_rfl hsize
    rw [mapIndices_empty h hempty] at hr
    cases hr
  · intro hne
    exact {
      sliceBounds := fun low high _ guid hd => h.sliceBounds_elements low high hd guid
      sliceSequence := fun _ guid hq => h.sliceSequence_elements hq guid
      slicesCoveringRange := fun low high hmeet => by
        exact h.slicesCoveringRange_elements (by omega) hmeet
      concatenate := fun _ guid hr => concatenate_elements h hr guid
      sliceAtIndex := fun _ h0 hi => by
        obtain ⟨k, hk, hholds⟩ := h.sliceAtIndex_holds h0 hi
        exact ⟨k, hk, h.holdsIndex hholds⟩
      mapIndices := fun _ hlow hhigh => h.mapIndices_exact hne hlow hhigh }

/-- A layout of three values of one page, and of every other value of a second one. -/
def twoPages : BigVectorPageLayout := ofSlices [⟨⟨0, ⟨0, 24, 24⟩⟩, .range 3⟩, ⟨⟨0, ⟨1, 48, 48⟩⟩, ⟨3, 1, 2⟩⟩] 1

/-- Both page slices have values, and the second one a stride. -/
theorem correct_twoPages : twoPages.Correct := (correct_iff (ofSlices_wellFormed (by decide) 1)).2 (by decide)

/-- The layout without page slices: a stretch of none of its values is the exact range from 0 to 0,
but `sliceAtIndex` fails. -/
theorem not_correct_empty : ({} : BigVectorPageLayout).WellFormed ∧
    ExactRange {} ⟨0, 0, 0⟩ 0 0 ∧ mapIndicesToExactSliceRange {} ⟨0, 0, 0⟩ = none ∧
    ¬ ({} : BigVectorPageLayout).Correct := by
  refine ⟨wellFormed_empty, ⟨le_rfl, le_rfl, rfl, rfl⟩, rfl, fun hc => ?_⟩
  obtain ⟨r, hr, -⟩ := hc.mapIndices ⟨0, 0, 0⟩ le_rfl le_rfl
  cases hr

end TypedFora.Vectors.BigVectorPageLayout
