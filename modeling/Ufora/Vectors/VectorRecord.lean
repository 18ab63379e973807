import Ufora.Vectors.HandleSlices

/-!
# Vector records

`VectorRecord` (`FORA/TypedFora/ABI/VectorRecord.{hpp,cpp}`) views the values of a handle at the indices
of an integer sequence. A record whose view is not all of its handle is made canonical by slicing the
handle, which gives the values in the order of the view only where the view goes forwards or stays
within the pages or within the array.
-/

open Selection IntegerSequence List Nat TypedFora.Vectors.VectorHandle TypedFora.Vectors.BigVectorPageLayout

namespace TypedFora.Vectors

/-- `VectorRecord`. -/
structure VectorRecord (α : Type) where
  mDataPtr : Option (VectorHandle α) := none
  mSize : ℤ := 0
  mOffset : ℤ := 0
  mStride : ℤ := 1

namespace VectorRecord

variable {α : Type}

/-- The constructor that takes a handle. -/
def ofHandle (inPtr : Option (VectorHandle α)) : VectorRecord α :=
  { mDataPtr := inPtr, mSize := inPtr.elim 0 size, mOffset := 0, mStride := 1 }

variable (record : VectorRecord α)

def indicesWithinHandle : IntegerSequence := ⟨record.mSize, record.mOffset, record.mStride⟩

/-- `slice`. -/
def slice (nLow nHigh nStride : Option ℤ) : Option (VectorRecord α) := do
  if record.mDataPtr.isNone then return {}
  if nStride = some 0 then return {}
  let sequenceToUse ← (IntegerSequence.mk record.mSize record.mOffset record.mStride).sliceBounds nLow nHigh nStride
  if sequenceToUse.size = 0 then return {}
  return ⟨record.mDataPtr, sequenceToUse.size, sequenceToUse.offset, sequenceToUse.stride⟩

def isCanonicallySliced : Bool := record.mOffset == 0 && record.mStride == 1 &&
    (record.mSize == 0 && record.mDataPtr.isNone || record.mDataPtr.any fun dataPtr => record.mSize == dataPtr.size)

/-- `canonicallySliced`. -/
def canonicallySliced (add : Hash → Hash → Hash) (record : VectorRecord α) (inPool : MemoryPool)
    (newVectorHash : Hash) : Option (VectorRecord α) := do
  match record.mDataPtr with
  | none => return {}
  | some dataPtr =>
    let res := ofHandle (← dataPtr.slice add record.indicesWithinHandle inPool newVectorHash)
    guard (res.mSize = record.mSize)
    return res

/-- The values of a record. -/
def values (pages : VectorDataID → List α) (record : VectorRecord α) : List α :=
  record.mDataPtr.elim [] fun dataPtr => select (dataPtr.values pages) record.indicesWithinHandle.values

/-- A record that views values of a well-formed handle. -/
structure WellFormed (pages : VectorDataID → List α) (record : VectorRecord α) : Prop where
  dataPtr : ∀ dataPtr ∈ record.mDataPtr, dataPtr.WellFormed pages ∧ record.indicesWithinHandle.Inside dataPtr.size
  null : record.mDataPtr = none → record.mSize = 0

end VectorRecord

namespace VectorHandle

variable {α : Type} {pages : VectorDataID → List α} {h : VectorHandle α} {seq : IntegerSequence}

theorem WellFormed.length_values (h' : h.WellFormed pages) : ((h.values pages).length : ℤ) = h.size := by
  rw [values, length_append, length_append, cast_add, cast_add, h'.length_paged,
    h'.length_tree, h'.length_unpaged, unpagedValueCount, size, h'.pagedAndPagelet_eq]
  ring

/-- Positions that ascend where they are in the handle choose its values region by region. -/
theorem WellFormed.select_values (h' : h.WellFormed pages) {is : List ℤ}
    (hasc : (is.filter fun i => decide (0 ≤ i ∧ i < h.size)).Pairwise (· ≤ ·)) :
    select (h.values pages) is = select (pagedValues pages h.mBigVector) is ++
      select (h.mPageletTreePtr.elim [] Fora.PageletTree.values) (is.map (· - h.pagedValueCount)) ++
      select (h.mUnpagedValues.elim [] ForaValueArray.values) (is.map (· - h.pagedAndPageletTreeValueCount)) := by
  have hlength := h'.length_values
  have hcount := h'.pagedValueCount_eq
  have hboth := h'.pagedAndPageletTreeValueCount_eq
  have hpaged := h'.length_paged
  have htree := h'.length_tree
  have hunpaged := h'.length_unpaged
  have hsize := h'.size_sum
  have hshift : ((is.filter fun i => decide (0 ≤ i ∧ i < h.size)).map
      (· - ((pagedValues pages h.mBigVector).length : ℤ))).Pairwise (· ≤ ·) :=
    pairwise_map.2 (hasc.imp fun hij => sub_le_sub_right hij _)
  rw [← @select_filter _ _ is (fun i => decide (0 ≤ i ∧ i < h.size)) fun i _ h0 hlt =>
      decide_eq_true ⟨h0, by omega⟩, values, append_assoc, select_append hasc,
    select_append hshift, List.map_map]
  have hmap : ((fun i => i - ((h.mPageletTreePtr.elim [] Fora.PageletTree.values).length : ℤ)) ∘
      fun i => i - ((pagedValues pages h.mBigVector).length : ℤ)) = (· - h.pagedAndPageletTreeValueCount) := by
    funext i
    rw [Function.comp_apply, hboth, hpaged, htree, hcount]
    ring
  rw [hmap, hpaged, ← hcount, select_map_filter fun i _ h0 hlt => decide_eq_true (by omega),
    select_map_filter fun i _ h0 hlt => decide_eq_true (by omega),
    select_filter fun i _ h0 hlt => decide_eq_true (by omega), append_assoc]

variable (pagedValueCount : ℕ)

/-- The indices in a handle of these counts are given back in order: they ascend, or they are all in the
pages, or all in the array, or there is at most one. -/
def KeepsOrder (pageletTreeValueCount unpagedValueCount : ℕ) (seq : IntegerSequence) : Prop := 0 < seq.stride ∨
    (∀ i ∈ seq.values, 0 ≤ i → i < pagedValueCount + pageletTreeValueCount + unpagedValueCount → i < pagedValueCount) ∨
    (∀ i ∈ seq.values, 0 ≤ i → i < pagedValueCount + pageletTreeValueCount + unpagedValueCount →
      pagedValueCount + pageletTreeValueCount ≤ i) ∨
    (seq.values.filter fun i : ℤ => decide
      (0 ≤ i ∧ i < pagedValueCount + pageletTreeValueCount + unpagedValueCount)).length ≤ 1

theorem reverse_of_length_le_one {xs : List α} (hle : xs.length ≤ 1) : xs.reverse = xs := by
  match xs, hle with
  | [], _ => rfl
  | [x], _ => rfl

theorem pairwise_of_length_le_one {R : α → α → Prop} {xs : List α} (hle : xs.length ≤ 1) : xs.Pairwise R := by
  match xs, hle with
  | [], _ => exact .nil
  | [x], _ => exact pairwise_singleton R x

/-- A list that descends in both directions. -/
theorem length_le_one_of_both {is : List ℤ} (h : is.Pairwise (· > ·)) (hrev : is.reverse.Pairwise (· > ·)) :
    is.length ≤ 1 := by
  match is, h, pairwise_reverse.1 hrev with
  | [], _, _ => exact zero_le 1
  | [_], _, _ => exact le_rfl
  | i :: j :: is, h, hrev =>
    have hlt := (pairwise_cons.1 h).1 j (.head _)
    have hgt := (pairwise_cons.1 hrev).1 j (.head _)
    omega

/-- Where the order is kept, a slice is the list slice. -/
theorem WellFormed.sliceValues_eq (h' : h.WellFormed pages) {p t u : ℕ} (hp : h.pagedValueCount = p)
    (ht : h.pageletTreeValueCount = t) (hu : h.unpagedValueCount = u) (hk : KeepsOrder p t u seq) :
    sliceValues pages h seq = select (h.values pages) seq.values := by
  have hlength := h'.length_values
  have hcount := h'.pagedValueCount_eq
  have hboth := h'.pagedAndPageletTreeValueCount_eq
  have hpaged := h'.length_paged
  have htree := h'.length_tree
  have hunpaged := h'.length_unpaged
  have hsize := h'.size_sum
  have hall : select (h.values pages) seq.values = select (h.values pages)
      (seq.values.filter fun i => decide (0 ≤ i ∧ i < h.size)) :=
    (select_filter fun i _ h0 hlt => decide_eq_true ⟨h0, by omega⟩).symm
  have hlow : h.pagedAndPageletTreeValueCount = ((pagedValues pages h.mBigVector ++
      h.mPageletTreePtr.elim [] Fora.PageletTree.values).length : ℤ) := by
    rw [length_append, cast_add]
    omega
  obtain hpos | hin | hin | hone := hk
  · have hasc : seq.values.Pairwise (· ≤ ·) := (pairwise_progression hpos).imp le_of_lt
    rw [h'.select_values (hasc.filter _), sliceValues, if_pos hpos]
  · have htreeNil : select (h.mPageletTreePtr.elim [] Fora.PageletTree.values)
        (seq.values.map (· - h.pagedValueCount)) = [] := select_eq_nil fun i hi => by
      obtain ⟨j, hj, rfl⟩ := mem_map.1 hi
      have := hin j hj
      omega
    have hunpagedNil : select (h.mUnpagedValues.elim [] ForaValueArray.values)
        (seq.values.map (· - h.pagedAndPageletTreeValueCount)) = [] := select_eq_nil fun i hi => by
      obtain ⟨j, hj, rfl⟩ := mem_map.1 hi
      have := hin j hj
      omega
    rw [sliceValues, htreeNil, hunpagedNil, hall, values,
      append_assoc (pagedValues pages h.mBigVector), select_append_of_lt fun i hi => ?_,
      select_filter fun i _ h0 hlt => decide_eq_true (by omega)]
    · simp
    · obtain ⟨hi, hbounds⟩ := mem_filter.1 hi
      rw [decide_eq_true_iff] at hbounds
      have := hin i hi
      omega
  · have htreeNil : select (h.mPageletTreePtr.elim [] Fora.PageletTree.values)
        (seq.values.map (· - h.pagedValueCount)) = [] := select_eq_nil fun i hi => by
      obtain ⟨j, hj, rfl⟩ := mem_map.1 hi
      have := hin j hj
      omega
    have hpagedNil : select (pagedValues pages h.mBigVector) seq.values = [] := select_eq_nil fun i hi => by
      have := hin i hi
      omega
    rw [sliceValues, htreeNil, hpagedNil, hall, values, select_append_of_le fun i hi => ?_,
      ← hlow, select_map_filter fun i _ h0 hlt => decide_eq_true (by omega)]
    · simp
    · obtain ⟨hi, hbounds⟩ := mem_filter.1 hi
      rw [decide_eq_true_iff] at hbounds
      have := hin i hi
      omega
  · have hle : (seq.values.filter fun i => decide (0 ≤ i ∧ i < h.size)).length ≤ 1 := by
      rwa [hsize, hp, ht, hu]
    have hchosen : (select (h.mPageletTreePtr.elim [] Fora.PageletTree.values)
        (seq.values.map (· - h.pagedValueCount))).length ≤ 1 := by
      rw [← select_map_filter (p := fun i => decide (0 ≤ i ∧ i < h.size)) fun i _ h0 hlt =>
        decide_eq_true (by omega)]
      exact (length_filterMap_le _ _).trans (by rwa [length_map])
    rw [h'.select_values (pairwise_of_length_le_one hle), sliceValues, reverse_of_length_le_one hchosen, ite_self]

/-! ## Handles that show the order -/

/-- Pages whose values are their positions. -/
def indexPages : VectorDataID → List ℤ := fun _ => progression pagedValueCount 0 1

/-- A handle of the given counts whose values are their positions. -/
def indexHandle (pageletTreeValueCount unpagedValueCount : ℕ) : VectorHandle ℤ :=
  make (if pagedValueCount = 0 then {} else .ofSlices [⟨⟨0, ⟨0, 0, 0⟩⟩, .range pagedValueCount⟩] 0)
    (if pageletTreeValueCount = 0 then none
      else some (.leaf (progression pageletTreeValueCount pagedValueCount 1) pageletTreeValueCount))
    (some ⟨progression unpagedValueCount (pagedValueCount + pageletTreeValueCount) 1, true⟩) ⟨true⟩ 0

variable (p t u : ℕ)

theorem indexHandle_layout : (indexHandle p t u).mBigVector.WellFormed ∧
    (indexHandle p t u).mBigVector.elements = (progression p 0 1).map ((⟨0, ⟨0, 0, 0⟩⟩ : VectorDataID), ·) := by
  show (BigVectorPageLayout.WellFormed (if p = 0 then {} else _)) ∧
    elements (if p = 0 then {} else _) = _
  split
  · next h0 =>
    rw [h0]
    exact ⟨wellFormed_empty, rfl⟩
  · next h0 =>
    refine ⟨ofSlices_wellFormed (fun s hs => ?_) 0, ?_⟩
    · obtain rfl := mem_singleton.1 hs
      exact cast_pos.2 (pos_of_ne_zero h0)
    · rw [ofSlices_elements, elementsOf_singleton]
      rfl

theorem indexHandle_tree : (indexHandle p t u).mPageletTreePtr.elim [] Fora.PageletTree.values = progression t p 1 ∧
    (indexHandle p t u).pageletTreeValueCount = t ∧
    ∀ tree ∈ (indexHandle p t u).mPageletTreePtr, tree.WellFormed := by
  show Option.elim (if t = 0 then none else _) _ _ = _ ∧ Option.elim (if t = 0 then none else _) _ _ = _ ∧
    ∀ tree ∈ (if t = 0 then none else _), _
  split
  · next h0 =>
    rw [h0]
    exact ⟨rfl, rfl, nofun⟩
  · refine ⟨?_, rfl, ?_⟩
    · simp [Fora.PageletTree.values]
    · rintro tree ht
      obtain rfl := Option.some.inj ht
      exact (length_progression ..).ge

theorem indexHandle_wellFormed : (indexHandle p t u).WellFormed (indexPages p) where
  layout := (indexHandle_layout p t u).1
  inPages := by
    rw [(indexHandle_layout p t u).2]
    rintro element he
    obtain ⟨i, hi, rfl⟩ := mem_map.1 he
    rw [mem_positions] at hi
    rw [indexPages, length_progression]
    exact hi
  tree := (indexHandle_tree p t u).2.2
  pagedAndPagelet_eq := rfl
  size_eq := add_right_comm _ _ _

theorem indexHandle_paged : pagedValues (indexPages p) (indexHandle p t u).mBigVector = progression p 0 1 := by
  rw [pagedValues, (indexHandle_layout p t u).2, filterMap_map]
  have hall := select_all (progression p 0 1)
  rwa [length_progression] at hall

/-- The handle of the indices has the counts it was made for. -/
theorem indexHandle_counts : (indexHandle p t u).pagedValueCount = p ∧
    (indexHandle p t u).pageletTreeValueCount = t ∧ (indexHandle p t u).unpagedValueCount = u := by
  have hp := (indexHandle_wellFormed p t u).length_paged
  have hu := (indexHandle_wellFormed p t u).length_unpaged
  rw [indexHandle_paged, length_progression] at hp
  rw [show (indexHandle p t u).mUnpagedValues.elim [] ForaValueArray.values = progression u (p + t) 1 from rfl,
    length_progression] at hu
  exact ⟨(indexHandle_wellFormed p t u).pagedValueCount_eq.trans hp.symm, (indexHandle_tree p t u).2.1, hu.symm⟩

theorem indexHandle_values : (indexHandle p t u).values (indexPages p) = progression (p + t + u) 0 1 := by
  rw [values, indexHandle_paged, (indexHandle_tree p t u).1, progression_add, progression_add]
  simp only [zero_add, one_mul, cast_add]
  rfl

/-- A slice of a handle that shows the order. -/
theorem indexHandle_sliceValues (seq : IntegerSequence) : sliceValues (indexPages p) (indexHandle p t u) seq =
      (seq.values.filter fun i : ℤ => decide (0 ≤ i ∧ i < 0 + p)) ++
        (if 0 < seq.stride then seq.values.filter fun i : ℤ => decide (p ≤ i ∧ i < p + t)
          else (seq.values.filter fun i : ℤ => decide (p ≤ i ∧ i < p + t)).reverse) ++
        seq.values.filter fun i : ℤ => decide ((p + t : ℤ) ≤ i ∧ i < p + t + u) := by
  have hcounts := indexHandle_counts p t u
  have hzero : seq.values = seq.values.map (· - 0) := by simp
  rw [sliceValues, indexHandle_paged, (indexHandle_tree p t u).1, hcounts.1,
    (indexHandle_wellFormed p t u).pagedAndPageletTreeValueCount_eq, hcounts.1, hcounts.2.1]
  show select _ _ ++ _ ++ select (progression u (p + t) 1) _ = _
  rw [select_neighbours, select_neighbours, hzero, select_neighbours, ← hzero]

/-- Where such a handle is sliced in order, the order is kept. -/
theorem keepsOrder_of_sliceValues {p t u : ℕ} (hd : seq.stride ≠ 0)
    (heq : sliceValues (indexPages p) (indexHandle p t u) seq =
      select ((indexHandle p t u).values (indexPages p)) seq.values) : KeepsOrder p t u seq := by
  rcases lt_or_gt_of_ne hd.symm with hpos | hneg
  · exact .inl hpos
  have hzero : seq.values = seq.values.map (· - 0) := by simp
  have hdesc : seq.values.Pairwise (· > ·) := pairwise_progression_neg hneg
  rw [indexHandle_sliceValues, if_neg hneg.not_gt, indexHandle_values, hzero, select_neighbours, ← hzero] at heq
  have hsliced := hdesc.filter (fun i : ℤ => decide (0 ≤ i ∧ i < 0 + (p + t + u : ℕ)))
  rw [← heq, append_assoc, pairwise_append, pairwise_append] at hsliced
  obtain ⟨-, ⟨htree, -, htreeUnpaged⟩, hpaged⟩ := hsliced
  simp only [mem_append, mem_reverse, mem_filter, decide_eq_true_iff] at hpaged htreeUnpaged
  by_cases hsomePaged : ∃ i ∈ seq.values, 0 ≤ i ∧ i < p
  · obtain ⟨i, hi, hbounds⟩ := hsomePaged
    refine .inr (.inl fun j hj h0 hlt => ?_)
    by_contra hc
    have := hpaged i ⟨hi, by omega⟩ j (by
      by_cases hjt : j < p + t
      · exact .inl ⟨hj, by omega⟩
      · exact .inr ⟨hj, by omega⟩)
    omega
  by_cases hsomeUnpaged : ∃ i ∈ seq.values, (p + t : ℤ) ≤ i ∧ i < p + t + u
  · obtain ⟨i, hi, hbounds⟩ := hsomeUnpaged
    refine .inr (.inr (.inl fun j hj h0 hlt => ?_))
    by_contra hc
    have hjp : ¬ j < p := fun hjp => hsomePaged ⟨j, hj, h0, hjp⟩
    have := htreeUnpaged j ⟨hj, by omega⟩ i ⟨hi, by omega⟩
    omega
  refine .inr (.inr (.inr ?_))
  have hall : (seq.values.filter fun i : ℤ => decide (0 ≤ i ∧ i < p + t + u)) =
      seq.values.filter fun i : ℤ => decide (p ≤ i ∧ i < p + t) := filter_congr fun i hi => by
    have hnotPaged : ¬ (0 ≤ i ∧ i < p) := fun h => hsomePaged ⟨i, hi, h⟩
    have hnotUnpaged : ¬ ((p + t : ℤ) ≤ i ∧ i < p + t + u) := fun h => hsomeUnpaged ⟨i, hi, h⟩
    rw [decide_eq_decide]
    omega
  rw [hall]
  exact length_le_one_of_both (hdesc.filter _) htree

end VectorHandle

namespace VectorRecord

variable {α : Type} {pages : VectorDataID → List α} {record : VectorRecord α}

/-- The record of a whole handle. -/
theorem ofHandle_values {inPtr : Option (VectorHandle α)} (h : ∀ s ∈ inPtr, s.WellFormed pages) :
    (ofHandle inPtr).values pages = inPtr.elim [] (VectorHandle.values pages) ∧
      (ofHandle inPtr).WellFormed pages ∧ (ofHandle inPtr).isCanonicallySliced := by
  cases inPtr with
  | none => exact ⟨rfl, ⟨nofun, fun _ => rfl⟩, rfl⟩
  | some s =>
    have hs := h s rfl
    have hlen := hs.length_values
    have hindices : (ofHandle (some s)).indicesWithinHandle.values = progression (s.values pages).length 0 1 := by
      rw [show (s.values pages).length = s.size.toNat by omega]
      rfl
    refine ⟨?_, ⟨?_, nofun⟩, by simp [isCanonicallySliced, ofHandle]⟩
    · rw [values, hindices]
      exact select_all _
    · rintro dataPtr hd
      obtain rfl := Option.some.inj hd
      refine ⟨hs, show (0 : ℤ) ≤ s.size by omega, one_ne_zero, fun x hx => ?_⟩
      rw [hindices, mem_positions] at hx
      omega

end VectorRecord

namespace VectorHandle

variable {α : Type} {pages : VectorDataID → List α} {h : VectorHandle α} {seq : IntegerSequence}

/-- What `slice` is for: it gives the values at the indices of the sequence that are in the handle, in the
order of the sequence, and a record of these indices keeps its values when it is made canonical. -/
structure SliceCorrect (add : Hash → Hash → Hash) (pages : VectorDataID → List α) (h : VectorHandle α)
    (seq : IntegerSequence) (inPool : MemoryPool) (newVectorHash : Hash) : Prop where
  slice : ∃ r, h.slice add seq inPool newVectorHash = some r ∧ (∀ s ∈ r, s.WellFormed pages) ∧
    r.elim [] (values pages) = select (h.values pages) seq.values
  canonicallySliced : seq.Inside h.size → ∃ r,
    (VectorRecord.mk (some h) seq.size seq.offset seq.stride).canonicallySliced add inPool newVectorHash = some r ∧
      r.WellFormed pages ∧ r.isCanonicallySliced ∧
      r.values pages = (VectorRecord.mk (some h) seq.size seq.offset seq.stride).values pages

/-- Slicing and making canonical give the same values. -/
theorem WellFormed.sliceCorrect_iff (h' : h.WellFormed pages) (hs : 0 ≤ seq.size) (hd : seq.stride ≠ 0)
    (add : Hash → Hash → Hash) (inPool : MemoryPool) (newVectorHash : Hash) :
    SliceCorrect add pages h seq inPool newVectorHash ↔
      sliceValues pages h seq = select (h.values pages) seq.values := by
  obtain ⟨r, hr, hwf, hvalues⟩ := h'.slice_values hs hd add inPool newVectorHash
  constructor
  · rintro ⟨⟨r', hr', -, hvalues'⟩, -⟩
    obtain rfl := Option.some.inj (hr.symm.trans hr')
    exact hvalues.symm.trans hvalues'
  · intro heq
    obtain ⟨hrecord, hrecordWf, hcanonical⟩ := VectorRecord.ofHandle_values hwf
    refine ⟨⟨r, hr, hwf, hvalues.trans heq⟩, fun hin => ⟨VectorRecord.ofHandle r, ?_, hrecordWf, hcanonical,
      hrecord.trans (hvalues.trans heq)⟩⟩
    have hlen := h'.length_values
    have hsize : (VectorRecord.ofHandle r).mSize = seq.size := by
      have hcard := @length_select _ (h.values pages) seq.values fun i hi => by
        have := hin.mem_bounds i hi
        omega
      rw [← heq, ← hvalues, IntegerSequence.length_values] at hcard
      cases r with
      | none =>
        show (0 : ℤ) = seq.size
        rw [Option.elim_none, length_nil] at hcard
        omega
      | some s =>
        have hs := (hwf s rfl).length_values
        show s.size = seq.size
        rw [Option.elim_some] at hcard
        omega
    unfold VectorRecord.canonicallySliced
    simp only [VectorRecord.indicesWithinHandle, hr, Option.bind_eq_bind, Option.bind_some, hsize, guard_true,
      Option.pure_def]

/-- Exactly where the order of the indices is kept, every handle of the given counts is sliced as a list
is, and made canonical without a change of its values. -/
theorem slice_correct_iff (add : Hash → Hash → Hash) (inPool : MemoryPool) (newVectorHash : Hash) (p t u : ℕ)
    (seq : IntegerSequence) (hs : 0 ≤ seq.size) (hd : seq.stride ≠ 0) :
    (∀ (α : Type) (pages : VectorDataID → List α) (h : VectorHandle α), h.WellFormed pages →
      h.pagedValueCount = p → h.pageletTreeValueCount = t → h.unpagedValueCount = u →
        SliceCorrect add pages h seq inPool newVectorHash) ↔ KeepsOrder p t u seq := by
  constructor
  · intro hall
    have hcounts := indexHandle_counts p t u
    have hcorrect := hall ℤ _ _ (indexHandle_wellFormed p t u) hcounts.1 hcounts.2.1 hcounts.2.2
    exact keepsOrder_of_sliceValues hd (((indexHandle_wellFormed p t u).sliceCorrect_iff hs hd ..).1 hcorrect)
  · intro hk α pages h h' hp ht hu
    exact (h'.sliceCorrect_iff hs hd ..).2 (h'.sliceValues_eq hp ht hu hk)

/-- A handle with two values in a pagelet. -/
def twoInPagelet : VectorHandle ℕ := make {} (some (.leaf [10, 20] 2)) none ⟨true⟩ 1

theorem twoInPagelet_wellFormed : twoInPagelet.WellFormed fun _ => [] :=
  ⟨wellFormed_empty, nofun, fun _ ht => Option.some.inj ht ▸ le_rfl, rfl, rfl⟩

/-- Its values forwards. -/
theorem slice_correct_forwards : SliceCorrect (· + ·) (fun _ => []) twoInPagelet ⟨2, 0, 1⟩ ⟨true⟩ 2 :=
  (slice_correct_iff (· + ·) ⟨true⟩ 2 0 2 0 ⟨2, 0, 1⟩ (by decide) (by decide)).2 (.inl (by decide)) ℕ _ _
    twoInPagelet_wellFormed rfl rfl rfl

/-- Its values backwards: they are given forwards. -/
theorem not_slice_correct_backwards : twoInPagelet.WellFormed (fun _ => []) ∧
    (IntegerSequence.mk 2 1 (-1)).Inside twoInPagelet.size ∧
    select (twoInPagelet.values fun _ => []) (IntegerSequence.mk 2 1 (-1)).values = [20, 10] ∧
    ((twoInPagelet.slice (· + ·) ⟨2, 1, -1⟩ ⟨true⟩ 2).map
      (·.elim [] (values fun _ => []))) = some [10, 20] ∧
    ¬ SliceCorrect (· + ·) (fun _ => []) twoInPagelet ⟨2, 1, -1⟩ ⟨true⟩ 2 := by
  have hslice : (twoInPagelet.slice (· + ·) ⟨2, 1, -1⟩ ⟨true⟩ 2).map
      (·.elim [] (values fun _ => [])) = some [10, 20] := by decide +kernel
  have hlist : select (twoInPagelet.values fun _ => []) (IntegerSequence.mk 2 1 (-1)).values = [20, 10] := by
    decide +kernel
  refine ⟨twoInPagelet_wellFormed, ⟨by decide, by decide, by decide +kernel⟩, hlist, hslice, fun hc => ?_⟩
  obtain ⟨r, hr, -, hvalues⟩ := hc.slice
  rw [hr, Option.map_some, hvalues, hlist] at hslice
  exact absurd hslice (by decide)

end VectorHandle

end TypedFora.Vectors
