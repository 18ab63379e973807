import Ufora.Vectors.VectorHandle

/-!
# Slices of vector handles

A slice of a handle lists the chosen values of its pages, of its pagelet tree and of its array, in this
order. Within the pages and within the array they come in the order of the positions, but the pagelet
tree is always gone through forwards.
-/

open Selection IntegerSequence Option TypedFora.Vectors.VectorHandle

namespace TypedFora.Vectors

variable {α : Type}

namespace ForaValueArray

variable {array source : ForaValueArray α} {s : IntegerSequence} {low high : ℤ}

theorem appendRange_values (h0 : 0 ≤ low) : (array.appendRange source low high).values =
      array.values ++ select source.values (progression (high - low).toNat low 1) := by
  lift low to ℕ using h0
  rw [select_range, appendRange, List.drop_take]
  simp only [Int.toNat_natCast]
  congr 3
  omega

/-- Appending the values at the positions of a sequence one after another. -/
theorem foldl_appendRange (h : ∀ x ∈ s.values, 0 ≤ x) : ((List.range s.size.toNat).foldl (fun array (k : ℕ) =>
      array.appendRange source (s.offsetForIndex k) (s.offsetForIndex k + 1)) array).values =
        array.values ++ select source.values s.values := by
  unfold IntegerSequence.values at h ⊢
  generalize s.size.toNat = n at h ⊢
  induction n with
  | zero => simp
  | succ n ih =>
    have hlast : s.offsetForIndex n ∈ progression (n + 1) s.offset s.stride := mem_progression.2 ⟨n, by omega, rfl⟩
    rw [List.range_succ, List.foldl_append, List.foldl_cons, List.foldl_nil, appendRange_values (h _ hlast),
      ih fun x hx => h x ?_, progression_add, select_append_right, List.append_assoc]
    · simp [progression, offsetForIndex]
    · obtain ⟨i, hi, rfl⟩ := mem_progression.1 hx
      exact mem_progression.2 ⟨i, by omega, rfl⟩

/-- The same for positions in the array. -/
theorem foldlM_append (h : ∀ x ∈ s.values, 0 ≤ x ∧ x < source.size) :
    ∃ r, (List.range s.size.toNat).foldlM (fun array (k : ℕ) => do
        return array.append (← nth source.values (s.offsetForIndex k))) array = some r ∧
      r.values = array.values ++ select source.values s.values := by
  refine (Effect.foldlM_eq_some (I := fun pre (r : ForaValueArray α) =>
    r.values = array.values ++ select source.values (pre.map fun k : ℕ => s.offset + s.stride * k))
    (by simp) ?_).imp fun r hr => hr
  intro pre k after hl r hr
  have hk : k ∈ List.range s.size.toNat := by rw [hl]; simp
  have hin := h (s.offsetForIndex k) (mem_progression.2 ⟨k, List.mem_range.1 hk, rfl⟩)
  have hsome : nth source.values (s.offsetForIndex k) ≠ none := by
    rw [Ne, nth_eq_none]
    unfold size at hin
    omega
  obtain ⟨x, hx⟩ := ne_none_iff_exists'.1 hsome
  rw [hx]
  refine ⟨_, rfl, ?_⟩
  rw [List.map_append, select_append_right, ← List.append_assoc, ← hr]
  unfold offsetForIndex at hx
  simp [append, select, hx]

end ForaValueArray

namespace VectorHandle

variable {pages : VectorDataID → List α} {h : VectorHandle α} {part seq : IntegerSequence}
  {array : ForaValueArray α} {pagelet : List α} {n : ℕ} {off : ℤ}

/-- The chosen positions of the values from `off` on, in ascending order. -/
def chosen (part : IntegerSequence) (n : ℕ) (off : ℤ) : List ℤ :=
  ((progression n off 1).filter (· ∈ part.values)).map (· - off)

theorem mem_chosen {x : ℤ} (hx : x ∈ chosen part n off) : 0 ≤ x ∧ x < n := by
  obtain ⟨y, hy, rfl⟩ := List.mem_map.1 hx
  have := (mem_progression_iff one_pos).1 (List.mem_of_mem_filter hy)
  omega

/-- Appending what is chosen of a pagelet. -/
theorem appendFromPagelet_values (hsize : 0 ≤ part.size) (hd : part.stride ≠ 0) (hn : n ≤ pagelet.length) :
    ∃ r, appendFromPagelet part array (pagelet, ⟨0, n⟩, off) = some r ∧
      r.values = array.values ++ select (pagelet.take n) (chosen part n off) := by
  have hrange : (⟨0, n⟩ : IntegerRange).size = n := by simp [IntegerRange.size]
  obtain ⟨q, hq, hqsize, hqstride, hqvalues⟩ := intersect_values (s := range n off) (t := part)
    (by simp [range]) hsize one_ne_zero hd
  have hkeep : (q.offsetBy (-off)).values = chosen part n off := by
    rw [values_offsetBy, hqvalues, chosen]
    rfl
  have hselect : select (pagelet.take n) (chosen part n off) = select pagelet (chosen part n off) := by
    conv_rhs => rw [← List.take_append_drop n pagelet]
    refine (select_append_of_lt fun i hi => ?_).symm
    have := mem_chosen hi
    rw [List.length_take]
    omega
  unfold appendFromPagelet
  simp only [hrange, hq, bind_eq_bind, bind_some, pure_def]
  rw [hselect, ← hkeep]
  have hin : ∀ x ∈ (q.offsetBy (-off)).values, 0 ≤ x ∧ x < n := fun x hx => mem_chosen (by rwa [hkeep] at hx)
  have hkstride : (q.offsetBy (-off)).size ≠ 0 → 0 < (q.offsetBy (-off)).stride := fun h0 => by
    have hpos := hqstride h0
    rwa [show (range n off).stride = 1 from rfl, mul_one] at hpos
  have hksize : 0 ≤ (q.offsetBy (-off)).size := hqsize
  generalize q.offsetBy (-off) = keep at hin hkstride hksize ⊢
  split
  · next h0 => exact ⟨_, rfl, by rw [values_eq_nil h0]; simp⟩
  · next h0 =>
    have hpos := hkstride h0
    have hsmall : keep.smallestValue ∈ keep.values := by
      rw [mem_values (by omega) hpos, smallestValue, if_neg (by omega), largestValue, if_pos hpos, sub_self]
      exact ⟨le_rfl, le_add_of_nonneg_right (mul_nonneg (by omega) hpos.le), dvd_zero _⟩
    have hlarge : keep.largestValue ∈ keep.values := by
      rw [mem_values (by omega) hpos, largestValue, if_pos hpos, add_sub_cancel_left]
      exact ⟨le_add_of_nonneg_right (mul_nonneg (by omega) hpos.le), le_rfl, Dvd.intro_left _ rfl⟩
    have hs := hin _ hsmall
    have hl := hin _ hlarge
    have hguard : keep.smallestValue ≥ 0 ∧ keep.largestValue < pagelet.length := by omega
    simp only [hguard, and_self]
    split
    · next hone =>
      refine ⟨_, rfl, ?_⟩
      rw [ForaValueArray.appendRange_values hs.1, add_sub_cancel_left, IntegerSequence.values, hone, smallestValue,
        if_neg (by omega)]
    · exact ⟨_, rfl, ForaValueArray.foldl_appendRange fun x hx => (hin x hx).1⟩

/-- Appending what is chosen of pagelets that follow each other. -/
theorem foldlM_appendFromPagelet (hsize : 0 ≤ part.size) (hd : part.stride ≠ 0)
    {visits : List (Fora.PageletTree.Visit α)} {xs : List α} (ht : Fora.PageletTree.Tiles off visits xs) :
    ∀ array, ∃ r, visits.foldlM (appendFromPagelet part) array = some r ∧
      r.values = array.values ++ select xs (chosen part xs.length off) := by
  induction ht with
  | nil off => exact fun array => ⟨array, rfl, by simp [chosen]⟩
  | @cons off pagelet n visits xs hn hle ht ih =>
    intro array
    obtain ⟨next, hnext, hvalues⟩ := @appendFromPagelet_values _ _ array _ _ off hsize hd hle
    obtain ⟨r, hr, hrvalues⟩ := ih next
    refine ⟨r, by rw [List.foldlM_cons, hnext]; exact hr, ?_⟩
    have hlen : (pagelet.take n).length = n := by rw [List.length_take, min_eq_left hle]
    have hchosen : chosen part (n + xs.length) off =
        chosen part n off ++ (chosen part xs.length (off + n)).map (· + (n : ℤ)) := by
      rw [chosen, progression_add, List.filter_append, List.map_append, one_mul]
      refine congrArg₂ _ rfl ?_
      rw [chosen, List.map_map]
      exact List.map_congr_left fun i _ => by simp only [Function.comp_apply]; ring
    rw [hrvalues, hvalues, List.append_assoc, List.length_append, hlen, hchosen, select_append_right,
      @select_append_of_lt _ _ _ (chosen part n off) fun i hi => by rw [hlen]; exact (mem_chosen hi).2,
      select_append_of_le fun i hi => ?_, hlen, List.map_map]
    · congr 3
      conv_lhs => rw [← List.map_id (chosen part xs.length (off + n))]
      exact List.map_congr_left fun i _ => by simp
    · obtain ⟨j, hj, rfl⟩ := List.mem_map.1 hi
      have := mem_chosen hj
      omega

/-- What is chosen of all values are the positions in ascending order. -/
theorem chosen_eq (hd : part.stride ≠ 0) (hin : ∀ x ∈ part.values, 0 ≤ x ∧ x < n) :
    chosen part n 0 = if 0 < part.stride then part.values else part.values.reverse := by
  have hmem : ∀ x, x ∈ chosen part n 0 ↔ x ∈ part.values := by
    intro x
    simp only [chosen, sub_zero, List.map_id', List.mem_filter, decide_eq_true_eq, mem_positions]
    exact and_iff_right_of_imp fun hx => hin x hx
  have hasc : (chosen part n 0).Pairwise (· < ·) := by
    simp only [chosen, sub_zero, List.map_id']
    exact (pairwise_progression one_pos).filter _
  split
  · next hpos => exact eq_of_ascending hasc (pairwise_progression hpos) hmem
  · next hneg =>
    refine eq_of_ascending hasc (List.pairwise_reverse.2 (pairwise_progression_neg (by omega))) fun x => ?_
    rw [List.mem_reverse, hmem]

section

variable (h' : h.WellFormed pages)
include h'

theorem WellFormed.pagedValueCount_eq : h.pagedValueCount = h.mBigVector.size := by
  rw [pagedValueCount, h'.pagedAndPagelet_eq, add_sub_cancel_right]

theorem WellFormed.length_paged : ((pagedValues pages h.mBigVector).length : ℤ) = h.mBigVector.size := by
  rw [pagedValues, length_filterMap_of_isSome, h'.layout.length_elements]
  intro element he
  rw [isSome_iff_ne_none, Ne, nth_eq_none]
  have := h'.inPages element he
  omega

theorem WellFormed.length_tree :
    ((h.mPageletTreePtr.elim [] Fora.PageletTree.values).length : ℤ) = h.pageletTreeValueCount := by
  unfold pageletTreeValueCount
  cases htree : h.mPageletTreePtr with
  | none => rfl
  | some tree => exact congrArg _ (Fora.PageletTree.length_values (h'.tree tree htree))

theorem WellFormed.length_unpaged :
    ((h.mUnpagedValues.elim [] ForaValueArray.values).length : ℤ) = h.unpagedValueCount := by
  rw [unpagedValueCount, h'.size_eq, add_sub_cancel_left]
  cases h.mUnpagedValues <;> rfl

/-- The sizes of the three regions. -/
theorem WellFormed.size_sum : h.size = h.pagedValueCount + h.pageletTreeValueCount + h.unpagedValueCount := by
  rw [h'.pagedValueCount_eq, unpagedValueCount, size, h'.pagedAndPagelet_eq]
  ring

theorem WellFormed.pagedAndPageletTreeValueCount_eq :
    h.pagedAndPageletTreeValueCount = h.pagedValueCount + h.pageletTreeValueCount := by
  rw [pagedAndPageletTreeValueCount, h'.pagedAndPagelet_eq, h'.pagedValueCount_eq]

/-- The values of the tree come in ascending order of their positions. -/
theorem appendFromPageletTree_values (hsize : 0 ≤ part.size) (hd : part.size ≠ 0 → part.stride ≠ 0)
    (hin : ∀ x ∈ part.values, h.pagedValueCount ≤ x ∧ x < h.pagedValueCount + h.pageletTreeValueCount) :
    ∃ r, h.appendFromPageletTree part array = some r ∧ r.values = array.values ++
      (let chosen := select (h.mPageletTreePtr.elim [] Fora.PageletTree.values)
        (part.values.map (· - h.pagedValueCount))
      if 0 < part.stride then chosen else chosen.reverse) := by
  unfold appendFromPageletTree
  split
  · next h0 => exact ⟨_, rfl, by simp [values_eq_nil h0]⟩
  next h0 =>
  have hfirst : part.offset ∈ part.values := mem_progression.2 ⟨0, by omega, by simp⟩
  have hpos := hin _ hfirst
  cases htree : h.mPageletTreePtr with
  | none =>
    rw [pageletTreeValueCount, htree] at hpos
    simp only [elim_none] at hpos
    omega
  | some tree =>
    have hwf := h'.tree tree htree
    have hcount : h.pageletTreeValueCount = tree.size := by rw [pageletTreeValueCount, htree]; rfl
    have hlen := Fora.PageletTree.length_values hwf
    have htiles := Fora.PageletTree.visitTree_tiles hwf tree.size le_rfl 0
    rw [List.take_of_length_le (by omega)] at htiles
    obtain ⟨r, hr, hvalues⟩ := (@foldlM_appendFromPagelet _ (part.offsetBy (-h.pagedValueCount)))
      hsize (hd h0) htiles array
    have hown : (part.offsetBy (-h.pagedValueCount)).values =
        part.values.map (· - h.pagedValueCount) := values_offsetBy ..
    rw [@chosen_eq (part.offsetBy (-h.pagedValueCount)) tree.values.length (hd h0) fun x hx => by
      rw [hown] at hx
      obtain ⟨y, hy, rfl⟩ := List.mem_map.1 hx
      have := hin y hy
      omega, hown] at hvalues
    have hstride : (part.offsetBy (-h.pagedValueCount)).stride = part.stride := rfl
    rw [hstride] at hvalues
    have hselect : r.values = array.values ++
        (if 0 < part.stride then select tree.values (part.values.map (· - h.pagedValueCount))
        else (select tree.values (part.values.map (· - h.pagedValueCount))).reverse) := by
      rw [hvalues]
      split
      · rfl
      · rw [select_reverse]
    have hguard : r.size = array.size + part.size := by
      rw [ForaValueArray.size, hselect, List.length_append, ForaValueArray.size, Nat.cast_add]
      have hcard : (select tree.values (part.values.map (· - h.pagedValueCount))).length = part.size.toNat := by
        rw [length_select fun i hi => ?_, List.length_map, length_values]
        obtain ⟨y, hy, rfl⟩ := List.mem_map.1 hi
        have := hin y hy
        omega
      split
      · omega
      · rw [List.length_reverse]
        omega
    simp only [bind_eq_bind, bind_some, hr, hguard, pure_def]
    exact ⟨r, rfl, hselect⟩

/-- The values of the handle's array come in the order of the positions. -/
theorem appendFromUnpaged_values (hsize : 0 ≤ part.size)
    (hin : ∀ x ∈ part.values, h.pagedAndPageletTreeValueCount ≤ x ∧ x < h.size) :
    ∃ r, h.appendFromUnpaged part array = some r ∧ r.values = array.values ++
      select (h.mUnpagedValues.elim [] ForaValueArray.values)
        (part.values.map (· - h.pagedAndPageletTreeValueCount)) := by
  unfold appendFromUnpaged
  split
  · next h0 => exact ⟨_, rfl, by simp [values_eq_nil h0]⟩
  next h0 =>
  have hfirst : part.offset ∈ part.values := mem_progression.2 ⟨0, by omega, by simp⟩
  have hpos := hin _ hfirst
  have hcount := h'.size_eq
  unfold pagedAndPageletTreeValueCount size at *
  cases harray : h.mUnpagedValues with
  | none =>
    rw [harray, elim_none] at hcount
    omega
  | some source =>
    rw [harray, elim_some] at hcount
    have hown : (part.offsetBy (-h.mPagedAndPageletTreeValueCount)).values =
        part.values.map (· - h.mPagedAndPageletTreeValueCount) := values_offsetBy ..
    have hownin : ∀ x ∈ (part.offsetBy (-h.mPagedAndPageletTreeValueCount)).values, 0 ≤ x ∧ x < source.size := by
      intro x hx
      rw [hown] at hx
      obtain ⟨y, hy, rfl⟩ := List.mem_map.1 hx
      have := hin y hy
      omega
    have hcard : (select source.values (part.values.map
        (· - h.mPagedAndPageletTreeValueCount))).length = part.size.toNat := by
      rw [length_select fun i hi => ?_, List.length_map, length_values]
      obtain ⟨y, hy, rfl⟩ := List.mem_map.1 hi
      have := hin y hy
      unfold ForaValueArray.size at hcount
      omega
    have hguard : ∀ r : ForaValueArray α, r.values = array.values ++ select source.values
        (part.values.map (· - h.mPagedAndPageletTreeValueCount)) → r.size = array.size + part.size := by
      intro r hr
      rw [ForaValueArray.size, hr, List.length_append, ForaValueArray.size, Nat.cast_add, hcard]
      omega
    simp only [bind_eq_bind, bind_some, pure_def, elim_some]
    rw [← hown] at hguard ⊢
    split
    · next hone =>
      have hmem : (part.offsetBy (-h.mPagedAndPageletTreeValueCount)).offset ∈
          (part.offsetBy (-h.mPagedAndPageletTreeValueCount)).values :=
        mem_progression.2 ⟨0, Int.pos_iff_toNat_pos.1 (hsize.lt_of_ne' h0), by simp⟩
      have hvalues := @ForaValueArray.appendRange_values _ array source _
          ((part.offsetBy (-h.mPagedAndPageletTreeValueCount)).offset +
          (part.offsetBy (-h.mPagedAndPageletTreeValueCount)).size) (hownin _ hmem).1
      rw [add_sub_cancel_left, ← show (part.offsetBy (-h.mPagedAndPageletTreeValueCount)).stride = 1 from hone,
        ← IntegerSequence.values] at hvalues
      simp only [hguard _ hvalues]
      exact ⟨_, rfl, hvalues⟩
    · obtain ⟨r, hr, hvalues⟩ := (@ForaValueArray.foldlM_append _ array) hownin
      simp only [bind_eq_bind, pure_def] at hr
      simp only [hr, bind_some, hguard _ hvalues]
      exact ⟨r, rfl, hvalues⟩

end

/-- The values of a slice: the chosen values of each region, those of the tree in the order of the
handle. -/
def sliceValues (pages : VectorDataID → List α) (h : VectorHandle α) (seq : IntegerSequence) : List α :=
  let chosen := select (h.mPageletTreePtr.elim [] Fora.PageletTree.values)
    (seq.values.map (· - h.pagedValueCount))
  select (pagedValues pages h.mBigVector) seq.values ++ (if 0 < seq.stride then chosen else chosen.reverse) ++
    select (h.mUnpagedValues.elim [] ForaValueArray.values)
      (seq.values.map (· - h.pagedAndPageletTreeValueCount))

/-- Each position of a list in three neighbouring stretches is in one of them. -/
theorem length_regions {is : List ℤ} {a b c : ℤ} (hb : 0 ≤ b) (hin : ∀ i ∈ is, 0 ≤ i ∧ i < a + b + c) :
    is.length = (is.filter (· ∈ (range a).values)).length + (is.filter (· ∈ (range b a).values)).length +
      (is.filter (· ∈ (range c (a + b)).values)).length := by
  simp only [← List.countP_eq_length_filter, mem_range_values]
  induction is with
  | nil => rfl
  | cons i is ih =>
    have hi := hin i (.head _)
    have ih := ih fun j hj => hin j (.tail _ hj)
    simp only [List.countP_cons, decide_eq_true_eq, List.length_cons] at ih ⊢
    split_ifs <;> omega

/-- A slice lists the chosen values of the pages, then those of the tree, then those of the array. -/
theorem WellFormed.slice_values (h' : h.WellFormed pages) (hs : 0 ≤ seq.size) (hd : seq.stride ≠ 0)
    (add : Hash → Hash → Hash) (pool : MemoryPool) (hash : Hash) :
    ∃ r, h.slice add seq pool hash = some r ∧ (∀ s ∈ r, s.WellFormed pages) ∧
      r.elim [] (values pages) = sliceValues pages h seq := by
  have hpaged := h'.length_paged
  have htree := h'.length_tree
  have hunpaged := h'.length_unpaged
  have hcount := h'.pagedValueCount_eq
  have hsize := h'.size_sum
  have hboth := h'.pagedAndPageletTreeValueCount_eq
  obtain ⟨s, hs', hssize, hsstride, hsvalues⟩ := intersect_values (s := seq) (t := range h.size) hs
    (show 0 ≤ h.size by omega) hd one_ne_zero
  -- the values chosen from a region only depend on the positions in it
  have hregion : ∀ {xs : List α} {low count : ℤ}, (xs.length : ℤ) = count → 0 ≤ low → low + count ≤ h.size →
      select xs (seq.values.map (· - low)) =
        select xs ((s.values.filter (· ∈ (range count low).values)).map (· - low)) := by
    intro xs low count hlen hlow hle
    rw [hsvalues, List.filter_filter]
    refine (select_map_filter fun i _ h0 hlt => ?_).symm
    rw [Bool.and_eq_true, decide_eq_true_iff, decide_eq_true_iff, mem_range_values, mem_range_values]
    omega
  have hzero : ∀ is : List ℤ, is.map (· - 0) = is := fun is => by simp
  have hchosenPaged := hregion (hpaged.trans hcount.symm) le_rfl (by omega)
  have hchosenTree := @hregion _ h.pagedValueCount _ htree (by omega) (by omega)
  have hchosenUnpaged := @hregion _ h.pagedAndPageletTreeValueCount _ hunpaged (by omega) (by omega)
  rw [hzero, hzero] at hchosenPaged
  unfold slice
  rw [hs', bind_eq_bind, bind_some]
  split
  · next h0 =>
    refine ⟨none, rfl, nofun, ?_⟩
    rw [sliceValues, hchosenPaged, hchosenTree, hchosenUnpaged, values_eq_nil h0]
    simp
  next h0 =>
  have hsd : s.stride ≠ 0 := left_ne_zero_of_mul (hsstride h0).ne'
  obtain ⟨p, hp, hpsize, hpstride, hpvalues⟩ := intersect_values (s := s) (t := range h.pagedValueCount) hssize
    (show 0 ≤ h.pagedValueCount by omega) hsd one_ne_zero
  obtain ⟨t, ht, htsize, htstride, htvalues⟩ := intersect_values (s := s)
    (t := range h.pageletTreeValueCount h.pagedValueCount) hssize
    (show 0 ≤ h.pageletTreeValueCount by omega) hsd one_ne_zero
  obtain ⟨u, hu, husize, hustride, huvalues⟩ := intersect_values (s := s)
    (t := range h.unpagedValueCount h.pagedAndPageletTreeValueCount) hssize
    (show 0 ≤ h.unpagedValueCount by omega) hsd one_ne_zero
  have hguard : s.size = p.size + t.size + u.size := by
    have hlen := @length_regions s.values h.pagedValueCount h.pageletTreeValueCount h.unpagedValueCount
        (by omega) fun i hi => ?_
    · rw [← hboth, ← hpvalues, ← htvalues, ← huvalues] at hlen
      simp only [length_values] at hlen
      omega
    · rw [hsvalues, List.mem_filter, decide_eq_true_iff, mem_range_values] at hi
      omega
  simp only [hp, ht, hu, hguard, pure_def, bind_some]
  -- the layout of the chosen paged values
  obtain ⟨newSlice, hslice, hsliceWf, hsliceElements⟩ : ∃ newSlice,
      (if p.size ≠ 0 then h.mBigVector.sliceSequence p (relatedHash add hash 0) else some {}) = some newSlice ∧
        newSlice.WellFormed ∧ newSlice.elements = select h.mBigVector.elements p.values := by
    split
    · next hpne =>
      refine h'.layout.sliceSequence_elements ⟨hpsize, left_ne_zero_of_mul (hpstride hpne).ne', fun x hx => ?_⟩ _
      rw [hpvalues, List.mem_filter, decide_eq_true_iff, mem_range_values] at hx
      omega
    · next hpeq =>
      refine ⟨_, rfl, BigVectorPageLayout.wellFormed_empty, ?_⟩
      rw [values_eq_nil (not_not.1 hpeq)]
      rfl
  have hnewSize : newSlice.size = p.size := by
    rw [← hsliceWf.length_elements, hsliceElements, length_select fun x hx => ?_, length_values]
    · omega
    · have hlen := h'.layout.length_elements
      rw [hpvalues, List.mem_filter, decide_eq_true_iff, mem_range_values] at hx
      omega
  -- the array of the chosen values of the tree and of the array
  obtain ⟨fromTree, hfromTree, hfromTreeValues⟩ := @appendFromPageletTree_values _ _ _ _ {} h' htsize
    (fun ht0 => left_ne_zero_of_mul (htstride ht0).ne') fun x hx => by
      rw [htvalues, List.mem_filter, decide_eq_true_iff, mem_range_values] at hx
      exact hx.2
  obtain ⟨newArray, hnewArray, hnewArrayValues⟩ := @appendFromUnpaged_values _ _ _ _ fromTree h' husize fun x hx => by
      rw [huvalues, List.mem_filter, decide_eq_true_iff, mem_range_values] at hx
      omega
  refine ⟨some (make newSlice none (if t.size ≠ 0 ∨ u.size ≠ 0 then some newArray else none) pool
    (relatedHash add hash 3)), ?_, ?_, ?_⟩
  · split
    · next hpne =>
      rw [if_pos hpne] at hslice
      simp [hslice, hnewSize, hfromTree, hnewArray]
    · next hpeq =>
      rw [if_neg hpeq] at hslice
      obtain rfl := some.inj hslice
      simp [hnewSize, hfromTree, hnewArray]
  · rintro r hr
    obtain rfl := some.inj hr
    refine ⟨hsliceWf, fun element he => h'.inPages element ?_, nofun, rfl, ?_⟩
    · rw [show (make newSlice none (if t.size ≠ 0 ∨ u.size ≠ 0 then some newArray else none) pool
        (relatedHash add hash 3)).mBigVector = newSlice from rfl, hsliceElements] at he
      exact mem_of_mem_select he
    · simp [make]
  · have hpagedValues : pagedValues pages newSlice = select (pagedValues pages h.mBigVector) p.values := by
      rw [pagedValues, hsliceElements, pagedValues, select_filterMap fun element he => ?_]
      rw [isSome_iff_ne_none, Ne, nth_eq_none]
      have := h'.inPages element he
      omega
    have harray : (if t.size ≠ 0 ∨ u.size ≠ 0 then some newArray else none).elim []
        ForaValueArray.values = newArray.values := by
      split
      · rfl
      · next h0 =>
        rw [not_or, not_not, not_not] at h0
        simp [hnewArrayValues, hfromTreeValues, values_eq_nil h0.1, values_eq_nil h0.2]
    have hdirection : ∀ xs : List α, (let chosen := select xs (t.values.map (· - h.pagedValueCount))
        if 0 < t.stride then chosen else chosen.reverse) =
        let chosen := select xs (t.values.map (· - h.pagedValueCount))
        if 0 < seq.stride then chosen else chosen.reverse := by
      intro xs
      rcases eq_or_ne t.size 0 with ht0 | ht0
      · simp [values_eq_nil ht0]
      · have hsame : 0 < t.stride ↔ 0 < seq.stride := by
          rw [pos_iff_pos_of_mul_pos (htstride ht0), pos_iff_pos_of_mul_pos (hsstride h0)]
        simp only [hsame]
    rw [hdirection] at hfromTreeValues
    rw [elim_some, values, sliceValues, hchosenPaged, hchosenTree, hchosenUnpaged]
    show pagedValues pages newSlice ++ [] ++
      (if t.size ≠ 0 ∨ u.size ≠ 0 then some newArray else none).elim [] ForaValueArray.values = _
    rw [List.append_nil, harray, hpagedValues, hnewArrayValues, hfromTreeValues, hpvalues, htvalues, huvalues,
      show ({} : ForaValueArray α).values = [] from rfl, List.nil_append, ← List.append_assoc]

end VectorHandle

end TypedFora.Vectors
