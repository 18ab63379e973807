import Ufora.Lib.Run
import Ufora.Vectors.HandleGrowth

/-!
# Hashes of vectors

The hash of a record is made from the hash of its handle and from its size, offset and stride, of which
32 bits each are taken. So two records with the same hash view the same indices of two handles with the
same hash, where there are not more than 2 ^ 32 values. A handle that `deepcopiedAndContiguous` makes
has the hash of the handle it is copied from, but its own values.
-/

open Run Nat TypedFora.Vectors.VectorHandle

namespace TypedFora.Vectors

open Effect Selection IntegerSequence List Option
open Fora (PageletTree)

variable {α : Type} {pages : VectorDataID → List α}

namespace VectorStore

variable {H : VectorHashing} {s s' s'' : VectorStore α} {L M : Hash → Prop} {r : RecordView}
  {vdm : VectorDataManager pages} {inPool : MemoryPool} {ptr : ℕ} {h : VectorHandle α}

/-! ## Records -/

/-- A record of the store with its handle. -/
def record (s : VectorStore α) (r : RecordView) : VectorRecord α :=
  ⟨r.mDataPtr.bind (s.handles[·]?), r.mSize, r.mOffset, r.mStride⟩

/-- A record without a handle, or one that views some of the first 2 ^ 32 values of its handle. -/
structure Fits (s : VectorStore α) (r : RecordView) : Prop where
  null : r.mDataPtr = none → r.mSize = 0
  handle : ∀ ptr, r.mDataPtr = some ptr → ∃ h, s.handles[ptr]? = some h ∧ r.indicesWithinHandle.Inside h.size
  size_pos : ∀ ptr, r.mDataPtr = some ptr → 0 < r.mSize
  small : ∀ i ∈ r.indicesWithinHandle.values, i < 2 ^ 32

/-- The first index that a record views. -/
theorem offset_mem (h0 : 0 < r.mSize) : r.mOffset ∈ r.indicesWithinHandle.values := by
  refine mem_progression.2 ⟨0, by show 0 < r.mSize.toNat; omega, ?_⟩
  show r.mOffset = r.mOffset + r.mStride * (0 : ℕ)
  simp

/-- A record that views more than one index views the next one. -/
theorem next_mem (h0 : 1 < r.mSize) : r.mOffset + r.mStride ∈ r.indicesWithinHandle.values := by
  refine mem_progression.2 ⟨1, by show 1 < r.mSize.toNat; omega, ?_⟩
  show r.mOffset + r.mStride = r.mOffset + r.mStride * (1 : ℕ)
  simp

/-- The last index that a record views. -/
theorem last_mem (h0 : 0 < r.mSize) : r.mOffset + r.mStride * (r.mSize - 1) ∈ r.indicesWithinHandle.values := by
  refine mem_progression.2 ⟨(r.mSize - 1).toNat, by show _ < r.mSize.toNat; omega, ?_⟩
  show r.mOffset + r.mStride * (r.mSize - 1) = r.mOffset + r.mStride * ((r.mSize - 1).toNat : ℤ)
  rw [Int.toNat_of_nonneg (by omega)]

theorem Fits.size_le (h : Fits s r) : r.mSize ≤ 2 ^ 32 := by
  cases hptr : r.mDataPtr with
  | none =>
    rw [h.null hptr]
    decide
  | some ptr =>
    have hpos := h.size_pos ptr hptr
    obtain ⟨handle, -, hin⟩ := h.handle ptr hptr
    have hfirst := (hin.mem_bounds _ (offset_mem hpos)).1
    have hlast := (hin.mem_bounds _ (last_mem hpos)).1
    have hfirst' := h.small _ (offset_mem hpos)
    have hlast' := h.small _ (last_mem hpos)
    have hstride : r.mStride ≠ 0 := hin.stride_ne_zero
    have hone : r.mSize - 1 ≤ |r.mStride * (r.mSize - 1)| := by
      rw [abs_mul, abs_of_nonneg (show 0 ≤ r.mSize - 1 by omega)]
      exact le_mul_of_one_le_left (by omega) (Int.one_le_abs hstride)
    have hdistance : |r.mStride * (r.mSize - 1)| < 2 ^ 32 := abs_lt.2 ⟨by omega, by omega⟩
    omega

/-- A record goes on to fit. -/
theorem Fits.later (hr : Fits s r) (hs : Sound H pages s) (hlater : Later H pages L s s') : Fits s' r where
  null := hr.null
  handle ptr hptr := by
    obtain ⟨handle, hhandle, hin⟩ := hr.handle ptr hptr
    obtain ⟨handle', hhandle', -, hvalues⟩ := hlater.handles ptr handle hhandle
    refine ⟨handle', hhandle', hin.size_nonneg, hin.stride_ne_zero, fun i hi => ?_⟩
    have hsize := (hs.wellFormed handle (mem_of_getElem? hhandle)).length_values
    have hsize' := (hlater.sound.wellFormed handle' (mem_of_getElem? hhandle')).length_values
    have hle := hvalues.length_le
    have hbounds := hin.mem_bounds i hi
    omega
  size_pos := hr.size_pos
  small := hr.small

theorem fits_null (s : VectorStore α) : Fits s {} := ⟨fun _ => rfl, nofun, nofun, nofun⟩

/-- The record of consecutive values of a handle. -/
theorem fits_forwards {n o : ℤ} (hptr : s.handles[ptr]? = some h) (hpos : 0 < n) (h0 : 0 ≤ o)
    (hle : n + o ≤ h.size) (hsmall : n + o ≤ 2 ^ 32) : Fits s ⟨some ptr, n, o, 1⟩ := by
  have hbounds (i : ℤ) (hi : i ∈ (IntegerSequence.mk n o 1).values) : 0 ≤ i ∧ i < n + o := by
    obtain ⟨k, hk, rfl⟩ := mem_progression.1 hi
    have hk : k < n.toNat := hk
    show 0 ≤ o + 1 * (k : ℤ) ∧ o + 1 * (k : ℤ) < n + o
    omega
  refine ⟨nofun, fun p hp => ?_, fun _ _ => hpos, fun i hi => (hbounds i hi).2.trans_le hsmall⟩
  obtain rfl := some.inj hp
  exact ⟨h, hptr, hpos.le, one_ne_zero, fun i hi =>
    ⟨(hbounds i hi).1, (hbounds i hi).2.trans_le hle⟩⟩

/-- The record of a whole handle. -/
theorem fits_whole (hptr : s.handles[ptr]? = some h) (hpos : 0 < h.size) (hle : h.size ≤ 2 ^ 32) :
    Fits s ⟨some ptr, h.size, 0, 1⟩ := by
  have heq : h.size + 0 = h.size := add_zero _
  exact fits_forwards hptr hpos (le_refl 0) heq.le (heq.trans_le hle)

theorem Fits.wellFormed (hr : Fits s r) (hs : Sound H pages s) : (s.record r).WellFormed pages where
  dataPtr handle hhandle := by
    obtain ⟨ptr, hptr, hget⟩ := bind_eq_some_iff.1 hhandle
    obtain ⟨handle', hget', hin⟩ := hr.handle ptr hptr
    obtain rfl := some.inj (hget.symm.trans hget')
    exact ⟨hs.wellFormed handle (mem_of_getElem? hget), hin⟩
  null hnone := by
    cases hptr : r.mDataPtr with
    | none => exact hr.null hptr
    | some ptr =>
      obtain ⟨handle, hget, -⟩ := hr.handle ptr hptr
      have hnone : r.mDataPtr.bind (s.handles[·]?) = none := hnone
      rw [hptr, bind_some, hget] at hnone
      cases hnone

theorem ensures_load {Q : VectorRecord α → VectorStore α → Prop} (hq : Q (s.record r) s) : Ensures (load r) Q s := by
  unfold load
  unfold record at hq
  cases hptr : r.mDataPtr with
  | none =>
    rw [hptr] at hq
    exact hq
  | some ptr =>
    rw [hptr, bind_some] at hq
    simp only [ensures_bind, ensures_readHandle, ensures_pure]
    intro handle hget
    rwa [hget] at hq

/-! ## Slices -/

variable {nLow nHigh nStride : Option ℤ}

theorem fits_slice (hr : Fits s r) {sliced : VectorRecord α}
    (hsliced : (s.record r).slice nLow nHigh nStride = some sliced) :
    Fits s ⟨if sliced.mDataPtr.isSome then r.mDataPtr else none, sliced.mSize, sliced.mOffset, sliced.mStride⟩ := by
  unfold VectorRecord.slice at hsliced
  split at hsliced
  · obtain rfl := some.inj hsliced
    exact fits_null s
  rename_i hsome
  split at hsliced
  · obtain rfl := some.inj hsliced
    exact fits_null s
  rename_i hstride
  cases hptr : r.mDataPtr with
  | none =>
    refine absurd ?_ hsome
    unfold record
    rw [hptr]
    rfl
  | some ptr =>
    obtain ⟨handle, hget, hin⟩ := hr.handle ptr hptr
    obtain ⟨q, hq, hqsize, hqstride, hqvalues⟩ :=
      (@sliceBounds_values r.indicesWithinHandle hin.size_nonneg nLow nHigh) hstride
    have hmem (i : ℤ) (hi : i ∈ q.values) : i ∈ r.indicesWithinHandle.values := mem_of_mem_select (hqvalues ▸ hi)
    have hq' : sliceBounds ⟨(s.record r).mSize, (s.record r).mOffset,
        (s.record r).mStride⟩ nLow nHigh nStride = some q := hq
    rw [hq', bind_eq_bind, bind_some] at hsliced
    split at hsliced
    · obtain rfl := some.inj hsliced
      exact fits_null s
    · obtain rfl := some.inj hsliced
      have hrecord : (s.record r).mDataPtr = some handle := by
        unfold record
        rw [hptr]
        exact hget
      rw [hrecord, isSome_some, if_pos rfl]
      have hpos : 0 < q.size := by omega
      refine ⟨nofun, fun p hp => ?_, fun _ _ => hpos, fun i hi => hr.small i (hmem i hi)⟩
      obtain rfl := some.inj hp
      exact ⟨handle, hget, hqsize, hqstride hin.stride_ne_zero, fun i hi => hin.mem_bounds i (hmem i hi)⟩

/-- What an operation leaves: a later store, and a record that fits. -/
def Returns (H : VectorHashing) (pages : VectorDataID → List α) (s : VectorStore α)
    (r : RecordView) (s' : VectorStore α) : Prop :=
  (∃ L, Later H pages L s s') ∧ Fits s' r

theorem Sound.slice (hs : Sound H pages s) (hr : Fits s r) :
    Ensures (slice r nLow nHigh nStride) (Returns H pages s) s := by
  unfold VectorStore.slice
  rw [ensures_bind]
  refine ensures_load ?_
  simp only [ensures_bind, ensures_require, ensures_pure]
  intro sliced hsliced
  exact ⟨⟨fun _ => False, hs.refl⟩, fits_slice hr hsliced⟩

/-- Handles are constructed, with hashes that no handle had before, and nothing else happens. -/
def Constructs (s s' : VectorStore α) : Prop := ∃ news : List (VectorHandle α), s'.handles = s.handles ++ news ∧
    ∀ g ∈ news, ∀ h ∈ s.handles, g.mVectorHash ≠ h.mVectorHash

theorem Constructs.refl (s : VectorStore α) : Constructs s s := ⟨[], (append_nil _).symm, nofun⟩

theorem Constructs.getElem? (hc : Constructs s s') (hptr : s.handles[ptr]? = some h) : s'.handles[ptr]? = some h := by
  obtain ⟨news, heq, -⟩ := hc
  rw [heq]
  exact (getElem?_append_left (List.getElem?_eq_some_iff.1 hptr).1).trans hptr

theorem Constructs.trans (hc : Constructs s s') (hc' : Constructs s' s'') : Constructs s s'' := by
  obtain ⟨news, heq, hnews⟩ := hc
  obtain ⟨news', heq', hnews'⟩ := hc'
  refine ⟨news ++ news', by rw [heq', heq, append_assoc], fun g hg h hh => ?_⟩
  obtain hg | hg := mem_append.1 hg
  · exact hnews g hg h hh
  · exact hnews' g hg h (heq ▸ mem_append_left _ hh)

/-- A handle that may go on with some values still may. -/
theorem GrowsWith.constructs {xs : List α} (hg : GrowsWith pages s ptr xs) (hc : Constructs s s')
    (hptr : s.handles[ptr]? = some h) : GrowsWith pages s' ptr xs := by
  intro k g other hne hget hother heq
  obtain rfl := some.inj ((hc.getElem? hptr).symm.trans hget)
  obtain ⟨news, hhandles, hnews⟩ := hc
  rw [hhandles] at hother
  rcases lt_or_ge k s.handles.length with hlt | hge
  · rw [getElem?_append_left hlt] at hother
    exact hg k h other hne hptr hother heq
  · rw [getElem?_append_right hge] at hother
    exact absurd heq (hnews other (mem_of_getElem? hother) h (mem_of_getElem? hptr))

theorem constructs_free (hfree : Free H s h.mVectorHash) : Constructs s { s with handles := s.handles ++ [h] } :=
  ⟨[h], rfl, fun g hg other hother => by
    obtain rfl := mem_singleton.1 hg
    exact (hfree.2 other hother).symm⟩

/-- A handle with a hash of its own may go on with any values. -/
theorem growsWith_constructed (hfree : Free H s h.mVectorHash) (xs : List α) :
    GrowsWith pages { s with handles := s.handles ++ [h] } s.handles.length xs := by
  intro k g other hne hget hother heq
  have hget : (s.handles ++ [h])[s.handles.length]? = some g := hget
  have hother : (s.handles ++ [h])[k]? = some other := hother
  rw [getElem?_concat_length] at hget
  obtain rfl := some.inj hget
  rcases lt_or_gt_of_ne hne with hlt | hgt
  · rw [getElem?_append_left hlt] at hother
    exact absurd heq (hfree.2 other (mem_of_getElem? hother))
  · rw [getElem?_eq_none (by rw [length_append]; exact hgt)] at hother
    cases hother

variable {newHash : Hash}

theorem slice_hash {add : Hash → Hash → Hash} {seq : IntegerSequence}
    {g : VectorHandle α} (hslice : h.slice add seq inPool newHash = some (some g)) :
    g.mVectorHash = relatedHash add newHash 3 := by
  obtain ⟨seq, -, hslice⟩ := bind_eq_some_iff.1 hslice
  split at hslice
  · cases hslice
  · obtain ⟨paged, -, hslice⟩ := bind_eq_some_iff.1 hslice
    obtain ⟨pagelet, -, hslice⟩ := bind_eq_some_iff.1 hslice
    obtain ⟨unpaged, -, hslice⟩ := bind_eq_some_iff.1 hslice
    obtain ⟨_, -, hslice⟩ := bind_eq_some_iff.1 hslice
    dsimp only at hslice
    split at hslice
    all_goals
      obtain ⟨newSlice, -, hslice⟩ := bind_eq_some_iff.1 hslice
      obtain ⟨_, -, hslice⟩ := bind_eq_some_iff.1 hslice
      obtain ⟨fromTree, -, hslice⟩ := bind_eq_some_iff.1 hslice
      obtain ⟨newArray, -, hslice⟩ := bind_eq_some_iff.1 hslice
      obtain rfl := some.inj (some.inj hslice)
      rfl

/-- The handle of a record that is made canonical. -/
def slicedHandle (H : VectorHashing) (inPool : MemoryPool) (s : VectorStore α) (r : RecordView)
    (newHash : Hash) : Option (VectorHandle α) :=
  ((s.record r).canonicallySliced H.add inPool newHash).bind (·.mDataPtr)

/-- The record of a whole handle. -/
structure Whole (s : VectorStore α) (r : RecordView) (ptr : ℕ) (h : VectorHandle α) : Prop where
  view : r = ⟨some ptr, h.size, 0, 1⟩
  handle : s.handles[ptr]? = some h

/-- What making a record canonical gives: null, or the record of a handle that has just been made. -/
structure Sliced (H : VectorHashing) (pages : VectorDataID → List α) (inPool : MemoryPool)
    (newHash : Hash) (s : VectorStore α) (r canonical : RecordView) (s' : VectorStore α) :
    Prop where
  later : Later H pages (· = relatedHash H.add newHash 3) s s'
  constructs : Constructs s s'
  fits : Fits s' canonical
  mSize : canonical.mSize = r.mSize
  whole : ∀ ptr, canonical.mDataPtr = some ptr → ∃ g, Whole s' canonical ptr g ∧
    slicedHandle H inPool s r newHash = some g ∧ ∀ xs, GrowsWith pages s' ptr xs

theorem Sound.canonicallySliced (hs : Sound H pages s) (hr : Fits s r)
    (hfree : Free H s (relatedHash H.add newHash 3)) :
    Ensures (canonicallySliced H inPool r newHash) (Sliced H pages inPool newHash s r) s := by
  have hrwf := hr.wellFormed hs
  unfold VectorStore.canonicallySliced
  rw [ensures_bind]
  refine ensures_load ?_
  simp only [ensures_bind, ensures_require]
  intro res hres
  have hsliced : slicedHandle H inPool s r newHash = res.mDataPtr := by
    unfold slicedHandle
    rw [hres, bind_some]
  have hnull (h0 : r.mSize = 0) : Sliced H pages inPool newHash s r {} s :=
    ⟨hs.refl, .refl s, fits_null s, h0.symm, by simp⟩
  unfold VectorRecord.canonicallySliced at hres
  split at hres
  · rename_i hnone
    obtain rfl := some.inj hres
    exact hnull (hrwf.null hnone)
  rename_i handle hhandle
  obtain ⟨sliced, hslice, hres⟩ := bind_eq_some_iff.1 hres
  simp only [bind_eq_bind, bind_eq_some_iff, guard_eq_some', Option.pure_def, some.injEq] at hres
  obtain ⟨-, hsize, rfl⟩ := hres
  cases sliced with
  | none => exact hnull hsize.symm
  | some g =>
    have hsize : g.size = r.mSize := hsize
    obtain ⟨hwf, hin⟩ := hrwf.dataPtr handle hhandle
    obtain ⟨g', hg', hwf', -⟩ := hwf.slice_values hin.size_nonneg hin.stride_ne_zero H.add inPool newHash
    obtain rfl := some.inj (hslice.symm.trans hg')
    have hhash := slice_hash hslice
    rw [← hhash] at hfree
    obtain ⟨ptr, hptr, -⟩ := bind_eq_some_iff.1 hhandle
    have hlater := hs.construct_free (hwf' g rfl) hfree
    have hread : (s.handles ++ [g])[s.handles.length]? = some g := getElem?_concat_length
    refine ⟨hlater.mono fun hash heq => heq.trans hhash, constructs_free hfree,
      fits_whole hread (hsize ▸ hr.size_pos ptr hptr) (hsize ▸ hr.size_le), hsize, fun p hp => ?_⟩
    obtain rfl := some.inj hp
    exact ⟨g, ⟨rfl, hread⟩, hsliced, growsWith_constructed hfree⟩

/-- The indices that a record views are given back in order for the counts of its handle. -/
def InOrder (s : VectorStore α) (r : RecordView) : Prop :=
  ∀ ptr h, r.mDataPtr = some ptr → s.handles[ptr]? = some h → ∀ p t u : ℕ, h.pagedValueCount = p →
    h.pageletTreeValueCount = t → h.unpagedValueCount = u → VectorHandle.KeepsOrder p t u r.indicesWithinHandle

theorem store_values (record : VectorRecord α) :
    Ensures (store record) (fun r s' => values pages s' r = record.values pages) s := by
  obtain ⟨handle, size, offset, stride⟩ := record
  cases handle with
  | none => exact rfl
  | some handle =>
    unfold store
    simp only [ensures_bind, ensures_construct, ensures_pure, values, bind_some, getElem?_concat_length]
    rfl

/-- What an `append` or a `concatenate` goes on with, once it has made a record canonical, has the values of the record
in their order, where the record is in order. -/
theorem Sound.canonicallySliced_values (hs : Sound H pages s) (hr : Fits s r) (ho : InOrder s r) :
    Ensures (VectorStore.canonicallySliced H inPool r newHash)
      (fun canonical s' => values pages s' canonical = values pages s r) s := by
  unfold VectorStore.canonicallySliced
  rw [ensures_bind]
  refine ensures_load ?_
  simp only [ensures_bind, ensures_require]
  intro res hres
  refine (store_values res).mono fun _ _ hstored => hstored.trans ?_
  cases hptr : r.mDataPtr with
  | none =>
    have hrecord : s.record r = ⟨none, r.mSize, r.mOffset, r.mStride⟩ := by rw [record, hptr]; rfl
    rw [hrecord] at hres
    obtain rfl := some.inj hres
    rw [values, hptr]
    rfl
  | some ptr =>
    obtain ⟨h, hget, hin⟩ := hr.handle ptr hptr
    have hwf := hs.wellFormed h (mem_of_getElem? hget)
    have horder := ho ptr h hptr hget _ _ _ (hwf.pagedValueCount_eq.trans hwf.length_paged.symm) hwf.length_tree.symm
      hwf.length_unpaged.symm
    have hcorrect := (hwf.sliceCorrect_iff hin.size_nonneg hin.stride_ne_zero H.add inPool newHash).2
      (hwf.sliceValues_eq (hwf.pagedValueCount_eq.trans hwf.length_paged.symm) hwf.length_tree.symm
        hwf.length_unpaged.symm horder)
    have hrecord : s.record r = ⟨some h, r.mSize, r.mOffset, r.mStride⟩ := by rw [record, hptr, bind_some, hget]
    rw [hrecord] at hres
    obtain ⟨res', hres', -, -, hvalues⟩ := hcorrect.canonicallySliced hin
    obtain rfl := some.inj (hres.symm.trans hres')
    rw [values, hptr, bind_some, hget]
    exact hvalues

/-! ## Appends -/

/-- The handle that an append extends in place. -/
structure AppendsInPlace (canGrow : VectorHandle α → Bool) (s : VectorStore α) (r : RecordView)
    (ptr : ℕ) (h : VectorHandle α) : Prop where
  mDataPtr : r.mDataPtr = some ptr
  handle : s.handles[ptr]? = some h
  mStride : r.mStride = 1
  atEnd : r.mSize + r.mOffset = h.size
  canGrow : canGrow h = true

/-- There is room for one more value, and a handle that is extended in place may go on with it. -/
def MayAppend (pages : VectorDataID → List α) (canGrow : VectorHandle α → Bool) (s : VectorStore α)
    (r : RecordView) (toAppend : α) : Prop :=
  r.mSize < 2 ^ 32 ∧ ∀ ptr h, AppendsInPlace canGrow s r ptr h → h.size < 2 ^ 32 ∧ GrowsWith pages s ptr [toAppend]

/-- Where space is made, handles keep their values. -/
def MakesSpace (H : VectorHashing) (pages : VectorDataID → List α) (makeSpace : ℕ → VectorAction α Unit) : Prop :=
  ∀ s ptr, Sound H pages s → Ensures (makeSpace ptr) (fun _ s' =>
    (Later H pages (fun _ => False) s s' ∧ Unmoved s s') ∧ s'.handles.length = s.handles.length) s

variable {canGrow : VectorHandle α → Bool} {makeSpace : ℕ → VectorAction α Unit}
  {notCanonical : VectorAction α RecordView} {toAppend : α}

theorem Returns.trans {s'' : VectorStore α} (h : Later H pages L s s')
    (h' : Returns H pages s' r s'') : Returns H pages s r s'' := by
  obtain ⟨⟨M, hlater⟩, hfits⟩ := h'
  exact ⟨⟨_, h.trans hlater⟩, hfits⟩

/-- The record of a handle that has just been made. -/
theorem Sound.wholeHandle (hs : Sound H pages s) (hwf : h.WellFormed pages)
    (hderived : ∃ i < s.hashesGenerated, H.Derived i h.mVectorHash)
    (hothers : ∀ other ∈ s.handles, other.mVectorHash = h.mVectorHash →
      Comparable (h.values pages) (other.values pages)) (hpos : 0 < h.size) (hle : h.size ≤ 2 ^ 32) :
    Ensures (VectorStore.construct h >>= VectorStore.wholeHandle) (Returns H pages s) s := by
  unfold VectorStore.wholeHandle
  simp only [ensures_bind, ensures_construct, ensures_readHandle, ensures_pure]
  intro g hg
  have hread : (s.handles ++ [h])[s.handles.length]? = some h := getElem?_concat_length
  obtain rfl := some.inj (hread.symm.trans hg)
  exact ⟨⟨_, hs.construct hwf hderived hothers⟩, fits_whole hread hpos hle⟩

/-- Values that a handle may go on with are not touched where no handle is made. -/
theorem GrowsWith.unmoved {xs : List α} (hg : GrowsWith pages s ptr xs)
    (hlater : Later H pages L s s') (hunmoved : Unmoved s s')
    (hlength : s'.handles.length = s.handles.length) : GrowsWith pages s' ptr xs := by
  intro k g' other' hne hg' hother' heq
  have hback (j : ℕ) (new : VectorHandle α) (hnew : s'.handles[j]? = some new) :
      ∃ old, s.handles[j]? = some old ∧ new.mVectorHash = old.mVectorHash ∧ new.values pages = old.values pages := by
    have hlt : j < s.handles.length := hlength ▸ (List.getElem?_eq_some_iff.1 hnew).1
    obtain ⟨old, hold⟩ : ∃ old, s.handles[j]? = some old := ⟨_, getElem?_eq_getElem hlt⟩
    obtain ⟨new', hnew', hhash, -⟩ := hlater.handles j old hold
    obtain ⟨new'', hnew'', hlayout, hrest⟩ := hunmoved j old hold
    obtain rfl := some.inj (hnew.symm.trans hnew')
    obtain rfl := some.inj (hnew.symm.trans hnew'')
    refine ⟨old, hold, hhash, ?_⟩
    rw [values_eq_rest, values_eq_rest, hlayout, hrest]
  obtain ⟨g, hget, hhash, hvalues⟩ := hback ptr g' hg'
  obtain ⟨other, hother, hhash', hvalues'⟩ := hback k other' hother'
  rw [hvalues, hvalues']
  exact hg k g other hne hget hother (hhash'.symm.trans (heq.trans hhash))

/-- A value is put behind those of a handle. -/
theorem Sound.appendInPlace (hs : Sound H pages s) (hr : Fits s r)
    (hmakes : MakesSpace H pages makeSpace) (hin : AppendsInPlace canGrow s r ptr h)
    (hmay : MayAppend pages canGrow s r toAppend) :
    Ensures (do
      makeSpace ptr
      let handle ← readHandle ptr
      let unpagedValues ← require handle.mUnpagedValues .lassert
      lassert (unpagedValues.mIsWriteable = true) .lassert
      writeHandle ptr
        { handle with
          mUnpagedValues := some (unpagedValues.append toAppend)
          mSize := handle.mSize + 1 }
      return ⟨some ptr, r.mSize + 1, r.mOffset, 1⟩) (Returns H pages s) s := by
  obtain ⟨hroom, hgrows⟩ := hmay.2 ptr h hin
  rw [ensures_bind]
  refine (hmakes s ptr hs).mono fun _ s' ⟨⟨hlater, hunmoved⟩, hlength⟩ => ?_
  simp only [ensures_bind, ensures_readHandle, ensures_require, ensures_lassert, ensures_writeHandle, ensures_pure]
  intro g hg array harray _
  obtain ⟨g', hg', hsize, -⟩ := hunmoved.sizes hs hlater.sound hin.handle
  obtain rfl := some.inj (hg.symm.trans hg')
  have happended : (array.append toAppend).size = array.size + 1 := congrArg Int.ofNat (length_append ..)
  obtain ⟨hlater', h', hh', hsize'⟩ := hlater.sound.grow (L := fun _ => False) hg harray rfl happended
    (hgrows.unmoved hlater hunmoved hlength)
  refine ⟨⟨_, hlater.trans hlater'⟩, ?_⟩
  have hpos := hr.size_pos ptr hin.mDataPtr
  obtain ⟨old, hold, hinside⟩ := hr.handle ptr hin.mDataPtr
  have hfirst := (hinside.mem_bounds _ (offset_mem hpos)).1
  have hend := hin.atEnd
  exact fits_forwards hh' (by omega) hfirst (by omega) (by omega)

/-- A handle is made with a hash that is generated for it. -/
theorem Sound.generatedHandle {make : Hash → VectorHandle α} (hs : Sound H pages s)
    (hhash : ∀ hash, (make hash).mVectorHash = hash) (hwf : ∀ hash, (make hash).WellFormed pages)
    (hpos : ∀ hash, 0 < (make hash).size) (hle : ∀ hash, (make hash).size ≤ 2 ^ 32) :
    Ensures (do VectorStore.wholeHandle (← VectorStore.construct (make (← generateHash H))))
      (Returns H pages s) s := by
  rw [ensures_bind, ensures_generateHash]
  have hgenerated := hs.generate (L := fun _ => False)
  have hfree := hs.free_of_generated .generated
  rw [← hhash (H.newVectorHash s.hashesGenerated)] at hfree
  exact (hgenerated.sound.wholeHandle (hwf _) hfree.1
    (fun other hother heq => absurd heq (hfree.2 other hother)) (hpos _) (hle _)).mono
      fun _ _ => Returns.trans hgenerated

/-- The handle that a copying append makes has one value more. -/
theorem size_appendedTo (hwf : h.WellFormed pages) (hash : Hash) :
    (make h.mBigVector h.mPageletTreePtr (some ((match h.mUnpagedValues with
      | some unpagedValues => ForaValueArray.appendRange {} unpagedValues 0 unpagedValues.size
      | none => {}).append toAppend)) inPool hash).size = h.size + 1 := by
  have hsize := hwf.size_eq
  have hpaged := hwf.pagedAndPagelet_eq
  show h.mBigVector.size + ForaValueArray.size _ + h.pageletTreeValueCount = h.mSize + 1
  have happend (array : ForaValueArray α) : (array.append toAppend).size = array.size + 1 :=
    congrArg Int.ofNat (length_append ..)
  rw [happend]
  cases harray : h.mUnpagedValues with
  | none =>
    rw [harray] at hsize
    have hsize : h.mSize = h.mPagedAndPageletTreeValueCount + 0 := hsize
    show _ + (0 + 1) + _ = _
    omega
  | some array =>
    rw [harray] at hsize
    have hsize : h.mSize = h.mPagedAndPageletTreeValueCount + array.size := hsize
    rw [length_appendRange (show 0 ≤ array.size from Int.natCast_nonneg _) (le_refl _)]
    show _ + (0 + array.size + 1) + _ = _
    omega

section

variable (hs : Sound H pages s)
include hs

theorem Sound.appendOr (hr : Fits s r)
    (hmakes : MakesSpace H pages makeSpace) (hmay : MayAppend pages canGrow s r toAppend)
    (hnot : Ensures notCanonical (Returns H pages s) s) :
    Ensures (appendOr H inPool canGrow makeSpace notCanonical r toAppend) (Returns H pages s) s := by
  unfold VectorStore.appendOr
  cases hptr : r.mDataPtr with
  | none =>
    have hwf (array : Option (ForaValueArray α)) (hash : Hash) :
        (make {} none array inPool hash).WellFormed pages :=
      make_wellFormed inPages_empty PageletTree.ptrWellFormed_none array inPool hash
    exact hs.generatedHandle (fun _ => rfl) (hwf _) (fun _ => Int.one_pos) fun _ => show (1 : ℤ) ≤ 2 ^ 32 by decide
  | some ptr =>
    simp only [ensures_bind, ensures_readHandle]
    intro handle hhandle
    have hwf := hs.wellFormed handle (mem_of_getElem? hhandle)
    rw [ensures_ite]
    split
    · rename_i hin
      obtain ⟨hstride, hend, hgrow⟩ := hin
      exact hs.appendInPlace hr hmakes ⟨hptr, hhandle, hstride, hend, hgrow⟩ hmay
    · rw [ensures_bind]
      refine ensures_load ?_
      rw [ensures_ite]
      split
      · rename_i hcanonical
        have hsize : r.mSize = handle.size := by
          unfold record VectorRecord.isCanonicallySliced at hcanonical
          simp [hptr, hhandle] at hcanonical
          exact hcanonical.2
        have hpos := hr.size_pos ptr hptr
        have hlt := hmay.1
        refine hs.generatedHandle (fun _ => rfl)
          (fun _ => make_wellFormed hwf.layoutInPages hwf.tree ..) ?_ ?_
        · exact fun hash => lt_of_lt_of_eq (show 0 < handle.size + 1 by omega) (size_appendedTo hwf hash).symm
        · exact fun hash => le_of_eq_of_le (size_appendedTo hwf hash) (by omega)
      · exact hnot

/-- A record that is made canonical is appended to as a whole. -/
theorem Sound.appendWith (hr : Fits s r)
    (hmakes : MakesSpace H pages makeSpace) (hmay : MayAppend pages canGrow s r toAppend) :
    Ensures (appendWith H inPool canGrow makeSpace r toAppend) (Returns H pages s) s := by
  refine hs.appendOr hr hmakes hmay ?_
  rw [ensures_bind, ensures_generateHash, ensures_bind]
  have hgenerated := hs.generate (L := fun _ => False)
  refine (hgenerated.sound.canonicallySliced (hr.later hs hgenerated)
    (hs.free_of_generated (.related .generated 3))).mono fun canonical s' hsliced => ?_
  refine (hsliced.later.sound.appendOr hsliced.fits hmakes ⟨?_, fun ptr h hin => ?_⟩ ((ensures_throw _).2 trivial)).mono
    fun _ _ => Returns.trans (hgenerated.trans hsliced.later)
  · exact hsliced.mSize.trans_lt hmay.1
  · obtain ⟨g, ⟨hview, hg⟩, -, hgrows⟩ := hsliced.whole ptr hin.mDataPtr
    obtain rfl := some.inj (hin.handle.symm.trans hg)
    refine ⟨?_, hgrows _⟩
    have hsize := hsliced.mSize
    rw [hview] at hsize
    exact hsize.trans_lt hmay.1

theorem Sound.append (hr : Fits s r)
    (hmay : MayAppend pages (fun handle => handle.mUnpagedValues.any (·.mIsWriteable)) s r toAppend) :
    Ensures (append H inPool r toAppend) (Returns H pages s) s :=
  hs.appendWith hr (fun s _ hs => ⟨⟨hs.refl, .refl s⟩, rfl⟩) hmay

theorem Sound.appendData (hr : Fits s r) (hmay : MayAppend pages (·.mIsWriteable) s r toAppend) :
    Ensures (appendData H vdm inPool r toAppend) (Returns H pages s) s :=
  hs.appendWith hr (fun _ _ hs => hs.makeSpaceForNewUnpagedValues) hmay

/-! ## Concatenations -/

end

theorem relatedHash_eq {a b : Hash} {i j : ℕ}
    (h : relatedHash H.add a i = relatedHash H.add b j) : a = b ∧ i = j := by
  obtain ⟨hab, hij⟩ := H.add_injective h
  refine ⟨hab, ?_⟩
  have hij : kGenerateRandomButRelatedHashMixinValue * 2 ^ 128 + i * 2 ^ 96 =
    kGenerateRandomButRelatedHashMixinValue * 2 ^ 128 + j * 2 ^ 96 := hij
  exact eq_of_mul_eq_mul_right (by decide) (add_left_cancel hij)

/-- The hash of a side that is made canonical is not one of the concatenation. -/
theorem concatenationHash_ne {mixin hash : Hash} {i : ℕ}
    (hi : newHash = H.newVectorHash i) (h : ConcatenationHash H newHash hash) :
    hash ≠ relatedHash H.add (H.add newHash mixin) 3 := by
  subst hi
  intro heq
  obtain rfl | rfl | rfl | rfl := h
  · exact H.newVectorHash_ne_add _ _ _ heq
  · exact H.newVectorHash_ne_add _ _ _ (relatedHash_eq heq).1
  · exact H.newVectorHash_ne_add _ _ _ (relatedHash_eq heq).1
  · exact absurd (relatedHash_eq heq).2 (by decide)

/-- The handle of a record once it is canonical. -/
def canonicalHandle (H : VectorHashing) (inPool : MemoryPool) (s : VectorStore α)
    (r : RecordView) (newHash : Hash) : Option (VectorHandle α) :=
  if (s.record r).isCanonicallySliced then (s.record r).mDataPtr
  else slicedHandle H inPool s r newHash

/-- What a side of a concatenation becomes. -/
structure Canonical (H : VectorHashing) (pages : VectorDataID → List α) (inPool : MemoryPool)
    (newHash : Hash) (s : VectorStore α) (r canonical : RecordView) (s' : VectorStore α) :
    Prop where
  later : Later H pages (· = relatedHash H.add newHash 3) s s'
  constructs : Constructs s s'
  fits : Fits s' canonical
  mSize : canonical.mSize = r.mSize
  whole : ∀ ptr, canonical.mDataPtr = some ptr → ∃ g, Whole s' canonical ptr g ∧
    canonicalHandle H inPool s r newHash = some g
  own : (s.record r).isCanonicallySliced = true → canonical = r
  grows : (s.record r).isCanonicallySliced = false → ∀ ptr, canonical.mDataPtr = some ptr →
    ∀ xs, GrowsWith pages s' ptr xs

/-- A canonical record is the record of its whole handle. -/
theorem whole_of_isCanonicallySliced (hptr : r.mDataPtr = some ptr) (hread : s.handles[ptr]? = some h)
    (hcanonical : (s.record r).isCanonicallySliced = true) : Whole s r ptr h := by
  unfold record VectorRecord.isCanonicallySliced at hcanonical
  simp only [hptr, bind_some, hread, isNone_some, Bool.and_false, any_some,
    Bool.false_or, Bool.and_eq_true, beq_iff_eq] at hcanonical
  obtain ⟨⟨hoffset, hstride⟩, hsize⟩ := hcanonical
  refine ⟨?_, hread⟩
  rw [← hptr, ← hsize, ← hoffset, ← hstride]

theorem Sound.canonical (hs : Sound H pages s) (hr : Fits s r)
    (hfree : Free H s (relatedHash H.add newHash 3)) :
    Ensures (canonical H inPool r newHash) (Canonical H pages inPool newHash s r) s := by
  unfold VectorStore.canonical
  rw [ensures_bind]
  refine ensures_load ?_
  rw [ensures_ite]
  split
  · rename_i hcanonical
    refine ⟨hs.refl, .refl s, hr, rfl, fun ptr hptr => ?_, fun _ => rfl, fun hnot => ?_⟩
    · obtain ⟨h, hread, -⟩ := hr.handle ptr hptr
      refine ⟨h, whole_of_isCanonicallySliced hptr hread hcanonical, ?_⟩
      unfold canonicalHandle record
      unfold record at hcanonical
      rw [if_pos hcanonical, hptr]
      exact hread
    · rw [hcanonical] at hnot
      cases hnot
  · rename_i hcanonical
    refine (hs.canonicallySliced hr hfree).mono fun c s' hsliced => ?_
    refine ⟨hsliced.later, hsliced.constructs, hsliced.fits, hsliced.mSize, fun ptr hptr => ?_,
      fun htrue => absurd htrue hcanonical, fun _ ptr hptr => ?_⟩
    · obtain ⟨g, hwhole, hslice, -⟩ := hsliced.whole ptr hptr
      refine ⟨g, hwhole, ?_⟩
      unfold canonicalHandle
      rw [if_neg hcanonical]
      exact hslice
    · obtain ⟨g, -, -, hgrows⟩ := hsliced.whole ptr hptr
      exact hgrows

/-- There is room for the values of both sides, and a left handle that is extended in place may go on
with those of the right one's array. -/
def MayConcatenateRecords (H : VectorHashing) (vdm : VectorDataManager pages)
    (inPool : MemoryPool) (s : VectorStore α) (inLHS inRHS : RecordView) : Prop :=
  inLHS.mSize + inRHS.mSize ≤ 2 ^ 32 ∧ ((s.record inLHS).isCanonicallySliced = true → ∀ lhs lhsHandle rhsHandle,
      inLHS.mDataPtr = some lhs → s.handles[lhs]? = some lhsHandle →
      canonicalHandle H inPool s inRHS
        (H.add (H.newVectorHash s.hashesGenerated) (hashType 0 2 0)) = some rhsHandle →
      MayConcatenate vdm s lhs lhsHandle rhsHandle)

variable {inLHS inRHS : RecordView}

/-- Making the right side canonical does not touch what the left one may go on with. -/
theorem MayConcatenate.constructs {lhs : ℕ} {lhsHandle rhsHandle : VectorHandle α}
    (hmay : MayConcatenate vdm s lhs lhsHandle rhsHandle) (hc : Constructs s s')
    (hlhs : s.handles[lhs]? = some lhsHandle) : MayConcatenate vdm s' lhs lhsHandle rhsHandle :=
  fun lhsArray rhsArray harrays hpaged hpod =>
    (hmay lhsArray rhsArray harrays hpaged hpod).constructs hc hlhs

theorem record_constructs (hr : Fits s r) (hc : Constructs s s') : s'.record r = s.record r := by
  unfold record
  cases hptr : r.mDataPtr with
  | none => rfl
  | some ptr =>
    obtain ⟨h, hread, -⟩ := hr.handle ptr hptr
    rw [bind_some, bind_some, hread, hc.getElem? hread]

theorem canonicalHandle_constructs (hr : Fits s r) (hc : Constructs s s') :
    canonicalHandle H inPool s' r newHash = canonicalHandle H inPool s r newHash := by
  unfold canonicalHandle slicedHandle
  rw [record_constructs hr hc]

theorem constructs_generated (s : VectorStore α) : Constructs s { s with hashesGenerated := s.hashesGenerated + 1 } :=
  ⟨[], (append_nil _).symm, nofun⟩

/-- Two whole handles are concatenated. -/
theorem Sound.concatenateWhole (hs : Sound H pages s)
    (hl : Fits s inLHS) (hr : Fits s inRHS) (hsize : inLHS.mSize + inRHS.mSize ≤ 2 ^ 32)
    (hfree : ∀ hash, ConcatenationHash H newHash hash → Free H s hash)
    (hsides : ∀ lhs rhs, inLHS.mDataPtr = some lhs → inRHS.mDataPtr = some rhs →
      ∃ lhsHandle rhsHandle, Whole s inLHS lhs lhsHandle ∧ Whole s inRHS rhs rhsHandle ∧
        MayConcatenate vdm s lhs lhsHandle rhsHandle) :
    Ensures (do
      let lhs ← require inLHS.mDataPtr .nullPointer
      let rhs ← require inRHS.mDataPtr .nullPointer
      VectorStore.wholeHandle (← VectorStore.concatenateHandles H vdm inPool lhs
        inLHS.mSize rhs inRHS.mSize newHash)) (Returns H pages s) s := by
  simp only [ensures_bind, ensures_require]
  intro lhs hlhs rhs hrhs
  obtain ⟨lhsHandle, rhsHandle, hwholeL, hwholeR, hmay⟩ := hsides lhs rhs hlhs hrhs
  have hposL := hl.size_pos lhs hlhs
  have hposR := hr.size_pos rhs hrhs
  refine (hs.concatenateHandles hwholeL.handle (congrArg RecordView.mSize hwholeL.view)
    hwholeR.handle (congrArg RecordView.mSize hwholeR.view) hfree hmay).mono fun p s' hp => ?_
  obtain ⟨hlater, h, hread, hsum⟩ := hp
  unfold VectorStore.wholeHandle
  simp only [ensures_bind, ensures_readHandle, ensures_pure]
  intro g hg
  obtain rfl := some.inj (hread.symm.trans hg)
  exact ⟨⟨_, hlater⟩, fits_whole hread (by omega) (by omega)⟩

theorem Sound.concatenate (hs : Sound H pages s) (hl : Fits s inLHS) (hr : Fits s inRHS)
    (hmay : MayConcatenateRecords H vdm inPool s inLHS inRHS) :
    Ensures (concatenate H vdm inPool inLHS inRHS) (Returns H pages s) s := by
  obtain ⟨hsize, hmay⟩ := hmay
  unfold VectorStore.concatenate
  rw [ensures_bind, ensures_generateHash]
  have hgenerated := hs.generate (L := fun _ => False)
  have hconstructs := constructs_generated s
  have hfree (hash : Hash) (hderived : H.Derived s.hashesGenerated hash) := hs.free_of_generated hderived
  have hrecord := record_constructs hl hconstructs
  have hhandle hash : canonicalHandle H inPool _ inRHS hash = _ := canonicalHandle_constructs hr hconstructs
  have hl' := hl.later hs hgenerated
  have hr' := hr.later hs hgenerated
  generalize hs0 : { s with hashesGenerated := s.hashesGenerated + 1 } = s0 at *
  rw [ensures_ite]
  split
  · exact ⟨⟨_, hgenerated⟩, hr'⟩
  rw [ensures_ite]
  split
  · exact ⟨⟨_, hgenerated⟩, hl'⟩
  rw [ensures_bind]
  generalize hN : H.newVectorHash s.hashesGenerated = N at *
  have hderived : H.Derived s.hashesGenerated N := hN ▸ .generated
  refine (hgenerated.sound.canonical hl' (hfree _ (.related (.add hderived _) 3))).mono fun l s1 hcl => ?_
  rw [ensures_bind]
  have hr1 := hr'.later hgenerated.sound hcl.later
  refine (hcl.later.sound.canonical hr1 ((hfree _ (.related (.add hderived _) 3)).later hcl.later fun heq => ?_)).mono
    fun r s2 hcr => ?_
  · have hmixin := (H.add_injective (relatedHash_eq heq).1).2
    exact absurd hmixin (by decide)
  have hlater := hcl.later.trans hcr.later
  refine (hcr.later.sound.concatenateWhole (hcl.fits.later hcl.later.sound hcr.later) hcr.fits ?_
    (fun hash hconcat => ?_) fun lhs rhs hlhs hrhs => ?_).mono
    fun _ _ => Returns.trans (hgenerated.trans hlater)
  · rw [hcl.mSize, hcr.mSize]
    exact hsize
  · refine (hfree hash ?_).later hlater fun hL => ?_
    · obtain rfl | rfl | rfl | rfl := hconcat
      · exact hderived
      · exact hderived.related 5
      · exact hderived.related 9
      · exact (hderived.related 4).related 9
    · exact hL.elim (concatenationHash_ne hN.symm hconcat) (concatenationHash_ne hN.symm hconcat)
  · obtain ⟨lhsHandle, hwholeL, -⟩ := hcl.whole lhs hlhs
    obtain ⟨rhsHandle, hwholeR, hrhsHandle⟩ := hcr.whole rhs hrhs
    rw [canonicalHandle_constructs hr' hcl.constructs, hhandle] at hrhsHandle
    refine ⟨lhsHandle, rhsHandle, ⟨hwholeL.view, hcr.constructs.getElem? hwholeL.handle⟩, hwholeR, ?_⟩
    cases hcanonical : (s0.record inLHS).isCanonicallySliced with
    | true =>
      obtain rfl := hcl.own hcanonical
      obtain ⟨g, hread, -⟩ := hl.handle lhs hlhs
      obtain rfl := some.inj ((hcl.constructs.getElem? (hconstructs.getElem? hread)).symm.trans hwholeL.handle)
      have hmay := hmay (hrecord ▸ hcanonical) lhs g rhsHandle hlhs hread hrhsHandle
      exact hmay.constructs (hconstructs.trans (hcl.constructs.trans hcr.constructs)) hread
    | false =>
      intro lhsArray rhsArray _ _ _
      exact (hcl.grows hcanonical lhs hlhs _).constructs hcr.constructs hwholeL.handle

/-! ## Copies -/

/-- The values of a record that is copied are at the same indices of every handle with the hash that
the copy gets. -/
def MayCopy (pages : VectorDataID → List α) (s : VectorStore α) (r : RecordView) : Prop :=
  ∀ ptr h, r.mDataPtr = some ptr → s.handles[ptr]? = some h → ∀ other ∈ s.handles,
    other.mVectorHash = h.mVectorHash → Comparable (values pages s r) (other.values pages)

theorem select_of_mapM {xs vs : List α} {is : List ℤ} (h : is.mapM (nth xs) = some vs) :
    select xs is = vs ∧ vs.length = is.length := by
  induction is generalizing vs with
  | nil =>
    obtain rfl := some.inj h
    exact ⟨rfl, rfl⟩
  | cons i is ih =>
    rw [mapM_cons] at h
    obtain ⟨x, hx, h⟩ := bind_eq_some_iff.1 h
    obtain ⟨rest, hrest, h⟩ := bind_eq_some_iff.1 h
    obtain rfl := some.inj h
    obtain ⟨hselect, hlength⟩ := ih hrest
    refine ⟨?_, congrArg succ hlength⟩
    rw [← hselect]
    exact filterMap_cons_some hx

theorem Sound.deepcopiedAndContiguous (hs : Sound H pages s) (hr : Fits s r) (hmay : MayCopy pages s r) :
    Ensures (deepcopiedAndContiguous inPool pages r) (Returns H pages s) s := by
  unfold VectorStore.deepcopiedAndContiguous
  cases hptr : r.mDataPtr with
  | none => exact ⟨⟨fun _ => False, hs.refl⟩, hr⟩
  | some ptr =>
    simp only [ensures_bind, ensures_readHandle, ensures_require]
    intro handle hread copied hcopied
    obtain ⟨hselect, hlength⟩ := select_of_mapM hcopied
    have hvalues : values pages s r = copied := by
      unfold values
      rw [hptr, bind_some, hread]
      exact hselect
    have hsize : (make {} none (some ⟨copied, true⟩) inPool handle.mVectorHash).size = r.mSize := by
      have hpos := hr.size_pos ptr hptr
      have hlength : copied.length = r.mSize.toNat := hlength.trans (length_progression ..)
      show 0 + (copied.length : ℤ) + 0 = r.mSize
      omega
    rw [← ensures_bind]
    refine hs.wholeHandle (make_wellFormed inPages_empty PageletTree.ptrWellFormed_none ..)
      (hs.derived handle (mem_of_getElem? hread)) (fun other hother heq => ?_)
      (hsize ▸ hr.size_pos ptr hptr) (hsize ▸ hr.size_le)
    have hcomparable := hmay ptr handle hptr hread other hother heq
    rwa [hvalues] at hcomparable

/-! ## Runs -/

/-- The handles are sound, and all records fit. -/
structure Consistent (H : VectorHashing) (pages : VectorDataID → List α) (s : VectorStore α) : Prop where
  sound : Sound H pages s
  fits : ∀ r ∈ s.records, Fits s r

variable (H)

/-- What is asked of the store before the step: that the values of the result have room, that a handle which would be
extended in place grows with the others that bear its hash, and that a copy keeps a hash only among values that
agree. -/
def Harmless (s : VectorStore α) (step : Step pages) : Prop :=
  match step.op with
  | .append r toAppend =>
    MayAppend pages (fun handle => handle.mUnpagedValues.any (·.mIsWriteable)) s r toAppend
  | .appendData r dataToAppend => MayAppend pages (·.mIsWriteable) s r dataToAppend
  | .slice _ _ _ _ | .canonicallySliced _ => True
  | .concatenate inLHS inRHS => MayConcatenateRecords H step.vdm step.inPool s inLHS inRHS
  | .deepcopiedAndContiguous r => MayCopy pages s r

/-- The records of a store are still there, with their hashes and values. -/
def Remembered (pages : VectorDataID → List α) (s s' : VectorStore α) : Prop :=
  ∀ r ∈ s.records, r ∈ s'.records ∧ hash H s' r = hash H s r ∧ values pages s' r = values pages s r

/-- Any two records that there are at any two times of the run have the same values where they have the
same hash. -/
def HashIdentifies (pages : VectorDataID → List α) (s : VectorStore α) (steps : List (Step pages)) : Prop :=
  ∀ pre pre' t t', pre <+: steps → pre' <+: steps → Run.run (step H) s pre = some t →
    Run.run (step H) s pre' = some t' → ∀ r ∈ t.records, ∀ r' ∈ t'.records,
      hash H t r = hash H t' r' → values pages t r = values pages t' r'

variable {H}

theorem Sound.call {step : Step pages} (hs : Sound H pages s)
    (hr : ∀ r ∈ step.op.arguments, Fits s r) (h : Harmless H s step) :
    Ensures (step.op.call H step.vdm step.inPool) (Returns H pages s) s := by
  obtain ⟨op, inPool, vdm⟩ := step
  cases op with
  | append r toAppend => exact hs.append (hr r (.head _)) h
  | appendData r dataToAppend => exact hs.appendData (hr r (.head _)) h
  | slice r nLow nHigh nStride => exact hs.slice (hr r (.head _))
  | canonicallySliced r =>
    have hgenerated := hs.generate (L := fun _ => False)
    exact (hgenerated.sound.canonicallySliced ((hr r (.head _)).later hs hgenerated)
      (hs.free_of_generated (.related .generated 3))).mono fun _ _ hsliced =>
        ⟨⟨_, hgenerated.trans hsliced.later⟩, hsliced.fits⟩
  | concatenate inLHS inRHS => exact hs.concatenate (hr _ (.head _)) (hr _ (.tail _ (.head _))) h
  | deepcopiedAndContiguous r => exact hs.deepcopiedAndContiguous (hr r (.head _)) h

theorem Later.values_eq (hlater : Later H pages L s s') (hs : Sound H pages s)
    (hr : Fits s r) : values pages s' r = values pages s r := by
  unfold values
  cases hptr : r.mDataPtr with
  | none => rfl
  | some ptr =>
    obtain ⟨h, hread, hin⟩ := hr.handle ptr hptr
    obtain ⟨h', hread', -, hprefix⟩ := hlater.handles ptr h hread
    rw [bind_some, bind_some, hread, hread']
    refine select_of_longer hprefix fun i hi => ?_
    rw [(hs.wellFormed h (mem_of_getElem? hread)).length_values]
    exact (hin.mem_bounds i hi).2

theorem Later.hash_eq (hlater : Later H pages L s s') (hr : Fits s r) : hash H s' r = hash H s r := by
  unfold hash
  cases hptr : r.mDataPtr with
  | none => rfl
  | some ptr =>
    obtain ⟨h, hread, -⟩ := hr.handle ptr hptr
    obtain ⟨h', hread', hhash, -⟩ := hlater.handles ptr h hread
    simp only [bind_some, hread, hread', hhash]

theorem Consistent.step {step : Step pages} (hc : Consistent H pages s)
    (h : Harmless H s step) (he : VectorStore.step H s step = some s') :
    Consistent H pages s' ∧ Remembered H pages s s' := by
  suffices hensures : Ensures (execute H step)
      (fun _ s' => Consistent H pages s' ∧ Remembered H pages s s') s from
    wp.returned (P := fun s' => Consistent H pages s' ∧ Remembered H pages s s') hensures he
  unfold execute
  simp only [ensures_bind, ensures_get, ensures_lassert, ensures_modify]
  intro harguments
  refine (hc.sound.call (fun r hr => hc.fits r (harguments r hr)) h).mono
    fun r s' hcall => ?_
  obtain ⟨⟨L, hlater⟩, hr⟩ := hcall
  refine ⟨⟨⟨hlater.sound.1, hlater.sound.2, hlater.sound.3⟩, ?_⟩, ?_⟩
  · intro r' hr'
    have hfits : Fits s' r' := by
      obtain hr' | hr' := mem_append.1 hr'
      · exact (hc.fits r' (hlater.records ▸ hr')).later hc.sound hlater
      · exact mem_singleton.1 hr' ▸ hr
    exact ⟨hfits.null, hfits.handle, hfits.size_pos, hfits.small⟩
  · intro r' hr'
    have hfits := hc.fits r' hr'
    exact ⟨mem_append_left _ (hlater.records ▸ hr'), hlater.hash_eq hfits, hlater.values_eq hc.sound hfits⟩

/-- The hash of three numbers tells them apart as far as 32 bits of each go. -/
theorem hashType_eq {a b c a' b' c' : ℤ} (h : hashType a b c = hashType a' b' c') :
    a % 2 ^ 32 = a' % 2 ^ 32 ∧ b % 2 ^ 32 = b' % 2 ^ 32 ∧ c % 2 ^ 32 = c' % 2 ^ 32 := by
  have h : (a % 2 ^ 32).toNat * 2 ^ 128 + (b % 2 ^ 32).toNat * 2 ^ 96 + (c % 2 ^ 32).toNat * 2 ^ 64 =
    (a' % 2 ^ 32).toNat * 2 ^ 128 + (b' % 2 ^ 32).toNat * 2 ^ 96 + (c' % 2 ^ 32).toNat * 2 ^ 64 := h
  omega

variable {r' : RecordView}

/-- Two records with the same hash view the same indices. -/
theorem indices_eq (hpos : 0 < r.mSize) (hpos' : 0 < r'.mSize) (hle : r.mSize ≤ 2 ^ 32) (hle' : r'.mSize ≤ 2 ^ 32)
    (hin : ∀ i ∈ r.indicesWithinHandle.values, 0 ≤ i ∧ i < 2 ^ 32)
    (hin' : ∀ i ∈ r'.indicesWithinHandle.values, 0 ≤ i ∧ i < 2 ^ 32)
    (h : hashType r.mSize r.mOffset r.mStride = hashType r'.mSize r'.mOffset r'.mStride) :
    r.indicesWithinHandle.values = r'.indicesWithinHandle.values := by
  obtain ⟨hsize, hoffset, hstride⟩ := hashType_eq h
  have hsize : r.mSize = r'.mSize := by omega
  have hfirst := hin _ (offset_mem hpos)
  have hfirst' := hin' _ (offset_mem hpos')
  have hoffset : r.mOffset = r'.mOffset := by omega
  show progression r.mSize.toNat r.mOffset r.mStride = progression r'.mSize.toNat r'.mOffset r'.mStride
  rw [← hsize, ← hoffset]
  rcases (show r.mSize = 1 ∨ 1 < r.mSize by omega) with hone | hmore
  · rw [hone]
    show [r.mOffset + r.mStride * ((0 : ℕ) : ℤ)] = [r.mOffset + r'.mStride * ((0 : ℕ) : ℤ)]
    simp
  · have hnext := hin _ (next_mem hmore)
    have hnext' := hin' _ (next_mem (hsize ▸ hmore))
    have hstride : r.mStride = r'.mStride := by omega
    rw [hstride]

/-- At one time, the hash of a record identifies its values. -/
theorem Sound.values_eq_of_hash_eq (hs : Sound H pages s) (hr : Fits s r)
    (hr' : Fits s r') (heq : hash H s r = hash H s r') :
    values pages s r = values pages s r' := by
  unfold hash at heq
  unfold values
  cases hptr : r.mDataPtr with
  | none =>
    cases hptr' : r'.mDataPtr with
    | none => rfl
    | some ptr' =>
      obtain ⟨h', hread', -⟩ := hr'.handle ptr' hptr'
      rw [hptr, hptr', bind_some, hread'] at heq
      exact absurd heq (H.hashType0_ne_add _ _)
  | some ptr =>
    obtain ⟨h, hread, hin⟩ := hr.handle ptr hptr
    cases hptr' : r'.mDataPtr with
    | none =>
      rw [hptr, hptr', bind_some, hread] at heq
      exact absurd heq.symm (H.hashType0_ne_add _ _)
    | some ptr' =>
      obtain ⟨h', hread', hin'⟩ := hr'.handle ptr' hptr'
      rw [hptr, hptr', bind_some, bind_some, hread, hread'] at heq
      obtain ⟨hhash, hview⟩ := H.add_injective heq
      have hindices := indices_eq (hr.size_pos ptr hptr) (hr'.size_pos ptr' hptr') hr.size_le
        hr'.size_le (fun i hi => ⟨(hin.mem_bounds i hi).1, hr.small i hi⟩)
        (fun i hi => ⟨(hin'.mem_bounds i hi).1, hr'.small i hi⟩) hview
      have hmem := mem_of_getElem? hread
      have hmem' := mem_of_getElem? hread'
      rw [bind_some, bind_some, hread, hread', elim_some, elim_some, ← hindices]
      refine (hs.comparable h hmem h' hmem' hhash).select_eq (fun i hi => ?_) fun i hi => ?_
      · rw [(hs.wellFormed h hmem).length_values]
        exact (hin.mem_bounds i hi).2
      · rw [(hs.wellFormed h' hmem').length_values]
        exact (hin'.mem_bounds i (hindices ▸ hi)).2

theorem Remembered.refl (s : VectorStore α) : Remembered H pages s s := fun _ hr => ⟨hr, rfl, rfl⟩

theorem Remembered.trans (h : Remembered H pages s s') (h' : Remembered H pages s' s'') :
    Remembered H pages s s'' := fun r hr => by
  obtain ⟨hr', hhash, hvalues⟩ := h r hr
  obtain ⟨hr'', hhash', hvalues'⟩ := h' r hr'
  exact ⟨hr'', hhash'.trans hhash, hvalues'.trans hvalues⟩

variable {steps : List (Step pages)}

section
variable (hc : Consistent H pages s) (hh : Run.EveryStep (VectorStore.step H) (Harmless H) s steps)
include hc hh

/-- A run of harmless steps keeps a store consistent, and it forgets no record. -/
theorem Consistent.run (hr : Run.run (VectorStore.step H) s steps = some s') :
    Consistent H pages s' ∧ Remembered H pages s s' := by
  have halways : Run.Always (VectorStore.step H)
      (fun t => Consistent H pages t ∧ Remembered H pages s t) s steps := by
    refine always_of_everyStep ⟨hc, .refl s⟩ (fun t op t' ht hop he => ?_) hh
    obtain ⟨ht', hremembered⟩ := ht.1.step hop he
    exact ⟨ht', ht.2.trans hremembered⟩
  exact halways.last hr

/-- Of two times, the records of the earlier one are compared at the later one. -/
theorem Consistent.values_eq_of_hash_eq {pre mid : List (Step pages)} {t t' : VectorStore α}
    (hp : pre ++ mid <+: steps) (ht : Run.run (VectorStore.step H) s pre = some t)
    (ht' : Run.run (VectorStore.step H) s (pre ++ mid) = some t') (hr : r ∈ t.records) (hr' : r' ∈ t'.records)
    (heq : hash H t r = hash H t' r') : values pages t r = values pages t' r' := by
  have hpre : Run.EveryStep (VectorStore.step H) (Harmless H) s pre :=
    fun pre' op u hu => hh pre' op u (hu.trans ((prefix_append pre mid).trans hp))
  obtain ⟨hct, -⟩ := hc.run hpre ht
  rw [run_append _ ht] at ht'
  obtain ⟨hct', hremembered⟩ := hct.run (hh.after hp ht) ht'
  obtain ⟨hmem, hhash, hvalues⟩ := hremembered r hr
  rw [← hvalues]
  exact hct'.sound.values_eq_of_hash_eq (hct'.fits r hmem) (hct'.fits r' hr') (hhash.trans heq)

theorem Consistent.hashIdentifies : HashIdentifies H pages s steps := by
  intro pre pre' t t' hp hp' ht ht' r hr r' hr' heq
  obtain ⟨mid, rfl⟩ | ⟨mid, rfl⟩ := prefix_or_prefix_of_prefix hp hp'
  · exact hc.values_eq_of_hash_eq hh hp' ht ht' hr hr' heq
  · exact (hc.values_eq_of_hash_eq hh hp ht' ht hr' hr heq.symm).symm

end

theorem consistent_empty (H : VectorHashing) (pages : VectorDataID → List α) : Consistent H pages {} :=
  ⟨⟨nofun, nofun, nofun⟩, fun r hr => by
    obtain rfl := mem_singleton.1 hr
    exact fits_null _⟩

/-- Where no copy and no append in place makes two handles with one hash disagree, and no vector gets
more than 2 ^ 32 values, the hash of a record identifies its values, whenever the records were there. -/
theorem hash_identifies {steps : List (Step pages)}
    (h : Run.EveryStep (VectorStore.step H) (Harmless H) {} steps) :
    HashIdentifies H pages {} steps :=
  (consistent_empty H pages).hashIdentifies h

end VectorStore

/-- Hashes that are sums are odd, and those that are generated are even. -/
def VectorHashing.pairing : VectorHashing where
  add a b := 2 * pair a b + 1
  newVectorHash i := 2 * i
  add_injective {a b c d} h := by
    have h : 2 * pair a b + 1 = 2 * pair c d + 1 := h
    exact pair_eq_pair.1 (by omega)
  newVectorHash_injective {i j} h := Nat.eq_of_mul_eq_mul_left two_pos h
  newVectorHash_ne_add i a b h := by
    have h : 2 * i = 2 * pair a b + 1 := h
    omega
  hashType0_ne_add a b h := by
    have h : hashType0 = 2 * pair a b + 1 := h
    have heven : (2 * pair a b + 1) % 2 = 0 := by
      rw [← h]
      decide
    omega

namespace VectorStore

/-- A data manager that keeps all layouts. -/
def keepLayouts (pages : VectorDataID → List ℕ) : VectorDataManager pages where
  fuel := 1
  allValuesArePOD _ := true
  isHomogenous _ := true
  bytesUsed _ := 0
  tooLarge _ := false
  wantsCollapse _ := false
  registerBigVectorSlice layout _ _ := layout
  registerBigVectorConcat lhs _ _ := lhs
  pagedVectorHandle layout _ := layout
  registerBigVectorSlice_inPages h _ _ := h
  registerBigVectorConcat_inPages h _ _ := h
  pagedVectorHandle_inPages h _ := h

/-- A vector of two values is made, and the given records are copied. -/
def copySteps (copied : List (Op ℕ)) : List (Step (α := ℕ) fun _ => []) :=
  (Op.append {} 1 :: .append ⟨some 0, 1, 0, 1⟩ 2 :: copied).map fun op => ⟨op, ⟨true⟩, keepLayouts _⟩

/-- A copy of the whole vector agrees with it. -/
theorem hash_identifies_copy : HashIdentifies VectorHashing.pairing (fun _ => []) {}
    (copySteps [.deepcopiedAndContiguous ⟨some 0, 2, 0, 1⟩]) := by
  refine hash_identifies (everyStep_cons.2 ⟨⟨by decide, nofun⟩, fun s he => ?_⟩)
  obtain rfl := some.inj he
  refine everyStep_cons.2 ⟨⟨by decide, ?_⟩, fun s he => ?_⟩
  · intro ptr h hin
    obtain rfl := some.inj hin.mDataPtr
    obtain rfl := some.inj hin.handle
    refine ⟨by decide, fun k g other hne _ hother _ => ?_⟩
    cases k with
    | zero => exact absurd rfl hne
    | succ k => cases hother
  obtain rfl := some.inj he
  refine everyStep_cons.2 ⟨fun ptr h hptr hread other hother _ => ?_, fun _ _ => everyStep_nil⟩
  obtain rfl := mem_singleton.1 hother
  exact .inl (by decide)

/-- The copy of the second value has the hash of the first one. -/
theorem not_hash_identifies : ¬ ∀ (H : VectorHashing) (pages : VectorDataID → List ℕ)
    (steps : List (Step pages)), HashIdentifies H pages {} steps := by
  intro h
  have hsteps := h VectorHashing.pairing (fun _ => []) (copySteps
    [.slice ⟨some 0, 2, 0, 1⟩ (some 1) none none, .deepcopiedAndContiguous ⟨some 0, 1, 1, 1⟩])
    _ _ _ _ prefix_rfl prefix_rfl rfl rfl ⟨some 0, 1, 0, 1⟩ (by decide)
    ⟨some 1, 1, 0, 1⟩ (by decide) rfl
  exact absurd hsteps (by decide)

end VectorStore

end TypedFora.Vectors
