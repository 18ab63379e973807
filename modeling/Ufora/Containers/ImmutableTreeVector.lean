import Ufora.Lib.Effect
import Ufora.Lib.ListSlice
import Mathlib

/-!
# `ImmutableTreeVector`

`core/containers/ImmutableTreeVector.hppml`: vectors that are ranges of shared buffers. An append writes
into the buffer when the range ends where the buffer's used part does, and otherwise copies the range
into a new one. Each operation keeps what the vectors before it denote and gives the list operation on what
its arguments denote, as long as no list is longer than `maxSize`: a longer one cannot be copied.
-/

open Effect List Option Nat

namespace ImmutableTreeVector

/-- How an operation ends without a result. -/
inductive Failure where
  /-- An `lassert` throws. -/
  | assertion
  /-- The behaviour is undefined: a number does not fit its type, memory never written is read, or a
  loop does not end. -/
  | undefined
  deriving Repr, DecidableEq

end ImmutableTreeVector

/-- An `ImmutableTreeVectorStorage`: a buffer and the elements in its used part. Its capacity comes
from an `int32_t`. -/
structure ImmutableTreeVectorStorage (T : Type) where
  mElementsAllocated : ℕ
  mElements : List T
  fits : mElements.length ≤ mElementsAllocated
  bounded : mElementsAllocated < 2 ^ 31

namespace ImmutableTreeVectorStorage

variable {T : Type}

/-- `allocate(count)`. -/
def allocate (count : ℕ) (h : count < 2 ^ 31) : ImmutableTreeVectorStorage T := ⟨count, [], by simp, h⟩

/-- `append(in, slot)`: nothing where it returns false. -/
def append? (storage : ImmutableTreeVectorStorage T) (x : T) (slot : ℕ) : Option (ImmutableTreeVectorStorage T) :=
  if h : slot < storage.mElementsAllocated ∧ storage.mElements.length = slot then
    some { storage with
      mElements := storage.mElements ++ [x]
      fits := by have := h.1; have := h.2; simp; omega }
  else none

theorem append?_eq_some {storage storage' : ImmutableTreeVectorStorage T} {x : T} {slot : ℕ} :
    storage.append? x slot = some storage' ↔ slot < storage.mElementsAllocated ∧
      storage.mElements.length = slot ∧ storage'.mElementsAllocated = storage.mElementsAllocated ∧
      storage'.mElements = storage.mElements ++ [x] := by
  unfold append?
  split
  · next h =>
    cases storage'
    simp only [some.injEq, mk.injEq, h, true_and]
    exact ⟨fun ⟨h1, h2⟩ => ⟨h1.symm, h2.symm⟩, fun ⟨h1, h2⟩ => ⟨h1.symm, h2.symm⟩⟩
  · next h => simp only [reduceCtorEq, false_iff]; exact fun h' => h ⟨h'.1, h'.2.1⟩

end ImmutableTreeVectorStorage

open ImmutableTreeVectorStorage

namespace ImmutableTreeVector

/-- A `Range`: the part of a buffer a vector covers. -/
structure Range where
  count : ℕ := 0
  offset : ℕ := 0
  deriving Repr, DecidableEq

namespace Range

/-- `actualIndex(index)`. -/
def actualIndex (r : Range) (index : ℕ) : ℕ := r.offset + index

/-- `appended()`. -/
def appended (r : Range) : Range := ⟨r.count + 1, r.offset⟩

/-- `appendIndex()`. -/
def appendIndex (r : Range) : ℕ := r.count + r.offset

end Range

end ImmutableTreeVector

/-- An `ImmutableTreeVector`: a buffer in the heap, if any, and a part of it. -/
structure ImmutableTreeVector where
  mStorage : Option ℕ := none
  mRange : ImmutableTreeVector.Range := {}
  deriving Repr, DecidableEq

namespace ImmutableTreeVector

open ListSlice

/-- The buffers made so far, by their places. -/
abbrev Heap (T : Type) := List (ImmutableTreeVectorStorage T)

/-- A function that works on the buffers. -/
abbrev Call (T : Type) := EStateM Failure (Heap T)

variable {T : Type}

/-- `nextCountFor(count)`: a fourth more and some, if it fits an `int32_t`. -/
def nextCountFor (count : ℕ) : Option { n : ℕ // n < 2 ^ 31 } :=
  if h : (count + 2) * 5 / 4 < 2 ^ 31 then some ⟨_, h⟩ else none

variable (v : ImmutableTreeVector)

/-- `size()`. -/
def size : ℕ := v.mRange.count

variable (heap : Heap T)

/-- The element at an index, if it is in range and was ever written. -/
def at? (inIndex : ℕ) : Option T :=
  if inIndex < v.size then
    v.mStorage.bind fun place =>
      heap[place]?.bind fun storage => storage.mElements[v.mRange.actualIndex inIndex]?
  else none

/-- `operator[](inIndex)`. -/
def getItem (inIndex : ℕ) : Call T T := do
  lassert (inIndex < v.size) .assertion
  match v.at? (← get) inIndex with
  | some x => pure x
  | none => throw .undefined

/-- `mStorage->append(in, mRange.appendIndex())`: the place of the buffer and the buffer with the
element in it. -/
def appendInPlace (x : T) : Option (ℕ × ImmutableTreeVectorStorage T) :=
  v.mStorage.bind fun place => heap[place]?.bind fun storage =>
    (storage.append? x v.mRange.appendIndex).map (place, ·)

/-- `append(in)` on a buffer that no vector has yet. -/
def push (storage : ImmutableTreeVectorStorage T) (x : T) : Call T (ImmutableTreeVectorStorage T) :=
  match storage.append? x storage.mElements.length with
  | some storage => pure storage
  | none => throw .assertion

/-- A vector over a whole new buffer. -/
def store (storage : ImmutableTreeVectorStorage T) (count : ℕ) : Call T ImmutableTreeVector := do
  let heap ← get
  set (heap ++ [storage])
  pure ⟨some heap.length, ⟨count, 0⟩⟩

/-- `ImmutableTreeVector(in)`, for an element. -/
def single (x : T) : Call T ImmutableTreeVector := do
  let storage ← push (.allocate 1 (by decide)) x
  store storage 1

/-- `*this + in`, for an element. -/
def append (x : T) : Call T ImmutableTreeVector := do
  let heap ← get
  match v.appendInPlace heap x with
  | some (place, storage) =>
    set (heap.set place storage)
    pure ⟨v.mStorage, v.mRange.appended⟩
  | none =>
    match nextCountFor (v.mRange.count + 1) with
    | none => throw .undefined
    | some n =>
      let copied ← (range v.size).foldlM (fun storage k => do push storage (← v.getItem k))
        (.allocate n.1 n.2)
      let storage ← push copied x
      store storage (v.size + 1)

/-- `*this + in`, for a vector. -/
def concat (w : ImmutableTreeVector) : Call T ImmutableTreeVector :=
  (range w.size).foldlM (fun res k => do res.append (← w.getItem k)) v

/-- `in + r`, for an element. -/
def prepend (x : T) (v : ImmutableTreeVector) : Call T ImmutableTreeVector := do
  let res ← append {} x
  res.concat v

/-- `slice(left, right)`. -/
def slice (left right : ℤ) : ImmutableTreeVector :=
  let left := if left < 0 then left + v.size else left
  let right := if right < 0 then right + v.size else right
  let left := if left < 0 then 0 else left
  let right := if 0 ≤ right ∧ v.size < right then (v.size : ℤ) else right
  if right ≤ left then {}
  else ⟨v.mStorage, ⟨(right - left).toNat, left.toNat + v.mRange.offset⟩⟩

/-- A `uint32_t` passed for an `int32_t`. -/
def toInt32 (n : ℕ) : ℤ := (n : ℤ).bmod (2 ^ 32)

/-- `slice(left)`. -/
def sliceFrom (left : ℕ) : ImmutableTreeVector := v.slice (toInt32 left) (toInt32 v.size)

/-- The loops of `slice(left, right, step)`. With a step of 0 the second one does not end. -/
def sliceLoop (v : ImmutableTreeVector) (right step : ℤ) : ℕ → ℤ → ImmutableTreeVector → Call T ImmutableTreeVector
  | 0, _, _ => throw .undefined
  | turns + 1, k, res =>
    if (if 0 < step then k < right else right < k) then do
      sliceLoop v right step turns (k + step) (← res.append (← v.getItem k.toNat))
    else pure res

/-- `slice(left, right, step)`. The start is compared with `size()` as a `uint32_t`. -/
def sliceStep (left right step : ℤ) : Call T ImmutableTreeVector :=
  let left := if left < 0 then left + v.size else left
  let left := if (v.size : ℤ) ≤ left % 2 ^ 32 then (v.size : ℤ) - 1 else left
  let left := if left < 0 then 0 else left
  let right := if right < 0 then right + v.size else right
  let right := if 0 ≤ right ∧ v.size ≤ right then (v.size : ℤ) else right
  let right := if right < 0 then -1 else right
  sliceLoop v right step ((right - left).natAbs + 1) left {}

/-- `withElementReplaced(index, newValue)`. -/
def withElementReplaced (index : ℤ) (newValue : T) : Call T ImmutableTreeVector := do
  lassert (0 ≤ index ∧ index < v.size) .assertion
  if index = 0 then
    prepend newValue (v.sliceFrom 1)
  else if index + 1 = v.size then
    (v.slice 0 (v.size - 1)).append newValue
  else do
    let front ← (v.slice 0 index).append newValue
    front.concat (v.sliceFrom (index + 1).toNat)

/-! ## What vectors denote -/

/-- The vector stands for the list: `size()` and `operator[]` answer as the list does. -/
def Denotes (v : ImmutableTreeVector) (xs : List T) : Prop := v.size = xs.length ∧ ∀ k, v.at? heap k = xs[k]?

/-- Every buffer is still there, with the elements it had. -/
def Grows (heap' : Heap T) : Prop :=
  ∀ (place : ℕ) (storage : ImmutableTreeVectorStorage T), heap[place]? = some storage →
    ∃ storage' : ImmutableTreeVectorStorage T, heap'[place]? = some storage' ∧ storage.mElements <+: storage'.mElements

/-- The call returns a vector for the list and keeps what the others denote. -/
structure Gives (call : Call T ImmutableTreeVector) (heap : Heap T) (xs : List T) : Prop where
  returns : wp call (fun v heap' => Grows heap heap' ∧ Denotes heap' v xs) (fun _ _ => False) heap

section
variable {heap heap' heap'' : Heap T} {v w : ImmutableTreeVector} {xs ys : List T} {x : T} {k : ℕ}

theorem Grows.refl (heap : Heap T) : Grows heap heap := fun _ storage h => ⟨storage, h, prefix_rfl⟩

theorem Grows.trans (h : Grows heap heap') (h' : Grows heap' heap'') : Grows heap heap'' := by
  intro place storage hs
  obtain ⟨storage', hs', hp⟩ := h place storage hs
  obtain ⟨storage'', hs'', hp'⟩ := h' place storage' hs'
  exact ⟨storage'', hs'', hp.trans hp'⟩

theorem grows_concat (heap : Heap T) (storage : ImmutableTreeVectorStorage T) : Grows heap (heap ++ [storage]) := by
  intro place storage' hs
  exact ⟨storage', by rw [getElem?_append_left (List.getElem?_eq_some_iff.1 hs).1, hs], prefix_rfl⟩

theorem at?_eq_some : v.at? heap k = some x ↔ k < v.size ∧ ∃ place storage, v.mStorage = some place ∧
    heap[place]? = some storage ∧ storage.mElements[v.mRange.actualIndex k]? = some x := by
  unfold at?
  split
  · next h => simp [h, bind_eq_some_iff]
  · next h => simp [h]

theorem at?_eq_none (h : v.size ≤ k) : v.at? heap k = none := if_neg (by omega)

/-- A buffer that grows keeps the elements of its vectors. -/
theorem Grows.at? (h : Grows heap heap') (hx : v.at? heap k = some x) : v.at? heap' k = some x := by
  obtain ⟨hk, place, storage, hv, hs, he⟩ := at?_eq_some.1 hx
  obtain ⟨storage', hs', hp⟩ := h place storage hs
  obtain ⟨hlt, rfl⟩ := List.getElem?_eq_some_iff.1 he
  exact at?_eq_some.2 ⟨hk, place, storage', hv, hs', prefix_iff_getElem?.1 hp _ hlt⟩

theorem Denotes.mono (hd : Denotes heap v xs) (h : Grows heap heap') : Denotes heap' v xs := by
  refine ⟨hd.1, fun k => ?_⟩
  rcases lt_or_ge k xs.length with hk | hk
  · rw [getElem?_eq_getElem hk]
    exact h.at? ((hd.2 k).trans (getElem?_eq_getElem hk))
  · rw [at?_eq_none (hd.1 ▸ hk), getElem?_eq_none hk]

theorem denotes_empty (heap : Heap T) : Denotes heap {} [] := ⟨rfl, fun _ => at?_eq_none (zero_le _)⟩

variable {E : Failure → Heap T → Prop}

theorem wp_getItem {Q : T → Heap T → Prop} (hd : Denotes heap v xs)
    (hk : k < xs.length) (h : Q xs[k] heap) : wp (v.getItem k) Q E heap := by
  unfold getItem
  rw [wp_bind, wp_lassert, if_pos (hd.1 ▸ hk), wp_bind, wp_get, hd.2 k, getElem?_eq_getElem hk]
  exact h

variable {storage storage' : ImmutableTreeVectorStorage T}

theorem wp_push {Q : ImmutableTreeVectorStorage T → Heap T → Prop}
    (hroom : storage.mElements.length < storage.mElementsAllocated)
    (h : ∀ storage', storage'.mElementsAllocated = storage.mElementsAllocated →
      storage'.mElements = storage.mElements ++ [x] → Q storage' heap) :
    wp (push storage x) Q E heap := by
  unfold push
  split
  · next storage' hs =>
    obtain ⟨-, -, ha, he⟩ := append?_eq_some.1 hs
    exact h storage' ha he
  · next hs =>
    exfalso
    unfold append? at hs
    rw [dif_pos ⟨hroom, rfl⟩] at hs
    cases hs

/-- A vector over a new buffer denotes what is in the buffer. -/
theorem gives_store (h : storage.mElements = xs) : Gives (store storage xs.length) heap xs := by
  constructor
  show wp (get >>= fun heap => set (heap ++ [storage]) >>= fun _ => pure _) _ _ heap
  rw [wp_bind, wp_get, wp_bind]
  refine ⟨grows_concat heap storage, rfl, fun k => ?_⟩
  rcases lt_or_ge k xs.length with hk | hk
  · rw [getElem?_eq_getElem hk]
    refine at?_eq_some.2 ⟨hk, heap.length, storage, rfl, by simp, ?_⟩
    rw [h, show Range.actualIndex ⟨xs.length, 0⟩ k = k from Nat.zero_add k]
    exact getElem?_eq_getElem hk
  · rw [at?_eq_none hk, getElem?_eq_none hk]

theorem gives_single (x : T) (heap : Heap T) : Gives (single x) heap [x] := by
  constructor
  show wp (push _ x >>= fun storage => store storage 1) _ _ heap
  rw [wp_bind]
  exact wp_push Nat.zero_lt_one fun storage' _ he => (gives_store he).returns

/-! ## Appending -/

/-- The longest list that every append can still make: a longer one may need a buffer whose capacity
does not fit. -/
def maxSize : ℕ := 1717986916

variable {n place : ℕ}

theorem nextCountFor_eq_some (h : n < maxSize) : ∃ count, nextCountFor (n + 1) = some count ∧ n + 1 ≤ count.1 := by
  unfold maxSize at h
  unfold nextCountFor
  rw [dif_pos (by omega)]
  exact ⟨_, rfl, by show n + 1 ≤ (n + 1 + 2) * 5 / 4; omega⟩

theorem nextCountFor_eq_none (h : maxSize ≤ n) : nextCountFor (n + 1) = none := by
  unfold maxSize at h
  unfold nextCountFor
  rw [dif_neg (by omega)]

theorem appendInPlace_eq_some : v.appendInPlace heap x = some (place, storage') ↔ v.mStorage = some place ∧
      ∃ storage, heap[place]? = some storage ∧ storage.append? x v.mRange.appendIndex = some storage' := by
  unfold appendInPlace
  simp only [bind_eq_some_iff, map_eq_some_iff, Prod.mk.injEq]
  constructor
  · rintro ⟨place', hv, storage, hs, storage'', ha, rfl, rfl⟩
    exact ⟨hv, storage, hs, ha⟩
  · rintro ⟨hv, storage, hs, ha⟩
    exact ⟨place, hv, storage, hs, storage', ha, rfl, rfl⟩

/-- An element written where the used part of the buffer ends comes after the vector's own and is in
nobody's range. -/
theorem appended_denotes (hd : Denotes heap v xs)
    (h : v.appendInPlace heap x = some (place, storage')) : Grows heap (heap.set place storage') ∧
      Denotes (heap.set place storage') ⟨v.mStorage, v.mRange.appended⟩ (xs ++ [x]) := by
  obtain ⟨hv, storage, hs, ha⟩ := appendInPlace_eq_some.1 h
  obtain ⟨-, hused, -, he⟩ := append?_eq_some.1 ha
  have hplace := (List.getElem?_eq_some_iff.1 hs).1
  have hset : (heap.set place storage')[place]? = some storage' := by simp [hplace]
  have hgrows : Grows heap (heap.set place storage') := by
    intro place' storage'' hs''
    rcases eq_or_ne place' place with rfl | hne
    · cases hs.symm.trans hs''
      exact ⟨storage', hset, he ▸ prefix_append _ _⟩
    · exact ⟨storage'', by rw [getElem?_set_ne hne.symm, hs''], prefix_rfl⟩
  have hlen : v.mRange.count = xs.length := hd.1
  refine ⟨hgrows, by simp [size, Range.appended, hlen], fun k => ?_⟩
  rcases lt_trichotomy k xs.length with hk | rfl | hk
  · rw [getElem?_append_left hk, getElem?_eq_getElem hk]
    obtain ⟨-, place', storage'', hv', hs', he'⟩ := at?_eq_some.1 (hgrows.at? ((hd.2 k).trans (getElem?_eq_getElem hk)))
    exact at?_eq_some.2 ⟨by show k < v.mRange.count + 1; omega, place', storage'', hv', hs', he'⟩
  · rw [getElem?_append_right le_rfl, Nat.sub_self]
    refine at?_eq_some.2 ⟨by show xs.length < v.mRange.count + 1; omega, place, storage', hv, hset, ?_⟩
    have hend : v.mRange.appended.actualIndex xs.length = storage.mElements.length := by
      rw [hused, ← hlen]
      exact Nat.add_comm _ _
    rw [he, hend, getElem?_append_right le_rfl, Nat.sub_self]
    rfl
  · rw [at?_eq_none (by show v.mRange.count + 1 ≤ k; omega), getElem?_eq_none (by simp; omega)]

/-- Each result of an append is the list with the element. -/
theorem gives_append (hd : Denotes heap v xs) (hsize : xs.length < maxSize) (x : T) :
    Gives (v.append x) heap (xs ++ [x]) := by
  have hlen : v.size = xs.length := hd.1
  constructor
  unfold append
  rw [wp_bind, wp_get]
  split
  · next place storage h => exact appended_denotes hd h
  · obtain ⟨count, hcount, hle⟩ := nextCountFor_eq_some (hlen.symm ▸ hsize : v.size < maxSize)
    rw [show nextCountFor (v.mRange.count + 1) = some count from hcount]
    rw [wp_bind]
    refine (wp_foldlM_range v.size (fun k storage heap' => heap' = heap ∧
      storage.mElements = xs.take k ∧ storage.mElementsAllocated = count.1) ?_
      ⟨rfl, rfl, rfl⟩).imp fun copied heap' hc => ?_
    · rintro k storage _ hk ⟨rfl, he, ha⟩
      rw [wp_bind]
      refine wp_getItem hd (hlen ▸ hk) ?_
      refine wp_push (by rw [he, ha, length_take]; omega) fun storage' ha' he' => ?_
      exact ⟨rfl, by rw [he', he, take_succ_eq_append_getElem (hlen ▸ hk)], by rw [ha', ha]⟩
    · obtain ⟨rfl, he, ha⟩ := hc
      rw [hlen, take_length] at he
      rw [wp_bind]
      refine wp_push (by rw [he, ha]; omega) fun storage _ he' => ?_
      rw [hlen, show xs.length + 1 = (xs ++ [x]).length by simp]
      exact (gives_store (by rw [he', he])).returns

theorem Gives.bind {call : Call T ImmutableTreeVector}
    {f : ImmutableTreeVector → Call T ImmutableTreeVector} (h : Gives call heap xs)
    (hf : ∀ v heap', Grows heap heap' → Denotes heap' v xs → Gives (f v) heap' ys) :
    Gives (call >>= f) heap ys := by
  constructor
  rw [wp_bind]
  refine h.returns.imp fun v heap' hv => ?_
  exact (hf v heap' hv.1 hv.2).returns.imp fun _ _ hw => ⟨hv.1.trans hw.1, hw.2⟩

theorem gives_getItem {f : T → Call T ImmutableTreeVector} (hd : Denotes heap v xs) (hk : k < xs.length)
    (h : Gives (f xs[k]) heap ys) : Gives (v.getItem k >>= f) heap ys := by
  constructor
  rw [wp_bind]
  exact wp_getItem hd hk h.returns

theorem gives_pure (hd : Denotes heap v xs) : Gives (pure v) heap xs := ⟨⟨Grows.refl heap, hd⟩⟩

theorem gives_concat (hv : Denotes heap v xs) (hw : Denotes heap w ys)
    (hsize : (xs ++ ys).length ≤ maxSize) : Gives (v.concat w) heap (xs ++ ys) := by
  rw [length_append] at hsize
  constructor
  refine (wp_foldlM_range w.size (fun k res heap' => Grows heap heap' ∧
    Denotes heap' res (xs ++ ys.take k)) ?_ ⟨Grows.refl heap, by simpa using hv⟩).imp fun res heap' h =>
    ⟨h.1, by simpa [hw.1] using h.2⟩
  rintro k res heap' hk ⟨hg, hd⟩
  rw [hw.1] at hk
  rw [wp_bind]
  refine wp_getItem (hw.mono hg) hk ?_
  have hroom : (xs ++ ys.take k).length < maxSize := by
    rw [length_append, length_take]
    omega
  refine (gives_append hd hroom _).returns.imp fun _ _ h => ⟨hg.trans h.1, ?_⟩
  rw [take_succ_eq_append_getElem hk, ← append_assoc]
  exact h.2

theorem gives_prepend (hd : Denotes heap v xs) (hsize : (x :: xs).length ≤ maxSize) :
    Gives (prepend x v) heap (x :: xs) :=
  (gives_append (denotes_empty heap) (zero_lt_succ _) x).bind fun _ _ hg hres =>
    gives_concat hres (hd.mono hg) hsize

/-! ## Slices -/

/-- A part of a vector's range. -/
theorem denotes_part (hd : Denotes heap v xs) {a : ℕ} (h : a + n ≤ xs.length) :
    Denotes heap ⟨v.mStorage, ⟨n, a + v.mRange.offset⟩⟩ ((xs.drop a).take n) := by
  refine ⟨by simp only [size, length_take, length_drop]; omega, fun k => ?_⟩
  rw [getElem?_take]
  split
  · next hk =>
    rw [getElem?_drop, ← hd.2 (a + k)]
    unfold at?
    rw [if_pos (show k < size ⟨v.mStorage, ⟨n, a + v.mRange.offset⟩⟩ from hk), if_pos (by rw [hd.1]; omega)]
    rw [show Range.actualIndex ⟨n, a + v.mRange.offset⟩ k = v.mRange.actualIndex (a + k) by
      show a + v.mRange.offset + k = v.mRange.offset + (a + k); omega]
  · next hk => exact at?_eq_none (Nat.le_of_not_lt hk)

/-- `slice(left, right)` once its positions are counted from the start. -/
theorem slice_eq (v : ImmutableTreeVector) (left right : ℤ) : v.slice left right =
      if min (position v.size right).toNat v.size ≤ (position v.size left).toNat then {}
      else ⟨v.mStorage, ⟨min (position v.size right).toNat v.size - (position v.size left).toNat,
        (position v.size left).toNat + v.mRange.offset⟩⟩ := by
  show (if (if 0 ≤ position v.size right ∧ v.size < position v.size right then (v.size : ℤ)
      else position v.size right) ≤ (if position v.size left < 0 then 0 else position v.size left) then {}
    else (⟨v.mStorage, ⟨((if 0 ≤ position v.size right ∧ v.size < position v.size right then (v.size : ℤ)
        else position v.size right) - if position v.size left < 0 then 0 else position v.size left).toNat,
      (if position v.size left < 0 then 0 else position v.size left).toNat + v.mRange.offset⟩⟩ :
        ImmutableTreeVector)) = _
  generalize position v.size right = r
  generalize position v.size left = l
  have hl : (if l < 0 then 0 else l) = (l.toNat : ℤ) := by split <;> omega
  rw [hl]
  generalize hr : (if 0 ≤ r ∧ v.size < r then (v.size : ℤ) else r) = r'
  have hr' : r'.toNat = min r.toNat v.size := by
    subst hr
    split <;> omega
  rw [← hr']
  split
  · rw [if_pos (by omega)]
  · rw [if_neg (by omega), show (r' - l.toNat).toNat = r'.toNat - l.toNat by omega, Int.toNat_natCast]

theorem denotes_slice (hd : Denotes heap v xs) (left right : ℤ) :
    Denotes heap (v.slice left right) (ListSlice.slice xs left right) := by
  rw [slice_eq, hd.1]
  unfold ListSlice.slice
  rw [take_eq_take_min, drop_take]
  split
  · next hle =>
    rw [Nat.sub_eq_zero_of_le hle, take_zero]
    exact denotes_empty heap
  · exact denotes_part hd (by omega)

/-- A number that an `int32_t` holds is passed as it is. -/
theorem toInt32_of_lt (h : n < 2 ^ 31) : toInt32 n = n := by
  unfold toInt32
  rw [Int.bmod_eq_emod_of_lt (by omega)]
  omega

attribute [local irreducible] toInt32

theorem denotes_sliceFrom (hd : Denotes heap v xs) (hsize : xs.length ≤ maxSize) (left : ℕ) :
    Denotes heap (v.sliceFrom left) (ListSlice.slice xs (toInt32 left) xs.length) := by
  unfold maxSize at hsize
  unfold sliceFrom
  rw [hd.1, toInt32_of_lt (by omega : xs.length < 2 ^ 31)]
  exact denotes_slice hd _ _

variable {right step left : ℤ}

/-- The loop forwards collects what comes from `k` on. -/
theorem gives_sliceLoop_forward (hd : Denotes heap v xs) (hstep : 0 < step)
    (hright : right ≤ xs.length) (turns k : ℕ) (hturns : (right - k).toNat < turns) (hres : Denotes heap w ys)
    (hsize : (ys ++ everyNth step.toNat ((xs.take right.toNat).drop k)).length ≤ maxSize) :
    Gives (sliceLoop v right step turns k w) heap (ys ++ everyNth step.toNat ((xs.take right.toNat).drop k)) := by
  induction turns generalizing heap k w ys with
  | zero => omega
  | succ turns ih =>
    unfold sliceLoop
    rcases lt_or_ge (k : ℤ) right with hk | hk
    · rw [if_pos (by rwa [if_pos hstep])]
      rw [everyNth_forward (by omega) (by omega) (by omega)] at hsize ⊢
      rw [append_cons] at hsize ⊢
      have hroom : ys.length < maxSize := by
        simp only [length_append, length_cons] at hsize
        omega
      refine gives_getItem hd (by omega) ((gives_append hres hroom _).bind fun res heap' hg hres' => ?_)
      rw [show (k : ℤ) + step = ((k + step.toNat : ℕ) : ℤ) by omega]
      exact ih (hd.mono hg) _ (by omega) hres' hsize
    · rw [if_neg (by rw [if_pos hstep]; omega), drop_eq_nil_of_le (by rw [length_take]; omega),
        everyNth_nil, append_nil]
      exact gives_pure hres

/-- The loop backwards collects what comes down from `k`. -/
theorem gives_sliceLoop_backward (hd : Denotes heap v xs) (hstep : step < 0)
    (hright : -1 ≤ right) (turns : ℕ) (k : ℤ) (hk : k < xs.length) (hturns : (k - right).toNat < turns)
    (hres : Denotes heap w ys) (hsize : (ys ++ everyNth (-step).toNat
      ((xs.take (k + 1).toNat).drop (right + 1).toNat).reverse).length ≤ maxSize) :
    Gives (sliceLoop v right step turns k w) heap (ys ++ everyNth (-step).toNat
      ((xs.take (k + 1).toNat).drop (right + 1).toNat).reverse) := by
  induction turns generalizing heap k w ys with
  | zero => omega
  | succ turns ih =>
    unfold sliceLoop
    have hback : ¬ 0 < step := by omega
    rcases lt_or_ge right k with hlt | hge
    · rw [if_pos (by rwa [if_neg hback])]
      rw [show (k + 1).toNat = k.toNat + 1 by omega, everyNth_backward (by omega) (by omega) (by omega)] at hsize ⊢
      rw [append_cons, show k.toNat + 1 - (-step).toNat = (k + step + 1).toNat by omega]
        at hsize ⊢
      have hroom : ys.length < maxSize := by
        simp only [length_append, length_cons] at hsize
        omega
      refine gives_getItem hd (by omega) ((gives_append hres hroom _).bind fun res heap' hg hres' => ?_)
      exact ih (hd.mono hg) _ (by omega) (by omega) hres' hsize
    · rw [if_neg (by rw [if_neg hback]; omega),
        drop_eq_nil_of_le (by rw [length_take]; omega), reverse_nil, everyNth_nil,
        append_nil]
      exact gives_pure hres

/-- The start of a slice with a step is not before the first element nor, forwards, at or after the
end. Backwards it may lie after the end of a list that is not empty. -/
def StartsInside (n : ℕ) (left step : ℤ) : Prop :=
  (0 < step ∧ (n = 0 ∨ -n ≤ left ∧ left < n)) ∨ (step < 0 ∧ 0 < n ∧ -n ≤ left)
deriving Decidable

/-- `slice(left, right, step)` once its positions are counted from the start. -/
theorem sliceStep_eq (v : ImmutableTreeVector) (hsize : v.size < 2 ^ 31)
    (hleft : left < 2 ^ 31) (hstart : StartsInside v.size left step) :
    (v.sliceStep left right step : Call T ImmutableTreeVector) = sliceLoop v
      (max (-1) (min (position v.size right) v.size)) step
      ((max (-1) (min (position v.size right) v.size) -
        max 0 (min (position v.size left) (v.size - 1))).natAbs + 1)
      (max 0 (min (position v.size left) (v.size - 1))) {} := by
  have hl : (if (if (v.size : ℤ) ≤ position v.size left % 2 ^ 32 then (v.size : ℤ) - 1
      else position v.size left) < 0 then 0
      else if (v.size : ℤ) ≤ position v.size left % 2 ^ 32 then (v.size : ℤ) - 1
        else position v.size left) = max 0 (min (position v.size left) (v.size - 1)) := by
    unfold StartsInside at hstart
    unfold position
    split <;> split <;> omega
  have hr : (if (if 0 ≤ position v.size right ∧ v.size ≤ position v.size right then (v.size : ℤ)
      else position v.size right) < 0 then -1
      else if 0 ≤ position v.size right ∧ v.size ≤ position v.size right then (v.size : ℤ)
        else position v.size right) = max (-1) (min (position v.size right) v.size) := by
    split <;> split <;> omega
  unfold sliceStep
  unfold position at hl hr ⊢
  simp only [hl, hr]

/-- A slice with a step whose start is in place. -/
theorem gives_sliceStep (hd : Denotes heap v xs) (hsize : xs.length ≤ maxSize)
    (hleft : left < 2 ^ 31) (hstart : StartsInside xs.length left step)
    (hroom : (ListSlice.sliceStep xs left right step).length ≤ maxSize) :
    Gives (v.sliceStep left right step) heap (ListSlice.sliceStep xs left right step) := by
  have hmax : xs.length < 2 ^ 31 := by unfold maxSize at hsize; omega
  rw [sliceStep_eq v (hd.1 ▸ hmax) hleft (hd.1 ▸ hstart), hd.1]
  unfold ListSlice.sliceStep ListSlice.slice at hroom ⊢
  have hl : left < 0 → position xs.length left = left + xs.length := fun h => if_pos h
  have hl' : 0 ≤ left → position xs.length left = left := fun h => if_neg (by omega)
  generalize position xs.length left = l at *
  generalize position xs.length right = r at *
  rcases hstart with ⟨hstep, hin⟩ | ⟨hstep, hne, hin⟩
  · rw [if_pos hstep] at hroom ⊢
    have hk : max 0 (min l (xs.length - 1)) = ((max 0 (min l (xs.length - 1))).toNat : ℤ) := by omega
    have hlist : (xs.take r.toNat).drop l.toNat =
        (xs.take (max (-1) (min r xs.length)).toNat).drop (max 0 (min l (xs.length - 1))).toNat := by
      rw [take_eq_take_min, show (max (-1) (min r xs.length)).toNat = min r.toNat xs.length by omega]
      rcases hin with hnil | hin
      · rw [eq_nil_of_length_eq_zero hnil]
        simp
      · rw [show (max 0 (min l ((xs.length : ℤ) - 1))).toNat = l.toNat by omega]
    rw [hlist] at hroom ⊢
    rw [hk]
    exact gives_sliceLoop_forward hd hstep (by omega) _ _ (by omega) (denotes_empty heap) hroom
  · rw [if_neg (by omega)] at hroom ⊢
    have hlist : (xs.take (l + 1).toNat).drop (r + 1).toNat = (xs.take (max 0 (min l (xs.length - 1)) + 1).toNat).drop
          (max (-1) (min r xs.length) + 1).toNat := by
      rw [take_eq_take_min, show min (l + 1).toNat xs.length = (max 0 (min l ((xs.length : ℤ) - 1)) + 1).toNat by omega]
      rcases le_or_gt r xs.length with hle | hgt
      · rw [show (max (-1) (min r xs.length) + 1).toNat = (r + 1).toNat by omega]
      · rw [drop_eq_nil_of_le (by rw [length_take]; omega), drop_eq_nil_of_le (by rw [length_take]; omega)]
    rw [hlist] at hroom ⊢
    exact gives_sliceLoop_backward hd hstep (by omega) _ _ (by omega) (by omega) (denotes_empty heap) hroom

/-- `withElementReplaced` on an index in range. -/
theorem gives_withElementReplaced (hd : Denotes heap v xs) (hsize : xs.length ≤ maxSize) {index : ℤ}
    (hindex : 0 ≤ index ∧ index < xs.length) (x : T) :
    Gives (v.withElementReplaced index x) heap (xs.set index.toNat x) := by
  have hlen : v.size = xs.length := hd.1
  have hmax : xs.length < 2 ^ 31 := by unfold maxSize at hsize; omega
  obtain ⟨i, rfl⟩ := Int.eq_ofNat_of_zero_le hindex.1
  have hi : i < xs.length := by omega
  have hset : xs.set i x = xs.take i ++ [x] ++ xs.drop (i + 1) := by
    rw [set_eq_take_append_cons_drop, if_pos hi, append_assoc]
    rfl
  have hfront : Denotes heap (v.slice 0 i) (xs.take i) := by
    have h := denotes_slice hd ((0 : ℕ) : ℤ) (i : ℤ)
    rwa [slice_natCast, drop_zero] at h
  have hback : Denotes heap (v.sliceFrom (i + 1)) (xs.drop (i + 1)) := by
    have h := denotes_sliceFrom hd hsize (i + 1)
    rwa [toInt32_of_lt (by omega), slice_natCast, take_length] at h
  have happend := gives_append hfront (by rw [length_take]; omega) x
  constructor
  unfold withElementReplaced
  rw [wp_bind, wp_lassert, if_pos (by rw [hlen]; exact hindex), Int.toNat_natCast, hset]
  split
  · next hzero =>
    obtain rfl : i = 0 := by omega
    exact (gives_prepend hback (by rw [length_cons, length_drop]; omega)).returns
  split
  · next hlast =>
    rw [hlen] at hlast ⊢
    rw [drop_eq_nil_of_le (by omega), append_nil, show (xs.length : ℤ) - 1 = i by omega]
    exact happend.returns
  · refine Gives.returns (happend.bind fun front heap' hg hres => ?_)
    rw [show ((i : ℤ) + 1).toNat = i + 1 by omega]
    exact gives_concat hres (hback.mono hg) (by rw [← hset, length_set]; exact hsize)

end

end ImmutableTreeVector
