import Ufora.Containers.VectorSlices

/-!
# Sequences of vector operations

In every sequence of operations on vectors that share their buffers each vector made denotes its list for
good and each result the list operation on what its arguments denote (`persists`), as long as no list is too
long to be copied and every slice with a step is one that the source takes right (`StartsRight`). Of any other
slice the result may be another list (`not_persists`).
-/

open Effect List Option Nat

namespace ImmutableTreeVector

open ListSlice

variable {T : Type}

/-! ## Sequences of operations -/

/-- The buffers and the vectors made so far. -/
structure State (T : Type) where
  heap : Heap T := []
  vectors : List ImmutableTreeVector := []

/-- An operation, with the places of the vectors it is applied to. -/
inductive Op (T : Type) where
  | empty
  | single (x : T)
  | append (v : ℕ) (x : T)
  | concat (v w : ℕ)
  | prepend (x : T) (v : ℕ)
  | slice (v : ℕ) (left right : Int32)
  | sliceFrom (v : ℕ) (left : UInt32)
  | sliceStep (v : ℕ) (left right step : Int32)
  | withElementReplaced (v : ℕ) (index : Int64) (newValue : T)

/-- What the operation calls, where the vectors it is applied to are there. -/
def Op.call (vectors : List ImmutableTreeVector) : Op T → Option (Call T ImmutableTreeVector)
  | .empty => some (pure {})
  | .single x => some (ImmutableTreeVector.single x)
  | .append v x => vectors[v]?.map (·.append x)
  | .concat v w => vectors[v]?.bind fun v => vectors[w]?.map v.concat
  | .prepend x v => vectors[v]?.map (ImmutableTreeVector.prepend x)
  | .slice v left right => vectors[v]?.map fun v => pure (v.slice left.toInt right.toInt)
  | .sliceFrom v left => vectors[v]?.map fun v => pure (v.sliceFrom left.toNat)
  | .sliceStep v left right step => vectors[v]?.map (·.sliceStep left.toInt right.toInt step.toInt)
  | .withElementReplaced v index newValue =>
    vectors[v]?.map (·.withElementReplaced index.toInt newValue)

/-- One operation: its result is one more vector. An operation that throws makes none. -/
def step (s : State T) (op : Op T) : Option (State T) :=
  match op.call s.vectors with
  | none => some s
  | some call =>
    match call s.heap with
    | .ok v heap => some ⟨heap, s.vectors ++ [v]⟩
    | .error .assertion heap => some ⟨heap, s.vectors⟩
    | .error .undefined _ => none

/-- A sequence of operations. -/
def run (s : State T) (ops : List (Op T)) : Option (State T) := ops.foldlM step s

/-! ## The lists they stand for -/

variable (lists : List (List T))

/-- The list operation on what the vectors denote. -/
def Op.result : Op T → Option (List T)
  | .empty => some []
  | .single x => some [x]
  | .append v x => lists[v]?.map (· ++ [x])
  | .concat v w => lists[v]?.bind fun xs => lists[w]?.map (xs ++ ·)
  | .prepend x v => lists[v]?.map (x :: ·)
  | .slice v left right => lists[v]?.map (ListSlice.slice · left.toInt right.toInt)
  | .sliceFrom v left => lists[v]?.map fun xs => ListSlice.slice xs (toInt32 left.toNat) xs.length
  | .sliceStep v left right step =>
    lists[v]?.map (ListSlice.sliceStep · left.toInt right.toInt step.toInt)
  | .withElementReplaced v index newValue => lists[v]?.bind fun xs =>
    if 0 ≤ index.toInt ∧ index.toInt < xs.length then some (xs.set index.toInt.toNat newValue) else none

/-- The lists after an operation. -/
def Op.denote (op : Op T) : List (List T) := lists ++ (op.result lists).toList

/-- The lists after a sequence of operations. -/
def denote (lists : List (List T)) (ops : List (Op T)) : List (List T) := ops.foldl Op.denote lists

/-- The result is short enough to be appended to. A slice with a step goes somewhere, and the start that the
source takes for it is the right one. -/
def Op.Covered (op : Op T) : Prop := (∀ xs ∈ op.result lists, xs.length ≤ maxSize) ∧ match op with
    | .sliceStep v left right step =>
      step.toInt ≠ 0 ∧ ∀ xs ∈ lists[v]?, StartsRight xs.length left.toInt right.toInt step.toInt
    | _ => True

/-- Every operation of a sequence is `Op.Covered`. -/
def Covered : List (List T) → List (Op T) → Prop
  | _, [] => True
  | lists, op :: ops => op.Covered lists ∧ Covered (op.denote lists) ops

/-- The vectors denote the lists, one by one, and no list is too long. -/
def Represents (s : State T) (lists : List (List T)) : Prop :=
  Forall₂ (Denotes s.heap) s.vectors lists ∧ ∀ xs ∈ lists, xs.length ≤ maxSize

section
variable {s s' : State T} {lists} {op : Op T} {ops more : List (Op T)}

theorem Represents.getElem? (h : Represents s lists) (v : ℕ) : (s.vectors[v]? = none ∧ lists[v]? = none) ∨
      ∃ w xs, s.vectors[v]? = some w ∧ lists[v]? = some xs ∧ Denotes s.heap w xs ∧ xs.length ≤ maxSize := by
  rcases lt_or_ge v lists.length with hv | hv
  · have hv' : v < s.vectors.length := h.1.length_eq ▸ hv
    exact .inr ⟨_, _, getElem?_eq_getElem hv', getElem?_eq_getElem hv,
      List.Forall₂.get h.1 hv' hv, h.2 _ (getElem_mem hv)⟩
  · exact .inl ⟨getElem?_eq_none (h.1.length_eq ▸ hv), getElem?_eq_none hv⟩

/-- A call that makes a vector, of the list it should stand for. -/
def Op.Makes (s : State T) (lists : List (List T)) (op : Op T) : Prop :=
  ∃ call xs, op.call s.vectors = some call ∧ op.result lists = some xs ∧ Gives call s.heap xs

/-- An operation that makes no vector: one it is applied to is not there, or it throws. -/
def Op.Fails (s : State T) (lists : List (List T)) (op : Op T) : Prop :=
  op.result lists = none ∧ (op.call s.vectors = none ∨
    ∃ call, op.call s.vectors = some call ∧ call s.heap = .error .assertion s.heap)

/-- An operation on one vector. -/
theorem makes_or_fails_of_unary (h : Represents s lists) {v : ℕ} {call : ImmutableTreeVector → Call T _}
    {r : List T → List T} (hcall : op.call s.vectors = s.vectors[v]?.map call)
    (hresult : op.result lists = lists[v]?.map r)
    (hgives : ∀ w xs, lists[v]? = some xs → Denotes s.heap w xs → xs.length ≤ maxSize →
      Gives (call w) s.heap (r xs)) : op.Makes s lists ∨ op.Fails s lists := by
  rcases h.getElem? v with ⟨hv, hl⟩ | ⟨w, xs, hv, hl, hd, hsize⟩
  · exact .inr ⟨by rw [hresult, hl]; rfl, .inl (by rw [hcall, hv]; rfl)⟩
  · exact .inl ⟨_, _, by rw [hcall, hv]; rfl, by rw [hresult, hl]; rfl, hgives w xs hl hd hsize⟩

/-- Every covered operation does what the list operation does. -/
theorem makes_or_fails (h : Represents s lists) (hc : op.Covered lists) : op.Makes s lists ∨ op.Fails s lists := by
  cases op with
  | empty => exact .inl ⟨_, _, rfl, rfl, gives_pure (denotes_empty s.heap)⟩
  | single x => exact .inl ⟨_, _, rfl, rfl, gives_single x s.heap⟩
  | append v x =>
    refine makes_or_fails_of_unary h rfl rfl fun w xs hl hd _ => gives_append hd ?_ x
    have hroom := hc.1 (xs ++ [x]) (by simp [Op.result, hl])
    rw [length_append, length_singleton] at hroom
    omega
  | concat v w =>
    rcases h.getElem? v with ⟨hv, hl⟩ | ⟨v', xs, hv, hl, hd, -⟩
    · exact .inr ⟨by simp [Op.result, hl], .inl (by simp [Op.call, hv])⟩
    rcases h.getElem? w with ⟨hw, hl'⟩ | ⟨w', ys, hw, hl', hd', -⟩
    · exact .inr ⟨by simp [Op.result, hl, hl'], .inl (by simp [Op.call, hv, hw])⟩
    refine .inl ⟨v'.concat w', xs ++ ys, by simp [Op.call, hv, hw], by simp [Op.result, hl, hl'], ?_⟩
    exact gives_concat hd hd' (hc.1 _ (by simp [Op.result, hl, hl']))
  | prepend x v =>
    refine makes_or_fails_of_unary h rfl rfl fun w xs hl hd _ => gives_prepend hd ?_
    exact hc.1 _ (by simp [Op.result, hl])
  | slice v left right =>
    exact makes_or_fails_of_unary h rfl rfl fun w xs _ hd _ => gives_pure (denotes_slice hd _ _)
  | sliceFrom v left =>
    exact makes_or_fails_of_unary h rfl rfl fun w xs _ hd hsize =>
      gives_pure (denotes_sliceFrom hd hsize _)
  | sliceStep v left right step =>
    refine makes_or_fails_of_unary h rfl rfl fun w xs hl hd hsize => ?_
    exact (sliceCorrect_iff_startsRight hsize hc.2.1).2 (hc.2.2 xs hl) T s.heap w xs hd rfl
  | withElementReplaced v index newValue =>
    rcases h.getElem? v with ⟨hv, hl⟩ | ⟨w, xs, hv, hl, hd, hsize⟩
    · exact .inr ⟨by simp [Op.result, hl], .inl (by simp [Op.call, hv])⟩
    by_cases hindex : 0 ≤ index.toInt ∧ index.toInt < xs.length
    · exact .inl ⟨_, _, by simp [Op.call, hv], by simp [Op.result, hl, hindex],
        gives_withElementReplaced hd hsize hindex newValue⟩
    · refine .inr ⟨by simp only [Op.result, hl, bind_some, if_neg hindex],
        .inr ⟨w.withElementReplaced index.toInt newValue, by simp [Op.call, hv], ?_⟩⟩
      rw [← hd.1] at hindex
      show (lassert _ _ >>= _) s.heap = _
      unfold lassert
      rw [if_neg hindex]
      rfl

/-- One operation. -/
theorem step_represents (h : Represents s lists) (hc : op.Covered lists) :
    ∃ s', step s op = some s' ∧ Represents s' (op.denote lists) ∧ s.vectors <+: s'.vectors ∧ Grows s.heap s'.heap := by
  unfold step Op.denote
  rcases makes_or_fails h hc with ⟨call, xs, hcall, hresult, hgives⟩ | ⟨hresult, hcall⟩
  · obtain ⟨v, heap, hrun, hg, hd⟩ := hgives.returns.exists_run
    rw [hcall, hresult]
    refine ⟨⟨heap, s.vectors ++ [v]⟩, ?_, ⟨?_, ?_⟩, prefix_append _ _, hg⟩
    · dsimp only
      rw [show call s.heap = .ok v heap from hrun]
    · exact rel_append (h.1.imp fun _ _ hd => hd.mono hg) (.cons hd .nil)
    · intro ys hys
      rcases mem_append.1 hys with hys | hys
      · exact h.2 ys hys
      · obtain rfl := mem_singleton.1 hys
        exact hc.1 ys hresult
  · rw [hresult, toList_none, append_nil]
    rcases hcall with hcall | ⟨call, hcall, hthrow⟩
    · rw [hcall]
      exact ⟨s, rfl, h, prefix_rfl, Grows.refl _⟩
    · rw [hcall]
      refine ⟨s, ?_, h, prefix_rfl, Grows.refl _⟩
      dsimp only
      rw [hthrow]

/-- A sequence of operations. -/
theorem run_represents (h : Represents s lists) (hc : Covered lists ops) :
    ∃ s', run s ops = some s' ∧ Represents s' (denote lists ops) ∧ s.vectors <+: s'.vectors ∧ Grows s.heap s'.heap := by
  induction ops generalizing s lists with
  | nil => exact ⟨s, rfl, h, prefix_rfl, Grows.refl _⟩
  | cons op ops ih =>
    obtain ⟨t, hstep, ht, hp, hg⟩ := step_represents h hc.1
    obtain ⟨s', hrun, hs', hp', hg'⟩ := ih ht hc.2
    refine ⟨s', ?_, hs', hp.trans hp', hg.trans hg'⟩
    show (step s op).bind (fun s => run s ops) = some s'
    rw [hstep]
    exact hrun

theorem denote_append (lists : List (List T)) (ops more : List (Op T)) :
    denote lists (ops ++ more) = denote (denote lists ops) more := foldl_append

theorem covered_append : Covered lists (ops ++ more) ↔ Covered lists ops ∧ Covered (denote lists ops) more := by
  induction ops generalizing lists with
  | nil => simp [Covered, denote]
  | cons op ops ih =>
    show op.Covered lists ∧ Covered _ (ops ++ more) ↔ (op.Covered lists ∧ Covered _ ops) ∧ _
    rw [ih, and_assoc]
    rfl

theorem represents_empty : Represents ({} : State T) [] := ⟨.nil, nofun⟩

/-- In every sequence of covered operations the vectors made denote the lists that the list operations make,
and those of its first part are still there after the rest and denote the lists they did. -/
theorem persists (ops more : List (Op T)) (h : Covered [] (ops ++ more)) :
    ∃ s s', run {} ops = some s ∧ run s more = some s' ∧ s.vectors <+: s'.vectors ∧
      Forall₂ (Denotes s.heap) s.vectors (denote [] ops) ∧
      Forall₂ (Denotes s'.heap) s.vectors (denote [] ops) ∧
      Forall₂ (Denotes s'.heap) s'.vectors (denote [] (ops ++ more)) := by
  obtain ⟨hops, hmore⟩ := covered_append.1 h
  obtain ⟨s, hrun, hs, -, -⟩ := run_represents represents_empty hops
  obtain ⟨s', hrun', hs', hp, hg⟩ := run_represents hs hmore
  rw [denote_append]
  exact ⟨s, s', hrun, hrun', hp, hs.1, hs.1.imp fun _ _ hd => hd.mono hg, hs'.1⟩

/-- Two appends to one vector, of which the second copies it. -/
def branching : List (Op ℕ) × List (Op ℕ) :=
  ([.single 1, .append 0 2], [.append 0 3, .append 1 4, .sliceStep 3 7 0 (-1), .sliceStep 1 (-4) 0 1])

/-- Branches, a slice backwards from behind the end, and one forwards from before the first element. -/
theorem persists_branches : Covered [] (branching.1 ++ branching.2) ∧
    ∃ s s', run {} branching.1 = some s ∧ run s branching.2 = some s' ∧ s.vectors <+: s'.vectors ∧
      Forall₂ (Denotes s.heap) s.vectors (denote [] branching.1) ∧
      Forall₂ (Denotes s'.heap) s.vectors (denote [] branching.1) ∧
      Forall₂ (Denotes s'.heap) s'.vectors (denote [] (branching.1 ++ branching.2)) := by
  have h : Covered [] (branching.1 ++ branching.2) := by
    simp [branching, Covered, Op.Covered, Op.denote, Op.result, maxSize, StartsRight, position]
    decide
  exact ⟨h, persists _ _ h⟩

/-! ## What is not covered -/

variable {place : ℕ}

variable {w : ImmutableTreeVector}

theorem get_bind {β : Type} (f : Heap T → Call T β) (heap : Heap T) : (get >>= f) heap = f heap heap := rfl

theorem append_of_inPlace {heap : Heap T} {x : T}
    {storage : ImmutableTreeVectorStorage T} (hin : w.appendInPlace heap x = some (place, storage)) :
    w.append x heap = .ok ⟨w.mStorage, w.mRange.appended⟩ (heap.set place storage) := by
  refine (get_bind _ heap).trans ?_
  rw [hin]
  rfl

/-- A vector that is too long for a copy. -/
theorem append_of_full {heap : Heap T} {x : T} (hin : w.appendInPlace heap x = none) (hsize : maxSize ≤ w.size) :
    w.append x heap = .error .undefined heap := by
  refine (get_bind _ heap).trans ?_
  rw [hin]
  rw [show nextCountFor (w.mRange.count + 1) = none from nextCountFor_eq_none hsize]
  rfl

/-- The place after the used part is taken once the element is in it. -/
theorem appendInPlace_again {heap : Heap T} {x : T}
    {storage' : ImmutableTreeVectorStorage T} (hin : w.appendInPlace heap x = some (place, storage')) (y : T) :
    w.appendInPlace (heap.set place storage') y = none := by
  obtain ⟨hw, storage, hs, ha⟩ := appendInPlace_eq_some.1 hin
  obtain ⟨-, hused, -, he⟩ := ImmutableTreeVectorStorage.append?_eq_some.1 ha
  by_contra hne
  obtain ⟨⟨place', storage''⟩, hin'⟩ := ne_none_iff_exists'.1 hne
  obtain ⟨hw', storage₁, hs', ha'⟩ := appendInPlace_eq_some.1 hin'
  cases hw.symm.trans hw'
  have hset : storage' = storage₁ := by
    have hplace := (List.getElem?_eq_some_iff.1 hs).1
    simpa [hplace] using hs'
  obtain ⟨-, hused', -⟩ := ImmutableTreeVectorStorage.append?_eq_some.1 ha'
  rw [← hset, he, length_append, length_singleton, hused] at hused'
  omega

theorem step_append {v : ℕ} (hv : s.vectors[v]? = some w) (x : T) : step s (.append v x) = match w.append x s.heap with
      | .ok v heap => some ⟨heap, s.vectors ++ [v]⟩
      | .error .assertion heap => some ⟨heap, s.vectors⟩
      | .error .undefined _ => none := by
  unfold step
  rw [show Op.call s.vectors (.append v x) = some (w.append x) by simp [Op.call, hv]]

/-- Of two appends to one vector the second copies it, which a vector of `maxSize` elements cannot be. -/
theorem step_append_twice {v : ℕ} (hv : s.vectors[v]? = some w)
    (hsize : maxSize ≤ w.size) (x y : T) : (step s (.append v x)).bind (step · (.append v y)) = none := by
  rw [step_append hv]
  rcases hin : w.appendInPlace s.heap x with _ | ⟨place, storage'⟩
  · rw [append_of_full hin hsize]
    rfl
  · rw [append_of_inPlace hin]
    show step ⟨_, s.vectors ++ [_]⟩ (.append v y) = none
    have hv' : (s.vectors ++ [⟨w.mStorage, w.mRange.appended⟩])[v]? = some w := by
      rw [getElem?_append_left (List.getElem?_eq_some_iff.1 hv).1, hv]
    rw [step_append hv', append_of_full (appendInPlace_again hin y) hsize]

end

/-- A vector of each size up to `n`, each an append to the one before. -/
def growing (n : ℕ) : List (Op ℕ) := .empty :: (range n).map (.append · 0)

theorem growing_covered {n : ℕ} (h : n ≤ maxSize) : Covered [] (growing n) ∧
    denote [] (growing n) = (range (n + 1)).map (replicate · 0) := by
  induction n with
  | zero => exact ⟨⟨⟨by simp [Op.result], trivial⟩, trivial⟩, rfl⟩
  | succ n ih =>
    obtain ⟨hc, hd⟩ := ih (by omega)
    have hsplit : growing (n + 1) = growing n ++ [.append n 0] := by
      simp [growing, range_succ]
    have hresult : (Op.append n 0).result (denote [] (growing n)) = some (replicate (n + 1) 0) := by
      simp [Op.result, hd, replicate_succ']
    rw [hsplit, covered_append, denote_append]
    refine ⟨⟨hc, ⟨⟨?_, trivial⟩, trivial⟩⟩, ?_⟩
    · intro xs hxs
      obtain rfl := some.inj (hresult.symm.trans hxs)
      rw [length_replicate]
      exact h
    · show Op.denote (denote [] (growing n)) (.append n 0) = _
      unfold Op.denote
      rw [hresult, hd]
      simp [range_succ]

/-- The whole of a list, by a slice that starts before its first element. -/
def startsOutside : List (Op ℕ) := [.empty, .append 0 1, .append 1 2, .append 2 3, .sliceStep 3 (-4) 4 1]

/-- Two appends to one vector of `maxSize` elements. -/
def tooLong : List (Op ℕ) := growing maxSize ++ [.append maxSize 0, .append maxSize 0]

/-- A slice from before the first element, by steps of one, has only the last element, and a vector of
`maxSize` elements cannot be appended to twice. -/
theorem not_persists : (∃ s, run {} startsOutside = some s ∧
      (s.vectors[4]?.bind (·.at? s.heap 0)) = some 3 ∧ (denote [] startsOutside)[4]? = some [1, 2, 3]) ∧
    run {} tooLong = none := by
  refine ⟨?_, ?_⟩
  · exact ⟨(run {} startsOutside).get (by decide), by simp, by decide, by decide⟩
  · obtain ⟨s, hrun, hs, -, -⟩ := run_represents represents_empty (growing_covered le_rfl).1
    rw [(growing_covered le_rfl).2] at hs
    rcases hs.getElem? maxSize with ⟨-, hl⟩ | ⟨w, xs, hv, hl, hd, -⟩
    · simp at hl
    · have hsize : maxSize ≤ w.size := by
        obtain rfl : replicate maxSize 0 = xs := by simpa using hl
        rw [hd.1, length_replicate]
      unfold run tooLong
      rw [foldlM_append, show foldlM step {} (growing maxSize) = some s from hrun]
      show (step s (.append maxSize 0)).bind (fun t => (step t (.append maxSize 0)).bind some) = none
      rw [← Option.bind_assoc, step_append_twice hv hsize 0 0]
      rfl

end ImmutableTreeVector
