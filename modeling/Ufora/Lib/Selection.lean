import Mathlib.Data.Int.Order.Lemmas
import Mathlib.Data.List.GetD
import Mathlib.Data.List.Induction
import Mathlib.Data.List.Sort
import Mathlib.Tactic.Linarith
import Mathlib.Tactic.Ring

/-!
# Selecting elements of a list by positions

`select xs is` lists the elements of `xs` at the positions `is`, in the order of the positions. A
position outside the list selects nothing. Ascending positions select from each part of a
concatenation in turn, descending ones in the opposite order. Positions in a fixed distance from
each other form a `progression`.
-/

open List Option Function

namespace Selection

variable {α β : Type*} {xs ys : List α} {is js : List ℤ} {i : ℤ}

/-- The element at a position, if there is one. -/
def nth (xs : List α) (i : ℤ) : Option α := if 0 ≤ i then xs[i.toNat]? else none

/-- The elements at some positions, in the order of the positions. -/
def select (xs : List α) (is : List ℤ) : List α := is.filterMap (nth xs)

@[simp] theorem select_nil_left (is : List ℤ) : select ([] : List α) is = [] := by
  simp [select, nth]

@[simp] theorem select_nil (xs : List α) : select xs [] = [] := rfl

theorem select_append_right (xs : List α) (is js : List ℤ) :
    select xs (is ++ js) = select xs is ++ select xs js := filterMap_append

theorem select_reverse (xs : List α) (is : List ℤ) : select xs is.reverse = (select xs is).reverse := filterMap_reverse

theorem nth_eq_none : nth xs i = none ↔ i < 0 ∨ xs.length ≤ i := by
  unfold nth
  split
  · rw [getElem?_eq_none_iff]; omega
  · simp; omega

theorem nth_natCast (xs : List α) (k : ℕ) : nth xs k = xs[k]? := by simp [nth]

theorem nth_append_left (h : i < xs.length) : nth (xs ++ ys) i = nth xs i := by
  unfold nth
  split
  · rw [getElem?_append_left (by omega)]
  · rfl

theorem nth_append_right (h : xs.length ≤ i) : nth (xs ++ ys) i = nth ys (i - xs.length) := by
  unfold nth
  rw [if_pos (by omega), if_pos (by omega), getElem?_append_right (by omega)]
  congr 1
  omega

theorem nth_map (f : α → β) (xs : List α) (i : ℤ) : nth (xs.map f) i = (nth xs i).map f := by
  unfold nth
  split <;> simp

theorem select_map (f : α → β) (xs : List α) (is : List ℤ) : select (xs.map f) is = (select xs is).map f := by
  simp only [select, map_filterMap, nth_map]

theorem select_congr (h : ∀ i ∈ is, nth xs i = nth ys i) : select xs is = select ys is := filterMap_congr h

/-- Positions outside the list may be left out. -/
theorem select_filter {p : ℤ → Bool} (h : ∀ i ∈ is, 0 ≤ i → i < xs.length → p i) :
    select xs (is.filter p) = select xs is := by
  induction is with
  | nil => rfl
  | cons i is ih =>
    have ih := ih fun j hj => h j (.tail _ hj)
    cases hp : p i with
    | true => rw [filter_cons_of_pos hp]; simp only [select, filterMap_cons]; rw [← select, ih]; rfl
    | false =>
      have hnone : nth xs i = none := by
        rw [nth_eq_none]
        have hi := h i (.head _)
        rw [hp] at hi
        by_contra hc
        exact Bool.false_ne_true (hi (by omega) (by omega))
      rw [filter_cons_of_neg (by simp [hp]), ih]
      simp only [select, filterMap_cons, hnone]

/-- The same for positions counted from elsewhere. -/
theorem select_map_filter {p : ℤ → Bool} {low : ℤ} (h : ∀ i ∈ is, low ≤ i → i < low + xs.length → p i) :
    select xs ((is.filter p).map (· - low)) = select xs (is.map (· - low)) := by
  have hfilter : (is.filter p).map (· - low) = (is.map (· - low)).filter fun i => p (i + low) := by
    rw [List.filter_map]
    refine congrArg _ (filter_congr fun i _ => ?_)
    rw [comp_apply, sub_add_cancel]
  rw [hfilter]
  refine select_filter fun i hi h0 hlt => ?_
  obtain ⟨j, hj, rfl⟩ := mem_map.1 hi
  rw [sub_add_cancel]
  exact h j hj (by omega) (by omega)

theorem select_eq_nil (h : ∀ i ∈ is, i < 0 ∨ xs.length ≤ i) : select xs is = [] :=
  filterMap_eq_nil_iff.2 fun i hi => nth_eq_none.2 (h i hi)

section

variable (h : ∀ i ∈ is, 0 ≤ i ∧ i < xs.length)
include h

/-- Positions inside the list select one element each. -/
theorem length_select : (select xs is).length = is.length := by
  induction is with
  | nil => rfl
  | cons i is ih =>
    have hi := h i (.head _)
    have hsome : nth xs i ≠ none := by rw [Ne, nth_eq_none]; omega
    obtain ⟨x, hx⟩ := ne_none_iff_exists'.1 hsome
    simp only [select, filterMap_cons, hx, length_cons, Nat.add_right_cancel_iff]
    exact ih fun j hj => h j (.tail _ hj)

/-- What a position inside the list selects. -/
theorem nth_select (j : ℤ) : nth (select xs is) j = (nth is j).bind (nth xs) := by
  unfold nth
  split
  · generalize j.toNat = k
    induction is generalizing k with
    | nil => simp
    | cons i is ih =>
      have hi := h i (.head _)
      have hsome : nth xs i ≠ none := by rw [Ne, nth_eq_none]; omega
      obtain ⟨x, hx⟩ := ne_none_iff_exists'.1 hsome
      rw [select, filterMap_cons_some hx]
      cases k with
      | zero => simpa [nth] using hx.symm
      | succ k => exact ih (fun j hj => h j (.tail _ hj)) k
  · rfl

/-- Selecting twice. -/
theorem select_select (js : List ℤ) : select (select xs is) js = select xs (select is js) := by
  have hnth : nth (select xs is) = fun j => (nth is j).bind (nth xs) := funext (nth_select h)
  simp only [select, filterMap_filterMap] at hnth ⊢
  rw [hnth]

end

/-- Ascending positions select from a concatenation part by part. -/
theorem select_append (h : is.Pairwise (· ≤ ·)) :
    select (xs ++ ys) is = select xs is ++ select ys (is.map (· - xs.length)) := by
  induction is with
  | nil => rfl
  | cons i is ih =>
    rw [pairwise_cons] at h
    have ih := ih h.2
    rcases lt_or_ge i xs.length with hi | hi
    · have hnone : nth ys (i - xs.length) = none := nth_eq_none.2 (by omega)
      simp only [select, filterMap_cons, map_cons, nth_append_left hi, hnone] at ih ⊢
      rw [ih]
      cases nth xs i <;> rfl
    · have hnone : nth xs i = none := nth_eq_none.2 (by omega)
      have hrest : select xs is = [] := select_eq_nil fun j hj => by
        have := h.1 j hj
        omega
      rw [hrest, nil_append] at ih
      simp only [select, filterMap_cons, map_cons, nth_append_right hi, hnone] at ih hrest ⊢
      rw [hrest, ih, nil_append]

/-- Positions in the first part of a concatenation. -/
theorem select_append_of_lt (h : ∀ i ∈ is, i < xs.length) : select (xs ++ ys) is = select xs is :=
  select_congr fun i hi => nth_append_left (h i hi)

/-- Positions behind the first part of a concatenation. -/
theorem select_append_of_le (h : ∀ i ∈ is, xs.length ≤ i) :
    select (xs ++ ys) is = select ys (is.map (· - xs.length)) := by
  simp only [select, filterMap_map]
  exact filterMap_congr fun i hi => nth_append_right (h i hi)

theorem mem_of_mem_select {x : α} (h : x ∈ select xs is) : x ∈ xs := by
  obtain ⟨i, -, hi⟩ := mem_filterMap.1 h
  unfold nth at hi
  split at hi
  · exact mem_of_getElem? hi
  · cases hi

/-- Selecting from the values of a function that has one everywhere. -/
theorem select_filterMap {f : α → Option β} (h : ∀ x ∈ xs, (f x).isSome) (is : List ℤ) :
    select (xs.filterMap f) is = (select xs is).filterMap f := by
  have hnth : ∀ i, nth (xs.filterMap f) i = (nth xs i).bind f := by
    intro i
    unfold nth
    split
    · generalize i.toNat = k
      induction xs generalizing k with
      | nil => simp
      | cons x xs ih =>
        obtain ⟨y, hy⟩ := isSome_iff_exists.1 (h x (.head _))
        rw [filterMap_cons_some hy]
        cases k with
        | zero => simpa using hy.symm
        | succ k => simpa using ih (fun z hz => h z (.tail _ hz)) k
    · rfl
  simp only [select, filterMap_filterMap, hnth]

theorem length_filterMap_of_isSome {f : α → Option β} (h : ∀ x ∈ xs, (f x).isSome) :
    (xs.filterMap f).length = xs.length := by
  induction xs with
  | nil => rfl
  | cons x xs ih =>
    obtain ⟨y, hy⟩ := isSome_iff_exists.1 (h x (.head _))
    rw [filterMap_cons_some hy, length_cons, length_cons, ih fun z hz => h z (.tail _ hz)]

/-- Selecting from the mirrored list. -/
theorem select_of_reverse (xs : List α) (is : List ℤ) :
    select xs.reverse is = select xs (is.map fun i => xs.length - 1 - i) := by
  simp only [select, filterMap_map]
  refine filterMap_congr fun i _ => ?_
  rw [comp_apply]
  rcases Classical.em (0 ≤ i ∧ i < xs.length) with hi | hi
  · unfold nth
    rw [if_pos hi.1, if_pos (by omega), getElem?_reverse (by omega)]
    congr 1
    omega
  · rw [nth_eq_none.2 (by rw [length_reverse]; omega), nth_eq_none.2 (by omega)]

variable (parts : List (List α))

/-- Where the `k`-th list begins in the concatenation of all. -/
def start (k : ℕ) : ℕ := ((parts.take k).map length).sum

@[simp] theorem start_zero : start parts 0 = 0 := rfl

theorem start_succ {parts : List (List α)} {k : ℕ} (h : k < parts.length) :
    start parts (k + 1) = start parts k + parts[k].length := by
  rw [start, take_succ_eq_append_getElem h, map_append, sum_append]
  simp [start]

theorem start_length : start parts parts.length = parts.flatten.length := by
  rw [start, take_length, length_flatten]

theorem start_append_left {parts more : List (List α)} {k : ℕ} (h : k ≤ parts.length) :
    start (parts ++ more) k = start parts k := by
  rw [start, take_append_of_le_length h, start]

theorem start_mono {k l : ℕ} (h : k ≤ l) : start parts k ≤ start parts l := by
  obtain ⟨d, rfl⟩ := Nat.exists_eq_add_of_le h
  rw [start, start, take_add, map_append, sum_append]
  exact Nat.le_add_right _ _

/-- Ascending positions select from each part of a concatenation in turn. -/
theorem select_flatten (parts : List (List α)) (h : is.Pairwise (· ≤ ·)) :
    select parts.flatten is = (range parts.length).flatMap fun k =>
      select (parts.getD k []) (is.map (· - start parts k)) := by
  induction parts using reverseRecOn with
  | nil => simp
  | append_singleton parts x ih =>
    rw [flatten_append, flatten_singleton, select_append h, ih, length_append,
      length_singleton, range_succ, flatMap_append, flatMap_singleton,
      start_append_left le_rfl, start_length, getD_append_right _ _ _ _ le_rfl, Nat.sub_self]
    refine congrArg₂ _ (flatMap_congr fun k hk => ?_) rfl
    have hk := mem_range.1 hk
    rw [start_append_left hk.le, getD_append _ _ _ _ hk]

/-! ## Progressions -/

/-- The `n` positions from `a` on in the distance `d`. -/
def progression (n : ℕ) (a d : ℤ) : List ℤ := (range n).map fun i : ℕ => a + d * i

variable {n m : ℕ} {a b d e x : ℤ}

@[simp] theorem length_progression (n : ℕ) (a d : ℤ) : (progression n a d).length = n := by
  simp [progression]

@[simp] theorem progression_zero (a d : ℤ) : progression 0 a d = [] := rfl

theorem mem_progression : x ∈ progression n a d ↔ ∃ i < n, x = a + d * (i : ℕ) := by
  simp [progression, eq_comm]

theorem progression_add (n m : ℕ) (a d : ℤ) :
    progression (n + m) a d = progression n a d ++ progression m (a + d * n) d := by
  simp only [progression, range_add, map_append, List.map_map]
  refine congrArg₂ _ rfl (map_congr_left fun i _ => ?_)
  simp only [comp_apply, Nat.cast_add]
  ring

theorem map_add_progression (n : ℕ) (a d b : ℤ) : (progression n a d).map (· + b) = progression n (a + b) d := by
  simp only [progression, List.map_map]
  refine map_congr_left fun i _ => ?_
  simp only [comp_apply]
  ring

theorem nth_progression {i : ℤ} (h : 0 ≤ i) (hi : i < n) : nth (progression n a d) i = some (a + d * i) := by
  lift i to ℕ using h
  rw [nth_natCast, progression, getElem?_map, getElem?_range (by omega)]
  rfl

theorem pairwise_progression (hd : 0 < d) : (progression n a d).Pairwise (· < ·) := by
  refine pairwise_map.2 (pairwise_lt_range.imp fun h => ?_)
  have := mul_lt_mul_of_pos_left (Nat.cast_lt (α := ℤ).2 h) hd
  omega

theorem pairwise_progression_neg (hd : d < 0) : (progression n a d).Pairwise (· > ·) := by
  refine pairwise_map.2 (pairwise_lt_range.imp fun h => ?_)
  have := mul_lt_mul_of_neg_left (Nat.cast_lt (α := ℤ).2 h) hd
  omega

theorem reverse_progression (n : ℕ) (a d : ℤ) : (progression n a d).reverse = progression n (a + (n - 1) * d) (-d) := by
  refine ext_getElem (by simp) fun i hi _ => ?_
  have hi : i < n := by simpa using hi
  simp only [progression, getElem_reverse, getElem_map, getElem_range, length_map, length_range]
  rw [show ((n - 1 - i : ℕ) : ℤ) = n - 1 - i by omega]
  ring

/-- The members of an ascending progression. -/
theorem mem_progression_iff (hd : 0 < d) : x ∈ progression n a d ↔ a ≤ x ∧ x < a + d * n ∧ d ∣ x - a := by
  rw [mem_progression]
  constructor
  · rintro ⟨i, hi, rfl⟩
    have hlt := mul_lt_mul_of_pos_left (Nat.cast_lt (α := ℤ).2 hi) hd
    have hnn : 0 ≤ d * (i : ℤ) := by positivity
    exact ⟨by omega, by omega, ⟨i, by ring⟩⟩
  · rintro ⟨hle, hlt, q, hq⟩
    have hq0 : 0 ≤ q := by
      by_contra hc
      have := mul_neg_of_pos_of_neg hd (not_le.1 hc)
      omega
    have hqn : q < n := by
      refine lt_of_mul_lt_mul_left (a := d) ?_ hd.le
      omega
    exact ⟨q.toNat, by omega, by rw [Int.toNat_of_nonneg hq0]; omega⟩

/-- The members of a progression, mirrored at 0. -/
theorem mem_progression_neg : x ∈ progression n a d ↔ -x ∈ progression n (-a) (-d) := by
  simp only [mem_progression]
  refine exists_congr fun i => and_congr_right fun _ => ?_
  constructor <;> intro h <;> linarith

/-- Two strictly ascending lists with the same members are the same. -/
theorem eq_of_ascending (h : is.Pairwise (· < ·)) (h' : js.Pairwise (· < ·)) (hmem : ∀ x, x ∈ is ↔ x ∈ js) :
    is = js := by
  have hperm : is.Perm js := (perm_ext_iff_of_nodup (h.imp fun h => h.ne) (h'.imp fun h => h.ne)).2 hmem
  exact hperm.eq_of_pairwise' (h.imp le_of_lt) (h'.imp le_of_lt)

/-- Two strictly descending lists with the same members are the same. -/
theorem eq_of_descending (h : is.Pairwise (· > ·)) (h' : js.Pairwise (· > ·)) (hmem : ∀ x, x ∈ is ↔ x ∈ js) :
    is = js := by
  refine reverse_injective (eq_of_ascending (pairwise_reverse.2 h) (pairwise_reverse.2 h') ?_)
  intro x
  rw [mem_reverse, mem_reverse, hmem]

/-- Selecting from a progression by a progression inside it. -/
theorem select_progression (h : ∀ i ∈ progression m b e, 0 ≤ i ∧ i < n) :
    select (progression n a d) (progression m b e) = progression m (a + d * b) (d * e) := by
  have hnth : ∀ i ∈ range m, nth (progression n a d) (b + e * (i : ℕ)) = some (a + d * b + d * e * (i : ℕ)) := by
    intro i hi
    have hin := h _ (mem_progression.2 ⟨i, mem_range.1 hi, rfl⟩)
    rw [nth_progression hin.1 hin.2]
    congr 1
    ring
  rw [select, show progression m b e = (range m).map fun i : ℕ => b + e * i from rfl, filterMap_map]
  exact (filterMap_congr hnth).trans (congrFun filterMap_eq_map _)

/-- In a list of neighbouring numbers, positions select themselves. -/
theorem select_neighbours (n : ℕ) (a : ℤ) (is : List ℤ) :
    select (progression n a 1) (is.map (· - a)) = is.filter fun i => decide (a ≤ i ∧ i < a + n) := by
  simp only [select, filterMap_map]
  refine (filterMap_congr fun i _ => ?_).trans (congrFun filterMap_eq_filter is)
  rw [comp_apply]
  by_cases hi : a ≤ i ∧ i < a + n
  · rw [nth_progression (by omega) (by omega), Option.guard, if_pos (decide_eq_true hi)]
    congr 1
    ring
  · rw [nth_eq_none.2 (by rw [length_progression]; omega), Option.guard, if_neg (by simpa using hi)]

/-- All positions of a list select the list. -/
theorem select_all (xs : List α) : select xs (progression xs.length 0 1) = xs := by
  refine ext_getElem? fun k => ?_
  have h := @nth_select _ xs (progression xs.length 0 1) (fun i hi => by
    rw [mem_progression_iff one_pos] at hi; omega) k
  rw [nth_natCast, nth_natCast] at h
  rw [h]
  rcases lt_or_ge k xs.length with hk | hk
  · have := nth_progression (n := xs.length) (a := 0) (d := 1) (i := k) (by omega) (by omega)
    rw [nth_natCast] at this
    rw [this, bind_some, zero_add, one_mul, nth_natCast]
  · rw [getElem?_eq_none (by simpa using hk), getElem?_eq_none hk]
    rfl

/-- A stretch of positions selects a stretch of the list. -/
theorem select_range (xs : List α) (low count : ℕ) : select xs (progression count low 1) =
    (xs.drop low).take count := by
  have hdrop : select xs (progression count low 1) = select (xs.drop low) (progression count 0 1) := by
    simp only [select, progression, filterMap_map]
    refine filterMap_congr fun i _ => ?_
    simp only [comp_apply, one_mul, zero_add]
    rw [← Nat.cast_add, nth_natCast, nth_natCast, getElem?_drop]
  rw [hdrop]
  generalize xs.drop low = ys
  rcases le_total count ys.length with h | h
  · rw [← take_append_drop count ys, select_append ((pairwise_progression one_pos).imp le_of_lt)]
    have hlen : (ys.take count).length = count := by simpa using h
    have hall := select_all (ys.take count)
    rw [hlen] at hall
    rw [take_append_drop, hall, select_eq_nil fun i hi => ?_, append_nil]
    obtain ⟨j, hj, rfl⟩ := mem_map.1 hi
    rw [mem_progression_iff one_pos] at hj
    omega
  · obtain ⟨extra, rfl⟩ := Nat.exists_eq_add_of_le h
    rw [progression_add, select_append_right, select_all, take_of_length_le (by omega),
      select_eq_nil fun i hi => ?_, append_nil]
    rw [mem_progression_iff one_pos] at hi
    omega

end Selection
