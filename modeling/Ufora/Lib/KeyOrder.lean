import Mathlib.Data.List.Basic
import Mathlib.Data.List.TakeWhile
import Mathlib.Data.List.Pairwise

/-!
# Lists that ascend by a key

The keys are in a total preorder, so that elements may have equivalent keys: of those an ascending list has one.
Such a list is determined by its elements (`Ascending.ext`). `union key xs ys` is the ascending list of
`ys` and of the elements of `xs` that are equivalent to none of these; it may be taken apart at any key
(`union_append`).
-/

open List

namespace KeyOrder

variable {κ ε : Type*} [Preorder κ]

/-- Every key is less than the next. -/
def Ascending (key : ε → κ) (xs : List ε) : Prop := xs.Pairwise fun x y => key x < key y

/-- One key is less than the other: they are not equivalent. -/
def Apart (key : ε → κ) (x y : ε) : Prop := key x < key y ∨ key y < key x

/-- The keys of the first list are less than those of the second one. -/
def Before (key : ε → κ) (xs ys : List ε) : Prop := ∀ x ∈ xs, ∀ y ∈ ys, key x < key y

variable {key : ε → κ} {xs ys xs' ys' : List ε}

theorem ascending_append : Ascending key (xs ++ ys) ↔
    Ascending key xs ∧ Ascending key ys ∧ Before key xs ys := pairwise_append

theorem Apart.symm {x y : ε} (h : Apart key x y) : Apart key y x := Or.symm h

theorem not_apart_self (x : ε) : ¬ Apart key x x := fun h => h.elim (lt_irrefl _) (lt_irrefl _)

theorem Ascending.nodup (h : Ascending key xs) : xs.Nodup := by
  refine List.Pairwise.imp (fun {x y} (hlt : key x < key y) => ?_) h
  rintro rfl
  exact lt_irrefl _ hlt

/-- An ascending list is determined by its elements. -/
theorem Ascending.ext (h : Ascending key xs) (h' : Ascending key ys) (hmem : ∀ x, x ∈ xs ↔ x ∈ ys) : xs = ys :=
  List.Perm.eq_of_pairwise (fun _ _ _ _ hlt hgt => absurd hgt (lt_asymm hlt)) h h'
    ((perm_ext_iff_of_nodup h.nodup h'.nodup).2 hmem)

variable [DecidableLT κ]

instance (x y : ε) : Decidable (Apart key x y) := inferInstanceAs (Decidable (_ ∨ _))

/-- The elements of `ys` and those of `xs` that are equivalent to none of them. -/
def union (key : ε → κ) (xs ys : List ε) : List ε :=
  (xs.filter fun x => ∀ y ∈ ys, Apart key x y).merge ys fun x y => ¬ key y < key x

@[simp] theorem mem_union {z : ε} : z ∈ union key xs ys ↔ (z ∈ xs ∧ ∀ y ∈ ys, Apart key z y) ∨ z ∈ ys := by
  rw [union, mem_merge, mem_filter, decide_eq_true_iff]

variable [Std.Total (α := κ) (· ≤ ·)]

omit [DecidableLT κ] in
theorem le_of_not_lt {a b : κ} (h : ¬ a < b) : b ≤ a := by
  rcases Std.Total.total (r := (· ≤ ·)) a b with hab | hba
  · by_contra hnot
    exact h (lt_of_le_not_ge hab hnot)
  · exact hba

theorem ascending_union (hx : Ascending key xs) (hy : Ascending key ys) : Ascending key (union key xs ys) := by
  have hxs : Ascending key (xs.filter fun x => ∀ y ∈ ys, Apart key x y) := hx.filter _
  have hle : ∀ {zs : List ε}, Ascending key zs → zs.Pairwise fun x y => (decide ¬ key y < key x) = true :=
    fun h => h.imp fun hlt => decide_eq_true (lt_asymm hlt)
  have hmerge : (union key xs ys).Pairwise fun x y => (decide ¬ key y < key x) = true := by
    refine pairwise_merge (fun a b c hab hbc => ?_) (fun a b => ?_) _ _ (hle hxs) (hle hy)
    · rw [decide_eq_true_iff] at hab hbc ⊢
      exact fun hca => hab (lt_of_le_of_lt (le_of_not_lt hbc) hca)
    · rw [Bool.or_eq_true, decide_eq_true_iff, decide_eq_true_iff, ← not_and_or]
      exact fun h => lt_asymm h.1 h.2
  have hapart : (union key xs ys).Pairwise (Apart key) := by
    refine (List.Perm.pairwise_iff Apart.symm (merge_perm_append _)).2 ?_
    refine pairwise_append.2 ⟨hxs.imp .inl, hy.imp .inl, fun x hx y hy => ?_⟩
    exact of_decide_eq_true (mem_filter.1 hx).2 y hy
  refine (hmerge.and hapart).imp fun h => ?_
  exact h.2.resolve_right (of_decide_eq_true h.1)

omit [Std.Total (α := κ) (· ≤ ·)] in
@[simp] theorem union_nil_left : union key [] ys = ys := by simp [union]

omit [Std.Total (α := κ) (· ≤ ·)] in
@[simp] theorem union_nil_right : union key xs [] = xs := by simp [union]

omit [Std.Total (α := κ) (· ≤ ·)] in
theorem union_eq_nil (h : union key xs ys = []) : xs = [] ∧ ys = [] := by
  have hys : ys = [] := eq_nil_iff_forall_not_mem.2 fun y hy =>
    not_mem_nil (h ▸ mem_union.2 (.inr hy))
  refine ⟨?_, hys⟩
  rwa [hys, union_nil_right] at h

/-- The union may be taken apart between keys. -/
theorem union_append (hx : Ascending key (xs ++ xs')) (hy : Ascending key (ys ++ ys'))
    (hxy : Before key xs ys') (hyx : Before key ys xs') :
    union key (xs ++ xs') (ys ++ ys') = union key xs ys ++ union key xs' ys' := by
  obtain ⟨hx₁, hx₂, hxx⟩ := ascending_append.1 hx
  obtain ⟨hy₁, hy₂, hyy⟩ := ascending_append.1 hy
  refine (ascending_union hx hy).ext (ascending_append.2
    ⟨ascending_union hx₁ hy₁, ascending_union hx₂ hy₂, ?_⟩) fun z => ?_
  · intro x hx y hy
    rcases mem_union.1 hx with hx | hx <;> rcases mem_union.1 hy with hy | hy
    · exact hxx x hx.1 y hy.1
    · exact hxy x hx.1 y hy
    · exact hyx x hx y hy.1
    · exact hyy x hx y hy
  · rw [mem_append, mem_union, mem_union, mem_union, mem_append, mem_append, forall_mem_append]
    constructor
    · rintro (⟨hz | hz, h₁, h₂⟩ | hz | hz)
      · exact .inl (.inl ⟨hz, h₁⟩)
      · exact .inr (.inl ⟨hz, h₂⟩)
      · exact .inl (.inr hz)
      · exact .inr (.inr hz)
    · rintro ((⟨hz, h₁⟩ | hz) | ⟨hz, h₂⟩ | hz)
      · exact .inl ⟨.inl hz, h₁, fun y hy => .inl (hxy z hz y hy)⟩
      · exact .inr (.inl hz)
      · exact .inl ⟨.inr hz, fun y hy => .inr (hyx y hy z hz), h₂⟩
      · exact .inr (.inr hz)

theorem union_of_before (h : Before key xs ys) (hx : Ascending key xs) (hy : Ascending key ys) :
    union key xs ys = xs ++ ys := by
  have hu := @union_append _ _ _ _ xs [] [] ys _ _ (by simpa using hx) hy h nofun
  simpa using hu

theorem union_of_after (h : Before key ys xs) (hx : Ascending key xs) (hy : Ascending key ys) :
    union key xs ys = ys ++ xs := by
  have hu := @union_append _ _ _ _ [] ys xs [] _ _ hx (by simpa using hy) nofun h
  simpa using hu

/-! ## Cutting a list at a key -/

omit [Std.Total (α := κ) (· ≤ ·)] in
theorem lt_of_mem_takeWhile {k : κ} {x : ε} (hx : x ∈ xs.takeWhile fun x => key x < k) : key x < k :=
  of_decide_eq_true (mem_takeWhile_imp (p := fun x => decide (key x < k)) hx)

omit [Std.Total (α := κ) (· ≤ ·)] in
/-- From the first element that is not below the key on, none is. -/
theorem not_lt_of_mem_dropWhile (h : Ascending key xs) {k : κ} {x : ε}
    (hx : x ∈ xs.dropWhile fun x => key x < k) : ¬ key x < k := by
  induction xs with
  | nil => cases hx
  | cons y ys ih =>
    obtain ⟨hy, hys⟩ := pairwise_cons.1 h
    by_cases hlt : key y < k
    · rw [dropWhile_cons_of_pos (by simpa using hlt)] at hx
      exact ih hys hx
    · rw [dropWhile_cons_of_neg (by simpa using hlt)] at hx
      rcases mem_cons.1 hx with rfl | hx
      · exact hlt
      · exact fun hxk => hlt ((hy x hx).trans hxk)

theorem take_takeWhile {p : ε → Bool} : xs.take (xs.takeWhile p).length = xs.takeWhile p :=
  (prefix_iff_eq_take.1 (List.takeWhile_prefix p)).symm

theorem drop_takeWhile {p : ε → Bool} : xs.drop (xs.takeWhile p).length = xs.dropWhile p := by
  have h := take_append_drop (xs.takeWhile p).length xs
  rw [take_takeWhile] at h
  exact append_cancel_left (h.trans takeWhile_append_dropWhile.symm)

end KeyOrder
