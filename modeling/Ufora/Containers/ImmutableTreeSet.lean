import Ufora.Containers.Removal

/-!
# `ImmutableTreeSet`

`core/containers/ImmutableTreeSet.hppml`: every composition of its functions ends, in a balanced tree whose nodes
hold what they should and whose elements are those of the set (`represents_of_fits`), as long as no set has
2^32 elements: the size of that one is 0 (`not_represents`).
-/

open Fuel KeyOrder ImmutableTree Element

/-- An `ImmutableTreeSet`. -/
structure ImmutableTreeSet (α : Type) where
  mElement : Element α α := .empty

namespace ImmutableTreeSet

/-- An element is its own key. -/
def kind (α : Type) : Kind α α := ⟨id, true⟩

section
variable {α : Type}

/-- `size()`. -/
def size (s : ImmutableTreeSet α) : ℕ := s.mElement.size

/-- `height()`. -/
def height (s : ImmutableTreeSet α) : ℕ := s.mElement.height

/-- `operator[](inIndex)`. -/
def get (s : ImmutableTreeSet α) (inIndex : ℕ) : Option α := at? s.mElement inIndex

variable [LT α] [DecidableLT α]

/-- `lowerBound(in)`. -/
def lowerBound (s : ImmutableTreeSet α) (value : α) : Option ℕ := lowerBoundOf (kind α) s.mElement value

/-- `contains(t)`. -/
def contains (s : ImmutableTreeSet α) (t : α) : Option Bool := ImmutableTree.contains (kind α) s.mElement t

/-- `*this + in`, for an element. -/
def insert (limit : ℕ) (s : ImmutableTreeSet α) (value : α) : Option (ImmutableTreeSet α) :=
  (node (kind α) limit s.mElement (.leaf value)).map .mk

/-- `*this + in`, for a set. -/
def union (limit : ℕ) (s t : ImmutableTreeSet α) : Option (ImmutableTreeSet α) :=
  (node (kind α) limit s.mElement t.mElement).map .mk

/-- `slice(left, right)`. -/
def slice (limit : ℕ) (s : ImmutableTreeSet α) (left right : ℕ) : Option (ImmutableTreeSet α) :=
  (ImmutableTree.slice (kind α) limit s.mElement left right).map .mk

/-- `lhs - rhs`, for an element. -/
def remove (limit : ℕ) (lhs : ImmutableTreeSet α) (rhs : α) : Option (ImmutableTreeSet α) :=
  (ImmutableTree.remove (kind α) limit lhs.mElement rhs).map .mk

/-- `lhs - rhs`, for a set. -/
def difference (limit : ℕ) (lhs rhs : ImmutableTreeSet α) : Option (ImmutableTreeSet α) :=
  (removeEach (kind α) limit rhs.get (List.range rhs.size) lhs.mElement).map .mk

end

/-! ## Compositions -/

/-- A composition of the functions that make sets. -/
inductive Expr (α : Type) where
  | empty
  | single (value : α)
  | insert (s : Expr α) (value : α)
  | union (s t : Expr α)
  | slice (s : Expr α) (left right : ℕ)
  | remove (s : Expr α) (value : α)
  | difference (s t : Expr α)

namespace Expr

section
variable {α : Type} [LT α] [DecidableLT α]

/-- The set that the functions make. -/
def eval : Expr α → ℕ → Option (ImmutableTreeSet α)
  | empty, _ => some {}
  | single value, _ => some { mElement := .leaf value }
  | insert s value, limit => (s.eval limit).bind fun s => s.insert limit value
  | union s t, limit => (s.eval limit).bind fun s => (t.eval limit).bind fun t => s.union limit t
  | slice s left right, limit => (s.eval limit).bind fun s => s.slice limit left right
  | remove s value, limit => (s.eval limit).bind fun s => s.remove limit value
  | difference s t, limit =>
    (s.eval limit).bind fun s => (t.eval limit).bind fun t => s.difference limit t

end

variable {α : Type} [Preorder α] [DecidableLT α]

/-- The elements that it should have, in their order. Of equivalent elements, `+` takes the right one. -/
def denote : Expr α → List α
  | empty => []
  | single value => [value]
  | insert s value => KeyOrder.union id s.denote [value]
  | union s t => KeyOrder.union id s.denote t.denote
  | slice s left right => extract s.denote left right
  | remove s value => s.denote.filter fun x => x < value ∨ value < x
  | difference s t => s.denote.filter fun x => ∀ y ∈ t.denote, x < y ∨ y < x

/-- No set on the way has more elements than a `uint32_t` can count. -/
def Fits : Expr α → Prop
  | empty => True
  | single _ => True
  | insert s value => s.Fits ∧ (insert s value).denote.length < 2 ^ 32
  | union s t => s.Fits ∧ t.Fits ∧ (union s t).denote.length < 2 ^ 32
  | slice s _ _ => s.Fits
  | remove s _ => s.Fits
  | difference s t => s.Fits ∧ t.Fits

end Expr

section
variable {α : Type} [Preorder α] [DecidableLT α]

/-- The set is a balanced tree of these elements whose nodes hold what they should, and the functions that
read it answer for the elements. -/
structure Represents (s : ImmutableTreeSet α) (elements : List α) : Prop where
  wellFormed : s.mElement.WellFormed (kind α)
  ascending : elements.Pairwise (· < ·)
  toList_eq : s.mElement.toList = elements
  size : s.size = elements.length
  contains : ∀ t, s.contains t = some (decide (∃ x ∈ elements, ¬ x < t ∧ ¬ t < x))
  lowerBound : ∀ value, s.lowerBound value = some (elements.takeWhile (· < value)).length
  get : ∀ inIndex, s.get inIndex = elements[inIndex]?

/-- The functions end, with the set of the elements that it should have. -/
def Expr.Correct (e : Expr α) : Prop := ∃ s, Yields e.eval s ∧ Represents s e.denote

variable [Std.Total (α := α) (· ≤ ·)] {s : ImmutableTreeSet α} {elements : List α}

theorem represents_of_valid (h : s.mElement.Valid (kind α)) : Represents s s.mElement.toList where
  wellFormed := by
    rcases h.good with he | hgood
    · rw [he]
      trivial
    · exact hgood.wellFormed h.length_lt
  ascending := h.ascending
  toList_eq := rfl
  size := h.size_eq
  contains := h.contains_eq
  lowerBound := h.lowerBoundOf_eq
  get := h.at?_eq

omit [Std.Total (α := α) (· ≤ ·)] in
theorem not_matches_iff {x y : α} : (decide ¬ Matches (kind α) y x) = decide (x < y ∨ y < x) := by
  rw [decide_eq_decide]
  exact (not_and_or.trans (or_congr not_not not_not) :)

theorem Expr.eval_yields (e : Expr α) (h : e.Fits) : ∃ s, Yields e.eval s ∧
    s.mElement.Valid (kind α) ∧ s.mElement.toList = e.denote := by
  induction e with
  | empty => exact ⟨{}, yields_some, valid_empty, rfl⟩
  | single value => exact ⟨_, yields_some, valid_leaf value, rfl⟩
  | insert s value ih =>
    obtain ⟨t, ht, hv, hlist⟩ := ih h.1
    obtain ⟨u, hu, hvu, hlu⟩ := node_yields hv (@valid_leaf _ _ _ (kind α) value) (by rw [hlist]; exact h.2)
    refine ⟨⟨u⟩, ?_, hvu, by rw [hlu, hlist]; rfl⟩
    exact (ht.bind (g := fun t limit => t.insert limit value) (hu.map mk)).congr fun _ => rfl
  | union s s' ih ih' =>
    obtain ⟨t, ht, hv, hlist⟩ := ih h.1
    obtain ⟨t', ht', hv', hlist'⟩ := ih' h.2.1
    obtain ⟨u, hu, hvu, hlu⟩ := node_yields hv hv' (by rw [hlist, hlist']; exact h.2.2)
    refine ⟨⟨u⟩, ?_, hvu, by rw [hlu, hlist, hlist']; rfl⟩
    have hyields := ht'.bind (g := fun t' limit => t.union limit t') (hu.map mk)
    exact (ht.bind (g := fun t limit => (s'.eval limit).bind fun t' => t.union limit t') hyields).congr fun _ => rfl
  | slice s left right ih =>
    obtain ⟨t, ht, hv, hlist⟩ := ih h
    obtain ⟨u, hu, hvu, hlu⟩ := slice_yields hv left right
    refine ⟨⟨u⟩, ?_, hvu, by rw [hlu, hlist]; rfl⟩
    exact (ht.bind (g := fun t limit => t.slice limit left right) (hu.map mk)).congr fun _ => rfl
  | remove s value ih =>
    obtain ⟨t, ht, hv, hlist⟩ := ih h
    obtain ⟨u, hu, hvu, hlu⟩ := remove_yields hv value
    refine ⟨⟨u⟩, ?_, hvu, ?_⟩
    · exact (ht.bind (g := fun t limit => t.remove limit value) (hu.map mk)).congr fun _ => rfl
    · rw [hlu, hlist]
      exact List.filter_congr fun x _ => not_matches_iff
  | difference s s' ih ih' =>
    obtain ⟨t, ht, hv, hlist⟩ := ih h.1
    obtain ⟨t', ht', hv', hlist'⟩ := ih' h.2
    obtain ⟨u, hu, hvu, hlu⟩ := removeEach_yields t'.get (List.range t'.size) _ hv'.map_at? hv
    refine ⟨⟨u⟩, ?_, hvu, ?_⟩
    · have hyields := ht'.bind (g := fun t' limit => t.difference limit t') (hu.map mk)
      exact (ht.bind (g := fun t limit => (s'.eval limit).bind fun t' => t.difference limit t')
        hyields).congr fun _ => rfl
    · rw [hlu, hlist, hlist', denote]
      refine List.filter_congr fun x _ => ?_
      rw [decide_eq_decide]
      exact forall₂_congr fun y _ => decide_eq_decide.1 not_matches_iff

/-- Every composition of the functions ends, in a balanced tree of the elements that it should have, as long as
no set on the way has 2^32 elements. -/
theorem represents_of_fits (e : Expr α) (h : e.Fits) : e.Correct := by
  obtain ⟨s, hs, hv, hlist⟩ := e.eval_yields h
  exact ⟨s, hs, hlist ▸ represents_of_valid hv⟩

/-- Two sets that overlap are united, and one element is removed. -/
theorem represents_of_fits_three :
    (Expr.remove (.union (.insert (.single 2) 1) (.insert (.single 3) 2)) 1 : Expr ℕ).Correct :=
  represents_of_fits _ (by simp [Expr.Fits, Expr.denote, KeyOrder.union, Apart])

end

/-! ## More elements than the size can count -/

/-- The set of the numbers below `n`. -/
def Expr.upTo : ℕ → Expr ℕ
  | 0 => .empty
  | n + 1 => .insert (upTo n) n

theorem before_range (n : ℕ) : Before id (List.range n) [n] := by
  intro x hx y hy
  obtain rfl := List.mem_singleton.1 hy
  exact List.mem_range.1 hx

@[simp] theorem Expr.denote_upTo (n : ℕ) : (upTo n).denote = List.range n := by
  induction n with
  | zero => rfl
  | succ n ih =>
    rw [upTo, denote, ih, List.range_succ]
    exact union_of_before (before_range n) List.pairwise_lt_range (List.pairwise_singleton _ _)

theorem Expr.fits_upTo {n : ℕ} (h : n < 2 ^ 32) : (upTo n).Fits := by
  induction n with
  | zero => trivial
  | succ n ih =>
    refine ⟨ih (by omega), ?_⟩
    show (upTo (n + 1)).denote.length < 2 ^ 32
    rw [denote_upTo, List.length_range]
    exact h

/-- The last insertion makes a set whose size is 0. -/
theorem not_correct_of_eq {n : ℕ} (hn : n = 2 ^ 32) : ¬ (Expr.upTo n).Correct := by
  rintro ⟨s, hs, hr⟩
  obtain ⟨n, rfl⟩ : ∃ m, n = m + 1 := ⟨n - 1, by omega⟩
  obtain ⟨t, ht, hv, hlist⟩ := (Expr.upTo n).eval_yields (Expr.fits_upTo (by omega))
  rw [Expr.denote_upTo] at hlist
  have hlen : t.mElement.toList.length + 1 = 2 ^ 32 := by rw [hlist, List.length_range, hn]
  obtain ⟨u, hu, hzero⟩ := node_overflow hv hlen (hlist ▸ before_range n)
  have hyields : Yields (Expr.upTo (n + 1)).eval ⟨u⟩ :=
    (ht.bind (g := fun t limit => t.insert limit n) (hu.map mk)).congr fun _ => rfl
  obtain rfl := hs.unique hyields
  have hsize : u.size = _ := hr.size
  rw [Expr.denote_upTo, List.length_range, hzero] at hsize
  omega

/-- Of the set of the numbers below 2^32 the size is not right. -/
theorem not_represents : ¬ (Expr.upTo (2 ^ 32)).Correct := not_correct_of_eq rfl

end ImmutableTreeSet
