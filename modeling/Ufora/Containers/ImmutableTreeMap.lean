import Ufora.Containers.ImmutableTreeSet

/-!
# `ImmutableTreeMap`

`core/containers/ImmutableTreeMap.hppml`: the trees of `ImmutableTreeSet` with a value for each key. Every
composition of its functions ends, in a balanced tree whose nodes hold what they should, and lookup answers as
the finite map does that the functions stand for (`answers_of_fits`), as long as no map has 2^32 keys:
the size of that one is 0 (`not_answers`).
-/

open Fuel KeyOrder ImmutableTree Option Prod List.Pairwise Element

/-- An `ImmutableTreeMap`. -/
structure ImmutableTreeMap (κ ν : Type) where
  mElement : Element κ (κ × ν) := .empty

namespace ImmutableTreeMap

/-- The key of a pair. -/
def kind (κ ν : Type) : Kind κ (κ × ν) := ⟨fst, false⟩

section
variable {κ ν : Type}

/-- `size()`. -/
def size (m : ImmutableTreeMap κ ν) : ℕ := m.mElement.size

variable (m : ImmutableTreeMap κ ν)

/-- `pairAtPosition(inIndex)`. -/
def pairAtPosition (inIndex : ℕ) : Option (κ × ν) := at? m.mElement inIndex

variable [LT κ] [DecidableLT κ]

/-- `lowerBound(in)`. -/
def lowerBound (key : κ) : Option ℕ := lowerBoundOf (kind κ ν) m.mElement key

/-- `positionFor(inKey)`. -/
def positionFor (inKey : κ) : Option (Option ℕ) := (m.lowerBound inKey).bind fun ix =>
    if m.size ≤ ix then some none
    else (m.pairAtPosition ix).map fun v => if ¬ v.1 < inKey ∧ ¬ inKey < v.1 then some ix else none

/-- `operator[](inKey)`. -/
def lookup (inKey : κ) : Option (Option ν) := (m.lowerBound inKey).bind fun ix =>
    if m.size ≤ ix then some none
    else (m.pairAtPosition ix).map fun v => if ¬ v.1 < inKey ∧ ¬ inKey < v.1 then some v.2 else none

/-- `contains(t)`. -/
def contains (m : ImmutableTreeMap κ ν) (t : κ) : Option Bool := ImmutableTree.contains (kind κ ν) m.mElement t

/-- `*this + in`, for a pair. -/
def insert (limit : ℕ) (m : ImmutableTreeMap κ ν) (pair : κ × ν) : Option (ImmutableTreeMap κ ν) :=
  (node (kind κ ν) limit m.mElement (.leaf pair)).map .mk

/-- `*this + in`, for a map. -/
def union (limit : ℕ) (m n : ImmutableTreeMap κ ν) : Option (ImmutableTreeMap κ ν) :=
  (node (kind κ ν) limit m.mElement n.mElement).map .mk

/-- `slice(left, right)`. -/
def slice (limit : ℕ) (m : ImmutableTreeMap κ ν) (left right : ℕ) : Option (ImmutableTreeMap κ ν) :=
  (ImmutableTree.slice (kind κ ν) limit m.mElement left right).map .mk

/-- `lhs - rhs`, for a key. -/
def remove (limit : ℕ) (lhs : ImmutableTreeMap κ ν) (rhs : κ) : Option (ImmutableTreeMap κ ν) :=
  (ImmutableTree.remove (kind κ ν) limit lhs.mElement rhs).map .mk

/-- `lhs - rhs`, for a set of keys. -/
def difference (limit : ℕ) (lhs : ImmutableTreeMap κ ν) (rhs : ImmutableTreeSet κ) : Option (ImmutableTreeMap κ ν) :=
  (removeEach (kind κ ν) limit rhs.get (List.range rhs.size) lhs.mElement).map .mk

end

/-! ## Compositions -/

/-- A composition of the functions that make maps. -/
inductive Expr (κ ν : Type) where
  | empty
  | single (key : κ) (value : ν)
  | insert (m : Expr κ ν) (key : κ) (value : ν)
  | union (m n : Expr κ ν)
  | slice (m : Expr κ ν) (left right : ℕ)
  | remove (m : Expr κ ν) (key : κ)
  | difference (m : Expr κ ν) (keys : ImmutableTreeSet.Expr κ)

namespace Expr

/-- The map that the functions make. -/
def eval {κ ν : Type} [LT κ] [DecidableLT κ] : Expr κ ν → ℕ → Option (ImmutableTreeMap κ ν)
  | empty, _ => some {}
  | single key value, _ => some { mElement := .leaf (key, value) }
  | insert m key value, limit => (m.eval limit).bind fun m => m.insert limit (key, value)
  | union m n, limit => (m.eval limit).bind fun m => (n.eval limit).bind fun n => m.union limit n
  | slice m left right, limit => (m.eval limit).bind fun m => m.slice limit left right
  | remove m key, limit => (m.eval limit).bind fun m => m.remove limit key
  | difference m keys, limit =>
    (m.eval limit).bind fun m => (keys.eval limit).bind fun keys => m.difference limit keys

variable {κ ν : Type} [LinearOrder κ]

/-- The pairs that it should have, in the order of the keys. -/
def denote : Expr κ ν → List (κ × ν)
  | empty => []
  | single key value => [(key, value)]
  | insert m key value => KeyOrder.union fst m.denote [(key, value)]
  | union m n => KeyOrder.union fst m.denote n.denote
  | slice m left right => extract m.denote left right
  | remove m key => m.denote.filter fun pair => pair.1 ≠ key
  | difference m keys => m.denote.filter fun pair => pair.1 ∉ keys.denote

/-- The finite map that it stands for: the right one of two maps has its values, and a slice has the keys with
so many keys below them. -/
def lookup : Expr κ ν → κ → Option ν
  | empty, _ => none
  | single key value, k => if k = key then some value else none
  | insert m key value, k => if k = key then some value else m.lookup k
  | union m n, k => (n.lookup k).or (m.lookup k)
  | slice m left right, k =>
    if left ≤ (m.denote.filter fun pair => pair.1 < k).length ∧
        (m.denote.filter fun pair => pair.1 < k).length < right then m.lookup k else none
  | remove m key, k => if k = key then none else m.lookup k
  | difference m keys, k => if k ∈ keys.denote then none else m.lookup k

/-- No map and no set on the way has more keys than a `uint32_t` can count. -/
def Fits : Expr κ ν → Prop
  | empty => True
  | single _ _ => True
  | insert m key value => m.Fits ∧ (insert m key value).denote.length < 2 ^ 32
  | union m n => m.Fits ∧ n.Fits ∧ (union m n).denote.length < 2 ^ 32
  | slice m _ _ => m.Fits
  | remove m _ => m.Fits
  | difference m keys => m.Fits ∧ keys.Fits

end Expr

section
variable {κ ν : Type} [LinearOrder κ]

/-- The map is a balanced tree of these pairs whose nodes hold what they should, with ascending keys. -/
structure Represents (m : ImmutableTreeMap κ ν) (pairs : List (κ × ν)) : Prop where
  wellFormed : m.mElement.WellFormed (kind κ ν)
  ascending : pairs.Pairwise fun pair pair' => pair.1 < pair'.1
  toList_eq : m.mElement.toList = pairs
  size : m.size = pairs.length
  pairAtPosition : ∀ inIndex, m.pairAtPosition inIndex = pairs[inIndex]?

/-- The map answers as the finite map does. -/
structure Answers (m : ImmutableTreeMap κ ν) (lookup : κ → Option ν) : Prop where
  lookup_eq : ∀ inKey, m.lookup inKey = some (lookup inKey)
  contains_eq : ∀ t, m.contains t = some (lookup t).isSome
  positionFor_eq : ∀ inKey, ∃ position, m.positionFor inKey = some position ∧
    ∀ v, lookup inKey = some v ↔ ∃ ix, position = some ix ∧ m.pairAtPosition ix = some (inKey, v)

/-- The functions end, with the map that they stand for. -/
def Expr.Correct (e : Expr κ ν) : Prop := ∃ m, Yields e.eval m ∧ Represents m e.denote ∧ Answers m e.lookup

variable {m : ImmutableTreeMap κ ν} {pairs : List (κ × ν)} {lookup : κ → Option ν}

theorem represents_of_valid (h : m.mElement.Valid (kind κ ν)) : Represents m m.mElement.toList where
  wellFormed := by
    rcases h.good with he | hgood
    · rw [he]
      trivial
    · exact hgood.wellFormed h.length_lt
  ascending := h.ascending
  toList_eq := rfl
  size := h.size_eq
  pairAtPosition := h.at?_eq

/-- The function looks the keys of the pairs up. -/
def Looks (lookup : κ → Option ν) (pairs : List (κ × ν)) : Prop := ∀ k v, lookup k = some v ↔ (k, v) ∈ pairs

theorem matches_iff {k : κ} {pair : κ × ν} : Matches (kind κ ν) k pair ↔ pair.1 = k :=
  ⟨fun h => le_antisymm (not_lt.1 h.2) (not_lt.1 h.1), fun h => h ▸ ⟨lt_irrefl _, lt_irrefl _⟩⟩

/-- Where a key is, and where it would be. -/
theorem exists_position (h : m.mElement.Valid (kind κ ν)) (hl : Looks lookup m.mElement.toList)
    (k : κ) : (∃ ix v, m.lowerBound k = some ix ∧ ix < m.size ∧ m.pairAtPosition ix = some (k, v) ∧ lookup k = some v) ∨
      lookup k = none ∧ ∃ ix, m.lowerBound k = some ix ∧ (m.size ≤ ix ∨
        ∃ pair, m.pairAtPosition ix = some pair ∧ pair.1 ≠ k) := by
  have hbound : m.lowerBound k = _ := h.lowerBoundOf_eq k
  have hsize : m.size = m.mElement.toList.length := h.size_eq
  have hat : ∀ ix, m.pairAtPosition ix = m.mElement.toList[ix]? := h.at?_eq
  by_cases hk : ∃ x ∈ m.mElement.toList, Matches (kind κ ν) k x
  · obtain ⟨lower, ⟨k', v⟩, upper, hlist, htake, hx, -, -⟩ := exists_split h.ascending hk
    obtain rfl : k' = k := matches_iff.1 hx
    refine .inl ⟨_, v, hbound, ?_, ?_, (hl _ _).2 (hlist ▸ by simp)⟩
    · rw [htake, hsize, hlist, List.length_append, List.length_cons]
      omega
    · rw [htake, hat, hlist, List.getElem?_append_right le_rfl, Nat.sub_self, List.getElem?_cons_zero]
  · refine .inr ⟨eq_none_iff_forall_ne_some.2 fun v hv => ?_, _, hbound, ?_⟩
    · exact hk ⟨_, (hl k v).1 hv, matches_iff.2 rfl⟩
    · rw [hsize]
      refine (le_or_gt _ _).imp_right fun hlt => ⟨_, (hat _).trans (List.getElem?_eq_getElem hlt), ?_⟩
      exact fun he => hk ⟨_, List.getElem_mem hlt, matches_iff.2 he⟩

theorem answers_of_valid (h : m.mElement.Valid (kind κ ν)) (hl : Looks lookup m.mElement.toList) :
    Answers m lookup where
  lookup_eq := by
    intro k
    rw [ImmutableTreeMap.lookup]
    obtain ⟨ix, v, hbound, hlt, hat, hv⟩ | ⟨hnone, ix, hbound, hend⟩ := exists_position h hl k
    · rw [hbound, hv, bind_some, if_neg (by omega), hat]
      exact congrArg some (if_pos ⟨lt_irrefl k, lt_irrefl k⟩)
    · rw [hbound, hnone, bind_some]
      obtain hle | ⟨pair, hat, hne⟩ := hend
      · rw [if_pos hle]
      · split
        · rfl
        · rw [hat]
          exact congrArg some (if_neg fun hm => hne (matches_iff.1 hm))
  contains_eq := by
    intro k
    rw [ImmutableTreeMap.contains, h.contains_eq]
    refine congrArg some ?_
    rw [Bool.eq_iff_iff, decide_eq_true_iff, isSome_iff_exists]
    constructor
    · rintro ⟨⟨k', v⟩, hx, hm⟩
      obtain rfl : k' = k := matches_iff.1 hm
      exact ⟨v, (hl _ _).2 hx⟩
    · rintro ⟨v, hv⟩
      exact ⟨(k, v), (hl k v).1 hv, matches_iff.2 rfl⟩
  positionFor_eq := by
    intro k
    rw [positionFor]
    obtain ⟨ix, v, hbound, hlt, hat, hv⟩ | ⟨hnone, ix, hbound, hend⟩ := exists_position h hl k
    · refine ⟨some ix, ?_, fun v' => ?_⟩
      · rw [hbound, bind_some, if_neg (by omega), hat]
        exact congrArg some (if_pos ⟨lt_irrefl k, lt_irrefl k⟩)
      · rw [hv]
        constructor
        · rintro ⟨⟩
          exact ⟨ix, rfl, hat⟩
        · rintro ⟨_, ⟨⟩, hv'⟩
          rw [hat] at hv'
          obtain ⟨⟩ := hv'
          rfl
    · refine ⟨none, ?_, fun v' => ?_⟩
      · rw [hbound, bind_some]
        obtain hle | ⟨pair, hat, hne⟩ := hend
        · rw [if_pos hle]
        · split
          · rfl
          · rw [hat]
            exact congrArg some (if_neg fun hm => hne (matches_iff.1 hm))
      · rw [hnone]
        exact iff_of_false nofun fun ⟨_, h, _⟩ => nomatch h

end

/-! ## Every composition -/

section
variable {κ ν : Type} [LinearOrder κ]

theorem Expr.eval_yields (e : Expr κ ν) (h : e.Fits) : ∃ m, Yields e.eval m ∧
    m.mElement.Valid (kind κ ν) ∧ m.mElement.toList = e.denote := by
  induction e with
  | empty => exact ⟨{}, yields_some, valid_empty, rfl⟩
  | single key value => exact ⟨_, yields_some, valid_leaf (key, value), rfl⟩
  | insert m key value ih =>
    obtain ⟨t, ht, hv, hlist⟩ := ih h.1
    obtain ⟨u, hu, hvu, hlu⟩ := node_yields hv (@valid_leaf _ _ _ (kind κ ν) (key, value)) (by rw [hlist]; exact h.2)
    refine ⟨⟨u⟩, ?_, hvu, by rw [hlu, hlist]; rfl⟩
    exact (ht.bind (g := fun t limit => t.insert limit (key, value)) (hu.map mk)).congr fun _ => rfl
  | union m n ih ih' =>
    obtain ⟨t, ht, hv, hlist⟩ := ih h.1
    obtain ⟨t', ht', hv', hlist'⟩ := ih' h.2.1
    obtain ⟨u, hu, hvu, hlu⟩ := node_yields hv hv' (by rw [hlist, hlist']; exact h.2.2)
    refine ⟨⟨u⟩, ?_, hvu, by rw [hlu, hlist, hlist']; rfl⟩
    have hyields := ht'.bind (g := fun t' limit => t.union limit t') (hu.map mk)
    exact (ht.bind (g := fun t limit => (n.eval limit).bind fun t' => t.union limit t') hyields).congr fun _ => rfl
  | slice m left right ih =>
    obtain ⟨t, ht, hv, hlist⟩ := ih h
    obtain ⟨u, hu, hvu, hlu⟩ := slice_yields hv left right
    refine ⟨⟨u⟩, ?_, hvu, by rw [hlu, hlist]; rfl⟩
    exact (ht.bind (g := fun t limit => t.slice limit left right) (hu.map mk)).congr fun _ => rfl
  | remove m key ih =>
    obtain ⟨t, ht, hv, hlist⟩ := ih h
    obtain ⟨u, hu, hvu, hlu⟩ := remove_yields hv key
    refine ⟨⟨u⟩, ?_, hvu, ?_⟩
    · exact (ht.bind (g := fun t limit => t.remove limit key) (hu.map mk)).congr fun _ => rfl
    · rw [hlu, hlist]
      exact List.filter_congr fun x _ => decide_eq_decide.2 (not_congr matches_iff)
  | difference m keys ih =>
    obtain ⟨t, ht, hv, hlist⟩ := ih h.1
    obtain ⟨ks, hks, hvks, hlks⟩ := keys.eval_yields h.2
    obtain ⟨u, hu, hvu, hlu⟩ := removeEach_yields ks.get (List.range ks.size) _ hvks.map_at? hv
    refine ⟨⟨u⟩, ?_, hvu, ?_⟩
    · have hyields := hks.bind (g := fun ks limit => t.difference limit ks) (hu.map mk)
      exact (ht.bind (g := fun t limit => (keys.eval limit).bind fun ks => t.difference limit ks)
        hyields).congr fun _ => rfl
    · rw [hlu, hlist, hlks, denote]
      refine List.filter_congr fun x _ => ?_
      rw [decide_eq_decide]
      refine ⟨fun hall hmem => hall _ hmem (matches_iff.2 rfl), fun hnot k hk hm => hnot ?_⟩
      exact matches_iff.1 hm ▸ hk

theorem Expr.ascending_denote (e : Expr κ ν) : Ascending fst e.denote := by
  induction e with
  | empty => exact .nil
  | single key value => exact List.pairwise_singleton _ _
  | insert m key value ih => exact ascending_union ih (List.pairwise_singleton _ _)
  | union m n ih ih' => exact ascending_union ih ih'
  | slice m left right ih => exact sublist (extract_sublist _ _ _) ih
  | remove m _ ih | difference m _ ih => exact filter _ ih

/-- So many keys are below the one at an index. -/
theorem length_filter_lt {pairs : List (κ × ν)} (h : Ascending fst pairs) {i : ℕ} {pair : κ × ν}
    (hi : pairs[i]? = some pair) : (pairs.filter fun pair' => pair'.1 < pair.1).length = i := by
  obtain ⟨hlt, rfl⟩ := List.getElem?_eq_some_iff.1 hi
  have hsplit : pairs.take i ++ pairs[i] :: pairs.drop (i + 1) = pairs := by
    rw [← List.drop_eq_getElem_cons hlt, List.take_append_drop]
  have hasc := ascending_append.1 (hsplit ▸ h)
  have hlower : (pairs.take i).filter (fun pair' => pair'.1 < pairs[i].1) = pairs.take i :=
    List.filter_eq_self.2 fun x hx => decide_eq_true (hasc.2.2 x hx _ (.head _))
  have hupper : (pairs[i] :: pairs.drop (i + 1)).filter (fun pair' => pair'.1 < pairs[i].1) = [] := by
    refine List.filter_eq_nil_iff.2 fun x hx hxlt => ?_
    rcases List.mem_cons.1 hx with rfl | hx
    · exact lt_irrefl _ (of_decide_eq_true hxlt)
    · exact lt_asymm (of_decide_eq_true hxlt) ((List.pairwise_cons.1 hasc.2.1).1 x hx)
  have hcount := congrArg (fun l => (l.filter fun pair' => decide (pair'.1 < pairs[i].1)).length) hsplit
  rw [← hcount]
  rw [List.filter_append, hlower, hupper, List.append_nil, List.length_take, Nat.min_eq_left hlt.le]

/-- A slice has the pairs with so many keys below theirs. -/
theorem mem_extract {pairs : List (κ × ν)} (h : Ascending fst pairs) {left right : ℕ}
    {pair : κ × ν} : pair ∈ extract pairs left right ↔
      pair ∈ pairs ∧ left ≤ (pairs.filter fun pair' => pair'.1 < pair.1).length ∧
        (pairs.filter fun pair' => pair'.1 < pair.1).length < right := by
  rw [extract, List.mem_iff_getElem?, List.mem_iff_getElem?]
  constructor
  · rintro ⟨i, hi⟩
    rw [List.getElem?_take] at hi
    split at hi
    · next hlt =>
      rw [List.getElem?_drop] at hi
      rw [length_filter_lt h hi]
      exact ⟨⟨_, hi⟩, by omega, by omega⟩
    · cases hi
  · rintro ⟨⟨i, hi⟩, hleft, hright⟩
    rw [length_filter_lt h hi] at hleft hright
    refine ⟨i - left, ?_⟩
    rw [List.getElem?_take, if_pos (by omega), List.getElem?_drop, Nat.add_sub_cancel' hleft]
    exact hi

/-- The pairs are those of the finite map. -/
theorem Expr.looks (e : Expr κ ν) : Looks e.lookup e.denote := by
  induction e with
  | empty => exact fun k v => iff_of_false nofun List.not_mem_nil
  | single key value =>
    intro k v
    rw [lookup, denote, List.mem_singleton, Prod.mk.injEq]
    split
    · next hk => rw [some.injEq, and_iff_right hk, eq_comm]
    · next hk => exact iff_of_false nofun fun he => hk he.1
  | insert m key value ih =>
    intro k v
    rw [lookup, denote, mem_union, List.mem_singleton, Prod.mk.injEq, ← ih]
    split
    · next hk =>
      subst hk
      rw [some.injEq, and_iff_right rfl, or_iff_right, eq_comm]
      exact fun h => @not_apart_self _ _ _ fst (k, v) (h.2 (k, value) (.head _))
    · next hk =>
      rw [or_iff_left fun he => hk he.1, and_iff_left]
      intro y hy
      rw [List.mem_singleton.1 hy]
      exact lt_or_gt_of_ne hk
  | union m n ih ih' =>
    intro k v
    rw [lookup, denote, mem_union, or_eq_some_iff, ih' k v, ih k v, or_comm]
    refine or_congr_left ?_
    rw [and_comm]
    refine and_congr_right fun _ => ?_
    rw [eq_none_iff_forall_ne_some]
    constructor
    · intro hnone y hy
      refine lt_or_gt_of_ne fun he => hnone y.2 ((ih' k y.2).2 ?_)
      rw [show k = y.1 from he]
      exact hy
    · exact fun hapart w hw => (hapart (k, w) ((ih' k w).1 hw)).elim (lt_irrefl k) (lt_irrefl k)
  | slice m left right ih =>
    intro k v
    rw [lookup, denote, mem_extract m.ascending_denote, ← ih]
    split
    · next hpos => exact (and_iff_left hpos).symm
    · next hpos => exact iff_of_false nofun fun h => hpos h.2
  | remove m _ ih | difference m _ ih =>
    intro k v
    rw [lookup, denote, List.mem_filter, ← ih, decide_eq_true_iff]
    split
    · next hk => exact iff_of_false nofun fun h => h.2 hk
    · next hk => exact (and_iff_left hk).symm

/-- Every composition of the functions ends, in a balanced tree of the pairs of the finite map that it stands for,
as long as no map on the way has 2^32 keys. -/
theorem answers_of_fits (e : Expr κ ν) (h : e.Fits) : e.Correct := by
  obtain ⟨m, hm, hv, hlist⟩ := e.eval_yields h
  exact ⟨m, hm, hlist ▸ represents_of_valid hv, answers_of_valid hv (hlist ▸ e.looks)⟩

end

/-- Of two maps that overlap, the right one has its value. -/
theorem answers_of_fits_two : (Expr.union (.insert (.single 2 10) 1 20) (.remove (.insert (.single 3 30) 2 40) 3) :
      Expr ℕ ℕ).Correct :=
  answers_of_fits _ (by simp [Expr.Fits, Expr.denote, KeyOrder.union, Apart])

/-! ## More keys than the size can count -/

/-- The map of the numbers below `n`. -/
def Expr.upTo : ℕ → Expr ℕ Unit
  | 0 => .empty
  | n + 1 => .insert (upTo n) n ()

/-- The pairs of that map. -/
def rangePairs (n : ℕ) : List (ℕ × Unit) := (List.range n).map fun k => (k, ())

theorem before_rangePairs (n : ℕ) : Before fst (rangePairs n) [(n, ())] := by
  intro x hx y hy
  obtain ⟨k, hk, rfl⟩ := List.mem_map.1 hx
  obtain rfl := List.mem_singleton.1 hy
  exact List.mem_range.1 hk

@[simp] theorem Expr.denote_upTo (n : ℕ) : (upTo n).denote = rangePairs n := by
  induction n with
  | zero => rfl
  | succ n ih =>
    have hasc := ih ▸ (upTo n).ascending_denote
    rw [upTo, denote, ih, union_of_before (before_rangePairs n) hasc (List.pairwise_singleton _ _),
      rangePairs, rangePairs, List.range_succ, List.map_append]
    rfl

theorem Expr.fits_upTo {n : ℕ} (h : n < 2 ^ 32) : (upTo n).Fits := by
  induction n with
  | zero => trivial
  | succ n ih =>
    refine ⟨ih (by omega), ?_⟩
    show (upTo (n + 1)).denote.length < 2 ^ 32
    rw [denote_upTo, rangePairs, List.length_map, List.length_range]
    exact h

/-- The last insertion makes a map whose size is 0. -/
theorem not_correct_of_eq {n : ℕ} (hn : n = 2 ^ 32) : ¬ (Expr.upTo n).Correct := by
  rintro ⟨m, hm, hr, -⟩
  obtain ⟨n, rfl⟩ : ∃ m, n = m + 1 := ⟨n - 1, by omega⟩
  obtain ⟨t, ht, hv, hlist⟩ := (Expr.upTo n).eval_yields (Expr.fits_upTo (by omega))
  rw [Expr.denote_upTo] at hlist
  have hlen : t.mElement.toList.length + 1 = 2 ^ 32 := by
    rw [hlist, rangePairs, List.length_map, List.length_range, hn]
  obtain ⟨u, hu, hzero⟩ := node_overflow hv hlen (hlist ▸ before_rangePairs n)
  have hyields : Yields (Expr.upTo (n + 1)).eval ⟨u⟩ :=
    (ht.bind (g := fun t limit => t.insert limit (n, ())) (hu.map mk)).congr fun _ => rfl
  obtain rfl := hm.unique hyields
  have hsize : u.size = _ := hr.size
  rw [Expr.denote_upTo, rangePairs, List.length_map, List.length_range, hzero] at hsize
  omega

/-- Of the map of the numbers below 2^32 the size is not right. -/
theorem not_answers : ¬ (Expr.upTo (2 ^ 32)).Correct := not_correct_of_eq rfl

end ImmutableTreeMap
