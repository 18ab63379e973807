import Ufora.Containers.Balance
import Ufora.Lib.KeyOrder

/-!
# Slices and unions of trees

`lowerBound`, `elt`, `slice` and `node` of a well-formed tree do what they say with the list of its elements, as
long as there are fewer than 2^32 of them (`slice_yields`, `node_yields`). `node` takes the two trees
apart at a key, and so does `union` the lists (`union_append`).
-/

open Fuel KeyOrder Nat

namespace ImmutableTree

open Element

variable {κ ε : Type} [Preorder κ] {kind : Kind κ ε}

/-- A tree as the functions leave it. -/
structure Element.Valid (kind : Kind κ ε) (t : Element κ ε) : Prop where
  good : t = .empty ∨ t.Good kind
  ascending : Ascending kind.key t.toList
  length_lt : t.toList.length < 2 ^ 32

variable {t l r : Element κ ε}

theorem Element.valid_empty : (.empty : Element κ ε).Valid kind := ⟨.inl rfl, .nil, by simp [toList]⟩

theorem Element.valid_leaf (x : ε) : (.leaf x : Element κ ε).Valid kind :=
  ⟨.inr trivial, List.pairwise_singleton _ _, by simp [toList]⟩

theorem Element.Valid.size_eq (h : t.Valid kind) : t.size = t.toList.length := by
  rcases h.good with rfl | hgood
  · rfl
  · exact hgood.size_of_lt h.length_lt

theorem Element.Valid.good_of_ne (h : t.Valid kind) (hne : t.toList ≠ []) : t.Good kind := by
  rcases h.good with rfl | hgood
  · exact absurd rfl hne
  · exact hgood

/-- The lowest key is that of an element, and no element has a lower one. -/
theorem Element.Good.lowest_spec (h : t.Good kind) (ha : Ascending kind.key t.toList) :
    ∃ x ∈ t.toList, t.lowest kind = some (kind.key x) ∧ ∀ y ∈ t.toList, kind.key x ≤ kind.key y := by
  rw [h.lowest_eq]
  cases hl : t.toList with
  | nil => exact absurd h.length_pos (by simp [hl])
  | cons x xs =>
    rw [hl] at ha
    refine ⟨x, .head _, rfl, fun y hy => ?_⟩
    rcases List.mem_cons.1 hy with rfl | hy
    · exact le_rfl
    · exact ((List.pairwise_cons.1 ha).1 y hy).le

/-- The highest key is that of an element, and no element has a higher one. -/
theorem Element.Good.highest_spec (h : t.Good kind) (ha : Ascending kind.key t.toList) :
    ∃ x ∈ t.toList, t.highest kind = some (kind.key x) ∧ ∀ y ∈ t.toList, kind.key y ≤ kind.key x := by
  rw [h.highest_eq]
  rcases List.eq_nil_or_concat t.toList with hl | ⟨xs, x, hl⟩
  · exact absurd h.length_pos (by simp [hl])
  · rw [List.concat_eq_append] at hl
    rw [hl] at ha ⊢
    refine ⟨x, by simp, by simp, fun y hy => ?_⟩
    rcases List.mem_append.1 hy with hy | hy
    · exact ((ascending_append.1 ha).2.2 y hy x (List.mem_singleton_self x)).le
    · rw [List.mem_singleton.1 hy]

omit [Preorder κ] in
/-- The element at an index. -/
theorem Element.Good.elt_eq (h : t.Good kind) (hlt : t.toList.length < 2 ^ 32) {inIndex : ℕ}
    (hi : inIndex < t.toList.length) : t.elt inIndex = t.toList[inIndex]? := by
  induction t generalizing inIndex with
  | empty => cases h
  | leaf value =>
    obtain rfl : inIndex = 0 := lt_one_iff.1 hi
    rfl
  | node left right size height lowest highest ihl ihr =>
    rw [toList, List.length_append] at hlt hi
    rw [elt, h.1.size_of_lt (by omega), toList, List.getElem?_append]
    split
    · next hlow => exact ihl h.1 (by omega) hlow
    · next hlow => exact ihr h.2.1 (by omega) (by omega)

variable [DecidableLT κ]

/-- The elements below a key are counted. -/
theorem Element.Good.lowerBound_eq (h : t.Good kind) (ha : Ascending kind.key t.toList)
    (hlt : t.toList.length < 2 ^ 32) (k : κ) :
    t.lowerBound kind k = some (t.toList.takeWhile fun x => kind.key x < k).length := by
  induction t with
  | empty => cases h
  | leaf value =>
    rw [lowerBound, toList, List.takeWhile_cons]
    by_cases hk : kind.key value < k <;> simp [hk]
  | node left right size height lowest highest ihl ihr =>
    rw [toList, List.length_append] at hlt
    obtain ⟨hal, har, hbefore⟩ := ascending_append.1 ha
    obtain ⟨x, hx, hhigh, hmax⟩ := h.1.highest_spec hal
    have hlen := (List.takeWhile_prefix (l := right.toList) fun x => decide (kind.key x < k)).length_le
    rw [lowerBound, hhigh, Option.bind_some, toList, List.takeWhile_append]
    split
    · next hxk =>
      have hall : left.toList.takeWhile (fun x => decide (kind.key x < k)) = left.toList :=
        List.takeWhile_eq_self_iff.2 fun y hy => decide_eq_true ((hmax y hy).trans_lt hxk)
      rw [ihr h.2.1 har (by omega), hall, if_pos rfl, List.length_append, Option.map_some,
        h.1.size_of_lt (by omega), Nat.mod_eq_of_lt (by omega), Nat.add_comm]
    · next hxk =>
      have hnot : (left.toList.takeWhile fun x => decide (kind.key x < k)).length ≠ left.toList.length := by
        intro he
        have hself := (List.takeWhile_prefix fun x => decide (kind.key x < k)).eq_of_length he
        exact hxk (of_decide_eq_true (List.takeWhile_eq_self_iff.1 hself x hx))
      rw [ihl h.1 hal (by omega), if_neg hnot]

/-! ## The branches of `node` -/

omit [DecidableLT κ] in
/-- `balancedNode` of trees that are in order. -/
theorem balancedNode_yields (hl : l.Good kind) (hr : r.Good kind)
    (ha : Ascending kind.key (l.toList ++ r.toList)) (hlt : (l.toList ++ r.toList).length < 2 ^ 32) :
    ∃ t, Yields (fun limit => balancedNode kind limit l r) t ∧ t.Valid kind ∧ t.toList = l.toList ++ r.toList := by
  rw [List.length_append] at hlt
  obtain ⟨t, ht, hj⟩ := balancedNode_joins l r hl hr hlt.le
  refine ⟨t, ht, ⟨.inr hj.good, ?_, ?_⟩, hj.toList⟩
  · rw [hj.toList]
    exact ha
  · rw [hj.toList, List.length_append]
    exact hlt

/-- The tree is not empty, and its keys go from `a` to `b`. -/
structure Element.Bounds (kind : Kind κ ε) (t : Element κ ε) (a b : κ) : Prop where
  size_ne : t.size ≠ 0
  lowest : t.lowest kind = some a
  highest : t.highest kind = some b

variable {t₁ t₂ u v lower upper : Element κ ε} {size height size' height' ix : ℕ}
  {a b c d pivot low high low' high' : κ} {x y : ε}

theorem yields_node_empty_left : Yields (fun limit => node kind limit .empty r) r := by
  refine yields_some.of_eq_succ fun limit => ?_
  exact if_pos rfl

theorem yields_node_empty_right (h : l.size ≠ 0) : Yields (fun limit => node kind limit l .empty) l := by
  refine yields_some.of_eq_succ fun limit => ?_
  exact (if_neg h).trans (if_pos rfl)

theorem yields_node_before (hl : l.Bounds kind a b) (hr : r.Bounds kind c d) (hlt : b < c)
    (ht : Yields (fun limit => balancedNode kind limit l r) t) :
    Yields (fun limit => node kind limit l r) t := by
  refine ht.of_eq_succ fun limit => ?_
  conv_lhs => unfold node
  rw [if_neg hl.size_ne, if_neg hr.size_ne, hl.lowest, hl.highest, hr.lowest, hr.highest]
  exact if_pos hlt

theorem yields_node_after (hl : l.Bounds kind a b) (hr : r.Bounds kind c d) (hnlt : ¬ b < c)
    (hlt : d < a) (ht : Yields (fun limit => balancedNode kind limit r l) t) :
    Yields (fun limit => node kind limit l r) t := by
  refine ht.of_eq_succ fun limit => ?_
  conv_lhs => unfold node
  rw [if_neg hl.size_ne, if_neg hr.size_ne, hl.lowest, hl.highest, hr.lowest, hr.highest]
  exact (if_neg hnlt).trans (if_pos hlt)

theorem yields_node_leaves (hxy : ¬ kind.key x < kind.key y) (hyx : ¬ kind.key y < kind.key x) :
    Yields (fun limit => node kind limit (.leaf x) (.leaf y)) (.leaf y) := by
  refine yields_some.of_eq_succ fun limit => ?_
  rw [node, if_neg (by simp [Element.size]), if_neg (by simp [Element.size])]
  exact (if_neg hxy).trans (if_neg hyx)

theorem yields_leaf_node (hl : (.leaf x : Element κ ε).Bounds kind a b)
    (hr : (Element.node t₁ t₂ size height low high).Bounds kind c d) (hnlt : ¬ b < c) (hngt : ¬ d < a)
    (hpivot : t₂.lowest kind = some pivot) (ht : Yields (fun limit => if kind.key x < pivot then
      (node kind limit (.leaf x) t₁).bind fun u => balancedNode kind limit u t₂
      else (node kind limit (.leaf x) t₂).bind fun u => balancedNode kind limit t₁ u) t) :
    Yields (fun limit => node kind limit (.leaf x) (.node t₁ t₂ size height low high)) t := by
  refine ht.of_eq_succ fun limit => ?_
  rw [node, if_neg hl.size_ne, if_neg hr.size_ne, hl.lowest, hl.highest, hr.lowest, hr.highest]
  refine (if_neg hnlt).trans ((if_neg hngt).trans ?_)
  rw [hpivot, Option.bind_some]

theorem yields_node_leaf (hl : (Element.node t₁ t₂ size height low high).Bounds kind a b)
    (hr : (.leaf y : Element κ ε).Bounds kind c d) (hnlt : ¬ b < c) (hngt : ¬ d < a)
    (hpivot : t₂.lowest kind = some pivot) (ht : Yields (fun limit => if kind.key y < pivot then
      (node kind limit t₁ (.leaf y)).bind fun u => balancedNode kind limit u t₂
      else (node kind limit t₂ (.leaf y)).bind fun u => balancedNode kind limit t₁ u) t) :
    Yields (fun limit => node kind limit (.node t₁ t₂ size height low high) (.leaf y)) t := by
  refine ht.of_eq_succ fun limit => ?_
  rw [node, if_neg hl.size_ne, if_neg hr.size_ne, hl.lowest, hl.highest, hr.lowest, hr.highest]
  refine (if_neg hnlt).trans ((if_neg hngt).trans ?_)
  rw [hpivot, Option.bind_some]

section
omit [Preorder κ] [DecidableLT κ]
variable {o : Prop} [Decidable o] {f g : ℕ → Option (Element κ ε)}

/-- The leaf goes into the first child of the node. -/
theorem yields_lower (ho : o) (hu : Yields f u) (ht : Yields (fun limit => balancedNode kind limit u t₂) t) :
    Yields (fun limit => if o then (f limit).bind fun u => balancedNode kind limit u t₂
      else (g limit).bind fun u => balancedNode kind limit t₁ u) t := by
  simp only [if_pos ho]
  exact hu.bind (g := fun u limit => balancedNode kind limit u t₂) ht

/-- The leaf goes into the second child of the node. -/
theorem yields_upper (ho : ¬ o) (hu : Yields g u) (ht : Yields (fun limit => balancedNode kind limit t₁ u) t) :
    Yields (fun limit => if o then (f limit).bind fun u => balancedNode kind limit u t₂
      else (g limit).bind fun u => balancedNode kind limit t₁ u) t := by
  simp only [if_neg ho]
  exact hu.bind (g := fun u limit => balancedNode kind limit t₁ u) ht

end

theorem yields_node_node (hl : (Element.node t₁ t₂ size height low high).Bounds kind a b)
    (hr : (Element.node l r size' height' low' high').Bounds kind c d) (hnlt : ¬ b < c)
    (hngt : ¬ d < a) (hpivot : t₂.lowest kind = some pivot)
    (hix : (Element.node l r size' height' low' high').lowerBound kind pivot = some ix)
    (hlower : Yields (fun limit => slice kind limit (.node l r size' height' low' high') 0 ix) lower)
    (hupper : Yields (fun limit => slice kind limit (.node l r size' height' low' high') ix size') upper)
    (hu : Yields (fun limit => node kind limit t₁ lower) u)
    (hv : Yields (fun limit => node kind limit t₂ upper) v)
    (ht : Yields (fun limit => balancedNode kind limit u v) t) :
    Yields (fun limit => node kind limit (.node t₁ t₂ size height low high)
      (.node l r size' height' low' high')) t := by
  have huv := hu.bind (g := fun u limit => (node kind limit t₂ upper).bind fun v =>
    balancedNode kind limit u v) (hv.bind (g := fun v limit => balancedNode kind limit u v) ht)
  have hslices := hlower.bind (g := fun lower limit =>
    (slice kind limit (.node l r size' height' low' high') ix size').bind fun upper =>
      (node kind limit t₁ lower).bind fun u => (node kind limit t₂ upper).bind fun v =>
        balancedNode kind limit u v)
    (hupper.bind (g := fun upper limit => (node kind limit t₁ lower).bind fun u =>
      (node kind limit t₂ upper).bind fun v => balancedNode kind limit u v) huv)
  refine hslices.of_eq_succ fun limit => ?_
  rw [node, if_neg hl.size_ne, if_neg hr.size_ne, hl.lowest, hl.highest, hr.lowest, hr.highest]
  refine (if_neg hnlt).trans ((if_neg hngt).trans ?_)
  rw [hpivot, Option.bind_some, hix]
  rfl

omit [DecidableLT κ] in
theorem Element.Valid.length_pos (h : t.Valid kind) (hgood : t.Good kind) : t.size ≠ 0 := by
  have := hgood.length_pos
  rw [h.size_eq]
  omega

/-- `node` of trees that are in order. -/
theorem node_yields_of_before (hl : l.Valid kind) (hr : r.Valid kind)
    (hb : Before kind.key l.toList r.toList) (hlt : (l.toList ++ r.toList).length < 2 ^ 32) :
    ∃ t, Yields (fun limit => node kind limit l r) t ∧ t.Valid kind ∧ t.toList = l.toList ++ r.toList := by
  rcases hl.good with rfl | hgoodl
  · exact ⟨r, yields_node_empty_left, hr, rfl⟩
  rcases hr.good with rfl | hgoodr
  · exact ⟨l, yields_node_empty_right (hl.length_pos hgoodl), hl, (List.append_nil _).symm⟩
  obtain ⟨t, ht, hvalid, hlist⟩ := balancedNode_yields hgoodl hgoodr
    (ascending_append.2 ⟨hl.ascending, hr.ascending, hb⟩) hlt
  obtain ⟨a, ha⟩ := hgoodl.exists_lowest
  obtain ⟨d, hd⟩ := hgoodr.exists_highest
  obtain ⟨x, hx, hhigh, -⟩ := hgoodl.highest_spec hl.ascending
  obtain ⟨y, hy, hlow, -⟩ := hgoodr.lowest_spec hr.ascending
  exact ⟨t, yields_node_before ⟨hl.length_pos hgoodl, ha, hhigh⟩ ⟨hr.length_pos hgoodr, hlow, hd⟩
    (hb x hx y hy) ht, hvalid, hlist⟩

omit [Preorder κ] [DecidableLT κ] in
theorem Element.bounds_leaf (x : ε) :
    (.leaf x : Element κ ε).Bounds kind (kind.key x) (kind.key x) := ⟨Nat.one_ne_zero, rfl, rfl⟩

/-- With one element more than the size can count, the size is 0. -/
theorem node_overflow (h : t.Valid kind) (hlen : t.toList.length + 1 = 2 ^ 32) (hb : Before kind.key t.toList [x]) :
    ∃ u, Yields (fun limit => node kind limit t (.leaf x)) u ∧ u.size = 0 := by
  have hgood := h.good_of_ne fun hnil => by
    rw [hnil, List.length_nil] at hlen
    omega
  obtain ⟨u, hu, hj⟩ := balancedNode_joins t (.leaf x) hgood trivial hlen.le
  obtain ⟨low, hlow⟩ := hgood.exists_lowest
  obtain ⟨y, hy, hhigh, -⟩ := hgood.highest_spec h.ascending
  refine ⟨u, yields_node_before ⟨h.length_pos hgood, hlow, hhigh⟩ (bounds_leaf x) (hb y hy x (.head _)) hu, ?_⟩
  have hone : (leaf x : Element κ ε).toList.length = 1 := rfl
  rw [hj.good.size_eq, hj.length, hone, hlen, mod_self]

/-! ## Slices -/

/-- The elements from one index to another. -/
def extract (xs : List ε) (left right : ℕ) : List ε := (xs.drop left).take (right - left)

omit [Preorder κ] [DecidableLT κ] in
theorem extract_sublist (xs : List ε) (left right : ℕ) : (extract xs left right).Sublist xs :=
  (List.take_sublist _ _).trans (List.drop_sublist _ _)

omit [Preorder κ] [DecidableLT κ] in
theorem extract_append (xs ys : List ε) (left right : ℕ) : extract (xs ++ ys) left right =
    extract xs left right ++ extract ys (left - xs.length) (right - xs.length) := by
  have hsub : right - left - (xs.drop left).length = right - xs.length - (left - xs.length) ∨
      (ys.drop (left - xs.length)).take (right - left - (xs.drop left).length) = [] ∧
        right - xs.length - (left - xs.length) = 0 := by
    rw [List.length_drop]
    by_cases h : xs.length ≤ right
    · exact .inl (by omega)
    · refine .inr ⟨?_, by omega⟩
      rw [show right - left - (xs.length - left) = 0 by omega, List.take_zero]
  rw [extract, extract, extract, List.drop_append, List.take_append]
  rcases hsub with he | ⟨he, hz⟩
  · rw [he]
  · rw [he, hz, List.take_zero]

theorem yields_slice_node {t₁' t₂' : Element κ ε} {left right : ℕ}
    (hnot : ¬ (kind.checked = true ∧ left = 0 ∧ size ≤ right))
    (h₁ : Yields (fun limit => if left < t₁.size ∧ left < right then slice kind limit t₁ left right
      else some .empty) t₁')
    (h₂ : Yields (fun limit => if left < (t₁.size + t₂.size) % 2 ^ 32 ∧ left < right then
      slice kind limit t₂ (if t₁.size < left then left - t₁.size else 0)
        (if t₁.size < right then right - t₁.size else 0) else some .empty) t₂')
    (ht : Yields (fun limit => node kind limit t₁' t₂') t) :
    Yields (fun limit => slice kind limit (.node t₁ t₂ size height low high) left right) t := by
  have h := h₁.bind (g := fun t₁' limit => (if left < (t₁.size + t₂.size) % 2 ^ 32 ∧ left < right then
      slice kind limit t₂ (if t₁.size < left then left - t₁.size else 0)
        (if t₁.size < right then right - t₁.size else 0) else some .empty).bind fun t₂' =>
      node kind limit t₁' t₂') (h₂.bind (g := fun t₂' limit => node kind limit t₁' t₂') ht)
  exact h.of_eq_succ fun limit => if_neg hnot

/-- `slice` ends, with the elements from one index to the other. -/
theorem slice_yields (h : t.Valid kind) (left right : ℕ) :
    ∃ t', Yields (fun limit => slice kind limit t left right) t' ∧ t'.Valid kind ∧
      t'.toList = extract t.toList left right := by
  induction t generalizing left right with
  | empty =>
    refine ⟨.empty, ?_, valid_empty, by simp [toList, extract]⟩
    refine yields_some.of_eq_succ fun limit => ?_
    rw [slice]
    exact ite_self _
  | leaf x =>
    have hyields : Yields (fun limit => slice kind limit (.leaf x) left right)
        (if left = 0 ∧ 0 < right then .leaf x else .empty) := by
      refine yields_some.of_eq_succ fun limit => ?_
      rw [slice]
      split
      · next hwhole => rw [if_pos ⟨hwhole.2.1, hwhole.2.2⟩]
      · rfl
    refine ⟨_, hyields, ?_, ?_⟩
    · split
      · exact valid_leaf x
      · exact valid_empty
    · split
      · next hx =>
        rw [extract, hx.1, toList, List.drop_zero, List.take_of_length_le (succ_le_of_lt hx.2)]
      · next hx =>
        rw [extract, toList, toList]
        rcases Nat.eq_zero_or_pos left with rfl | hpos
        · rw [show right - 0 = 0 by omega, List.take_zero]
        · rw [List.drop_of_length_le (succ_le_of_lt hpos), List.take_nil]
  | node t₁ t₂ size height low high ih₁ ih₂ =>
    by_cases hwhole : kind.checked = true ∧ left = 0 ∧ size ≤ right
    · refine ⟨_, yields_some.of_eq_succ fun limit => if_pos hwhole, h, ?_⟩
      have hsize : size = _ := h.size_eq
      rw [extract, hwhole.2.1, List.drop_zero, List.take_of_length_le (hsize ▸ hwhole.2.2)]
    have hgood := h.good.resolve_left (by simp)
    obtain ⟨ha₁, ha₂, hb⟩ := ascending_append.1 h.ascending
    have hlen := h.length_lt
    rw [toList, List.length_append] at hlen
    have hv₁ : t₁.Valid kind := ⟨.inr hgood.1, ha₁, by omega⟩
    have hv₂ : t₂.Valid kind := ⟨.inr hgood.2.1, ha₂, by omega⟩
    have hpart : ∀ {p : Element κ ε} {c : Prop} [Decidable c] {left' right' : ℕ},
        (∃ p', Yields (fun limit => slice kind limit p left' right') p' ∧ p'.Valid kind ∧
          p'.toList = extract p.toList left' right') →
        (¬ c → extract p.toList left' right' = []) →
        ∃ p', Yields (fun limit => if c then slice kind limit p left' right' else some .empty) p' ∧
          p'.Valid kind ∧ p'.toList = extract p.toList left' right' := by
      intro p c _ left' right' hp hc
      by_cases hcond : c
      · simp only [if_pos hcond]
        exact hp
      · simp only [if_neg hcond, hc hcond]
        exact ⟨.empty, yields_some, valid_empty, rfl⟩
    obtain ⟨t₁', h₁, hv₁', hlist₁⟩ := hpart (c := left < t₁.size ∧ left < right) (ih₁ hv₁ left right) (by
        intro hc
        rw [hv₁.size_eq] at hc
        rw [extract]
        by_cases hlt : left < right
        · rw [List.drop_of_length_le (by omega), List.take_nil]
        · rw [show right - left = 0 by omega, List.take_zero])
    obtain ⟨t₂', h₂, hv₂', hlist₂⟩ := hpart (c := left < (t₁.size + t₂.size) % 2 ^ 32 ∧ left < right)
      (ih₂ hv₂ (if t₁.size < left then left - t₁.size else 0) (if t₁.size < right then right - t₁.size else 0)) (by
        intro hc
        rw [hv₁.size_eq, hv₂.size_eq, mod_eq_of_lt (by omega)] at hc
        rw [extract, hv₁.size_eq]
        by_cases hlt : left < right
        · rw [List.drop_of_length_le (by split <;> omega), List.take_nil]
        · rw [List.take_eq_nil_iff]
          exact .inl (by split <;> split <;> omega))
    have hsub : ∀ n, (if t₁.size < n then n - t₁.size else 0) = n - t₁.toList.length := by
      intro n
      rw [hv₁.size_eq]
      split <;> omega
    rw [hsub, hsub] at hlist₂
    have hcat : t₁'.toList ++ t₂'.toList = extract (t₁.toList ++ t₂.toList) left right := by
      rw [hlist₁, hlist₂, extract_append]
    have hbefore : Before kind.key t₁'.toList t₂'.toList := fun x hx y hy =>
      hb x ((extract_sublist _ _ _).subset (hlist₁ ▸ hx)) y ((extract_sublist _ _ _).subset (hlist₂ ▸ hy))
    have hlt : (t₁'.toList ++ t₂'.toList).length < 2 ^ 32 := by
      rw [hcat]
      exact lt_of_le_of_lt (extract_sublist _ _ _).length_le h.length_lt
    obtain ⟨t, ht, hvalid, hlist⟩ := node_yields_of_before hv₁' hv₂' hbefore hlt
    exact ⟨t, yields_slice_node hwhole h₁ h₂ ht, hvalid, hlist.trans hcat⟩

/-! ## Unions -/

variable [Std.Total (α := κ) (· ≤ ·)]

section

variable (h : (Element.node t₁ t₂ size height low high).Valid kind)
include h

omit [DecidableLT κ] [Std.Total (α := κ) (· ≤ ·)] in
theorem Element.Valid.left : t₁.Valid kind := ⟨.inr (h.good.resolve_left nofun).1, (ascending_append.1 h.ascending).1,
    lt_of_le_of_lt (List.sublist_append_left _ _).length_le h.length_lt⟩

omit [DecidableLT κ] [Std.Total (α := κ) (· ≤ ·)] in
theorem Element.Valid.right : t₂.Valid kind :=
  ⟨.inr (h.good.resolve_left nofun).2.1, (ascending_append.1 h.ascending).2.1,
    lt_of_le_of_lt (List.sublist_append_right _ _).length_le h.length_lt⟩

omit [DecidableLT κ] [Std.Total (α := κ) (· ≤ ·)] in
/-- The lowest key of the right child tells the two children apart. -/
theorem Element.Valid.exists_pivot : ∃ pivot, t₂.lowest kind = some pivot ∧ (∀ x ∈ t₁.toList, kind.key x < pivot) ∧
      ∀ y ∈ t₂.toList, pivot ≤ kind.key y := by
  have hgood := h.good.resolve_left nofun
  obtain ⟨p, hp, hlow, hle⟩ := hgood.2.1.lowest_spec h.right.ascending
  exact ⟨_, hlow, fun x hx => (ascending_append.1 h.ascending).2.2 x hx p hp, hle⟩

end

/-- What is taken apart is joined by `balancedNode`, where neither part is empty. -/
theorem join_yields (xs xs' ys ys' : List ε) {P Q : Element κ ε → Prop}
    (hx : Ascending kind.key (xs ++ xs')) (hy : Ascending kind.key (ys ++ ys'))
    (hxy : Before kind.key xs ys') (hyx : Before kind.key ys xs')
    (hlt : (union kind.key (xs ++ xs') (ys ++ ys')).length < 2 ^ 32) (hne : xs ≠ [] ∨ ys ≠ [])
    (hne' : xs' ≠ [] ∨ ys' ≠ [])
    (hu : (union kind.key xs ys).length < 2 ^ 32 → ∃ u, P u ∧ u.Valid kind ∧ u.toList = union kind.key xs ys)
    (hv : (union kind.key xs' ys').length < 2 ^ 32 → ∃ v, Q v ∧ v.Valid kind ∧ v.toList = union kind.key xs' ys') :
    ∃ u v t, P u ∧ Q v ∧ Yields (fun limit => balancedNode kind limit u v) t ∧ t.Valid kind ∧
      t.toList = union kind.key (xs ++ xs') (ys ++ ys') := by
  have hcat := union_append hx hy hxy hyx
  have hlen := hlt
  rw [hcat, List.length_append] at hlen
  obtain ⟨u, hpu, hvalidu, hlistu⟩ := hu (by omega)
  obtain ⟨v, hqv, hvalidv, hlistv⟩ := hv (by omega)
  have hgoodu := hvalidu.good_of_ne fun hnil =>
    hne.elim (absurd (union_eq_nil (hlistu ▸ hnil)).1) (absurd (union_eq_nil (hlistu ▸ hnil)).2)
  have hgoodv := hvalidv.good_of_ne fun hnil =>
    hne'.elim (absurd (union_eq_nil (hlistv ▸ hnil)).1) (absurd (union_eq_nil (hlistv ▸ hnil)).2)
  rw [← hlistu, ← hlistv] at hcat
  rw [hcat] at hlt ⊢
  obtain ⟨t, ht⟩ := balancedNode_yields hgoodu hgoodv (hcat ▸ ascending_union hx hy) hlt
  exact ⟨u, v, t, hpu, hqv, ht⟩

/-- `node` ends, with the union of the two trees. -/
theorem node_yields (hl : l.Valid kind) (hr : r.Valid kind) (hlt : (union kind.key l.toList r.toList).length < 2 ^ 32) :
    ∃ t, Yields (fun limit => node kind limit l r) t ∧ t.Valid kind ∧ t.toList = union kind.key l.toList r.toList := by
  induction hn : l.toList.length + r.toList.length using Nat.strong_induction_on generalizing l r with
  | _ n ih =>
    rcases hl.good with rfl | hgoodl
    · exact ⟨r, yields_node_empty_left, hr, union_nil_left.symm⟩
    rcases hr.good with rfl | hgoodr
    · exact ⟨l, yields_node_empty_right (hl.length_pos hgoodl), hl, union_nil_right.symm⟩
    obtain ⟨x, hx, hlowl, hminl⟩ := hgoodl.lowest_spec hl.ascending
    obtain ⟨x', hx', hhighl, hmaxl⟩ := hgoodl.highest_spec hl.ascending
    obtain ⟨y, hy, hlowr, hminr⟩ := hgoodr.lowest_spec hr.ascending
    obtain ⟨y', hy', hhighr, hmaxr⟩ := hgoodr.highest_spec hr.ascending
    have hbl : l.Bounds kind (kind.key x) (kind.key x') := ⟨hl.length_pos hgoodl, hlowl, hhighl⟩
    have hbr : r.Bounds kind (kind.key y) (kind.key y') := ⟨hr.length_pos hgoodr, hlowr, hhighr⟩
    by_cases hbefore : kind.key x' < kind.key y
    · have hb : Before kind.key l.toList r.toList := fun a ha b hb =>
        (hmaxl a ha).trans_lt (hbefore.trans_le (hminr b hb))
      have hu := union_of_before hb hl.ascending hr.ascending
      rw [hu] at hlt ⊢
      obtain ⟨t, ht, hvalid, hlist⟩ := balancedNode_yields hgoodl hgoodr
        (ascending_append.2 ⟨hl.ascending, hr.ascending, hb⟩) hlt
      exact ⟨t, yields_node_before hbl hbr hbefore ht, hvalid, hlist⟩
    by_cases hafter : kind.key y' < kind.key x
    · have hb : Before kind.key r.toList l.toList := fun a ha b hb =>
        (hmaxr a ha).trans_lt (hafter.trans_le (hminl b hb))
      have hu := union_of_after hb hl.ascending hr.ascending
      rw [hu] at hlt ⊢
      obtain ⟨t, ht, hvalid, hlist⟩ := balancedNode_yields hgoodr hgoodl
        (ascending_append.2 ⟨hr.ascending, hl.ascending, hb⟩) hlt
      exact ⟨t, yields_node_after hbl hbr hbefore hafter ht, hvalid, hlist⟩
    cases l with
    | empty => cases hgoodl
    | leaf a =>
      cases r with
      | empty => cases hgoodr
      | leaf b =>
        obtain rfl := List.mem_singleton.1 hx
        obtain rfl := List.mem_singleton.1 hx'
        obtain rfl := List.mem_singleton.1 hy
        obtain rfl := List.mem_singleton.1 hy'
        refine ⟨_, yields_node_leaves hbefore hafter, hr, ?_⟩
        simp [union, toList, Apart, hbefore, hafter]
      | node r₁ r₂ size height low high =>
        obtain ⟨pivot, hpivot, hr₁, hr₂⟩ := hr.exists_pivot
        have hgood₁ := hgoodr.1
        have hgood₂ := hgoodr.2.1
        have hlen₁ := hgood₁.length_pos
        have hlen₂ := hgood₂.length_pos
        have hlen : (Element.node r₁ r₂ size height low high).toList.length = _ := List.length_append
        rw [hlen] at hn
        by_cases hlow : kind.key a < pivot
        · have hxy : Before kind.key [a] r₂.toList := fun z hz b hb =>
            List.mem_singleton.1 hz ▸ hlow.trans_le (hr₂ b hb)
          obtain ⟨u, _, t, hu, rfl, ht, hvalid⟩ := join_yields [a] [] _ _ hl.ascending hr.ascending hxy
            (by simp [Before]) hlt (.inl (List.cons_ne_nil _ _)) (.inr (List.ne_nil_of_length_pos hlen₂))
            (fun h => ih _ (by omega) hl hr.left h rfl)
            fun _ => ⟨r₂, rfl, hr.right, union_nil_left.symm⟩
          exact ⟨t, yields_leaf_node hbl hbr hbefore hafter hpivot (yields_lower hlow hu ht), hvalid⟩
        · have hyx : Before kind.key r₁.toList [a] := fun b hb z hz =>
            List.mem_singleton.1 hz ▸ (hr₁ b hb).trans_le (le_of_not_lt hlow)
          obtain ⟨_, u, t, rfl, hu, ht, hvalid⟩ := join_yields [] [a] _ _ hl.ascending hr.ascending (by simp [Before])
            hyx hlt (.inr (List.ne_nil_of_length_pos hlen₁)) (.inl (List.cons_ne_nil _ _))
            (fun _ => ⟨r₁, rfl, hr.left, union_nil_left.symm⟩)
            fun h => ih _ (by omega) hl hr.right h rfl
          exact ⟨t, yields_leaf_node hbl hbr hbefore hafter hpivot (yields_upper hlow hu ht), hvalid⟩
    | node l₁ l₂ size height low high =>
      obtain ⟨pivot, hpivot, hl₁, hl₂⟩ := hl.exists_pivot
      have hgood₁ := hgoodl.1
      have hgood₂ := hgoodl.2.1
      have hlen₁ := hgood₁.length_pos
      have hlen₂ := hgood₂.length_pos
      rw [toList, List.length_append] at hn
      cases r with
      | empty => cases hgoodr
      | leaf b =>
        by_cases hlow : kind.key b < pivot
        · have hyx : Before kind.key [b] l₂.toList := fun z hz a ha =>
            List.mem_singleton.1 hz ▸ hlow.trans_le (hl₂ a ha)
          obtain ⟨u, _, t, hu, rfl, ht, hvalid⟩ := join_yields _ _ [b] [] hl.ascending hr.ascending (by simp [Before])
            hyx hlt (.inr (List.cons_ne_nil _ _)) (.inl (List.ne_nil_of_length_pos hlen₂))
            (fun h => ih _ (by omega) hl.left hr h rfl)
            fun _ => ⟨l₂, rfl, hl.right, union_nil_right.symm⟩
          exact ⟨t, yields_node_leaf hbl hbr hbefore hafter hpivot (yields_lower hlow hu ht), hvalid⟩
        · have hxy : Before kind.key l₁.toList [b] := fun a ha z hz =>
            List.mem_singleton.1 hz ▸ (hl₁ a ha).trans_le (le_of_not_lt hlow)
          obtain ⟨_, u, t, rfl, hu, ht, hvalid⟩ := join_yields _ _ [] [b] hl.ascending hr.ascending hxy
            (by simp [Before]) hlt (.inl (List.ne_nil_of_length_pos hlen₁)) (.inr (List.cons_ne_nil _ _))
            (fun _ => ⟨l₁, rfl, hl.left, union_nil_right.symm⟩)
            fun h => ih _ (by omega) hl.right hr h rfl
          exact ⟨t, yields_node_leaf hbl hbr hbefore hafter hpivot (yields_upper hlow hu ht), hvalid⟩
      | node r₁ r₂ size' height' low' high' =>
        set r := Element.node r₁ r₂ size' height' low' high' with hrdef
        have hix := hgoodr.lowerBound_eq hr.ascending hr.length_lt pivot
        set ix := (r.toList.takeWhile fun x => kind.key x < pivot).length with hixdef
        obtain ⟨lower, hlower, hvlower, hllower⟩ := slice_yields hr 0 ix
        obtain ⟨upper, hupper, hvupper, hlupper⟩ := slice_yields hr ix size'
        have hsize : size' = r.toList.length := hr.size_eq
        rw [extract, List.drop_zero, Nat.sub_zero, take_takeWhile] at hllower
        rw [extract, hsize, List.take_of_length_le (List.length_drop.le), drop_takeWhile] at hlupper
        have hcat : lower.toList ++ upper.toList = r.toList := by
          rw [hllower, hlupper, List.takeWhile_append_dropWhile]
        have hy : Ascending kind.key (lower.toList ++ upper.toList) := hcat ▸ hr.ascending
        have hxy : Before kind.key l₁.toList upper.toList := fun a ha b hb =>
          (hl₁ a ha).trans_le (le_of_not_lt (not_lt_of_mem_dropWhile hr.ascending (hlupper ▸ hb)))
        have hyx : Before kind.key lower.toList l₂.toList := fun b hb a ha =>
          (lt_of_mem_takeWhile (hllower ▸ hb)).trans_le (hl₂ a ha)
        rw [← hcat] at hlt ⊢
        have hlenlist : lower.toList.length + upper.toList.length = r.toList.length := by
          rw [← hcat, List.length_append]
        obtain ⟨u, v, t, hu, hv, ht, hvalid⟩ := join_yields _ _ _ _ hl.ascending hy hxy hyx hlt
          (.inl (List.ne_nil_of_length_pos hlen₁)) (.inl (List.ne_nil_of_length_pos hlen₂))
          (fun h => ih _ (by omega) hl.left hvlower h rfl) fun h => ih _ (by omega) hl.right hvupper h rfl
        exact ⟨t, yields_node_node hbl hbr hbefore hafter hpivot hix hlower hupper hu hv ht, hvalid⟩

end ImmutableTree
