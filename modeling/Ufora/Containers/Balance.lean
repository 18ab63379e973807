import Ufora.Containers.ImmutableTree

/-!
# Joining trees of any heights

`balancedNode` ends for every two well-formed trees, with a well-formed tree of the elements of both
(`balancedNode_yields`). When it takes the taller tree apart, it joins two trees of which the one that grew
is not much taller than the other (`Joined`), so that it goes on with a smaller part of the same tree or
not at all.
-/

open Fuel List Nat

namespace ImmutableTree.Element

variable {κ ε : Type} {kind : Kind κ ε} {l r l₁ l₂ r₁ r₂ l₂₁ l₂₂ r₁₁ r₁₂ t u v : Element κ ε}
  {size height size' height' : ℕ} {lowest highest lowest' highest' : κ}

/-! ## The branches of `balancedNode` -/

theorem yields_direct (hle : l.height ≤ r.height + 2) (hge : r.height ≤ l.height + 2)
    (ht : l.nodeDirect kind r = some t) : Yields (fun limit => balancedNode kind limit l r) t := by
  refine yields_some.of_eq_succ fun limit => ?_
  conv_lhs => unfold balancedNode
  rw [if_neg (by omega), if_neg (by omega), ht]

theorem yields_right (hlt : l.height + 2 < height) (h₁ : r₁.height < l.height + 2)
    (hu : Yields (fun limit => balancedNode kind limit l r₁) u)
    (ht : Yields (fun limit => balancedNode kind limit u r₂) t) :
    Yields (fun limit => balancedNode kind limit l (.node r₁ r₂ size height lowest highest)) t := by
  refine (hu.bind (g := fun u limit => balancedNode kind limit u r₂) ht).of_eq_succ fun limit => ?_
  exact (if_pos hlt).trans (if_pos h₁)

theorem yields_right_split (hlt : l.height + 2 < height) (h₁ : l.height + 2 ≤ height')
    (hu : Yields (fun limit => balancedNode kind limit l r₁₁) u)
    (hv : Yields (fun limit => balancedNode kind limit r₁₂ r₂) v)
    (ht : Yields (fun limit => balancedNode kind limit u v) t) :
    Yields (fun limit => balancedNode kind limit l
      (.node (.node r₁₁ r₁₂ size' height' lowest' highest') r₂ size height lowest highest)) t := by
  have huv := hv.bind (g := fun v limit => balancedNode kind limit u v) ht
  refine (hu.bind (g := fun u limit => (balancedNode kind limit r₁₂ r₂).bind fun v =>
    balancedNode kind limit u v) huv).of_eq_succ fun limit => ?_
  exact (if_pos hlt).trans (if_neg (not_lt.2 h₁))

theorem yields_left (hlt : r.height + 2 < height) (h₂ : l₂.height < r.height + 2)
    (hu : Yields (fun limit => balancedNode kind limit l₂ r) u)
    (ht : Yields (fun limit => balancedNode kind limit l₁ u) t) :
    Yields (fun limit => balancedNode kind limit (.node l₁ l₂ size height lowest highest) r) t := by
  refine (hu.bind (g := fun u limit => balancedNode kind limit l₁ u) ht).of_eq_succ fun limit => ?_
  have hnlt : ¬ height + 2 < r.height := by omega
  exact (if_neg hnlt).trans ((if_pos hlt).trans (if_pos h₂))

theorem yields_left_split (hlt : r.height + 2 < height) (h₂ : r.height + 2 ≤ height')
    (hu : Yields (fun limit => balancedNode kind limit l₁ l₂₁) u)
    (hv : Yields (fun limit => balancedNode kind limit l₂₂ r) v)
    (ht : Yields (fun limit => balancedNode kind limit u v) t) :
    Yields (fun limit => balancedNode kind limit
      (.node l₁ (.node l₂₁ l₂₂ size' height' lowest' highest') size height lowest highest) r) t := by
  have huv := hv.bind (g := fun v limit => balancedNode kind limit u v) ht
  refine (hu.bind (g := fun u limit => (balancedNode kind limit l₂₂ r).bind fun v =>
    balancedNode kind limit u v) huv).of_eq_succ fun limit => ?_
  have hnlt : ¬ height + 2 < r.height := by omega
  exact (if_neg hnlt).trans ((if_pos hlt).trans (if_neg (not_lt.2 h₂)))

/-! ## Heights -/

/-- What is known of the height `t` of two trees of the heights `a` and `b` when they are joined: it is at most
one more than the larger one, and how much less it can be depends on how far these are apart. -/
structure Between (a b t : ℕ) : Prop where
  le : t ≤ max a b + 1
  of_near : a ≤ b + 2 → b ≤ a + 2 → t = max a b + 1
  of_close : a ≤ b + 4 → b ≤ a + 4 → max a b ≤ t
  of_apart : a ≤ b + 5 → b ≤ a + 5 → max a b ≤ t + 1

variable {a b b₁₁ b₁₂ b₁ b₂ x y : ℕ}

theorem Between.symm {t : ℕ} (h : Between a b t) : Between b a t where
  le := max_comm a b ▸ h.le
  of_near := fun hb ha => max_comm a b ▸ h.of_near ha hb
  of_close := fun hb ha => max_comm a b ▸ h.of_close ha hb
  of_apart := fun hb ha => max_comm a b ▸ h.of_apart ha hb

/-- Where the second height is not less than the first one by far, the cases are these. -/
theorem Between.cases {t : ℕ} (h : Between a b t) (hab : a ≤ b + 2) :
    (b ≤ a + 2 ∧ t = max a b + 1) ∨ (a + 3 ≤ b ∧ b ≤ a + 4 ∧ b ≤ t ∧ t ≤ b + 1) ∨
      (b = a + 5 ∧ b ≤ t + 1 ∧ t ≤ b + 1) ∨ (a + 6 ≤ b ∧ t ≤ b + 1) := by
  have hle := h.le
  by_cases h2 : b ≤ a + 2
  · exact .inl ⟨h2, h.of_near hab h2⟩
  by_cases h4 : b ≤ a + 4
  · have := h.of_close (by omega) h4
    omega
  by_cases h5 : b ≤ a + 5
  · have := h.of_apart (by omega) h5
    omega
  · omega

theorem between_of_lt {t : ℕ} (hab : a + 3 ≤ b) (hle : t ≤ b + 1) (h4 : b ≤ a + 4 → b ≤ t)
    (h5 : b ≤ a + 5 → b ≤ t + 1) : Between a b t := by
  refine ⟨?_, ?_, ?_, ?_⟩ <;> omega

/-- When the taller tree is split below its child `b₁`, the tree that grew from `a` does not get taller than
the other one by far. -/
theorem le_of_between (hx : Between a b₁₁ x) (hy : Between b₁₂ b₂ y)
    (hb₁ : b₁ = max b₁₁ b₁₂ + 1) (hle₁ : b₁₁ ≤ b₁₂ + 2) (hge₁ : b₁₂ ≤ b₁₁ + 2) (hle : b₁ ≤ b₂ + 2)
    (hge : b₂ ≤ b₁ + 2) (hlow : a + 2 ≤ b₁) : x ≤ y + 2 := by
  rcases hx.cases (by omega) with h | h | h | h <;>
    rcases hy.cases (by omega) with h' | h' | h' | h' <;> omega

theorem between_split {t : ℕ} (hx : Between a b₁₁ x) (hy : Between b₁₂ b₂ y)
    (ht : Between x y t) (hb₁ : b₁ = max b₁₁ b₁₂ + 1) (hb : b = max b₁ b₂ + 1)
    (hle₁ : b₁₁ ≤ b₁₂ + 2) (hge₁ : b₁₂ ≤ b₁₁ + 2) (hle : b₁ ≤ b₂ + 2) (hge : b₂ ≤ b₁ + 2)
    (hlow : a + 2 ≤ b₁) (hlt : a + 2 < b) : Between a b t := by
  have hxy := le_of_between hx hy hb₁ hle₁ hge₁ hle hge hlow
  refine between_of_lt hlt ?_ (fun h4 => ?_) fun h5 => ?_
  · have := hx.le
    have := hy.le
    have := ht.le
    omega
  · have := hx.of_near (by omega) (by omega)
    rcases hy.cases (by omega) with h | h | h | h <;> rcases ht.cases hxy with h' | h' | h' | h' <;> omega
  · have := hx.of_close (by omega) (by omega)
    rcases hy.cases (by omega) with h | h | h | h <;> rcases ht.cases hxy with h' | h' | h' | h' <;> omega

/-- When the child `b₁` is moved over, the two trees are at about one height. -/
theorem near_of_move (hx : Between a b₁ x) (hb : b = max b₁ b₂ + 1)
    (hle : b₁ ≤ b₂ + 2) (hge : b₂ ≤ b₁ + 2) (hlow : b₁ < a + 2) (hlt : a + 2 < b) :
    x ≤ b₂ + 2 ∧ b₂ ≤ x + 2 := by
  have := hx.of_near (by omega) (by omega)
  omega

theorem between_move {t : ℕ} (hx : Between a b₁ x) (ht : Between x b₂ t)
    (hb : b = max b₁ b₂ + 1) (hle : b₁ ≤ b₂ + 2) (hge : b₂ ≤ b₁ + 2) (hlow : b₁ < a + 2)
    (hlt : a + 2 < b) : Between a b t := by
  obtain ⟨hxb, hbx⟩ := near_of_move hx hb hle hge hlow hlt
  have hx := hx.of_near (by omega) (by omega)
  have ht := ht.of_near hxb hbx
  exact between_of_lt hlt (by omega) (fun _ => by omega) fun _ => by omega

/-! ## Joins -/

/-- The tree has the elements of both. -/
structure Joined (kind : Kind κ ε) (l r t : Element κ ε) : Prop where
  good : t.Good kind
  toList : t.toList = l.toList ++ r.toList
  height : Between l.height r.height t.height

theorem Joined.length (h : Joined kind l r t) : t.toList.length = l.toList.length + r.toList.length := by
  rw [h.toList, length_append]

/-- `balancedNode` ends and joins the trees. -/
def Joins (kind : Kind κ ε) (l r : Element κ ε) : Prop :=
  ∃ t, Yields (fun limit => balancedNode kind limit l r) t ∧ Joined kind l r t

theorem joins_direct (hl : l.Good kind) (hr : r.Good kind)
    (hlen : l.toList.length + r.toList.length ≤ 2 ^ 32) (hle : l.height ≤ r.height + 2)
    (hge : r.height ≤ l.height + 2) : Joins kind l r := by
  obtain ⟨t, ht, hgood, hlist, hheight⟩ := hl.nodeDirect hr hlen hle hge
  exact ⟨t, yields_direct hle hge ht, hgood, hlist, by omega, fun _ _ => hheight,
    fun _ _ => by omega, fun _ _ => by omega⟩

/-- A tree that is more than one high is a node. -/
theorem Good.exists_node (h : t.Good kind) (hlt : 1 < t.height) :
    ∃ l r size height lowest highest, t = .node l r size height lowest highest := by
  cases t with
  | empty => cases h
  | leaf value => exact absurd hlt (lt_irrefl 1)
  | node l r size height lowest highest => exact ⟨_, _, _, _, _, _, rfl⟩

/-- The right tree is taken apart. `ih` is for what is joined on the way. -/
theorem joins_right (hl : l.Good kind) (hr : r.Good kind)
    (hlen : l.toList.length + r.toList.length ≤ 2 ^ 32) (hlt : l.height + 2 < r.height)
    (ih : ∀ l' r', l'.Good kind → r'.Good kind →
      l'.toList.length + r'.toList.length < l.toList.length + r.toList.length ∨
        l'.toList.length + r'.toList.length = l.toList.length + r.toList.length ∧
          l'.height < r'.height ∧ r'.toList.length < r.toList.length → Joins kind l' r') :
    Joins kind l r := by
  obtain ⟨r₁, r₂, size, height, lowest, highest, rfl⟩ := hr.exists_node (by omega)
  obtain ⟨hr₁, hr₂, hnode⟩ := hr
  have hlen₁ := hr₁.length_pos
  have hlen₂ := hr₂.length_pos
  rw [toList, length_append] at hlen ih
  by_cases hlow : r₁.height < l.height + 2
  · obtain ⟨u, hu, hju⟩ := ih l r₁ hl hr₁ (.inl (by omega))
    have hlist := hju.length
    obtain ⟨hle, hge⟩ := near_of_move hju.height hnode.height hnode.left_le hnode.right_le hlow hlt
    obtain ⟨t, ht, hjt⟩ := joins_direct hju.good hr₂ (by omega) hle hge
    refine ⟨t, yields_right hlt hlow hu ht, hjt.good, ?_, ?_⟩
    · rw [hjt.toList, hju.toList, append_assoc, toList]
    · exact between_move hju.height hjt.height hnode.height hnode.left_le hnode.right_le hlow hlt
  · obtain ⟨r₁₁, r₁₂, size', height', lowest', highest', rfl⟩ := hr₁.exists_node (by omega)
    obtain ⟨hr₁₁, hr₁₂, hnode'⟩ := hr₁
    have hlen₁₁ := hr₁₁.length_pos
    rw [toList, length_append] at hlen hlen₁ ih
    obtain ⟨u, hu, hju⟩ := ih l r₁₁ hl hr₁₁ (.inl (by omega))
    obtain ⟨v, hv, hjv⟩ := ih r₁₂ r₂ hr₁₂ hr₂ (.inl (by omega))
    have hlistu := hju.length
    have hlistv := hjv.length
    have huv := le_of_between hju.height hjv.height hnode'.height hnode'.left_le hnode'.right_le
      hnode.left_le hnode.right_le (not_lt.1 hlow)
    have hj : Joins kind u v := by
      by_cases hvu : v.height ≤ u.height + 2
      · exact joins_direct hju.good hjv.good (by omega) huv hvu
      · exact ih u v hju.good hjv.good (.inr ⟨by omega, by omega, by omega⟩)
    obtain ⟨t, ht, hjt⟩ := hj
    refine ⟨t, yields_right_split hlt (not_lt.1 hlow) hu hv ht, hjt.good, ?_, ?_⟩
    · rw [hjt.toList, hju.toList, hjv.toList, toList, toList]
      simp only [append_assoc]
    · exact between_split hju.height hjv.height hjt.height hnode'.height hnode.height hnode'.left_le
        hnode'.right_le hnode.left_le hnode.right_le (not_lt.1 hlow) hlt

/-- The left tree is taken apart. -/
theorem joins_left (hl : l.Good kind) (hr : r.Good kind)
    (hlen : l.toList.length + r.toList.length ≤ 2 ^ 32) (hlt : r.height + 2 < l.height)
    (ih : ∀ l' r', l'.Good kind → r'.Good kind →
      l'.toList.length + r'.toList.length < l.toList.length + r.toList.length ∨
        l'.toList.length + r'.toList.length = l.toList.length + r.toList.length ∧
          r'.height < l'.height ∧ l'.toList.length < l.toList.length → Joins kind l' r') :
    Joins kind l r := by
  obtain ⟨l₁, l₂, size, height, lowest, highest, rfl⟩ := hl.exists_node (by omega)
  obtain ⟨hl₁, hl₂, hnode⟩ := hl
  have hlen₁ := hl₁.length_pos
  have hlen₂ := hl₂.length_pos
  have hheight : height = max l₂.height l₁.height + 1 := Nat.max_comm _ _ ▸ hnode.height
  rw [toList, length_append] at hlen ih
  by_cases hlow : l₂.height < r.height + 2
  · obtain ⟨u, hu, hju⟩ := ih l₂ r hl₂ hr (.inl (by omega))
    have hlist := hju.length
    obtain ⟨hle, hge⟩ := near_of_move hju.height.symm hheight hnode.right_le hnode.left_le hlow hlt
    obtain ⟨t, ht, hjt⟩ := joins_direct hl₁ hju.good (by omega) hge hle
    refine ⟨t, yields_left hlt hlow hu ht, hjt.good, ?_, ?_⟩
    · rw [hjt.toList, hju.toList, toList, append_assoc]
    · exact (between_move hju.height.symm hjt.height.symm hheight hnode.right_le hnode.left_le hlow hlt).symm
  · obtain ⟨l₂₁, l₂₂, size', height', lowest', highest', rfl⟩ := hl₂.exists_node (by omega)
    obtain ⟨hl₂₁, hl₂₂, hnode'⟩ := hl₂
    have hlen₂₂ := hl₂₂.length_pos
    have hheight' : height' = max l₂₂.height l₂₁.height + 1 := Nat.max_comm _ _ ▸ hnode'.height
    rw [toList, length_append] at hlen hlen₂ ih
    obtain ⟨u, hu, hju⟩ := ih l₁ l₂₁ hl₁ hl₂₁ (.inl (by omega))
    obtain ⟨v, hv, hjv⟩ := ih l₂₂ r hl₂₂ hr (.inl (by omega))
    have hlistu := hju.length
    have hlistv := hjv.length
    have hvu := le_of_between hjv.height.symm hju.height.symm hheight' hnode'.right_le hnode'.left_le
      hnode.right_le hnode.left_le (not_lt.1 hlow)
    have hj : Joins kind u v := by
      by_cases huv : u.height ≤ v.height + 2
      · exact joins_direct hju.good hjv.good (by omega) huv hvu
      · exact ih u v hju.good hjv.good (.inr ⟨by omega, by omega, by omega⟩)
    obtain ⟨t, ht, hjt⟩ := hj
    refine ⟨t, yields_left_split hlt (not_lt.1 hlow) hu hv ht, hjt.good, ?_, ?_⟩
    · rw [hjt.toList, hju.toList, hjv.toList, toList, toList]
      simp only [append_assoc]
    · exact (between_split hjv.height.symm hju.height.symm hjt.height.symm hheight' hheight
        hnode'.right_le hnode'.left_le hnode.right_le hnode.left_le (not_lt.1 hlow) hlt).symm

/-- `balancedNode` ends for every two trees that together have no more elements than the size can count up to,
and joins them. -/
theorem balancedNode_joins (l r : Element κ ε) (hl : l.Good kind) (hr : r.Good kind)
    (hlen : l.toList.length + r.toList.length ≤ 2 ^ 32) : Joins kind l r := by
  by_cases hright : l.height + 2 < r.height
  · refine joins_right hl hr hlen hright fun l' r' hl' hr' h => ?_
    exact balancedNode_joins l' r' hl' hr' (by omega)
  by_cases hleft : r.height + 2 < l.height
  · refine joins_left hl hr hlen hleft fun l' r' hl' hr' h => ?_
    exact balancedNode_joins l' r' hl' hr' (by omega)
  · exact joins_direct hl hr hlen (by omega) (by omega)
termination_by (l.toList.length + r.toList.length, if l.height < r.height then r.toList.length else l.toList.length)
decreasing_by
  all_goals
    rw [Prod.lex_def]
    dsimp only
    split <;> split <;> omega

end ImmutableTree.Element
