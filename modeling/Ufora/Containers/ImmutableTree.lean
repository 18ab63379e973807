import Ufora.Lib.Fuel
import Mathlib

/-!
# The trees of `ImmutableTreeSet` and `ImmutableTreeMap`

`core/containers/ImmutableTreeSet.hppml` and `ImmutableTreeMap.hppml` have the same tree: elements at its leaves
in the order of their keys, and at each node the size, the height and the least and greatest key below
it. `balancedNode` joins two trees of any heights; `node` makes the union of two trees, where an element
of the right one takes the place of one of the left with an equivalent key.
-/

open Fuel List

namespace ImmutableTree

/-- What the trees of sets and maps differ in: the key of an element, and whether (for sets)
`nodeDirect` looks for empty children and `slice` for a slice of everything. -/
structure Kind (κ ε : Type) where
  key : ε → κ
  checked : Bool

/-- An `ImmutableTreeSetElement` or `ImmutableTreeMapElement`. The size is a `uint32_t`. -/
inductive Element (κ ε : Type) where
  | empty
  | leaf (value : ε)
  | node (left right : Element κ ε) (size height : ℕ) (lowest highest : κ)

namespace Element

variable {κ ε : Type} (kind : Kind κ ε)

/-- `size(in)`. -/
def size : Element κ ε → ℕ
  | empty => 0
  | leaf _ => 1
  | node _ _ size _ _ _ => size

/-- `height(in)`. -/
def height : Element κ ε → ℕ
  | empty => 0
  | leaf _ => 1
  | node _ _ _ height _ _ => height

/-- `lowest(e)`. -/
def lowest : Element κ ε → Option κ
  | empty => none
  | leaf x => some (kind.key x)
  | node _ _ _ _ lowest _ => some lowest

/-- `highest(e)`. -/
def highest : Element κ ε → Option κ
  | empty => none
  | leaf x => some (kind.key x)
  | node _ _ _ _ _ highest => some highest

/-- `nodeDirect(left, right)`. -/
def nodeDirect (left right : Element κ ε) : Option (Element κ ε) :=
  if kind.checked = true ∧ left.size = 0 then some right
  else if kind.checked = true ∧ right.size = 0 then some left
  else do
    let lowest ← left.lowest kind
    let highest ← right.highest kind
    return .node left right ((left.size + right.size) % 2 ^ 32)
      ((if left.height < right.height then right.height else left.height) + 1) lowest highest

/-- `balancedNode(left, right)`. -/
def balancedNode : ℕ → Element κ ε → Element κ ε → Option (Element κ ε)
  | 0, _, _ => none
  | limit + 1, left, right =>
    if left.height + 2 < right.height then
      match right with
      | .node right1 right2 _ _ _ _ =>
        if right1.height < left.height + 2 then
          (balancedNode limit left right1).bind fun left => balancedNode limit left right2
        else
          match right1 with
          | .node right11 right12 _ _ _ _ =>
            (balancedNode limit left right11).bind fun left =>
              (balancedNode limit right12 right2).bind fun right => balancedNode limit left right
          | _ => none
      | _ => none
    else if right.height + 2 < left.height then
      match left with
      | .node left1 left2 _ _ _ _ =>
        if left2.height < right.height + 2 then
          (balancedNode limit left2 right).bind fun right => balancedNode limit left1 right
        else
          match left2 with
          | .node left21 left22 _ _ _ _ =>
            (balancedNode limit left1 left21).bind fun left =>
              (balancedNode limit left22 right).bind fun right => balancedNode limit left right
          | _ => none
      | _ => none
    else nodeDirect kind left right

/-- `elt(element, inIndex)`. -/
def elt : Element κ ε → ℕ → Option ε
  | empty, _ => none
  | leaf value, _ => some value
  | node left right _ _ _ _, inIndex =>
    if inIndex < left.size then left.elt inIndex else right.elt (inIndex - left.size)

variable [LT κ] [DecidableLT κ]

/-- `lowerBound(element, t)`. -/
def lowerBound : Element κ ε → κ → Option ℕ
  | empty, _ => none
  | leaf l, t => some (if kind.key l < t then 1 else 0)
  | node l r _ _ _ _, t =>
    (l.highest kind).bind fun highest =>
      if highest < t then (r.lowerBound t).map fun bound => (bound + l.size) % 2 ^ 32
      else l.lowerBound t

end Element

section
open Element

variable {κ ε : Type} (kind : Kind κ ε) [LT κ] [DecidableLT κ]

mutual

/-- `node(left, right)`. -/
def node : ℕ → Element κ ε → Element κ ε → Option (Element κ ε)
  | 0, _, _ => none
  | limit + 1, left, right =>
    if left.size = 0 then some right
    else if right.size = 0 then some left
    else
      (left.lowest kind).bind fun lowestLeft =>
      (left.highest kind).bind fun highestLeft =>
      (right.lowest kind).bind fun lowestRight =>
      (right.highest kind).bind fun highestRight =>
      if highestLeft < lowestRight then balancedNode kind limit left right
      else if highestRight < lowestLeft then balancedNode kind limit right left
      else
        match left, right with
        | .leaf _, .leaf _ => some right
        | .leaf x, .node y1 y2 _ _ _ _ =>
          (y2.lowest kind).bind fun pivot =>
          if kind.key x < pivot then
            (node limit left y1).bind fun y1 => balancedNode kind limit y1 y2
          else (node limit left y2).bind fun y2 => balancedNode kind limit y1 y2
        | .node x1 x2 _ _ _ _, .leaf y =>
          (x2.lowest kind).bind fun pivot =>
          if kind.key y < pivot then
            (node limit x1 right).bind fun x1 => balancedNode kind limit x1 x2
          else (node limit x2 right).bind fun x2 => balancedNode kind limit x1 x2
        | .node x1 x2 _ _ _ _, .node _ _ _ _ _ _ =>
          (x2.lowest kind).bind fun pivot =>
          (right.lowerBound kind pivot).bind fun ix =>
          (slice limit right 0 ix).bind fun lower =>
          (slice limit right ix right.size).bind fun upper =>
          (node limit x1 lower).bind fun x1 =>
          (node limit x2 upper).bind fun x2 => balancedNode kind limit x1 x2
        | _, _ => none

/-- `slice(in, left, right)`. -/
def slice : ℕ → Element κ ε → ℕ → ℕ → Option (Element κ ε)
  | 0, _, _, _ => none
  | limit + 1, tree, left, right =>
    if kind.checked = true ∧ left = 0 ∧ tree.size ≤ right then some tree
    else
      match tree with
      | .empty => some tree
      | .leaf _ => some (if left = 0 ∧ 0 < right then tree else .empty)
      | .node a b _ _ _ _ =>
        (if left < a.size ∧ left < right then slice limit a left right else some .empty).bind fun a' =>
        (if left < (a.size + b.size) % 2 ^ 32 ∧ left < right then
          slice limit b (if a.size < left then left - a.size else 0)
            (if a.size < right then right - a.size else 0)
        else some .empty).bind fun b' =>
        node limit a' b'

end

end

/-! ## Well-formed trees -/

namespace Element

variable {κ ε : Type}

/-- The elements in order. -/
def toList : Element κ ε → List ε
  | empty => []
  | leaf value => [value]
  | node left right _ _ _ _ => left.toList ++ right.toList

/-- What a node with these children holds, and how far their heights may be apart. -/
structure NodeGood (kind : Kind κ ε) (left right : Element κ ε) (size height : ℕ) (lowest highest : κ) : Prop where
  size : size = (left.toList.length + right.toList.length) % 2 ^ 32
  height : height = max left.height right.height + 1
  left_le : left.height ≤ right.height + 2
  right_le : right.height ≤ left.height + 2
  lowest : left.lowest kind = some lowest
  highest : right.highest kind = some highest

/-- A tree with elements whose nodes all hold what they should. -/
def Good (kind : Kind κ ε) : Element κ ε → Prop
  | empty => False
  | leaf _ => True
  | node left right size height lowest highest =>
    left.Good kind ∧ right.Good kind ∧ NodeGood kind left right size height lowest highest

/-- What every node holds is right, and the heights of its children differ by at most 2. -/
def WellFormed (kind : Kind κ ε) : Element κ ε → Prop
  | node left right size height lowest highest =>
    left.WellFormed kind ∧ right.WellFormed kind ∧
      size = left.toList.length + right.toList.length ∧ height = max left.height right.height + 1 ∧
      (left.height ≤ right.height + 2 ∧ right.height ≤ left.height + 2) ∧
      left.toList.head?.map kind.key = some lowest ∧ right.toList.getLast?.map kind.key = some highest
  | _ => True

variable {kind : Kind κ ε} {t l r : Element κ ε}

section

variable (h : t.Good kind)
include h

theorem Good.length_pos : 0 < t.toList.length := by
  induction t with
  | empty => cases h
  | leaf value => exact Nat.one_pos
  | node left right size height lowest highest ihl ihr =>
    rw [toList, length_append]
    have := ihl h.1
    omega

theorem Good.size_eq : t.size = t.toList.length % 2 ^ 32 := by
  cases t with
  | empty => cases h
  | leaf value => rfl
  | node left right size height lowest highest =>
    rw [toList, length_append]
    exact h.2.2.size

theorem Good.size_of_lt (hlt : t.toList.length < 2 ^ 32) : t.size = t.toList.length := by
  rw [h.size_eq, Nat.mod_eq_of_lt hlt]

/-- The least key of a tree is that of its first element. -/
theorem Good.lowest_eq : t.lowest kind = t.toList.head?.map kind.key := by
  induction t with
  | empty => cases h
  | leaf value => rfl
  | node left right size height lowest highest ihl ihr =>
    rw [toList, head?_append_of_ne_nil _ (ne_nil_of_length_pos h.1.length_pos), ← ihl h.1]
    exact h.2.2.lowest.symm

/-- The greatest key of a tree is that of its last element. -/
theorem Good.highest_eq : t.highest kind = t.toList.getLast?.map kind.key := by
  induction t with
  | empty => cases h
  | leaf value => rfl
  | node left right size height lowest highest ihl ihr =>
    rw [toList, getLast?_append_of_ne_nil _ (ne_nil_of_length_pos h.2.1.length_pos), ← ihr h.2.1]
    exact h.2.2.highest.symm

theorem Good.exists_lowest : ∃ lowest, t.lowest kind = some lowest := by
  rw [h.lowest_eq, head?_eq_some_head (ne_nil_of_length_pos h.length_pos)]
  exact ⟨_, rfl⟩

theorem Good.exists_highest : ∃ highest, t.highest kind = some highest := by
  rw [h.highest_eq, getLast?_eq_some_getLast (ne_nil_of_length_pos h.length_pos)]
  exact ⟨_, rfl⟩

/-- A tree with fewer elements than the size can count is well-formed. -/
theorem Good.wellFormed (hlt : t.toList.length < 2 ^ 32) : t.WellFormed kind := by
  induction t with
  | empty => cases h
  | leaf value => trivial
  | node left right size height lowest highest ihl ihr =>
    obtain ⟨hl, hr, hnode⟩ := h
    rw [toList, length_append] at hlt
    refine ⟨ihl hl (by omega), ihr hr (by omega), ?_, hnode.height, ⟨hnode.left_le, hnode.right_le⟩,
      hl.lowest_eq.symm.trans hnode.lowest, hr.highest_eq.symm.trans hnode.highest⟩
    rw [hnode.size, Nat.mod_eq_of_lt hlt]

end

/-- `nodeDirect` makes a node of two trees of nearly the same height. -/
theorem Good.nodeDirect (hl : l.Good kind) (hr : r.Good kind)
    (hlt : l.toList.length + r.toList.length ≤ 2 ^ 32) (hle : l.height ≤ r.height + 2) (hge : r.height ≤ l.height + 2) :
    ∃ t, l.nodeDirect kind r = some t ∧ t.Good kind ∧ t.toList = l.toList ++ r.toList ∧
      t.height = max l.height r.height + 1 := by
  have hl' := hl.length_pos
  have hr' := hr.length_pos
  obtain ⟨lowest, hlowest⟩ := hl.exists_lowest
  obtain ⟨highest, hhighest⟩ := hr.exists_highest
  have hheight : (if l.height < r.height then r.height else l.height) = max l.height r.height := by
    split <;> omega
  rw [Element.nodeDirect, hl.size_of_lt (by omega), hr.size_of_lt (by omega), if_neg (by omega),
    if_neg (by omega), hlowest, hhighest, hheight]
  exact ⟨_, rfl, ⟨hl, hr, rfl, rfl, hle, hge, hlowest, hhighest⟩, rfl, rfl⟩

end Element

end ImmutableTree
