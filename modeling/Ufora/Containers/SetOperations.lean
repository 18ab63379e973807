import Ufora.Containers.ImmutableTreeSet

/-!
# Going through a set of the tree

The serializers write the elements of an `ImmutableTreeSet` one after the other and build the tree again. How long the
way to an element is follows from the balance of the tree.
-/

open Fuel KeyOrder ImmutableTree Element List

/-- A tree that is three higher has two children that are as high. -/
theorem ImmutableTree.Element.Good.two_pow_height_le {κ ε : Type} {kind : Kind κ ε} {t : Element κ ε}
    (h : t.Good kind) : 2 ^ (t.height / 3) ≤ t.toList.length := by
  induction t with
  | empty => exact h.elim
  | leaf value => simp [Element.height, toList]
  | node l r size height lowest highest ihl ihr =>
    obtain ⟨hl, hr, hnode⟩ := h
    have hbelow {n : ℕ} (hn : height ≤ n + 3) : 2 ^ (height / 3) ≤ 2 * 2 ^ (n / 3) :=
      (Nat.pow_le_pow_right (by decide) (by omega)).trans_eq (Nat.pow_succ' (n := n / 3))
    have hle := hnode.left_le
    have hge := hnode.right_le
    have hleft := hbelow (n := l.height) (by rw [hnode.height]; omega)
    have hright := hbelow (n := r.height) (by rw [hnode.height]; omega)
    rw [Element.height, toList, length_append]
    have := ihl hl
    have := ihr hr
    omega

namespace ImmutableTreeSet

variable {α : Type} [Preorder α] [DecidableLT α]

/-! ## The serializers -/

omit [Preorder α] [DecidableLT α] in
/-- `Serializer::serialize(s, t)`: the size and the elements. -/
def serialize (t : ImmutableTreeSet α) : Option (ℕ × List α) := ((range t.size).mapM t.get).map (t.size, ·)

/-- The loop of `Deserializer::deserialize(s, t)`, with what is left in the stream. -/
def deserialize (limit : ℕ) : ℕ → List α → ImmutableTreeSet α → Option (ImmutableTreeSet α × List α)
  | 0, stored, t => some (t, stored)
  | _ + 1, [], _ => none
  | sz + 1, t2 :: stored, t => (t.insert limit t2).bind (deserialize limit sz stored)

omit [DecidableLT α] in
/-- A loop over the indices reads all elements. -/
theorem map_get {s : ImmutableTreeSet α} (h : s.mElement.Valid (kind α)) :
    (range s.size).map s.get = s.mElement.toList.map some := h.map_at?

variable [Std.Total (α := α) (· ≤ ·)]

theorem deserialize_yields {stored : List α} (rest : List α) {t : ImmutableTreeSet α}
    (h : t.mElement.Valid (kind α)) (ha : Ascending id (t.mElement.toList ++ stored))
    (hlt : (t.mElement.toList ++ stored).length < 2 ^ 32) :
    ∃ u, Yields (fun limit => deserialize limit stored.length (stored ++ rest) t) (u, rest) ∧
      u.mElement.Valid (kind α) ∧ u.mElement.toList = t.mElement.toList ++ stored := by
  induction stored generalizing t with
  | nil => exact ⟨t, yields_some, h, (append_nil _).symm⟩
  | cons x stored ih =>
    rw [append_cons] at ha hlt
    obtain ⟨hax, -, -⟩ := ascending_append.1 ha
    obtain ⟨hat, hx, hb⟩ := ascending_append.1 hax
    have hunion : KeyOrder.union id t.mElement.toList [x] = t.mElement.toList ++ [x] := union_of_before hb hat hx
    obtain ⟨u, hu, hvu, hlu⟩ := node_yields h (valid_leaf x)
      (show (KeyOrder.union id t.mElement.toList [x]).length < 2 ^ 32 by
        rw [hunion]
        rw [length_append] at hlt
        omega)
    replace hlu : u.toList = t.mElement.toList ++ [x] := hlu.trans hunion
    obtain ⟨v, hv, hvv, hlv⟩ := ih (t := ⟨u⟩) hvu (by rwa [hlu]) (by rwa [hlu])
    refine ⟨v, ?_, hvv, by rw [hlv, hlu, ← append_cons]⟩
    exact ((hu.map mk).bind (g := fun t limit => deserialize limit stored.length (stored ++ rest) t) hv).congr
      fun _ => rfl

/-- A set that is written and read again, from a stream that goes on, has the same elements, and the rest of the
stream is left. -/
theorem deserialize_serialize (e : Expr α) (h : e.Fits) (rest : List α) : ∃ s, Yields e.eval s ∧
    ∃ stored, s.serialize = some stored ∧
      ∃ t, Yields (fun limit => deserialize limit stored.1 (stored.2 ++ rest) {}) (t, rest) ∧
      Represents t e.denote := by
  obtain ⟨s, hs, hv, hlist⟩ := e.eval_yields h
  have hget : (range s.size).mapM s.get = some e.denote := by
    have hmap := congrArg (mapM (m := Option) id) (map_get hv)
    rw [mapM_map, mapM_map, hlist] at hmap
    exact hmap.trans (mapM_pure.trans (congrArg some (map_id _)))
  obtain ⟨t, ht, hvt, hlt⟩ := deserialize_yields rest valid_empty (t := {})
    (show Ascending id e.denote from hlist ▸ hv.ascending) (hlist ▸ hv.length_lt)
  refine ⟨s, hs, (s.size, e.denote), by rw [serialize, hget]; rfl, t, ?_, ?_⟩
  · have hsize : s.size = e.denote.length := hlist ▸ hv.size_eq
    rw [hsize]
    exact ht
  · have hr := represents_of_valid hvt
    rwa [hlt] at hr

/-- The set of the first test, written before another one. -/
theorem deserialize_serialize_three :
    let e : Expr ℕ := .remove (.union (.insert (.single 2) 1) (.insert (.single 3) 2)) 1
    ∃ s, Yields e.eval s ∧ ∃ stored, s.serialize = some stored ∧
      ∃ t, Yields (fun limit => deserialize limit stored.1 (stored.2 ++ [1, 2]) {}) (t, [1, 2]) ∧
        Represents t e.denote :=
  deserialize_serialize _ (by simp [Expr.Fits, Expr.denote, KeyOrder.union, Apart]) [1, 2]

/-- The height of a set is at most three times the binary logarithm of its size, and two. -/
theorem height_le (e : Expr α) (h : e.Fits) : ∃ s, Yields e.eval s ∧ s.height ≤ 3 * Nat.log 2 s.size + 2 := by
  obtain ⟨s, hs, hv, -⟩ := e.eval_yields h
  refine ⟨s, hs, ?_⟩
  rcases hv.good with he | hgood
  · rw [height, he]
    exact Nat.zero_le _
  · have hpow := hgood.two_pow_height_le
    rw [← hv.size_eq] at hpow
    have := Nat.le_log_of_pow_le Nat.one_lt_two hpow
    show s.mElement.height ≤ 3 * Nat.log 2 s.mElement.size + 2
    omega

/-- A set of two elements. -/
theorem height_le_three : let e : Expr ℕ := .remove (.union (.insert (.single 2) 1) (.insert (.single 3) 2)) 1
    ∃ s, Yields e.eval s ∧ s.height ≤ 3 * Nat.log 2 s.size + 2 :=
  height_le _ (by simp [Expr.Fits, Expr.denote, KeyOrder.union, Apart])

end ImmutableTreeSet
