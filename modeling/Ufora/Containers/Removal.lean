import Ufora.Containers.Union

/-!
# Elements of trees, and trees without elements

Indexing, lookup of a key, and the removal of a key or of several keys: the functions that `ImmutableTreeSet`
and `ImmutableTreeMap` build on the trees.
-/

open Fuel KeyOrder List Option

namespace ImmutableTree

open Element

section
variable {κ ε : Type} (kind : Kind κ ε)

/-- `(*this)[inIndex]`, `pairAtPosition(inIndex)`. -/
def at? (t : Element κ ε) (inIndex : ℕ) : Option ε := if inIndex < t.size then t.elt inIndex else none

variable [LT κ] [DecidableLT κ]

/-- `lowerBound(in)` of the whole tree. -/
def lowerBoundOf (t : Element κ ε) (k : κ) : Option ℕ :=
  if t.size = 0 then some 0 else t.lowerBound kind k

/-- `contains(t)`. -/
def contains (t : Element κ ε) (k : κ) : Option Bool := (lowerBoundOf kind t k).bind fun v =>
    if v = t.size then some false
    else (at? t v).map fun t2 => decide (¬ kind.key t2 < k ∧ ¬ k < kind.key t2)

/-- `lhs - rhs` for an element or a key. Only the set's asserts the size of what is left. -/
def remove (limit : ℕ) (lhs : Element κ ε) (rhs : κ) : Option (Element κ ε) := (contains kind lhs rhs).bind fun found =>
  if found = false then some lhs
  else
    (lowerBoundOf kind lhs rhs).bind fun ix =>
    (slice kind limit lhs 0 ix).bind fun lower =>
    (slice kind limit lhs ((ix + 1) % 2 ^ 32) lhs.size).bind fun upper =>
    (node kind limit lower upper).bind fun tr =>
    if kind.checked = true ∧ tr.size ≠ lhs.size - 1 then none else some tr

/-- The loop of `lhs - rhs` over the elements of a set of keys, of which `keyAt` reads one. -/
def removeEach (limit : ℕ) (keyAt : ℕ → Option κ) : List ℕ → Element κ ε → Option (Element κ ε)
  | [], tr => some tr
  | k :: ks, tr =>
    (keyAt k).bind fun key => (remove kind limit tr key).bind fun tr => removeEach limit keyAt ks tr

end

variable {κ ε : Type} [Preorder κ] {kind : Kind κ ε} {t : Element κ ε}

theorem Element.Valid.at?_eq (h : t.Valid kind) (inIndex : ℕ) : at? t inIndex = t.toList[inIndex]? := by
  rw [at?, h.size_eq]
  split
  · next hlt =>
    have hne : t.toList ≠ [] := ne_nil_of_length_pos (by omega)
    exact (h.good_of_ne hne).elt_eq h.length_lt hlt
  · next hlt => exact (getElem?_eq_none (Nat.not_lt.1 hlt)).symm

/-- A loop over the indices reads all elements. -/
theorem Element.Valid.map_at? (h : t.Valid kind) : (List.range t.size).map (at? t) = t.toList.map some := by
  refine ext_getElem? fun i => ?_
  rw [getElem?_map, getElem?_map, h.size_eq]
  by_cases hi : i < t.toList.length
  · rw [getElem?_range hi, map_some, h.at?_eq, getElem?_eq_getElem hi]
    rfl
  · rw [getElem?_eq_none (by simpa using hi), getElem?_eq_none (by simpa using hi)]
    rfl

variable [DecidableLT κ]

theorem Element.Valid.lowerBoundOf_eq (h : t.Valid kind) (k : κ) :
    lowerBoundOf kind t k = some (t.toList.takeWhile fun x => kind.key x < k).length := by
  rw [lowerBoundOf, h.size_eq]
  split
  · next hz => rw [length_eq_zero_iff.1 hz, takeWhile_nil, length_nil]
  · next hz =>
    have hne : t.toList ≠ [] := fun hnil => hz (length_eq_zero_iff.2 hnil)
    exact (h.good_of_ne hne).lowerBound_eq h.ascending h.length_lt k

/-- An element whose key is equivalent to the one given. -/
def Matches (kind : Kind κ ε) (k : κ) (x : ε) : Prop := ¬ kind.key x < k ∧ ¬ k < kind.key x

instance (k : κ) (x : ε) : Decidable (Matches kind k x) := inferInstanceAs (Decidable (_ ∧ _))

variable [Std.Total (α := κ) (· ≤ ·)]

/-- An ascending list is what is below a key, an element that matches it, and what is above. -/
theorem exists_split {xs : List ε} (h : Ascending kind.key xs) {k : κ} (hk : ∃ x ∈ xs, Matches kind k x) :
    ∃ lower x upper, xs = lower ++ x :: upper ∧ xs.takeWhile (fun x => kind.key x < k) = lower ∧ Matches kind k x ∧
      (∀ y ∈ lower, kind.key y < k) ∧ ∀ y ∈ upper, k < kind.key y := by
  obtain ⟨x, hx, hnlt, hngt⟩ := hk
  rw [← takeWhile_append_dropWhile (p := fun x => decide (kind.key x < k)) (l := xs)] at hx
  have hx := (mem_append.1 hx).resolve_left fun hmem => hnlt (lt_of_mem_takeWhile hmem)
  cases hd : xs.dropWhile fun x => kind.key x < k with
  | nil => exact absurd (hd ▸ hx) not_mem_nil
  | cons y upper =>
    have hsplit := takeWhile_append_dropWhile (p := fun x => decide (kind.key x < k)) (l := xs)
    rw [hd] at hsplit hx
    have hupper := (ascending_append.1 (hsplit ▸ h)).2.1
    have hy : ¬ kind.key y < k := not_lt_of_mem_dropWhile h (hd ▸ mem_cons_self)
    have hky : ¬ k < kind.key y := by
      rcases mem_cons.1 hx with rfl | hx
      · exact hngt
      · exact fun hlt => hngt (hlt.trans ((pairwise_cons.1 hupper).1 x hx))
    refine ⟨_, y, upper, hsplit.symm, rfl, ⟨hy, hky⟩, fun z hz => lt_of_mem_takeWhile hz, ?_⟩
    exact fun z hz => (le_of_not_lt hy).trans_lt ((pairwise_cons.1 hupper).1 z hz)

theorem Element.Valid.contains_eq (h : t.Valid kind) (k : κ) :
    contains kind t k = some (decide (∃ x ∈ t.toList, Matches kind k x)) := by
  rw [contains, h.lowerBoundOf_eq, bind_some, h.size_eq]
  by_cases hk : ∃ x ∈ t.toList, Matches kind k x
  · obtain ⟨lower, x, upper, hlist, htake, hx, -, -⟩ := exists_split h.ascending hk
    have hne : lower.length ≠ t.toList.length := by
      rw [hlist, length_append, length_cons]
      omega
    rw [htake, if_neg hne, h.at?_eq, hlist, getElem?_append_right le_rfl, Nat.sub_self,
      getElem?_cons_zero, map_some, ← hlist, decide_eq_true hk]
    exact congrArg some (decide_eq_true hx)
  · rw [decide_eq_false hk]
    split
    · rfl
    · next hne =>
      have hlt := lt_of_le_of_ne (List.takeWhile_prefix (l := t.toList) fun x => decide (kind.key x < k)).length_le hne
      rw [h.at?_eq, getElem?_eq_getElem hlt, map_some]
      exact congrArg some (decide_eq_false fun hm => hk ⟨_, getElem_mem hlt, hm⟩)

omit [Std.Total (α := κ) (· ≤ ·)] in
theorem filter_split {lower upper : List ε} {x : ε} {k : κ} (hx : Matches kind k x)
    (hlower : ∀ y ∈ lower, kind.key y < k) (hupper : ∀ y ∈ upper, k < kind.key y) :
    (lower ++ x :: upper).filter (fun y => ¬ Matches kind k y) = lower ++ upper := by
  rw [filter_append, filter_cons_of_neg (by simpa using hx), filter_eq_self.2, filter_eq_self.2]
  · exact fun y hy => decide_eq_true fun hm => hm.2 (hupper y hy)
  · exact fun y hy => decide_eq_true fun hm => hm.1 (hlower y hy)

omit [Std.Total (α := κ) (· ≤ ·)] in
theorem yields_remove {k : κ} {ix : ℕ} {l u t' : Element κ ε} (hfound : contains kind t k = some true)
    (hix : lowerBoundOf kind t k = some ix) (hl : Yields (fun limit => slice kind limit t 0 ix) l)
    (hu : Yields (fun limit => slice kind limit t ((ix + 1) % 2 ^ 32) t.size) u)
    (ht : Yields (fun limit => node kind limit l u) t')
    (hsize : ¬ (kind.checked = true ∧ t'.size ≠ t.size - 1)) :
    Yields (fun limit => remove kind limit t k) t' := by
  obtain ⟨n₁, h₁⟩ := hl
  obtain ⟨n₂, h₂⟩ := hu
  obtain ⟨n₃, h₃⟩ := ht
  dsimp only at h₁ h₂ h₃
  refine ⟨n₁ + n₂ + n₃, fun limit hle => ?_⟩
  show remove kind limit t k = some t'
  rw [remove, hfound, bind_some, if_neg (by decide), hix, bind_some,
    h₁ limit (by omega), bind_some, h₂ limit (by omega), bind_some,
    h₃ limit (by omega), bind_some, if_neg hsize]

/-- `lhs - rhs` ends, without the element of the key. -/
theorem remove_yields (h : t.Valid kind) (k : κ) : ∃ t', Yields (fun limit => remove kind limit t k) t' ∧
    t'.Valid kind ∧
      t'.toList = t.toList.filter fun x => ¬ Matches kind k x := by
  have hfound := h.contains_eq k
  by_cases hk : ∃ x ∈ t.toList, Matches kind k x
  · obtain ⟨lower, x, upper, hlist, htake, hx, hlower, hupper⟩ := exists_split h.ascending hk
    have hlen := congrArg List.length hlist
    rw [length_append, length_cons] at hlen
    have hlt := h.length_lt
    obtain ⟨l, hl, hvl, hll⟩ := slice_yields h 0 lower.length
    obtain ⟨u, hu, hvu, hlu⟩ := slice_yields h ((lower.length + 1) % 2 ^ 32) t.size
    have hdrop : (lower ++ x :: upper).drop (lower.length + 1) = upper := by
      rw [← drop_drop, drop_left]
      rfl
    rw [extract, hlist, drop_zero, Nat.sub_zero, take_left] at hll
    rw [extract, Nat.mod_eq_of_lt (by omega), h.size_eq, take_of_length_le length_drop.le, hlist, hdrop] at hlu
    have hb : Before kind.key l.toList u.toList := fun y hy z hz =>
      (hlower y (hll ▸ hy)).trans (hupper z (hlu ▸ hz))
    have hlen' : (l.toList ++ u.toList).length = t.toList.length - 1 := by
      rw [hll, hlu, length_append]
      omega
    obtain ⟨t', ht', hv', hl'⟩ := node_yields_of_before hvl hvu hb (by omega)
    have hsize : ¬ (kind.checked = true ∧ t'.size ≠ t.size - 1) := by
      rw [hv'.size_eq, h.size_eq, hl', hlen']
      exact fun hne => hne.2 rfl
    refine ⟨t', ?_, hv', ?_⟩
    · rw [decide_eq_true hk] at hfound
      have hix := h.lowerBoundOf_eq k
      rw [htake] at hix
      exact yields_remove hfound hix hl hu ht' hsize
    · rw [hl', hll, hlu, hlist, filter_split hx hlower hupper]
  · rw [decide_eq_false hk] at hfound
    refine ⟨t, ⟨0, fun limit _ => ?_⟩, h, (filter_eq_self.2 fun x hx => ?_).symm⟩
    · show remove kind limit t k = some t
      rw [remove, hfound]
      rfl
    · exact decide_eq_true fun hm => hk ⟨x, hx, hm⟩

/-- Several keys are removed one after the other. -/
theorem removeEach_yields (keyAt : ℕ → Option κ) (ks : List ℕ) (keys : List κ)
    (hkeys : ks.map keyAt = keys.map some) (h : t.Valid kind) :
    ∃ t', Yields (fun limit => removeEach kind limit keyAt ks t) t' ∧ t'.Valid kind ∧
      t'.toList = t.toList.filter fun x => ∀ k ∈ keys, ¬ Matches kind k x := by
  induction ks generalizing t keys with
  | nil =>
    obtain rfl : keys = [] := map_eq_nil_iff.1 hkeys.symm
    exact ⟨t, yields_some, h, (filter_eq_self.2 fun _ _ => by simp).symm⟩
  | cons k ks ih =>
    cases keys with
    | nil => cases hkeys
    | cons key keys =>
      obtain ⟨hkey, hkeys⟩ := cons.inj hkeys
      obtain ⟨u, ⟨n, hn⟩, hvu, hlu⟩ := remove_yields h key
      obtain ⟨t', ⟨m, hm⟩, hv', hl'⟩ := ih keys hkeys hvu
      refine ⟨t', ⟨n + m, fun limit hle => ?_⟩, hv', ?_⟩
      · dsimp only at hn ⊢
        rw [removeEach, hkey, bind_some, hn limit (by omega), bind_some]
        exact hm limit (by omega)
      · rw [hl', hlu, List.filter_filter]
        refine filter_congr fun x _ => ?_
        simp only [forall_mem_cons, Bool.decide_and, Bool.and_comm]

end ImmutableTree
