import Mathlib.Data.Fintype.Option
import Ufora.Judgments.JudgmentOnValueTuple

/-!
# What judgments on tuples say about tuples

The operations on judgments on tuples are right about the tuples that are in the judgments, if those on the judgments
on elements are. Only `disjoint` and `intersectWith` conclude from what two judgments say about further elements that
there is no tuple in both, and there may be one without further elements.
-/

open List Option

namespace Judgments

/-- The judgments on elements are right about the elements that are in them. -/
structure ElementJudgments.Lawful (J : ElementJudgments) : Prop where
  covers : ∀ a b, J.covers a b → ∀ v, J.coversImplVal b v → J.coversImplVal a v
  disjoint : ∀ a b, J.disjoint a b → ∀ v, ¬ (J.coversImplVal a v ∧ J.coversImplVal b v)
  intersectWith : ∀ a b v, J.coversImplVal a v → J.coversImplVal b v → ∃ c ∈ J.intersectWith a b, J.coversImplVal c v
  smallestCovering : ∀ a b v, J.coversImplVal a v ∨ J.coversImplVal b v → J.coversImplVal (J.smallestCovering a b) v
  unknown_intersectWith : ∀ a, J.intersectWith J.unknown a = [a]
  intersectWith_unknown : ∀ a, J.intersectWith a J.unknown = [a]

namespace JudgmentOnValueTuple

variable {J : ElementJudgments} {s other : JudgmentOnValueTuple J} {v w : Tuple J} {k : ℕ}

/-- The tuple has at least the listed elements, exactly these where there are no extras, with the names listed, and
every element is in the judgment for it. -/
structure Contains (s : JudgmentOnValueTuple J) (v : Tuple J) : Prop where
  size : s.jovs.length ≤ v.length
  noExtras : s.extras = none → v.length = s.jovs.length
  names : ∀ k < s.jovs.length, v[k]?.map Prod.fst = s.names[k]?
  elements : ∀ (k : ℕ) e, v[k]? = some e → ∃ j, s.get k = some j ∧ J.coversImplVal j e.2

/-- The operations are right about the tuples that are in the judgments, and no assertion fails. -/
structure Sound (s other : JudgmentOnValueTuple J) : Prop where
  returns : (s.covers other).isSome ∧ (s.disjoint other).isSome ∧ (s.intersectWith other).isSome
  covers : s.covers other = some true → ∀ v, other.Contains v → s.Contains v
  disjoint : s.disjoint other = some true → ∀ v, ¬ (s.Contains v ∧ other.Contains v)
  intersectWith : ∀ v, s.Contains v → other.Contains v →
    ∃ result, s.intersectWith other = some result ∧ ∃ t ∈ result, t.Contains v
  smallestCovering : ∀ v, s.Contains v ∨ other.Contains v → (s.smallestCovering other).Contains v
  merge : ∀ v w, s.Contains v → other.Contains w → (s.merge other).Contains (v ++ w)

/-- At every listed index the names agree and the judgments share an element. -/
structure Meets (s other : JudgmentOnValueTuple J) : Prop where
  size : s.extras = none → other.jovs.length ≤ s.jovs.length
  otherSize : other.extras = none → s.jovs.length ≤ other.jovs.length
  names : ∀ k < min s.jovs.length other.jovs.length, s.names[k]? = other.names[k]?
  elements : ∀ k < max s.jovs.length other.jovs.length, ∃ j j' e, s.get k = some j ∧ other.get k = some j' ∧
    J.coversImplVal j e ∧ J.coversImplVal j' e

/-- Where the listed elements meet, their judgments intersect in one judgment each, and those on the extras, if both
have extras, are not disjoint and intersect in one judgment too. -/
def ExtrasMeet (s other : JudgmentOnValueTuple J) : Prop := s.Meets other →
    (∀ k < max s.jovs.length other.jovs.length, ∀ j j', s.get k = some j → other.get k = some j' →
      (J.intersectWith j j').length = 1) ∧
      ∀ j j', s.extras = some j → other.extras = some j' → J.disjoint j j' = false ∧ (J.intersectWith j j').length = 1

/-! ## Elements -/

theorem get_of_lt (h : k < s.jovs.length) : s.get k = some s.jovs[k] := by
  unfold get
  rw [if_pos h, getElem?_eq_getElem h]

theorem get_of_le (h : s.jovs.length ≤ k) : s.get k = s.extras := by
  unfold get
  rw [if_neg (by omega)]

/-- The assertion of `operator[]`. -/
theorem get_isSome (h : s.extras = none → k < s.jovs.length) : ∃ j, s.get k = some j := by
  by_cases hk : k < s.jovs.length
  · exact ⟨_, get_of_lt hk⟩
  · rw [get_of_le (by omega)]
    cases hextras : s.extras with
    | none => exact absurd (h hextras) hk
    | some j => exact ⟨j, rfl⟩

theorem maxElements_of_none (h : s.extras = none) : s.maxElements = some s.jovs.length := by
  unfold maxElements
  rw [h]

variable {j j' ex : J.JudgmentOnValue}

theorem maxElements_of_some (h : s.extras = some j) : s.maxElements = none := by
  unfold maxElements
  rw [h]

variable {n : ℕ}

/-- The check of the sizes with which `disjoint` and `intersectWith` begin. -/
theorem maxElements_lt : (s.maxElements.any fun max => max < n) = true ↔ s.extras = none ∧ s.jovs.length < n := by
  cases h : s.extras with
  | none => simp [maxElements_of_none h]
  | some j => simp [maxElements_of_some h]

theorem namesDiffer_eq_false : s.namesDiffer other k = false ↔ s.names[k]? = other.names[k]? := by
  simp [namesDiffer]

/-- A loop over indices at which no assertion fails. -/
theorem allM_of_isSome {l : List ℕ} {f : ℕ → Option Bool} (h : ∀ k ∈ l, (f k).isSome) :
    ∃ b, l.allM f = some b ∧ (b = true ↔ ∀ k ∈ l, f k = some true) := by
  induction l with
  | nil => exact ⟨true, rfl, by simp⟩
  | cons k l ih =>
    obtain ⟨b, hb, hiff⟩ := ih fun k' hk => h k' (.tail _ hk)
    obtain ⟨c, hc⟩ := isSome_iff_exists.1 (h k (.head _))
    cases c with
    | false => exact ⟨false, by simp [allM, hc], by simp [hc]⟩
    | true => exact ⟨b, by simp [allM, hc, hb], by simp [hc, hiff]⟩

theorem anyM_of_isSome {l : List ℕ} {f : ℕ → Option Bool} (h : ∀ k ∈ l, (f k).isSome) :
    ∃ b, l.anyM f = some b ∧ (b = true ↔ ∃ k ∈ l, f k = some true) := by
  induction l with
  | nil => exact ⟨false, rfl, by simp⟩
  | cons k l ih =>
    obtain ⟨b, hb, hiff⟩ := ih fun k' hk => h k' (.tail _ hk)
    obtain ⟨c, hc⟩ := isSome_iff_exists.1 (h k (.head _))
    cases c with
    | false => exact ⟨b, by simp [anyM, hc, hb], by simp [hc, hiff]⟩
    | true => exact ⟨true, by simp [anyM, hc], by simp [hc]⟩

/-! ## `covers` -/

theorem extrasCover_get (h : s.extrasCover other j = true) (hk : s.jovs.length ≤ k)
    (hget : other.get k = some j') : J.covers j j' := by
  unfold extrasCover at h
  by_cases hmax : (other.maxElements.any fun otherMaxElts => s.jovs.length ≥ otherMaxElts) = true
  · -- the other judgment has no element at the index
    cases hextras : other.extras with
    | none =>
      rw [maxElements_of_none hextras] at hmax
      have hle : other.jovs.length ≤ s.jovs.length := by simpa using hmax
      rw [get_of_le (by omega), hextras] at hget
      cases hget
    | some jov =>
      rw [maxElements_of_some hextras] at hmax
      cases hmax
  rw [if_neg hmax] at h
  split at h
  · cases h
  rename_i hdrop
  by_cases hlt : k < other.jovs.length
  · rw [get_of_lt hlt] at hget
    cases hget
    have hmem : other.jovs[k] ∈ other.jovs.drop s.jovs.length :=
      mem_drop_iff_getElem.2 ⟨k - s.jovs.length, by omega, by simp only [Nat.add_sub_cancel' hk]⟩
    simpa using fun hcovers => hdrop (any_eq_true.2 ⟨_, hmem, hcovers⟩)
  · rw [get_of_le (by omega)] at hget
    rw [hget] at h
    exact h

/-- What `covers` has checked when it returns true. -/
structure Covering (s other : JudgmentOnValueTuple J) : Prop where
  size : s.jovs.length ≤ other.jovs.length
  noExtras : s.extras = none → other.extras = none ∧ other.jovs.length ≤ s.jovs.length
  names : ∀ k < s.jovs.length, s.names[k]? = other.names[k]?
  elements : ∀ k j j', s.get k = some j → other.get k = some j' → J.covers j j'

theorem covers_spec : ∃ b, s.covers other = some b ∧ (b = true → s.Covering other) := by
  unfold covers
  split
  · exact ⟨false, rfl, by simp⟩
  split
  · exact ⟨false, rfl, by simp⟩
  rename_i hmax
  split
  · exact ⟨false, rfl, by simp⟩
  rename_i hlt
  split
  · exact ⟨false, rfl, by simp⟩
  rename_i hnames
  obtain ⟨b, hb, hiff⟩ := allM_of_isSome
    (l := range s.jovs.length) (f := fun k => do return J.covers (← s.get k) (← other.get k)) fun k hk => by
      have hk := mem_range.1 hk
      rw [get_of_lt hk, get_of_lt (by omega)]
      rfl
  have hcovering (hb : b = true) (hextras : ∀ j, s.extras = some j → s.extrasCover other j = true) : s.Covering other :=
    { size := by omega
      noExtras hnone := by
        rw [maxElements_of_none hnone] at hmax hlt
        cases hother : other.extras with
        | none =>
          rw [maxElements_of_none hother] at hlt
          exact ⟨rfl, by simpa using hlt⟩
        | some j => simp [maxElements_of_some hother] at hmax
      names k hk := by
        have hall := fun h => hnames (any_eq_true.2 ⟨k, mem_range.2 hk, h⟩)
        exact namesDiffer_eq_false.1 (Bool.eq_false_iff.2 hall)
      elements k j j' hj hj' := by
        by_cases hk : k < s.jovs.length
        · have hat := hiff.1 hb k (mem_range.2 hk)
          simpa [hj, hj'] using hat
        · rw [get_of_le (by omega)] at hj
          exact extrasCover_get (hextras j hj) (by omega) hj' }
  rw [hb]
  cases b with
  | false => exact ⟨false, rfl, by simp⟩
  | true =>
    cases hextras : s.extras with
    | none => exact ⟨true, rfl, fun _ => hcovering rfl fun j hj => by simp [hextras] at hj⟩
    | some j =>
      refine ⟨s.extrasCover other j, rfl, fun h => hcovering rfl fun j' hj => ?_⟩
      rw [hextras] at hj
      cases hj
      exact h

theorem Covering.contains (hJ : J.Lawful) (h : s.Covering other) (hv : other.Contains v) : s.Contains v where
  size := Nat.le_trans h.size hv.size
  noExtras hnone := by
    have hother := h.noExtras hnone
    have hlength := hv.noExtras hother.1
    have hsize := h.size
    omega
  names k hk := by rw [hv.names k (by have := h.size; omega), h.names k hk]
  elements k e he := by
    obtain ⟨j', hj', hcovers⟩ := hv.elements k e he
    have hlt : k < v.length := (List.getElem?_eq_some_iff.1 he).1
    have ⟨j, hj⟩ : ∃ j, s.get k = some j := get_isSome fun hnone => by
      have hother := h.noExtras hnone
      have hlength := hv.noExtras hother.1
      omega
    exact ⟨j, hj, hJ.covers j j' (h.elements k j j' hj hj') _ hcovers⟩

/-! ## Where judgments meet -/

/-- The judgments for an element that both judgments may have. -/
theorem Meets.get_isSome (h : s.Meets other) (hk : k < max s.jovs.length other.jovs.length) :
    (∃ j, s.get k = some j) ∧ ∃ j, other.get k = some j := by
  obtain ⟨j, j', _, hj, hj', _⟩ := h.elements k hk
  exact ⟨⟨j, hj⟩, ⟨j', hj'⟩⟩

theorem Contains.meets (hv : s.Contains v) (hother : other.Contains v) : s.Meets other where
  size hnone := hv.noExtras hnone ▸ hother.size
  otherSize hnone := hother.noExtras hnone ▸ hv.size
  names k hk := by rw [← hv.names k (by omega), ← hother.names k (by omega)]
  elements k hk := by
    have hlt : k < v.length := by
      have hsize := hv.size
      have hsize' := hother.size
      omega
    obtain ⟨j, hj, he⟩ := hv.elements k _ (getElem?_eq_getElem hlt)
    obtain ⟨j', hj', he'⟩ := hother.elements k _ (getElem?_eq_getElem hlt)
    exact ⟨j, j', _, hj, hj', he, he'⟩

/-- A tuple without further elements is in a judgment if its elements are. -/
theorem contains_ofFn {f : Fin n → Option J.Symbol × J.ImplVal}
    (hsize : s.jovs.length ≤ n) (hnone : s.extras = none → n ≤ s.jovs.length)
    (hnames : ∀ k : Fin n, k < s.jovs.length → s.names[(k : ℕ)]? = some (f k).1)
    (helements : ∀ k : Fin n, ∃ j, s.get k = some j ∧ J.coversImplVal j (f k).2) :
    s.Contains (ofFn f) where
  size := by simpa using hsize
  noExtras h := by simpa using Nat.le_antisymm (hnone h) hsize
  names k hk := by
    have hlt : k < n := by omega
    rw [hnames ⟨k, hlt⟩ hk, List.getElem?_ofFn, dif_pos hlt]
    rfl
  elements k e he := by
    rw [List.getElem?_ofFn] at he
    split at he
    · rename_i hlt
      cases he
      exact helements ⟨k, hlt⟩
    · cases he

/-- The name of an element that both judgments may have. -/
theorem Meets.exists_name (h : s.Meets other) (hk : k < max s.jovs.length other.jovs.length) :
    ∃ name, (k < s.jovs.length → s.names[k]? = some name) ∧ (k < other.jovs.length → other.names[k]? = some name) := by
  have hs := s.sameSize
  have ho := other.sameSize
  by_cases hlt : k < s.jovs.length
  · refine ⟨s.names[k], fun _ => getElem?_eq_getElem (by omega), fun hlt' => ?_⟩
    rw [← h.names k (by omega), getElem?_eq_getElem (by omega)]
  · exact ⟨other.names[k], fun hlt' => absurd hlt' hlt, fun _ => getElem?_eq_getElem (by omega)⟩

/-- Where the listed elements meet, the tuple of the elements that they share is in both. -/
theorem Meets.exists_contains (h : s.Meets other) : ∃ v : Tuple J, s.Contains v ∧ other.Contains v ∧
      v.length = max s.jovs.length other.jovs.length := by
  have hname (k : Fin (max s.jovs.length other.jovs.length)) := h.exists_name k.2
  choose name hname hname' using hname
  have helements (k : Fin (max s.jovs.length other.jovs.length)) := h.elements k k.2
  choose j j' e hj hj' he he' using helements
  refine ⟨ofFn fun k => (name k, e k), ?_, ?_, length_ofFn⟩
  · exact contains_ofFn (Nat.le_max_left _ _) (fun hnone => Nat.max_le.2 ⟨Nat.le_refl _, h.size hnone⟩) hname
      fun k => ⟨j k, hj k, he k⟩
  · exact contains_ofFn (Nat.le_max_right _ _) (fun hnone => Nat.max_le.2 ⟨h.otherSize hnone, Nat.le_refl _⟩) hname'
      fun k => ⟨j' k, hj' k, he' k⟩

/-! ## `disjoint` -/

/-- Why `disjoint` returns true. -/
inductive Disjoint (s other : JudgmentOnValueTuple J) : Prop
  | size (hextras : s.extras = none) (h : s.jovs.length < other.jovs.length)
  | otherSize (hextras : other.extras = none) (h : other.jovs.length < s.jovs.length)
  | elements (k : ℕ) (j j' : J.JudgmentOnValue) (hj : s.get k = some j) (hj' : other.get k = some j')
      (hk : k < max s.jovs.length other.jovs.length) (h : J.disjoint j j')
  | names (k : ℕ) (hk : k < min s.jovs.length other.jovs.length)
      (h : s.names[k]? ≠ other.names[k]?)
  | extras (j j' : J.JudgmentOnValue) (hj : s.extras = some j) (hj' : other.extras = some j')
      (h : J.disjoint j j')

/-- The judgments for an index within the larger size, when the sizes do not exclude a tuple in
both. -/
theorem gets_isSome (hsize : s.extras = none → other.jovs.length ≤ s.jovs.length)
    (hsize' : other.extras = none → s.jovs.length ≤ other.jovs.length) (hk : k < max s.jovs.length other.jovs.length) :
    (∃ j, s.get k = some j) ∧ ∃ j', other.get k = some j' :=
  ⟨get_isSome fun h => by have := hsize h; omega, get_isSome fun h => by have := hsize' h; omega⟩

theorem disjointAt_of_get (hj : s.get k = some j) (hj' : other.get k = some j') :
    s.disjointAt other k = some (J.disjoint j j' ||
      decide (k < s.jovs.length) && decide (k < other.jovs.length) && s.namesDiffer other k) := by
  unfold disjointAt
  rw [hj, hj']
  rfl

/-- A round of the loop finds a reason. -/
theorem Disjoint.of_disjointAt (hk : k < max s.jovs.length other.jovs.length)
    (hj : s.get k = some j) (hj' : other.get k = some j')
    (h : s.disjointAt other k = some true) : s.Disjoint other := by
  rw [disjointAt_of_get hj hj', some_inj, Bool.or_eq_true] at h
  obtain h | h := h
  · exact .elements k j j' hj hj' hk h
  · simp only [Bool.and_eq_true, decide_eq_true_eq] at h
    refine .names k (by omega) fun heq => ?_
    rw [namesDiffer_eq_false.2 heq] at h
    exact absurd h.2 Bool.false_ne_true

/-- Where no round of the loop finds a reason, only the extras may be one. -/
theorem Disjoint.extras_of_disjointAt (hsize : s.extras = none → other.jovs.length ≤ s.jovs.length)
    (hsize' : other.extras = none → s.jovs.length ≤ other.jovs.length)
    (hnone : ∀ k < max s.jovs.length other.jovs.length, s.disjointAt other k ≠ some true) (h : s.Disjoint other) :
    ∃ j j', s.extras = some j ∧ other.extras = some j' ∧ J.disjoint j j' := by
  cases h with
  | size hextras h => exact absurd h (Nat.not_lt.2 (hsize hextras))
  | otherSize hextras h => exact absurd h (Nat.not_lt.2 (hsize' hextras))
  | elements k j j' hj hj' hk h =>
    exact absurd (by rw [disjointAt_of_get hj hj', h]; rfl) (hnone k hk)
  | names k hk h =>
    have hk' : k < max s.jovs.length other.jovs.length := by omega
    obtain ⟨⟨j, hj⟩, j', hj'⟩ := gets_isSome hsize hsize' hk'
    refine absurd ?_ (hnone k hk')
    have hdiffer : s.namesDiffer other k = true := Bool.not_eq_false _ ▸ fun heq => h (namesDiffer_eq_false.1 heq)
    rw [disjointAt_of_get hj hj', hdiffer, decide_eq_true (by omega : k < s.jovs.length),
      decide_eq_true (by omega : k < other.jovs.length), Bool.and_self, Bool.and_self,
      Bool.or_true]
  | extras j j' hj hj' h => exact ⟨j, j', hj, hj', h⟩

theorem disjoint_spec : ∃ b, s.disjoint other = some b ∧ (b = true ↔ s.Disjoint other) := by
  unfold disjoint
  split
  · rename_i h
    obtain ⟨hextras, h⟩ := maxElements_lt.1 h
    exact ⟨true, rfl, fun _ => .size hextras h, fun _ => rfl⟩
  rename_i hmax
  split
  · rename_i h
    obtain ⟨hextras, h⟩ := maxElements_lt.1 h
    exact ⟨true, rfl, fun _ => .otherSize hextras h, fun _ => rfl⟩
  rename_i hmax'
  have hsize h : other.jovs.length ≤ s.jovs.length := Nat.not_lt.1 fun hlt => hmax (maxElements_lt.2 ⟨h, hlt⟩)
  have hsize' h : s.jovs.length ≤ other.jovs.length := Nat.not_lt.1 fun hlt => hmax' (maxElements_lt.2 ⟨h, hlt⟩)
  obtain ⟨b, hb, hiff⟩ := anyM_of_isSome (f := s.disjointAt other)
    (l := range (max s.jovs.length other.jovs.length)) fun k hk => by
      obtain ⟨⟨j, hj⟩, j', hj'⟩ := gets_isSome hsize hsize' (mem_range.1 hk)
      rw [disjointAt_of_get hj hj']
      rfl
  rw [hb]
  cases b with
  | true =>
    obtain ⟨k, hk, hat⟩ := hiff.1 rfl
    have hk := mem_range.1 hk
    obtain ⟨⟨j, hj⟩, j', hj'⟩ := gets_isSome hsize hsize' hk
    exact ⟨true, rfl, fun _ => .of_disjointAt hk hj hj' hat, fun _ => rfl⟩
  | false =>
    have hextras := Disjoint.extras_of_disjointAt hsize hsize' fun k hk hat =>
      Bool.false_ne_true (hiff.2 ⟨k, mem_range.2 hk, hat⟩)
    split
    · rename_i j j' hj hj'
      refine ⟨J.disjoint j j', rfl, fun h => .extras j j' hj hj' h, fun h => ?_⟩
      obtain ⟨_, _, h₁, h₂, h⟩ := hextras h
      rw [hj] at h₁
      rw [hj'] at h₂
      cases h₁
      cases h₂
      exact h
    · rename_i hnone
      refine ⟨false, rfl, fun h => (Bool.false_ne_true h).elim, fun h => ?_⟩
      obtain ⟨j, j', hj, hj', _⟩ := hextras h
      exact (hnone j j' hj hj').elim

/-- Every other reason excludes a tuple in both. -/
theorem Disjoint.extras_of_contains (hJ : J.Lawful) (h : s.Disjoint other) (hv : s.Contains v)
    (hv' : other.Contains v) :
    ∃ j j', s.extras = some j ∧ other.extras = some j' ∧ J.disjoint j j' := by
  have hmeets := hv.meets hv'
  cases h with
  | size hextras h => exact absurd h (Nat.not_lt.2 (hmeets.size hextras))
  | otherSize hextras h => exact absurd h (Nat.not_lt.2 (hmeets.otherSize hextras))
  | elements k j j' hj hj' hk h =>
    obtain ⟨_, _, e, h₁, h₂, he, he'⟩ := hmeets.elements k hk
    rw [hj] at h₁
    rw [hj'] at h₂
    cases h₁
    cases h₂
    exact absurd ⟨he, he'⟩ (hJ.disjoint j j' h e)
  | names k hk h => exact absurd (hmeets.names k hk) h
  | extras j j' hj hj' h => exact ⟨j, j', hj, hj', h⟩

/-! ## `intersectWith` -/

variable {subs : List (J.JudgmentOnValue × Option J.Symbol)} {ks : List ℕ}

theorem intersectLoop_eq_some : s.intersectLoop other ks = some (some subs) ↔
      List.Forall₂ (fun k sub => s.intersectAt other k = some (some sub)) ks subs := by
  induction ks generalizing subs with
  | nil =>
    simp only [intersectLoop, forall₂_nil_left_iff, some.injEq]
    exact eq_comm
  | cons k ks ih =>
    unfold intersectLoop
    constructor
    · intro h
      obtain ⟨sub, hsub, h⟩ := bind_eq_some_iff.1 h
      cases sub with
      | none => cases h
      | some sub =>
        obtain ⟨rest, hrest, h⟩ := bind_eq_some_iff.1 h
        cases rest with
        | none => cases h
        | some rest =>
          cases h
          exact .cons hsub (ih.1 hrest)
    · intro h
      cases h with
      | cons hsub hrest =>
        rw [hsub, ih.2 hrest]
        rfl

theorem intersectLoop_isSome (h : ∀ k ∈ ks, (s.intersectAt other k).isSome) : (s.intersectLoop other ks).isSome := by
  induction ks with
  | nil => rfl
  | cons k ks ih =>
    obtain ⟨sub, hsub⟩ := isSome_iff_exists.1 (h k (.head _))
    obtain ⟨rest, hrest⟩ := isSome_iff_exists.1 (ih fun k' hk => h k' (.tail _ hk))
    unfold intersectLoop
    rw [hsub, hrest]
    cases sub <;> rfl

/-- A round of the loop that goes on. -/
theorem intersectAt_eq_some {sub : J.JudgmentOnValue × Option J.Symbol} :
    s.intersectAt other k = some (some sub) ↔ ∃ j j', s.get k = some j ∧ other.get k = some j' ∧
      J.intersectWith j j' = [sub.1] ∧ s.nameOf other k = some sub.2 := by
  unfold intersectAt
  constructor
  · intro h
    split at h
    · cases h
    rename_i name hname
    obtain ⟨j, hj, h⟩ := bind_eq_some_iff.1 h
    obtain ⟨j', hj', h⟩ := bind_eq_some_iff.1 h
    split at h
    · rename_i sub hsub
      cases h
      exact ⟨j, j', hj, hj', hsub, hname⟩
    · cases h
  · intro h
    obtain ⟨j, j', hj, hj', hsub, hname⟩ := h
    rw [hname]
    simp only [hj, hj', bind_eq_bind, bind_some, hsub]
    rfl

theorem intersectAt_isSome (hj : s.get k = some j) (hj' : other.get k = some j') : (s.intersectAt other k).isSome := by
  unfold intersectAt
  cases s.nameOf other k with
  | none => rfl
  | some name =>
    simp only [hj, hj', bind_eq_bind, bind_some]
    split <;> rfl

/-- The judgments on the elements after so many, when the sizes do not exclude a tuple in both. -/
theorem extraAfter_isSome (h : s.jovs.length ≤ n) : (s.extraAfter n).isSome := by
  unfold extraAfter
  cases hextras : s.extras with
  | none => simp [maxElements_of_none hextras, h]
  | some j => simp [maxElements_of_some hextras]

theorem extraAfter_of_none (hextras : s.extras = none) (h : s.jovs.length ≤ n) : s.extraAfter n = some J.unknown := by
  unfold extraAfter
  simp [maxElements_of_none hextras, Nat.not_lt.2 h]

theorem extraAfter_of_some (hextras : s.extras = some j) : s.extraAfter n = some j := by
  unfold extraAfter
  simp [maxElements_of_some hextras, hextras]

/-- Where `intersectWith` returns a judgment. -/
structure Intersection (s other : JudgmentOnValueTuple J)
    (subs : List (J.JudgmentOnValue × Option J.Symbol)) (ex : J.JudgmentOnValue) : Prop where
  loop : List.Forall₂ (fun k sub => s.intersectAt other k = some (some sub))
    (range (max s.jovs.length other.jovs.length)) subs
  extras : ∃ l r, s.extraAfter subs.length = some l ∧ other.extraAfter subs.length = some r ∧ J.intersectWith l r = [ex]

theorem Intersection.length (h : s.Intersection other subs ex) : subs.length = max s.jovs.length other.jovs.length := by
  simpa using h.loop.length_eq.symm

/-- What `intersectWith` returns. -/
theorem mem_intersectWith {result : List (JudgmentOnValueTuple J)} {t : JudgmentOnValueTuple J}
    (h : s.intersectWith other = some result) (ht : t ∈ result) :
    ∃ subs ex, s.Intersection other subs ex ∧ t = ofSubs subs
        (if trueMax s.maxElements other.maxElements subs.length = some 0 then none else some ex) := by
  unfold intersectWith at h
  split at h
  · cases h
    cases ht
  split at h
  · cases h
    cases ht
  obtain ⟨loop, hloop, h⟩ := bind_eq_some_iff.1 h
  cases loop with
  | none =>
    cases h
    cases ht
  | some subs =>
    obtain ⟨l, hl, h⟩ := bind_eq_some_iff.1 h
    obtain ⟨r, hr, h⟩ := bind_eq_some_iff.1 h
    split at h
    · rename_i ex hex
      cases h
      exact ⟨subs, ex, ⟨intersectLoop_eq_some.1 hloop, l, r, hl, hr, hex⟩, mem_singleton.1 ht⟩
    · cases h
      cases ht

theorem intersectWith_isSome : (s.intersectWith other).isSome := by
  unfold intersectWith
  split
  · rfl
  rename_i hmax
  split
  · rfl
  rename_i hmax'
  have hsize h : other.jovs.length ≤ s.jovs.length := Nat.not_lt.1 fun hlt => hmax (maxElements_lt.2 ⟨h, hlt⟩)
  have hsize' (h : other.extras = none) : s.jovs.length ≤ other.jovs.length :=
    Nat.not_lt.1 fun hlt => hmax' (maxElements_lt.2 ⟨h, hlt⟩)
  have hloop : (s.intersectLoop other (range (max s.jovs.length other.jovs.length))).isSome := by
    refine intersectLoop_isSome fun k hk => ?_
    obtain ⟨⟨j, hj⟩, j', hj'⟩ := gets_isSome hsize hsize' (mem_range.1 hk)
    exact intersectAt_isSome hj hj'
  obtain ⟨loop, hloop⟩ := isSome_iff_exists.1 hloop
  rw [hloop]
  cases loop with
  | none => rfl
  | some subs =>
    have hlength : subs.length = max s.jovs.length other.jovs.length := by
      simpa using (intersectLoop_eq_some.1 hloop).length_eq.symm
    obtain ⟨l, hl⟩ := isSome_iff_exists.1 (extraAfter_isSome (s := s) (n := subs.length) (by omega))
    obtain ⟨r, hr⟩ := isSome_iff_exists.1 (extraAfter_isSome (s := other) (n := subs.length) (by omega))
    simp only [hl, hr, bind_eq_bind, bind_some]
    split <;> rfl

theorem exists_forall₂ {α β : Type} {R : α → β → Prop} {l : List α} (h : ∀ a ∈ l, ∃ b, R a b) :
    ∃ bs, List.Forall₂ R l bs := by
  induction l with
  | nil => exact ⟨[], .nil⟩
  | cons a l ih =>
    obtain ⟨b, hb⟩ := h a (.head _)
    obtain ⟨bs, hbs⟩ := ih fun a' ha => h a' (.tail _ ha)
    exact ⟨b :: bs, .cons hb hbs⟩

theorem nameOf_eq_some {name : Option J.Symbol} (h : s.nameOf other k = some name) :
    (k < s.jovs.length → s.names[k]? = some name) ∧ (k < other.jovs.length → other.names[k]? = some name) := by
  have hs := s.sameSize
  have ho := other.sameSize
  unfold nameOf at h
  split at h
  · split at h
    · cases h
    · rename_i hdiffer
      have heq := namesDiffer_eq_false.1 (Bool.eq_false_iff.2 hdiffer)
      exact ⟨fun _ => h, fun _ => heq ▸ h⟩
  · split at h
    · exact ⟨fun _ => h, fun hk => by omega⟩
    · exact ⟨fun hk => by omega, fun _ => h⟩

theorem Meets.nameOf_isSome (h : s.Meets other) (hk : k < max s.jovs.length other.jovs.length) :
    ∃ name, s.nameOf other k = some name := by
  have hs := s.sameSize
  have ho := other.sameSize
  obtain ⟨name, hname, hname'⟩ := h.exists_name hk
  unfold nameOf
  split
  · rw [if_neg (by simp [namesDiffer_eq_false.2 (h.names k (by omega))])]
    exact ⟨name, hname (by omega)⟩
  · split
    · exact ⟨name, hname (by omega)⟩
    · exact ⟨name, hname' (by omega)⟩

/-- When the judgments on the elements intersect in one judgment each, so do those on tuples. -/
theorem Meets.exists_intersection (hJ : J.Lawful) (h : s.Meets other)
    (hone : ∀ k < max s.jovs.length other.jovs.length, ∀ j j', s.get k = some j →
      other.get k = some j' → (J.intersectWith j j').length = 1)
    (hextras : ∀ j j', s.extras = some j → other.extras = some j' → (J.intersectWith j j').length = 1) :
    ∃ subs ex, s.Intersection other subs ex := by
  obtain ⟨subs, hsubs⟩ : ∃ subs, List.Forall₂
      (fun k sub => s.intersectAt other k = some (some sub))
      (range (max s.jovs.length other.jovs.length)) subs :=
    exists_forall₂ fun k hk => by
      have hk := mem_range.1 hk
      obtain ⟨⟨j, hj⟩, j', hj'⟩ := h.get_isSome hk
      obtain ⟨c, hc⟩ := length_eq_one_iff.1 (hone k hk j j' hj hj')
      obtain ⟨name, hname⟩ := h.nameOf_isSome hk
      exact ⟨(c, name), intersectAt_eq_some.2 ⟨j, j', hj, hj', hc, hname⟩⟩
  have hlength : subs.length = max s.jovs.length other.jovs.length := by
    simpa using hsubs.length_eq.symm
  have hle : s.jovs.length ≤ subs.length := by omega
  have hle' : other.jovs.length ≤ subs.length := by omega
  cases hs : s.extras with
  | none =>
    obtain ⟨r, hr⟩ := isSome_iff_exists.1 (extraAfter_isSome hle')
    exact ⟨subs, r, hsubs, _, r, extraAfter_of_none hs hle, hr, hJ.unknown_intersectWith r⟩
  | some j =>
    cases ho : other.extras with
    | none =>
      exact ⟨subs, j, hsubs, j, _, extraAfter_of_some hs, extraAfter_of_none ho hle', hJ.intersectWith_unknown j⟩
    | some j' =>
      obtain ⟨ex, hex⟩ := length_eq_one_iff.1 (hextras j j' hs ho)
      exact ⟨subs, ex, hsubs, j, j', extraAfter_of_some hs, extraAfter_of_some ho, hex⟩

/-- The intersection has no extras where one of the judgments has none. -/
theorem Meets.trueMax_eq (h : s.Meets other) (hn : n = max s.jovs.length other.jovs.length) :
    trueMax s.maxElements other.maxElements n = some 0 ↔ s.extras = none ∨ other.extras = none := by
  cases hs : s.extras with
  | none =>
    have hsize := h.size hs
    rw [maxElements_of_none hs]
    cases ho : other.extras with
    | none =>
      rw [maxElements_of_none ho]
      simp only [trueMax, some.injEq, true_or, iff_true]
      omega
    | some j' =>
      rw [maxElements_of_some ho]
      simp only [trueMax, some.injEq, true_or, iff_true]
      omega
  | some j =>
    rw [maxElements_of_some hs]
    cases ho : other.extras with
    | none =>
      rw [maxElements_of_none ho]
      simp only [trueMax, some.injEq, or_true, iff_true]
      omega
    | some j' =>
      rw [maxElements_of_some ho]
      simp [trueMax]

theorem Intersection.at (h : s.Intersection other subs ex) (hk : k < subs.length) :
    s.intersectAt other k = some (some subs[k]) := by
  have hget := (forall₂_iff_get.1 h.loop).2 k (by simpa [← h.length] using hk) hk
  simpa using hget

theorem Intersection.contains (hJ : J.Lawful)
    (h : s.Intersection other subs ex) (hv : s.Contains v) (hv' : other.Contains v) :
    (ofSubs subs (if trueMax s.maxElements other.maxElements subs.length = some 0 then none
      else some ex)).Contains v := by
  have hmeets := hv.meets hv'
  have hlength := h.length
  have hmax := hmeets.trueMax_eq hlength
  have hsize := hv.size
  have hsize' := hv'.size
  have hexact (hnone : s.extras = none ∨ other.extras = none) : v.length = subs.length := by
    obtain hnone | hnone := hnone
    · have := hv.noExtras hnone
      omega
    · have := hv'.noExtras hnone
      omega
  constructor
  case size => simpa [ofSubs] using (by omega : subs.length ≤ v.length)
  case noExtras =>
    intro hnone
    simp only [ofSubs] at hnone ⊢
    rw [length_map]
    split at hnone
    · next h0 => exact hexact (hmax.1 h0)
    · cases hnone
  case names =>
    intro k hk
    simp only [ofSubs, length_map] at hk ⊢
    obtain ⟨_, _, _, _, _, hname⟩ := intersectAt_eq_some.1 (h.at hk)
    obtain ⟨hname, hname'⟩ := nameOf_eq_some hname
    rw [getElem?_map, getElem?_eq_getElem hk, map_some]
    by_cases hlt : k < s.jovs.length
    · rw [hv.names k hlt, hname hlt]
    · rw [hv'.names k (by omega), hname' (by omega)]
  case elements =>
    intro k e he
    obtain ⟨j, hj, hcovers⟩ := hv.elements k e he
    obtain ⟨j', hj', hcovers'⟩ := hv'.elements k e he
    have hlt : k < v.length := (List.getElem?_eq_some_iff.1 he).1
    obtain ⟨c, hc, hcover⟩ := hJ.intersectWith j j' e.2 hcovers hcovers'
    by_cases hk : k < subs.length
    · obtain ⟨_, _, h₁, h₂, hsub, _⟩ := intersectAt_eq_some.1 (h.at hk)
      rw [hj] at h₁
      rw [hj'] at h₂
      cases h₁
      cases h₂
      rw [hsub, mem_singleton] at hc
      subst hc
      refine ⟨_, ?_, hcover⟩
      rw [get_of_lt (by simpa [ofSubs] using hk)]
      simp [ofSubs]
    · rw [get_of_le (by omega)] at hj hj'
      have hnot : ¬ trueMax s.maxElements other.maxElements subs.length = some 0 := fun h0 => by
        have := hexact (hmax.1 h0)
        omega
      obtain ⟨l, r, hl, hr, hex⟩ := h.extras
      rw [extraAfter_of_some hj] at hl
      rw [extraAfter_of_some hj'] at hr
      cases hl
      cases hr
      rw [hex, mem_singleton] at hc
      subst hc
      refine ⟨_, ?_, hcover⟩
      rw [get_of_le (by simpa [ofSubs] using (by omega : subs.length ≤ k)), if_neg hnot]
      rfl

theorem Intersection.intersectWith_eq (h : s.Intersection other subs ex) (hmeets : s.Meets other) :
    s.intersectWith other = some [ofSubs subs
      (if trueMax s.maxElements other.maxElements subs.length = some 0 then none else some ex)] := by
  unfold intersectWith
  rw [if_neg fun hmax => by
      obtain ⟨hnone, hlt⟩ := maxElements_lt.1 hmax
      exact absurd hlt (Nat.not_lt.2 (hmeets.size hnone)),
    if_neg fun hmax => by
      obtain ⟨hnone, hlt⟩ := maxElements_lt.1 hmax
      exact absurd hlt (Nat.not_lt.2 (hmeets.otherSize hnone)),
    intersectLoop_eq_some.2 h.loop]
  obtain ⟨l, r, hl, hr, hex⟩ := h.extras
  simp only [hl, hr, bind_eq_bind, bind_some, hex]
  rfl

/-! ## `smallestCovering` and `merge` -/

variable {l : List J.JudgmentOnValue} {acc : Option J.JudgmentOnValue}

/-- Accumulated judgments cover what each of them covers. -/
theorem foldl_accumlate (hJ : J.Lawful) {e : J.ImplVal} (h : ∃ j ∈ acc.toList ++ l, J.coversImplVal j e) :
    ∃ j, l.foldl accumlate acc = some j ∧ J.coversImplVal j e := by
  induction l generalizing acc with
  | nil =>
    obtain ⟨j, hj, he⟩ := h
    rw [append_nil, mem_toList] at hj
    exact ⟨j, hj, he⟩
  | cons j' l ih =>
    refine ih ?_
    obtain ⟨j, hj, he⟩ := h
    rw [mem_append, mem_cons] at hj
    cases acc with
    | none =>
      obtain hj | rfl | hj := hj
      · cases hj
      · exact ⟨_, .head _, he⟩
      · exact ⟨j, .tail _ hj, he⟩
    | some j₀ =>
      obtain hj | rfl | hj := hj
      · rw [mem_toList] at hj
        cases hj
        exact ⟨_, .head _, hJ.smallestCovering _ _ _ (.inl he)⟩
      · exact ⟨_, .head _, hJ.smallestCovering _ _ _ (.inr he)⟩
      · exact ⟨j, .tail _ hj, he⟩

theorem foldl_accumlate_eq_none
    (h : l.foldl accumlate acc = none) : acc = none ∧ l = [] := by
  induction l generalizing acc with
  | nil => exact ⟨h, rfl⟩
  | cons j l ih =>
    have hacc := (ih h).1
    cases acc <;> cases hacc

theorem names_eq_of_lt (h : k < s.pairwiseElementCount other) : s.names[k]? = other.names[k]? := by
  have hle := s.pairwiseElementCount_le other
  rw [← namesDiffer_eq_false]
  unfold pairwiseElementCount at h hle
  cases hfind : (range (min s.jovs.length other.jovs.length)).find? (s.namesDiffer other) with
  | none =>
    rw [hfind, getD_none] at h
    simpa using find?_eq_none.1 hfind k (mem_range.2 h)
  | some k' =>
    rw [hfind, getD_some] at h
    obtain ⟨_, i, hi, rfl, hbefore⟩ := find?_eq_some_iff_getElem.1 hfind
    rw [getElem_range] at h
    simpa using hbefore k h

/-- A judgment whose elements the smallest covering covers one by one. -/
theorem smallestCovering_contains_of {t : JudgmentOnValueTuple J} (hJ : J.Lawful)
    (hle : s.pairwiseElementCount other ≤ t.jovs.length)
    (hnames : ∀ k < s.pairwiseElementCount other, t.names[k]? = s.names[k]?)
    (helements : ∀ k < s.pairwiseElementCount other, ∀ j e, t.get k = some j → J.coversImplVal j e →
      ∃ j', (s.smallestCovering other).get k = some j' ∧ J.coversImplVal j' e)
    (hextras : ∀ j ∈ t.jovs.drop (s.pairwiseElementCount other) ++ t.extras.toList,
      j ∈ s.extras.toList ++ other.extras.toList ++ other.jovs.drop (s.pairwiseElementCount other) ++
        s.jovs.drop (s.pairwiseElementCount other)) (hv : t.Contains v) : (s.smallestCovering other).Contains v := by
  have hcount := s.pairwiseElementCount_le other
  have hlength : (s.smallestCovering other).jovs.length = s.pairwiseElementCount other := by
    simp only [smallestCovering, length_zipWith, length_take]
    omega
  have hsize := hv.size
  constructor
  case size => omega
  case noExtras =>
    intro hnone
    have hnil := (foldl_accumlate_eq_none hnone).2
    have ht : t.jovs.drop (s.pairwiseElementCount other) ++ t.extras.toList = [] :=
      eq_nil_iff_forall_not_mem.2 fun j hj => by
        have hmem := hextras j hj
        rw [hnil] at hmem
        cases hmem
    obtain ⟨hdrop, htoList⟩ := append_eq_nil_iff.1 ht
    have hexact := hv.noExtras (toList_eq_nil_iff.1 htoList)
    have := drop_eq_nil_iff.1 hdrop
    omega
  case names =>
    intro k hk
    rw [hlength] at hk
    rw [hv.names k (by omega), hnames k hk]
    exact (getElem?_take_of_lt hk).symm
  case elements =>
    intro k e he
    obtain ⟨j, hj, hcovers⟩ := hv.elements k e he
    by_cases hk : k < s.pairwiseElementCount other
    · exact helements k hk j e.2 hj hcovers
    · rw [get_of_le (by omega)]
      refine foldl_accumlate hJ ⟨j, mem_append_right _ (hextras j ?_), hcovers⟩
      by_cases hlt : k < t.jovs.length
      · rw [get_of_lt hlt] at hj
        cases hj
        refine mem_append_left _ (mem_drop_iff_getElem.2 ⟨k - s.pairwiseElementCount other, by omega, ?_⟩)
        simp only [Nat.add_sub_cancel' (Nat.not_lt.1 hk)]
      · rw [get_of_le (by omega)] at hj
        exact mem_append_right _ (mem_toList.2 hj)

theorem get_smallestCovering (hk : k < s.pairwiseElementCount other)
    (hj : s.get k = some j) (hj' : other.get k = some j') :
    (s.smallestCovering other).get k = some (J.smallestCovering j j') := by
  have hcount := s.pairwiseElementCount_le other
  have hlt : k < s.jovs.length := by omega
  have hlt' : k < other.jovs.length := by omega
  rw [get_of_lt hlt] at hj
  rw [get_of_lt hlt'] at hj'
  cases hj
  cases hj'
  rw [get_of_lt (by simp only [smallestCovering, length_zipWith, length_take]; omega)]
  simp [smallestCovering]

theorem smallestCovering_contains (hJ : J.Lawful) (hv : s.Contains v ∨ other.Contains v) :
    (s.smallestCovering other).Contains v := by
  have hcount := s.pairwiseElementCount_le other
  have hgets (k : ℕ) (hk : k < s.pairwiseElementCount other) : ∃ j j', s.get k = some j ∧ other.get k = some j' :=
    ⟨_, _, get_of_lt (by omega), get_of_lt (by omega)⟩
  obtain hv | hv := hv
  · refine smallestCovering_contains_of hJ (by omega) (fun _ _ => rfl) ?_ ?_ hv
    · intro k hk j e hj he
      obtain ⟨_, j', h₁, hj'⟩ := hgets k hk
      exact ⟨_, get_smallestCovering hk hj hj', hJ.smallestCovering _ _ _ (.inl he)⟩
    · intro j hj
      rw [mem_append] at hj
      simp only [mem_append]
      exact hj.elim .inr fun hj => .inl (.inl (.inl hj))
  · refine smallestCovering_contains_of hJ (by omega) (fun k hk => (names_eq_of_lt hk).symm) ?_ ?_ hv
    · intro k hk j' e hj' he
      obtain ⟨j, _, hj, h₂⟩ := hgets k hk
      exact ⟨_, get_smallestCovering hk hj hj', hJ.smallestCovering _ _ _ (.inr he)⟩
    · intro j hj
      rw [mem_append] at hj
      simp only [mem_append]
      exact hj.elim (fun hj => .inl (.inr hj)) fun hj => .inl (.inl (.inr hj))

/-- The judgment on the extras of `merge` covers what the judgments that it was made of cover. -/
theorem foldl_smallestCovering (hJ : J.Lawful)
    {j₀ : J.JudgmentOnValue} {e : J.ImplVal} (h : ∃ j ∈ j₀ :: l, J.coversImplVal j e) :
    J.coversImplVal (l.foldl J.smallestCovering j₀) e := by
  induction l generalizing j₀ with
  | nil =>
    obtain ⟨j, hj, he⟩ := h
    rw [mem_singleton] at hj
    exact hj ▸ he
  | cons j' l ih =>
    refine ih ?_
    obtain ⟨j, hj, he⟩ := h
    obtain rfl | hj := mem_cons.1 hj
    · exact ⟨_, .head _, hJ.smallestCovering _ _ _ (.inl he)⟩
    obtain rfl | hj := mem_cons.1 hj
    · exact ⟨_, .head _, hJ.smallestCovering _ _ _ (.inr he)⟩
    · exact ⟨j, .tail _ hj, he⟩

theorem mem_of_get (h : s.get k = some j) : j ∈ s.jovs ++ s.extras.toList := by
  by_cases hk : k < s.jovs.length
  · rw [get_of_lt hk] at h
    cases h
    exact mem_append_left _ (getElem_mem hk)
  · rw [get_of_le (by omega)] at h
    exact mem_append_right _ (mem_toList.2 h)

/-- A judgment without extras: the elements of the other follow. -/
theorem merge_contains_of_none (hextras : s.extras = none) (hv : s.Contains v) (hw : other.Contains w) :
    Contains (J := J) ⟨s.jovs ++ other.jovs, s.names ++ other.names, other.extras,
      by simp [s.sameSize, other.sameSize]⟩ (v ++ w) := by
  have hs := s.sameSize
  have hsize' := hw.size
  have hexact := hv.noExtras hextras
  constructor
  case size =>
    simp only [length_append]
    omega
  case noExtras =>
    intro hnone
    simp only [length_append]
    rw [hexact, hw.noExtras hnone]
  case names =>
    intro k hk
    simp only [length_append] at hk
    by_cases hlt : k < s.jovs.length
    · rw [getElem?_append_left (by omega), getElem?_append_left (by omega), hv.names k hlt]
    · rw [getElem?_append_right (by omega), getElem?_append_right (by omega), hexact, hs, hw.names _ (by omega)]
  case elements =>
    intro k e he
    by_cases hlt : k < s.jovs.length
    · rw [getElem?_append_left (by omega)] at he
      obtain ⟨j, hj, hcovers⟩ := hv.elements k e he
      refine ⟨j, ?_, hcovers⟩
      rw [get_of_lt hlt] at hj
      rw [get_of_lt (by simp only [length_append]; omega), ← hj]
      simp only [getElem_append_left hlt]
    · rw [getElem?_append_right (by omega), hexact] at he
      obtain ⟨j, hj, hcovers⟩ := hw.elements _ e he
      refine ⟨j, ?_, hcovers⟩
      by_cases hlt' : k - s.jovs.length < other.jovs.length
      · rw [get_of_lt hlt'] at hj
        rw [get_of_lt (by simp only [length_append]; omega), ← hj]
        simp only [getElem_append_right (Nat.not_lt.1 hlt)]
      · rw [get_of_le (by omega)] at hj
        rw [get_of_le (by simp only [length_append]; omega)]
        exact hj

/-- A judgment with extras: the elements of the other are among them. -/
theorem merge_contains_of_some (hJ : J.Lawful) {jov : J.JudgmentOnValue}
    (hextras : s.extras = some jov) (hv : s.Contains v) (hw : other.Contains w) :
    Contains { s with extras := some ((other.jovs ++ other.extras.toList).foldl J.smallestCovering jov) } (v ++ w) := by
  have hsize := hv.size
  constructor
  case size =>
    simp only [length_append]
    omega
  case noExtras =>
    intro hnone
    cases hnone
  case names =>
    intro k hk
    simp only at hk ⊢
    rw [getElem?_append_left (by omega), hv.names k hk]
  case elements =>
    intro k e he
    by_cases hlt : k < v.length
    · rw [getElem?_append_left hlt] at he
      obtain ⟨j, hj, hcovers⟩ := hv.elements k e he
      by_cases hk : k < s.jovs.length
      · rw [get_of_lt hk] at hj
        refine ⟨j, ?_, hcovers⟩
        show (if k < s.jovs.length then s.jovs[k]? else _) = some j
        rw [if_pos hk, getElem?_eq_getElem hk]
        exact hj
      · rw [get_of_le (by omega), hextras] at hj
        cases hj
        exact ⟨_, get_of_le (Nat.not_lt.1 hk), foldl_smallestCovering hJ ⟨_, .head _, hcovers⟩⟩
    · rw [getElem?_append_right (by omega)] at he
      obtain ⟨j, hj, hcovers⟩ := hw.elements _ e he
      exact ⟨_, get_of_le (show s.jovs.length ≤ k by omega),
        foldl_smallestCovering hJ ⟨j, .tail _ (mem_of_get hj), hcovers⟩⟩

theorem merge_contains (hJ : J.Lawful) (hv : s.Contains v) (hw : other.Contains w) :
    (s.merge other).Contains (v ++ w) := by
  unfold merge
  split
  · next hextras => exact merge_contains_of_none hextras hv hw
  · next jov hextras => exact merge_contains_of_some hJ hextras hv hw

/-! ## `covers(const ImplVal&)` -/

/-- The tuples in a judgment are those that it covers. -/
theorem coversImplVal_iff : s.coversImplVal v = some true ↔ s.Contains v := by
  have hs := s.sameSize
  unfold coversImplVal
  constructor
  · intro h
    split at h
    · cases h
    rename_i hsize
    split at h
    · cases h
    rename_i hextras
    split at h
    · cases h
    rename_i hnames
    have hexact (hnone : s.extras = none) : v.length = s.jovs.length := by
      simpa [hnone] using hextras
    have hsome k hk : ∃ j, s.get k = some j := get_isSome fun hnone => hexact hnone ▸ hk
    obtain ⟨b, hb, hiff⟩ := allM_of_isSome (l := range v.length)
      (f := fun k => do return J.coversImplVal (← s.get k) (← v[k]?).2) fun k hk => by
        have hk := mem_range.1 hk
        obtain ⟨j, hj⟩ := hsome k hk
        rw [hj, getElem?_eq_getElem hk]
        rfl
    rw [hb, some_inj] at h
    refine ⟨Nat.not_lt.1 hsize, hexact, fun k hk => ?_, fun k e he => ?_⟩
    · simpa using fun hne => hnames (any_eq_true.2 ⟨k, mem_range.2 (by omega), hne⟩)
    · have hk := (List.getElem?_eq_some_iff.1 he).1
      obtain ⟨j, hj⟩ := hsome k hk
      have hat := hiff.1 h k (mem_range.2 hk)
      exact ⟨j, hj, by simpa [hj, he] using hat⟩
  · intro h
    have hnames : (range s.names.length).any
        (fun k => decide (v[k]?.map Prod.fst ≠ s.names[k]?)) = false :=
      any_eq_false.2 fun k hk => by
        simpa using h.names k (hs ▸ mem_range.1 hk)
    rw [if_neg (Nat.not_lt.2 h.size), if_neg (by simpa using h.noExtras), hnames, if_neg Bool.false_ne_true]
    obtain ⟨b, hb, hiff⟩ := allM_of_isSome (l := range v.length)
      (f := fun k => do return J.coversImplVal (← s.get k) (← v[k]?).2) fun k hk => by
        have hk := getElem?_eq_getElem (mem_range.1 hk)
        obtain ⟨j, hj, _⟩ := h.elements k _ hk
        rw [hj, hk]
        rfl
    rw [hb, hiff.2 fun k hk => ?_]
    have hk := getElem?_eq_getElem (mem_range.1 hk)
    obtain ⟨j, hj, hcovers⟩ := h.elements k _ hk
    simpa [hj, hk] using hcovers

/-! ## Soundness -/

/-- The operations are right exactly where the extras meet: `disjoint` and `intersectWith` take a
tuple without further elements for one that has some. -/
theorem sound_iff (hJ : J.Lawful) (s other : JudgmentOnValueTuple J) : s.Sound other ↔ s.ExtrasMeet other := by
  constructor
  · intro h hmeets
    obtain ⟨v, hv, hv', _⟩ := hmeets.exists_contains
    obtain ⟨result, hresult, t, ht, _⟩ := h.intersectWith v hv hv'
    obtain ⟨subs, ex, hsubs, -⟩ := mem_intersectWith hresult ht
    refine ⟨fun k hk j j' hj hj' => ?_, fun j j' hj hj' => ⟨?_, ?_⟩⟩
    · obtain ⟨_, _, h₁, h₂, hsub, -⟩ := intersectAt_eq_some.1 (hsubs.at (by rwa [hsubs.length]))
      rw [hj] at h₁
      rw [hj'] at h₂
      cases h₁
      cases h₂
      rw [hsub, length_singleton]
    · obtain ⟨b, hb, hiff⟩ : ∃ b, s.disjoint other = some b ∧ (b = true ↔ s.Disjoint other) := disjoint_spec
      refine Bool.eq_false_iff.2 fun hdisjoint => ?_
      rw [hiff.2 (.extras j j' hj hj' hdisjoint)] at hb
      exact h.disjoint hb v ⟨hv, hv'⟩
    · obtain ⟨l, r, hl, hr, hex⟩ := hsubs.extras
      rw [extraAfter_of_some hj] at hl
      rw [extraAfter_of_some hj'] at hr
      cases hl
      cases hr
      rw [hex, length_singleton]
  · intro h
    obtain ⟨b, hb, hcovering⟩ : ∃ b, s.covers other = some b ∧ (b = true → s.Covering other) := covers_spec
    obtain ⟨c, hc, hdisjoint⟩ : ∃ b, s.disjoint other = some b ∧ (b = true ↔ s.Disjoint other) := disjoint_spec
    constructor
    case returns =>
      rw [hb, hc]
      exact ⟨rfl, rfl, intersectWith_isSome⟩
    case covers =>
      intro htrue v hv
      rw [hb, some_inj] at htrue
      exact (hcovering htrue).contains hJ hv
    case disjoint =>
      intro htrue v hv
      rw [hc, some_inj] at htrue
      obtain ⟨j, j', hj, hj', hextras⟩ := (hdisjoint.1 htrue).extras_of_contains hJ hv.1 hv.2
      have hfalse := ((h (hv.1.meets hv.2)).2 j j' hj hj').1
      rw [hextras] at hfalse
      cases hfalse
    case intersectWith =>
      intro v hv hv'
      have hmeets := hv.meets hv'
      obtain ⟨hone, hextras⟩ := h hmeets
      obtain ⟨subs, ex, hsubs⟩ := hmeets.exists_intersection hJ hone fun j j' hj hj' => (hextras j j' hj hj').2
      exact ⟨_, hsubs.intersectWith_eq hmeets, _, .head _, hsubs.contains hJ hv hv'⟩
    case smallestCovering => exact fun v hv => smallestCovering_contains hJ hv
    case merge => exact fun v w hv hw => merge_contains hJ hv hw

end JudgmentOnValueTuple

/-- Judgments on booleans: unknown, or a constant. -/
def booleans : ElementJudgments where
  Symbol := Unit
  ImplVal := Bool
  JudgmentOnValue := Option Bool
  decidableEqSymbol := inferInstance
  unknown := none
  covers a b := a.all fun v => b = some v
  disjoint a b := a.any fun v => b.any fun w => v ≠ w
  intersectWith
    | none, b => [b]
    | a, none => [a]
    | some v, some w => if v = w then [some v] else []
  smallestCovering a b := if a = b then a else none
  coversImplVal a v := a.all fun w => v = w

theorem booleans_lawful : booleans.Lawful where
  covers := by
    dsimp only [booleans]
    decide
  disjoint := by
    dsimp only [booleans]
    decide
  intersectWith a b v hv hv' := by
    cases a with
    | none => exact ⟨b, .head _, hv'⟩
    | some w =>
      cases b with
      | none => exact ⟨some w, .head _, hv⟩
      | some w' =>
        obtain rfl : (show Bool from v) = w := of_decide_eq_true hv
        obtain rfl : (show Bool from v) = w' := of_decide_eq_true hv'
        refine ⟨some v, ?_, hv⟩
        rw [show booleans.intersectWith (some v) (some v) = [some v] from if_pos rfl]
        exact .head _
  smallestCovering := by
    dsimp only [booleans]
    decide
  unknown_intersectWith _ := rfl
  intersectWith_unknown a := by cases a <;> rfl

namespace JudgmentOnValueTuple

/-- Tuples of any number of elements that are the constant. -/
def constants (v : Bool) : JudgmentOnValueTuple booleans where
  jovs := []
  names := []
  extras := some (some v)
  sameSize := rfl

/-- Tuples of one constant and tuples of the other one. -/
theorem sound_iff_constants : (constants true).Sound (constants false) ↔
    (constants true).ExtrasMeet (constants false) :=
  sound_iff booleans_lawful _ _

/-- The empty tuple is in both, and they are taken for disjoint. -/
theorem not_sound : ¬ ∀ J, J.Lawful → ∀ a b : JudgmentOnValueTuple J, a.Sound b := by
  intro h
  have hcontains v : (constants v).Contains [] :=
    { size := Nat.le_refl _
      noExtras := fun hnone => nomatch hnone
      names := fun k hk => absurd hk (Nat.not_lt_zero k)
      elements := fun k e he => nomatch he }
  exact (h booleans booleans_lawful (constants true) (constants false)).disjoint rfl []
    ⟨hcontains true, hcontains false⟩

end JudgmentOnValueTuple

end Judgments
