import Ufora.Lib.Fuel
import Ufora.Vectors.TreeOperations

/-!
# Restricting and concatenating pagelet trees ends

`restrictTo` finds a tree for every number of values that a well-formed tree has, one that is no higher and has
no more leaves. `concatenateAndBalance` makes the higher one of the two trees at most one level higher. It calls
itself with trees of a smaller height, or, where the trees that it puts together are as high as before, with
fewer leaves in the higher one (`measure_lt`): so it ends.
-/

open Fuel List Nat

namespace Fora.PageletTree

variable {α : Type} {t l r : PageletTree α} {p q s : Option (PageletTree α)} {n m : ℕ}

/-- The number of pagelets. -/
def leaves : PageletTree α → ℕ
  | leaf _ _ => 1
  | node left _ right _ => left.leaves + right.leaves

variable (tree : Option (PageletTree α))

/-- The height of a tree that may be missing. -/
def ptrHeight : ℕ := tree.elim 0 height

/-- The number of pagelets of a tree that may be missing. -/
def ptrLeaves : ℕ := tree.elim 0 leaves

@[simp] theorem ptrHeight_some (t : PageletTree α) : ptrHeight (some t) = t.height := rfl
@[simp] theorem ptrLeaves_some (t : PageletTree α) : ptrLeaves (some t) = t.leaves := rfl


theorem leaves_pos (t : PageletTree α) : 0 < t.leaves := by
  induction t with
  | leaf => exact one_pos
  | node left _ right _ ihl _ => exact Nat.add_pos_left ihl _

/-! ## Restricting -/

/-- What restricting a tree may leave: no higher tree with no more leaves. -/
structure Within (tree : Option (PageletTree α)) (t : PageletTree α) : Prop where
  height : ptrHeight tree ≤ t.height
  leaves : ptrLeaves tree ≤ t.leaves

theorem guard_pos {c : Prop} [Decidable c] (h : c) : (guard c : Option Unit) = some () := if_pos h

theorem within_self : Within (some t) t := ⟨le_rfl, le_rfl⟩

theorem within_none : Within none t := ⟨zero_le _, zero_le _⟩

/-- A tree can be restricted to any number of values that it has; only without values there may be no tree. -/
theorem restrictTo_total (h : t.WellFormed) (hn : n ≤ t.size) :
    ∃ p, t.restrictTo n = some p ∧ Within p t ∧ (0 < n → p.isSome) := by
  induction t generalizing n with
  | leaf pagelet used =>
    unfold restrictTo
    by_cases heq : n = used
    · exact ⟨_, if_pos heq, within_self, fun _ => rfl⟩
    rw [if_neg heq]
    by_cases hge : n ≥ used
    · exact ⟨_, if_pos hge, within_self, fun _ => rfl⟩
    rw [if_neg hge]
    by_cases hzero : n = 0
    · exact ⟨none, if_pos hzero, within_none, fun hpos => absurd hzero hpos.ne'⟩
    · have hle : n ≤ pagelet.length := (show n ≤ used from hn).trans h
      refine ⟨some (leaf pagelet n), ?_, ⟨le_rfl, le_rfl⟩, fun _ => rfl⟩
      rw [if_neg hzero]
      unfold ofPagelet
      simp [hle]
  | node left leftUsed right rightUsed ihl ihr =>
    obtain ⟨⟨hl, hlwf⟩, hr, hrwf⟩ := h
    have hsize : n ≤ leftUsed + rightUsed := hn
    unfold restrictTo
    by_cases heq : n = leftUsed + rightUsed
    · exact ⟨_, if_pos heq, within_self, fun _ => rfl⟩
    rw [if_neg heq]
    by_cases hle : n ≤ leftUsed
    · obtain ⟨p, hp, hw, hsome⟩ := ihl hlwf (hle.trans hl)
      refine ⟨p, (if_pos hle).trans hp, ⟨hw.height.trans ?_, hw.leaves.trans (le_add_right _ _)⟩, hsome⟩
      exact (le_max_left _ _).trans (le_succ _)
    · obtain ⟨p, hp, hw, hsome⟩ := ihr hrwf (n := n - leftUsed) (by omega)
      obtain ⟨restricted, rfl⟩ := Option.isSome_iff_exists.1 (hsome (by omega))
      have hsize' : restricted.size = n - leftUsed := by
        obtain ⟨hwf, hvalues⟩ := holds_some.1 (restrictTo_holds hrwf (by omega) hp)
        rw [← length_values hwf, hvalues, length_take, length_values hrwf]
        omega
      refine ⟨some (node left leftUsed restricted (n - leftUsed)), ?_, ⟨?_, ?_⟩, fun _ => rfl⟩
      · have htrees : ofTrees left leftUsed restricted (n - leftUsed) =
            some (node left leftUsed restricted (n - leftUsed)) := by
          unfold ofTrees
          rw [guard_pos hl, guard_pos hsize'.ge]
          rfl
        rw [if_neg hle, hp]
        show (ofTrees left leftUsed restricted (n - leftUsed)).bind (fun t => some (some t)) = _
        rw [htrees]
        rfl
      · exact succ_le_succ (max_le_max le_rfl hw.height)
      · exact Nat.add_le_add_left hw.leaves _

/-- The two sides of a tree that is no leaf. -/
theorem sides_total (h : t.WellFormed) (ht : 1 < t.height) :
    ∃ p q, t.sides = some (p, q) ∧ ptrHeight p < ptrHeight (some t) ∧
      ptrHeight q < ptrHeight (some t) ∧ ptrLeaves p < ptrLeaves (some t) ∧
      ptrLeaves q < ptrLeaves (some t) ∧ ptrLeaves p + ptrLeaves q ≤ ptrLeaves (some t) := by
  cases t with
  | leaf => exact absurd ht (lt_irrefl _)
  | node left leftUsed right rightUsed =>
    obtain ⟨⟨hl, hlwf⟩, hr, hrwf⟩ := h
    obtain ⟨p, hp, hwp, -⟩ := restrictTo_total hlwf hl
    obtain ⟨q, hq, hwq, -⟩ := restrictTo_total hrwf hr
    have h1 := hwp.height
    have h2 := hwq.height
    have h3 := hwp.leaves
    have h4 := hwq.leaves
    have hlpos := leaves_pos left
    have hrpos := leaves_pos right
    refine ⟨p, q, ?_, ?_⟩
    · show (do return (← left.restrictTo leftUsed, ← right.restrictTo rightUsed)) = some (p, q)
      rw [hp, hq]
      rfl
    · simp only [ptrHeight_some, ptrLeaves_some, height, leaves]
      omega

/-! ## Concatenating -/

/-- What concatenating two trees may leave: a tree at most one level higher than the higher one, with no more
leaves than both. -/
structure Joins (tree p q : Option (PageletTree α)) : Prop where
  height : ptrHeight tree ≤ max (ptrHeight p) (ptrHeight q) + 1
  leaves : ptrLeaves tree ≤ ptrLeaves p + ptrLeaves q

/-- What gets smaller: the height of the higher tree, then the number of its leaves. -/
def measure (p q : Option (PageletTree α)) : ℕ ×ₗ ℕ :=
  toLex (max (ptrHeight p) (ptrHeight q), if ptrHeight p < ptrHeight q then ptrLeaves q else ptrLeaves p)

theorem measure_lt_of_height {p' q' : Option (PageletTree α)}
    (h : max (ptrHeight p') (ptrHeight q') < max (ptrHeight p) (ptrHeight q)) :
    measure p' q' < measure p q := Prod.Lex.toLex_lt_toLex.2 (.inl h)

/-- The higher tree is on the right: it stays so, with fewer leaves. -/
theorem measure_lt_right {p' q' : Option (PageletTree α)} (h : ptrHeight p < ptrHeight q)
    (hp : ptrHeight p' < ptrHeight q) (hq : ptrHeight q' ≤ ptrHeight q)
    (hl : ptrLeaves q' < ptrLeaves q) : measure p' q' < measure p q := by
  rcases hq.eq_or_lt with he | hlt
  · refine Prod.Lex.toLex_lt_toLex.2 (.inr ⟨?_, ?_⟩)
    · omega
    · rw [if_pos h, if_pos (he ▸ hp)]
      exact hl
  · exact measure_lt_of_height (by omega)

/-- The higher tree is on the left: it stays so, with fewer leaves. -/
theorem measure_lt_left {p' q' : Option (PageletTree α)} (h : ptrHeight q < ptrHeight p)
    (hp : ptrHeight p' ≤ ptrHeight p) (hq : ptrHeight q' < ptrHeight p)
    (hl : ptrLeaves p' < ptrLeaves p) : measure p' q' < measure p q := by
  rcases hp.eq_or_lt with he | hlt
  · refine Prod.Lex.toLex_lt_toLex.2 (.inr ⟨?_, ?_⟩)
    · omega
    · rw [if_neg h.not_gt, if_neg (he ▸ hq.not_gt)]
      exact hl
  · exact measure_lt_of_height (by omega)

theorem PtrWellFormed.holds (h : PtrWellFormed p) : Holds p (ptrValues p) := ⟨h, rfl⟩

/-- The two trees are concatenated, by calls that end. -/
def Ends (p q : Option (PageletTree α)) : Prop :=
  ∃ s, Yields (fun fuel => concatenateAndBalance fuel p q) s ∧ PtrWellFormed s ∧ Joins s p q

section
variable (ih : ∀ p' q' : Option (PageletTree α), PtrWellFormed p' → PtrWellFormed q' →
  measure p' q' < measure (some l) (some r) → Ends p' q')
include ih

/-- The higher tree is on the right and is broken down. -/
theorem ends_right (hlwf : l.WellFormed) (hrwf : r.WellFormed) (hl : l.size ≠ 0) (hr : r.size ≠ 0)
    (h : l.height + 2 < r.height) : Ends (some l) (some r) := by
  obtain ⟨p, q, hsides, hp, hq, hpl, hql, hpq⟩ := sides_total hrwf (by omega)
  obtain ⟨xs, ys, hpholds, hqholds, -⟩ := sides_holds hrwf hsides
  have hlwf' := ptrWellFormed_some.2 hlwf
  have heq fuel : concatenateAndBalance (fuel + 1) (some l) (some r) =
      p.elim (concatenateAndBalance fuel l q) fun rhsLeft =>
        q.elim (concatenateAndBalance fuel l rhsLeft) fun rhsRight =>
          if rhsLeft.height < l.height + 2 then do
            concatenateAndBalance fuel (← concatenateAndBalance fuel l rhsLeft) rhsRight
          else (do
            let halves ← rhsLeft.sides
            concatenateAndBalance fuel (← concatenateAndBalance fuel l halves.1)
              (← concatenateAndBalance fuel halves.2 rhsRight)) := by
    rw [concatenateAndBalance, if_neg hl, if_neg hr, if_pos h, hsides]
    cases p <;> cases q <;> rfl
  change ptrHeight (some l) + 2 < ptrHeight (some r) at h
  cases p with
  | none =>
    obtain ⟨s, hs, hwf, h1, h2⟩ := ih (some l) q hlwf' hqholds.wellFormed (measure_lt_of_height (by omega))
    exact ⟨s, hs.of_eq_succ heq, hwf, by omega, by omega⟩
  | some rhsLeft =>
    cases q with
    | none =>
      obtain ⟨s, hs, hwf, h1, h2⟩ := ih (some l) (some rhsLeft) hlwf' hpholds.wellFormed
        (measure_lt_of_height (by omega))
      exact ⟨s, hs.of_eq_succ heq, hwf, by omega, by omega⟩
    | some rhsRight =>
      by_cases hmove : ptrHeight (some rhsLeft) < ptrHeight (some l) + 2
      · obtain ⟨x, hx, hxwf, h1, h2⟩ := ih (some l) (some rhsLeft) hlwf' hpholds.wellFormed
          (measure_lt_of_height (by omega))
        obtain ⟨s, hs, hwf, h3, h4⟩ := ih x (some rhsRight) hxwf hqholds.wellFormed (measure_lt_of_height (by omega))
        exact ⟨s, (hx.bind hs).of_eq_succ fun fuel => (heq fuel).trans (if_pos hmove), hwf, by omega, by omega⟩
      · have hwf' := ptrWellFormed_some.1 hpholds.wellFormed
        obtain ⟨p', q', hsides', hp', hq', hpl', hql', hpq'⟩ :=
          sides_total hwf' (show 1 < ptrHeight (some rhsLeft) by omega)
        obtain ⟨xs', ys', hpholds', hqholds', -⟩ := sides_holds hwf' hsides'
        obtain ⟨x, hx, hxwf, h1, h2⟩ := ih (some l) p' hlwf' hpholds'.wellFormed (measure_lt_of_height (by omega))
        obtain ⟨y, hy, hywf, h3, h4⟩ := ih q' (some rhsRight) hqholds'.wellFormed hqholds.wellFormed
          (measure_lt_of_height (by omega))
        obtain ⟨s, hs, hwf, h5, h6⟩ := ih x y hxwf hywf (measure_lt_right (by omega) (by omega) (by omega) (by omega))
        have hboth := hx.bind (g := fun x fuel => (concatenateAndBalance fuel q' (some rhsRight)).bind
          fun y => concatenateAndBalance fuel x y) (hy.bind hs)
        refine ⟨s, hboth.of_eq_succ fun fuel => (heq fuel).trans ((if_neg hmove).trans ?_), hwf, by omega, by omega⟩
        rw [hsides']
        rfl

/-- The higher tree is on the left and is broken down. -/
theorem ends_left (hlwf : l.WellFormed) (hrwf : r.WellFormed) (hl : l.size ≠ 0) (hr : r.size ≠ 0)
    (h : r.height + 2 < l.height) : Ends (some l) (some r) := by
  obtain ⟨p, q, hsides, hp, hq, hpl, hql, hpq⟩ := sides_total hlwf (by omega)
  obtain ⟨xs, ys, hpholds, hqholds, -⟩ := sides_holds hlwf hsides
  have hrwf' := ptrWellFormed_some.2 hrwf
  have heq fuel : concatenateAndBalance (fuel + 1) (some l) (some r) =
      p.elim (concatenateAndBalance fuel q r) fun lhsLeft =>
        q.elim (concatenateAndBalance fuel lhsLeft r) fun lhsRight =>
          if lhsRight.height < r.height + 2 then do
            concatenateAndBalance fuel lhsLeft (← concatenateAndBalance fuel lhsRight r)
          else (do
            let halves ← lhsRight.sides
            concatenateAndBalance fuel (← concatenateAndBalance fuel lhsLeft halves.1)
              (← concatenateAndBalance fuel halves.2 r)) := by
    rw [concatenateAndBalance, if_neg hl, if_neg hr, if_neg (show ¬ l.height + 2 < r.height by omega), if_pos h, hsides]
    cases p <;> cases q <;> rfl
  change ptrHeight (some r) + 2 < ptrHeight (some l) at h
  cases p with
  | none =>
    obtain ⟨s, hs, hwf, h1, h2⟩ := ih q (some r) hqholds.wellFormed hrwf' (measure_lt_of_height (by omega))
    exact ⟨s, hs.of_eq_succ heq, hwf, by omega, by omega⟩
  | some lhsLeft =>
    cases q with
    | none =>
      obtain ⟨s, hs, hwf, h1, h2⟩ := ih (some lhsLeft) (some r) hpholds.wellFormed hrwf'
        (measure_lt_of_height (by omega))
      exact ⟨s, hs.of_eq_succ heq, hwf, by omega, by omega⟩
    | some lhsRight =>
      by_cases hmove : ptrHeight (some lhsRight) < ptrHeight (some r) + 2
      · obtain ⟨x, hx, hxwf, h1, h2⟩ := ih (some lhsRight) (some r) hqholds.wellFormed hrwf'
          (measure_lt_of_height (by omega))
        obtain ⟨s, hs, hwf, h3, h4⟩ := ih (some lhsLeft) x hpholds.wellFormed hxwf (measure_lt_of_height (by omega))
        exact ⟨s, (hx.bind hs).of_eq_succ fun fuel => (heq fuel).trans (if_pos hmove), hwf, by omega, by omega⟩
      · have hwf' := ptrWellFormed_some.1 hqholds.wellFormed
        obtain ⟨p', q', hsides', hp', hq', hpl', hql', hpq'⟩ :=
          sides_total hwf' (show 1 < ptrHeight (some lhsRight) by omega)
        obtain ⟨xs', ys', hpholds', hqholds', -⟩ := sides_holds hwf' hsides'
        obtain ⟨x, hx, hxwf, h1, h2⟩ := ih (some lhsLeft) p' hpholds.wellFormed hpholds'.wellFormed
          (measure_lt_of_height (by omega))
        obtain ⟨y, hy, hywf, h3, h4⟩ := ih q' (some r) hqholds'.wellFormed hrwf' (measure_lt_of_height (by omega))
        obtain ⟨s, hs, hwf, h5, h6⟩ := ih x y hxwf hywf (measure_lt_left (by omega) (by omega) (by omega) (by omega))
        have hboth := hx.bind (g := fun x fuel => (concatenateAndBalance fuel q' (some r)).bind
          fun y => concatenateAndBalance fuel x y) (hy.bind hs)
        refine ⟨s, hboth.of_eq_succ fun fuel => (heq fuel).trans ((if_neg hmove).trans ?_), hwf, by omega, by omega⟩
        rw [hsides']
        rfl

end

/-- Every two trees are concatenated. -/
theorem ends (hp : PtrWellFormed p) (hq : PtrWellFormed q) : Ends p q := by
  induction hm : measure p q using WellFoundedLT.induction generalizing p q with
  | _ _ ih =>
    cases p with
    | none =>
      refine ⟨q, yields_some.of_eq_succ fun _ => rfl, hq, ⟨?_, ?_⟩⟩
      · exact (le_max_right _ _).trans (le_succ _)
      · exact le_add_left _ _
    | some l =>
      have hlwf := ptrWellFormed_some.1 hp
      by_cases hl : l.size = 0
      · refine ⟨q, yields_some.of_eq_succ fun _ => ?_, hq, ⟨?_, ?_⟩⟩
        · cases q with
          | none => exact if_pos hl
          | some r => exact if_pos hl
        · exact (le_max_right _ _).trans (le_succ _)
        · exact le_add_left _ _
      cases q with
      | none =>
        refine ⟨some l, yields_some.of_eq_succ fun _ => if_neg hl, hp, ⟨?_, ?_⟩⟩
        · exact (le_max_left _ _).trans (le_succ _)
        · exact le_add_right _ _
      | some r =>
        have hrwf := ptrWellFormed_some.1 hq
        by_cases hr : r.size = 0
        · refine ⟨some l, yields_some.of_eq_succ fun _ => (if_neg hl).trans (if_pos hr), hp, ⟨?_, ?_⟩⟩
          · exact (le_max_left _ _).trans (le_succ _)
          · exact le_add_right _ _
        have ih' : ∀ p' q', PtrWellFormed p' → PtrWellFormed q' →
            measure p' q' < measure (some l) (some r) → Ends p' q' :=
          fun p' q' hp' hq' hlt => ih _ (hm ▸ hlt) hp' hq' rfl
        by_cases hright : l.height + 2 < r.height
        · exact ends_right ih' hlwf hrwf hl hr hright
        by_cases hleft : r.height + 2 < l.height
        · exact ends_left ih' hlwf hrwf hl hr hleft
        have htrees : ofTrees l l.size r r.size = some (node l l.size r r.size) := by
          unfold ofTrees
          rw [guard_pos le_rfl, guard_pos le_rfl]
          rfl
        refine ⟨some (node l l.size r r.size), yields_some.of_eq_succ fun fuel => ?_,
          ptrWellFormed_some.2 ⟨⟨le_rfl, hlwf⟩, le_rfl, hrwf⟩, ⟨le_rfl, le_rfl⟩⟩
        rw [concatenateAndBalance, if_neg hl, if_neg hr, if_neg hright, if_neg hleft, htrees]
        rfl

/-- The size of a tree that may be missing. -/
def ptrSize : ℕ := tree.elim 0 size

theorem Holds.length_eq {xs : List α} (h : Holds p xs) : ptrSize p = xs.length := by
  obtain ⟨hwf, rfl⟩ := h
  cases p with
  | none => rfl
  | some t => exact (length_values (ptrWellFormed_some.1 hwf)).symm

/-- Concatenating trees, and restricting one to a number of values that it has, ends, without following a pointer
that is missing, in a well-formed tree of the values that it should have and of their number. -/
theorem concatenateAndBalance_total (hp : PtrWellFormed p) (hq : PtrWellFormed q) :
    (∃ s, Yields (fun fuel => concatenateAndBalance fuel p q) s ∧
      Holds s (ptrValues p ++ ptrValues q) ∧ ptrSize s = ptrSize p + ptrSize q) ∧
    ∀ t ∈ p, ∀ count ≤ t.size, ∃ s, t.restrictTo count = some s ∧ Holds s (t.values.take count) ∧
    ptrSize s = count := by
  constructor
  · obtain ⟨s, hs, -, -⟩ := ends hp hq
    obtain ⟨fuel, hfuel⟩ := hs
    have hholds := concatenateAndBalance_holds hp.holds hq.holds (hfuel fuel le_rfl)
    refine ⟨s, ⟨fuel, hfuel⟩, hholds, ?_⟩
    rw [hholds.length_eq, length_append, hp.holds.length_eq, hq.holds.length_eq]
  · intro t ht count hcount
    have hwf := hp t ht
    obtain ⟨s, hs, -, -⟩ := restrictTo_total hwf hcount
    have hholds := restrictTo_holds hwf hcount hs
    refine ⟨s, hs, hholds, ?_⟩
    rw [hholds.length_eq, length_take, length_values hwf, min_eq_left hcount]

/-- A tree three levels high. -/
def threeLevels : PageletTree ℕ := node (node (node (leaf [3] 1) 1 (leaf [4] 1) 1) 2 (leaf [5] 1) 1) 3 (leaf [6] 1) 1

/-- A leaf of which one of two values is used, and a tree that is more than two levels higher. -/
theorem concatenateAndBalance_total_leaves : (leaf [1, 2] 1).height + 2 < threeLevels.height ∧
    (∃ s, Yields (fun fuel => concatenateAndBalance fuel (some (leaf [1, 2] 1)) (some threeLevels)) s ∧
      Holds s [1, 3, 4, 5, 6] ∧ ptrSize s = 5) ∧
    ∀ t ∈ some (leaf [1, 2] 1), ∀ count ≤ t.size, ∃ s, t.restrictTo count = some s ∧
      Holds s (t.values.take count) ∧ ptrSize s = count :=
  ⟨by decide, concatenateAndBalance_total (ptrWellFormed_some.2 (show 1 ≤ 2 by decide))
    (ptrWellFormed_some.2 (by simp [threeLevels, WellFormed, size]))⟩

end Fora.PageletTree
