import Ufora.Vectors.PageletTree

/-!
# Operations on pagelet trees

`PageletTree` (`FORA/VectorDataManager/PageletTree.cppml`) and `moveUnpagedValuesIntoPageletTree`
(`FORA/TypedFora/ABI/VectorHandle.cppml`): trees are restricted, concatenated, collapsed and made out
of the values of an array. What is asked about numbers of bytes is a parameter. An operation is `none`
where an `lassert` of it fails or a null pointer is followed; a pointer to a tree that may be null is an
option of its own.
-/

open List Option

namespace Fora.PageletTree

variable {α : Type}

/-- `height()`. -/
def height : PageletTree α → ℕ
  | leaf _ _ => 1
  | node left _ right _ => max left.height right.height + 1

/-- The constructor that takes a pagelet. -/
def ofPagelet (lhs : List α) (lhsValuesUsed : ℕ) : Option (PageletTree α) := do
  guard (lhsValuesUsed ≤ lhs.length)
  return leaf lhs lhsValuesUsed

/-- The constructor that takes two trees. -/
def ofTrees (lhs : PageletTree α) (lhsValuesUsed : ℕ) (rhs : PageletTree α) (rhsValuesUsed : ℕ) :
    Option (PageletTree α) := do
  guard (lhsValuesUsed ≤ lhs.size)
  guard (rhsValuesUsed ≤ rhs.size)
  return node lhs lhsValuesUsed rhs rhsValuesUsed

/-- `restrictTo(pool, count)`. -/
def restrictTo : PageletTree α → ℕ → Option (Option (PageletTree α))
  | leaf pagelet leafValuesUsed, count =>
    if count = leafValuesUsed then some (leaf pagelet leafValuesUsed)
    else if count ≥ leafValuesUsed then some (leaf pagelet leafValuesUsed)
    else if count = 0 then some none
    else (ofPagelet pagelet count).map some
  | node left leftPtrValuesUsed right rightPtrValuesUsed, count =>
    if count = leftPtrValuesUsed + rightPtrValuesUsed then
      some (node left leftPtrValuesUsed right rightPtrValuesUsed)
    else if count ≤ leftPtrValuesUsed then left.restrictTo count
    else do
      let restricted ← right.restrictTo (count - leftPtrValuesUsed)
      let restricted ← restricted
      return ← ofTrees left leftPtrValuesUsed restricted (count - leftPtrValuesUsed)

/-- `left()` and `right()`, each restricted to the values that are used of it. -/
def sides : PageletTree α → Option (Option (PageletTree α) × Option (PageletTree α))
  | leaf _ _ => none
  | node left leftPtrValuesUsed right rightPtrValuesUsed => do
    return (← left.restrictTo leftPtrValuesUsed, ← right.restrictTo rightPtrValuesUsed)

/-- `concatenateAndBalance(pool, lhs, rhs)`. -/
def concatenateAndBalance : ℕ → Option (PageletTree α) → Option (PageletTree α) → Option (Option (PageletTree α))
  | 0, _, _ => none
  | _ + 1, none, rhs => some rhs
  | _ + 1, some lhs, none => if lhs.size = 0 then some none else some lhs
  | fuel + 1, some lhs, some rhs =>
    if lhs.size = 0 then some rhs
    else if rhs.size = 0 then some lhs
    else if lhs.height + 2 < rhs.height then do
      match ← rhs.sides with
      | (none, rhsRight) => concatenateAndBalance fuel lhs rhsRight
      | (some rhsLeft, none) => concatenateAndBalance fuel lhs rhsLeft
      | (some rhsLeft, some rhsRight) =>
        if rhsLeft.height < lhs.height + 2 then
          concatenateAndBalance fuel (← concatenateAndBalance fuel lhs rhsLeft) rhsRight
        else
          let (rhsLeftLeft, rhsLeftRight) ← rhsLeft.sides
          concatenateAndBalance fuel (← concatenateAndBalance fuel lhs rhsLeftLeft)
            (← concatenateAndBalance fuel rhsLeftRight rhsRight)
    else if rhs.height + 2 < lhs.height then do
      match ← lhs.sides with
      | (none, lhsRight) => concatenateAndBalance fuel lhsRight rhs
      | (some lhsLeft, none) => concatenateAndBalance fuel lhsLeft rhs
      | (some lhsLeft, some lhsRight) =>
        if lhsRight.height < rhs.height + 2 then
          concatenateAndBalance fuel lhsLeft (← concatenateAndBalance fuel lhsRight rhs)
        else
          let (lhsRightLeft, lhsRightRight) ← lhsRight.sides
          concatenateAndBalance fuel (← concatenateAndBalance fuel lhsLeft lhsRightLeft)
            (← concatenateAndBalance fuel lhsRightRight rhs)
    else (ofTrees lhs lhs.size rhs rhs.size).map some

/-- `collapseToSinglePagelet`, without a final array: the values of the pagelet that it makes. -/
def collapseToSinglePagelet (tree : PageletTree α) : List α := (tree.visitTree ⟨0, tree.size⟩ 0 false).foldl
    (fun pagelet visit => pagelet ++ (visit.1.take visit.2.1.high.toNat).drop visit.2.1.low.toNat) []

/-- `withSmallPageletsCollapsed`; the parameter says where a collapse is wanted. -/
def withSmallPageletsCollapsed (wantsCollapse : PageletTree α → Bool) : PageletTree α → Option (PageletTree α)
  | leaf pagelet leafValuesUsed => some (leaf pagelet leafValuesUsed)
  | node left leftPtrValuesUsed right rightPtrValuesUsed =>
    if wantsCollapse (node left leftPtrValuesUsed right rightPtrValuesUsed) then
      ofPagelet
        (node left leftPtrValuesUsed right rightPtrValuesUsed).collapseToSinglePagelet
        (leftPtrValuesUsed + rightPtrValuesUsed)
    else do
      let newLeft ← left.withSmallPageletsCollapsed wantsCollapse
      let newRight ← right.withSmallPageletsCollapsed wantsCollapse
      ofTrees newLeft leftPtrValuesUsed newRight rightPtrValuesUsed

/-- `moveUnpagedValuesIntoPageletTree(…, array, low, high)`, for the values between `low` and `high`.
The parameter says which pagelets are too large. -/
def moveUnpagedValuesIntoPageletTree (fuel : ℕ) (tooLarge : List α → Bool) (values : List α) :
    Option (Option (PageletTree α)) :=
  if values.length = 0 then some none
  else if tooLarge values ∧ 1 < values.length then do
    let p1 ← moveUnpagedValuesIntoPageletTree fuel tooLarge (values.take (values.length / 2))
    let p2 ← moveUnpagedValuesIntoPageletTree fuel tooLarge (values.drop (values.length / 2))
    concatenateAndBalance fuel p1 p2
  else (ofPagelet values values.length).map some
termination_by values.length
decreasing_by
  · simp only [length_take]
    omega
  · simp only [length_drop]
    omega

/-! ## The values of the results -/

/-- The values of a tree that may be missing. -/
def ptrValues (tree : Option (PageletTree α)) : List α := tree.elim [] values

/-- Where there is a tree, it is well formed. -/
def PtrWellFormed (tree : Option (PageletTree α)) : Prop := ∀ t ∈ tree, t.WellFormed

@[simp] theorem ptrValues_some (t : PageletTree α) : ptrValues (some t) = t.values := rfl

theorem ptrWellFormed_none : PtrWellFormed (none : Option (PageletTree α)) := nofun

@[simp] theorem ptrWellFormed_some {t : PageletTree α} : PtrWellFormed (some t) ↔ t.WellFormed :=
  ⟨fun h => h t rfl, fun h _ ht => some.inj ht ▸ h⟩

variable {t l r : PageletTree α} {p q s : Option (PageletTree α)} {pagelet : List α} {n m : ℕ}

theorem ofPagelet_eq (h : ofPagelet pagelet n = some t) : t = leaf pagelet n ∧ n ≤ pagelet.length := by
  unfold ofPagelet at h
  simp only [bind_eq_bind, bind_eq_some_iff, guard_eq_some', Option.pure_def, some.injEq] at h
  obtain ⟨-, hle, rfl⟩ := h
  exact ⟨rfl, hle⟩

theorem ofTrees_eq (h : ofTrees l n r m = some t) : t = node l n r m ∧ n ≤ l.size ∧ m ≤ r.size := by
  unfold ofTrees at h
  simp only [bind_eq_bind, bind_eq_some_iff, guard_eq_some', Option.pure_def, some.injEq] at h
  obtain ⟨-, hl, -, hr, rfl⟩ := h
  exact ⟨rfl, hl, hr⟩

/-- A pointer to a tree holds some values. -/
structure Holds (tree : Option (PageletTree α)) (xs : List α) : Prop where
  wellFormed : PtrWellFormed tree
  values : ptrValues tree = xs

theorem holds_some {xs : List α} : Holds (some t) xs ↔ t.WellFormed ∧ t.values = xs :=
  ⟨fun h => ⟨ptrWellFormed_some.1 h.wellFormed, h.values⟩, fun h => ⟨ptrWellFormed_some.2 h.1, h.2⟩⟩

theorem holds_none {xs : List α} : Holds none xs ↔ xs = [] :=
  ⟨fun h => h.values.symm, fun h => ⟨ptrWellFormed_none, h.symm⟩⟩

/-- Restricting a tree takes its first values. -/
theorem restrictTo_holds (h : t.WellFormed) (hn : n ≤ t.size) (hr : t.restrictTo n = some p) :
    Holds p (t.values.take n) := by
  induction t generalizing n p with
  | leaf pagelet used =>
    have hall {k : ℕ} (hk : used ≤ k) : (pagelet.take used).take k = pagelet.take used := by
      rw [take_take, min_eq_right hk]
    unfold restrictTo at hr
    split at hr
    · obtain rfl := some.inj hr
      exact holds_some.2 ⟨h, by subst n; exact (hall le_rfl).symm⟩
    split at hr
    · rename_i hge
      obtain rfl := some.inj hr
      exact holds_some.2 ⟨h, (hall hge).symm⟩
    split at hr
    · subst n
      obtain rfl := some.inj hr
      exact holds_none.2 rfl
    · obtain ⟨t', ht', rfl⟩ := map_eq_some_iff.1 hr
      obtain ⟨rfl, hle⟩ := ofPagelet_eq ht'
      refine holds_some.2 ⟨hle, ?_⟩
      rw [values, values, take_take, min_eq_left (show n ≤ used from hn)]
  | node left leftUsed right rightUsed ihl ihr =>
    obtain ⟨⟨hl, hlwf⟩, hrs, hrwf⟩ := h
    have hsize : n ≤ leftUsed + rightUsed := hn
    have hlen : (left.values.take leftUsed).length = leftUsed := by
      rw [length_take, length_values hlwf, min_eq_left hl]
    unfold restrictTo at hr
    split at hr
    · rename_i heq
      obtain rfl := some.inj hr
      refine holds_some.2 ⟨⟨⟨hl, hlwf⟩, hrs, hrwf⟩, (take_of_length_le ?_).symm⟩
      rw [values, length_append, hlen, length_take]
      omega
    split at hr
    · rename_i hle
      have hleft := ihl hlwf (hle.trans hl) hr
      rwa [values, take_append_of_le_length (hle.trans_eq hlen.symm), take_take, min_eq_left hle]
    · simp only [bind_eq_bind, bind_eq_some_iff, Option.pure_def] at hr
      obtain ⟨_, hright, restricted, rfl, t', ht', hp⟩ := hr
      obtain rfl := some.inj hp
      obtain ⟨hwf, hvalues⟩ := holds_some.1 (ihr hrwf (by omega) hright)
      obtain ⟨rfl, hlu, hru⟩ := ofTrees_eq ht'
      refine holds_some.2 ⟨⟨⟨hlu, hlwf⟩, hru, hwf⟩, ?_⟩
      rw [values, values, hvalues, take_take, min_self, take_append, hlen, take_take,
        take_take, min_eq_right (show leftUsed ≤ n by omega),
        min_eq_left (show n - leftUsed ≤ rightUsed by omega)]

/-- The two sides of a tree hold its values. -/
theorem sides_holds (h : t.WellFormed) (hs : t.sides = some (p, q)) :
    ∃ xs ys, Holds p xs ∧ Holds q ys ∧ t.values = xs ++ ys := by
  cases t with
  | leaf => cases hs
  | node left leftUsed right rightUsed =>
    obtain ⟨⟨hl, hlwf⟩, hrs, hrwf⟩ := h
    simp only [sides, bind_eq_bind, bind_eq_some_iff, Option.pure_def, some.injEq, Prod.mk.injEq] at hs
    obtain ⟨_, hleft, _, hright, rfl, rfl⟩ := hs
    exact ⟨_, _, restrictTo_holds hlwf hl hleft, restrictTo_holds hrwf hrs hright, rfl⟩

theorem values_eq_nil (h : t.WellFormed) (h0 : t.size = 0) : t.values = [] :=
  length_eq_zero_iff.1 ((length_values h).trans h0)

/-- Concatenation appends the values. -/
theorem concatenateAndBalance_holds {fuel : ℕ} {xs ys : List α} (hp : Holds p xs) (hq : Holds q ys)
    (h : concatenateAndBalance fuel p q = some s) : Holds s (xs ++ ys) := by
  induction fuel generalizing p q s xs ys with
  | zero => cases h
  | succ fuel ih =>
    cases p with
    | none =>
      obtain rfl := some.inj h
      rw [holds_none.1 hp]
      exact hq
    | some lhs =>
      obtain ⟨hlwf, rfl⟩ := holds_some.1 hp
      cases q with
      | none =>
        rw [holds_none.1 hq, append_nil]
        unfold concatenateAndBalance at h
        split at h
        · rename_i h0
          obtain rfl := some.inj h
          exact holds_none.2 (values_eq_nil hlwf h0)
        · obtain rfl := some.inj h
          exact hp
      | some rhs =>
        obtain ⟨hrwf, rfl⟩ := holds_some.1 hq
        unfold concatenateAndBalance at h
        split at h
        · rename_i h0
          obtain rfl := some.inj h
          rw [values_eq_nil hlwf h0]
          exact hq
        split at h
        · rename_i h0
          obtain rfl := some.inj h
          rw [values_eq_nil hrwf h0, append_nil]
          exact hp
        split at h
        · simp only [bind_eq_bind, bind_eq_some_iff] at h
          obtain ⟨⟨rhsLeft, rhsRight⟩, hsides, h⟩ := h
          obtain ⟨xs, ys, hl, hr, hvalues⟩ := sides_holds hrwf hsides
          rw [hvalues, ← append_assoc]
          cases rhsLeft with
          | none =>
            rw [holds_none.1 hl, append_nil]
            exact ih hp hr h
          | some rhsLeft =>
            cases rhsRight with
            | none =>
              rw [holds_none.1 hr, append_nil]
              exact ih hp hl h
            | some rhsRight =>
              dsimp only at h
              split at h
              · obtain ⟨_, hmoved, h⟩ := bind_eq_some_iff.1 h
                exact ih (ih hp hl hmoved) hr h
              · obtain ⟨⟨rhsLeftLeft, rhsLeftRight⟩, hsides, h⟩ := bind_eq_some_iff.1 h
                obtain ⟨_, hleft, h⟩ := bind_eq_some_iff.1 h
                obtain ⟨_, hright, h⟩ := bind_eq_some_iff.1 h
                obtain ⟨hlwf', rfl⟩ := holds_some.1 hl
                obtain ⟨xs, zs, hll, hlr, hvalues⟩ := sides_holds hlwf' hsides
                rw [hvalues, ← append_assoc, append_assoc _ zs]
                exact ih (ih hp hll hleft) (ih hlr hr hright) h
        split at h
        · simp only [bind_eq_bind, bind_eq_some_iff] at h
          obtain ⟨⟨lhsLeft, lhsRight⟩, hsides, h⟩ := h
          obtain ⟨xs, ys, hl, hr, hvalues⟩ := sides_holds hlwf hsides
          rw [hvalues, append_assoc]
          cases lhsLeft with
          | none =>
            rw [holds_none.1 hl, nil_append]
            exact ih hr hq h
          | some lhsLeft =>
            cases lhsRight with
            | none =>
              rw [holds_none.1 hr, nil_append]
              exact ih hl hq h
            | some lhsRight =>
              dsimp only at h
              split at h
              · obtain ⟨_, hmoved, h⟩ := bind_eq_some_iff.1 h
                exact ih hl (ih hr hq hmoved) h
              · obtain ⟨⟨lhsRightLeft, lhsRightRight⟩, hsides, h⟩ := bind_eq_some_iff.1 h
                obtain ⟨_, hleft, h⟩ := bind_eq_some_iff.1 h
                obtain ⟨_, hright, h⟩ := bind_eq_some_iff.1 h
                obtain ⟨hrwf', rfl⟩ := holds_some.1 hr
                obtain ⟨ys, zs, hrl, hrr, hvalues⟩ := sides_holds hrwf' hsides
                rw [hvalues, append_assoc, ← append_assoc]
                exact ih (ih hl hrl hleft) (ih hrr hq hright) h
        · obtain ⟨t', ht', rfl⟩ := map_eq_some_iff.1 h
          obtain ⟨rfl, hlu, hru⟩ := ofTrees_eq ht'
          refine holds_some.2 ⟨⟨⟨hlu, hlwf⟩, hru, hrwf⟩, ?_⟩
          rw [values, take_of_length_le (length_values hlwf).le, take_of_length_le (length_values hrwf).le]

/-- Copying what each visit of a tree shows copies its values. -/
theorem Tiles.foldl_append {off : ℤ} {visits : List (Visit α)} {xs : List α} (h : Tiles off visits xs)
    (pagelet : List α) : visits.foldl
      (fun pagelet visit => pagelet ++ (visit.1.take visit.2.1.high.toNat).drop visit.2.1.low.toNat)
      pagelet = pagelet ++ xs := by
  induction h generalizing pagelet with
  | nil off => exact (append_nil pagelet).symm
  | cons hn hle h ih =>
    rw [foldl_cons, ih, append_assoc]
    rfl

theorem collapseToSinglePagelet_eq (h : t.WellFormed) : t.collapseToSinglePagelet = t.values := by
  have htiles := visitTree_tiles h t.size le_rfl 0
  rw [take_of_length_le (length_values h).le] at htiles
  exact htiles.foldl_append []

/-- Collapsing small pagelets changes no value. -/
theorem withSmallPageletsCollapsed_holds {wantsCollapse : PageletTree α → Bool} (h : t.WellFormed)
    (hr : t.withSmallPageletsCollapsed wantsCollapse = some l) :
    l.WellFormed ∧ l.values = t.values := by
  induction t generalizing l with
  | leaf pagelet used =>
    obtain rfl := some.inj hr
    exact ⟨h, rfl⟩
  | node left leftUsed right rightUsed ihl ihr =>
    unfold withSmallPageletsCollapsed at hr
    split at hr
    · obtain ⟨rfl, hle⟩ := ofPagelet_eq hr
      refine ⟨hle, ?_⟩
      rw [values, collapseToSinglePagelet_eq h]
      exact take_of_length_le (length_values h).le
    · simp only [bind_eq_bind, bind_eq_some_iff] at hr
      obtain ⟨newLeft, hleft, newRight, hright, hr⟩ := hr
      obtain ⟨hlwf, hlvalues⟩ := ihl h.1.2 hleft
      obtain ⟨hrwf, hrvalues⟩ := ihr h.2.2 hright
      obtain ⟨rfl, hlu, hru⟩ := ofTrees_eq hr
      exact ⟨⟨⟨hlu, hlwf⟩, hru, hrwf⟩, by rw [values, values, hlvalues, hrvalues]⟩

/-- The tree that is made out of values holds them. -/
theorem moveUnpagedValuesIntoPageletTree_holds {fuel : ℕ} {tooLarge : List α → Bool} {xs : List α}
    (h : moveUnpagedValuesIntoPageletTree fuel tooLarge xs = some p) : Holds p xs := by
  induction xs using moveUnpagedValuesIntoPageletTree.induct tooLarge generalizing p with
  | case1 xs h0 =>
    rw [moveUnpagedValuesIntoPageletTree, if_pos h0] at h
    obtain rfl := some.inj h
    exact holds_none.2 (length_eq_zero_iff.1 h0)
  | case2 xs h0 hlarge ih1 ih2 =>
    rw [moveUnpagedValuesIntoPageletTree, if_neg h0, if_pos hlarge] at h
    simp only [bind_eq_bind, bind_eq_some_iff] at h
    obtain ⟨p1, h1, p2, h2, h⟩ := h
    have happend := concatenateAndBalance_holds (ih1 h1) (ih2 h2) h
    rwa [take_append_drop] at happend
  | case3 xs h0 hsmall =>
    rw [moveUnpagedValuesIntoPageletTree, if_neg h0, if_neg hsmall] at h
    obtain ⟨t', ht', rfl⟩ := map_eq_some_iff.1 h
    obtain ⟨rfl, hle⟩ := ofPagelet_eq ht'
    exact holds_some.2 ⟨hle, take_length⟩

end Fora.PageletTree
