import Mathlib.Data.Finset.Max

/-!
# Propagation along a graph

Every node of a graph has a value, which should follow from the values of its parents. A pass checks
a set of nodes one by one, in whatever order: a node whose value does not follow gets the one that
does, and then it and its children are dirty, and those among the children that were not dirty yet
are checked in the same pass.

What does not follow at the end of a pass is dirty (`Steps.agrees`). Where the nodes that change
have ranks that grow along their edges, each pass raises the least rank at which a value does not
follow (`Ranked.pass`), and a pass that leaves dirty nodes leaves one that the next pass does not
leave (`Ranked.exists_settled`). Where a predicate only spreads, one pass spreads it to all nodes
that its sources reach (`Spread.pass`).
-/

open Relation Finset Function

namespace Propagation

variable {α V : Type*} [DecidableEq α]

/-- What the value of a node follows from, and the equality by which a change is noticed. -/
structure Network (α V : Type*) where
  edge : α → α → Prop
  recompute : (α → V) → α → V
  same : V → V → Prop
  same_refl : ∀ a, same a a
  recompute_congr : ∀ {v w : α → V} {x : α}, (∀ p, edge p x → v p = w p) → recompute v x = recompute w x

/-- The values, the nodes found dirty in this pass, and the nodes still to check. -/
structure Pass (α V : Type*) where
  value : α → V
  newDirty : Finset α
  toCheck : Finset α

namespace Network
variable (n : Network α V)

/-- The value of a node follows from those of its parents. -/
def Settled (v : α → V) (x : α) : Prop := n.same (n.recompute v x) (v x)

/-- The values after a node was recomputed. -/
def set (v : α → V) (x : α) : α → V := Function.update v x (n.recompute v x)

/-- Checking one node. -/
inductive Step (p : Pass α V) (x : α) : Pass α V → Prop
  | unchanged : n.Settled p.value x → Step p x ⟨p.value, p.newDirty, p.toCheck.erase x⟩
  | changed (newDirty toCheck : Finset α) : ¬ n.Settled p.value x →
      (∀ y, y ∈ newDirty ↔ y = x ∨ y ∈ p.newDirty ∨ n.edge x y) →
      (∀ y, y ∈ toCheck ↔ (y ≠ x ∧ y ∈ p.toCheck) ∨ (n.edge x y ∧ y ≠ x ∧ y ∉ p.newDirty)) →
      Step p x ⟨n.set p.value x, newDirty, toCheck⟩

/-- Checking nodes one after the other. -/
def Steps : Pass α V → Pass α V → Prop := ReflTransGen fun p q => ∃ x ∈ p.toCheck, n.Step p x q

end Network

section
variable {n : Network α V} {p q : Pass α V} {v : α → V} {x y : α}

/-- An invariant of the steps is one of the pass. -/
theorem Network.Steps.invariant {I : Pass α V → Prop} (hs : n.Steps p q) (h : I p)
    (hstep : ∀ p x q, I p → x ∈ p.toCheck → n.Step p x q → I q) : I q := by
  induction hs with
  | refl => exact h
  | tail _ hq ih =>
    obtain ⟨x, hx, hq⟩ := hq
    exact hstep _ x _ ih hx hq

theorem Network.set_of_ne (h : y ≠ x) : n.set v x y = v y := update_of_ne h _ _

theorem Network.set_self : n.set v x x = n.recompute v x := update_self _ _ _

/-- Changing a value matters to the children of the node only. -/
theorem Network.recompute_set (h : ¬ n.edge x y) : n.recompute (n.set v x) y = n.recompute v y := by
  refine n.recompute_congr fun p hp => set_of_ne ?_
  rintro rfl
  exact h hp

/-- Whatever the equality notices, a node that is neither to be checked nor dirty agrees with its
parents. -/
theorem Network.Steps.agrees {E : V → V → Prop} (hE : ∀ a b, n.same a b → E a b) (hs : n.Steps p q)
    (h : E (n.recompute p.value y) (p.value y) ∨ y ∈ p.toCheck ∨ y ∈ p.newDirty) :
    E (n.recompute q.value y) (q.value y) ∨ y ∈ q.toCheck ∨ y ∈ q.newDirty := by
  have hI := hs.invariant (I := fun q => E (n.recompute q.value y) (q.value y) ∨ y ∈ q.toCheck ∨ y ∈ q.newDirty) h
  refine hI fun p x q h hx hq => ?_
  cases hq with
  | unchanged hset =>
    by_cases hyx : y = x
    · subst hyx
      exact .inl (hE _ _ hset)
    · exact h.imp_right (Or.imp_left fun hc => mem_erase.2 ⟨hyx, hc⟩)
  | changed newDirty toCheck hset hd hc =>
    by_cases hdirty : y = x ∨ n.edge x y
    · exact .inr (.inr ((hd y).2 (hdirty.imp_right .inr)))
    · obtain ⟨hyx, hedge⟩ := not_or.1 hdirty
      dsimp only
      rw [recompute_set hedge, set_of_ne hyx]
      exact h.imp_right (Or.imp (fun h => (hc y).2 (.inl ⟨hyx, h⟩)) fun h => (hd y).2 (.inr (.inl h)))

/-- A pass stays among the nodes that those to check reach, and changes no others. -/
theorem Network.Steps.confined {S : α → Prop} (hS : ∀ x y, S x → n.edge x y → S y)
    (hs : n.Steps p q) (hc : ∀ x ∈ p.toCheck, S x) (hd : ∀ x ∈ p.newDirty, S x) :
    (∀ x ∈ q.toCheck, S x) ∧ (∀ x ∈ q.newDirty, S x) ∧ ∀ x, ¬ S x → q.value x = p.value x := by
  have hI := hs.invariant
    (I := fun q => (∀ x ∈ q.toCheck, S x) ∧ (∀ x ∈ q.newDirty, S x) ∧ ∀ x, ¬ S x → q.value x = p.value x)
    ⟨hc, hd, fun _ _ => rfl⟩
  refine hI ?_
  rintro p' x q ⟨hc, hd, hv⟩ hx hq
  cases hq with
  | unchanged => exact ⟨fun y hy => hc y (mem_of_mem_erase hy), hd, hv⟩
  | changed newDirty toCheck hset hd' hc' =>
    refine ⟨fun y hy => ?_, fun y hy => ?_, fun y hy => ?_⟩
    · rcases (hc' y).1 hy with ⟨-, hy⟩ | ⟨hy, -⟩
      · exact hc y hy
      · exact hS x y (hc x hx) hy
    · rcases (hd' y).1 hy with rfl | hy | hy
      · exact hc y hx
      · exact hd y hy
      · exact hS x y (hc x hx) hy
    · have hyx : y ≠ x := by
        rintro rfl
        exact hy (hc y hx)
      exact (set_of_ne hyx).trans (hv y hy)

end

/-! ## Ranks -/

/-- The nodes whose values change have ranks that grow along their edges. `good` is what the values
have and keep. -/
structure Ranked (n : Network α V) (rank : α → ℕ) (good : (α → V) → Prop) : Prop where
  keeps : ∀ {v x}, good v → ¬ n.Settled v x → good (n.set v x)
  grows : ∀ {v x y}, good v → ¬ n.Settled v x → n.edge x y → rank x < rank y

section
variable {n : Network α V} {rank : α → ℕ} {good : (α → V) → Prop} {p q : Pass α V} {v : α → V}
  {x : α} {k : ℕ}

/-- Where the node itself is no child of it, a value that was recomputed follows. -/
theorem Ranked.settled_set (h : Ranked n rank good) (hg : good v) (hx : ¬ n.Settled v x) : n.Settled (n.set v x) x := by
  have hself : ¬ n.edge x x := fun he => lt_irrefl _ (h.grows hg hx he)
  unfold Network.Settled
  rw [Network.recompute_set hself, Network.set_self]
  exact n.same_refl _

/-- What a pass keeps that starts with values that follow below the rank `k`. -/
structure Below (n : Network α V) (rank : α → ℕ) (good : (α → V) → Prop) (k : ℕ)
    (p : Pass α V) : Prop where
  good : good p.value
  toCheck : ∀ x ∈ p.toCheck, ¬ n.Settled p.value x → k ≤ rank x
  newDirty : ∀ x ∈ p.newDirty, k ≤ rank x
  settled : ∀ x ∈ p.newDirty, x ∉ p.toCheck → ¬ n.Settled p.value x → k < rank x

theorem Below.step (h : Ranked n rank good) (hb : Below n rank good k p) (hx : x ∈ p.toCheck)
    (hq : n.Step p x q) : Below n rank good k q := by
  cases hq with
  | unchanged hset =>
    refine ⟨hb.good, fun y hy => hb.toCheck y (mem_of_mem_erase hy), hb.newDirty, fun y hy hc hn => ?_⟩
    by_cases hyx : y = x
    · exact absurd hset (hyx ▸ hn)
    · exact hb.settled y hy (fun hc' => hc (mem_erase.2 ⟨hyx, hc'⟩)) hn
  | changed newDirty toCheck hset hd hc =>
    have hkx := hb.toCheck x hx hset
    have hchild : ∀ y, n.edge x y → k < rank y := fun y hy => hkx.trans_lt (h.grows hb.good hset hy)
    have hother : ∀ y, y ≠ x → ¬ n.edge x y → ¬ n.Settled (n.set p.value x) y → ¬ n.Settled p.value y := by
      intro y hyx hy hn
      unfold Network.Settled at hn ⊢
      rwa [Network.recompute_set hy, Network.set_of_ne hyx] at hn
    refine ⟨h.keeps hb.good hset, fun y hy hn => ?_, fun y hy => ?_, fun y hy hnc hn => ?_⟩
    · by_cases hxy : n.edge x y
      · exact (hchild y hxy).le
      · rcases (hc y).1 hy with ⟨hyx, hy⟩ | ⟨hy, -⟩
        · exact hb.toCheck y hy (hother y hyx hxy hn)
        · exact absurd hy hxy
    · rcases (hd y).1 hy with rfl | hy | hy
      · exact hkx
      · exact hb.newDirty y hy
      · exact (hchild y hy).le
    · by_cases hxy : n.edge x y
      · exact hchild y hxy
      · by_cases hyx : y = x
        · exact absurd (h.settled_set hb.good hset) (hyx ▸ hn)
        · have hyd : y ∈ p.newDirty := by
            rcases (hd y).1 hy with rfl | hy | hy
            exacts [absurd rfl hyx, hy, absurd hy hxy]
          exact hb.settled y hyd (fun hy => hnc ((hc y).2 (.inl ⟨hyx, hy⟩))) (hother y hyx hxy hn)

/-- A pass over nodes whose values follow below the rank `k` leaves dirty nodes from this rank on,
whose values follow at this rank too. -/
theorem Ranked.pass (h : Ranked n rank good) (hs : n.Steps p q) (hg : good p.value)
    (hp : p.newDirty = ∅) (hq : q.toCheck = ∅) (hk : ∀ x ∈ p.toCheck, ¬ n.Settled p.value x → k ≤ rank x) :
    good q.value ∧ (∀ x ∈ q.newDirty, k ≤ rank x) ∧ ∀ x ∈ q.newDirty, ¬ n.Settled q.value x → k < rank x := by
  have hb : Below n rank good k q := by
    refine hs.invariant ⟨hg, hk, by simp [hp], by simp [hp]⟩ ?_
    exact fun p x q hb hx hq => hb.step h hx hq
  exact ⟨hb.good, hb.newDirty, fun x hx => hb.settled x hx (by simp [hq])⟩

/-- A pass over nodes whose values follow changes nothing. -/
theorem Network.Steps.newDirty_eq_empty (hs : n.Steps p q) (hp : p.newDirty = ∅)
    (hset : ∀ x ∈ p.toCheck, n.Settled p.value x) : q.newDirty = ∅ := by
  have hI := hs.invariant (I := fun q => q.newDirty = ∅ ∧ ∀ x ∈ q.toCheck, n.Settled q.value x) ⟨hp, hset⟩
  refine (hI ?_).1
  rintro p x q ⟨hd, hset⟩ hx hq
  cases hq with
  | unchanged => exact ⟨hd, fun y hy => hset y (mem_of_mem_erase hy)⟩
  | changed newDirty toCheck hn => exact absurd (hset x hx) hn

/-- A pass that leaves dirty nodes leaves one below all those whose values do not follow. -/
theorem Ranked.exists_settled (h : Ranked n rank good) (hs : n.Steps p q) (hg : good p.value)
    (hp : p.newDirty = ∅) (hq : q.toCheck = ∅) (hne : q.newDirty ≠ ∅) :
    ∃ z ∈ q.newDirty, ∀ x ∈ q.newDirty, ¬ n.Settled q.value x → rank z < rank x := by
  classical
  -- The least of the nodes that change is among those to check at the start.
  obtain ⟨z, hz, hmin⟩ : ∃ z ∈ p.toCheck.filter fun x => ¬ n.Settled p.value x,
      ∀ x ∈ p.toCheck.filter fun x => ¬ n.Settled p.value x, rank z ≤ rank x := by
    refine exists_min_image _ rank (nonempty_iff_ne_empty.2 fun he => hne ?_)
    refine hs.newDirty_eq_empty hp fun x hx => ?_
    by_contra hn
    exact notMem_empty x (he ▸ mem_filter.2 ⟨hx, hn⟩)
  obtain ⟨hzc, hzn⟩ := mem_filter.1 hz
  have hk : ∀ x ∈ p.toCheck, ¬ n.Settled p.value x → rank z ≤ rank x := fun x hx hn => hmin x (mem_filter.2 ⟨hx, hn⟩)
  refine ⟨z, ?_, (h.pass hs hg hp hq hk).2.2⟩
  have hI := hs.invariant
    (I := fun q => Below n rank good (rank z) q ∧ (z ∈ q.newDirty ∨ z ∈ q.toCheck ∧ ¬ n.Settled q.value z))
    ⟨⟨hg, hk, by simp [hp], by simp [hp]⟩, .inr ⟨hzc, hzn⟩⟩
  have hlast := (hI ?_).2
  · exact hlast.resolve_right (by simp [hq])
  rintro p x q ⟨hb, hz⟩ hx hq
  refine ⟨hb.step h hx hq, ?_⟩
  cases hq with
  | unchanged hset =>
    refine hz.imp_right fun ⟨hzc, hzn⟩ => ⟨mem_erase.2 ⟨?_, hzc⟩, hzn⟩
    rintro rfl
    exact hzn hset
  | changed newDirty toCheck hset hd hc =>
    have hxz : ¬ n.edge x z := fun he => not_lt_of_ge (hb.toCheck x hx hset) (h.grows hb.good hset he)
    rcases hz with hz | ⟨hzc, hzn⟩
    · exact .inl ((hd z).2 (.inr (.inl hz)))
    · by_cases hzx : z = x
      · exact .inl ((hd z).2 (.inl hzx))
      · refine .inr ⟨(hc z).2 (.inl ⟨hzx, hzc⟩), ?_⟩
        unfold Network.Settled at hzn ⊢
        dsimp only
        rwa [Network.recompute_set hxz, Network.set_of_ne hzx]

end

/-- A bound on the steps that are still to come, where the children are among the nodes `W`. -/
def weight (W : Finset α) (p : Pass α V) : ℕ := p.toCheck.card + (W \ p.newDirty).card

/-- Every step lowers the bound. -/
theorem Network.Step.weight_lt {n : Network α V} {W : Finset α} (hW : ∀ x y, n.edge x y → y ∈ W)
    {p q : Pass α V} {x : α} (hx : x ∈ p.toCheck) (hq : n.Step p x q) : weight W q < weight W p := by
  cases hq with
  | unchanged => exact Nat.add_lt_add_right (card_erase_lt_of_mem hx) _
  | changed newDirty toCheck hset hd hc =>
    -- The nodes that are new to check were not dirty before and are now.
    have hsub : toCheck ⊆ p.toCheck.erase x ∪ ((W \ p.newDirty) \ (W \ newDirty)) := by
      intro y hy
      rcases (hc y).1 hy with ⟨hyx, hy⟩ | ⟨hxy, -, hyd⟩
      · exact mem_union_left _ (mem_erase.2 ⟨hyx, hy⟩)
      · have hyW := hW x y hxy
        have hyd' := (hd y).2 (.inr (.inr hxy))
        exact mem_union_right _ (by simp [hyW, hyd, hyd'])
    have hdirty : W \ newDirty ⊆ W \ p.newDirty :=
      sdiff_subset_sdiff (Finset.Subset.refl W) fun y hy => (hd y).2 (.inr (.inl hy))
    have h1 := (card_le_card hsub).trans (card_union_le _ _)
    have h2 := card_sdiff_add_card_eq_card hdirty
    have h3 := card_erase_lt_of_mem hx
    unfold weight
    dsimp only
    omega

/-! ## Spreading -/

/-- A predicate that holds of what follows from the values of the parents at the sources, and
wherever it holds at a parent. `good` is what the values have and keep. -/
structure Spreads (n : Network α V) (P : V → Prop) (source : α → Prop)
    (good : (α → V) → Prop) : Prop where
  keeps : ∀ {v x}, good v → ¬ n.Settled v x → good (n.set v x)
  congr : ∀ {a b}, n.same a b → (P a ↔ P b)
  recompute : ∀ {v x}, good v → (P (n.recompute v x) ↔ source x ∨ ∃ p, n.edge p x ∧ P (v p))
  settled : ∀ {v x}, good v → ¬ P (n.recompute v x) → ¬ P (v x) → n.Settled v x

/-- The predicate holds at a node by way of nodes at which it holds. -/
inductive Supported (n : Network α V) (P : V → Prop) (source : α → Prop) (v : α → V) : α → Prop
  | source {x : α} : source x → Supported n P source v x
  | parent {p x : α} : Supported n P source v p → P (v p) → n.edge p x → Supported n P source v x

variable {n : Network α V} {P : V → Prop} {source : α → Prop} {good : (α → V) → Prop}
  {v w : α → V} {p q : Pass α V} {x : α}

omit [DecidableEq α] in
theorem Supported.mono (h : Supported n P source v x) (hvw : ∀ y, P (v y) → P (w y)) : Supported n P source w x := by
  induction h with
  | source hs => exact .source hs
  | parent _ hp he ih => exact .parent ih (hvw _ hp) he

omit [DecidableEq α] in
/-- What is supported is reached from a source. -/
theorem Supported.reached (h : Supported n P source v x) : ∃ y, source y ∧ ReflTransGen n.edge y x := by
  induction h with
  | @source x hs => exact ⟨x, hs, .refl⟩
  | parent _ _ he ih =>
    obtain ⟨y, hy, hyp⟩ := ih
    exact ⟨y, hy, hyp.tail he⟩

/-- The predicate would hold at a supported node if its value were recomputed. -/
theorem Spreads.recompute_of_supported (h : Spreads n P source good) (hg : good v)
    (hx : Supported n P source v x) : P (n.recompute v x) := by
  refine (h.recompute hg).2 ?_
  cases hx with
  | source hs => exact .inl hs
  | parent _ hp he => exact .inr ⟨_, he, hp⟩

/-- What a pass keeps that starts where the predicate holds at supported nodes only. A node at which
the predicate holds does not lose it, so the only changes give it to nodes. -/
structure Spreading (n : Network α V) (P : V → Prop) (source : α → Prop)
    (good : (α → V) → Prop) (p : Pass α V) : Prop where
  good : good p.value
  supported : ∀ x, P (p.value x) → Supported n P source p.value x
  lagging : ∀ x, P (n.recompute p.value x) → ¬ P (p.value x) → x ∈ p.toCheck
  newDirty : ∀ x ∈ p.newDirty, P (n.recompute p.value x)

theorem Spreading.step (h : Spreads n P source good) (hp : Spreading n P source good p)
    (hq : n.Step p x q) : Spreading n P source good q := by
  cases hq with
  | unchanged hset =>
    refine ⟨hp.good, hp.supported, fun y hr hn => ?_, hp.newDirty⟩
    refine mem_erase.2 ⟨?_, hp.lagging y hr hn⟩
    rintro rfl
    exact hn ((h.congr hset).1 hr)
  | changed newDirty toCheck hset hd hc =>
    have hr : P (n.recompute p.value x) := by
      by_contra hr
      refine hset (h.settled hp.good hr fun hv => hr ?_)
      exact h.recompute_of_supported hp.good (hp.supported x hv)
    have hgrow : ∀ y, P (p.value y) → P (n.set p.value x y) := by
      intro y hy
      by_cases hyx : y = x
      · subst hyx
        rwa [Network.set_self]
      · rwa [Network.set_of_ne hyx]
    have hx : P (n.set p.value x x) := by rwa [Network.set_self]
    have hgood := h.keeps hp.good hset
    have hsupp : ∀ y, P (n.set p.value x y) → Supported n P source (n.set p.value x) y := by
      intro y hy
      by_cases hyx : y = x
      · subst hyx
        rcases (h.recompute hp.good).1 hr with hs | ⟨z, hzy, hz⟩
        · exact .source hs
        · exact .parent ((hp.supported z hz).mono hgrow) (hgrow z hz) hzy
      · rw [Network.set_of_ne hyx] at hy
        exact (hp.supported y hy).mono hgrow
    have hmono : ∀ y, P (n.recompute p.value y) → P (n.recompute (n.set p.value x) y) := by
      intro y hy
      refine (h.recompute hgood).2 (((h.recompute hp.good).1 hy).imp_right ?_)
      exact fun ⟨z, hzy, hz⟩ => ⟨z, hzy, hgrow z hz⟩
    refine ⟨hgood, hsupp, fun y hy hn => ?_, fun y hy => ?_⟩
    · have hyx : y ≠ x := by
        rintro rfl
        exact hn hx
      dsimp only at hn hy
      rw [Network.set_of_ne hyx] at hn
      by_cases hold : P (n.recompute p.value y)
      · exact (hc y).2 (.inl ⟨hyx, hp.lagging y hold hn⟩)
      · have hxy : n.edge x y := by
          by_contra hxy
          rw [Network.recompute_set hxy] at hy
          exact hold hy
        exact (hc y).2 (.inr ⟨hxy, hyx, fun hyd => hold (hp.newDirty y hyd)⟩)
    · rcases (hd y).1 hy with rfl | hy | hxy
      · exact h.recompute_of_supported hgood (hsupp y hx)
      · exact hmono y (hp.newDirty y hy)
      · exact (h.recompute hgood).2 (.inr ⟨x, hxy, hx⟩)

/-- The predicate holds at supported nodes, and wherever it should. -/
structure Spread (n : Network α V) (P : V → Prop) (source : α → Prop) (v : α → V) : Prop where
  supported : ∀ x, P (v x) → Supported n P source v x
  complete : ∀ x, P (n.recompute v x) → P (v x)

variable (h : Spreads n P source good)
include h

/-- One pass spreads the predicate. -/
theorem Spreads.pass (hs : n.Steps p q) (hg : good p.value) (hp : p.newDirty = ∅) (hq : q.toCheck = ∅)
    (hsupp : ∀ x, P (p.value x) → Supported n P source p.value x)
    (hlag : ∀ x, P (n.recompute p.value x) → ¬ P (p.value x) → x ∈ p.toCheck) :
    good q.value ∧ Spread n P source q.value := by
  have hi := hs.invariant (I := Spreading n P source good) ⟨hg, hsupp, hlag, by simp [hp]⟩
  have hlast := hi fun p x q hp _ hq => hp.step h hq
  refine ⟨hlast.good, hlast.supported, fun x hx => by_contra fun hn => ?_⟩
  have := hlast.lagging x hx hn
  rw [hq] at this
  exact notMem_empty x this

/-- Having spread is a matter of the nodes at which the predicate holds. -/
theorem Spreads.spread_congr (hv : good v) (hw : good w)
    (hvw : ∀ x, P (v x) ↔ P (w x)) (hs : Spread n P source v) : Spread n P source w := by
  refine ⟨fun x hx => (hs.supported x ((hvw x).2 hx)).mono fun y => (hvw y).1, fun x hx => ?_⟩
  refine (hvw x).1 (hs.complete x ((h.recompute hv).2 (((h.recompute hw).1 hx).imp_right ?_)))
  exact fun ⟨p, hpx, hp⟩ => ⟨p, hpx, (hvw p).2 hp⟩

/-- Where the predicate holds at a node exactly when it should, and ranks grow along the edges from
the nodes at which it holds, it has spread. -/
theorem Spreads.spread_of_rank (hg : good v) (hv : ∀ x, P (n.recompute v x) ↔ P (v x)) (rank : α → ℕ)
    (hr : ∀ p x, P (v p) → n.edge p x → rank p < rank x) : Spread n P source v := by
  refine ⟨fun x hx => ?_, fun x => (hv x).1⟩
  induction hk : rank x using Nat.strong_induction_on generalizing x with
  | _ k ih =>
    rcases (h.recompute hg).1 ((hv x).2 hx) with hs | ⟨p, hpx, hp⟩
    · exact .source hs
    · exact .parent (ih (rank p) (hk ▸ hr p x hp hpx) p hp rfl) hp hpx

/-- Where the predicate has spread, it holds at exactly the nodes that the sources reach. -/
theorem Spreads.spread_iff (hg : good v)
    (hv : Spread n P source v) : P (v x) ↔ ∃ y, source y ∧ ReflTransGen n.edge y x := by
  refine ⟨fun hx => (hv.supported x hx).reached, ?_⟩
  rintro ⟨y, hy, hyx⟩
  induction hyx with
  | refl => exact hv.complete y ((h.recompute hg).2 (.inl hy))
  | @tail z x _ hzx ih => exact hv.complete x ((h.recompute hg).2 (.inr ⟨z, hzx, ih⟩))

end Propagation
