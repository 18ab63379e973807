import Ufora.Lib.Fuel
import Mathlib.Data.Set.Card

/-!
# Worklists

A search for the least set that is closed under a rule. A state has a set of marked objects and a set of
dirty ones; as long as there is a dirty object one of them is picked and checked, which marks it where the
rule says so, and then everything whose rule may look at it is dirty. `drained` says that this ends, and
that it adds to what was marked no more than it has to: the marked objects are closed under the rule, and
in every closed set of objects that has what was marked at the start.
-/

open Fuel Set

namespace Worklist

variable {σ α : Type*}

/-- Checks dirty objects until there are none. -/
def drain (pick : σ → Option α) (check : α → σ → σ) : ℕ → σ → Option σ
  | 0, _ => none
  | limit + 1, s =>
    match pick s with
    | none => some s
    | some a => drain pick check limit (check a s)

/-- What the objects of a worklist are, which of them are marked, and when one is to be marked, in the states
that are good. -/
structure Reading (σ α : Type*) where
  good : σ → Prop
  known : Finset α
  marked : σ → Set α
  dirty : σ → Set α
  rule : Set α → Set α
  dependents : α → Set α

variable {pick : σ → Option α} {check : α → σ → σ} {r : Reading σ α} {s s' : σ} {a : α}

/-- What a worklist needs to be one: a check marks the object where the rule says so, and whatever the rule
marks because of it is made dirty. -/
structure Lawful (pick : σ → Option α) (check : α → σ → σ) (r : Reading σ α) : Prop where
  dirty_of_pick : ∀ {s a}, pick s = some a → a ∈ r.dirty s
  clean_of_pick : ∀ {s}, pick s = none → ∀ a, a ∉ r.dirty s
  good_check : ∀ {s a}, r.good s → r.good (check a s)
  marked_check : ∀ {s a b}, r.good s → (b ∈ r.marked (check a s) ↔ b ∈ r.marked s ∨ b = a ∧ a ∈ r.rule (r.marked s))
  dirty_check : ∀ {s a b}, r.good s → (b ∈ r.dirty (check a s) ↔ b ∈ r.dirty s ∧ b ≠ a ∨
    b ∈ r.dependents a ∧ a ∉ r.marked s ∧ a ∈ r.rule (r.marked s))
  rule_mono : ∀ {m m'}, m ⊆ m' → r.rule m ⊆ r.rule m'
  rule_insert : ∀ {m a b}, b ∈ r.rule (insert a m) → b ∈ r.rule m ∨ b ∈ r.dependents a
  dependents_known : ∀ {a b}, b ∈ r.dependents a → b ∈ r.known

/-- A set of objects that is closed under the rule. -/
def Reading.Closed (r : Reading σ α) (m : Set α) : Prop := ∀ a ∈ r.known, a ∈ r.rule m → a ∈ m

/-- The rule asks for no object but the marked ones and the dirty ones. -/
def Reading.Pending (r : Reading σ α) (s : σ) : Prop :=
  ∀ a, a ∈ r.rule (r.marked s) → a ∈ r.known → a ∈ r.marked s ∨ a ∈ r.dirty s

/-- What a search leaves. -/
structure Drained (r : Reading σ α) (s s' : σ) : Prop where
  good : r.good s'
  subset : r.marked s ⊆ r.marked s'
  closed : r.Pending s → r.Closed (r.marked s')
  least : ∀ m, r.Closed m → r.marked s ⊆ m → r.marked s' ⊆ m

/-- The objects that are dirty are known. -/
def Reading.Within (r : Reading σ α) (s : σ) : Prop := ∀ a ∈ r.dirty s, a ∈ r.known

theorem Lawful.within_check (h : Lawful pick check r) (hgood : r.good s) (hs : r.Within s) : r.Within (check a s) := by
  intro b hb
  rcases (h.dirty_check hgood).1 hb with ⟨hb, -⟩ | ⟨hb, -⟩
  · exact hs b hb
  · exact h.dependents_known hb

theorem Lawful.subset_check (h : Lawful pick check r) (hgood : r.good s) :
    r.marked s ⊆ r.marked (check a s) := fun _ hb => (h.marked_check hgood).2 (.inl hb)

theorem Lawful.pending_check (h : Lawful pick check r) (hgood : r.good s) (hs : r.Pending s) :
    r.Pending (check a s) := by
  intro b hb hknown
  by_cases hadds : a ∉ r.marked s ∧ a ∈ r.rule (r.marked s)
  · have hmarked : r.marked (check a s) = insert a (r.marked s) := by
      ext c
      rw [h.marked_check hgood, mem_insert_iff, or_comm, and_iff_left hadds.2]
    rw [hmarked] at hb ⊢
    rcases h.rule_insert hb with hold | hdep
    · rcases hs b hold hknown with hmem | hdirty
      · exact .inl (.inr hmem)
      · by_cases he : b = a
        · exact .inl (.inl he)
        · exact .inr ((h.dirty_check hgood).2 (.inl ⟨hdirty, he⟩))
    · exact .inr ((h.dirty_check hgood).2 (.inr ⟨hdep, hadds⟩))
  · have hmarked : r.marked (check a s) = r.marked s := by
      ext c
      rw [h.marked_check hgood]
      refine or_iff_left_of_imp ?_
      rintro ⟨rfl, hrule⟩
      exact not_not.1 fun hnot => hadds ⟨hnot, hrule⟩
    rw [hmarked] at hb ⊢
    rcases hs b hb hknown with hmem | hdirty
    · exact .inl hmem
    · by_cases he : b = a
      · subst he
        exact .inl (not_not.1 fun hnot => hadds ⟨hnot, hb⟩)
      · exact .inr ((h.dirty_check hgood).2 (.inl ⟨hdirty, he⟩))

/-- How many objects there are that are known and have a property. -/
noncomputable def Reading.count (r : Reading σ α) (m : Set α) : ℕ := (r.known ∩ m : Set α).ncard

theorem Reading.finite (r : Reading σ α) (m : Set α) : (r.known ∩ m : Set α).Finite :=
  r.known.finite_toSet.inter_of_left m

theorem Reading.count_le (r : Reading σ α) (m : Set α) : r.count m ≤ r.known.card := by
  have h := ncard_le_ncard (inter_subset_left : (r.known ∩ m : Set α) ⊆ r.known) r.known.finite_toSet
  rwa [ncard_coe_finset] at h

theorem Reading.count_mono {m m' : Set α} (h : m ⊆ m') : r.count m ≤ r.count m' :=
  ncard_le_ncard (inter_subset_inter_right _ h) (r.finite m')

theorem Reading.count_lt {m m' : Set α} (h : m ⊆ m') (ha : a ∈ r.known) (hnot : a ∉ m) (hmem : a ∈ m') :
    r.count m < r.count m' := by
  refine ncard_lt_ncard ⟨inter_subset_inter_right _ h, fun hsub => ?_⟩ (r.finite m')
  exact hnot (hsub ⟨ha, hmem⟩).2

/-- How much there is left to do: a check of a dirty object marks an object or leaves one dirty object
less. -/
noncomputable def Reading.work (r : Reading σ α) (s : σ) : ℕ :=
  (r.known.card - r.count (r.marked s)) * (r.known.card + 1) + r.count (r.dirty s)

theorem Lawful.work_check (h : Lawful pick check r) (hgood : r.good s) (hs : r.Within s) (ha : a ∈ r.dirty s) :
    r.work (check a s) < r.work s := by
  have hknown := hs a ha
  unfold Reading.work
  by_cases hadds : a ∉ r.marked s ∧ a ∈ r.rule (r.marked s)
  · have hlt : r.count (r.marked s) < r.count (r.marked (check a s)) :=
      Reading.count_lt (h.subset_check hgood) hknown hadds.1 ((h.marked_check hgood).2 (.inr ⟨rfl, hadds.2⟩))
    have hle := r.count_le (r.marked (check a s))
    have hdirty := r.count_le (r.dirty (check a s))
    obtain ⟨d, hd⟩ : ∃ d, r.known.card - r.count (r.marked s) =
        r.known.card - r.count (r.marked (check a s)) + (d + 1) :=
      ⟨r.count (r.marked (check a s)) - r.count (r.marked s) - 1, by omega⟩
    calc (r.known.card - r.count (r.marked (check a s))) * (r.known.card + 1) + r.count (r.dirty (check a s))
      _ < (r.known.card - r.count (r.marked (check a s))) * (r.known.card + 1) + (r.known.card + 1) := by omega
      _ ≤ (r.known.card - r.count (r.marked s)) * (r.known.card + 1) := by
        rw [hd, Nat.add_mul, Nat.add_mul d]
        omega
      _ ≤ _ := Nat.le_add_right _ _
  · have hmarked : r.count (r.marked s) ≤ r.count (r.marked (check a s)) := Reading.count_mono (h.subset_check hgood)
    have hdirty : r.count (r.dirty (check a s)) < r.count (r.dirty s) := by
      refine Reading.count_lt (fun b hb => ?_) hknown (fun hmem => ?_) ha
      · exact ((h.dirty_check hgood).1 hb).elim And.left fun hb => absurd hb.2 hadds
      · exact ((h.dirty_check hgood).1 hmem).elim (fun hb => hb.2 rfl) fun hb => hadds hb.2
    have hmul := Nat.mul_le_mul_right (r.known.card + 1) (Nat.sub_le_sub_left hmarked r.known.card)
    omega

theorem Drained.refl (hgood : r.good s) (hclean : ∀ a, a ∉ r.dirty s) : Drained r s s where
  good := hgood
  subset := subset_rfl
  closed hpending a ha hrule := (hpending a hrule ha).resolve_right (hclean a)
  least _ _ := id

theorem Lawful.drained_check (h : Lawful pick check r) (hgood : r.good s) (hs : r.Within s)
    (ha : a ∈ r.dirty s) (hd : Drained r (check a s) s') : Drained r s s' where
  good := hd.good
  subset := (h.subset_check hgood).trans hd.subset
  closed hpending := hd.closed (h.pending_check hgood hpending)
  least m hclosed hsub := by
    refine hd.least m hclosed fun b hb => ?_
    rcases (h.marked_check hgood).1 hb with hb | ⟨rfl, hrule⟩
    · exact hsub hb
    · exact hclosed b (hs b ha) (h.rule_mono hsub hrule)

/-- The search ends, and leaves the least closed set. -/
theorem Lawful.drained (h : Lawful pick check r) (hgood : r.good s) (hs : r.Within s) :
    ∃ s', Yields (fun limit => drain pick check limit s) s' ∧ Drained r s s' := by
  induction hn : r.work s using Nat.strong_induction_on generalizing s with
  | _ n ih =>
    subst hn
    cases hp : pick s with
    | none =>
      refine ⟨s, Yields.of_succ (yields_some.congr fun limit => ?_), Drained.refl hgood (h.clean_of_pick hp)⟩
      unfold drain
      rw [hp]
    | some a =>
      have ha := h.dirty_of_pick hp
      obtain ⟨s', hs', hd⟩ := ih _ (h.work_check hgood hs ha) (h.good_check hgood) (h.within_check hgood hs) rfl
      refine ⟨s', Yields.of_succ (hs'.congr fun limit => ?_), h.drained_check hgood hs ha hd⟩
      conv_lhs => unfold drain
      rw [hp]

end Worklist
