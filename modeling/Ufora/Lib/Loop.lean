import Ufora.Lib.Fuel
import Mathlib.Order.WellFounded

/-!
# While loops

A loop that is not known to end takes a limit on its rounds. `Ends` says that some number of rounds is enough. A loop
ends where a measure gets smaller with every round. `ends_iff_bounded` is for a measure that gets smaller except in
rounds that are counted: such a loop ends exactly when it makes finitely many of these.
-/

namespace Loop

variable {σ : Type*} (test : σ → Prop) [DecidablePred test] (round : σ → σ)

/-- `while (test) round`, where it stops after so many rounds at the latest. -/
def rounds : ℕ → σ → σ
  | 0, s => s
  | n + 1, s => if test s then rounds n (round s) else s

/-- The state in which the loop ends, where it does within the limit. -/
def whileLoop (limit : ℕ) (s : σ) : Option σ :=
  if test (rounds test round limit s) then none else some (rounds test round limit s)

/-- After finitely many rounds the loop does not go on. -/
def Ends (s : σ) : Prop := ∃ n, ¬ test (rounds test round n s)

variable {test round} {s t : σ} {n m : ℕ}

theorem rounds_succ_of_test (h : test s) : rounds test round (n + 1) s = rounds test round n (round s) := by
  rw [rounds, if_pos h]

theorem rounds_of_not_test (h : ¬ test s) : rounds test round n s = s := by
  cases n with
  | zero => rfl
  | succ n => rw [rounds, if_neg h]

/-- More rounds are rounds from where the first ones led. -/
theorem rounds_add : rounds test round (n + m) s = rounds test round m (rounds test round n s) := by
  induction n generalizing s with
  | zero => rw [Nat.zero_add, rounds]
  | succ n ih =>
    rw [Nat.add_right_comm]
    by_cases h : test s
    · rw [rounds_succ_of_test h, rounds_succ_of_test h, ih]
    · rw [rounds_of_not_test h, rounds_of_not_test h, rounds_of_not_test h]

/-- What a round keeps holds after any number of them. -/
theorem rounds_invariant {I : σ → Prop} (hi : ∀ s, I s → test s → I (round s)) (h : I s) (n : ℕ) :
    I (rounds test round n s) := by
  induction n generalizing s with
  | zero => exact h
  | succ n ih =>
    by_cases ht : test s
    · rw [rounds_succ_of_test ht]
      exact ih (hi s h ht)
    · rw [rounds_of_not_test ht]
      exact h

theorem ends_of_not_test (h : ¬ test s) : Ends test round s := ⟨0, h⟩

theorem ends_round (ht : test s) : Ends test round (round s) ↔ Ends test round s := by
  constructor
  · rintro ⟨n, hn⟩
    exact ⟨n + 1, by rwa [rounds_succ_of_test ht]⟩
  · rintro ⟨n, hn⟩
    cases n with
    | zero => exact absurd ht hn
    | succ n => exact ⟨n, by rwa [rounds_succ_of_test ht] at hn⟩

/-- Where the loop has ended within a limit, it ends alike under every greater one. -/
theorem yields_of_not_test (h : ¬ test (rounds test round n s)) :
    Fuel.Yields (fun limit => whileLoop test round limit s) (rounds test round n s) := by
  refine ⟨n, fun limit hl => ?_⟩
  obtain ⟨k, rfl⟩ := Nat.exists_eq_add_of_le hl
  show whileLoop test round (n + k) s = _
  rw [whileLoop, rounds_add, rounds_of_not_test h, if_neg h]

theorem yields_of_eq_some (h : whileLoop test round n s = some t) :
    Fuel.Yields (fun limit => whileLoop test round limit s) t := by
  rw [whileLoop] at h
  split at h
  · cases h
  · next hnot =>
    obtain rfl := Option.some.inj h
    exact yields_of_not_test hnot

/-- A loop ends when there is a state in which it ends. -/
theorem exists_yields_iff : (∃ t, Fuel.Yields (fun limit => whileLoop test round limit s) t) ↔ Ends test round s := by
  constructor
  · rintro ⟨t, n, hn⟩
    have h : whileLoop test round n s = some t := hn n le_rfl
    refine ⟨n, fun ht => ?_⟩
    rw [whileLoop, if_pos ht] at h
    cases h
  · rintro ⟨n, hn⟩
    exact ⟨_, yields_of_not_test hn⟩

variable {I : σ → Prop} (hi : ∀ s, I s → test s → I (round s))
include hi

/-- What a round keeps holds where the loop ends, and the test fails there. -/
theorem of_yields (h : I s) (ht : Fuel.Yields (fun limit => whileLoop test round limit s) t) : I t ∧ ¬ test t := by
  obtain ⟨n, hn⟩ := ht
  have he : whileLoop test round n s = some t := hn n le_rfl
  rw [whileLoop] at he
  split at he
  · cases he
  · next hnot =>
    obtain rfl := Option.some.inj he
    exact ⟨rounds_invariant hi h n, hnot⟩

variable {α : Type*} [Preorder α] [WellFoundedLT α] {count : σ → ℕ} {μ : σ → α}
  (hcount : ∀ s, I s → test s → count s ≤ count (round s))
  (hμ : ∀ s, I s → test s → count (round s) = count s → μ (round s) < μ s)
include hcount hμ

/-- A loop ends if what it counts stays within a bound and a measure gets smaller with every round that does not
count. -/
theorem ends_of_bounded (h : I s) {N : ℕ} (hN : ∀ n, count (rounds test round n s) ≤ N) : Ends test round s := by
  induction hk : N - count s using Nat.strong_induction_on generalizing s with
  | _ k ihk =>
    induction hm : μ s using WellFoundedLT.induction generalizing s with
    | _ a iha =>
      by_cases ht : test s
      · have hN' : ∀ n, count (rounds test round n (round s)) ≤ N := by
          intro n
          rw [← rounds_succ_of_test ht]
          exact hN (n + 1)
        refine (ends_round ht).1 ?_
        rcases (hcount s h ht).eq_or_lt with he | hlt
        · exact iha _ (hm ▸ hμ s h ht he.symm) (hi s h ht) hN' (he ▸ hk) rfl
        · have hle := hN' 0
          rw [rounds] at hle
          exact ihk _ (by omega) (hi s h ht) hN' rfl
      · exact ends_of_not_test ht

/-- Where every round that does not count makes a measure smaller, a loop ends exactly when what it counts stays within
a bound. -/
theorem ends_iff_bounded (h : I s) : Ends test round s ↔ ∃ N, ∀ n, count (rounds test round n s) ≤ N := by
  refine ⟨fun ⟨n, hn⟩ => ⟨count (rounds test round n s), fun m => ?_⟩, fun ⟨N, hN⟩ => ends_of_bounded hi hcount hμ h hN⟩
  have hmono : ∀ k t, I t → count t ≤ count (rounds test round k t) := by
    intro k
    induction k with
    | zero => exact fun t _ => le_rfl
    | succ k ih =>
      intro t hI
      by_cases ht : test t
      · rw [rounds_succ_of_test ht]
        exact (hcount t hI ht).trans (ih _ (hi t hI ht))
      · rw [rounds_of_not_test ht]
  rcases le_total m n with hle | hle
  · obtain ⟨k, rfl⟩ := Nat.exists_eq_add_of_le hle
    rw [rounds_add]
    exact hmono k _ (rounds_invariant hi h m)
  · obtain ⟨k, rfl⟩ := Nat.exists_eq_add_of_le hle
    rw [rounds_add, rounds_of_not_test hn]

end Loop
