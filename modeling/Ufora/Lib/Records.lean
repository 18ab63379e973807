import Mathlib.Data.UInt

/-!
# Files of records

A file holds records one after another, each as the list that `encode` makes of it. A file that is cut
at some position holds the records that lie entirely before it, and then, unless the position is the end
of a record, a part of the next one. Numbers of a fixed width are written with the low byte first.
-/

open List

namespace Records

section
variable {α β : Type*} (encode : α → List β)

/-- The records that lie entirely before a position. -/
def before : ℕ → List α → List α
  | _, [] => []
  | p, a :: l => if (encode a).length ≤ p then a :: before (p - (encode a).length) l else []

/-- The position is the start or the end of a record, or lies behind all of them. -/
def AtBoundary : ℕ → List α → Prop
  | _, [] => True
  | p, a :: l => p = 0 ∨ (encode a).length ≤ p ∧ AtBoundary (p - (encode a).length) l

instance decidableAtBoundary : ∀ p l, Decidable (AtBoundary encode p l)
  | _, [] => isTrue trivial
  | p, a :: l =>
    have := decidableAtBoundary (p - (encode a).length) l
    inferInstanceAs (Decidable (p = 0 ∨ (encode a).length ≤ p ∧ _))

/-- What is left of one of the records when a cut goes through it. -/
def Torn (l : List α) (torn : List β) : Prop := torn ≠ [] ∧ ∃ a ∈ l, torn <+: encode a ∧ torn ≠ encode a

variable {encode} {p : ℕ} {l : List α}

theorem Torn.length_lt {torn : List β} (h : Torn encode l torn) :
    0 < torn.length ∧ ∃ a ∈ l, torn <+: encode a ∧ torn.length < (encode a).length := by
  obtain ⟨hne, a, ha, hpre, hlt⟩ := h
  refine ⟨length_pos_iff.2 hne, a, ha, hpre, lt_of_le_of_ne hpre.length_le fun he => hlt ?_⟩
  exact hpre.eq_of_length he

theorem before_initial : before encode p l <+: l := by
  induction l generalizing p with
  | nil => exact nil_prefix
  | cons a l ih =>
    unfold before
    split
    · exact cons_prefix_cons.2 ⟨rfl, ih⟩
    · exact nil_prefix

/-- A file that is cut at a position: the records before it, and a torn one unless the position is the
end of a record. -/
theorem take_flatMap (hne : ∀ a, encode a ≠ []) (p : ℕ) (l : List α) :
    ∃ torn, (l.flatMap encode).take p = (before encode p l).flatMap encode ++ torn ∧
      (AtBoundary encode p l → torn = []) ∧ (¬ AtBoundary encode p l → Torn encode l torn) := by
  induction l generalizing p with
  | nil =>
    refine ⟨[], ?_, fun _ => rfl, fun h => absurd trivial h⟩
    rw [flatMap_nil, take_nil]
    rfl
  | cons a l ih =>
    rw [flatMap_cons, take_append]
    unfold before AtBoundary
    by_cases hp : (encode a).length ≤ p
    · obtain ⟨torn, he, hb, ht⟩ := ih (p - (encode a).length)
      refine ⟨torn, ?_, ?_, fun h => ?_⟩
      · rw [if_pos hp, flatMap_cons, take_of_length_le hp, he, append_assoc]
      · rintro (rfl | ⟨-, h⟩)
        · exact absurd (length_eq_zero_iff.1 (Nat.le_zero.1 hp)) (hne a)
        · exact hb h
      · obtain ⟨hnil, b, hmem, hpre⟩ := ht fun hb => h (.inr ⟨hp, hb⟩)
        exact ⟨hnil, b, .tail _ hmem, hpre⟩
    · refine ⟨(encode a).take p, ?_, ?_, fun h => ⟨?_, a, .head _, take_prefix _ _, ?_⟩⟩
      · rw [if_neg hp, Nat.sub_eq_zero_of_le (Nat.le_of_not_le hp), take_zero, append_nil]
        rfl
      · rintro (rfl | ⟨h, -⟩)
        · exact take_zero
        · exact absurd h hp
      · rw [Ne, take_eq_nil_iff]
        rintro (h' | h')
        · exact h (.inl h')
        · exact hne a h'
      · intro h'
        have hlen := congrArg List.length h'
        rw [length_take] at hlen
        omega

end

/-! ## Numbers -/

/-- A number in so many bytes, the low byte first. -/
def littleEndian : ℕ → ℕ → List UInt8
  | 0, _ => []
  | n + 1, v => UInt8.ofNat v :: littleEndian n (v / 256)

/-- The number that bytes stand for. -/
def ofLittleEndian : List UInt8 → ℕ
  | [] => 0
  | b :: l => b.toNat + 256 * ofLittleEndian l

@[simp] theorem length_littleEndian (n v : ℕ) : (littleEndian n v).length = n := by
  induction n generalizing v with
  | zero => rfl
  | succ n ih => rw [littleEndian, length_cons, ih]

/-- Reading a number back. -/
theorem ofLittleEndian_littleEndian {n v : ℕ} (h : v < 256 ^ n) : ofLittleEndian (littleEndian n v) = v := by
  induction n generalizing v with
  | zero =>
    rw [pow_zero, Nat.lt_one_iff] at h
    rw [h]
    rfl
  | succ n ih =>
    have hdiv : v / 256 < 256 ^ n := by
      rw [pow_succ] at h
      exact Nat.div_lt_of_lt_mul (by omega)
    rw [littleEndian, ofLittleEndian, ih hdiv]
    have hbyte : (UInt8.ofNat v).toNat = v % 256 := by simp
    omega

end Records
