import Ufora.Lib.Interval
import Ufora.SharedState.Types

/-!
# Bounds and ranges of key names

`distributed/SharedState/Types.cppml`: a `KeyBound` is a cut just before or just after a name, and a
`KeyRange` the names between two such cuts in one dimension of a keyspace. A missing bound stands for
minus infinity on the left and for plus infinity on the right, so the bounds and the two infinities
are taken together as cuts, and a range is an interval between cuts.
-/

open Ordered LinearOrder Function

namespace SharedState

variable {Json : Type} [LinearOrder Json]

namespace Keyspace

/-- The tuple that `operator<` compares. -/
def fields (k : Keyspace Json) : KeyType ×ₗ Json ×ₗ ℕ := toLex (k.type, toLex (k.name, k.dimension))

omit [LinearOrder Json] in
theorem fields_injective : Injective (fields : Keyspace Json → _) := by
  rintro ⟨t, n, d⟩ ⟨t', n', d'⟩ he
  cases he
  rfl

instance : LinearOrder (Keyspace Json) := lift' fields fields_injective

end Keyspace

variable (Json) in
/-- `KeyBound`: the cut before `value` (`leftBound`) or after it. -/
structure KeyBound where
  value : Json
  leftBound : Bool

namespace KeyBound

/-- The value, and the side of it. -/
def fields (b : KeyBound Json) : Json ×ₗ Bool := toLex (b.value, !b.leftBound)

omit [LinearOrder Json] in
theorem fields_injective : Injective (fields : KeyBound Json → _) := by
  rintro ⟨v, l⟩ ⟨v', l'⟩ he
  obtain ⟨rfl, h⟩ := Prod.mk.inj he
  cases l <;> cases l' <;> first | rfl | cases h

instance : LinearOrder (KeyBound Json) := lift' fields fields_injective

/-- `operator<(other)`. -/
theorem lt_iff {b c : KeyBound Json} :
    b < c ↔ if b.leftBound ∧ ¬ c.leftBound then b.value ≤ c.value else b.value < c.value := by
  have h : b < c ↔ b.value < c.value ∨ b.value = c.value ∧ (!b.leftBound) < (!c.leftBound) :=
    Prod.Lex.lt_iff (x := b.fields) (y := c.fields)
  rw [h]
  obtain ⟨v, l⟩ := b
  obtain ⟨w, m⟩ := c
  cases l <;> cases m <;> simp [le_iff_lt_or_eq]

/-- `operator<(keyName)`. -/
def LtName (b : KeyBound Json) (keyName : Json) : Prop :=
  if b.leftBound then b.value ≤ keyName else b.value < keyName
deriving Decidable

/-- `operator>(keyName)`. -/
def GtName (b : KeyBound Json) (keyName : Json) : Prop :=
  if b.leftBound then b.value > keyName else b.value ≥ keyName
deriving Decidable

/-- A name lies after a bound when the cut before the name does not come before the bound. -/
theorem not_gtName_iff {b : KeyBound Json} {n : Json} : ¬ b.GtName n ↔ b ≤ ⟨n, true⟩ := by
  rw [← not_lt, lt_iff]
  obtain ⟨v, l⟩ := b
  cases l <;> simp [GtName]

theorem not_ltName_iff {b : KeyBound Json} {n : Json} : ¬ b.LtName n ↔ ⟨n, true⟩ < b := by
  rw [lt_iff]
  obtain ⟨v, l⟩ := b
  cases l <;> simp [LtName]

end KeyBound

/-! ## Cuts -/

variable (Json) in
/-- A bound or one of the two infinities. -/
abbrev Cut := WithBot (WithTop (KeyBound Json))

/-- The cut that a bound stands for. -/
def cut (b : Option (KeyBound Json)) (isNegativeInfinityIfNull : Bool) : Cut Json :=
  match b with
  | some b => ((b : WithTop (KeyBound Json)) : Cut Json)
  | none => if isNegativeInfinityIfNull then ⊥ else ⊤

/-- The cut before a name. -/
def nameCut (n : Json) : Cut Json := cut (some ⟨n, true⟩) true

omit [LinearOrder Json] in
@[simp] theorem cut_none_true : cut (none : Option (KeyBound Json)) true = ⊥ := rfl

omit [LinearOrder Json] in
@[simp] theorem cut_none_false : cut (none : Option (KeyBound Json)) false = ⊤ := rfl

variable {b c : KeyBound Json} {x y : Bool}

@[simp] theorem cut_some_lt : cut (some b) x < cut (some c) y ↔ b < c := by
  simp [cut]

@[simp] theorem cut_some_le : cut (some b) x ≤ cut (some c) y ↔ b ≤ c := by
  simp [cut]

@[simp] theorem bot_lt_cut_some : ⊥ < cut (some b) x := WithBot.bot_lt_coe _

omit [LinearOrder Json] in
@[simp] theorem cut_some_ne_top : cut (some b) x ≠ ⊤ := nofun

omit [LinearOrder Json] in
@[simp] theorem cut_some_ne_bot : cut (some b) x ≠ ⊥ := nofun

@[simp] theorem cut_some_lt_top : cut (some b) x < ⊤ := WithBot.coe_lt_coe.2 (WithTop.coe_lt_top _)

omit [LinearOrder Json] in
theorem cut_injective (x : Bool) : Injective fun b : Option (KeyBound Json) => cut b x := by
  intro b c h
  cases b <;> cases c <;> cases x <;> simp_all [cut]

/-- A bound that lies after a cut, or before one, is not missing. -/
theorem cut_eq_of_lt {b : Option (KeyBound Json)} {c : Cut Json} (h : c < cut b true) : cut b false = cut b true := by
  cases b with
  | none => exact absurd h not_lt_bot
  | some => rfl

theorem cut_eq_of_gt {b : Option (KeyBound Json)} {c : Cut Json} (h : cut b false < c) : cut b true = cut b false := by
  cases b with
  | none => exact absurd h not_top_lt
  | some => rfl

/-- `boundLT(first, firstIsNegativeInfinityIfNull, second, secondIsNegativeInfinityIfNull)`. -/
def boundLT (first : Option (KeyBound Json)) (firstIsNegativeInfinityIfNull : Bool)
    (second : Option (KeyBound Json)) (secondIsNegativeInfinityIfNull : Bool) : Bool :=
  match first, second with
  | some first, some second => first < second
  | none, none => firstIsNegativeInfinityIfNull && !secondIsNegativeInfinityIfNull
  | some _, none => !secondIsNegativeInfinityIfNull
  | none, some _ => firstIsNegativeInfinityIfNull

/-- `boundLT` compares the cuts. -/
theorem boundLT_iff {b c : Option (KeyBound Json)} : boundLT b x c y = true ↔ cut b x < cut c y := by
  cases b <;> cases c <;> cases x <;> cases y <;> simp [boundLT]

/-! ## Ranges -/

variable (Json) in
/-- `KeyRange`: the names between two bounds in the dimension `index` of a keyspace. -/
structure KeyRange where
  keyspace : Keyspace Json
  index : ℕ
  left : Option (KeyBound Json)
  right : Option (KeyBound Json)

namespace KeyRange

/-- The tuple that `operator<` compares. -/
def fields (r : KeyRange Json) : Keyspace Json ×ₗ ℕ ×ₗ Cut Json ×ₗ Cut Json :=
  toLex (r.keyspace, toLex (r.index, toLex (cut r.left true, cut r.right false)))

omit [LinearOrder Json] in
theorem fields_injective : Function.Injective (fields : KeyRange Json → _) := by
  rintro ⟨k, i, l, r⟩ ⟨k', i', l', r'⟩ he
  obtain ⟨hk, he⟩ := Prod.mk.inj he
  obtain ⟨hi, he⟩ := Prod.mk.inj he
  obtain ⟨hl, hr⟩ := Prod.mk.inj he
  exact (mk.injEq ..).mpr ⟨hk, hi, cut_injective true hl, cut_injective false hr⟩

instance : LinearOrder (KeyRange Json) := lift' fields fields_injective

variable {r s range : KeyRange Json}

/-- `operator<(other)`. -/
theorem lt_iff : r < s ↔ if r.keyspace ≠ s.keyspace then r.keyspace < s.keyspace
    else if r.index ≠ s.index then r.index < s.index
    else if r.left ≠ s.left then boundLT r.left true s.left true
    else boundLT r.right false s.right false := by
  have h : r < s ↔ r.keyspace < s.keyspace ∨ r.keyspace = s.keyspace ∧ (r.index < s.index ∨ r.index = s.index ∧
        (cut r.left true < cut s.left true ∨ cut r.left true = cut s.left true ∧
          cut r.right false < cut s.right false)) := by
    refine (Prod.Lex.lt_iff (x := r.fields) (y := s.fields)).trans ?_
    refine or_congr Iff.rfl (and_congr Iff.rfl (Prod.Lex.lt_iff.trans ?_))
    exact or_congr Iff.rfl (and_congr Iff.rfl Prod.Lex.lt_iff)
  rw [h]
  by_cases hk : r.keyspace = s.keyspace
  · by_cases hi : r.index = s.index
    · by_cases hl : r.left = s.left
      · simp [hk, hi, hl, boundLT_iff]
      · have hc : cut r.left true ≠ cut s.left true := fun he => hl (cut_injective true he)
        simp [hk, hi, hl, hc, boundLT_iff]
    · simp [hk, hi]
  · simp [hk]

/-- `sameKeyspaceAndDimension(other)`. -/
def SameKeyspaceAndDimension (r s : KeyRange Json) : Prop := r.index = s.index ∧ r.keyspace = s.keyspace

/-- `leftOf(other)`: despite its name, `other` ends before this range starts. -/
def LeftOf (r s : KeyRange Json) : Prop := ∃ right ∈ s.right, ∃ left ∈ r.left, right ≤ left
deriving Decidable

/-- `overlaps(other)`. -/
def Overlaps (r s : KeyRange Json) : Prop := r.SameKeyspaceAndDimension s ∧ ¬ (r.LeftOf s ∨ s.LeftOf r)

instance (r s : KeyRange Json) : Decidable (r.SameKeyspaceAndDimension s) := inferInstanceAs (Decidable (_ ∧ _))

instance (r s : KeyRange Json) : Decidable (r.Overlaps s) := inferInstanceAs (Decidable (_ ∧ ¬ (_ ∨ _)))

/-- The range as an interval between cuts, on the line of its keyspace and dimension. -/
def interval (r : KeyRange Json) : LineInterval (Keyspace Json × ℕ) (Cut Json) :=
  ⟨(r.keyspace, r.index), cut r.left true, cut r.right false⟩

omit [LinearOrder Json] in
theorem interval_injective : Injective (interval : KeyRange Json → _) := by
  rintro ⟨k, i, l, r⟩ ⟨k', i', l', r'⟩ he
  obtain ⟨hk, hl, hr⟩ := (LineInterval.mk.injEq ..).mp he
  obtain ⟨hk, hi⟩ := Prod.mk.inj hk
  exact (mk.injEq ..).mpr ⟨hk, hi, cut_injective true hl, cut_injective false hr⟩

/-- A range that ends where another one starts, at a bound. -/
theorem interval_endAt {c : Cut Json} (h : c < range.interval.lo) :
    ({ r with right := range.left } : KeyRange Json).interval = ⟨r.interval.line, r.interval.lo, range.interval.lo⟩ :=
  (LineInterval.mk.injEq ..).mpr ⟨rfl, rfl, cut_eq_of_lt h⟩

/-- A range that starts where another one ends, at a bound. -/
theorem interval_startAt {c : Cut Json} (h : range.interval.hi < c) :
    ({ r with left := range.right } : KeyRange Json).interval = ⟨r.interval.line, range.interval.hi, r.interval.hi⟩ :=
  (LineInterval.mk.injEq ..).mpr ⟨rfl, cut_eq_of_gt h, rfl⟩

/-- The left bound lies below the right one. -/
def Nonempty (r : KeyRange Json) : Prop := boundLT r.left true r.right false = true
deriving Decidable

theorem nonempty_iff : r.Nonempty ↔ r.interval.lo < r.interval.hi := boundLT_iff

theorem leftOf_iff : r.LeftOf s ↔ s.interval.hi ≤ r.interval.lo := by
  obtain ⟨k, i, l, u⟩ := r
  obtain ⟨k', i', l', u'⟩ := s
  cases u' <;> cases l <;> simp [LeftOf, interval]

/-- `overlaps` says that the intervals do. -/
theorem overlaps_iff : r.Overlaps s ↔ r.interval.Overlaps s.interval := by
  have hl : r.SameKeyspaceAndDimension s ↔ r.interval.line = s.interval.line := by
    rw [SameKeyspaceAndDimension, interval, interval, Prod.mk.injEq, and_comm]
  rw [Overlaps, hl, leftOf_iff, leftOf_iff, not_or, not_le, not_le, LineInterval.Overlaps]

/-! ### The names in a range -/

/-- The name lies between the bounds. -/
def ContainsName (r : KeyRange Json) (name : Json) : Prop :=
  (∀ left ∈ r.left, ¬ left.GtName name) ∧ ∀ right ∈ r.right, ¬ right.LtName name
deriving Decidable

/-- A name lies in a range when the cut before it lies in the interval. -/
theorem containsName_iff {n : Json} : r.ContainsName n ↔ r.interval.lo ≤ nameCut n ∧ nameCut n < r.interval.hi := by
  obtain ⟨k, i, l, u⟩ := r
  cases l <;> cases u <;>
    simp [ContainsName, interval, nameCut, KeyBound.not_gtName_iff, KeyBound.not_ltName_iff]

/-- The names of a range, with their keyspace and dimension. -/
def names (r : KeyRange Json) : Set (Keyspace Json × ℕ × Json) :=
  {p | p.1 = r.keyspace ∧ p.2.1 = r.index ∧ r.ContainsName p.2.2}

/-- A name as a point on its line. -/
def point (p : Keyspace Json × ℕ × Json) : (Keyspace Json × ℕ) × Cut Json := ((p.1, p.2.1), nameCut p.2.2)

theorem mem_names_iff {p : Keyspace Json × ℕ × Json} : p ∈ r.names ↔ point p ∈ r.interval.toSet := by
  show (p.1 = r.keyspace ∧ p.2.1 = r.index ∧ r.ContainsName p.2.2) ↔ (p.1, p.2.1) = (r.keyspace, r.index) ∧ _
  rw [containsName_iff, Prod.mk.injEq, and_assoc]
  exact Iff.rfl

/-- The left half of `contains(key)`. Where there is no bound, the key's name is not read. -/
def rightOfLeft (r : KeyRange Json) (key : Key Json) : Option Bool :=
  match r.left with
  | none => some true
  | some left => (key.atDimension r.index).map fun name => ¬ left.GtName name

/-- The right half of `contains(key)`. -/
def leftOfRight (r : KeyRange Json) (key : Key Json) : Option Bool :=
  match r.right with
  | none => some true
  | some right => (key.atDimension r.index).map fun name => ¬ right.LtName name

/-- `contains(key)`. It throws where it reads a name that the key does not have. -/
def contains (r : KeyRange Json) (key : Key Json) : Option Bool :=
  if key.keyspace ≠ r.keyspace then some false
  else do
    if ← r.rightOfLeft key then r.leftOfRight key else return false

variable {key : Key Json}

section
variable {name : Json} (h : key.atDimension r.index = some name)
include h

theorem rightOfLeft_eq : r.rightOfLeft key = some (decide (∀ left ∈ r.left, ¬ left.GtName name)) := by
  unfold rightOfLeft
  cases hl : r.left <;> simp [h]

theorem leftOfRight_eq : r.leftOfRight key = some (decide (∀ right ∈ r.right, ¬ right.LtName name)) := by
  unfold leftOfRight
  cases hl : r.right <;> simp [h]

/-- `contains` of a key that has a name in the range's dimension. -/
theorem contains_eq : r.contains key = some (decide (key.keyspace = r.keyspace ∧ r.ContainsName name)) := by
  unfold contains
  by_cases hk : key.keyspace = r.keyspace
  · have hd : decide (key.keyspace = r.keyspace ∧ r.ContainsName name) =
        (decide (∀ left ∈ r.left, ¬ left.GtName name) &&
          decide (∀ right ∈ r.right, ¬ right.LtName name)) := by
      simp [hk, ContainsName]
    rw [if_neg (not_not.2 hk), rightOfLeft_eq h, leftOfRight_eq h, hd]
    cases decide (∀ left ∈ r.left, ¬ left.GtName name) <;> rfl
  · simp [hk]

end

/-- The keys that a range contains. -/
def keys (r : KeyRange Json) : Set (Key Json) := {key | r.contains key = some true}

/-- A range of a dimension that its keyspace has. -/
def InDimension (r : KeyRange Json) : Prop := r.index < r.keyspace.dimension
deriving Decidable

omit [LinearOrder Json] in
/-- The name of a key in the dimension of a range of its keyspace. -/
theorem exists_atDimension (hr : r.InDimension)
    (hk : key.keyspace = r.keyspace) : ∃ name, key.atDimension r.index = some name := by
  have hlt : r.index < key.id.length := by
    rw [key.size_eq, hk]
    exact hr
  exact ⟨_, List.getElem?_eq_getElem hlt⟩

/-- `contains` looks up the key's name in the range's dimension. -/
theorem contains_spec (hr : r.InDimension) (key : Key Json) : ∃ b, r.contains key = some b ∧ (b = true ↔ ∃ name,
      key.atDimension r.index = some name ∧ (key.keyspace, r.index, name) ∈ r.names) := by
  by_cases hk : key.keyspace = r.keyspace
  · obtain ⟨name, hname⟩ := exists_atDimension hr hk
    refine ⟨_, contains_eq hname, ?_⟩
    rw [decide_eq_true_iff]
    constructor
    · exact fun h => ⟨name, hname, h.1, rfl, h.2⟩
    · rintro ⟨name', hname', hmem⟩
      obtain rfl : name = name' := Option.some.inj (hname.symm.trans hname')
      exact ⟨hk, hmem.2.2⟩
  · refine ⟨false, if_pos hk, ?_⟩
    constructor
    · exact nofun
    · exact fun ⟨_, _, hmem⟩ => absurd hmem.1 hk

end KeyRange

end SharedState
