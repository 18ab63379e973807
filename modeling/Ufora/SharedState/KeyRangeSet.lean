import Ufora.Lib.Run
import Ufora.SharedState.KeyRange
import Mathlib.Data.List.ModifyLast

/-!
# `KeyRangeSet`

`distributed/SharedState/KeyRangeSet.cppml`: a set of ranges, in the order of their keyspaces,
dimensions and bounds. `Tidy` sets have ranges that neither overlap nor touch. `insert` and `erase`
keep them so, and `Tidy.names_insert` and the theorems after it say which names the operations add,
take away and find.
-/

open Ordered Finset LineInterval Option LineInterval.Tidy SharedState.KeyRange

namespace SharedState

variable {Json : Type} [LinearOrder Json]

/-- A `KeyRangeSet`. -/
structure KeyRangeSet (Json : Type) [LinearOrder Json] where
  mRanges : Finset (KeyRange Json) := ∅

namespace KeyRangeSet

instance : DecidableEq (KeyRangeSet Json) := fun s t =>
  decidable_of_iff (s.mRanges = t.mRanges) (iff_of_eq (mk.injEq ..)).symm

/-! ## The operations -/

/-- `overlaps(in)`: the ranges from the first one that overlaps the range to the last one. -/
def overlaps (s : KeyRangeSet Json) (range : KeyRange Json) : List (KeyRange Json) :=
  between (fun it => it.Overlaps range) (ascending s.mRanges)

/-- One turn of the loop of `findAdjacent`. -/
def adjacent (range : KeyRange Json) (adj : Option (KeyRange Json) × Option (KeyRange Json))
    (it : KeyRange Json) : Option (Option (KeyRange Json) × Option (KeyRange Json)) :=
  if it.index = range.index ∧ it.keyspace = range.keyspace then
    if it.Overlaps range then none
    else
      some
        (if it.right.isSome ∧ range.left.isSome ∧ range.left = it.right then some it else adj.1,
          if it.left.isSome ∧ range.right.isSome ∧ range.right = it.left then some it else adj.2)
  else some adj

/-- `findAdjacent(range)`: throws if a range overlaps. -/
def findAdjacent (s : KeyRangeSet Json) (range : KeyRange Json) :
    Option (Option (KeyRange Json) × Option (KeyRange Json)) :=
  (ascending s.mRanges).foldlM (adjacent range) (none, none)

/-- `insert(range)`. -/
def insert (s : KeyRangeSet Json) (range : KeyRange Json) : Option (KeyRangeSet Json) := do
  let adj ← s.findAdjacent range
  let (left, mRanges) := match adj.1 with
    | some first => (first.left, s.mRanges.erase first)
    | none => (range.left, s.mRanges)
  let (right, mRanges) := match adj.2 with
    | some second => (second.right, mRanges.erase second)
    | none => (range.right, mRanges)
  return ⟨Insert.insert ⟨range.keyspace, range.index, left, right⟩ mRanges⟩

/-- `erase(in)`. -/
def erase (s : KeyRangeSet Json) (range : KeyRange Json) : KeyRangeSet Json :=
  match s.overlaps range with
  | [] => s
  | first :: rest =>
    let last := (first :: rest).getLast (List.cons_ne_nil _ _)
    let toAddBack := (if boundLT first.left true range.left true then [{ first with right := range.left }]
        else []) ++
      (if boundLT range.right false last.right false then [{ last with left := range.right }]
        else [])
    ⟨(s.mRanges \ (first :: rest).toFinset) ∪ toAddBack.toFinset⟩

/-- One turn of the loop of `difference`: the left end of what is still to come, and the gaps. -/
def gap (range : KeyRange Json) (p : Option (KeyBound Json) × Finset (KeyRange Json))
    (it : KeyRange Json) : Option (KeyBound Json) × Finset (KeyRange Json) :=
  (it.right, if it.left.isSome ∧ boundLT p.1 true it.left true then
      Insert.insert ⟨range.keyspace, range.index, p.1, it.left⟩ p.2
    else p.2)

/-- `difference(range)`. -/
def difference (s : KeyRangeSet Json) (range : KeyRange Json) : Finset (KeyRange Json) :=
  match s.overlaps range with
  | [] => {range}
  | first :: rest =>
    let last := (first :: rest).getLast (List.cons_ne_nil _ _)
    let tr := ((first :: rest).foldl (gap range) (range.left, ∅)).2
    if last.right.isSome ∧ boundLT last.right false range.right false then
      Insert.insert ⟨range.keyspace, range.index, last.right, range.right⟩ tr
    else tr

/-- `tr.front().left() = in.left()`, where that is later. -/
def trimLeft (range : KeyRange Json) (it : KeyRange Json) : KeyRange Json :=
  if boundLT it.left true range.left true then { it with left := range.left } else it

/-- `tr.back().right() = in.right()`, where that is earlier. -/
def trimRight (range : KeyRange Json) (it : KeyRange Json) : KeyRange Json :=
  if boundLT range.right false it.right false then { it with right := range.right } else it

/-- `intersection(in)`. -/
def intersection (s : KeyRangeSet Json) (range : KeyRange Json) : Finset (KeyRange Json) :=
  (((s.overlaps range).modifyHead (trimLeft range)).modifyLast (trimRight range)).toFinset

/-- `containsKey(inKey)`: looks for a range that contains the key. -/
def containsKey (s : KeyRangeSet Json) (inKey : Key Json) : Option Bool :=
  (ascending s.mRanges).anyM fun it => it.contains inKey

/-- `containsKeyspace(inKeyspace)`. -/
def containsKeyspace (s : KeyRangeSet Json) (inKeyspace : Keyspace Json) : Bool :=
  (ascending s.mRanges).any fun it => it.keyspace = inKeyspace

/-- `intersects(inRange)`. -/
def intersects (s : KeyRangeSet Json) (inRange : KeyRange Json) : Bool := (s.intersection inRange).card > 0

variable (Json) in
/-- The calls that change a set. -/
inductive Op where
  | insert (range : KeyRange Json)
  | erase (range : KeyRange Json)

/-- The range of a call. -/
def Op.range : Op Json → KeyRange Json
  | .insert range => range
  | .erase range => range

/-- One call. An `insert` of a range that overlaps the set throws. -/
def step (s : KeyRangeSet Json) : Op Json → Option (KeyRangeSet Json)
  | .insert range => s.insert range
  | .erase range => some (s.erase range)

/-! ## The names and the intervals of a set -/

/-- What the ranges denote together, where `den` says what one of them denotes. -/
def union {α : Type} (den : KeyRange Json → Set α) (ranges : Finset (KeyRange Json)) : Set α :=
  {p | ∃ r ∈ ranges, p ∈ den r}

/-- The names in some of the ranges. -/
def names (ranges : Finset (KeyRange Json)) : Set (Keyspace Json × ℕ × Json) := union KeyRange.names ranges

/-- The ranges as intervals. -/
def intervals (ranges : Finset (KeyRange Json)) : Set (LineInterval (Keyspace Json × ℕ) (Cut Json)) :=
  {i | ∃ r ∈ ranges, r.interval = i}

/-- The ranges neither overlap nor touch. -/
def Tidy (s : KeyRangeSet Json) : Prop := LineInterval.Tidy (intervals s.mRanges)

theorem mem_names_iff {ranges : Finset (KeyRange Json)} {p : Keyspace Json × ℕ × Json} :
    p ∈ names ranges ↔ point p ∈ cover (intervals ranges) := by
  constructor
  · rintro ⟨r, hr, hp⟩
    exact ⟨_, ⟨r, hr, rfl⟩, KeyRange.mem_names_iff.1 hp⟩
  · rintro ⟨_, ⟨r, hr, rfl⟩, hp⟩
    exact ⟨r, hr, KeyRange.mem_names_iff.2 hp⟩

/-! ## The order of the ranges -/

variable {a b : KeyRange Json}

theorem le_iff : a ≤ b ↔ a.keyspace < b.keyspace ∨ a.keyspace = b.keyspace ∧
    (a.index < b.index ∨ a.index = b.index ∧ (a.interval.lo < b.interval.lo ∨
      a.interval.lo = b.interval.lo ∧ a.interval.hi ≤ b.interval.hi)) := by
  refine (Prod.Lex.le_iff (x := a.fields) (y := b.fields)).trans ?_
  refine or_congr Iff.rfl (and_congr Iff.rfl (Prod.Lex.le_iff.trans ?_))
  exact or_congr Iff.rfl (and_congr Iff.rfl Prod.Lex.le_iff)

theorem keyspace_le (h : a ≤ b) : a.keyspace ≤ b.keyspace := by
  rcases le_iff.1 h with h | ⟨h, -⟩
  · exact h.le
  · exact h.le

theorem index_le (h : a ≤ b) (hk : a.keyspace = b.keyspace) : a.index ≤ b.index := by
  rcases le_iff.1 h with h | ⟨-, h | ⟨h, -⟩⟩
  · exact absurd hk h.ne
  · exact h.le
  · exact h.le

/-- The points of the ranges. -/
def points (ranges : Finset (KeyRange Json)) : Set ((Keyspace Json × ℕ) × Cut Json) := cover (intervals ranges)

theorem points_insert (r : KeyRange Json) (ranges : Finset (KeyRange Json)) :
    points (Insert.insert r ranges) = r.interval.toSet ∪ points ranges := by
  ext p
  constructor
  · rintro ⟨_, ⟨t, ht, rfl⟩, hp⟩
    rcases mem_insert.1 ht with rfl | ht
    · exact .inl hp
    · exact .inr ⟨_, ⟨t, ht, rfl⟩, hp⟩
  · rintro (hp | ⟨_, ⟨t, ht, rfl⟩, hp⟩)
    · exact ⟨_, ⟨r, mem_insert_self _ _, rfl⟩, hp⟩
    · exact ⟨_, ⟨t, mem_insert_of_mem ht, rfl⟩, hp⟩

/-- The order of the ranges keeps those on one line together. -/
theorem line_eq_of_between {c : KeyRange Json} (hab : a ≤ b) (hbc : b ≤ c)
    (h : a.interval.line = c.interval.line) : b.interval.line = a.interval.line := by
  obtain ⟨hk, hi⟩ := Prod.mk.inj h
  have hkb : b.keyspace = a.keyspace := le_antisymm (hk ▸ keyspace_le hbc) (keyspace_le hab)
  have hib : b.index = a.index := le_antisymm (hi ▸ index_le hbc (hkb.trans hk)) (index_le hab hkb.symm)
  exact Prod.ext hkb hib

/-- The order of the ranges on a line is that of their left ends. -/
theorem lo_le_of_le (hab : a ≤ b) (h : a.interval.line = b.interval.line) : a.interval.lo ≤ b.interval.lo := by
  obtain ⟨hk, hi⟩ := Prod.mk.inj h
  rcases le_iff.1 hab with h | ⟨-, h | ⟨-, h | ⟨h, -⟩⟩⟩
  · exact absurd hk h.ne
  · exact absurd hi h.ne
  · exact h.le
  · exact h.le

/-! ## The ranges that overlap a range -/

variable {s s' : KeyRangeSet Json} {range r t : KeyRange Json}

theorem mem_intervals (h : r ∈ s.mRanges) : r.interval ∈ intervals s.mRanges := ⟨r, h, rfl⟩

section

variable (h : Tidy s)
include h

/-- In a tidy set, of two ranges on one line the first ends before the second starts. -/
theorem Tidy.hi_lt_lo (hr : r ∈ s.mRanges) (ht : t ∈ s.mRanges) (hlt : r < t)
    (hl : r.interval.line = t.interval.line) : r.interval.hi < t.interval.lo := by
  refine h.lt_of_lo_lt (mem_intervals hr) (mem_intervals ht) hl ?_
  refine lt_of_le_of_ne (lo_le_of_le hlt.le hl) fun he => hlt.ne ?_
  exact interval_injective (h.eq_of_lo_eq (mem_intervals hr) (mem_intervals ht) hl he)

/-- The ranges that overlap a range are neighbours. -/
theorem Tidy.overlaps_eq (range : KeyRange Json) :
    s.overlaps range = (ascending s.mRanges).filter fun it => it.Overlaps range := by
  refine between_eq_filter (pairwise_ascending _) fun a ha b hb c hc hab hbc hpa hpc => ?_
  rw [mem_ascending] at ha hb hc
  rw [decide_eq_true_iff, overlaps_iff] at hpa hpc ⊢
  have hline := line_eq_of_between hab hbc (hpa.1.trans hpc.1.symm)
  rcases eq_or_lt_of_le hab with rfl | hab
  · exact hpa
  have hhi := h.hi_lt_lo ha hb hab hline.symm
  refine ⟨hline.trans hpa.1, ?_, ?_⟩
  · exact (lo_le_of_le hbc (hline.trans (hpa.1.trans hpc.1.symm))).trans_lt hpc.2.1
  · exact hpa.2.2.trans (hhi.trans (h.nonempty _ (mem_intervals hb)))

/-- `overlaps` lists the ranges that overlap. -/
theorem Tidy.mem_overlaps : r ∈ s.overlaps range ↔ r ∈ s.mRanges ∧ r.interval.Overlaps range.interval := by
  rw [h.overlaps_eq, List.mem_filter, mem_ascending, decide_eq_true_iff, overlaps_iff]

/-- It lists them from left to right. -/
theorem Tidy.pairwise_overlaps : (s.overlaps range).Pairwise fun a b => a.interval.hi < b.interval.lo := by
  have hlt : (s.overlaps range).Pairwise (· < ·) := by
    rw [h.overlaps_eq]
    exact ((pairwise_ascending _).imp₂ (fun _ _ => lt_of_le_of_ne) (ascending_nodup s.mRanges)).filter _
  refine hlt.imp_of_mem fun {a b} ha hb hab => ?_
  rw [h.mem_overlaps] at ha hb
  exact h.hi_lt_lo ha.1 hb.1 hab (ha.2.1.trans hb.2.1.symm)

/-- Only the first of them begins before the range. -/
theorem Tidy.lo_le_of_mem_rest {first : KeyRange Json} {rest : List (KeyRange Json)}
    (ho : s.overlaps range = first :: rest) (hr : r ∈ rest) : range.interval.lo ≤ r.interval.lo := by
  have hp := @pairwise_overlaps _ _ _ range h
  have hf := h.mem_overlaps.1 (ho ▸ List.mem_cons_self : first ∈ s.overlaps range)
  rw [ho, List.pairwise_cons] at hp
  exact hf.2.2.2.le.trans (hp.1 r hr).le

/-- Only the last of them ends after the range. -/
theorem Tidy.hi_le_of_mem_dropLast {front : List (KeyRange Json)}
    {last : KeyRange Json} (ho : s.overlaps range = front ++ [last]) (hr : r ∈ front) :
    r.interval.hi ≤ range.interval.hi := by
  have hp := @pairwise_overlaps _ _ _ range h
  have hl := h.mem_overlaps.1 (ho ▸ List.mem_append_right _ (List.mem_singleton_self _) : last ∈ s.overlaps range)
  rw [ho, List.pairwise_append] at hp
  exact ((hp.2.2 r hr last (List.mem_singleton_self _)).trans hl.2.2.1).le

/-- Only the ranges that overlap a range have points in it. -/
theorem Tidy.mem_cover_overlaps {p : (Keyspace Json × ℕ) × Cut Json} (hp : p ∈ range.interval.toSet) :
    p ∈ cover {i | ∃ r ∈ s.overlaps range, r.interval = i} ↔ p ∈ points s.mRanges := by
  constructor
  · rintro ⟨_, ⟨r, hr, rfl⟩, hpr⟩
    exact ⟨_, mem_intervals (h.mem_overlaps.1 hr).1, hpr⟩
  · rintro ⟨_, ⟨r, hr, rfl⟩, hpr⟩
    exact ⟨_, ⟨r, h.mem_overlaps.2 ⟨hr, overlaps_of_mem hpr hp⟩, rfl⟩, hpr⟩

/-! ## `insert` -/

end

/-- What one turn of `findAdjacent` does to one of its two results. -/
theorem touches_iff : t.interval.Touches range.interval ↔ (t.index = range.index ∧ t.keyspace = range.keyspace) ∧
      t.right.isSome ∧ range.left.isSome ∧ range.left = t.right := by
  have hc : cut t.right false = cut range.left true ↔ t.right.isSome ∧ range.left.isSome ∧ range.left = t.right := by
    cases t.right <;> cases range.left <;> simp [cut, eq_comm]
  rw [← hc, Touches, interval, interval, Prod.mk.injEq, and_comm (a := t.index = _)]

theorem touched_iff : range.interval.Touches t.interval ↔ (t.index = range.index ∧ t.keyspace = range.keyspace) ∧
      t.left.isSome ∧ range.right.isSome ∧ range.right = t.left := by
  have hc : cut range.right false = cut t.left true ↔ t.left.isSome ∧ range.right.isSome ∧ range.right = t.left := by
    cases range.right <;> cases t.left <;> simp [cut, eq_comm]
  rw [← hc, Touches, interval, interval, Prod.mk.injEq, and_comm
    (a := t.index = _), eq_comm (a := t.index), eq_comm (a := t.keyspace)]

/-- One turn of `findAdjacent`: it throws at a range that overlaps, and remembers one that touches. -/
theorem adjacent_eq (adj : Option (KeyRange Json) × Option (KeyRange Json)) :
    adjacent range adj t = if t.Overlaps range then none else
      some (if t.interval.Touches range.interval then some t else adj.1,
        if range.interval.Touches t.interval then some t else adj.2) := by
  unfold adjacent
  by_cases hl : t.index = range.index ∧ t.keyspace = range.keyspace
  · rw [if_pos hl, if_congr (touches_iff.trans (and_iff_right hl)) rfl rfl,
      if_congr (touched_iff.trans (and_iff_right hl)) rfl rfl]
  · have ho : ¬ t.Overlaps range := fun h => hl h.1
    rw [if_neg hl, if_neg ho, if_neg fun h => hl (touches_iff.1 h).1, if_neg fun h => hl (touched_iff.1 h).1]

/-- A result of the search over a list of ranges: the last one with the property, or what was there
before. -/
def Found (P : KeyRange Json → Prop) (l : List (KeyRange Json)) (before found : Option (KeyRange Json)) : Prop :=
  (∃ t ∈ l, P t ∧ found = some t) ∨ (∀ t ∈ l, ¬ P t) ∧ found = before

variable {l : List (KeyRange Json)}

/-- The loop of `findAdjacent`. -/
theorem foldlM_adjacent
    {adj adj' : Option (KeyRange Json) × Option (KeyRange Json)} (h : l.foldlM (adjacent range) adj = some adj') :
    (∀ t ∈ l, ¬ t.Overlaps range) ∧ Found (fun t => t.interval.Touches range.interval) l adj.1 adj'.1 ∧
      Found (fun t => range.interval.Touches t.interval) l adj.2 adj'.2 := by
  induction l generalizing adj with
  | nil =>
    cases h
    exact ⟨nofun, .inr ⟨nofun, rfl⟩, .inr ⟨nofun, rfl⟩⟩
  | cons a l ih =>
    rw [List.foldlM_cons, adjacent_eq] at h
    by_cases ho : a.Overlaps range
    · rw [if_pos ho] at h
      cases h
    rw [if_neg ho] at h
    obtain ⟨hno, h1, h2⟩ := ih h
    refine ⟨List.forall_mem_cons.2 ⟨ho, hno⟩, ?_, ?_⟩
    · rcases h1 with ⟨t, ht, hp, he⟩ | ⟨hn, he⟩
      · exact .inl ⟨t, .tail _ ht, hp, he⟩
      · by_cases hp : a.interval.Touches range.interval
        · exact .inl ⟨a, .head _, hp, he.trans (if_pos hp)⟩
        · exact .inr ⟨List.forall_mem_cons.2 ⟨hp, hn⟩, he.trans (if_neg hp)⟩
    · rcases h2 with ⟨t, ht, hp, he⟩ | ⟨hn, he⟩
      · exact .inl ⟨t, .tail _ ht, hp, he⟩
      · by_cases hp : range.interval.Touches a.interval
        · exact .inl ⟨a, .head _, hp, he.trans (if_pos hp)⟩
        · exact .inr ⟨List.forall_mem_cons.2 ⟨hp, hn⟩, he.trans (if_neg hp)⟩

/-- `insert` throws exactly if a range overlaps. -/
theorem isSome_foldlM_adjacent
    {adj : Option (KeyRange Json) × Option (KeyRange Json)} (h : ∀ t ∈ l, ¬ t.Overlaps range) :
    (l.foldlM (adjacent range) adj).isSome := by
  induction l generalizing adj with
  | nil => rfl
  | cons a l ih =>
    rw [List.forall_mem_cons] at h
    rw [List.foldlM_cons, adjacent_eq, if_neg h.1]
    exact ih h.2

/-- `insert` returns if no range overlaps. -/
theorem exists_insert (h : ∀ t ∈ s.mRanges, ¬ t.Overlaps range) : ∃ s', s.insert range = some s' := by
  have hsome : (s.findAdjacent range).isSome := isSome_foldlM_adjacent fun t ht => h t (mem_ascending.1 ht)
  obtain ⟨adj, hadj⟩ := isSome_iff_exists.1 hsome
  exact ⟨_, by rw [insert, hadj]; rfl⟩

variable {found : Option (KeyRange Json)}

/-- The left end of the merged range, and the ranges without the one that the range continues. -/
theorem Tidy.found_left (h : Tidy s)
    (hf : Found (fun t => t.interval.Touches range.interval) (ascending s.mRanges) none found) :
    ∃ left mRanges, (match found with
        | some first => (first.left, s.mRanges.erase first)
        | none => (range.left, s.mRanges)) = (left, mRanges) ∧
      (∀ t, t ∈ mRanges ↔ t ∈ s.mRanges ∧ ¬ t.interval.Touches range.interval) ∧
      ((cut left true = range.interval.lo ∧ ∀ t ∈ s.mRanges, ¬ t.interval.Touches range.interval) ∨
        ∃ t ∈ s.mRanges, t.interval.Touches range.interval ∧ cut left true = t.interval.lo) := by
  rcases hf with ⟨a, ha, hp, rfl⟩ | ⟨hn, rfl⟩
  · rw [mem_ascending] at ha
    refine ⟨_, _, rfl, fun t => ?_, .inr ⟨a, ha, hp, rfl⟩⟩
    rw [mem_erase, and_comm]
    refine and_congr_right fun ht => not_congr ⟨fun he => he ▸ hp, fun htp => ?_⟩
    exact interval_injective (h.eq_of_touches (mem_intervals ht) (mem_intervals ha) htp hp)
  · simp only [mem_ascending] at hn
    exact ⟨_, _, rfl, fun t => ⟨fun ht => ⟨ht, hn t ht⟩, And.left⟩, .inl ⟨rfl, hn⟩⟩

/-- The right end of the merged range, and the ranges without the one that continues the range. -/
theorem Tidy.found_right (h : Tidy s)
    (hf : Found (fun t => range.interval.Touches t.interval) (ascending s.mRanges) none found)
    {mRanges : Finset (KeyRange Json)} (hm : mRanges ⊆ s.mRanges) :
    ∃ right mRanges', (match found with
        | some second => (second.right, mRanges.erase second)
        | none => (range.right, mRanges)) = (right, mRanges') ∧
      (∀ t, t ∈ mRanges' ↔ t ∈ mRanges ∧ ¬ range.interval.Touches t.interval) ∧
      ((cut right false = range.interval.hi ∧ ∀ t ∈ s.mRanges, ¬ range.interval.Touches t.interval) ∨
        ∃ t ∈ s.mRanges, range.interval.Touches t.interval ∧ cut right false = t.interval.hi) := by
  rcases hf with ⟨a, ha, hp, rfl⟩ | ⟨hn, rfl⟩
  · rw [mem_ascending] at ha
    refine ⟨_, _, rfl, fun t => ?_, .inr ⟨a, ha, hp, rfl⟩⟩
    rw [mem_erase, and_comm]
    refine and_congr_right fun ht => not_congr ⟨fun he => he ▸ hp, fun htp => ?_⟩
    exact interval_injective (h.eq_of_touched (mem_intervals (hm ht)) (mem_intervals ha) htp hp)
  · simp only [mem_ascending] at hn
    exact ⟨_, _, rfl, fun t => ⟨fun ht => ⟨ht, hn t (hm ht)⟩, And.left⟩, .inl ⟨rfl, hn⟩⟩

section
variable (hi : s.insert range = some s')
include hi

/-- `insert` merges the range with the ranges that it touches. -/
theorem Tidy.insert_spec (h : Tidy s) : (∀ t ∈ s.mRanges, ¬ t.Overlaps range) ∧
    ∃ m, Joined (intervals s.mRanges) range.interval m ∧
      intervals s'.mRanges = join (intervals s.mRanges) range.interval m := by
  rw [insert] at hi
  cases hadj : s.findAdjacent range with
  | none => rw [hadj] at hi; cases hi
  | some adj =>
  obtain ⟨hno, hl, hr⟩ := foldlM_adjacent hadj
  simp only [mem_ascending] at hno
  obtain ⟨left, mRanges, heq, hmem, hlo⟩ := h.found_left hl
  have hsub : mRanges ⊆ s.mRanges := fun t ht => ((hmem t).1 ht).1
  obtain ⟨right, mRanges', heq', hmem', hhi⟩ := h.found_right hr hsub
  rw [hadj, bind_eq_bind, bind_some, heq] at hi
  simp only [heq'] at hi
  cases hi
  refine ⟨hno, interval ⟨range.keyspace, range.index, left, right⟩, ⟨rfl, ?_, ?_⟩, ?_⟩
  · rcases hlo with ⟨he, hn⟩ | ⟨t, ht, htr, he⟩
    · refine .inl ⟨he, ?_⟩
      rintro _ ⟨t, ht, rfl⟩
      exact hn t ht
    · exact .inr ⟨_, mem_intervals ht, htr, he⟩
  · rcases hhi with ⟨he, hn⟩ | ⟨t, ht, hrt, he⟩
    · refine .inl ⟨he, ?_⟩
      rintro _ ⟨t, ht, rfl⟩
      exact hn t ht
    · exact .inr ⟨_, mem_intervals ht, hrt, he⟩
  · ext i
    constructor
    · rintro ⟨t, ht, rfl⟩
      rcases mem_insert.1 ht with rfl | ht
      · exact .inr rfl
      · obtain ⟨ht, hrt⟩ := (hmem' t).1 ht
        obtain ⟨ht, htr⟩ := (hmem t).1 ht
        exact .inl ⟨mem_intervals ht, htr, hrt⟩
    · rintro (⟨⟨t, ht, rfl⟩, htr, hrt⟩ | rfl)
      · exact ⟨t, mem_insert_of_mem ((hmem' t).2 ⟨(hmem t).2 ⟨ht, htr⟩, hrt⟩), rfl⟩
      · exact ⟨_, mem_insert_self _ _, rfl⟩

/-- Where `insert` returns, no interval of the set overlaps. -/
theorem Tidy.not_overlaps_of_insert (h : Tidy s) : ∀ i ∈ intervals s.mRanges, ¬ i.Overlaps range.interval := by
  rintro _ ⟨t, ht, rfl⟩ ho
  exact (h.insert_spec hi).1 t ht (overlaps_iff.2 ho)

/-- `insert` keeps a set tidy. -/
theorem Tidy.insert (h : Tidy s) (hne : range.Nonempty) : Tidy s' := by
  obtain ⟨-, m, hm, he⟩ := h.insert_spec hi
  rw [Tidy, he]
  exact join h (nonempty_iff.1 hne) (h.not_overlaps_of_insert hi) hm

/-- `insert` is set union. -/
theorem Tidy.names_insert (h : Tidy s) (hne : range.Nonempty) : names s'.mRanges = names s.mRanges ∪ range.names := by
  obtain ⟨-, m, hm, he⟩ := h.insert_spec hi
  ext p
  rw [Set.mem_union, mem_names_iff, mem_names_iff, KeyRange.mem_names_iff, he,
    cover_join h (nonempty_iff.1 hne) hm]
  exact Iff.rfl

end

/-! ## `erase` -/

/-- The loop of `erase` keeps what lies beside the range of the first and of the last range that it
takes out. -/
theorem Tidy.intervals_erase (h : Tidy s) :
    intervals (s.erase range).mRanges = cutOut (intervals s.mRanges) range.interval := by
  have hmem : ∀ r, r ∈ s.overlaps range ↔ r ∈ s.mRanges ∧ r.interval.Overlaps range.interval := fun r => h.mem_overlaps
  rw [erase]
  split
  · next ho =>
    simp only [ho, List.not_mem_nil, false_iff, not_and] at hmem
    ext i
    constructor
    · rintro ⟨t, ht, rfl⟩
      exact ⟨_, mem_intervals ht, .whole (hmem t ht)⟩
    · rintro ⟨_, ⟨t, ht, rfl⟩, hp⟩
      cases hp with
      | whole => exact ⟨t, ht, rfl⟩
      | before ho | after ho => exact absurd ho (hmem t ht)
  · next first rest ho =>
    have hlo : ∀ r ∈ rest, range.interval.lo ≤ r.interval.lo := fun r => h.lo_le_of_mem_rest ho
    obtain ⟨front, last, hlast⟩ : ∃ front last, first :: rest = front ++ [last] :=
      ⟨_, _, (List.dropLast_append_getLast (List.cons_ne_nil first rest)).symm⟩
    have hhi : ∀ r ∈ front, r.interval.hi ≤ range.interval.hi := fun r => h.hi_le_of_mem_dropLast (ho.trans hlast)
    have hget : (first :: rest).getLast (List.cons_ne_nil _ _) = last := by
      simp only [hlast, List.getLast_append_singleton]
    have hres : ∀ t, t ∈ ((s.mRanges \ (first :: rest).toFinset) ∪
        ((if boundLT first.left true range.left true then [{ first with right := range.left }]
          else []) ++
        (if boundLT range.right false last.right false then [{ last with left := range.right }]
          else [])).toFinset) ↔ (t ∈ s.mRanges ∧ ¬ t.interval.Overlaps range.interval) ∨
        (first.interval.lo < range.interval.lo ∧ t = { first with right := range.left }) ∨
        (range.interval.hi < last.interval.hi ∧ t = { last with left := range.right }) := by
      intro t
      have hb : boundLT first.left true range.left true = true ↔ first.interval.lo < range.interval.lo := boundLT_iff
      have ha : boundLT range.right false last.right false = true ↔ range.interval.hi < last.interval.hi := boundLT_iff
      rw [mem_union, mem_sdiff, List.mem_toFinset, List.mem_toFinset, ← ho, hmem,
        List.mem_append, List.mem_ite_nil_right, List.mem_ite_nil_right, List.mem_singleton,
        List.mem_singleton, hb, ha]
      tauto
    have hf := (hmem first).1 (ho ▸ List.mem_cons_self)
    have hl := (hmem last).1 (ho ▸ hlast ▸ List.mem_append_right _ (List.mem_singleton_self _))
    simp only [hget]
    ext i
    constructor
    · rintro ⟨t, ht, rfl⟩
      rcases (hres t).1 ht with ⟨ht, hn⟩ | ⟨hlt, rfl⟩ | ⟨hlt, rfl⟩
      · exact ⟨_, mem_intervals ht, .whole hn⟩
      · exact ⟨_, mem_intervals hf.1, interval_endAt hlt ▸ .before hf.2 hlt⟩
      · exact ⟨_, mem_intervals hl.1, interval_startAt hlt ▸ .after hl.2 hlt⟩
    · rintro ⟨_, ⟨t, ht, rfl⟩, hp⟩
      cases hp with
      | whole hn => exact ⟨t, (hres t).2 (.inl ⟨ht, hn⟩), rfl⟩
      | before hto hlt =>
        have hfirst : t = first := by
          rcases List.mem_cons.1 (ho ▸ (hmem t).2 ⟨ht, hto⟩) with he | hr
          · exact he
          · exact absurd hlt (not_lt.2 (hlo t hr))
        subst hfirst
        exact ⟨_, (hres _).2 (.inr (.inl ⟨hlt, rfl⟩)), interval_endAt hlt⟩
      | after hto hlt =>
        have hlast' : t = last := by
          rcases List.mem_append.1 (hlast ▸ ho ▸ (hmem t).2 ⟨ht, hto⟩) with hr | he
          · exact absurd hlt (not_lt.2 (hhi t hr))
          · exact List.mem_singleton.1 he
        subst hlast'
        exact ⟨_, (hres _).2 (.inr (.inr ⟨hlt, rfl⟩)), interval_startAt hlt⟩

/-- `erase` keeps a set tidy. -/
theorem Tidy.erase (h : Tidy s) (hne : range.Nonempty) : Tidy (s.erase range) := by
  rw [Tidy, h.intervals_erase]
  exact cutOut h (nonempty_iff.1 hne)

/-- `erase` is set difference. -/
theorem Tidy.names_erase (h : Tidy s) : names (s.erase range).mRanges = names s.mRanges \ range.names := by
  ext p
  rw [Set.mem_sdiff, mem_names_iff, mem_names_iff, KeyRange.mem_names_iff, h.intervals_erase, cover_cutOut]
  exact Iff.rfl

/-! ## `difference` -/

variable {left : Option (KeyBound Json)}

/-- The gap before a range, if there is one. -/
theorem points_gap (tr : Finset (KeyRange Json)) : points (gap range (left, tr) t).2 =
      points tr ∪ toSet ⟨range.interval.line, cut left true, t.interval.lo⟩ := by
  have hb : boundLT left true t.left true = true ↔ cut left true < t.interval.lo := boundLT_iff
  by_cases hlt : cut left true < t.interval.lo
  · have hsome : t.left.isSome := by
      cases hl : t.left with
      | none => rw [interval, hl] at hlt; exact absurd hlt not_lt_bot
      | some => rfl
    rw [gap, if_pos ⟨hsome, hb.2 hlt⟩, points_insert, Set.union_comm]
    congr 2
    exact (LineInterval.mk.injEq ..).mpr ⟨rfl, rfl, cut_eq_of_lt hlt⟩
  · rw [gap, if_neg fun h => hlt (hb.1 h.2)]
    refine (Set.union_eq_self_of_subset_right ?_).symm
    exact fun p hp => absurd (hp.2.1.trans_lt hp.2.2) hlt

/-- The loop of `difference`, which has come to the cut `c`, leaves the gaps between the ranges. What
comes after the last range is still missing. -/
theorem points_foldl_gap
    {tr : Finset (KeyRange Json)} {c : Cut Json} (hc : l ≠ [] → c = cut left true)
    (hl : ∀ r ∈ l, r.interval.line = range.interval.line)
    (hlt : ∀ r ∈ l, c ≤ r.interval.hi ∧ r.interval.lo < r.interval.hi ∧ r.interval.lo ≤ range.interval.hi)
    (hp : l.Pairwise fun a b => a.interval.hi < b.interval.lo) :
    points (l.foldl (gap range) (left, tr)).2 ∪ toSet ⟨range.interval.line,
        (l.getLast?.map fun r => r.interval.hi).getD c, range.interval.hi⟩ =
      points tr ∪ toSet ⟨range.interval.line, c, range.interval.hi⟩ \
        cover {i | ∃ r ∈ l, r.interval = i} := by
  induction l generalizing left tr c with
  | nil =>
    have he : {i | ∃ r ∈ ([] : List (KeyRange Json)), r.interval = i} = ∅ := by simp
    rw [he, cover_empty, Set.sdiff_empty]
    rfl
  | cons a l ih =>
    rw [List.pairwise_cons] at hp
    have hca := hc (List.cons_ne_nil _ _)
    subst hca
    have ha := hlt a (.head _)
    have hins : {i | ∃ r ∈ a :: l, r.interval = i} = Insert.insert a.interval {i | ∃ r ∈ l, r.interval = i} := by
      ext i
      simp [eq_comm]
    have hlast : ((a :: l).getLast?.map fun r => r.interval.hi).getD (cut left true) =
        (l.getLast?.map fun r => r.interval.hi).getD a.interval.hi := by
      cases l with
      | nil => rfl
      | cons b l => rw [List.getLast?_cons_cons, List.getLast?_cons]; rfl
    have hnext : l ≠ [] → a.interval.hi = cut a.right true := by
      intro hne
      obtain ⟨b, hb⟩ := List.exists_mem_of_ne_nil l hne
      exact (cut_eq_of_gt (hp.1 b hb)).symm
    rw [hins, hlast, toSet_diff_cover_insert (hl a (.head _)) ha.1 ha.2.2 ha.2.1.le,
      List.foldl_cons, ← Set.union_assoc, ← points_gap]
    · refine ih hnext (fun r hr => hl r (.tail _ hr)) (fun r hr => ?_) hp.2
      obtain ⟨-, h2, h3⟩ := hlt r (.tail _ hr)
      exact ⟨(hp.1 r hr).le.trans h2.le, h2, h3⟩
    · rintro _ ⟨r, hr, rfl⟩
      exact (hp.1 r hr).le

/-- `difference` finds what the ranges leave of the range. -/
theorem Tidy.points_difference (h : Tidy s) : points (s.difference range) =
    range.interval.toSet \ points s.mRanges := by
  have hcover : range.interval.toSet \ points s.mRanges =
      range.interval.toSet \ cover {i | ∃ r ∈ s.overlaps range, r.interval = i} := by
    ext p
    exact and_congr_right fun hp => not_congr (h.mem_cover_overlaps hp).symm
  have hmem := fun r hr => h.mem_overlaps.1 (show r ∈ s.overlaps range from hr)
  have hloop := @points_foldl_gap _ _ range _ _ ∅ _ (fun _ => rfl) (fun r hr => (hmem r hr).2.1)
    (fun r hr => ⟨(hmem r hr).2.2.2.le, h.nonempty _ (mem_intervals (hmem r hr).1),
      (hmem r hr).2.2.1.le⟩) h.pairwise_overlaps
  have hempty : points (∅ : Finset (KeyRange Json)) = ∅ := by
    ext p
    simp [points, intervals]
  rw [hempty, Set.empty_union] at hloop
  rw [hcover, difference]
  refine Eq.trans ?_ hloop
  split
  · next ho =>
    rw [ho, List.foldl_nil, hempty, Set.empty_union, ← insert_empty_eq, points_insert, hempty, Set.union_empty]
    rfl
  · next first rest ho =>
    rw [ho, List.getLast?_eq_some_getLast (List.cons_ne_nil first rest)]
    generalize (first :: rest).getLast _ = last
    have hb : boundLT last.right false range.right false = true ↔ last.interval.hi < range.interval.hi := boundLT_iff
    by_cases hlt : last.interval.hi < range.interval.hi
    · have hsome : last.right.isSome := by
        cases hr : last.right with
        | none => rw [interval, hr] at hlt; exact absurd hlt not_top_lt
        | some => rfl
      rw [if_pos ⟨hsome, hb.2 hlt⟩, points_insert, Set.union_comm]
      congr 2
      exact interval_startAt (r := range) hlt
    · rw [if_neg fun hc => hlt (hb.1 hc.2)]
      refine (Set.union_eq_self_of_subset_right ?_).symm
      exact fun p hp => absurd (hp.2.1.trans_lt hp.2.2) hlt

/-- `difference(range)` is the range minus the set. -/
theorem Tidy.names_difference (h : Tidy s) : names (s.difference range) = range.names \ names s.mRanges := by
  ext p
  rw [Set.mem_sdiff, mem_names_iff, mem_names_iff, KeyRange.mem_names_iff]
  exact Set.ext_iff.1 h.points_difference _

/-! ## `intersection` -/

/-- Trimming a range to another one. -/
theorem interval_trim (r : KeyRange Json) :
    (trimRight range (trimLeft range r)).interval = r.interval.meet range.interval := by
  have hb : boundLT r.left true range.left true = true ↔ r.interval.lo < range.interval.lo := boundLT_iff
  have hleft : (trimLeft range r).interval = ⟨r.interval.line, max r.interval.lo range.interval.lo, r.interval.hi⟩ := by
    unfold trimLeft
    by_cases hlt : r.interval.lo < range.interval.lo
    · rw [if_pos (hb.2 hlt), max_eq_right hlt.le]
      rfl
    · rw [if_neg fun hc => hlt (hb.1 hc), max_eq_left (not_lt.1 hlt)]
  have ha : boundLT range.right false (trimLeft range r).right false = true ↔
      range.interval.hi < (trimLeft range r).interval.hi := boundLT_iff
  rw [trimRight, meet]
  by_cases hlt : range.interval.hi < (trimLeft range r).interval.hi
  · rw [if_pos (ha.2 hlt)]
    rw [hleft] at hlt
    rw [min_eq_right hlt.le]
    exact (LineInterval.mk.injEq ..).mpr ⟨congrArg LineInterval.line hleft, congrArg LineInterval.lo hleft, rfl⟩
  · rw [if_neg fun hc => hlt (ha.1 hc)]
    rw [hleft] at hlt ⊢
    rw [min_eq_left (not_lt.1 hlt)]

/-- Only the first range of `overlaps` is trimmed on the left, and only the last one on the right,
because the others do not stick out. -/
theorem Tidy.intersection_eq (h : Tidy s) : s.intersection range =
    ((s.overlaps range).map fun r => trimRight range (trimLeft range r)).toFinset := by
  have hhead : (s.overlaps range).modifyHead (trimLeft range) = (s.overlaps range).map (trimLeft range) := by
    cases ho : s.overlaps range with
    | nil => rfl
    | cons first rest =>
      rw [List.modifyHead_cons, List.map_cons]
      refine congrArg _ ((List.map_id rest).symm.trans (List.map_congr_left fun r hr => ?_))
      have hle := h.lo_le_of_mem_rest ho hr
      rw [trimLeft, if_neg fun hc => absurd (boundLT_iff.1 hc) (not_lt.2 hle)]
      rfl
  have hlast : ((s.overlaps range).map (trimLeft range)).modifyLast (trimRight range) =
      ((s.overlaps range).map (trimLeft range)).map (trimRight range) := by
    rcases List.eq_nil_or_concat (s.overlaps range) with ho | ⟨front, last, ho⟩
    · rw [ho]
      rfl
    · rw [ho, List.concat_eq_append, List.map_append, List.map_singleton, List.modifyLast_concat,
        List.map_append, List.map_singleton]
      refine congrArg (· ++ _) ((List.map_id _).symm.trans (List.map_congr_left fun r hr => ?_))
      obtain ⟨r, hr', rfl⟩ := List.mem_map.1 hr
      have hle := h.hi_le_of_mem_dropLast (ho.trans (List.concat_eq_append ..)) hr'
      have hright : (trimLeft range r).right = r.right := by unfold trimLeft; split <;> rfl
      rw [trimRight, if_neg fun hc => absurd (boundLT_iff.1 (hright ▸ hc)) (not_lt.2 hle)]
      rfl
  rw [intersection, hhead, hlast, List.map_map]
  rfl

/-- `intersection(range)` is the range met with the set. -/
theorem Tidy.names_intersection (h : Tidy s) : names (s.intersection range) = range.names ∩ names s.mRanges := by
  have hpoints : intervals (s.intersection range) =
      {i | ∃ j ∈ intervals s.mRanges, j.Overlaps range.interval ∧ i = j.meet range.interval} := by
    ext i
    rw [h.intersection_eq]
    constructor
    · rintro ⟨t, ht, rfl⟩
      obtain ⟨r, hr, rfl⟩ := List.mem_map.1 (List.mem_toFinset.1 ht)
      obtain ⟨hr, ho⟩ := h.mem_overlaps.1 hr
      exact ⟨_, mem_intervals hr, ho, interval_trim r⟩
    · rintro ⟨_, ⟨r, hr, rfl⟩, ho, rfl⟩
      exact ⟨_, List.mem_toFinset.2 (List.mem_map_of_mem (h.mem_overlaps.2 ⟨hr, ho⟩)), interval_trim r⟩
  ext p
  rw [Set.mem_inter_iff, mem_names_iff, mem_names_iff, KeyRange.mem_names_iff, hpoints, cover_meet]
  exact Iff.rfl

/-! ## `containsKey` -/

omit [LinearOrder Json] in
/-- A search that does not throw. -/
theorem anyM_eq_some {α : Type} {f : α → Option Bool} {g : α → Bool} {l : List α}
    (h : ∀ a ∈ l, f a = some (g a)) : l.anyM f = some (l.any g) := by
  induction l with
  | nil => rfl
  | cons a l ih =>
    rw [List.forall_mem_cons] at h
    rw [List.anyM_cons, h.1, ih h.2, List.any_cons]
    cases g a <;> rfl

/-- `containsKey` looks up the names of the key, in ranges of dimensions that the key has. -/
theorem containsKey_spec {inKey : Key Json} (hd : ∀ r ∈ s.mRanges, r.InDimension) :
    ∃ b, s.containsKey inKey = some b ∧ (b = true ↔ ∃ ix name,
      inKey.atDimension ix = some name ∧ (inKey.keyspace, ix, name) ∈ names s.mRanges) := by
  have hcontains : ∀ r ∈ ascending s.mRanges, r.contains inKey = some ((r.contains inKey).getD false) := by
    intro r hr
    obtain ⟨b, hb, -⟩ := contains_spec (hd r (mem_ascending.1 hr)) inKey
    rw [hb]
    rfl
  refine ⟨_, anyM_eq_some hcontains, ?_⟩
  rw [List.any_eq_true]
  constructor
  · rintro ⟨r, hr, htrue⟩
    obtain ⟨b, hb, hiff⟩ := contains_spec (hd r (mem_ascending.1 hr)) inKey
    rw [hb] at htrue
    obtain ⟨name, hname, hmem⟩ := hiff.1 htrue
    exact ⟨r.index, name, hname, r, mem_ascending.1 hr, hmem⟩
  · rintro ⟨ix, name, hname, r, hr, hmem⟩
    obtain rfl : ix = r.index := hmem.2.1
    obtain ⟨b, hb, hiff⟩ := contains_spec (hd r hr) inKey
    refine ⟨r, mem_ascending.2 hr, ?_⟩
    rw [hb]
    exact hiff.2 ⟨name, hname, hmem⟩

/-! ## Keyspaces

What follows holds of sets that are not tidy too: taking out a range that ends before it starts leaves
such a set. -/

variable {k : Keyspace Json}

theorem containsKeyspace_iff : s.containsKeyspace k = true ↔ ∃ r ∈ s.mRanges, r.keyspace = k := by
  simp [containsKeyspace]

/-- The ranges from the first one that overlaps a range to the last one are on its line. -/
theorem mem_overlaps_line (h : r ∈ s.overlaps range) : r ∈ s.mRanges ∧ r.interval.line = range.interval.line := by
  obtain ⟨hr, ⟨a, -, har, ha⟩, b, -, hrb, hb⟩ := mem_between (pairwise_ascending s.mRanges) h
  rw [decide_eq_true_iff, overlaps_iff] at ha hb
  exact ⟨mem_ascending.1 hr, (line_eq_of_between har hrb (ha.1.trans hb.1.symm)).trans ha.1⟩

/-- A range that overlaps none of the set does not intersect it. -/
theorem not_overlaps_of_intersects (h : s.intersects range = false) : ∀ r ∈ s.mRanges, ¬ r.Overlaps range := by
  have hnil : s.overlaps range = [] := by
    have hcard : (s.intersection range).card = 0 := by
      simpa [intersects] using h
    have hlist := (List.toFinset_eq_empty_iff _).1 (card_eq_zero.1 hcard)
    cases ho : s.overlaps range with
    | nil => rfl
    | cons first rest =>
      obtain ⟨front, last, hl⟩ := (List.eq_nil_or_concat (trimLeft range first :: rest)).resolve_left
        (List.cons_ne_nil _ _)
      rw [ho, List.modifyHead_cons, hl, List.concat_eq_append, List.modifyLast_concat] at hlist
      exact absurd hlist (List.append_ne_nil_of_right_ne_nil _ (List.cons_ne_nil _ _))
  intro r hr ho
  have hmem : r ∈ between (fun it => decide (it.Overlaps range)) (ascending s.mRanges) → False := by
    show r ∈ s.overlaps range → False
    rw [hnil]
    exact List.not_mem_nil
  exact hmem (mem_between_of_mem (mem_ascending.2 hr) (decide_eq_true ho))

/-- What `insert` leaves: it takes out ranges of the keyspace, and puts in one from where they or the
range start to where they or the range end. -/
theorem insert_eq (hi : s.insert range = some s') : ∃ left right mRanges,
    s'.mRanges = Insert.insert ⟨range.keyspace, range.index, left, right⟩ mRanges ∧
    mRanges ⊆ s.mRanges ∧ (∀ t ∈ s.mRanges, t ∉ mRanges → t.keyspace = range.keyspace) ∧
    (left = range.left ∨ ∃ t ∈ s.mRanges, left = t.left ∧ t.interval.hi = range.interval.lo) ∧
    (right = range.right ∨ ∃ t ∈ s.mRanges, right = t.right ∧ range.interval.hi = t.interval.lo) := by
  unfold insert findAdjacent at hi
  obtain ⟨adj, hadj⟩ : ∃ adj, (ascending s.mRanges).foldlM (adjacent range) (none, none) = some adj := by
    cases hf : (ascending s.mRanges).foldlM (adjacent range) (none, none) with
    | none =>
      rw [hf] at hi
      cases hi
    | some adj => exact ⟨adj, rfl⟩
  obtain ⟨-, hl, hr⟩ := foldlM_adjacent hadj
  rw [hadj, bind_eq_bind, bind_some] at hi
  obtain ⟨first, second⟩ := adj
  have hfirst : ∀ t, first = some t → t ∈ s.mRanges ∧ t.interval.Touches range.interval := by
    rintro t rfl
    rcases hl with ⟨u, hu, hp, he⟩ | ⟨-, he⟩
    · obtain rfl := some.inj he
      exact ⟨mem_ascending.1 hu, hp⟩
    · cases he
  have hsecond : ∀ t, second = some t → t ∈ s.mRanges ∧ range.interval.Touches t.interval := by
    rintro t rfl
    rcases hr with ⟨u, hu, hp, he⟩ | ⟨-, he⟩
    · obtain rfl := some.inj he
      exact ⟨mem_ascending.1 hu, hp⟩
    · cases he
  have hk : ∀ t : KeyRange Json, t.interval.Touches range.interval → t.keyspace = range.keyspace :=
    fun t ht => (Prod.mk.inj ht.1).1
  have hk' : ∀ t : KeyRange Json, range.interval.Touches t.interval → t.keyspace = range.keyspace :=
    fun t ht => (Prod.mk.inj ht.1).1.symm
  cases first with
  | none =>
    cases second with
    | none =>
      cases hi
      exact ⟨_, _, _, rfl, subset_rfl, fun t ht hn => absurd ht hn, .inl rfl, .inl rfl⟩
    | some b =>
      cases hi
      obtain ⟨hb, hbt⟩ := hsecond b rfl
      refine ⟨_, _, _, rfl, erase_subset _ _, fun t ht hn => ?_, .inl rfl, .inr ⟨b, hb, rfl, hbt.2⟩⟩
      obtain rfl : t = b := by_contra fun hne => hn (mem_erase.2 ⟨hne, ht⟩)
      exact hk' t hbt
  | some a =>
    obtain ⟨ha, hat⟩ := hfirst a rfl
    cases second with
    | none =>
      cases hi
      refine ⟨_, _, _, rfl, erase_subset _ _, fun t ht hn => ?_, .inr ⟨a, ha, rfl, hat.2⟩, .inl rfl⟩
      obtain rfl : t = a := by_contra fun hne => hn (mem_erase.2 ⟨hne, ht⟩)
      exact hk t hat
    | some b =>
      cases hi
      obtain ⟨hb, hbt⟩ := hsecond b rfl
      refine ⟨_, _, _, rfl, (erase_subset _ _).trans (erase_subset _ _),
        fun t ht hn => ?_, .inr ⟨a, ha, rfl, hat.2⟩, .inr ⟨b, hb, rfl, hbt.2⟩⟩
      rcases eq_or_ne t b with rfl | htb
      · exact hk' t hbt
      · obtain rfl : t = a := by_contra fun hne => hn (mem_erase.2 ⟨htb, mem_erase.2 ⟨hne, ht⟩⟩)
        exact hk t hat

/-- After `insert`, the set has ranges of the range's keyspace and of those before. -/
theorem containsKeyspace_insert (hi : s.insert range = some s') (k : Keyspace Json) :
    s'.containsKeyspace k = true ↔ k = range.keyspace ∨ s.containsKeyspace k = true := by
  obtain ⟨left, right, mRanges, hs', hsub, hout, -, -⟩ := insert_eq hi
  rw [containsKeyspace_iff, containsKeyspace_iff, hs']
  constructor
  · rintro ⟨r, hr, rfl⟩
    rcases mem_insert.1 hr with rfl | hr
    · exact .inl rfl
    · exact .inr ⟨r, hsub hr, rfl⟩
  · rintro (rfl | ⟨r, hr, rfl⟩)
    · exact ⟨_, mem_insert_self _ _, rfl⟩
    · by_cases hm : r ∈ mRanges
      · exact ⟨r, mem_insert_of_mem hm, rfl⟩
      · exact ⟨_, mem_insert_self _ _, (hout r hr hm).symm⟩

/-- `insert` of a nonempty range keeps the ranges nonempty. -/
theorem nonempty_insert (hne : range.Nonempty) (hi : s.insert range = some s')
    (h : ∀ t ∈ s.mRanges, t.Nonempty) : ∀ t ∈ s'.mRanges, t.Nonempty := by
  obtain ⟨left, right, mRanges, hs', hsub, -, hleft, hright⟩ := insert_eq hi
  have hlo : cut left true ≤ range.interval.lo := by
    rcases hleft with rfl | ⟨t, ht, rfl, he⟩
    · exact le_rfl
    · exact he ▸ (nonempty_iff.1 (h t ht)).le
  have hhi : range.interval.hi ≤ cut right false := by
    rcases hright with rfl | ⟨t, ht, rfl, he⟩
    · exact le_rfl
    · exact he ▸ (nonempty_iff.1 (h t ht)).le
  intro t ht
  rw [hs'] at ht
  rcases mem_insert.1 ht with rfl | ht
  · exact nonempty_iff.2 ((hlo.trans_lt (nonempty_iff.1 hne)).trans_le hhi)
  · exact h t (hsub ht)

/-- What `erase` leaves: ranges of the set that are not on the line of the range stay, and what is new
is nonempty and of the keyspace of a range that was there. -/
theorem mem_erase (h : t ∈ (s.erase range).mRanges) :
    t ∈ s.mRanges ∨ t.Nonempty ∧ ∃ r ∈ s.mRanges, r.keyspace = t.keyspace := by
  unfold erase at h
  split at h
  · exact .inl h
  · next first rest ho =>
    have hfirst : first ∈ s.mRanges := (mem_overlaps_line (by rw [ho]; exact List.mem_cons_self)).1
    have hlast : (first :: rest).getLast (List.cons_ne_nil _ _) ∈ s.mRanges :=
      (mem_overlaps_line (by rw [ho]; exact List.getLast_mem _)).1
    rcases mem_union.1 h with h | h
    · exact .inl (mem_sdiff.1 h).1
    · refine .inr ?_
      rw [List.mem_toFinset, List.mem_append] at h
      rcases h with h | h
      · split at h
        · next hlt =>
          obtain rfl := List.mem_singleton.1 h
          rw [boundLT_iff] at hlt
          exact ⟨nonempty_iff.2
            (by rw [@KeyRange.interval_endAt _ _ _ range _ hlt]; exact hlt), first, hfirst, rfl⟩
        · cases h
      · split at h
        · next hlt =>
          obtain rfl := List.mem_singleton.1 h
          rw [boundLT_iff] at hlt
          exact ⟨nonempty_iff.2
            (by rw [@KeyRange.interval_startAt _ _ _ range _ hlt]; exact hlt), _, hlast, rfl⟩
        · cases h

theorem mem_erase_of_keyspace_ne (ht : t ∈ s.mRanges) (hk : t.keyspace ≠ range.keyspace) :
    t ∈ (s.erase range).mRanges := by
  unfold erase
  split
  · exact ht
  · next first rest ho =>
    refine mem_union_left _ (mem_sdiff.2 ⟨ht, fun hmem => hk ?_⟩)
    rw [← ho, List.mem_toFinset] at hmem
    exact (Prod.mk.inj (mem_overlaps_line hmem).2).1

/-- `erase` keeps the ranges nonempty. -/
theorem nonempty_erase (h : ∀ t ∈ s.mRanges, t.Nonempty) : ∀ t ∈ (s.erase range).mRanges, t.Nonempty :=
  fun t ht => (mem_erase ht).elim (h t) And.left

theorem containsKeyspace_of_erase (h : (s.erase range).containsKeyspace k = true) : s.containsKeyspace k = true := by
  obtain ⟨t, ht, rfl⟩ := containsKeyspace_iff.1 h
  rcases mem_erase ht with ht | ⟨-, r, hr, hk⟩
  · exact containsKeyspace_iff.2 ⟨t, ht, rfl⟩
  · exact containsKeyspace_iff.2 ⟨r, hr, hk⟩

/-- `erase` takes away no other keyspace than that of the range. -/
theorem containsKeyspace_erase (hk : k ≠ range.keyspace) :
    (s.erase range).containsKeyspace k = s.containsKeyspace k := by
  refine Bool.eq_iff_iff.2 ⟨containsKeyspace_of_erase, fun h => ?_⟩
  obtain ⟨t, ht, rfl⟩ := containsKeyspace_iff.1 h
  exact containsKeyspace_iff.2 ⟨t, mem_erase_of_keyspace_ne ht hk, rfl⟩

/-- Taking out the first range of a set leaves fewer ranges. -/
theorem card_erase_head_lt (hne : range.Nonempty) (hhead : (ascending s.mRanges).head? = some range) :
    (s.erase range).mRanges.card < s.mRanges.card := by
  obtain ⟨rest, hl⟩ : ∃ rest, ascending s.mRanges = range :: rest := by
    cases hl : ascending s.mRanges with
    | nil =>
      rw [hl] at hhead
      cases hhead
    | cons a rest =>
      rw [hl] at hhead
      exact ⟨rest, by rw [some.inj hhead]⟩
  have hself : decide (range.Overlaps range) = true := decide_eq_true (overlaps_iff.2
      ⟨rfl, nonempty_iff.1 hne, nonempty_iff.1 hne⟩)
  obtain ⟨more, ho⟩ : ∃ more, s.overlaps range = range :: more := by
    unfold overlaps
    rw [hl]
    exact between_cons hself
  have hsub : (range :: more).toFinset ⊆ s.mRanges := by
    intro r hr
    rw [← ho, List.mem_toFinset] at hr
    exact (mem_overlaps_line hr).1
  have hnodup : (range :: more).Nodup := by
    rw [← ho]
    exact (ascending_nodup s.mRanges).sublist (between_sublist _ _)
  have hcard : (range :: more).toFinset.card = more.length + 1 := by
    rw [List.toFinset_card_of_nodup hnodup]
    rfl
  obtain ⟨toAddBack, he, hlen⟩ : ∃ toAddBack : List (KeyRange Json), (s.erase range).mRanges =
      (s.mRanges \ (range :: more).toFinset) ∪ toAddBack.toFinset ∧
      toAddBack.length ≤ more.length := by
    unfold erase
    rw [ho]
    refine ⟨_, rfl, ?_⟩
    have hirrefl : ∀ b x, boundLT b x b x = false := fun (b : Option (KeyBound Json)) x => by
      rw [← Bool.not_eq_true, boundLT_iff]
      exact lt_irrefl _
    rw [List.length_append, hirrefl, if_neg Bool.false_ne_true, List.length_nil, Nat.zero_add]
    cases more with
    | nil =>
      rw [List.getLast_singleton, hirrefl, if_neg Bool.false_ne_true]
    | cons b more =>
      split
      · exact Nat.succ_le_succ (Nat.zero_le _)
      · exact Nat.zero_le _
  have hle := card_le_card hsub
  have hunion := card_union_le (s.mRanges \ (range :: more).toFinset) toAddBack.toFinset
  have hback := List.toFinset_card_le toAddBack
  rw [card_sdiff_of_subset hsub, ← he] at hunion
  omega

end KeyRangeSet

end SharedState
