import Mathlib.Data.Finset.Basic
import Mathlib.Data.Set.Lattice
import Mathlib.Data.List.Pairwise

/-!
# Half-open intervals on lines

An interval lies on one of several lines and goes from a cut, which it includes, to a later one,
which it does not. `Tidy` says of a set of intervals that it is the only one with its points: no two
of its intervals overlap or touch. `Tidy.join` adds an interval to such a set and merges it with the
ones it touches; `Tidy.cutOut` takes the points of an interval out of it.
-/

/-- An interval on a line, from `lo` to `hi`. -/
structure LineInterval (L C : Type*) where
  line : L
  lo : C
  hi : C

namespace LineInterval

variable {L C : Type*} [LinearOrder C] (r : LineInterval L C)

/-- The points of an interval. -/
def toSet : Set (L × C) := {p | p.1 = r.line ∧ r.lo ≤ p.2 ∧ p.2 < r.hi}

/-- The two have a point in common, if they have points at all. -/
def Overlaps (s : LineInterval L C) : Prop := r.line = s.line ∧ r.lo < s.hi ∧ s.lo < r.hi

/-- The second begins where the first ends. -/
def Touches (s : LineInterval L C) : Prop := r.line = s.line ∧ r.hi = s.lo

instance [DecidableEq L] (s : LineInterval L C) : Decidable (r.Touches s) := inferInstanceAs (Decidable (_ ∧ _))

/-- The points of a set of intervals. -/
def cover (S : Set (LineInterval L C)) : Set (L × C) := {p | ∃ r ∈ S, p ∈ r.toSet}

@[simp] theorem mem_toSet {r : LineInterval L C} {p : L × C} :
    p ∈ r.toSet ↔ p.1 = r.line ∧ r.lo ≤ p.2 ∧ p.2 < r.hi := Iff.rfl

@[simp] theorem mem_cover {S : Set (LineInterval L C)} {p : L × C} : p ∈ cover S ↔ ∃ r ∈ S, p ∈ r.toSet := Iff.rfl

theorem Overlaps.symm {r s : LineInterval L C} (h : r.Overlaps s) : s.Overlaps r := ⟨h.1.symm, h.2.2, h.2.1⟩

/-- Intervals with a common point overlap. -/
theorem overlaps_of_mem {r s : LineInterval L C} {p : L × C} (hr : p ∈ r.toSet) (hs : p ∈ s.toSet) : r.Overlaps s :=
  ⟨hr.1.symm.trans hs.1, lt_of_le_of_lt hr.2.1 hs.2.2, lt_of_le_of_lt hs.2.1 hr.2.2⟩

theorem cover_union (S T : Set (LineInterval L C)) : cover (S ∪ T) = cover S ∪ cover T := by
  ext p
  constructor
  · rintro ⟨r, hr | hr, hp⟩
    · exact .inl ⟨r, hr, hp⟩
    · exact .inr ⟨r, hr, hp⟩
  · rintro (⟨r, hr, hp⟩ | ⟨r, hr, hp⟩)
    · exact ⟨r, .inl hr, hp⟩
    · exact ⟨r, .inr hr, hp⟩

@[simp] theorem cover_empty : cover (∅ : Set (LineInterval L C)) = ∅ := by
  ext p
  simp [cover]

@[simp] theorem cover_singleton : cover {r} = r.toSet := by
  ext p
  simp [cover]

/-- No interval of the set is empty, and no two of them overlap or touch. -/
structure Tidy (S : Set (LineInterval L C)) : Prop where
  nonempty : ∀ r ∈ S, r.lo < r.hi
  disjoint : ∀ r ∈ S, ∀ s ∈ S, r.Overlaps s → r = s
  apart : ∀ r ∈ S, ∀ s ∈ S, ¬ r.Touches s

section
variable {S : Set (LineInterval L C)} {r s t m : LineInterval L C}

theorem tidy_empty : Tidy (∅ : Set (LineInterval L C)) := ⟨nofun, nofun, nofun⟩

theorem Tidy.mono {T : Set (LineInterval L C)} (h : Tidy S) (hT : T ⊆ S) : Tidy T where
  nonempty r hr := h.nonempty r (hT hr)
  disjoint r hr s hs := h.disjoint r (hT hr) s (hT hs)
  apart r hr s hs := h.apart r (hT hr) s (hT hs)

/-- Two intervals of a tidy set on one line leave a gap between them. -/
theorem Tidy.lt_of_lo_lt (h : Tidy S) (hr : r ∈ S) (hs : s ∈ S) (hl : r.line = s.line)
    (hlt : r.lo < s.lo) : r.hi < s.lo := by
  have hns : r ≠ s := fun he => absurd hlt (by rw [he]; exact lt_irrefl _)
  rcases lt_trichotomy r.hi s.lo with hc | hc | hc
  · exact hc
  · exact absurd ⟨hl, hc⟩ (h.apart r hr s hs)
  · exact absurd (h.disjoint r hr s hs ⟨hl, hlt.trans (h.nonempty s hs), hc⟩) hns

/-- Of two intervals of a tidy set on one line, one lies before the other. -/
theorem Tidy.lt_or_lt (h : Tidy S) (hr : r ∈ S) (hs : s ∈ S) (hl : r.line = s.line)
    (hne : r ≠ s) : r.hi < s.lo ∨ s.hi < r.lo := by
  rcases lt_trichotomy r.lo s.lo with hc | hc | hc
  · exact .inl (h.lt_of_lo_lt hr hs hl hc)
  · exact absurd (h.disjoint r hr s hs ⟨hl, hc ▸ h.nonempty s hs, hc ▸ h.nonempty r hr⟩) hne
  · exact .inr (h.lt_of_lo_lt hs hr hl.symm hc)

/-- Two intervals of a tidy set that start in one place are one. -/
theorem Tidy.eq_of_lo_eq (h : Tidy S) (hr : r ∈ S) (hs : s ∈ S) (hl : r.line = s.line) (he : r.lo = s.lo) : r = s :=
  h.disjoint r hr s hs ⟨hl, he ▸ h.nonempty s hs, he ▸ h.nonempty r hr⟩

/-- Only one interval of a tidy set ends where another interval begins. -/
theorem Tidy.eq_of_touches (h : Tidy S) (hs : s ∈ S) (ht : t ∈ S) (hsr : s.Touches r) (htr : t.Touches r) : s = t := by
  have he : s.hi = t.hi := hsr.2.trans htr.2.symm
  exact h.disjoint s hs t ht ⟨hsr.1.trans htr.1.symm, he ▸ h.nonempty s hs, he ▸ h.nonempty t ht⟩

/-- Only one interval of a tidy set begins where another interval ends. -/
theorem Tidy.eq_of_touched (h : Tidy S) (hs : s ∈ S) (ht : t ∈ S) (hsr : r.Touches s) (htr : r.Touches t) : s = t :=
  h.eq_of_lo_eq hs ht (hsr.1.symm.trans htr.1) (hsr.2.symm.trans htr.2)

/-! ## Adding an interval -/

/-- `m` is `r` together with the intervals of the set that it touches. -/
structure Joined (S : Set (LineInterval L C)) (r m : LineInterval L C) : Prop where
  line : m.line = r.line
  lo : (m.lo = r.lo ∧ ∀ t ∈ S, ¬ t.Touches r) ∨ ∃ t ∈ S, t.Touches r ∧ m.lo = t.lo
  hi : (m.hi = r.hi ∧ ∀ t ∈ S, ¬ r.Touches t) ∨ ∃ t ∈ S, r.Touches t ∧ m.hi = t.hi

/-- The intervals of the set that `r` does not touch, and `m`. -/
def join (S : Set (LineInterval L C)) (r m : LineInterval L C) : Set (LineInterval L C) :=
  {t | t ∈ S ∧ ¬ t.Touches r ∧ ¬ r.Touches t} ∪ {m}

section

variable (hm : Joined S r m)
include hm

theorem Joined.lo_le (h : Tidy S) : m.lo ≤ r.lo := by
  rcases hm.lo with ⟨he, -⟩ | ⟨t, ht, htr, he⟩
  · exact he.le
  · rw [he, ← htr.2]
    exact (h.nonempty t ht).le

theorem Joined.le_hi (h : Tidy S) : r.hi ≤ m.hi := by
  rcases hm.hi with ⟨he, -⟩ | ⟨t, ht, hrt, he⟩
  · exact he.ge
  · rw [he, hrt.2]
    exact (h.nonempty t ht).le

/-- An interval of the set that lies elsewhere does not overlap the joined one. -/
theorem Joined.not_overlaps (h : Tidy S) (hr : ∀ t ∈ S, ¬ t.Overlaps r)
    (ht : t ∈ S) (htr : ¬ t.Touches r) (hrt : ¬ r.Touches t) : ¬ t.Overlaps m := by
  rintro ⟨hl, hlo, hhi⟩
  have hline : t.line = r.line := hl.trans hm.line
  rcases lt_or_ge t.lo r.hi with hc | hc
  · have hle : t.hi ≤ r.lo := not_lt.1 fun hlt => hr t ht ⟨hline, hc, hlt⟩
    rcases hm.lo with ⟨he, -⟩ | ⟨s, hs, hsr, he⟩
    · exact absurd hhi (not_lt.2 (he ▸ hle))
    · have hst := h.disjoint t ht s hs ⟨hline.trans hsr.1.symm,
        (h.nonempty t ht).trans_le (hle.trans hsr.2.ge), he ▸ hhi⟩
      exact htr (hst ▸ hsr)
  · rcases hm.hi with ⟨he, -⟩ | ⟨s, hs, hrs, he⟩
    · exact absurd hlo (not_lt.2 (he ▸ hc))
    · have hst := h.disjoint t ht s hs ⟨hline.trans hrs.1, he ▸ hlo, hrs.2 ▸ hc.trans_lt (h.nonempty t ht)⟩
      exact hrt (hst ▸ hrs)

/-- An interval of the set that lies elsewhere does not touch the joined one. -/
theorem Joined.not_touches (h : Tidy S) (ht : t ∈ S) (htr : ¬ t.Touches r) : ¬ t.Touches m := by
  rintro ⟨hl, he⟩
  rcases hm.lo with ⟨hlo, -⟩ | ⟨s, hs, hsr, hlo⟩
  · exact htr ⟨hl.trans hm.line, he.trans hlo⟩
  · exact h.apart t ht s hs ⟨hl.trans (hm.line.trans hsr.1.symm), he.trans hlo⟩

theorem Joined.not_touched (h : Tidy S) (ht : t ∈ S) (hrt : ¬ r.Touches t) : ¬ m.Touches t := by
  rintro ⟨hl, he⟩
  rcases hm.hi with ⟨hhi, -⟩ | ⟨s, hs, hrs, hhi⟩
  · exact hrt ⟨hm.line.symm.trans hl, hhi.symm.trans he⟩
  · exact h.apart s hs t ht ⟨hrs.1.symm.trans (hm.line.symm.trans hl), hhi.symm.trans he⟩

end

/-- Adding an interval that overlaps none keeps the set tidy. -/
theorem Tidy.join (h : Tidy S) (hne : r.lo < r.hi) (hr : ∀ t ∈ S, ¬ t.Overlaps r)
    (hm : Joined S r m) : Tidy (join S r m) where
  nonempty := by
    rintro t (⟨ht, -⟩ | rfl)
    · exact h.nonempty t ht
    · exact (hm.lo_le h).trans_lt (hne.trans_le (hm.le_hi h))
  disjoint := by
    rintro s (⟨hs, hsr, hrs⟩ | rfl) t (⟨ht, htr, hrt⟩ | rfl) ho
    · exact h.disjoint s hs t ht ho
    · exact absurd ho (hm.not_overlaps h hr hs hsr hrs)
    · exact absurd ho.symm (hm.not_overlaps h hr ht htr hrt)
    · rfl
  apart := by
    rintro s (⟨hs, hsr, hrs⟩ | rfl) t (⟨ht, htr, hrt⟩ | rfl)
    · exact h.apart s hs t ht
    · exact hm.not_touches h hs hsr
    · exact hm.not_touched h ht hrt
    · exact fun hc => absurd hc.2.symm ((hm.lo_le h).trans_lt (hne.trans_le (hm.le_hi h))).ne

/-- Adding an interval adds its points. -/
theorem Tidy.cover_join (h : Tidy S) (hne : r.lo < r.hi) (hm : Joined S r m) :
    cover (LineInterval.join S r m) = cover S ∪ r.toSet := by
  ext p
  constructor
  · rintro ⟨t, ⟨ht, -⟩ | rfl, hp⟩
    · exact .inl ⟨t, ht, hp⟩
    · rcases lt_or_ge p.2 r.lo with hc | hc
      · rcases hm.lo with ⟨he, -⟩ | ⟨s, hs, hsr, he⟩
        · exact absurd hp.2.1 (not_le.2 (he ▸ hc))
        · exact .inl ⟨s, hs, hp.1.trans (hm.line.trans hsr.1.symm), he ▸ hp.2.1, hsr.2 ▸ hc⟩
      · rcases lt_or_ge p.2 r.hi with hc' | hc'
        · exact .inr ⟨hp.1.trans hm.line, hc, hc'⟩
        · rcases hm.hi with ⟨he, -⟩ | ⟨s, hs, hrs, he⟩
          · exact absurd hp.2.2 (not_lt.2 (he ▸ hc'))
          · exact .inl ⟨s, hs, hp.1.trans (hm.line.trans hrs.1), hrs.2 ▸ hc', he ▸ hp.2.2⟩
  · rintro (⟨t, ht, hp⟩ | hp)
    · by_cases htr : t.Touches r
      · refine ⟨m, .inr rfl, hp.1.trans (htr.1.trans hm.line.symm), ?_, ?_⟩
        · rcases hm.lo with ⟨-, hno⟩ | ⟨s, hs, hsr, he⟩
          · exact absurd htr (hno t ht)
          · rw [he, h.eq_of_touches hs ht hsr htr]
            exact hp.2.1
        · exact hp.2.2.trans_le (htr.2.le.trans (hne.le.trans (hm.le_hi h)))
      · by_cases hrt : r.Touches t
        · refine ⟨m, .inr rfl, hp.1.trans (hrt.1.symm.trans hm.line.symm), ?_, ?_⟩
          · exact (hm.lo_le h).trans (hne.le.trans (hrt.2.le.trans hp.2.1))
          · rcases hm.hi with ⟨-, hno⟩ | ⟨s, hs, hrs, he⟩
            · exact absurd hrt (hno t ht)
            · rw [he, h.eq_of_touched hs ht hrs hrt]
              exact hp.2.2
        · exact ⟨t, .inl ⟨ht, htr, hrt⟩, hp⟩
    · exact ⟨m, .inr rfl, hp.1.trans hm.line.symm, (hm.lo_le h).trans hp.2.1, hp.2.2.trans_le (hm.le_hi h)⟩

/-! ## Taking an interval out -/

/-- What stays of `s` where the points of `r` are taken out. -/
inductive Part (s r : LineInterval L C) : LineInterval L C → Prop
  | whole (h : ¬ s.Overlaps r) : Part s r s
  | before (h : s.Overlaps r) (hlt : s.lo < r.lo) : Part s r ⟨s.line, s.lo, r.lo⟩
  | after (h : s.Overlaps r) (hlt : r.hi < s.hi) : Part s r ⟨s.line, r.hi, s.hi⟩

namespace Part

section

variable (ht : Part s r t)
include ht

theorem line : t.line = s.line := by cases ht <;> rfl

theorem lo_le : s.lo ≤ t.lo := by
  cases ht with
  | whole => exact le_rfl
  | before => exact le_rfl
  | after h => exact h.2.1.le

theorem le_hi : t.hi ≤ s.hi := by
  cases ht with
  | whole => exact le_rfl
  | before h => exact h.2.2.le
  | after => exact le_rfl

theorem lo_lt_hi (hne : s.lo < s.hi) : t.lo < t.hi := by
  cases ht with
  | whole => exact hne
  | before _ hlt => exact hlt
  | after _ hlt => exact hlt

/-- The parts of one interval are apart. -/
theorem eq_of_overlaps (hm : Part s r m) (hne : r.lo < r.hi) (ho : t.Overlaps m) : t = m := by
  cases ht with
  | whole h =>
    cases hm with
    | whole => rfl
    | before h' => exact absurd h' h
    | after h' => exact absurd h' h
  | before h =>
    cases hm with
    | whole h' => exact absurd h h'
    | before => rfl
    | after => exact absurd ho.2.2 (not_lt.2 hne.le)
  | after h =>
    cases hm with
    | whole h' => exact absurd h h'
    | before => exact absurd ho.2.1 (not_lt.2 hne.le)
    | after => rfl

theorem not_touches (hm : Part s r m) (hne : r.lo < r.hi) (hs : s.lo < s.hi) : ¬ t.Touches m := by
  rintro ⟨-, he⟩
  cases ht with
  | whole h => exact absurd (hm.lo_lt_hi hs) (not_lt.2 (hm.le_hi.trans he.le))
  | before h hlt =>
    cases hm with
    | whole h' => exact absurd h h'
    | before => exact absurd he hlt.ne'
    | after => exact absurd he hne.ne
  | after h => exact absurd (hm.lo_lt_hi hs) (not_lt.2 (hm.le_hi.trans he.le))

end

/-- The points of the parts. -/
theorem exists_mem_iff {p : L × C} : (∃ t, Part s r t ∧ p ∈ t.toSet) ↔ p ∈ s.toSet ∧ p ∉ r.toSet := by
  constructor
  · rintro ⟨t, ht, hp⟩
    refine ⟨⟨hp.1.trans ht.line, ht.lo_le.trans hp.2.1, hp.2.2.trans_le ht.le_hi⟩, fun hr => ?_⟩
    cases ht with
    | whole h => exact h (overlaps_of_mem hp hr)
    | before => exact absurd hp.2.2 (not_lt.2 hr.2.1)
    | after => exact absurd hr.2.2 (not_lt.2 hp.2.1)
  · rintro ⟨hs, hr⟩
    by_cases ho : s.Overlaps r
    · rcases lt_or_ge p.2 r.lo with hc | hc
      · exact ⟨_, .before ho (hs.2.1.trans_lt hc), hs.1, hs.2.1, hc⟩
      · have hc' : r.hi ≤ p.2 := not_lt.1 fun hlt => hr ⟨hs.1.trans ho.1, hc, hlt⟩
        exact ⟨_, .after ho (hc'.trans_lt hs.2.2), hs.1, hc', hs.2.2⟩
    · exact ⟨s, .whole ho, hs⟩

end Part

/-- What stays of a set of intervals. -/
def cutOut (S : Set (LineInterval L C)) (r : LineInterval L C) : Set (LineInterval L C) := {t | ∃ s ∈ S, Part s r t}

/-- Taking an interval out keeps the set tidy. -/
theorem Tidy.cutOut (h : Tidy S) (hne : r.lo < r.hi) : Tidy (cutOut S r) where
  nonempty := by
    rintro t ⟨s, hs, ht⟩
    exact ht.lo_lt_hi (h.nonempty s hs)
  disjoint := by
    rintro t ⟨s, hs, ht⟩ t' ⟨s', hs', ht'⟩ ho
    have hss : s = s' := h.disjoint s hs s' hs' ⟨ht.line.symm.trans (ho.1.trans ht'.line),
      ht.lo_le.trans_lt (ho.2.1.trans_le ht'.le_hi), ht'.lo_le.trans_lt (ho.2.2.trans_le ht.le_hi)⟩
    subst hss
    exact ht.eq_of_overlaps ht' hne ho
  apart := by
    rintro t ⟨s, hs, ht⟩ t' ⟨s', hs', ht'⟩ hc
    by_cases hss : s = s'
    · subst hss
      exact ht.not_touches ht' hne (h.nonempty s hs) hc
    · have hlt := ht.lo_lt_hi (h.nonempty s hs)
      have hlt' := ht'.lo_lt_hi (h.nonempty s' hs')
      rcases h.lt_or_lt hs hs' (ht.line.symm.trans (hc.1.trans ht'.line)) hss with hl | hl
      · exact absurd hc.2 (ht.le_hi.trans_lt (hl.trans_le ht'.lo_le)).ne
      · exact absurd hc.2 (hlt'.trans_le (ht'.le_hi.trans (hl.le.trans (ht.lo_le.trans hlt.le)))).ne'

/-- Taking an interval out takes its points out. -/
theorem cover_cutOut : cover (cutOut S r) = cover S \ r.toSet := by
  ext p
  constructor
  · rintro ⟨t, ⟨s, hs, ht⟩, hp⟩
    have := Part.exists_mem_iff.1 ⟨t, ht, hp⟩
    exact ⟨⟨s, hs, this.1⟩, this.2⟩
  · rintro ⟨⟨s, hs, hp⟩, hr⟩
    obtain ⟨t, ht, hp'⟩ := Part.exists_mem_iff.2 ⟨hp, hr⟩
    exact ⟨t, ⟨s, hs, ht⟩, hp'⟩

/-! ## The points of an interval inside and outside a set -/

/-- The part of `s` in `r`. -/
def meet (s r : LineInterval L C) : LineInterval L C := ⟨s.line, max s.lo r.lo, min s.hi r.hi⟩

theorem cover_meet : cover {t | ∃ s ∈ S, s.Overlaps r ∧ t = s.meet r} = r.toSet ∩ cover S := by
  ext p
  constructor
  · rintro ⟨t, ⟨s, hs, ho, rfl⟩, hp⟩
    obtain ⟨hl, h1, h2⟩ := hp
    obtain ⟨h1, h1'⟩ := max_le_iff.1 h1
    obtain ⟨h2, h2'⟩ := lt_min_iff.1 h2
    exact ⟨⟨hl.trans ho.1, h1', h2'⟩, s, hs, hl, h1, h2⟩
  · rintro ⟨hr, s, hs, hp⟩
    exact ⟨s.meet r, ⟨s, hs, overlaps_of_mem hp hr, rfl⟩, hp.1, max_le hp.2.1 hr.2.1, lt_min hp.2.2 hr.2.2⟩

/-- Walking from the cut `c` to the end of `r` past intervals in order: the gaps are what lies before
the first interval, and the gaps after it. -/
theorem toSet_diff_cover_insert {c : C} (hl : s.line = r.line) (hc : c ≤ s.hi) (hlo : s.lo ≤ r.hi)
    (hle : s.lo ≤ s.hi) (hS : ∀ t ∈ S, s.hi ≤ t.lo) :
    toSet ⟨r.line, c, r.hi⟩ \ cover (insert s S) = toSet ⟨r.line, c, s.lo⟩ ∪ toSet ⟨r.line, s.hi, r.hi⟩ \ cover S := by
  ext p
  constructor
  · rintro ⟨⟨hp, h1, h2⟩, hn⟩
    rcases lt_or_ge p.2 s.lo with h | h
    · exact .inl ⟨hp, h1, h⟩
    · have h' : s.hi ≤ p.2 := not_lt.1 fun hlt => hn ⟨s, .inl rfl, hp.trans hl.symm, h, hlt⟩
      exact .inr ⟨⟨hp, h', h2⟩, fun ⟨t, ht, hpt⟩ => hn ⟨t, .inr ht, hpt⟩⟩
  · rintro (⟨hp, h1, h2⟩ | ⟨⟨hp, h1, h2⟩, hn⟩)
    · refine ⟨⟨hp, h1, h2.trans_le hlo⟩, ?_⟩
      rintro ⟨t, rfl | ht, hpt⟩
      · exact absurd h2 (not_lt.2 hpt.2.1)
      · exact absurd h2 (not_lt.2 ((hle.trans (hS t ht)).trans hpt.2.1))
    · refine ⟨⟨hp, hc.trans h1, h2⟩, ?_⟩
      rintro ⟨t, rfl | ht, hpt⟩
      · exact absurd hpt.2.2 (not_lt.2 h1)
      · exact hn ⟨t, ht, hpt⟩

end

/-! ## Adding an interval one neighbour at a time -/

variable {S : Set (LineInterval L C)} {r s t : LineInterval L C}

/-- The two have a point in common or one begins where the other ends. -/
def Meets (r s : LineInterval L C) : Prop := r.line = s.line ∧ r.lo ≤ s.hi ∧ s.lo ≤ r.hi

/-- The interval from the first point of the two to the last one. -/
def hull (r s : LineInterval L C) : LineInterval L C := ⟨s.line, min r.lo s.lo, max s.hi r.hi⟩

/-- Two intervals that meet have the points of their hull. -/
theorem Meets.toSet_hull (h : r.Meets s) : (r.hull s).toSet = r.toSet ∪ s.toSet := by
  obtain ⟨hl, h1, h2⟩ := h
  ext p
  simp only [mem_toSet, hull, Set.mem_union, hl, min_le_iff, lt_max_iff, ← and_or_left]
  refine and_congr_right fun _ => ⟨?_, ?_⟩
  · rintro ⟨hlo, hhi⟩
    rcases lt_or_ge p.2 r.lo with hr | hr
    · exact .inr ⟨hlo.resolve_left hr.not_ge, hr.trans_le h1⟩
    · rcases lt_or_ge p.2 r.hi with hr' | hr'
      · exact .inl ⟨hr, hr'⟩
      · exact .inr ⟨h2.trans hr', hhi.resolve_right hr'.not_gt⟩
  · rintro (⟨hlo, hhi⟩ | ⟨hlo, hhi⟩)
    · exact ⟨.inl hlo, .inr hhi⟩
    · exact ⟨.inr hlo, .inl hhi⟩

/-- Merging an interval with one of the set, which is taken out, adds its points. -/
theorem Meets.cover_diff_union (h : t.Meets r) (ht : t ∈ S) :
    cover (S \ {t}) ∪ (t.hull r).toSet = cover S ∪ r.toSet := by
  have hS : S = S \ {t} ∪ {t} := by
    rw [Set.sdiff_union_self, Set.union_singleton, Set.insert_eq_of_mem ht]
  rw [h.toSet_hull, ← Set.union_assoc, ← cover_singleton t, ← cover_union, ← hS]

/-- Adding an interval that meets none keeps the set tidy. -/
theorem Tidy.insert (h : Tidy S) (hne : r.lo < r.hi) (hr : ∀ t ∈ S, ¬ t.Meets r) : Tidy (insert r S) where
  nonempty := by
    rintro t (rfl | ht)
    · exact hne
    · exact h.nonempty t ht
  disjoint := by
    rintro t (rfl | ht) s (rfl | hs) ho
    · rfl
    · exact absurd ⟨ho.1.symm, ho.2.2.le, ho.2.1.le⟩ (hr s hs)
    · exact absurd ⟨ho.1, ho.2.1.le, ho.2.2.le⟩ (hr t ht)
    · exact h.disjoint t ht s hs ho
  apart := by
    rintro t (rfl | ht) s (rfl | hs) ho
    · exact hne.ne ho.2.symm
    · exact hr s hs ⟨ho.1.symm, ho.2.ge, hne.le.trans (ho.2.trans_le (h.nonempty s hs).le)⟩
    · exact hr t ht ⟨ho.1, (h.nonempty t ht).le.trans (ho.2.trans_le hne.le), ho.2.ge⟩
    · exact h.apart t ht s hs ho

/-- A tidy set has the points of an interval only in one piece. -/
theorem Tidy.toSet_subset_cover_iff (h : Tidy S) (hne : r.lo < r.hi) :
    r.toSet ⊆ cover S ↔ ∃ s ∈ S, s.line = r.line ∧ s.lo ≤ r.lo ∧ r.hi ≤ s.hi := by
  constructor
  · intro hsub
    obtain ⟨s, hs, hl, hlo, hhi⟩ := hsub (show (r.line, r.lo) ∈ r.toSet from ⟨rfl, le_rfl, hne⟩)
    refine ⟨s, hs, hl.symm, hlo, not_lt.1 fun hlt => ?_⟩
    -- the end of `s` would be covered by another interval, which touches or overlaps it
    obtain ⟨t, ht, hl', hlo', hhi'⟩ := hsub (show (r.line, s.hi) ∈ r.toSet from ⟨rfl, hhi.le, hlt⟩)
    have hst : s ≠ t := by
      rintro rfl
      exact lt_irrefl _ hhi'
    rcases h.lt_or_lt hs ht (hl.symm.trans hl') hst with hc | hc
    · exact absurd hlo' hc.not_ge
    · exact absurd (hhi'.trans hc) (h.nonempty s hs).le.not_gt
  · rintro ⟨s, hs, hl, hlo, hhi⟩ p hp
    exact ⟨s, hs, hp.1.trans hl.symm, hlo.trans hp.2.1, hp.2.2.trans_le hhi⟩

end LineInterval
