import Ufora.SharedState.KeyRangeSet

/-!
# What a `KeyRangeSet` denotes

The sets that `insert` and `erase` build denote sets of names, each with its keyspace and dimension,
and the operations of `KeyRangeSet` are those on sets. Where the ranges of each keyspace are of one
dimension, they denote sets of keys in the same way (`denotes_of_run`).
-/

open Ordered Option Finset SharedState.KeyRange

namespace SharedState.KeyRangeSet

variable {Json : Type} [LinearOrder Json]

/-! ## The sets that calls build -/

/-- The operations are those on the sets that the ranges denote: `insert` is union, `erase` is
difference, `difference` and `intersection` split a range. -/
structure Denotes {α : Type} (valid : KeyRange Json → Prop) (den : KeyRange Json → Set α)
    (s : KeyRangeSet Json) : Prop where
  insert : ∀ range, valid range → (∀ t ∈ s.mRanges, ¬ t.Overlaps range) →
    ∃ s', s.insert range = some s' ∧ union den s'.mRanges = union den s.mRanges ∪ den range
  erase : ∀ range, valid range → union den (s.erase range).mRanges = union den s.mRanges \ den range
  difference : ∀ range, valid range → union den (s.difference range) = den range \ union den s.mRanges
  intersection : ∀ range, valid range → union den (s.intersection range) = den range ∩ union den s.mRanges

/-- No two ranges overlap, and none ends at the bound where another one begins. -/
def Separate (s : KeyRangeSet Json) : Prop :=
  (∀ r ∈ s.mRanges, ∀ t ∈ s.mRanges, r ≠ t → ¬ r.Overlaps t) ∧ ∀ r ∈ s.mRanges, ∀ t ∈ s.mRanges,
      ¬ (r.SameKeyspaceAndDimension t ∧ r.right.isSome ∧ r.right = t.left)

variable {s s' : KeyRangeSet Json} {range : KeyRange Json} {ops : List (Op Json)}

theorem tidy_empty : Tidy ({} : KeyRangeSet Json) := by
  have he : intervals (∅ : Finset (KeyRange Json)) = ∅ := by
    ext i
    simp [intervals]
  show LineInterval.Tidy (intervals (∅ : Finset (KeyRange Json)))
  rw [he]
  exact LineInterval.tidy_empty

/-- A call with a range that is not empty keeps a set tidy. -/
theorem Tidy.step {op : Op Json} (h : Tidy s) (hne : op.range.Nonempty) (hs : s.step op = some s') : Tidy s' := by
  cases op with
  | insert range => exact h.insert hs hne
  | erase range =>
    cases hs
    exact h.erase hne

/-- Calls with ranges that are not empty build tidy sets. -/
theorem tidy_of_run (h : Tidy s) (hne : ∀ op ∈ ops, op.range.Nonempty)
    (hs : Run.run step s ops = some s') : Tidy s' := by
  induction ops generalizing s with
  | nil =>
    cases hs
    exact h
  | cons op ops ih =>
    rw [List.forall_mem_cons] at hne
    rw [Run.run_cons, bind_eq_some_iff] at hs
    obtain ⟨t, ht, hs⟩ := hs
    exact ih (h.step hne.1 ht) hne.2 hs

theorem Tidy.separate (h : Tidy s) : s.Separate := by
  refine ⟨fun r hr t ht hne ho => hne ?_, fun r hr t ht hc => ?_⟩
  · exact interval_injective
      (h.disjoint _ (mem_intervals hr) _ (mem_intervals ht) (overlaps_iff.1 ho))
  · obtain ⟨⟨hi, hk⟩, hsome, he⟩ := hc
    refine h.apart _ (mem_intervals hr) _ (mem_intervals ht) ⟨Prod.ext hk hi, ?_⟩
    obtain ⟨b, hb⟩ := isSome_iff_exists.1 hsome
    rw [interval, interval, ← he, hb]
    rfl

/-- A tidy set denotes the names in its ranges. -/
theorem Tidy.denotes_names (h : Tidy s) : Denotes KeyRange.Nonempty KeyRange.names s where
  insert range hne ho := by
    obtain ⟨s', hi⟩ := exists_insert ho
    exact ⟨s', hi, h.names_insert hi hne⟩
  erase _ _ := h.names_erase
  difference _ _ := h.names_difference
  intersection _ _ := h.names_intersection

/-! ### Sets of keys

A key has a name in every dimension of its keyspace, so ranges of several dimensions may share keys
without overlapping. Where all the ranges of a keyspace are of one dimension, a set of names is a
set of keys. -/

variable (d : Keyspace Json → ℕ)

/-- The range is of the dimension `d` of its keyspace, which has one. -/
def OfDimension (r : KeyRange Json) : Prop := r.index = d r.keyspace ∧ r.InDimension

/-- The lines of these ranges. -/
def OfLine (l : Keyspace Json × ℕ) : Prop := l.2 = d l.1 ∧ l.2 < l.1.dimension

/-- Which lines a set has ranges on. -/
def OnLines (P : Keyspace Json × ℕ → Prop) (ranges : Finset (KeyRange Json)) : Prop := ∀ r ∈ ranges, P r.interval.line

variable {P : Keyspace Json × ℕ → Prop}

theorem Tidy.onLines_insert (h : Tidy s)
    (hP : OnLines P s.mRanges) (hr : P range.interval.line) (hi : s.insert range = some s') :
    OnLines P s'.mRanges := by
  obtain ⟨-, m, hm, he⟩ := h.insert_spec hi
  intro t ht
  have hmem := mem_intervals ht
  rw [he] at hmem
  rcases hmem with ⟨⟨r, hr, hrt⟩, -⟩ | hm'
  · exact hrt ▸ hP r hr
  · rw [hm', hm.line]
    exact hr

theorem Tidy.onLines_erase (h : Tidy s) (hP : OnLines P s.mRanges) : OnLines P (s.erase range).mRanges := by
  intro t ht
  have hmem := mem_intervals ht
  rw [h.intervals_erase] at hmem
  obtain ⟨_, ⟨r, hr, rfl⟩, hp⟩ := hmem
  rw [hp.line]
  exact hP r hr

theorem onLines_foldl_gap {l : List (KeyRange Json)}
    {p : Option (KeyBound Json) × Finset (KeyRange Json)} (hr : P range.interval.line)
    (hp : OnLines P p.2) : OnLines P (l.foldl (gap range) p).2 := by
  induction l generalizing p with
  | nil => exact hp
  | cons a l ih =>
    refine ih ?_
    unfold gap
    split
    · intro t ht
      rcases mem_insert.1 ht with rfl | ht
      · exact hr
      · exact hp t ht
    · exact hp

theorem onLines_difference (hr : P range.interval.line) : OnLines P (s.difference range) := by
  unfold difference
  split
  · intro t ht
    rw [mem_singleton.1 ht]
    exact hr
  · next first rest ho =>
    have hloop : OnLines P ((first :: rest).foldl (gap range) (range.left, ∅)).2 :=
      onLines_foldl_gap hr fun t ht => absurd ht (notMem_empty t)
    simp only
    split
    · intro t ht
      rcases mem_insert.1 ht with rfl | ht
      · exact hr
      · exact hloop t ht
    · exact hloop

theorem Tidy.onLines_intersection (h : Tidy s) (hP : OnLines P s.mRanges) : OnLines P (s.intersection range) := by
  intro t ht
  rw [h.intersection_eq] at ht
  obtain ⟨r, hr, rfl⟩ := List.mem_map.1 (List.mem_toFinset.1 ht)
  rw [interval_trim]
  exact hP r (h.mem_overlaps.1 hr).1

/-- The keys whose name in the dimension `d` is in a set of names. -/
def keysNamed (names : Set (Keyspace Json × ℕ × Json)) : Set (Key Json) :=
  {k | ∃ name, k.atDimension (d k.keyspace) = some name ∧ (k.keyspace, d k.keyspace, name) ∈ names}

variable {d} {N M : Set (Keyspace Json × ℕ × Json)}

omit [LinearOrder Json] in
theorem keysNamed_union : keysNamed d (N ∪ M) = keysNamed d N ∪ keysNamed d M := by
  ext k
  constructor
  · rintro ⟨name, hname, h | h⟩
    · exact .inl ⟨name, hname, h⟩
    · exact .inr ⟨name, hname, h⟩
  · rintro (⟨name, hname, h⟩ | ⟨name, hname, h⟩)
    · exact ⟨name, hname, .inl h⟩
    · exact ⟨name, hname, .inr h⟩

omit [LinearOrder Json] in
theorem keysNamed_inter : keysNamed d (N ∩ M) = keysNamed d N ∩ keysNamed d M := by
  ext k
  constructor
  · rintro ⟨name, hname, h⟩
    exact ⟨⟨name, hname, h.1⟩, name, hname, h.2⟩
  · rintro ⟨⟨name, hname, h⟩, name', hname', h'⟩
    obtain rfl := some.inj (hname.symm.trans hname')
    exact ⟨name, hname, h, h'⟩

omit [LinearOrder Json] in
theorem keysNamed_sdiff : keysNamed d (N \ M) = keysNamed d N \ keysNamed d M := by
  ext k
  constructor
  · rintro ⟨name, hname, h⟩
    refine ⟨⟨name, hname, h.1⟩, ?_⟩
    rintro ⟨name', hname', h'⟩
    obtain rfl := some.inj (hname.symm.trans hname')
    exact h.2 h'
  · rintro ⟨⟨name, hname, h⟩, hn⟩
    exact ⟨name, hname, h, fun h' => hn ⟨name, hname, h'⟩⟩

/-- The keys that a range contains, by their names. -/
theorem keys_eq {r : KeyRange Json} (hr : OfDimension d r) : r.keys = keysNamed d r.names := by
  ext k
  obtain ⟨b, hb, hiff⟩ := contains_spec hr.2 k
  have hk : k ∈ r.keys ↔ b = true := by
    rw [keys, Set.mem_ofPred_eq, hb, some_inj]
  rw [hk, hiff]
  constructor
  · rintro ⟨name, hname, hmem⟩
    have he : r.index = d k.keyspace := hr.1.trans (congrArg d hmem.1.symm)
    rw [he] at hname hmem
    exact ⟨name, hname, hmem⟩
  · rintro ⟨name, hname, hmem⟩
    have he : d k.keyspace = r.index := hmem.2.1
    rw [he] at hname hmem
    exact ⟨name, hname, hmem⟩

theorem union_keys_eq {ranges : Finset (KeyRange Json)} (hr : ∀ r ∈ ranges, OfDimension d r) :
    union keys ranges = keysNamed d (names ranges) := by
  ext k
  constructor
  · rintro ⟨r, hr', hk⟩
    rw [keys_eq (hr r hr')] at hk
    obtain ⟨name, hname, hmem⟩ := hk
    exact ⟨name, hname, r, hr', hmem⟩
  · rintro ⟨name, hname, r, hr', hmem⟩
    refine ⟨r, hr', ?_⟩
    rw [keys_eq (hr r hr')]
    exact ⟨name, hname, hmem⟩

/-- A tidy set of ranges of one dimension of each keyspace denotes keys. -/
theorem Tidy.denotes_keys (h : Tidy s) (hd : ∀ r ∈ s.mRanges, OfDimension d r) :
    Denotes (fun r => r.Nonempty ∧ OfDimension d r) keys s where
  insert range hr ho := by
    obtain ⟨s', hi⟩ := exists_insert ho
    refine ⟨s', hi, ?_⟩
    rw [union_keys_eq (h.onLines_insert (P := OfLine d) hd hr.2 hi),
      union_keys_eq hd, keys_eq hr.2, h.names_insert hi hr.1, keysNamed_union]
  erase range hr := by
    rw [union_keys_eq (h.onLines_erase (P := OfLine d) hd),
      union_keys_eq hd, keys_eq hr.2, h.names_erase, keysNamed_sdiff]
  difference range hr := by
    rw [union_keys_eq (onLines_difference (P := OfLine d) hr.2),
      union_keys_eq hd, keys_eq hr.2, h.names_difference, keysNamed_sdiff]
  intersection range hr := by
    rw [union_keys_eq (h.onLines_intersection (P := OfLine d) hd),
      union_keys_eq hd, keys_eq hr.2, h.names_intersection, keysNamed_inter]

/-- Calls with ranges of one dimension of each keyspace build sets of such ranges. -/
theorem ofDimension_of_run (h : Tidy s) (hne : ∀ op ∈ ops, op.range.Nonempty)
    (hd : ∀ op ∈ ops, OfDimension d op.range) (hs0 : ∀ r ∈ s.mRanges, OfDimension d r)
    (hs : Run.run step s ops = some s') : ∀ r ∈ s'.mRanges, OfDimension d r := by
  induction ops generalizing s with
  | nil =>
    cases hs
    exact hs0
  | cons op ops ih =>
    rw [List.forall_mem_cons] at hne hd
    rw [Run.run_cons, bind_eq_some_iff] at hs
    obtain ⟨t, ht, hs⟩ := hs
    refine ih (h.step hne.1 ht) hne.2 hd.2 ?_ hs
    cases op with
    | insert range => exact h.onLines_insert (P := OfLine d) hs0 hd.1 ht
    | erase range =>
      cases ht
      exact h.onLines_erase (P := OfLine d) hs0

/-- `containsKey` agrees with membership where the ranges of a keyspace are of one dimension. -/
theorem containsKey_keys (hd : ∀ r ∈ s.mRanges, OfDimension d r) (inKey : Key Json) :
    ∃ b, s.containsKey inKey = some b ∧ (b = true ↔ inKey ∈ union keys s.mRanges) := by
  obtain ⟨b, hb, hiff⟩ := @containsKey_spec _ _ _ inKey fun r hr => (hd r hr).2
  refine ⟨b, hb, ?_⟩
  rw [hiff, union_keys_eq hd]
  constructor
  · rintro ⟨ix, name, hname, r, hr, hmem⟩
    have hix : ix = d inKey.keyspace := hmem.2.1.trans ((hd r hr).1.trans (congrArg d hmem.1.symm))
    subst hix
    exact ⟨name, hname, r, hr, hmem⟩
  · rintro ⟨name, hname, hmem⟩
    exact ⟨_, name, hname, hmem⟩

/-- In a set that calls with ranges that are not empty have built, the ranges are disjoint and
coalesced, and the operations are those on sets of names, each with its keyspace and dimension. Where
all the ranges of a keyspace are of one of its dimensions, they are those on sets of keys. -/
theorem denotes_of_run (ops : List (Op Json)) (s : KeyRangeSet Json)
    (hne : ∀ op ∈ ops, op.range.Nonempty) (hs : Run.run step {} ops = some s) :
    s.Separate ∧ Denotes KeyRange.Nonempty KeyRange.names s ∧
      ((∀ r ∈ s.mRanges, r.InDimension) → ∀ inKey, ∃ b, s.containsKey inKey = some b ∧
        (b = true ↔ ∃ ix name, inKey.atDimension ix = some name ∧ (inKey.keyspace, ix, name) ∈ names s.mRanges)) ∧
      ∀ d, (∀ op ∈ ops, OfDimension d op.range) → Denotes (fun r => r.Nonempty ∧ OfDimension d r) KeyRange.keys s ∧
        ∀ inKey, ∃ b, s.containsKey inKey = some b ∧ (b = true ↔ inKey ∈ union KeyRange.keys s.mRanges) := by
  have h : Tidy s := tidy_of_run tidy_empty hne hs
  refine ⟨h.separate, h.denotes_names, fun hd inKey => containsKey_spec hd, fun d hd => ?_⟩
  have hof : ∀ r ∈ s.mRanges, OfDimension d r :=
    ofDimension_of_run tidy_empty hne hd (fun r hr => absurd hr (notMem_empty r)) hs
  exact ⟨h.denotes_keys hof, containsKey_keys hof⟩

/-- All the names in one dimension of a keyspace with two dimensions. -/
def plane (index : ℕ) : KeyRange ℕ := ⟨⟨.comparisonKeyType, 0, 2⟩, index, none, none⟩

/-- The theorem at a run that takes the name 1 out of a range. -/
theorem denotes_of_run_hole :
    Separate ⟨{{ plane 0 with right := some ⟨1, true⟩ }, { plane 0 with left := some ⟨1, false⟩ }}⟩ ∧
      Denotes KeyRange.Nonempty KeyRange.names
        ⟨{{ plane 0 with right := some ⟨1, true⟩ }, { plane 0 with left := some ⟨1, false⟩ }}⟩ := by
  have h := denotes_of_run [.insert (plane 0), .erase { plane 0 with left := some ⟨1, true⟩, right := some ⟨1, false⟩ }]
    ⟨{{ plane 0 with right := some ⟨1, true⟩ }, { plane 0 with left := some ⟨1, false⟩ }}⟩
    (by decide) (by decide)
  exact ⟨h.1, h.2.1⟩

/-- A set of ranges does not denote a set of keys where it has ranges of two dimensions: `erase` takes
a range out, but a key in it stays in a range of the other dimension. -/
theorem not_denotes_keys : ¬ ∀ (ops : List (Op ℕ)) (s : KeyRangeSet ℕ),
    (∀ op ∈ ops, op.range.Nonempty) → Run.run step {} ops = some s → Denotes Nonempty keys s := by
  intro h
  have hd := h [.insert (plane 0), .insert (plane 1)] ⟨{plane 0, plane 1}⟩ (by decide) (by decide)
  have herase := hd.erase (plane 0) (by decide)
  let origin : Key ℕ := ⟨(plane 0).keyspace, [0, 0], rfl⟩
  have hkeep : origin ∈ union keys
      (erase ⟨{plane 0, plane 1}⟩ (plane 0)).mRanges := ⟨plane 1, by decide, rfl⟩
  rw [herase] at hkeep
  exact hkeep.2 rfl

end SharedState.KeyRangeSet
