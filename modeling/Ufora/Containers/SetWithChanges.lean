import Ufora.Lib.Changes

/-!
# `SetWithChanges`

`core/containers/SetWithChanges.hpp`: a set, with what was added to it and dropped from it since the
changes were extracted last. What is extracted makes the set as it was into the set as it is
(`SetWithChanges.Follows`).
-/

open Finset Changes

/-- A `SetWithChanges`. -/
structure SetWithChanges (T : Type*) where
  mElements : Finset T := ∅
  mAdded : Finset T := ∅
  mDropped : Finset T := ∅

namespace SetWithChanges

variable {T : Type*} [DecidableEq T] (s : SetWithChanges T)

/-- `contains(in)`. -/
def contains (x : T) : Prop := x ∈ s.mElements

instance (s : SetWithChanges T) (x : T) : Decidable (s.contains x) := inferInstanceAs (Decidable (_ ∈ _))

/-- `insert(in)`. -/
def insert (s : SetWithChanges T) (x : T) : SetWithChanges T :=
  if s.contains x then s
  else
    let s := { s with mElements := Insert.insert x s.mElements }
    if x ∈ s.mDropped then { s with mDropped := s.mDropped.erase x }
    else { s with mAdded := Insert.insert x s.mAdded }

/-- `erase(in)`. -/
def erase (s : SetWithChanges T) (x : T) : SetWithChanges T :=
  if s.contains x then
    let s := { s with mElements := s.mElements.erase x }
    if x ∈ s.mAdded then { s with mAdded := s.mAdded.erase x }
    else { s with mDropped := Insert.insert x s.mDropped }
  else s

/-- `extractChanges(outAdded, outDropped)`: the changes and the set without them. -/
def extractChanges : Changes T × SetWithChanges T := (⟨s.mAdded, s.mDropped⟩, { s with mAdded := ∅, mDropped := ∅ })

/-- `removeFromTrackingSet(in)`. -/
def removeFromTrackingSet (x : T) : SetWithChanges T :=
  { s with mAdded := s.mAdded.erase x, mDropped := s.mDropped.erase x }

/-- The changes that would be extracted. -/
def changes : Changes T := s.extractChanges.1

variable {s} {x y : T}

@[simp] theorem mElements_insert : (s.insert y).mElements = Insert.insert y s.mElements := by
  unfold insert
  split
  · next h => exact (insert_eq_of_mem h).symm
  · dsimp only
    split <;> rfl

@[simp] theorem mElements_erase : (s.erase y).mElements = s.mElements.erase y := by
  unfold erase
  split
  · dsimp only
    split <;> rfl
  · next h => exact (erase_eq_of_notMem h).symm

@[simp] theorem mElements_removeFromTrackingSet : (s.removeFromTrackingSet y).mElements = s.mElements := rfl

theorem contains_insert : (s.insert y).contains x ↔ x = y ∨ s.contains x := by
  unfold contains
  rw [mElements_insert, mem_insert]

theorem contains_erase : (s.erase y).contains x ↔ x ≠ y ∧ s.contains x := by
  unfold contains
  rw [mElements_erase, mem_erase]

theorem changes_insert (h : ¬ s.contains y) : (s.insert y).changes = s.changes.add y := by
  unfold insert
  rw [if_neg h]
  dsimp only
  split
  · next hy => exact (if_pos hy).symm
  · next hy => exact (if_neg hy).symm

theorem changes_erase (h : s.contains y) : (s.erase y).changes = s.changes.drop y := by
  unfold erase
  rw [if_pos h]
  dsimp only
  split
  · next hy => exact (if_pos hy).symm
  · next hy => exact (if_neg hy).symm

/-- The changes that would be extracted lead from one set to the elements. -/
def Follows (s : SetWithChanges T) (base : Finset T) : Prop := ∀ x, s.changes.NetAt base s.mElements x

variable {base : Finset T}

omit [DecidableEq T] in
theorem follows_empty : ({} : SetWithChanges T).Follows ∅ := fun _ => netAt_empty

theorem Follows.insert (h : s.Follows base) : (s.insert y).Follows base := by
  by_cases hy : s.contains y
  · unfold SetWithChanges.insert
    rw [if_pos hy]
    exact h
  · intro x
    rw [changes_insert hy, mElements_insert]
    exact (h x).add hy

theorem Follows.erase (h : s.Follows base) : (s.erase y).Follows base := by
  by_cases hy : s.contains y
  · intro x
    rw [changes_erase hy, mElements_erase]
    exact (h x).drop hy
  · unfold SetWithChanges.erase
    rw [if_neg hy]
    exact h

/-- What is extracted leads to the elements, which are followed from there. -/
theorem Follows.extractChanges (h : s.Follows base) :
    s.extractChanges.1.apply base = s.mElements ∧ s.extractChanges.2.Follows s.mElements :=
  ⟨apply_eq h, fun _ => netAt_empty⟩

end SetWithChanges
