import Mathlib.Data.Finset.Basic

/-!
# Net changes of a set

A set that is followed from outside comes with the elements that were added to it and dropped from it
since the last report. An addition takes back an unreported drop of the same element and the other way
round, so that what is reported is the difference between the set then (`base`) and the set now
(`current`). `NetAt` says so of a single element: of some elements it may not hold, where these are not
followed any more.
-/

open Finset

/-- What was added to a set and dropped from it. -/
structure Changes (α : Type*) where
  added : Finset α
  dropped : Finset α

namespace Changes

variable {α : Type*} [DecidableEq α] (c : Changes α)

/-- An element is added. -/
def add (x : α) : Changes α :=
  if x ∈ c.dropped then { c with dropped := c.dropped.erase x }
  else { c with added := insert x c.added }

/-- An element is dropped. -/
def drop (x : α) : Changes α :=
  if x ∈ c.added then { c with added := c.added.erase x }
  else { c with dropped := insert x c.dropped }

/-- An element is not followed any more. -/
def forget (x : α) : Changes α := ⟨c.added.erase x, c.dropped.erase x⟩

/-- A set with the changes made. -/
def apply (base : Finset α) : Finset α := (base \ c.dropped) ∪ c.added

/-- Of this element, the changes are the difference between two sets. -/
structure NetAt (c : Changes α) (base current : Finset α) (x : α) : Prop where
  added : x ∈ c.added ↔ x ∈ current ∧ x ∉ base
  dropped : x ∈ c.dropped ↔ x ∈ base ∧ x ∉ current

variable {c} {base current current' : Finset α} {x y : α}

theorem NetAt.mem_apply (h : c.NetAt base current x) : x ∈ c.apply base ↔ x ∈ current := by
  rw [apply, mem_union, mem_sdiff, h.added, h.dropped]
  by_cases hb : x ∈ base
  · simp [hb]
  · simp [hb]

/-- Where all changes are net, they make the one set into the other. -/
theorem apply_eq (h : ∀ x, c.NetAt base current x) : c.apply base = current := Finset.ext fun x => (h x).mem_apply

omit [DecidableEq α] in
/-- Nothing has changed of an element that both sets have or both do not have. -/
theorem netAt_of_eq (h : x ∈ base ↔ x ∈ current) : (⟨∅, ∅⟩ : Changes α).NetAt base current x := by
  constructor
  · simp [h]
  · simp [h]

omit [DecidableEq α] in
/-- Nothing has changed since a report. -/
theorem netAt_empty : (⟨∅, ∅⟩ : Changes α).NetAt current current x := netAt_of_eq Iff.rfl

theorem mem_added_add : x ∈ (c.add y).added ↔ x ∈ c.added ∨ x = y ∧ y ∉ c.dropped := by
  unfold add
  split
  · simp [*]
  · rename_i hy
    rw [mem_insert, or_comm]
    simp [hy]

theorem mem_dropped_add : x ∈ (c.add y).dropped ↔ x ∈ c.dropped ∧ x ≠ y := by
  unfold add
  split
  · rw [mem_erase, and_comm]
  · rename_i hy
    refine (and_iff_left_of_imp fun hx heq => hy ?_).symm
    exact heq ▸ hx

theorem mem_dropped_drop : x ∈ (c.drop y).dropped ↔ x ∈ c.dropped ∨ x = y ∧ y ∉ c.added := by
  unfold drop
  split
  · simp [*]
  · rename_i hy
    rw [mem_insert, or_comm]
    simp [hy]

theorem mem_added_drop : x ∈ (c.drop y).added ↔ x ∈ c.added ∧ x ≠ y := by
  unfold drop
  split
  · rw [mem_erase, and_comm]
  · rename_i hy
    refine (and_iff_left_of_imp fun hx heq => hy ?_).symm
    exact heq ▸ hx

/-- A new element is added. -/
theorem NetAt.add (h : c.NetAt base current x) (hy : y ∉ current) : (c.add y).NetAt base (insert y current) x := by
  by_cases hx : x = y
  · subst hx
    constructor
    · rw [mem_added_add, h.added, h.dropped]
      simp [hy]
    · rw [mem_dropped_add]
      simp
  · constructor
    · rw [mem_added_add, h.added]
      simp [hx]
    · rw [mem_dropped_add, h.dropped]
      simp [hx]

/-- An element is dropped. -/
theorem NetAt.drop (h : c.NetAt base current x) (hy : y ∈ current) : (c.drop y).NetAt base (current.erase y) x := by
  by_cases hx : x = y
  · subst hx
    constructor
    · rw [mem_added_drop]
      simp
    · rw [mem_dropped_drop, h.added, h.dropped]
      simp [hy]
  · constructor
    · rw [mem_added_drop, h.added]
      simp [hx]
    · rw [mem_dropped_drop, h.dropped]
      simp [hx]

/-- The other elements are followed still. -/
theorem NetAt.forget (h : c.NetAt base current x) (hx : x ≠ y) : (c.forget y).NetAt base (current.erase y) x := by
  constructor
  · simp [Changes.forget, hx, h.added]
  · simp [Changes.forget, hx, h.dropped]

end Changes
