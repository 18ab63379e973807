import Ufora.Containers.TwoWaySetMap
import Ufora.Pages.Basic
import Mathlib.Algebra.Order.BigOperators.Group.Finset

/-!
# Byte totals

The bytes of a set of pages, and how they change with the pages that a key is related to. Byte counts
are exact integers.
-/

open Finset

namespace Fora

/-- The bytes of a set of pages. -/
def totalBytecount (pages : Finset PageId) : ℤ := ∑ p ∈ pages, (p.bytecount : ℤ)

variable {pages pages' : Finset PageId} {p : PageId}

@[simp] theorem totalBytecount_empty : totalBytecount ∅ = 0 := sum_empty

theorem totalBytecount_insert (h : p ∉ pages) :
    totalBytecount (insert p pages) = totalBytecount pages + p.bytecount := by
  rw [totalBytecount, sum_insert h, add_comm]
  rfl

theorem totalBytecount_erase (h : p ∈ pages) : totalBytecount (pages.erase p) = totalBytecount pages - p.bytecount := by
  have hsum := add_sum_erase pages (fun p => (p.bytecount : ℤ)) h
  unfold totalBytecount
  omega

theorem totalBytecount_union (h : Disjoint pages pages') :
    totalBytecount (pages ∪ pages') = totalBytecount pages + totalBytecount pages' :=
  sum_union h

theorem totalBytecount_sdiff (h : pages' ⊆ pages) :
    totalBytecount (pages \ pages') = totalBytecount pages - totalBytecount pages' := by
  have hsum := sum_sdiff (f := fun p : PageId => (p.bytecount : ℤ)) h
  unfold totalBytecount
  omega

end Fora

namespace TwoWaySetMap

open Fora

section
variable {K V : Type*} [DecidableEq K] [DecidableEq V] {m : TwoWaySetMap K V} {k k' : K} {v : V}

theorem getValues_empty : (∅ : TwoWaySetMap K V).getValues k = ∅ := by
  ext v
  simp

theorem getValues_insert : (m.insert k v).getValues k' =
    if k' = k then Insert.insert v (m.getValues k') else m.getValues k' := by
  ext v'
  split <;> simp_all

theorem getValues_drop : (m.drop k v).getValues k' = if k' = k then (m.getValues k').erase v else m.getValues k' := by
  ext v'
  split <;> simp_all [and_comm]

end

section
variable {K V : Type*} [LinearOrder K] [LinearOrder V] {m : TwoWaySetMap K V} {k : K} {v : V}

theorem getValues_dropKey {k' : K} : (m.dropKey k).getValues k' = if k' = k then ∅ else m.getValues k' := by
  ext v
  split <;> simp_all

theorem getValues_dropValue : (m.dropValue v).getValues k = (m.getValues k).erase v := by
  ext v'
  simp [and_comm]

end

variable {K : Type*} [LinearOrder K]

/-- The bytes of the pages of a key. -/
def bytesOf (m : TwoWaySetMap K PageId) (k : K) : ℤ := totalBytecount (m.getValues k)

variable {m : TwoWaySetMap K PageId} {k k' : K} {p : PageId}

theorem bytesOf_insert (h : ¬ m.contains k p) :
    (m.insert k p).bytesOf k' = m.bytesOf k' + if k' = k then (p.bytecount : ℤ) else 0 := by
  unfold bytesOf
  rw [getValues_insert]
  split
  · subst k'
    exact totalBytecount_insert h
  · exact (add_zero _).symm

theorem bytesOf_drop (h : m.contains k p) :
    (m.drop k p).bytesOf k' = m.bytesOf k' - if k' = k then (p.bytecount : ℤ) else 0 := by
  unfold bytesOf
  rw [getValues_drop]
  split
  · subst k'
    exact totalBytecount_erase h
  · exact (sub_zero _).symm

theorem bytesOf_dropValue : (m.dropValue p).bytesOf k =
    m.bytesOf k - if m.contains k p then (p.bytecount : ℤ) else 0 := by
  unfold bytesOf
  rw [getValues_dropValue]
  split
  · next h => exact totalBytecount_erase h
  · next h => rw [erase_eq_of_notMem h, sub_zero]

end TwoWaySetMap
