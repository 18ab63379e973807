import Ufora.Lib.Ordered
import Mathlib.Algebra.Order.BigOperators.Group.Finset

/-!
# Totals over a map

`StdMap.total w m` adds up the weights of the entries of a map. A missing entry has the default value, and
where that weighs nothing a change of one entry changes the total by the difference of its weights, whether
there was an entry or not (`total_insert`, `total_erase`).
-/

open Finset Finmap

namespace Ordered.StdMap

variable {κ ν M : Type*} [DecidableEq κ] [Inhabited ν]

section
variable [AddCommMonoid M] {w : κ → ν → M} {m : StdMap κ ν} {k : κ} {v : ν}

/-- The sum of the weights of the entries. -/
def total (w : κ → ν → M) (m : StdMap κ ν) : M := ∑ k ∈ m.keys, w k (m.get k)

@[simp] theorem total_empty : total w (∅ : StdMap κ ν) = 0 := by
  rw [total, keys_empty, sum_empty]

/-- The entries other than one keep their weights when that one changes. -/
theorem sum_erase_congr {m m' : StdMap κ ν} (h : ∀ k', k' ≠ k → m'.get k' = m.get k')
    (hk : m'.keys.erase k = m.keys.erase k) :
    ∑ k' ∈ m'.keys.erase k, w k' (m'.get k') = ∑ k' ∈ m.keys.erase k, w k' (m.get k') := by
  rw [hk]
  exact sum_congr rfl fun k' hk' => by rw [h k' (ne_of_mem_erase hk')]

/-- An entry's weight and those of the others. -/
theorem total_eq_add (h0 : ∀ k, w k default = 0) (m : StdMap κ ν) (k : κ) :
    total w m = w k (m.get k) + ∑ k' ∈ m.keys.erase k, w k' (m.get k') := by
  by_cases hk : k ∈ m.keys
  · exact (add_sum_erase _ _ hk).symm
  · rw [erase_eq_of_notMem hk, get_of_notMem (mem_keys.not.1 hk), h0, zero_add, total]

/-- The weight of the old value leaves the total and that of the new one comes to it. -/
theorem total_insert (h0 : ∀ k, w k default = 0) :
    total w (Finmap.insert k v m) + w k (m.get k) = total w m + w k v := by
  have hkeys : (Finmap.insert k v m).keys.erase k = m.keys.erase k := by
    ext k'
    simp only [Finset.mem_erase, mem_keys, Finmap.mem_insert]
    tauto
  have hget : ∀ k', k' ≠ k → StdMap.get (insert k v m) k' = m.get k' := fun k' hk' => by
    rw [get_insert, if_neg hk']
  rw [total_eq_add h0 (insert k v m) k, total_eq_add h0 m k, sum_erase_congr hget hkeys,
    get_insert, if_pos rfl, add_comm, add_comm (w k v), ← add_assoc]

/-- The weight of an entry that goes leaves the total. -/
theorem total_erase (h0 : ∀ k, w k default = 0) : total w (erase k m) + w k (m.get k) = total w m := by
  have hkeys : (erase k m).keys.erase k = m.keys.erase k := by
    rw [keys_erase, erase_idem]
  have hget : ∀ k', k' ≠ k → StdMap.get (erase k m) k' = m.get k' := fun k' hk' => by
    rw [get_erase, if_neg hk']
  rw [total_eq_add h0 (erase k m) k, total_eq_add h0 m k, sum_erase_congr hget hkeys,
    get_erase, if_pos rfl, h0, zero_add, add_comm]

end

/-- No entry weighs more than all of them. -/
theorem le_total {w : κ → ν → ℕ} (h0 : ∀ k, w k default = 0) (m : StdMap κ ν) (k : κ) : w k (m.get k) ≤ total w m := by
  rw [total_eq_add h0 m k]
  exact Nat.le_add_right _ _

end Ordered.StdMap
