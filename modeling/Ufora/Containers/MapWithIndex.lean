import Ufora.Containers.TwoWaySetMap

/-!
# `MapWithIndex`

`core/containers/MapWithIndex.hpp`: a map from keys to values held together with the set of keys of
each value. The structure carries what its mutators keep: the index is the inverse image of the map
and holds no empty set. Later proofs read the map through `tryGetValue` and `getKeys`.
-/

open Ordered List Finmap

/-- A map together with the set of keys of each value. -/
structure MapWithIndex (K V : Type*) [DecidableEq K] [DecidableEq V] where
  mKeyToValue : StdMap K V
  mValueToKeys : StdMap V (Finset K)
  inverse : ∀ k v, lookup k mKeyToValue = some v ↔ k ∈ mValueToKeys.get v
  noEmptyKeys : ∀ v, lookup v mValueToKeys ≠ some ∅

namespace MapWithIndex

open TwoWaySetMap (insertInto eraseFrom mem_insertInto mem_eraseFrom insertInto_noEmpty
  eraseFrom_noEmpty mem_iff_get_nonempty)

section
variable {K V : Type*} [DecidableEq K] [DecidableEq V]

/-- The map with no key. -/
def empty : MapWithIndex K V where
  mKeyToValue := ∅
  mValueToKeys := ∅
  inverse := by simp
  noEmptyKeys _ h := by simp at h

instance : EmptyCollection (MapWithIndex K V) := ⟨empty⟩
instance : Inhabited (MapWithIndex K V) := ⟨empty⟩

variable (m : MapWithIndex K V)

/-- `tryGetValue(inKey)`. -/
def tryGetValue (inKey : K) : Option V := lookup inKey m.mKeyToValue

/-- `hasKey(inKey)`. -/
def hasKey (inKey : K) : Prop := inKey ∈ m.mKeyToValue
deriving Decidable

/-- `hasValue(inValue)`: the value has an entry in the index. -/
def hasValue (inValue : V) : Prop := inValue ∈ m.mValueToKeys
deriving Decidable

/-- `getKeys(inValue)`: the empty set for a value without an entry. -/
def getKeys (inValue : V) : Finset K := m.mValueToKeys.get inValue

/-- `discard(inKey)`: drops the key where there is one. `drop(inKey)` does the same after asserting
that there is one, and all its callers have looked. -/
def discard (inKey : K) : MapWithIndex K V :=
  match h : lookup inKey m.mKeyToValue with
  | none => m
  | some value =>
    { mKeyToValue := erase inKey m.mKeyToValue
      mValueToKeys := eraseFrom m.mValueToKeys value inKey
      inverse := fun k v => by
        rw [StdMap.lookup_erase, mem_eraseFrom, ← m.inverse]
        split
        · next hk =>
          subst hk
          rw [h]
          simp +contextual [eq_comm]
        · next hk => simp [hk]
      noEmptyKeys := eraseFrom_noEmpty m.noEmptyKeys value inKey }

variable {m} {k k' : K}

@[simp] theorem tryGetValue_discard : (m.discard k).tryGetValue k' = if k' = k then none else m.tryGetValue k' := by
  unfold discard tryGetValue
  split
  · next h =>
    split
    · next hk => rw [hk, h]
    · rfl
  · exact StdMap.lookup_erase _ _ _

/-- `size()`. -/
def size (m : MapWithIndex K V) : ℕ := m.mKeyToValue.keys.card

variable {v : V}

/-- Dropping a key makes the map smaller. -/
theorem size_discard (h : m.tryGetValue k = some v) : (m.discard k).size + 1 = m.size := by
  have hk : (m.discard k).mKeyToValue = erase k m.mKeyToValue := by
    unfold tryGetValue at h
    unfold discard
    split
    · next hn => rw [hn] at h; cases h
    · rfl
  rw [size, size, hk, keys_erase]
  exact Finset.card_erase_add_one (StdMap.mem_keys_iff.2 ⟨v, h⟩)

/-- `set(inKey, inValue)`: drops the key where there is one, then inserts it. -/
def set (m : MapWithIndex K V) (inKey : K) (inValue : V) : MapWithIndex K V where
  mKeyToValue := Finmap.insert inKey inValue (m.discard inKey).mKeyToValue
  mValueToKeys := insertInto (m.discard inKey).mValueToKeys inValue inKey
  inverse k v := by
    rw [StdMap.lookup_insert, mem_insertInto, ← (m.discard inKey).inverse]
    split
    · next h =>
      subst h
      have hk : (m.discard k).tryGetValue k = none := by rw [tryGetValue_discard, if_pos rfl]
      change lookup k (m.discard k).mKeyToValue = none at hk
      rw [hk]
      simp [eq_comm]
    · next h => simp [h]
  noEmptyKeys := insertInto_noEmpty (m.discard inKey).noEmptyKeys inValue inKey

@[simp] theorem tryGetValue_empty : (∅ : MapWithIndex K V).tryGetValue k = none := lookup_empty k

@[simp] theorem tryGetValue_set : (m.set k v).tryGetValue k' = if k' = k then some v else m.tryGetValue k' := by
  change lookup k' (Finmap.insert _ _ _) = _
  rw [StdMap.lookup_insert]
  split
  · rfl
  · next h =>
    have hk : (m.discard k).tryGetValue k' = _ := tryGetValue_discard
    rwa [if_neg h] at hk

@[simp] theorem mem_getKeys : k ∈ m.getKeys v ↔ m.tryGetValue k = some v := (m.inverse k v).symm

theorem hasKey_iff : m.hasKey k ↔ ∃ v, m.tryGetValue k = some v := by
  unfold hasKey tryGetValue
  rw [← lookup_isSome, Option.isSome_iff_exists]

theorem hasValue_iff : m.hasValue v ↔ ∃ k, m.tryGetValue k = some v := by
  simp only [← mem_getKeys]
  exact mem_iff_get_nonempty m.noEmptyKeys v

theorem hasKey_set : (m.set k v).hasKey k' ↔ k' = k ∨ m.hasKey k' := by
  rw [hasKey_iff, hasKey_iff, tryGetValue_set]
  split
  · next h => exact iff_of_true ⟨v, rfl⟩ (.inl h)
  · next h => exact (or_iff_right h).symm

theorem hasKey_discard : (m.discard k).hasKey k' ↔ k' ≠ k ∧ m.hasKey k' := by
  rw [hasKey_iff, hasKey_iff, tryGetValue_discard]
  split
  · next h => exact iff_of_false nofun fun hk => hk.1 h
  · next h => exact (and_iff_right h).symm

end

variable {K V : Type*} [LinearOrder K] [LinearOrder V]

/-- `dropValue(inValue)`: erases each key of the value. -/
def dropValue (m : MapWithIndex K V) (inValue : V) : MapWithIndex K V :=
  (ascending (m.getKeys inValue)).foldl (fun m k => m.discard k) m

/-- A loop of drops removes the keys it lists. -/
theorem tryGetValue_foldl_discard (l : List K) (m : MapWithIndex K V) (k : K) :
    (l.foldl (fun m k => m.discard k) m).tryGetValue k = if k ∈ l then none else m.tryGetValue k := by
  induction l generalizing m with
  | nil => simp
  | cons a l ih =>
    rw [foldl_cons, ih, tryGetValue_discard]
    by_cases h1 : k ∈ l <;> by_cases h2 : k = a <;> simp [h1, h2]

variable {m : MapWithIndex K V}

@[simp] theorem tryGetValue_dropValue {k : K} {v : V} : (m.dropValue v).tryGetValue k =
      if m.tryGetValue k = some v then none else m.tryGetValue k := by
  unfold dropValue
  rw [tryGetValue_foldl_discard]
  simp only [mem_ascending, mem_getKeys]

/-- `highestValue()`, where there is a key. -/
def highestValue (m : MapWithIndex K V) : Option V := (ascending m.mValueToKeys.keys).getLast?

/-- `lowestValue()`, where there is a key. -/
def lowestValue (m : MapWithIndex K V) : Option V := (ascending m.mValueToKeys.keys).head?

/-- The highest value is the value of a key, and no key has a higher one. -/
theorem highestValue_spec {v : V} (h : m.highestValue = some v) :
    m.hasValue v ∧ ∀ k w, m.tryGetValue k = some w → w ≤ v := by
  refine ⟨mem_keys.1 (mem_ascending.1 (mem_of_getLast? h)), fun k w hk => ?_⟩
  exact le_of_getLast?_ascending h (mem_keys.2 (hasValue_iff.2 ⟨k, hk⟩))

/-- The lowest value is the value of a key, and no key has a lower one. -/
theorem lowestValue_spec {v : V} (h : m.lowestValue = some v) :
    m.hasValue v ∧ ∀ k w, m.tryGetValue k = some w → v ≤ w := by
  refine ⟨mem_keys.1 (mem_ascending.1 (mem_of_mem_head? h)), fun k w hk => ?_⟩
  exact le_of_head?_ascending h (mem_keys.2 (hasValue_iff.2 ⟨k, hk⟩))

/-- The first key of a value has that value. -/
theorem tryGetValue_of_head? {k : K} {v : V}
    (h : (ascending (m.getKeys v)).head? = some k) : m.tryGetValue k = some v :=
  mem_getKeys.1 (mem_ascending.1 (mem_of_mem_head? h))

end MapWithIndex
