import Ufora.Containers.MapWithIndex

/-!
# The mutators of the two-way maps

Every mutating function of `TwoWaySetMap` and of `MapWithIndex`, and runs of them. After each run the two directions are
inverse to each other and hold no empty set, and a `TwoWaySetMap` holds the pairs that the same run leaves in a plain
relation (`inverse_of_ops`).
-/

open Ordered List Finmap TwoWaySetMap

variable {K V : Type*} [LinearOrder K] [LinearOrder V]

namespace TwoWaySetMap

/-- A call of a mutator. -/
inductive Op (K V : Type*)
  | insert (inKey : K) (inValue : V)
  | insertKeys (inKey : Finset K) (inValue : V)
  | insertValues (inKey : K) (inValue : Finset V)
  | insertAll (inKeys : Finset K) (inValues : Finset V)
  | drop (inKey : K) (inValue : V)
  | dropKeys (inKey : Finset K) (inValue : V)
  | dropValues (inKey : K) (inValue : Finset V)
  | dropKey (inKey : K)
  | dropValue (inVal : V)
  | update (inKey : K) (inValues : Finset V)

/-- The map after a call. -/
def call (m : TwoWaySetMap K V) : Op K V → TwoWaySetMap K V
  | .insert k v => m.insert k v
  | .insertKeys ks v => m.insertKeys ks v
  | .insertValues k vs => m.insertValues k vs
  | .insertAll ks vs => m.insertAll ks vs
  | .drop k v => m.drop k v
  | .dropKeys ks v => m.dropKeys ks v
  | .dropValues k vs => m.dropValues k vs
  | .dropKey k => m.dropKey k
  | .dropValue v => m.dropValue v
  | .update k vs => m.update k vs

/-- What a call does to a plain relation. -/
def Op.Holds (r : K → V → Prop) : Op K V → K → V → Prop
  | .insert k v, k', v' => k' = k ∧ v' = v ∨ r k' v'
  | .insertKeys ks v, k', v' => k' ∈ ks ∧ v' = v ∨ r k' v'
  | .insertValues k vs, k', v' => k' = k ∧ v' ∈ vs ∨ r k' v'
  | .insertAll ks vs, k', v' => k' ∈ ks ∧ v' ∈ vs ∨ r k' v'
  | .drop k v, k', v' => r k' v' ∧ ¬ (k' = k ∧ v' = v)
  | .dropKeys ks v, k', v' => r k' v' ∧ ¬ (k' ∈ ks ∧ v' = v)
  | .dropValues k vs, k', v' => r k' v' ∧ ¬ (k' = k ∧ v' ∈ vs)
  | .dropKey k, k', v' => r k' v' ∧ k' ≠ k
  | .dropValue v, k', v' => r k' v' ∧ v' ≠ v
  | .update k vs, k', v' => if k' = k then v' ∈ vs else r k' v'

variable {m : TwoWaySetMap K V} {k : K} {v : V}

theorem contains_insertKeys {ks : Finset K} {v' : V} :
    (m.insertKeys ks v').contains k v ↔ k ∈ ks ∧ v = v' ∨ m.contains k v := by
  refine (contains_foldl_insert (fun k => k) (fun _ => v') _ m k v).trans (or_congr_left ?_)
  simp

theorem contains_insertAll {ks : Finset K} {vs : Finset V} :
    (m.insertAll ks vs).contains k v ↔ k ∈ ks ∧ v ∈ vs ∨ m.contains k v := by
  unfold insertAll
  rw [← mem_ascending (s := vs)]
  generalize ascending vs = l
  induction l generalizing m with
  | nil => simp
  | cons a l ih =>
    rw [foldl_cons, ih, contains_insertKeys, mem_cons]
    tauto

/-- A call does to the pairs what it does to a plain relation. -/
theorem contains_call (op : Op K V) : (m.call op).contains k v ↔ op.Holds m.contains k v := by
  cases op with
  | insert => exact contains_insert
  | insertKeys => exact contains_insertKeys
  | insertValues => exact contains_insertValues
  | insertAll => exact contains_insertAll
  | drop => exact contains_drop
  | dropKeys => exact contains_dropKeys
  | dropValues => exact contains_dropValues
  | dropKey => exact contains_dropKey
  | dropValue => exact contains_dropValue
  | update => exact contains_update

/-- A run leaves the pairs that it leaves in a plain relation. -/
theorem contains_run (ops : List (Op K V)) (m : TwoWaySetMap K V) :
    (ops.foldl call m).contains = ops.foldl Op.Holds m.contains := by
  induction ops generalizing m with
  | nil => rfl
  | cons op ops ih =>
    rw [foldl_cons, foldl_cons, ih]
    exact congrArg (ops.foldl Op.Holds) (funext₂ fun _ _ => propext (contains_call op))

end TwoWaySetMap

namespace MapWithIndex

/-- `dropValue(inValue)` on the two maps: erases each key of the value from the one, and then the value from the
other. -/
def dropValueFromMaps (m : MapWithIndex K V) (inValue : V) : MapWithIndex K V where
  mKeyToValue := (ascending (m.getKeys inValue)).foldl (fun keyToValue key => erase key keyToValue) m.mKeyToValue
  mValueToKeys := erase inValue m.mValueToKeys
  inverse k v := by
    have hfold : ∀ (l : List K) (f : StdMap K V),
        lookup k (l.foldl (fun keyToValue key => erase key keyToValue) f) = some v ↔ lookup k f = some v ∧ k ∉ l := by
      intro l
      induction l with
      | nil => simp
      | cons a l ih =>
        intro f
        rw [foldl_cons, ih, StdMap.lookup_erase, mem_cons]
        grind
    rw [hfold, mem_ascending, StdMap.get_erase, getKeys, ← m.inverse]
    split
    · next h => simp [h]
    · next h =>
      rw [← m.inverse]
      exact and_iff_left_of_imp fun hv hk => h (Option.some.inj (hv.symm.trans hk))
  noEmptyKeys v := by
    rw [StdMap.lookup_erase]
    split
    · simp
    · exact m.noEmptyKeys v

/-- The map is told by its keys. -/
theorem ext_tryGetValue {m m' : MapWithIndex K V} (h : ∀ k, m.tryGetValue k = m'.tryGetValue k) : m = m' := by
  have hget (v : V) : m.mValueToKeys.get v = m'.mValueToKeys.get v := by
    ext k
    rw [← m.inverse, ← m'.inverse]
    exact iff_of_eq (congrArg (· = some v) (h k))
  have hkeys : m.mKeyToValue = m'.mKeyToValue := ext_lookup h
  have hvalues : m.mValueToKeys = m'.mValueToKeys := ext_lookup fun v => by
    have hm := m.noEmptyKeys v
    have hm' := m'.noEmptyKeys v
    have hv := hget v
    unfold StdMap.get at hv
    cases h₁ : lookup v m.mValueToKeys <;> cases h₂ : lookup v m'.mValueToKeys <;> simp_all
  cases m
  cases m'
  cases hkeys
  cases hvalues
  rfl

/-- Dropping a value key by key, and on the two maps, leaves the same map. -/
theorem dropValueFromMaps_eq (m : MapWithIndex K V) (v : V) : m.dropValueFromMaps v = m.dropValue v := by
  refine ext_tryGetValue fun k => Option.ext fun w => ?_
  rw [tryGetValue_dropValue]
  refine ((m.dropValueFromMaps v).inverse k w).trans ?_
  show k ∈ StdMap.get (erase v m.mValueToKeys) w ↔ _
  rw [StdMap.get_erase]
  split
  · next hw => subst hw; split <;> simp_all
  · next hw =>
    rw [← m.inverse]
    show m.tryGetValue k = _ ↔ _
    split <;> simp_all [eq_comm]

/-- A call of a mutator. -/
inductive Op (K V : Type*)
  | insert (inKey : K) (inValue : V)
  | tryInsert (inKey : K) (inValue : V)
  | set (inKey : K) (inValue : V)
  | drop (inKey : K)
  | tryDrop (inKey : K)
  | discard (inKey : K)
  | dropValue (inValue : V)

/-- Where the assertion of `insert` or of `drop` fails, nothing has changed yet. -/
def call (m : MapWithIndex K V) : Op K V → MapWithIndex K V
  | .insert k v | .tryInsert k v => if m.hasKey k then m else m.set k v
  | .set k v => m.set k v
  | .drop k | .tryDrop k | .discard k => m.discard k
  | .dropValue v => m.dropValueFromMaps v

end MapWithIndex

/-- After any calls the two directions of either map are inverse to each other, and neither holds an empty set. -/
theorem inverse_of_ops (ops : List (TwoWaySetMap.Op K V)) (ops' : List (MapWithIndex.Op K V)) :
    let m := ops.foldl call ∅
    let m' := ops'.foldl MapWithIndex.call ∅
    ((∀ k v, m.contains k v ↔ ops.foldl TwoWaySetMap.Op.Holds (fun _ _ => False) k v) ∧
      (∀ k v, v ∈ m.mKeysToValues.get k ↔ k ∈ m.mValuesToKeys.get v) ∧
      (∀ k, lookup k m.mKeysToValues ≠ some ∅) ∧ ∀ v, lookup v m.mValuesToKeys ≠ some ∅) ∧
    (∀ k v, lookup k m'.mKeyToValue = some v ↔ k ∈ m'.mValueToKeys.get v) ∧ ∀ v, lookup v m'.mValueToKeys ≠ some ∅ := by
  intro m m'
  refine ⟨⟨fun k v => ?_, m.inverse, m.noEmptyValues, m.noEmptyKeys⟩, m'.inverse, m'.noEmptyKeys⟩
  have hempty : (∅ : TwoWaySetMap K V).contains = fun _ _ => False := funext₂ fun _ _ => eq_false contains_empty
  rw [← hempty, ← contains_run]
