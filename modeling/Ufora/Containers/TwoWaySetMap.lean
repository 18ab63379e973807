import Ufora.Lib.Ordered

/-!
# `TwoWaySetMap`

`core/containers/TwoWaySetMap.hpp`: a relation between keys and values, held as two maps of sets,
one from each key to its values and one from each value to its keys. The structure carries what its
mutators keep: the two maps are inverse to each other, and neither holds an empty set. Later proofs
read a map through `contains` only, for which every mutator has one lemma.
-/

open Ordered List Finmap StdMap

/-- A map from keys to sets of values together with its inverse. -/
structure TwoWaySetMap (K V : Type*) [DecidableEq K] [DecidableEq V] where
  mKeysToValues : StdMap K (Finset V)
  mValuesToKeys : StdMap V (Finset K)
  inverse : ∀ k v, v ∈ mKeysToValues.get k ↔ k ∈ mValuesToKeys.get v
  noEmptyValues : ∀ k, lookup k mKeysToValues ≠ some ∅
  noEmptyKeys : ∀ v, lookup v mValuesToKeys ≠ some ∅

namespace TwoWaySetMap

/-! ## One side of the relation -/

section
variable {K V : Type*} [DecidableEq K]

/-- An entry of one side is a nonempty set, so a key has an entry exactly when it has a value. -/
theorem mem_iff_get_nonempty {m : StdMap K (Finset V)} (h : ∀ k, lookup k m ≠ some ∅)
    (k : K) : k ∈ m ↔ (m.get k).Nonempty := by
  rw [← lookup_isSome]
  unfold StdMap.get
  cases hl : lookup k m with
  | none => simp
  | some s =>
    have : s ≠ ∅ := fun he => h k (he ▸ hl)
    simpa [Finset.nonempty_iff_ne_empty] using this

end

section
variable {K V : Type*} [DecidableEq K] [DecidableEq V]

/-- `m[k].insert(v)`. -/
def insertInto (m : StdMap K (Finset V)) (k : K) (v : V) : StdMap K (Finset V) := Finmap.insert k (insert v (m.get k)) m

/-- `m[k].erase(v)`, and then `m.erase(k)` where that left an empty set. -/
def eraseFrom (m : StdMap K (Finset V)) (k : K) (v : V) : StdMap K (Finset V) :=
  let values := (m.get k).erase v
  if values = ∅ then erase k m else Finmap.insert k values m

variable {v v' : V} {k k' : K}

section
variable {m : StdMap K (Finset V)}

theorem mem_insertInto : v' ∈ (insertInto m k v).get k' ↔ (k' = k ∧ v' = v) ∨ v' ∈ m.get k' := by
  unfold insertInto
  rw [get_insert]
  split
  · next h => subst h; simp
  · next h => simp [h]

theorem mem_eraseFrom : v' ∈ (eraseFrom m k v).get k' ↔ v' ∈ m.get k' ∧ ¬ (k' = k ∧ v' = v) := by
  unfold eraseFrom
  dsimp only
  split
  · next he =>
    rw [get_erase]
    split
    · next h =>
      subst h
      have : v' ∉ (m.get k').erase v := by rw [he]; simp
      simp only [Finset.mem_erase, not_and] at this
      constructor
      · intro h; cases h
      · rintro ⟨h, hne⟩; exact absurd h (this fun hv => hne ⟨rfl, hv⟩)
    · next h => simp [h]
  · rw [get_insert]
    split
    · next h => subst h; simp [and_comm]
    · next h => simp [h]

theorem insertInto_noEmpty (h : ∀ k, lookup k m ≠ some ∅)
    (k : K) (v : V) : ∀ k', lookup k' (insertInto m k v) ≠ some ∅ := by
  intro k'
  unfold insertInto
  rw [StdMap.lookup_insert]
  split
  · simp
  · exact h k'

theorem eraseFrom_noEmpty (h : ∀ k, lookup k m ≠ some ∅)
    (k : K) (v : V) : ∀ k', lookup k' (eraseFrom m k v) ≠ some ∅ := by
  intro k'
  unfold eraseFrom
  dsimp only
  split
  · rw [StdMap.lookup_erase]
    split
    · simp
    · exact h k'
  · next he =>
    rw [StdMap.lookup_insert]
    split
    · simpa using he
    · exact h k'

end

/-! ## The operations -/

/-- The map with no pair. -/
def empty : TwoWaySetMap K V where
  mKeysToValues := ∅
  mValuesToKeys := ∅
  inverse := by simp
  noEmptyValues := by simp
  noEmptyKeys := by simp

instance : EmptyCollection (TwoWaySetMap K V) := ⟨empty⟩
instance : Inhabited (TwoWaySetMap K V) := ⟨empty⟩

variable (m : TwoWaySetMap K V)

/-- `getValues(inKey)`: the empty set for a key without an entry. -/
def getValues (inKey : K) : Finset V := m.mKeysToValues.get inKey

/-- `getKeys(inValue)`: the empty set for a value without an entry. -/
def getKeys (inValue : V) : Finset K := m.mValuesToKeys.get inValue

/-- `contains(key, value)`. -/
def contains (key : K) (value : V) : Prop := value ∈ m.getValues key
deriving Decidable

/-- `hasKey(inKey)`: the key has an entry. -/
def hasKey (inKey : K) : Prop := inKey ∈ m.mKeysToValues
deriving Decidable

/-- `hasValue(inVal)`: the value has an entry. -/
def hasValue (inVal : V) : Prop := inVal ∈ m.mValuesToKeys
deriving Decidable

/-- `insert(inKey, inValue)`. -/
def insert (inKey : K) (inValue : V) : TwoWaySetMap K V where
  mKeysToValues := insertInto m.mKeysToValues inKey inValue
  mValuesToKeys := insertInto m.mValuesToKeys inValue inKey
  inverse k v := by simp only [mem_insertInto, m.inverse, and_comm]
  noEmptyValues := insertInto_noEmpty m.noEmptyValues inKey inValue
  noEmptyKeys := insertInto_noEmpty m.noEmptyKeys inValue inKey

/-- `drop(inKey, inValue)`: does nothing where the key has no entry or not this value. -/
def drop (inKey : K) (inValue : V) : TwoWaySetMap K V :=
  if m.hasKey inKey ∧ inValue ∈ m.getValues inKey then
    { mKeysToValues := eraseFrom m.mKeysToValues inKey inValue
      mValuesToKeys := eraseFrom m.mValuesToKeys inValue inKey
      inverse := fun k v => by simp only [mem_eraseFrom, m.inverse, and_comm]
      noEmptyValues := eraseFrom_noEmpty m.noEmptyValues inKey inValue
      noEmptyKeys := eraseFrom_noEmpty m.noEmptyKeys inValue inKey }
  else m

/-! ## Reading after writing -/

variable {m}

@[simp] theorem mem_getValues : v ∈ m.getValues k ↔ m.contains k v := Iff.rfl

@[simp] theorem mem_getKeys : k ∈ m.getKeys v ↔ m.contains k v := (m.inverse k v).symm

theorem hasKey_iff : m.hasKey k ↔ ∃ v, m.contains k v := mem_iff_get_nonempty m.noEmptyValues k

theorem hasValue_iff : m.hasValue v ↔ ∃ k, m.contains k v := by
  simp only [← mem_getKeys]
  exact mem_iff_get_nonempty m.noEmptyKeys v

@[simp] theorem contains_empty : ¬ (∅ : TwoWaySetMap K V).contains k v := by
  change v ∉ get ∅ k
  simp

@[simp] theorem contains_insert : (m.insert k v).contains k' v' ↔ (k' = k ∧ v' = v) ∨ m.contains k' v' := mem_insertInto

@[simp] theorem contains_drop : (m.drop k v).contains k' v' ↔ m.contains k' v' ∧ ¬ (k' = k ∧ v' = v) := by
  unfold drop
  split
  · exact mem_eraseFrom
  · next h =>
    refine ⟨fun hc => ⟨hc, ?_⟩, And.left⟩
    rintro ⟨rfl, rfl⟩
    exact h ⟨hasKey_iff.2 ⟨_, hc⟩, hc⟩

theorem hasKey_insert : (m.insert k v).hasKey k' ↔ k' = k ∨ m.hasKey k' := by
  simp only [hasKey_iff, contains_insert, exists_or, exists_and_left, exists_eq, and_true]

theorem getKeys_empty : (∅ : TwoWaySetMap K V).getKeys v = ∅ := by
  ext k
  simp

theorem getKeys_insert : (m.insert k v).getKeys v' =
      if v' = v then Insert.insert k (m.getKeys v') else m.getKeys v' := by
  ext k'
  split <;> simp_all

theorem getKeys_drop : (m.drop k v).getKeys v' = if v' = v then (m.getKeys v').erase k else m.getKeys v' := by
  ext k'
  split <;> simp_all [and_comm]

end

/-! ## The loops -/

variable {K V : Type*} [LinearOrder K] [LinearOrder V] (m : TwoWaySetMap K V)

/-- `dropKey(inKey)`: drops each pair of the key. -/
def dropKey (inKey : K) : TwoWaySetMap K V := (ascending (m.getValues inKey)).foldl (fun m v => m.drop inKey v) m

/-- `dropValue(inVal)`: drops each pair of the value. -/
def dropValue (inVal : V) : TwoWaySetMap K V := (ascending (m.getKeys inVal)).foldl (fun m k => m.drop k inVal) m

/-- `insert(inKey, inValue)` at a set of values. -/
def insertValues (inKey : K) (inValue : Finset V) : TwoWaySetMap K V :=
  (ascending inValue).foldl (fun m v => m.insert inKey v) m

/-- `insert(inKey, inValue)` at a set of keys. -/
def insertKeys (inKey : Finset K) (inValue : V) : TwoWaySetMap K V :=
  (ascending inKey).foldl (fun m k => m.insert k inValue) m

/-- `insert(inKeys, inValues)` at two sets. -/
def insertAll (inKeys : Finset K) (inValues : Finset V) : TwoWaySetMap K V :=
  (ascending inValues).foldl (fun m v => m.insertKeys inKeys v) m

/-- `drop(inKey, inValue)` at a set of keys. -/
def dropKeys (inKey : Finset K) (inValue : V) : TwoWaySetMap K V :=
  (ascending inKey).foldl (fun m k => m.drop k inValue) m

/-- `drop(inKey, inValue)` at a set of values. -/
def dropValues (inKey : K) (inValue : Finset V) : TwoWaySetMap K V :=
  (ascending inValue).foldl (fun m v => m.drop inKey v) m

/-- `update(inKey, inValues)`: drops the values of the key that are not among the new ones and
inserts the new ones. -/
def update (inKey : K) (inValues : Finset V) : TwoWaySetMap K V :=
  let dropped := (ascending (m.getValues inKey)).foldl
    (fun m v => if v ∈ inValues then m else m.drop inKey v) m
  dropped.insertValues inKey inValues

/-- A loop of drops removes the pairs it lists. -/
theorem contains_foldl_drop {ι : Type*} (key : ι → K) (value : ι → V) (l : List ι)
    (m : TwoWaySetMap K V) (k : K) (v : V) :
    (l.foldl (fun m i => m.drop (key i) (value i)) m).contains k v ↔
      m.contains k v ∧ ∀ i ∈ l, ¬ (k = key i ∧ v = value i) := by
  induction l generalizing m with
  | nil => simp
  | cons i l ih => rw [foldl_cons, ih, contains_drop, forall_mem_cons, and_assoc]

/-- A loop of insertions adds the pairs it lists. -/
theorem contains_foldl_insert {ι : Type*} (key : ι → K) (value : ι → V) (l : List ι)
    (m : TwoWaySetMap K V) (k : K) (v : V) :
    (l.foldl (fun m i => m.insert (key i) (value i)) m).contains k v ↔
      (∃ i ∈ l, k = key i ∧ v = value i) ∨ m.contains k v := by
  induction l generalizing m with
  | nil => simp
  | cons i l ih =>
    rw [foldl_cons, ih, contains_insert]
    simp only [mem_cons, or_and_right, exists_or, exists_eq_left]
    rw [or_assoc, or_left_comm]

variable {m} {v v' : V}

@[simp] theorem contains_dropKey {k k' : K} : (m.dropKey k).contains k' v ↔ m.contains k' v ∧ k' ≠ k := by
  unfold dropKey
  rw [contains_foldl_drop (fun _ => k) fun v => v]
  refine and_congr_right fun hc => ⟨fun h he => ?_, fun h i _ hi => h hi.1⟩
  subst he
  exact h v (mem_ascending.2 hc) ⟨rfl, rfl⟩

@[simp] theorem contains_dropValue {k : K} : (m.dropValue v).contains k v' ↔ m.contains k v' ∧ v' ≠ v := by
  unfold dropValue
  rw [contains_foldl_drop (fun k => k) fun _ => v]
  refine and_congr_right fun hc => ⟨fun h he => ?_, fun h i _ hi => h hi.2⟩
  subst he
  exact h k (mem_ascending.2 (mem_getKeys.2 hc)) ⟨rfl, rfl⟩

theorem getKeys_dropValue : (m.dropValue v).getKeys v' = if v' = v then ∅ else m.getKeys v' := by
  ext k
  split <;> simp_all

theorem contains_dropKeys {k : K} {ks : Finset K} :
    (m.dropKeys ks v').contains k v ↔ m.contains k v ∧ ¬ (k ∈ ks ∧ v = v') := by
  refine (contains_foldl_drop (fun k => k) (fun _ => v') _ m k v).trans (and_congr_right fun _ => ?_)
  simp only [mem_ascending]
  grind

theorem contains_dropValues {k k' : K} {vs : Finset V} :
    (m.dropValues k' vs).contains k v ↔ m.contains k v ∧ ¬ (k = k' ∧ v ∈ vs) := by
  refine (contains_foldl_drop (fun _ => k') (fun v => v) _ m k v).trans (and_congr_right fun _ => ?_)
  simp only [mem_ascending]
  grind

@[simp] theorem contains_insertValues {k k' : K} {vs : Finset V} :
    (m.insertValues k vs).contains k' v ↔ (k' = k ∧ v ∈ vs) ∨ m.contains k' v := by
  refine (contains_foldl_insert (fun _ => k) (fun v => v) _ m k' v).trans (or_congr_left ?_)
  simp [and_comm]

@[simp] theorem contains_update {k k' : K} {vs : Finset V} :
    (m.update k vs).contains k' v ↔ if k' = k then v ∈ vs else m.contains k' v := by
  have key : ∀ (l : List V) (m : TwoWaySetMap K V),
      (l.foldl (fun m v => if v ∈ vs then m else m.drop k v) m).contains k' v ↔
        m.contains k' v ∧ ¬ (k' = k ∧ v ∈ l ∧ v ∉ vs) := by
    intro l
    induction l with
    | nil => simp
    | cons a l ih =>
      intro m
      rw [foldl_cons, ih]
      split
      · next ha =>
        have : v ∈ a :: l ∧ v ∉ vs ↔ v ∈ l ∧ v ∉ vs := by
          simp only [mem_cons]
          refine and_congr_left fun hv => ⟨?_, .inr⟩
          rintro (rfl | h)
          exacts [absurd ha hv, h]
        rw [this]
      · rw [contains_drop, mem_cons]
        have : v = a → v ∉ vs := by rintro rfl; assumption
        tauto
  unfold update
  rw [contains_insertValues, key, mem_ascending, mem_getValues]
  split
  · next h => subst h; tauto
  · next h => simp [h]

end TwoWaySetMap
