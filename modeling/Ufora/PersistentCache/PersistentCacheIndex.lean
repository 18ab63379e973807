import Ufora.Containers.TwoWaySetMap
import Ufora.Lib.Effect
import Ufora.PersistentCache.PersistentCacheKey

/-!
# `PersistentCacheIndex`

`cumulus/PersistentCache/PersistentCacheIndex.cppml`: what the index makes of the keys and values of the
shared state, as far as the garbage collection reads it: the objects of each kind, which of them are
marked invalid, the bytes in the cache, and which object depends on which. An overwrite leaves what the old
value depended on, and so does a new view. Where no overwrite and no new view takes a dependency away, the
table of dependencies holds what the current values list (`lists_of_clean`).
-/

open Ordered Effect List Finset Finmap StdMap TwoWaySetMap

namespace Cumulus

/-- What ends a call of the index early. -/
inductive PersistentCacheIndexError where
  /-- A `@match` without a case for the value. -/
  | badMatch
  /-- The `lassert` of `resetView`. -/
  | sizesDiffer
  deriving DecidableEq

/-- `mObjectDependencies`: each pair is of an object and one that its kind may depend on. -/
structure ObjectDependencies where
  pairs : TwoWaySetMap PersistentCacheKey PersistentCacheKey := ∅
  kinds : ∀ key child, pairs.contains key child → ∃ h, child ∈ key.dependency h := by simp

namespace ObjectDependencies

/-- `mObjectDependencies.insert(key, ..)`, for a hash among the dependencies of the key's value. -/
def insert (m : ObjectDependencies) (key : PersistentCacheKey) (h : Hash) : ObjectDependencies :=
  match hd : key.dependency h with
  | none => m
  | some child =>
    { pairs := m.pairs.insert key child
      kinds := fun k c hc => by
        rcases contains_insert.1 hc with ⟨rfl, rfl⟩ | hc
        · exact ⟨h, hd⟩
        · exact m.kinds k c hc }

/-- `mObjectDependencies.dropKey(key)`. -/
def dropKey (m : ObjectDependencies) (key : PersistentCacheKey) : ObjectDependencies where
  pairs := m.pairs.dropKey key
  kinds k c hc := m.kinds k c (contains_dropKey.1 hc).1

variable {m : ObjectDependencies} {key k c : PersistentCacheKey} {h : Hash}

theorem contains_insert : (m.insert key h).pairs.contains k c ↔
    (k = key ∧ c ∈ key.dependency h) ∨ m.pairs.contains k c := by
  unfold insert
  split
  · next hd => simp [hd]
  · next child hd =>
    rw [TwoWaySetMap.contains_insert, hd]
    simp [eq_comm]

/-- A loop of insertions. -/
theorem contains_foldl_insert (l : List Hash) : (l.foldl (fun m h => m.insert key h) m).pairs.contains k c ↔
      (k = key ∧ ∃ h ∈ l, c ∈ key.dependency h) ∨ m.pairs.contains k c := by
  induction l generalizing m with
  | nil => simp
  | cons h l ih =>
    rw [foldl_cons, ih, contains_insert, exists_mem_cons_iff, and_or_left, or_comm (b := k = key ∧ _), or_assoc]

end ObjectDependencies

/-- The values of the objects of one kind, and those that are marked invalid: `mPages` and
`mInvalidPages`, for instance. -/
structure ObjectTable (κ : Type) where
  entries : StdMap κ ValueEntry := ∅
  invalid : Finset κ := ∅

/-- A `PersistentCacheIndexImpl`. -/
structure PersistentCacheIndex where
  mKvState : StdMap PersistentCacheKey ValueEntry := ∅
  mPages : ObjectTable Hash := {}
  mBigvecs : ObjectTable Hash := {}
  mCheckpoints : ObjectTable CheckpointRequest := {}
  mCheckpointFiles : ObjectTable (CheckpointRequest ×ₗ Hash) := {}
  mScriptDependencies : StdMap String ValueEntry := ∅
  mObjectDependencies : ObjectDependencies := {}
  mTotalBytesInCache : UInt64 := 0

namespace PersistentCacheIndex

/-- A member function. -/
abbrev Call := EStateM PersistentCacheIndexError PersistentCacheIndex

/-- A `@match` on a value. -/
def orBadMatch {α : Type} : Option α → Call α
  | some a => pure a
  | none => throw .badMatch

/-- The branches of `handleKey_` for pages, vectors, checkpoint summaries and checkpoint files. -/
def handleObject {κ : Type} [DecidableEq κ] (table : PersistentCacheIndex → ObjectTable κ)
    (withTable : ObjectTable κ → PersistentCacheIndex → PersistentCacheIndex) (k : κ)
    (key : PersistentCacheKey) (valueEntry : Option ValueEntry) : Call Unit := do
  let modifyTable (f : ObjectTable κ → ObjectTable κ) : Call Unit := modify fun s => withTable (f (table s)) s
  -- `operator[]` makes an entry where there is none
  modifyTable fun t => { t with entries := insert k (t.entries.get k) t.entries }
  let oldBytecount ← orBadMatch ((table (← get)).entries.get k).bytecount
  modify fun s => { s with mTotalBytesInCache := s.mTotalBytesInCache - oldBytecount }
  match valueEntry with
  | some value =>
    modifyTable fun t => { t with entries := insert k value t.entries }
    let bytecount ← orBadMatch value.bytecount
    modify fun s => { s with mTotalBytesInCache := s.mTotalBytesInCache + bytecount }
    let dependencies ← orBadMatch value.dependencies
    (ascending dependencies).forM fun h =>
      modify fun s => { s with mObjectDependencies := s.mObjectDependencies.insert key h }
    if value.isValid then
      modifyTable fun t => { t with invalid := t.invalid.erase k }
    else
      modifyTable fun t => { t with invalid := insert k t.invalid }
  | none =>
    modifyTable fun t => { t with entries := erase k t.entries, invalid := t.invalid.erase k }

/-- The branch of `handleKey_` for scripts. -/
def handleScript (script : String) (valueEntry : Option ValueEntry) : Call Unit :=
  match valueEntry with
  | some value => do
    modify fun s => { s with mScriptDependencies := insert script value s.mScriptDependencies }
    let _ ← orBadMatch value.dependencies
  | none => modify fun s => { s with mScriptDependencies := erase script s.mScriptDependencies }

/-- The key-value state after an update of one key. -/
def setValue (mKvState : StdMap PersistentCacheKey ValueEntry) (key : PersistentCacheKey) :
    Option ValueEntry → StdMap PersistentCacheKey ValueEntry
  | some value => insert key value mKvState
  | none => erase key mKvState

variable (key : PersistentCacheKey)

/-- The branch of `handleKey_` for the kind of the key. -/
def handleKind (valueEntry : Option ValueEntry) : Call Unit :=
  match key with
  | .Page p => handleObject (·.mPages) (fun t s => { s with mPages := t }) p key valueEntry
  | .BigvecDefinition b => handleObject (·.mBigvecs) (fun t s => { s with mBigvecs := t }) b key valueEntry
  | .CheckpointSummary checkpoint =>
    handleObject (·.mCheckpoints) (fun t s => { s with mCheckpoints := t }) checkpoint key valueEntry
  | .CheckpointFile checkpoint hash =>
    handleObject (·.mCheckpointFiles) (fun t s => { s with mCheckpointFiles := t })
      (toLex (checkpoint, hash)) key valueEntry
  | .Script script => handleScript script valueEntry
  | .Configuration => pure ()

/-- `handleKey_(key, valueEntry)`. -/
def handleKey_ (valueEntry : Option ValueEntry) : Call Unit := do
  let oldValueEntry := lookup key (← get).mKvState
  if valueEntry ≠ oldValueEntry then
    modify fun s => { s with mKvState := setValue s.mKvState key valueEntry }
    if valueEntry = none then
      modify fun s => { s with mObjectDependencies := s.mObjectDependencies.dropKey key }
    handleKind key valueEntry

variable (s : PersistentCacheIndex)

/-- `clearAllState_()`. -/
def clearAllState_ : PersistentCacheIndex := { s with
    mKvState := ∅
    mPages := { s.mPages with entries := ∅ }
    mBigvecs := { s.mBigvecs with entries := ∅ }
    mCheckpoints := { s.mCheckpoints with entries := ∅ }
    mCheckpointFiles := { s.mCheckpointFiles with entries := ∅ }
    mTotalBytesInCache := 0 }

/-- `resetView(inView)`, where `changed` are the keys of the new view with their values. -/
def resetView (changed : List (PersistentCacheKey × Option ValueEntry)) : Call Unit := do
  let kvStateAsWeKnowIt := (← get).mKvState
  modify clearAllState_
  changed.forM fun kv => handleKey_ kv.1 kv.2
  (kvStateAsWeKnowIt.ascendingEntries).forM fun kv => do
    if lookup kv.1 (← get).mKvState ≠ some kv.2 then
      handleKey_ kv.1 (some kv.2)
  let toDrop := (← get).mKvState.keys \ kvStateAsWeKnowIt.keys
  (ascending toDrop).forM fun k => handleKey_ k none
  lassert ((← get).mKvState.keys.card = kvStateAsWeKnowIt.keys.card) .sizesDiffer

/-! ## Runs -/

/-- What happens to the index. A view gives one value for a key. -/
inductive Op where
  | update (key : PersistentCacheKey) (valueEntry : Option ValueEntry)
  | resetView (changed : List (PersistentCacheKey × Option ValueEntry))
      (distinct : (changed.map Prod.fst).Nodup)

/-- The call. -/
def Op.call : Op → Call Unit
  | .update key valueEntry => handleKey_ key valueEntry
  | .resetView changed _ => PersistentCacheIndex.resetView changed

/-- What a call leaves, whether it returns or throws. -/
def step (op : Op) : PersistentCacheIndex := exec op.call s

/-- A sequence of calls. -/
def run (ops : List Op) : PersistentCacheIndex := ops.foldl step s

/-! ## The dependencies that the values list -/

/-- The objects among the dependencies of a value. -/
def listed : Option ValueEntry → Finset PersistentCacheKey
  | some (.Valid dependencies ..) => dependencies.biUnion fun h => (key.dependency h).toFinset
  | _ => ∅

/-- The table holds an object with each of those its current value lists. -/
def Lists : Prop := ∀ key child, s.mObjectDependencies.pairs.contains key child ↔
    child ∈ listed key (lookup key s.mKvState)

/-- A configuration is the value of no other key than `Configuration`. -/
def Kind (value : ValueEntry) : Prop := key = .Configuration ∨ value.bytecount.isSome
deriving Decidable

/-- No dependency is taken away: an overwriting value lists those of the value it replaces, and a value in
a new view only those of the known value, which comes back. -/
def Op.Clean : Op → Prop
  | .update key valueEntry => ∀ value ∈ valueEntry, Kind key value ∧
      listed key (lookup key s.mKvState) ⊆ listed key (some value)
  | .resetView changed _ => ∀ kv ∈ changed, ∀ value ∈ kv.2, Kind kv.1 value ∧
      ∀ known ∈ lookup kv.1 s.mKvState, listed kv.1 (some value) ⊆ listed kv.1 (some known)

instance (s : PersistentCacheIndex) : (op : Op) → Decidable (op.Clean s)
  | .update key valueEntry => inferInstanceAs (Decidable (∀ value ∈ valueEntry, Kind key value ∧
      listed key (lookup key s.mKvState) ⊆ listed key (some value)))
  | .resetView changed _ => inferInstanceAs (Decidable (∀ kv ∈ changed, ∀ value ∈ kv.2, Kind kv.1 value ∧
      ∀ known ∈ lookup kv.1 s.mKvState, listed kv.1 (some value) ⊆ listed kv.1 (some known)))

/-- Every call of a sequence is `Op.Clean`. -/
def Clean : PersistentCacheIndex → List Op → Prop
  | _, [] => True
  | s, op :: ops => op.Clean s ∧ Clean (step s op) ops

instance decidableClean : (s : PersistentCacheIndex) → (ops : List Op) → Decidable (Clean s ops)
  | _, [] => inferInstanceAs (Decidable True)
  | s, op :: ops =>
    have := decidableClean (step s op) ops
    inferInstanceAs (Decidable (_ ∧ _))

/-! ## One update -/

/-- No object has a configuration for its value. -/
def ObjectTable.Kinded {κ : Type} [DecidableEq κ] (t : ObjectTable κ) : Prop :=
  ∀ k value, lookup k t.entries = some value → value.bytecount.isSome

/-- Every value is of the kind of its key. -/
structure Kinded (s : PersistentCacheIndex) : Prop where
  mPages : ObjectTable.Kinded s.mPages
  mBigvecs : ObjectTable.Kinded s.mBigvecs
  mCheckpoints : ObjectTable.Kinded s.mCheckpoints
  mCheckpointFiles : ObjectTable.Kinded s.mCheckpointFiles

/-- What a branch of `handleKey_` does to the state: the dependencies the value lists are added. -/
def Handled (valueEntry : Option ValueEntry) (s s' : PersistentCacheIndex) : Prop :=
  s'.mKvState = s.mKvState ∧ Kinded s' ∧ ∀ k c, s'.mObjectDependencies.pairs.contains k c ↔
    (k = key ∧ c ∈ listed key valueEntry) ∨ s.mObjectDependencies.pairs.contains k c

section
variable {s s' : PersistentCacheIndex} {key : PersistentCacheKey} {valueEntry : Option ValueEntry}

variable {E : PersistentCacheIndexError → PersistentCacheIndex → Prop}

theorem wp_orBadMatch {α : Type} {Q : α → PersistentCacheIndex → Prop} {x : Option α} {a : α}
    (h : x = some a) : wp (orBadMatch x) Q E s ↔ Q a s := by
  rw [h]
  exact Iff.rfl

theorem dependencies_eq {v : ValueEntry} (h : v.bytecount.isSome) :
    ∃ bytecount dependencies, v.bytecount = some bytecount ∧ v.dependencies = some dependencies ∧
      ∀ key c, c ∈ listed key (some v) ↔ ∃ h ∈ dependencies, c ∈ key.dependency h := by
  cases v with
  | Valid dependencies bytecount =>
    exact ⟨bytecount, dependencies, rfl, rfl, fun key c => by simp [listed]⟩
  | Configuration => cases h
  | Invalid bytecount => exact ⟨bytecount, ∅, rfl, rfl, fun key c => by simp [listed]⟩

/-- A loop that adds dependencies. -/
theorem wp_forM_insert {Q : PUnit → PersistentCacheIndex → Prop} (l : List Hash)
    (h : Q ⟨⟩ { s with mObjectDependencies := l.foldl (fun m h => m.insert key h) s.mObjectDependencies }) :
    wp (l.forM fun h => modify fun s =>
      { s with mObjectDependencies := s.mObjectDependencies.insert key h }) Q E s := by
  induction l generalizing s with
  | nil => exact h
  | cons a l ih => exact (wp_bind _ _).2 (ih h)

variable {κ : Type}

theorem ObjectTable.Kinded.get [DecidableEq κ] {t : ObjectTable κ} (h : ObjectTable.Kinded t)
    (k : κ) : (t.entries.get k).bytecount.isSome := by
  unfold StdMap.get
  cases hl : lookup k t.entries with
  | none => rfl
  | some value => exact h k value hl

theorem ObjectTable.Kinded.insert [DecidableEq κ] {t : ObjectTable κ}
    (h : ObjectTable.Kinded t) {k : κ} {v : ValueEntry} (hv : v.bytecount.isSome) (l : Finset κ) :
    ObjectTable.Kinded ⟨insert k v t.entries, l⟩ := by
  intro k' value' hl
  rw [StdMap.lookup_insert] at hl
  split at hl
  · exact Option.some.inj hl ▸ hv
  · exact h k' value' hl

theorem ObjectTable.Kinded.erase [DecidableEq κ] {t : ObjectTable κ} (h : ObjectTable.Kinded t) {k : κ} (l : Finset κ) :
    ObjectTable.Kinded ⟨erase k t.entries, l⟩ := by
  intro k' value' hl
  rw [StdMap.lookup_erase] at hl
  split at hl
  · cases hl
  · exact h k' value' hl

/-- Neither the values nor the dependencies have changed. -/
def Framed (s s' : PersistentCacheIndex) : Prop :=
  s'.mKvState = s.mKvState ∧ s'.mObjectDependencies = s.mObjectDependencies ∧ Kinded s'

/-- The branches for the four kinds of objects. The hypotheses say that the table is a part of the
index. -/
theorem handled_object [DecidableEq κ] {table : PersistentCacheIndex → ObjectTable κ}
    {withTable : ObjectTable κ → PersistentCacheIndex → PersistentCacheIndex}
    (hwith : ∀ t s, Kinded s → ObjectTable.Kinded t → Framed s (withTable t s) ∧ table (withTable t s) = t)
    (hpart : ∀ s, Kinded s → ObjectTable.Kinded (table s)) (k : κ) (hs : Kinded s)
    (hv : ∀ value ∈ valueEntry, value.bytecount.isSome) :
    wp (handleObject table withTable k key valueEntry) (fun _ s' => Handled key valueEntry s s')
      (fun _ _ => False) s := by
  have hmodify : ∀ (f : ObjectTable κ → ObjectTable κ) s₀, Framed s s₀ →
      ObjectTable.Kinded (f (table s₀)) → wp (modify fun s => withTable (f (table s)) s : Call Unit)
        (fun _ s₁ => Framed s s₁ ∧ table s₁ = f (table s₀)) (fun _ _ => False) s₀ := by
    intro f s₀ h₀ hf
    obtain ⟨h₁, ht⟩ := hwith (f (table s₀)) s₀ h₀.2.2 hf
    exact ⟨⟨h₁.1.trans h₀.1, h₁.2.1.trans h₀.2.1, h₁.2.2⟩, ht⟩
  have hcount : ∀ (f : UInt64 → UInt64) s₀, Framed s s₀ →
      Framed s { s₀ with mTotalBytesInCache := f s₀.mTotalBytesInCache } := fun _ s₀ h₀ =>
    ⟨h₀.1, h₀.2.1, h₀.2.2.1, h₀.2.2.2, h₀.2.2.3, h₀.2.2.4⟩
  have ht := hpart s hs
  unfold handleObject
  rw [wp_bind]
  refine (hmodify (fun t => ⟨insert k (t.entries.get k) t.entries, t.invalid⟩) s ⟨rfl, rfl, hs⟩
    (ht.insert (ht.get k) _)).imp fun _ s₁ h₁ => ?_
  obtain ⟨old, hold⟩ := Option.isSome_iff_exists.1 ((hpart s₁ h₁.1.2.2).get k)
  rw [wp_bind, wp_get, wp_bind, wp_orBadMatch hold, wp_bind, wp_modify]
  have h₂ := hcount (· - old) s₁ h₁.1
  generalize { s₁ with mTotalBytesInCache := s₁.mTotalBytesInCache - old } = s₂ at h₂ ⊢
  have ht₂ := hpart s₂ h₂.2.2
  cases valueEntry with
  | none =>
    refine (hmodify (fun t => ⟨erase k t.entries, t.invalid.erase k⟩) s₂ h₂ (ht₂.erase _)).imp fun _ s' h' => ?_
    exact ⟨h'.1.1, h'.1.2.2, fun k' c => by rw [h'.1.2.1]; simp [listed]⟩
  | some value =>
    obtain ⟨bytecount, dependencies, hb, hd, hlisted⟩ := dependencies_eq (hv value rfl)
    rw [wp_bind]
    refine (hmodify (fun t => ⟨insert k value t.entries, t.invalid⟩) s₂ h₂
      (ht₂.insert (hv value rfl) _)).imp fun _ s₃ h₃ => ?_
    rw [wp_bind, wp_orBadMatch hb, wp_bind, wp_modify, wp_bind, wp_orBadMatch hd, wp_bind]
    have h₄ := hcount (· + bytecount) s₃ h₃.1
    generalize { s₃ with mTotalBytesInCache := s₃.mTotalBytesInCache + bytecount } = s₄ at h₄ ⊢
    refine wp_forM_insert _ ?_
    have hinserted : Handled key (some value) s { s₄ with
        mObjectDependencies := (ascending dependencies).foldl (fun m h => m.insert key h) s₄.mObjectDependencies } := by
      refine ⟨h₄.1, ⟨h₄.2.2.1, h₄.2.2.2, h₄.2.2.3, h₄.2.2.4⟩, fun k' c => ?_⟩
      rw [ObjectDependencies.contains_foldl_insert, hlisted, h₄.2.1]
      simp only [mem_ascending]
    generalize { s₄ with
      mObjectDependencies := (ascending dependencies).foldl (fun m h => m.insert key h)
        s₄.mObjectDependencies } = s₅ at hinserted ⊢
    have hmark : ∀ invalid, Handled key (some value) s (withTable ⟨(table s₅).entries, invalid⟩ s₅) := by
      intro invalid
      obtain ⟨h', -⟩ := hwith ⟨(table s₅).entries, invalid⟩ s₅ hinserted.2.1 (hpart s₅ hinserted.2.1)
      exact ⟨h'.1.trans hinserted.1, h'.2.2, h'.2.1 ▸ hinserted.2.2⟩
    rw [wp_ite]
    split
    · exact hmark _
    · exact hmark _

theorem listed_of_notObject (hk : key.hasStoragePath = false) (valueEntry : Option ValueEntry) :
    listed key valueEntry = ∅ := by
  have hnone : ∀ h, key.dependency h = none := by
    intro h
    cases key <;> first | rfl | cases hk
  unfold listed
  split
  · refine eq_empty_of_forall_notMem fun child hc => ?_
    obtain ⟨h, -, hd⟩ := mem_biUnion.1 hc
    rw [hnone] at hd
    cases hd
  · rfl

/-- The branch for the kind of the key. -/
theorem handled_kind (hs : Kinded s) (hv : ∀ value ∈ valueEntry, Kind key value) :
    wp (handleKind key valueEntry) (fun _ s' => Handled key valueEntry s s') (fun _ _ => False) s := by
  have hvalue : key ≠ .Configuration → ∀ value ∈ valueEntry, value.bytecount.isSome :=
    fun hk value hm => (hv value hm).resolve_left hk
  cases key with
  | Page p =>
    exact @handled_object s _ valueEntry _ _ (·.mPages) (fun t s => { s with mPages := t })
      (fun t s h ht => ⟨⟨rfl, rfl, ht, h.2, h.3, h.4⟩, rfl⟩) (fun _ h => h.1) p hs
      (hvalue nofun)
  | BigvecDefinition b =>
    exact @handled_object s _ valueEntry _ _ (·.mBigvecs) (fun t s => { s with mBigvecs := t })
      (fun t s h ht => ⟨⟨rfl, rfl, h.1, ht, h.3, h.4⟩, rfl⟩) (fun _ h => h.2) b hs
      (hvalue nofun)
  | CheckpointSummary c =>
    exact @handled_object s _ valueEntry _ _ (·.mCheckpoints) (fun t s => { s with mCheckpoints := t })
      (fun t s h ht => ⟨⟨rfl, rfl, h.1, h.2, ht, h.4⟩, rfl⟩) (fun _ h => h.3) c hs
      (hvalue nofun)
  | CheckpointFile c f =>
    exact @handled_object s _ valueEntry _ _ (·.mCheckpointFiles) (fun t s => { s with mCheckpointFiles := t })
      (fun t s h ht => ⟨⟨rfl, rfl, h.1, h.2, h.3, ht⟩, rfl⟩) (fun _ h => h.4) (toLex (c, f)) hs
      (hvalue nofun)
  | Script script =>
    have hpairs : ∀ k c, s.mObjectDependencies.pairs.contains k c ↔
        (k = .Script script ∧ c ∈ listed (.Script script) valueEntry) ∨ s.mObjectDependencies.pairs.contains k c := by
      intro k c
      rw [listed_of_notObject rfl]
      simp
    cases valueEntry with
    | none => exact ⟨rfl, ⟨hs.1, hs.2, hs.3, hs.4⟩, hpairs⟩
    | some value =>
      obtain ⟨-, dependencies, -, hd, -⟩ := dependencies_eq (hvalue nofun value rfl)
      show wp (modify _ >>= fun _ => orBadMatch value.dependencies >>= fun _ => pure ()) _ _ s
      rw [wp_bind, wp_modify, wp_bind, wp_orBadMatch hd]
      exact ⟨rfl, ⟨hs.1, hs.2, hs.3, hs.4⟩, hpairs⟩
  | Configuration =>
    refine ⟨rfl, hs, fun k c => ?_⟩
    rw [listed_of_notObject rfl]
    simp

/-- What an update of one key leaves: an overwrite adds what the new value depends on. -/
structure Updated (key : PersistentCacheKey) (valueEntry : Option ValueEntry)
    (s s' : PersistentCacheIndex) : Prop where
  values : s'.mKvState = setValue s.mKvState key valueEntry
  kinded : Kinded s'
  other : ∀ k c, k ≠ key → (s'.mObjectDependencies.pairs.contains k c ↔ s.mObjectDependencies.pairs.contains k c)
  same : valueEntry = lookup key s.mKvState → ∀ c,
    (s'.mObjectDependencies.pairs.contains key c ↔ s.mObjectDependencies.pairs.contains key c)
  dropped : valueEntry = none → lookup key s.mKvState ≠ none → ∀ c, ¬ s'.mObjectDependencies.pairs.contains key c
  added : valueEntry ≠ none → valueEntry ≠ lookup key s.mKvState → ∀ c, (s'.mObjectDependencies.pairs.contains key c ↔
      c ∈ listed key valueEntry ∨ s.mObjectDependencies.pairs.contains key c)

theorem lookup_setValue (m : StdMap PersistentCacheKey ValueEntry) (key k : PersistentCacheKey)
    (valueEntry : Option ValueEntry) :
    lookup k (setValue m key valueEntry) = if k = key then valueEntry else lookup k m := by
  cases valueEntry with
  | none => exact lookup_erase m key k
  | some value => exact lookup_insert m key k value

theorem updated_handleKey_ (hs : Kinded s) (hv : ∀ value ∈ valueEntry, Kind key value) :
    wp (handleKey_ key valueEntry) (fun _ s' => Updated key valueEntry s s') (fun _ _ => False) s := by
  unfold handleKey_
  rw [wp_bind, wp_get, wp_ite]
  split
  · next hne =>
    rw [wp_bind, wp_modify]
    rw [wp_ite]
    split
    · next hnone =>
      rw [wp_bind, wp_modify]
      refine (handled_kind (by exact ⟨hs.1, hs.2, hs.3, hs.4⟩) hv).imp fun _ s' h => ?_
      obtain ⟨hvalues, hk, hpairs⟩ := h
      have hpairs' : ∀ k c, s'.mObjectDependencies.pairs.contains k c ↔
          s.mObjectDependencies.pairs.contains k c ∧ k ≠ key := by
        intro k c
        rw [hpairs, hnone]
        simp [listed, ObjectDependencies.dropKey]
      refine ⟨hvalues, hk, fun k c hkey => (hpairs' k c).trans (and_iff_left hkey), fun h => absurd h hne,
        fun _ _ c hc => ((hpairs' key c).1 hc).2 rfl, fun h => absurd hnone h⟩
    · next hsome =>
      refine (handled_kind (by exact ⟨hs.1, hs.2, hs.3, hs.4⟩) hv).imp fun _ s' h => ?_
      obtain ⟨hvalues, hk, hpairs⟩ := h
      refine ⟨hvalues, hk, fun k c hkey => (hpairs k c).trans (or_iff_right fun h => hkey h.1),
        fun h => absurd h hne, fun h => absurd h hsome, fun _ _ c => (hpairs key c).trans ?_⟩
      rw [eq_self, true_and]
  · next heq =>
    rw [not_not] at heq
    refine ⟨ext_lookup fun k => ?_, hs, fun _ _ _ => Iff.rfl, fun _ _ => Iff.rfl,
      fun hnone hne => absurd (heq.symm.trans hnone) hne, fun _ hne => absurd heq hne⟩
    rw [lookup_setValue]
    split
    · next hk => rw [hk, heq]
    · rfl

/-! ## A new view -/

/-- Before the end of `resetView`: the dependencies of the known keys are those of their known values. -/
structure Restoring (known : StdMap PersistentCacheKey ValueEntry) (s : PersistentCacheIndex) : Prop where
  kinded : Kinded s
  kinds : ∀ key value, lookup key s.mKvState = some value → Kind key value
  lists : ∀ k c, s.mObjectDependencies.pairs.contains k c ↔ c ∈ listed k ((lookup k known).or (lookup k s.mKvState))

theorem Updated.kinds (h : Updated key valueEntry s s') (hv : ∀ value ∈ valueEntry, Kind key value)
    (hs : ∀ key value, lookup key s.mKvState = some value → Kind key value) :
    ∀ k value, lookup k s'.mKvState = some value → Kind k value := by
  intro k value hl
  rw [h.values, lookup_setValue] at hl
  split at hl
  · next hk => exact hk ▸ hv value hl
  · exact hs k value hl

theorem Updated.lookup (h : Updated key valueEntry s s') (k : PersistentCacheKey) :
    lookup k s'.mKvState = if k = key then valueEntry else lookup k s.mKvState := by
  rw [h.values, lookup_setValue]

variable {known : StdMap PersistentCacheKey ValueEntry}

/-- An update whose dependencies are among those of the known value. -/
theorem Restoring.updated (hr : Restoring known s) (h : Updated key valueEntry s s')
    (hv : ∀ value ∈ valueEntry, Kind key value)
    (hsub : ∀ old ∈ lookup key known, listed key valueEntry ⊆ listed key (some old))
    (hnone : ∀ old ∈ lookup key known, valueEntry = none → lookup key s.mKvState = none)
    (hnew : lookup key known = none → valueEntry ≠ none → lookup key s.mKvState = none) :
    Restoring known s' := by
  refine ⟨h.kinded, h.kinds hv hr.kinds, fun k c => ?_⟩
  rw [h.lookup]
  split
  · next hk =>
    subst hk
    have hlists := hr.lists k c
    by_cases hsame : valueEntry = lookup k s.mKvState
    · rw [h.same hsame, hlists, hsame]
    · cases hold : lookup k known with
      | some old =>
        rw [hold, Option.some_or] at hlists
        rw [Option.some_or]
        have hne : valueEntry ≠ none := fun he => hsame (he.trans (hnone old hold he).symm)
        rw [h.added hne hsame, hlists]
        exact or_iff_right_of_imp fun hc => hsub old hold hc
      | none =>
        rw [hold, Option.none_or] at hlists
        rw [Option.none_or]
        cases valueEntry with
        | none =>
          refine iff_of_false (h.dropped rfl (fun he => hsame he.symm) c) ?_
          simp [listed]
        | some value =>
          rw [hnew hold nofun] at hlists
          rw [h.added nofun hsame, hlists]
          simp [listed]
  · next hk => rw [h.other k c hk, hr.lists]

/-- The keys of the new view come in. -/
theorem Restoring.load (hr : Restoring known s)
    (changed : List (PersistentCacheKey × Option ValueEntry)) (hdistinct : (changed.map Prod.fst).Nodup)
    (hfresh : ∀ kv ∈ changed, lookup kv.1 s.mKvState = none) (hclean : ∀ kv ∈ changed, ∀ value ∈ kv.2, Kind kv.1 value ∧
      ∀ old ∈ lookup kv.1 known, listed kv.1 (some value) ⊆ listed kv.1 (some old)) :
    wp (changed.forM fun kv => handleKey_ kv.1 kv.2) (fun _ s' => Restoring known s') (fun _ _ => False) s := by
  induction changed generalizing s with
  | nil => exact hr
  | cons kv changed ih =>
    rw [List.map_cons, nodup_cons] at hdistinct
    have hv : ∀ value ∈ kv.2, Kind kv.1 value := fun value hm => (hclean kv (.head _) value hm).1
    have hlookup := hfresh kv (.head _)
    show wp (handleKey_ kv.1 kv.2 >>= fun _ => changed.forM fun kv => handleKey_ kv.1 kv.2) _ _ s
    rw [wp_bind]
    refine (updated_handleKey_ hr.kinded hv).imp fun _ s₁ h₁ => ?_
    refine ih (hr.updated h₁ hv (fun old hold => ?_) (fun _ _ _ => hlookup) fun _ _ => hlookup)
      hdistinct.2 (fun kv' hm => ?_) fun kv' hm => hclean kv' (.tail _ hm)
    · cases hvalue : kv.2 with
      | none => simp [listed]
      | some value => exact (hclean kv (.head _) value hvalue).2 old hold
    · rw [h₁.lookup, if_neg, hfresh kv' (.tail _ hm)]
      rintro heq
      exact hdistinct.1 (heq ▸ mem_map_of_mem hm)

/-- The known values are written back. -/
theorem Restoring.restore (hr : Restoring known s) (hkinds : ∀ k value, lookup k known = some value → Kind k value) :
    wp (known.ascendingEntries.forM fun kv => do
        if Finmap.lookup kv.1 (← get).mKvState ≠ some kv.2 then
          handleKey_ kv.1 (some kv.2))
      (fun _ s' => Restoring known s' ∧ ∀ k value, lookup k known = some value → lookup k s'.mKvState = some value)
      (fun _ _ => False) s := by
  refine (wp_forM (fun l s' => Restoring known s' ∧
    (∀ kv ∈ l, lookup kv.1 known = some kv.2) ∧ ∀ k value, lookup k known = some value →
      (k, value) ∈ l ∨ lookup k s'.mKvState = some value) (fun kv l s₀ h₀ => ?_) _
    ⟨hr, fun kv hm => mem_ascendingEntries.1 hm,
      fun k value hl => .inl (mem_ascendingEntries.2 hl)⟩).imp fun _ s' h =>
        ⟨h.1, fun k value hl => (h.2.2 k value hl).resolve_left nofun⟩
  obtain ⟨hr₀, hl, hdone⟩ := h₀
  have hknown := hl kv (.head _)
  rw [wp_bind, wp_get, wp_ite]
  split
  · have hv : ∀ value ∈ some kv.2, Kind kv.1 value := fun value hm =>
      Option.some.inj hm ▸ hkinds kv.1 kv.2 hknown
    refine (updated_handleKey_ hr₀.kinded hv).imp fun _ s₁ h₁ => ?_
    refine ⟨hr₀.updated h₁ hv (fun old hold => ?_) nofun (fun hnone => ?_),
      fun kv' hm => hl kv' (.tail _ hm), fun k value hk => ?_⟩
    · rw [← hknown, hold]
    · rw [hknown] at hnone
      cases hnone
    · rw [h₁.lookup]
      split
      · next heq =>
        subst heq
        exact .inr (hknown.symm.trans hk)
      · next hne =>
        refine (hdone k value hk).imp_left fun hm => ?_
        exact (mem_cons.1 hm).resolve_left fun he => hne (congrArg Prod.fst he)
  · next hsame =>
    rw [not_not] at hsame
    refine ⟨hr₀, fun kv' hm => hl kv' (.tail _ hm), fun k value hk => ?_⟩
    rcases hdone k value hk with hm | hdone
    · rcases mem_cons.1 hm with heq | hm
      · obtain rfl := heq
        exact .inr hsame
      · exact .inl hm
    · exact .inr hdone

/-- The keys that only the new view has are dropped. -/
theorem Restoring.drop (hr : Restoring known s) (l : List PersistentCacheKey) (hl : ∀ k ∈ l, lookup k known = none) :
    wp (l.forM fun k => handleKey_ k none) (fun _ s' => Restoring known s' ∧
        ∀ k, lookup k s'.mKvState = if k ∈ l then none else lookup k s.mKvState)
      (fun _ _ => False) s := by
  induction l generalizing s with
  | nil => exact ⟨hr, fun k => (if_neg not_mem_nil).symm⟩
  | cons a l ih =>
    have ha := hl a (.head _)
    show wp (handleKey_ a none >>= fun _ => l.forM fun k => handleKey_ k none) _ _ s
    rw [wp_bind]
    have hv : ∀ value ∈ (none : Option ValueEntry), Kind a value := fun value hm => by cases hm
    refine (updated_handleKey_ hr.kinded hv).imp fun _ s₁ h₁ => ?_
    have hr₁ := hr.updated h₁ hv (fun _ _ => by simp [listed])
      (fun old hold => by rw [ha] at hold; cases hold) fun _ h => absurd rfl h
    refine (ih hr₁ fun k hk => hl k (.tail _ hk)).imp fun _ s' h => ⟨h.1, fun k => ?_⟩
    rw [h.2, h₁.lookup]
    split
    · next hk => rw [if_pos (.tail _ hk)]
    · next hk => simp [hk]

/-! ## Every run -/

/-- Between two calls. -/
structure Tended (s : PersistentCacheIndex) : Prop where
  kinded : Kinded s
  kinds : ∀ key value, lookup key s.mKvState = some value → Kind key value
  lists : Lists s

theorem tended_empty : Tended {} where
  kinded := ⟨nofun, nofun, nofun, nofun⟩
  kinds := nofun
  lists key child := by
    refine iff_of_false contains_empty ?_
    exact notMem_empty _

theorem Tended.update (h : Tended s)
    (hclean : ∀ value ∈ valueEntry, Kind key value ∧ listed key (lookup key s.mKvState) ⊆ listed key (some value)) :
    wp (handleKey_ key valueEntry) (fun _ s' => Tended s') (fun _ _ => False) s := by
  have hv : ∀ value ∈ valueEntry, Kind key value := fun value hm => (hclean value hm).1
  refine (updated_handleKey_ h.kinded hv).imp fun _ s' h' => ⟨h'.kinded, h'.kinds hv h.kinds, ?_⟩
  intro k c
  rw [h'.lookup]
  split
  · next hk =>
    subst hk
    have hlists := h.lists k c
    by_cases hsame : valueEntry = lookup k s.mKvState
    · rw [h'.same hsame, hlists, hsame]
    · cases valueEntry with
      | none =>
        refine iff_of_false (h'.dropped rfl (fun he => hsame he.symm) c) ?_
        simp [listed]
      | some value =>
        rw [h'.added nofun hsame, hlists]
        exact or_iff_left_of_imp fun hc => (hclean value rfl).2 hc
  · next hk => rw [h'.other k c hk, h.lists]

theorem Tended.resetView (h : Tended s) {changed : List (PersistentCacheKey × Option ValueEntry)}
    (hdistinct : (changed.map Prod.fst).Nodup) (hclean : ∀ kv ∈ changed, ∀ value ∈ kv.2, Kind kv.1 value ∧
      ∀ known ∈ Finmap.lookup kv.1 s.mKvState, listed kv.1 (some value) ⊆ listed kv.1 (some known)) :
    wp (resetView changed) (fun _ s' => Tended s') (fun _ _ => False) s := by
  have hcleared : Restoring s.mKvState (clearAllState_ s) := by
    refine ⟨⟨nofun, nofun, nofun, nofun⟩, nofun, fun k c => ?_⟩
    show s.mObjectDependencies.pairs.contains k c ↔ c ∈ listed k ((Finmap.lookup k s.mKvState).or none)
    rw [Option.or_none, h.lists]
  unfold PersistentCacheIndex.resetView
  rw [wp_bind, wp_get, wp_bind, wp_modify, wp_bind]
  refine (hcleared.load changed hdistinct (fun _ _ => rfl) hclean).imp fun _ s₁ h₁ => ?_
  rw [wp_bind]
  refine (h₁.restore h.kinds).imp fun _ s₂ h₂ => ?_
  rw [wp_bind, wp_get, wp_bind]
  refine (h₂.1.drop _ fun k hk => ?_).imp fun _ s₃ h₃ => ?_
  · rw [mem_ascending, mem_sdiff, Finmap.mem_keys, Finmap.mem_keys] at hk
    exact lookup_eq_none.2 hk.2
  · have hkv : s₃.mKvState = s.mKvState := by
      refine ext_lookup fun k => ?_
      rw [h₃.2]
      cases hk : Finmap.lookup k s.mKvState with
      | none =>
        split
        · rfl
        · next hnot =>
          refine Option.eq_none_iff_forall_ne_some.2 fun value hl => hnot ?_
          rw [mem_ascending, mem_sdiff, mem_keys_iff, mem_keys_iff, hk]
          exact ⟨⟨value, hl⟩, nofun⟩
      | some value =>
        rw [if_neg, h₂.2 k value hk]
        rw [mem_ascending, mem_sdiff, mem_keys_iff, mem_keys_iff]
        exact fun hm => hm.2 ⟨value, hk⟩
    rw [wp_bind, wp_get, wp_lassert, if_pos (by rw [hkv])]
    refine ⟨h₃.1.kinded, h₃.1.kinds, fun k c => ?_⟩
    rw [h₃.1.lists, hkv, Option.or_self]

/-- One call. -/
theorem Tended.step (h : Tended s) {op : Op} (hclean : op.Clean s) : Tended (step s op) := by
  cases op with
  | update key valueEntry => exact ((h.update hclean).mono (fun _ _ => id) fun _ _ => False.elim).exec
  | resetView changed distinct =>
    exact ((h.resetView distinct hclean).mono (fun _ _ => id) fun _ _ => False.elim).exec

theorem Tended.run (h : Tended s) {ops : List Op} (hclean : Clean s ops) : Tended (run s ops) := by
  induction ops generalizing s with
  | nil => exact h
  | cons op ops ih => exact ih (h.step hclean.1) hclean.2

end

/-- After every sequence of updates and new views that take no dependency away, the table of
dependencies holds what the current values list. -/
theorem lists_of_clean (ops : List Op) (h : Clean {} ops) : Lists (run {} ops) := (tended_empty.run h).lists

/-- A page that comes to depend on a second vector, and a view that still has its first value. -/
theorem lists_of_clean_reset : Clean {} [.update (.Page 0) (some (.Valid {1} 8 0 0 false 0 ∅)),
      .update (.Page 0) (some (.Valid {1, 2} 8 0 1 false 0 ∅)),
      .resetView [(.Page 0, some (.Valid {1} 8 0 0 false 0 ∅))] (by simp)] ∧
    Lists (run {} [.update (.Page 0) (some (.Valid {1} 8 0 0 false 0 ∅)),
      .update (.Page 0) (some (.Valid {1, 2} 8 0 1 false 0 ∅)),
      .resetView [(.Page 0, some (.Valid {1} 8 0 0 false 0 ∅))] (by simp)]) := by
  refine ⟨?_, lists_of_clean _ ?_⟩
  all_goals decide

/-- A page that depended on one vector and then on another one depends on both. -/
theorem not_lists : ¬ ∀ ops, Lists (run {} ops) := by
  intro h
  have hlists := h [.update (.Page 0) (some (.Valid {1} 8 0 0 false 0 ∅)),
    .update (.Page 0) (some (.Valid {2} 8 0 0 false 0 ∅))] (.Page 0) (.BigvecDefinition 1)
  revert hlists
  decide

end PersistentCacheIndex

end Cumulus
