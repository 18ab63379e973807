import Ufora.Threading.WorkerThreadPoolImpl

/-!
# What the workers of a pool compute

Interrupting a computation changes nothing that the claims about the pool speak of, so a pool is read through its
`tables`, which leave the interruptions out. Each call has one lemma that says which tables it leaves.
-/

open Ordered Effect List Finmap Option Cumulus.WorkerThreadPoolImpl.InProgressComputation
  Cumulus.WorkerThreadPoolImpl.ComputablePriority

namespace Cumulus.WorkerThreadPoolImpl

variable {τ : Type} {s s' : WorkerThreadPoolImpl τ}

/-- A pool without its interruptions: of an object its priority, and whether it has a state. -/
structure Tables (τ : Type) where
  pending : StdMap ComputationId (List LocalComputationPriorityAndStatusChanged)
  computable : StdMap ComputationId (ComputablePriority τ)
  computing : StdMap ComputationId ℕ
  objects : List (ComputablePriority τ × Bool)

/-- What an object is without its interruption. -/
def InProgressComputation.view (object : InProgressComputation τ) : ComputablePriority τ × Bool :=
  (object.mComputablePriority, object.mState)

/-- The tables of a pool. -/
def tables (s : WorkerThreadPoolImpl τ) : Tables τ where
  pending := s.mStatusChangesPendingCheckin
  computable := s.mComputablePriorities
  computing := s.mComputing
  objects := s.objects.map view

/-- The pointers of the computing map point to objects. -/
def Tables.Pointing (t : Tables τ) : Prop := ∀ id p, lookup id t.computing = some p → p < t.objects.length

/-! ## Interruptions -/

theorem map_view_modify {l : List (InProgressComputation τ)} {p : ℕ}
    {f : InProgressComputation τ → InProgressComputation τ}
    {g : ComputablePriority τ × Bool → ComputablePriority τ × Bool} (h : ∀ o, (f o).view = g o.view) :
    (l.modify p f).map view = (l.map view).modify p g := by
  refine ext_getElem? fun i => ?_
  rw [getElem?_map, getElem?_modify, getElem?_modify, getElem?_map]
  split
  · cases l[i]? with
    | none => rfl
    | some o => exact congrArg some (h o)
  · cases l[i]? <;> rfl

@[simp] theorem tables_interrupt (p : ℕ) : (s.interrupt p).tables = s.tables := by
  have h : (s.objects.modify p fun object => { object with mIsInterrupted := true }).map
      view = s.objects.map view :=
    (map_view_modify (f := fun object => { object with mIsInterrupted := true }) (g := id)
      fun _ => rfl).trans (modify_id _ _)
  exact congrArg (Tables.mk _ _ _) h

theorem object_iff {p : ℕ} {v : ComputablePriority τ × Bool} :
    s.tables.objects[p]? = some v ↔ ∃ o, s.objects[p]? = some o ∧ o.view = v := by
  unfold tables
  rw [getElem?_map, map_eq_some_iff]

theorem wp_object {p : ℕ} {Q : InProgressComputation τ → WorkerThreadPoolImpl τ → Prop}
    {E : PoolError → WorkerThreadPoolImpl τ → Prop} {o : InProgressComputation τ} (ho : s.objects[p]? = some o) :
    wp (object p) Q E s ↔ Q o s := by
  unfold object
  rw [wp_bind, wp_get, ho]
  exact wp_pure _

theorem lowerPriority_mem (lowest : Option ℕ) (p : ℕ) :
    ∃ q, s.lowerPriority lowest p = some q ∧ (lowest = some q ∨ q = p) := by
  unfold lowerPriority
  cases lowest with
  | none => exact ⟨p, rfl, .inr rfl⟩
  | some other =>
    dsimp only
    split
    · refine ⟨_, rfl, ?_⟩
      split
      · exact .inr rfl
      · exact .inl rfl
    · exact ⟨other, rfl, .inl rfl⟩

/-- The least of some computations is one of them. -/
theorem foldl_lowerPriority (l : List ℕ) (lowest : Option ℕ) (h : lowest ≠ none ∨ l ≠ []) :
    ∃ q, l.foldl s.lowerPriority lowest = some q ∧ (lowest = some q ∨ q ∈ l) := by
  induction l generalizing lowest with
  | nil =>
    obtain ⟨q, hq⟩ := ne_none_iff_exists'.1 (h.resolve_right fun hne => hne rfl)
    exact ⟨q, hq, .inl hq⟩
  | cons p l ih =>
    obtain ⟨next, hnext, hfrom⟩ := lowerPriority_mem (s := s) lowest p
    obtain ⟨q, hq, hmem⟩ := ih (s.lowerPriority lowest p) (.inl (by rw [hnext]; exact nofun))
    refine ⟨q, hq, ?_⟩
    rcases hmem with hmem | hmem
    · rw [hnext] at hmem
      obtain rfl := some.inj hmem
      rcases hfrom with hfrom | rfl
      · exact .inl hfrom
      · exact .inr mem_cons_self
    · exact .inr (.tail _ hmem)

/-- Among computations in progress there is one of the lowest priority. -/
theorem exists_lowestPriorityComputing (h : s.mComputing.keys.card ≠ 0) :
    ∃ p id, s.getLowestPriorityComputing = some p ∧ lookup id s.mComputing = some p := by
  obtain ⟨id, hid⟩ := Finset.card_ne_zero.1 h
  obtain ⟨q, hq⟩ := StdMap.mem_keys_iff.1 hid
  obtain ⟨p, hp, hmem⟩ := foldl_lowerPriority (s := s) ((ascending s.mComputing.keys).filterMap fun id =>
    lookup id s.mComputing) none
    (.inr (ne_nil_of_mem (mem_filterMap.2 ⟨id, mem_ascending.2 hid, hq⟩)))
  obtain ⟨id', -, hid'⟩ := mem_filterMap.1 (hmem.resolve_left nofun)
  exact ⟨p, id', hp, hid'⟩

theorem wp_interruptComputationIfLowerPriority (h : s.tables.Pointing) (priority : ComputationPriority) :
    wp (interruptComputationIfLowerPriority priority) (fun _ s' => s'.tables = s.tables) (fun _ _ => False) s := by
  unfold interruptComputationIfLowerPriority
  rw [wp_bind, wp_get, wp_ite]
  split
  · rfl
  · next hbusy =>
    obtain ⟨p, id, hp, hid⟩ := exists_lowestPriorityComputing fun h0 => hbusy (.inl h0)
    have hlt := h id p hid
    rw [tables, length_map] at hlt
    rw [hp]
    rw [wp_bind, wp_object (getElem?_eq_getElem hlt), wp_ite]
    split
    · exact tables_interrupt p
    · rfl

/-! ## Status changes -/

/-- The tables with other computable computations. -/
def Tables.withComputable (t : Tables τ) (computable : StdMap ComputationId (ComputablePriority τ)) : Tables τ :=
  { t with computable }

theorem wp_insertToComputableSet (h : s.tables.Pointing) {c : ComputablePriority τ}
    (hc : ¬ s.isComputing c.computationId) :
    wp (insertToComputableSet c)
      (fun _ s' => s'.tables = s.tables.withComputable (Finmap.insert c.computationId c s.mComputablePriorities))
      (fun _ _ => False) s := by
  unfold insertToComputableSet
  rw [wp_bind, wp_get, wp_bind, wp_lassert, if_pos hc, wp_bind, wp_modify]
  exact wp_interruptComputationIfLowerPriority
    (s := { s with mComputablePriorities := Finmap.insert c.computationId c s.mComputablePriorities }) h _

/-- The computable computations after a change of one that is not computed. -/
def computableAfter (computable : StdMap ComputationId (ComputablePriority τ))
    (change : LocalComputationPriorityAndStatusChanged) (now : τ) : StdMap ComputationId (ComputablePriority τ) :=
  match standingAfter change with
  | none => erase change.computation computable
  | some priority =>
    Finmap.insert change.computation ⟨priority, now, change.computation⟩
      (erase change.computation computable)

/-- Only the entry of a computation differs, and it is one of that computation. -/
structure OnlyAt (id : ComputationId)
    (computable computable' : StdMap ComputationId (ComputablePriority τ)) : Prop where
  others : ∀ id', id' ≠ id → lookup id' computable' = lookup id' computable
  keyed : ∀ c, lookup id computable' = some c → c.computationId = id

theorem OnlyAt.trans {id : ComputationId} {m m' m'' : StdMap ComputationId (ComputablePriority τ)}
    (h : OnlyAt id m m') (h' : OnlyAt id m' m'') : OnlyAt id m m'' :=
  ⟨fun id' hne => (h'.others id' hne).trans (h.others id' hne), h'.keyed⟩

theorem onlyAt_computableAfter (m : StdMap ComputationId (ComputablePriority τ))
    (change : LocalComputationPriorityAndStatusChanged) (now : τ) :
    OnlyAt change.computation m (computableAfter m change now) ∧
      (lookup change.computation (computableAfter m change now)).map priority =
        standingAfter change := by
  unfold computableAfter
  split
  · next hnone =>
    refine ⟨⟨fun id hne => ?_, fun c hc => ?_⟩, ?_⟩
    · rw [StdMap.lookup_erase, if_neg hne]
    · rw [StdMap.lookup_erase, if_pos rfl] at hc
      cases hc
    · rw [StdMap.lookup_erase, if_pos rfl, hnone]
      rfl
  · next priority hsome =>
    refine ⟨⟨fun id hne => ?_, fun c hc => ?_⟩, ?_⟩
    · rw [StdMap.lookup_insert, if_neg hne, StdMap.lookup_erase, if_neg hne]
    · rw [StdMap.lookup_insert, if_pos rfl] at hc
      rw [← some.inj hc]
    · rw [StdMap.lookup_insert, if_pos rfl, hsome]
      rfl

/-- What the replay of changes of a computation leaves: the last of them decides. -/
def lastStanding (changes : List LocalComputationPriorityAndStatusChanged) (before : Option ComputationPriority) :
    Option ComputationPriority :=
  changes.foldl (fun _ change => standingAfter change) before

variable [LinearOrder τ]

theorem wp_onComputationStatusChanged (h : s.tables.Pointing)
    {change : LocalComputationPriorityAndStatusChanged} (hc : ¬ s.isComputing change.computation) (now : τ) :
    wp (onComputationStatusChanged change now)
      (fun _ s' => s'.tables = s.tables.withComputable (computableAfter s.mComputablePriorities change now))
      (fun _ _ => False) s := by
  unfold onComputationStatusChanged computableAfter standingAfter
  rw [wp_bind, wp_get, wp_ite, if_neg hc, wp_bind, wp_modify, wp_ite]
  split
  · next hcomputable =>
    unfold addToComputableSet
    have hc' : ¬ (s.removeFromComputableSet change.computation).isComputing change.computation := hc
    rw [wp_bind, wp_get, wp_ite, if_neg hc', wp_ite]
    split
    · next hnull =>
      rw [if_neg fun hno => by rw [hnull] at hno; cases hno.2]
      rfl
    · next hnull =>
      rw [if_pos ⟨hcomputable, Bool.eq_false_iff.2 hnull⟩]
      exact wp_insertToComputableSet (s := s.removeFromComputableSet change.computation) h hc
  · next hno =>
    rw [if_neg fun hyes => hno hyes.1]
    rfl

theorem wp_replay {id : ComputationId} (now : ℕ → τ) (changes : List (LocalComputationPriorityAndStatusChanged × ℕ))
    (hid : ∀ change ∈ changes, change.1.computation = id) (h : s.tables.Pointing) (hc : ¬ s.isComputing id)
    (hkeyed : ∀ c, lookup id s.mComputablePriorities = some c → c.computationId = id) :
    wp (changes.forM fun change => onComputationStatusChanged change.1 (now change.2))
      (fun _ s' => ∃ computable, s'.tables = s.tables.withComputable computable ∧
        OnlyAt id s.mComputablePriorities computable ∧
        (lookup id computable).map priority = lastStanding (changes.map Prod.fst)
            ((lookup id s.mComputablePriorities).map priority))
      (fun _ _ => False) s := by
  induction changes generalizing s with
  | nil => exact ⟨s.mComputablePriorities, rfl, ⟨fun _ _ => rfl, hkeyed⟩, rfl⟩
  | cons change changes ih =>
    obtain rfl := hid change mem_cons_self
    rw [List.forM, wp_bind]
    refine (wp_onComputationStatusChanged h hc (now change.2)).mono ?_ fun _ _ => False.elim
    intro _ s₁ ht
    obtain ⟨honly, hstands⟩ := onlyAt_computableAfter s.mComputablePriorities change.1 (now change.2)
    have hcomputable : s₁.mComputablePriorities =
        computableAfter s.mComputablePriorities change.1 (now change.2) := congrArg Tables.computable ht
    have hcomputing : s₁.mComputing = s.mComputing := congrArg Tables.computing ht
    refine (ih (fun c hc' => hid c (.tail _ hc')) (ht ▸ h)
      (fun hin => hc (hcomputing ▸ hin : change.1.computation ∈ s.mComputing)) ?_).mono ?_ fun _ _ => False.elim
    · rw [hcomputable]
      exact honly.keyed
    · rintro _ s₂ ⟨computable, ht₂, honly₂, hlast⟩
      rw [hcomputable] at honly₂ hlast
      refine ⟨computable, by rw [ht₂, ht]; rfl, honly.trans honly₂, ?_⟩
      rw [hlast, hstands]
      rfl

/-- A change of a computation that is computed waits for its return. -/
theorem tables_updateComputingPriority {id : ComputationId} {p : ℕ} (hp : lookup id s.mComputing = some p)
    (priority : ComputationPriority) :
    (s.updateComputingPriority id priority).tables = { s.tables with
        objects := s.tables.objects.modify p fun o => ({ o.1 with priority := priority }, o.2) } := by
  have hupdate : (s.updatePriority p priority).tables = { s.tables with
        objects := s.tables.objects.modify p fun o => ({ o.1 with priority := priority }, o.2) } := by
    have h : (s.objects.modify p fun object =>
        { object with mComputablePriority := { object.mComputablePriority with priority := priority } }).map
        view = (s.objects.map view).modify p fun o =>
          ({ o.1 with priority := priority }, o.2) :=
      map_view_modify fun _ => rfl
    exact congrArg (Tables.mk _ _ _) h
  unfold updateComputingPriority
  rw [hp]
  dsimp only
  split
  · rw [tables_interrupt]
    exact hupdate
  · exact hupdate

/-! ## Giving a computation back -/

/-- The tables without a computation that was computed, and with other computable computations. -/
def Tables.givenBack (t : Tables τ) (id : ComputationId)
    (computable : StdMap ComputationId (ComputablePriority τ)) : Tables τ :=
  { t with
    pending := erase id t.pending
    computing := erase id t.computing
    computable := computable }

/-- Erasing a key that is not there. -/
theorem erase_of_lookup_eq_none {κ ν : Type} [DecidableEq κ] {m : StdMap κ ν} {k : κ}
    (h : lookup k m = none) : erase k m = m := by
  refine ext_lookup fun k' => ?_
  rw [StdMap.lookup_erase]
  split
  · next he => rw [he, h]
  · rfl

theorem wp_processPendingCheckin {id : ComputationId} (now : ℕ → τ) (h : s.tables.Pointing) (hc : ¬ s.isComputing id)
    (hid : ∀ changes, lookup id s.mStatusChangesPendingCheckin = some changes →
      ∀ change ∈ changes, change.computation = id)
    (hkeyed : ∀ c, lookup id s.mComputablePriorities = some c → c.computationId = id) :
    wp (processLocalComputationStatusUpdatesPendingCheckin id now)
      (fun _ s' => ∃ computable, s'.tables = s.tables.givenBack id computable ∧
        OnlyAt id s.mComputablePriorities computable ∧
        (lookup id computable).map priority =
          lastStanding ((lookup id s.mStatusChangesPendingCheckin).getD [])
            ((lookup id s.mComputablePriorities).map priority))
      (fun _ _ => False) s := by
  have hcomputing : erase id s.mComputing = s.mComputing := erase_of_lookup_eq_none (lookup_eq_none.2 hc)
  unfold processLocalComputationStatusUpdatesPendingCheckin
  rw [wp_bind, wp_get, wp_bind, wp_lassert, if_pos hc]
  cases hl : lookup id s.mStatusChangesPendingCheckin with
  | none =>
    refine ⟨s.mComputablePriorities, ?_, ⟨fun _ _ => rfl, hkeyed⟩, rfl⟩
    unfold Tables.givenBack tables
    rw [hcomputing, erase_of_lookup_eq_none hl]
  | some changes =>
    rw [wp_bind]
    refine (wp_replay now changes.zipIdx (fun change hchange => ?_) h hc hkeyed).mono ?_ fun _ _ => False.elim
    · exact hid changes hl change.1 (fst_mem_of_mem_zipIdx hchange)
    · rintro _ s₁ ⟨computable, ht, honly, hlast⟩
      rw [wp_modify]
      refine ⟨computable, ?_, honly, ?_⟩
      · have hpending : s₁.mStatusChangesPendingCheckin = s.mStatusChangesPendingCheckin := congrArg Tables.pending ht
        refine (congrArg (fun t : Tables τ => { t with
          pending := erase id s₁.mStatusChangesPendingCheckin }) ht).trans ?_
        rw [hpending]
        unfold Tables.givenBack tables
        rw [hcomputing]
        rfl
      · rw [hlast, zipIdx_map_fst]
        rfl

end Cumulus.WorkerThreadPoolImpl
