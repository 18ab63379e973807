import Ufora.Threading.WorkerTurns

/-!
# The workers of a pool

The invariant of the pool, its threads and what is known of the computations from outside, and that every step
keeps it (`correct_run`).
-/

open Ordered Effect List Finset Finmap Option Function StdMap False Cumulus.WorkerThreadPoolImpl.Worker
  Cumulus.WorkerThreadPoolImpl Cumulus.WorkerThreadPoolImpl.InProgressComputation

namespace Cumulus.WorkerThreadPoolImpl

variable {τ : Type}

/-! ## What is kept -/

/-- What holds between the steps. A computation is computed by one thread, and is not computable then. One that
is not computed is computable as it stands. The changes of one that is computed wait, the last of them being how it
stands; where none came, it stands as it was selected. -/
structure Sound {n : ℕ} (t : Tables τ) (workers : Fin n → Worker)
    (standing : StdMap ComputationId ComputationPriority) (changed : Finset ComputationId) : Prop where
  computed : ∀ id p, lookup id t.computing = some p →
    (∃ o, t.objects[p]? = some o ∧ o.1.computationId = id) ∧ ∃ w, (workers w).computation = some p
  held : ∀ w p, (workers w).computation = some p →
    ∃ o, t.objects[p]? = some o ∧ lookup o.1.computationId t.computing = some p
  distinct : ∀ w w' p, (workers w).computation = some p → (workers w').computation = some p → w = w'
  apart : ∀ id p, lookup id t.computing = some p → lookup id t.computable = none
  keyed : ∀ id c, lookup id t.computable = some c → c.computationId = id
  pending : ∀ id l, lookup id t.pending = some l → id ∈ t.computing ∧ ∀ change ∈ l, change.computation = id
  fresh : ∀ w p, workers w = .selected p ∨ workers w = .checkedOut p → ∀ o, t.objects[p]? = some o → o.2 = false
  idle : ∀ id, id ∉ t.computing → (lookup id t.computable).map ComputablePriority.priority = lookup id standing
  nonNull : ∀ id priority, lookup id standing = some priority → priority.isNull = false
  unchanged : ∀ id p o, lookup id t.computing = some p → t.objects[p]? = some o → id ∉ changed →
    lookup id t.pending = none ∧ lookup id standing = some o.1.priority
  waits : ∀ id, id ∈ t.computing → id ∈ changed → ∃ l change,
    lookup id t.pending = some (l ++ [change]) ∧ lookup id standing = standingAfter change
  decided : ∀ w p needsReturn computable, workers w = .decided p needsReturn computable →
    ∀ o, t.objects[p]? = some o → o.1.computationId ∉ changed → needsReturn = !computable

section
variable {n : ℕ} {t : Tables τ} {workers : Fin n → Worker} {changed : Finset ComputationId}
  {standing standing' : StdMap ComputationId ComputationPriority}

theorem Sound.pointing (h : Sound t workers standing changed) : t.Pointing := by
  intro id p hp
  obtain ⟨⟨o, ho, -⟩, -⟩ := h.computed id p hp
  exact (List.getElem?_eq_some_iff.1 ho).1

theorem mem_iff_lookup {κ ν : Type} [DecidableEq κ] {m : StdMap κ ν} {k : κ} : k ∈ m ↔ ∃ v, lookup k m = some v := by
  rw [← Finmap.mem_keys, mem_keys_iff]

variable {change : LocalComputationPriorityAndStatusChanged} {priority : ComputationPriority}

theorem standingAfter_nonNull
    (h : standingAfter change = some priority) : priority.isNull = false := by
  unfold standingAfter at h
  split at h
  · next hc => exact some.inj h ▸ hc.2
  · cases h

/-- What a change says is how the computation stands. -/
def Restands (standing standing' : StdMap ComputationId ComputationPriority)
    (change : LocalComputationPriorityAndStatusChanged) : Prop :=
  ∀ id, lookup id standing' = if id = change.computation then standingAfter change else lookup id standing

theorem Restands.nonNull (hr : Restands standing standing' change)
    (h : ∀ id priority, lookup id standing = some priority → priority.isNull = false) :
    ∀ id priority, lookup id standing' = some priority → priority.isNull = false := by
  intro id priority hp
  rw [hr] at hp
  split at hp
  · exact standingAfter_nonNull hp
  · exact h id priority hp

/-- A change of a computation that is not computed. -/
theorem Sound.changeIdle (h : Sound t workers standing changed) (hc : change.computation ∉ t.computing) (now : τ)
    (hr : Restands standing standing' change) :
    Sound (t.withComputable (computableAfter t.computable change now)) workers standing'
      (insert change.computation changed) := by
  obtain ⟨honly, hstands⟩ := onlyAt_computableAfter t.computable change now
  have hne : ∀ id, id ∈ t.computing → id ≠ change.computation := fun id hid he => hc (he ▸ hid)
  refine ⟨h.computed, h.held, h.distinct, fun id p hp => ?_, fun id c hcomputable => ?_, h.pending, h.fresh,
    fun id hid => ?_, hr.nonNull h.nonNull, fun id p o hp ho hno => ?_, fun id hid hin => ?_,
    fun w p needsReturn computable hw o ho hno => ?_⟩
  · exact (honly.others id (hne id (mem_iff_lookup.2 ⟨p, hp⟩))).trans (h.apart id p hp)
  · by_cases he : id = change.computation
    · subst he
      exact honly.keyed c hcomputable
    · exact h.keyed id c ((honly.others id he).symm.trans hcomputable)
  · rw [hr]
    split
    · next he =>
      rw [he]
      exact hstands
    · next he => exact (congrArg _ (honly.others id he)).trans (h.idle id hid)
  · obtain ⟨hpending, hold⟩ := h.unchanged id p o hp ho fun hin => hno (mem_insert_of_mem hin)
    refine ⟨hpending, ?_⟩
    rw [hr, if_neg (hne id (mem_iff_lookup.2 ⟨p, hp⟩)), hold]
  · obtain ⟨l, last, hl, hlast⟩ := h.waits id hid ((mem_insert.1 hin).resolve_left (hne id hid))
    refine ⟨l, last, hl, ?_⟩
    rw [hr, if_neg (hne id hid), hlast]
  · exact h.decided w p needsReturn computable hw o ho fun hin => hno (mem_insert_of_mem hin)

variable {objects : List (ComputablePriority τ × Bool)} {o : ComputablePriority τ × Bool}

/-- An object after the priority of one of them was set. -/
theorem getElem?_setPriority {p q : ℕ}
    (h : (objects.modify p fun o => ({ o.1 with priority := priority }, o.2))[q]? = some o) :
    ∃ o', objects[q]? = some o' ∧ o'.1.computationId = o.1.computationId ∧ o'.2 = o.2 ∧ (q ≠ p → o' = o) := by
  rw [getElem?_modify] at h
  obtain ⟨o', ho', rfl⟩ := map_eq_some_iff.1 h
  refine ⟨o', ho', ?_⟩
  split
  · next he => exact ⟨rfl, rfl, fun hne => absurd he.symm hne⟩
  · exact ⟨rfl, rfl, fun _ => rfl⟩

variable (h : Sound t workers standing changed)
include h

/-- A change of a computation that is computed. -/
theorem Sound.changeComputing {p : ℕ}
    (hp : lookup change.computation t.computing = some p) (hr : Restands standing standing' change) : Sound
      { t with
        pending := insert change.computation (t.pending.get change.computation ++ [change]) t.pending
        objects := t.objects.modify p fun o => ({ o.1 with priority := change.newPriority }, o.2) }
      workers standing' (insert change.computation changed) := by
  have hobject : ∀ (q : ℕ) (o : ComputablePriority τ × Bool), t.objects[q]? = some o →
      ∃ o' : ComputablePriority τ × Bool, (t.objects.modify p fun o =>
        ({ o.1 with priority := change.newPriority }, o.2))[q]? = some o' ∧
        o'.1.computationId = o.1.computationId := by
    intro q o ho
    rw [getElem?_modify, ho]
    refine ⟨_, rfl, ?_⟩
    split <;> rfl
  have hne : ∀ id q, lookup id t.computing = some q → id ≠ change.computation → q ≠ p := by
    intro id q hq hne he
    obtain ⟨⟨o, ho, hid⟩, -⟩ := h.computed id q hq
    obtain ⟨⟨o', ho', hid'⟩, -⟩ := h.computed _ p hp
    rw [he, ho'] at ho
    exact hne (hid.symm.trans (some.inj ho ▸ hid'))
  refine ⟨fun id q hq => ?_, fun w q hw => ?_, h.distinct, h.apart, h.keyed, fun id l hl => ?_,
    fun w q hw o ho => ?_, fun id hid => ?_, hr.nonNull h.nonNull, fun id q o hq ho hno => ?_,
    fun id hid hin => ?_, fun w q needsReturn computable hw o ho hno => ?_⟩
  · obtain ⟨⟨o, ho, hid⟩, hw⟩ := h.computed id q hq
    obtain ⟨o', ho', hid'⟩ := hobject q o ho
    exact ⟨⟨o', ho', hid'.trans hid⟩, hw⟩
  · obtain ⟨o, ho, hid⟩ := h.held w q hw
    obtain ⟨o', ho', hid'⟩ := hobject q o ho
    exact ⟨o', ho', hid' ▸ hid⟩
  · have hlookup := (lookup_insert _ _ _ _).symm.trans hl
    split at hlookup
    · next he =>
      subst he
      refine ⟨mem_iff_lookup.2 ⟨p, hp⟩, fun c hc => ?_⟩
      rw [← some.inj hlookup, mem_append, List.mem_singleton] at hc
      rcases hc with hc | rfl
      · unfold StdMap.get at hc
        cases hold : lookup change.computation t.pending with
        | none => rw [hold] at hc; cases hc
        | some l' => exact (h.pending _ l' hold).2 c (by rwa [hold] at hc)
      · rfl
    · exact h.pending id l hlookup
  · obtain ⟨o', ho', -, hb, -⟩ := getElem?_setPriority ho
    exact hb.symm.trans (h.fresh w q hw o' ho')
  · have hother : id ≠ change.computation := by
      rintro rfl
      exact hid (mem_iff_lookup.2 ⟨p, hp⟩)
    rw [hr, if_neg hother]
    exact h.idle id hid
  · have hid : id ≠ change.computation := fun he => hno (he ▸ mem_insert_self _ _)
    obtain ⟨o', ho', -, -, heq⟩ := getElem?_setPriority ho
    obtain rfl := heq (hne id q hq hid)
    obtain ⟨hpending, hold⟩ := h.unchanged id q o' hq ho' fun hin => hno (mem_insert_of_mem hin)
    refine ⟨(lookup_insert _ _ _ _).trans ?_, ?_⟩
    · rw [if_neg hid, hpending]
    · rw [hr, if_neg hid, hold]
  · by_cases he : id = change.computation
    · refine ⟨t.pending.get change.computation, change, (lookup_insert _ _ _ _).trans (if_pos he), ?_⟩
      rw [hr, if_pos he]
    · obtain ⟨l, last, hl, hlast⟩ := h.waits id hid ((mem_insert.1 hin).resolve_left he)
      refine ⟨l, last, (lookup_insert _ _ _ _).trans ?_, ?_⟩
      · rw [if_neg he, hl]
      · rw [hr, if_neg he, hlast]
  · obtain ⟨o', ho', hid, -, -⟩ := getElem?_setPriority ho
    exact h.decided w q needsReturn computable hw o' ho' fun hin => hno (mem_insert_of_mem (hid ▸ hin))

/-- A thread that waits selects a computable computation. -/
theorem Sound.select {w : Fin n} (hw : workers w = .waiting)
    {id : ComputationId} {c : ComputablePriority τ} (hc : lookup id t.computable = some c) : Sound { t with
        computable := erase id t.computable
        computing := insert id t.objects.length t.computing
        objects := t.objects ++ [(c, false)] }
      (update workers w (.selected t.objects.length)) standing
      (changed.filter fun id' => id' ≠ id) := by
  have hid : c.computationId = id := h.keyed id c hc
  have hnot : id ∉ t.computing := fun hin => by
    obtain ⟨p, hp⟩ := mem_iff_lookup.1 hin
    cases (h.apart id p hp).symm.trans hc
  have hstands : lookup id standing = some c.priority := by
    rw [← h.idle id hnot, hc]
    rfl
  have hpending : lookup id t.pending = none := by
    cases hl : lookup id t.pending with
    | none => rfl
    | some l => exact absurd (h.pending id l hl).1 hnot
  have hlt : ∀ (p : ℕ) o, t.objects[p]? = some o → p < t.objects.length := fun p o ho =>
    (List.getElem?_eq_some_iff.1 ho).1
  have hobject : ∀ (p : ℕ) o, t.objects[p]? = some o → (t.objects ++ [(c, false)])[p]? = some o := by
    intro p o ho
    rw [getElem?_append_left (hlt p o ho), ho]
  have hold : ∀ (p : ℕ) o, (t.objects ++ [(c, false)])[p]? = some o →
      t.objects[p]? = some o ∨ p = t.objects.length ∧ o = (c, false) := by
    intro p o ho
    rw [getElem?_append] at ho
    split at ho
    · exact .inl ho
    · next hle =>
      rw [getElem?_singleton] at ho
      split at ho
      · exact .inr ⟨by omega, (some.inj ho).symm⟩
      · cases ho
  have hfresh : ∀ w p, (workers w).computation = some p → p ≠ t.objects.length := by
    intro w p hp he
    obtain ⟨o, ho, -⟩ := h.held w p hp
    have := hlt p o ho
    omega
  have hcomputation : ∀ w' p, (update workers w (.selected t.objects.length) w').computation = some p →
      w' = w ∧ p = t.objects.length ∨ (workers w').computation = some p := by
    intro w' p hp
    by_cases he : w' = w
    · rw [he, update_self] at hp
      exact .inl ⟨he, (some.inj hp).symm⟩
    · rw [update_of_ne he] at hp
      exact .inr hp
  have hlookup : ∀ id' p, lookup id' (insert id t.objects.length t.computing) = some p →
      id' = id ∧ p = t.objects.length ∨ id' ≠ id ∧ lookup id' t.computing = some p := by
    intro id' p hp
    rw [StdMap.lookup_insert] at hp
    split at hp
    · next he => exact .inl ⟨he, (some.inj hp).symm⟩
    · next hne => exact .inr ⟨hne, hp⟩
  refine ⟨fun id' p hp => ?_, fun w' p hp => ?_, fun w₁ w₂ p h₁ h₂ => ?_, fun id' p hp => ?_,
    fun id' c' hc' => ?_, fun id' l hl => ?_, fun w' p hp o ho => ?_, fun id' hno => ?_, h.nonNull,
    fun id' p o hp ho hno => ?_, fun id' hin hchanged => ?_, fun w' p needsReturn computable hp o ho hno => ?_⟩
  · rcases hlookup id' p hp with ⟨rfl, rfl⟩ | ⟨-, hp⟩
    · refine ⟨⟨(c, false), by simp, hid⟩, w, ?_⟩
      rw [update_self]
      rfl
    · obtain ⟨⟨o, ho, hid'⟩, w', hw'⟩ := h.computed id' p hp
      refine ⟨⟨o, hobject p o ho, hid'⟩, w', ?_⟩
      rw [update_of_ne]
      · exact hw'
      · rintro rfl
        rw [hw] at hw'
        cases hw'
  · rcases hcomputation w' p hp with ⟨rfl, rfl⟩ | hp
    · refine ⟨(c, false), by simp, ?_⟩
      exact (lookup_insert _ _ _ _).trans (if_pos hid)
    · obtain ⟨o, ho, hin⟩ := h.held w' p hp
      refine ⟨o, hobject p o ho, (lookup_insert _ _ _ _).trans ?_⟩
      rw [if_neg, hin]
      intro he
      exact hnot (mem_iff_lookup.2 ⟨p, he ▸ hin⟩)
  · rcases hcomputation w₁ p h₁ with ⟨he₁, hp₁⟩ | hold₁
    · rcases hcomputation w₂ p h₂ with ⟨he₂, -⟩ | hold₂
      · exact he₁.trans he₂.symm
      · exact absurd hp₁ (hfresh w₂ p hold₂)
    · rcases hcomputation w₂ p h₂ with ⟨-, hp₂⟩ | hold₂
      · exact absurd hp₂ (hfresh w₁ p hold₁)
      · exact h.distinct w₁ w₂ p hold₁ hold₂
  · refine (lookup_erase _ _ _).trans ?_
    rcases hlookup id' p hp with ⟨he, -⟩ | ⟨hne, hp⟩
    · exact if_pos he
    · rw [if_neg hne, h.apart id' p hp]
  · have hc' := (lookup_erase _ _ _).symm.trans hc'
    split at hc'
    · cases hc'
    · exact h.keyed id' c' hc'
  · obtain ⟨hin, hall⟩ := h.pending id' l hl
    exact ⟨mem_insert.2 (.inr hin), hall⟩
  · rcases hold p o ho with ho | ⟨-, rfl⟩
    · by_cases he : w' = w
      · rw [he, update_self] at hp
        have hpl : p = t.objects.length := by
          rcases hp with hp | hp
          · exact (selected.inj hp).symm
          · cases hp
        have := hlt p o ho
        omega
      · rw [update_of_ne he] at hp
        exact h.fresh w' p hp o ho
    · rfl
  · have hno' : id' ≠ id ∧ id' ∉ t.computing := not_or.1 fun hor => hno (mem_insert.2 hor)
    rw [StdMap.lookup_erase, if_neg hno'.1]
    exact h.idle id' hno'.2
  · rcases hlookup id' p hp with ⟨rfl, rfl⟩ | ⟨hne, hp⟩
    · rcases hold _ o ho with ho | ⟨-, rfl⟩
      · exact absurd (hlt _ o ho) (lt_irrefl _)
      · exact ⟨hpending, hstands⟩
    · rcases hold p o ho with ho | ⟨rfl, -⟩
      · exact h.unchanged id' p o hp ho fun hin => hno (mem_filter.2 ⟨hin, hne⟩)
      · exact absurd (h.pointing id' _ hp) (lt_irrefl _)
  · obtain ⟨hchanged, hne⟩ := mem_filter.1 hchanged
    exact h.waits id' ((mem_insert.1 hin).resolve_left hne) hchanged
  · by_cases he : w' = w
    · rw [he, update_self] at hp
      cases hp
    · rw [update_of_ne he] at hp
      rcases hold p o ho with ho | ⟨rfl, -⟩
      · refine h.decided w' p needsReturn computable hp o ho fun hin => hno (mem_filter.2 ⟨hin, ?_⟩)
        intro heq
        obtain ⟨o', ho', hin'⟩ := h.held w' p (by rw [hp]; rfl)
        obtain rfl := some.inj (ho.symm.trans ho')
        exact hnot (mem_iff_lookup.2 ⟨p, heq ▸ hin'⟩)
      · exact absurd rfl (hfresh w' _ (by rw [hp]; rfl))

/-- A thread goes on with the computation that it has. -/
theorem Sound.advance {w : Fin n} {st : Worker} (hsame : st.computation = (workers w).computation)
    (hobjects : ∀ p : ℕ, objects[p]?.map Prod.fst = t.objects[p]?.map Prod.fst)
    (hother : ∀ p, (workers w).computation ≠ some p → objects[p]? = t.objects[p]?)
    (hfresh : ∀ p, st = .selected p ∨ st = .checkedOut p → ∀ o, objects[p]? = some o → o.2 = false)
    (hdecided : ∀ (p : ℕ) needsReturn computable, st = .decided p needsReturn computable →
      ∀ o, t.objects[p]? = some o → o.1.computationId ∉ changed → needsReturn = !computable) :
    Sound { t with objects := objects } (update workers w st) standing changed := by
  have hcomputation : ∀ w', (update workers w st w').computation = (workers w').computation := by
    intro w'
    by_cases he : w' = w
    · rw [he, update_self, hsame]
    · rw [update_of_ne he]
  have hto : ∀ (p : ℕ) o, t.objects[p]? = some o → ∃ o', objects[p]? = some o' ∧ o'.1 = o.1 := by
    intro p o ho
    have hmap := hobjects p
    rw [ho, map_some, map_eq_some_iff] at hmap
    exact hmap
  have hfrom : ∀ (p : ℕ) o, objects[p]? = some o → ∃ o', t.objects[p]? = some o' ∧ o'.1 = o.1 := by
    intro p o ho
    have hmap := (hobjects p).symm
    rw [ho, map_some, map_eq_some_iff] at hmap
    exact hmap
  refine ⟨fun id p hp => ?_, fun w' p hp => ?_, fun w₁ w₂ p h₁ h₂ => ?_, h.apart, h.keyed, h.pending,
    fun w' p hp o ho => ?_, h.idle, h.nonNull, fun id p o hp ho hno => ?_, h.waits,
    fun w' p needsReturn computable hp o ho hno => ?_⟩
  · obtain ⟨⟨o, ho, hid⟩, w', hw'⟩ := h.computed id p hp
    obtain ⟨o', ho', he⟩ := hto p o ho
    exact ⟨⟨o', ho', he ▸ hid⟩, w', (hcomputation w').trans hw'⟩
  · obtain ⟨o, ho, hin⟩ := h.held w' p ((hcomputation w').symm.trans hp)
    obtain ⟨o', ho', he⟩ := hto p o ho
    exact ⟨o', ho', he ▸ hin⟩
  · exact h.distinct w₁ w₂ p ((hcomputation w₁).symm.trans h₁) ((hcomputation w₂).symm.trans h₂)
  · by_cases he : w' = w
    · rw [he, update_self] at hp
      exact hfresh p hp o ho
    · rw [update_of_ne he] at hp
      have hcomp : (workers w').computation = some p := by
        rcases hp with hp | hp <;> rw [hp] <;> rfl
      refine h.fresh w' p hp o ?_
      rw [← hother p fun hw => he (h.distinct w' w p hcomp hw)]
      exact ho
  · obtain ⟨o', ho', he⟩ := hfrom p o ho
    rw [← he]
    exact h.unchanged id p o' hp ho' hno
  · obtain ⟨o', ho', heq⟩ := hfrom p o ho
    rw [← heq] at hno
    by_cases he : w' = w
    · rw [he, update_self] at hp
      exact hdecided p needsReturn computable hp o' ho' hno
    · rw [update_of_ne he] at hp
      exact h.decided w' p needsReturn computable hp o' ho' hno

/-- A thread gives its computation back. -/
theorem Sound.giveBack {w : Fin n} {p : ℕ} (hw : (workers w).computation = some p) (ho : t.objects[p]? = some o)
    {computable : StdMap ComputationId (ComputablePriority τ)}
    (honly : OnlyAt o.1.computationId t.computable computable)
    (hstands : (lookup o.1.computationId computable).map ComputablePriority.priority =
      lookup o.1.computationId standing')
    (hothers : ∀ id, id ≠ o.1.computationId → lookup id standing' = lookup id standing)
    (hnonNull : ∀ id priority, lookup id standing' = some priority → priority.isNull = false) :
    Sound (t.givenBack o.1.computationId computable) (update workers w .waiting) standing' changed := by
  have hin : lookup o.1.computationId t.computing = some p := by
    obtain ⟨o', ho', hin⟩ := h.held w p hw
    obtain rfl := some.inj (ho.symm.trans ho')
    exact hin
  have hlookup : ∀ id q, lookup id (t.givenBack o.1.computationId computable).computing = some q →
      id ≠ o.1.computationId ∧ lookup id t.computing = some q := by
    intro id q hq
    have hq := (lookup_erase _ _ _).symm.trans hq
    split at hq
    · cases hq
    · next hne => exact ⟨hne, hq⟩
  have hmem : ∀ id, id ∈ (t.givenBack o.1.computationId computable).computing →
      id ≠ o.1.computationId ∧ id ∈ t.computing := by
    intro id hid
    obtain ⟨q, hq⟩ := mem_iff_lookup.1 hid
    exact ⟨(hlookup id q hq).1, mem_iff_lookup.2 ⟨q, (hlookup id q hq).2⟩⟩
  have hpending : ∀ id, id ≠ o.1.computationId →
      lookup id (t.givenBack o.1.computationId computable).pending = lookup id t.pending := by
    intro id hne
    exact (lookup_erase _ _ _).trans (if_neg hne)
  have hworker : ∀ w' q, (update workers w .waiting w').computation = some q →
      w' ≠ w ∧ (workers w').computation = some q := by
    intro w' q hq
    by_cases he : w' = w
    · rw [he, update_self] at hq
      cases hq
    · rw [update_of_ne he] at hq
      exact ⟨he, hq⟩
  have hstate : ∀ w' state, update workers w .waiting w' = state → state ≠ .waiting → workers w' = state := by
    intro w' state hs hne
    by_cases he : w' = w
    · rw [he, update_self] at hs
      exact absurd hs.symm hne
    · rwa [update_of_ne he] at hs
  refine ⟨fun id q hq => ?_, fun w' q hq => ?_, fun w₁ w₂ q h₁ h₂ => ?_, fun id q hq => ?_, fun id c hc => ?_,
    fun id l hl => ?_, fun w' q hq => ?_, fun id hid => ?_, hnonNull, fun id q o' hq ho' hno => ?_,
    fun id hid hchanged => ?_, fun w' q needsReturn computable hq => ?_⟩
  · obtain ⟨hne, hq⟩ := hlookup id q hq
    obtain ⟨hobject, w', hw'⟩ := h.computed id q hq
    refine ⟨hobject, w', ?_⟩
    rw [update_of_ne]
    · exact hw'
    · rintro rfl
      obtain rfl := some.inj (hw.symm.trans hw')
      obtain ⟨o', ho', hid⟩ := hobject
      obtain rfl := some.inj (ho.symm.trans ho')
      exact hne hid.symm
  · obtain ⟨hne, hq⟩ := hworker w' q hq
    obtain ⟨o', ho', hin'⟩ := h.held w' q hq
    refine ⟨o', ho', (lookup_erase _ _ _).trans ?_⟩
    rw [if_neg, hin']
    intro he
    rw [he, hin] at hin'
    obtain rfl := some.inj hin'
    exact hne (h.distinct w' w p hq hw)
  · exact h.distinct w₁ w₂ q (hworker w₁ q h₁).2 (hworker w₂ q h₂).2
  · obtain ⟨hne, hq⟩ := hlookup id q hq
    exact (honly.others id hne).trans (h.apart id q hq)
  · by_cases he : id = o.1.computationId
    · subst he
      exact honly.keyed c hc
    · exact h.keyed id c ((honly.others id he).symm.trans hc)
  · have hl := (lookup_erase _ _ _).symm.trans hl
    split at hl
    · cases hl
    · next hne =>
      obtain ⟨hid, hall⟩ := h.pending id l hl
      obtain ⟨q, hq⟩ := mem_iff_lookup.1 hid
      refine ⟨mem_iff_lookup.2 ⟨q, (lookup_erase _ _ _).trans ?_⟩, hall⟩
      rw [if_neg hne, hq]
  · refine h.fresh w' q ?_
    exact hq.imp (fun hs => hstate w' _ hs nofun) fun hs => hstate w' _ hs nofun
  · by_cases he : id = o.1.computationId
    · subst he
      exact hstands
    · rw [hothers id he]
      refine (congrArg _ (honly.others id he)).trans (h.idle id fun hin' => hid ?_)
      obtain ⟨q, hq⟩ := mem_iff_lookup.1 hin'
      refine mem_iff_lookup.2 ⟨q, (lookup_erase _ _ _).trans ?_⟩
      rw [if_neg he, hq]
  · obtain ⟨hne, hq⟩ := hlookup id q hq
    rw [hpending id hne, hothers id hne]
    exact h.unchanged id q o' hq ho' hno
  · obtain ⟨hne, hid⟩ := hmem id hid
    obtain ⟨l, change, hl, hlast⟩ := h.waits id hid hchanged
    exact ⟨l, change, (hpending id hne).trans hl, (hothers id hne).trans hlast⟩
  · exact h.decided w' q needsReturn computable (hstate w' _ hq nofun)

end

/-! ## The steps of the pool -/

variable [LinearOrder τ] {n : ℕ} {s : WorkerThreadPoolImpl τ} {workers : Fin n → Worker}
  {standing standing' : StdMap ComputationId ComputationPriority} {changed : Finset ComputationId}

/-- A status change, of whichever computation. -/
theorem Sound.wp_onComputationStatusChanged (h : Sound s.tables workers standing changed)
    {change : LocalComputationPriorityAndStatusChanged} (hr : Restands standing standing' change) (now : τ) :
    wp (onComputationStatusChanged change now)
      (fun _ s' => Sound s'.tables workers standing' (insert change.computation changed))
      (fun _ _ => False) s := by
  by_cases hc : s.isComputing change.computation
  · obtain ⟨p, hp⟩ := mem_iff_lookup.1 hc
    unfold onComputationStatusChanged
    rw [wp_bind, wp_get, wp_ite, if_pos hc, wp_bind, wp_modify, wp_modify, tables_updateComputingPriority]
    · exact h.changeComputing hp hr
    · exact hp
  · refine (WorkerThreadPoolImpl.wp_onComputationStatusChanged h.pointing hc now).mono ?_ fun _ _ => elim
    intro _ s' ht
    rw [ht]
    exact h.changeIdle hc now hr

theorem least_mem {l : List (ComputablePriority τ)} : (least l = none → l = []) ∧ ∀ c, least l = some c → c ∈ l := by
  induction l with
  | nil => exact ⟨fun _ => rfl, nofun⟩
  | cons c l ih =>
    unfold least
    cases hl : least l with
    | none => exact ⟨nofun, fun d hd => some.inj hd ▸ mem_cons_self⟩
    | some d =>
      dsimp only
      split
      · exact ⟨nofun, fun e he => some.inj he ▸ .tail _ (ih.2 d hl)⟩
      · exact ⟨nofun, fun e he => some.inj he ▸ mem_cons_self⟩

/-- The lowest value is that of a computable computation. -/
theorem lookup_of_lowestValue {c : ComputablePriority τ} (h : s.lowestValue = some c) :
    ∃ id, lookup id s.mComputablePriorities = some c := by
  obtain ⟨id, -, hid⟩ := mem_filterMap.1 (least_mem.2 c h)
  exact ⟨id, hid⟩

variable {w : Fin n}

/-- A thread that waits selects a computation, if there is one. -/
theorem Sound.wp_select (h : Sound s.tables workers standing changed) (hw : workers w = .waiting) :
    wp selectNextComputation
      (fun selected s' => selected = none ∧ s' = s ∨ ∃ p o, selected = some p ∧ s'.objects[p]? = some o ∧
        Sound s'.tables (update workers w (.selected p)) standing
          (changed.filter fun id => id ≠ o.mComputablePriority.computationId))
      (fun _ _ => False) s := by
  unfold selectNextComputation
  rw [wp_bind, wp_get]
  cases hl : s.lowestValue with
  | none => exact .inl ⟨rfl, rfl⟩
  | some c =>
    obtain ⟨id, hc⟩ := lookup_of_lowestValue hl
    obtain rfl : c.computationId = id := h.keyed id c hc
    have hno : ¬ s.isComputing c.computationId := fun hin => by
      obtain ⟨p, hp⟩ := mem_iff_lookup.1 hin
      cases (h.apart _ p hp).symm.trans hc
    rw [wp_bind, wp_modify, wp_bind, wp_lassert, if_pos hno, wp_bind, wp_modify]
    have hlast : (s.objects ++ [{ mComputablePriority := c }])[s.objects.length]? =
        some { mComputablePriority := c } := by simp
    refine .inr ⟨s.objects.length, { mComputablePriority := c }, rfl, hlast, ?_⟩
    have hsound := h.select hw hc
    have hlength : s.tables.objects.length = s.objects.length := length_map _
    rw [hlength] at hsound
    have htables : ∀ objects : List (InProgressComputation τ),
        objects.map view = s.tables.objects ++ [(c, false)] →
        Sound { s.tables with
          computable := erase c.computationId s.mComputablePriorities
          computing := insert c.computationId s.objects.length s.mComputing
          objects := objects.map view }
          (update workers w (.selected s.objects.length)) standing
          (changed.filter fun id => id ≠ c.computationId) := by
      intro objects he
      rw [he]
      exact hsound
    exact htables _ map_append

omit [LinearOrder τ] in
/-- A thread starts to compute. -/
theorem Sound.wp_compute (h : Sound s.tables workers standing changed) {p : ℕ} (hw : workers w = .checkedOut p) :
    wp (compute p true) (fun _ s' => Sound s'.tables (update workers w (.computing p)) standing changed)
      (fun _ _ => False) s := by
  have hcomputation : (workers w).computation = some p := by rw [hw]; rfl
  obtain ⟨v, hv, -⟩ := h.held w p hcomputation
  obtain ⟨o, ho, rfl⟩ := object_iff.1 hv
  have hstate : o.mState = false := h.fresh w p (.inr hw) _ hv
  have hsame : (computing p).computation = (workers w).computation := hcomputation.symm
  unfold compute
  rw [wp_bind, wp_lassert, if_pos rfl, wp_bind, wp_object ho, wp_bind, wp_lassert, if_pos hstate, wp_ite]
  split
  · exact h.advance hsame (fun _ => rfl) (fun _ _ => rfl) nofun nofun
  · rw [wp_modify]
    have htables : ({ s with
        objects := s.objects.modify p fun object => { object with mState := true } } : WorkerThreadPoolImpl τ).tables =
        { s.tables with objects := s.tables.objects.modify p fun v => (v.1, true) } := by
      have hmap : (s.objects.modify p fun object => { object with mState := true }).map
          view = (s.objects.map view).modify p fun v => (v.1, true) :=
        map_view_modify fun _ => rfl
      exact congrArg (Tables.mk _ _ _) hmap
    rw [htables]
    have hmodify : ∀ q : ℕ, (s.tables.objects.modify p fun v => (v.1, true))[q]? =
        s.tables.objects[q]?.map fun v => if p = q then (v.1, true) else v :=
      fun q => getElem?_modify _ _ _ _
    refine h.advance hsame (fun q => ?_) (fun q hq => ?_) nofun nofun
    · rw [hmodify, Option.map_map]
      refine congrArg (Option.map · _) (funext fun v => ?_)
      split <;> rfl
    · have hne : p ≠ q := fun he => hq (hcomputation.trans (congrArg some he))
      rw [hmodify]
      simp [hne]

theorem lastStanding_concat (l : List LocalComputationPriorityAndStatusChanged)
    (change : LocalComputationPriorityAndStatusChanged) (pre : Option ComputationPriority) :
    lastStanding (l ++ [change]) pre = standingAfter change := by
  unfold lastStanding
  rw [foldl_append]
  rfl

/-- How the computations stand when a thread gives one back: as before, if a change came for it or it is
computable. -/
def standingBack (standing : StdMap ComputationId ComputationPriority) (changed : Finset ComputationId)
    (id : ComputationId) (computable : Bool) : StdMap ComputationId ComputationPriority :=
  if id ∈ changed ∨ computable = true then standing else erase id standing

variable {o : InProgressComputation τ} {computable : Bool}

section

variable (h : Sound s.tables workers standing changed)
include h

omit [LinearOrder τ] in
/-- What is known of a computation that is given back is what the waiting changes make of it. -/
theorem Sound.lastStanding_eq {id : ComputationId}
    {p : ℕ} (hp : lookup id s.mComputing = some p) (ho : s.objects[p]? = some o) {pre : Option ComputationPriority}
    (hbefore : id ∉ changed → pre = bif computable then some o.mComputablePriority.priority else none) :
    lastStanding ((lookup id s.mStatusChangesPendingCheckin).getD []) pre =
      lookup id (standingBack standing changed id computable) := by
  unfold standingBack
  by_cases hin : id ∈ changed
  · obtain ⟨l, change, hl, hlast⟩ := h.waits id (mem_iff_lookup.2 ⟨p, hp⟩) hin
    have hl : lookup id s.mStatusChangesPendingCheckin = some (l ++ [change]) := hl
    rw [hl, getD_some, lastStanding_concat, if_pos (.inl hin), hlast]
  · obtain ⟨hpending, hstands⟩ := h.unchanged id p o.view hp (object_iff.2 ⟨o, ho, rfl⟩) hin
    have hpending : lookup id s.mStatusChangesPendingCheckin = none := hpending
    rw [hpending, hbefore hin]
    cases computable with
    | true =>
      rw [if_pos (.inr rfl), hstands]
      rfl
    | false =>
      rw [if_neg fun hor => hor.elim hin nofun, StdMap.lookup_erase, if_pos rfl]
      rfl

/-- The waiting changes of a computation are replayed once it is not computed any more. -/
theorem Sound.wp_processPendingCheckin {p : ℕ} (hw : (workers w).computation = some p) (ho : s.objects[p]? = some o)
    {id : ComputationId} (hid : o.mComputablePriority.computationId = id)
    {m : StdMap ComputationId (ComputablePriority τ)} (honly : OnlyAt id s.mComputablePriorities m)
    (hbefore : id ∉ changed → (lookup id m).map ComputablePriority.priority =
      bif computable then some o.mComputablePriority.priority else none) {s₁ : WorkerThreadPoolImpl τ} (ht : s₁.tables =
      { s.tables with computing := erase id s.mComputing, computable := m }) (now : ℕ → τ) :
    wp (processLocalComputationStatusUpdatesPendingCheckin id now)
      (fun _ s' => Sound s'.tables (update workers w .waiting) (standingBack standing changed id computable) changed)
      (fun _ _ => False) s₁ := by
  subst hid
  have hv : s.tables.objects[p]? = some o.view := object_iff.2 ⟨o, ho, rfl⟩
  have hp : lookup o.mComputablePriority.computationId s.mComputing = some p := by
    obtain ⟨v, hv', hin⟩ := h.held w p hw
    obtain rfl := some.inj (hv.symm.trans hv')
    exact hin
  have hcomputing : s₁.mComputing = erase o.mComputablePriority.computationId s.mComputing :=
    congrArg Tables.computing ht
  have hpending : s₁.mStatusChangesPendingCheckin = s.mStatusChangesPendingCheckin := congrArg Tables.pending ht
  have hcomputable : s₁.mComputablePriorities = m := congrArg Tables.computable ht
  have hlookup : ∀ id q, lookup id s₁.mComputing = some q →
      id ≠ o.mComputablePriority.computationId ∧ lookup id s.mComputing = some q := by
    intro id q hq
    rw [hcomputing, StdMap.lookup_erase] at hq
    split at hq
    · cases hq
    · next hne => exact ⟨hne, hq⟩
  have hpointing : s₁.tables.Pointing := by
    intro id q hq
    rw [ht]
    exact h.pointing id q (hlookup id q hq).2
  refine (WorkerThreadPoolImpl.wp_processPendingCheckin now hpointing (fun hin => ?_) (fun l hl => ?_) ?_).mono ?_
    fun _ _ => elim
  · obtain ⟨q, hq⟩ := mem_iff_lookup.1 hin
    exact (hlookup _ q hq).1 rfl
  · rw [hpending] at hl
    exact (h.pending _ l hl).2
  · rw [hcomputable]
    exact honly.keyed
  · rintro _ s₂ ⟨m', ht₂, honly', hlast⟩
    rw [hcomputable] at honly' hlast
    rw [hpending, h.lastStanding_eq hp ho hbefore] at hlast
    have hback : s₂.tables = s.tables.givenBack o.mComputablePriority.computationId m' := by
      rw [ht₂, ht]
      unfold Tables.givenBack
      have herase : erase o.mComputablePriority.computationId
          (erase o.mComputablePriority.computationId s.mComputing) =
          erase o.mComputablePriority.computationId s.mComputing :=
        erase_of_lookup_eq_none ((lookup_erase _ _ _).trans (if_pos rfl))
      rw [herase]
      rfl
    rw [hback]
    refine h.giveBack hw hv (honly.trans honly') hlast (fun id hne => ?_) fun id priority hpri => ?_
    · unfold standingBack
      split
      · rfl
      · exact (lookup_erase _ _ _).trans (if_neg hne)
    · unfold standingBack at hpri
      split at hpri
      · exact h.nonNull id priority hpri
      · rw [StdMap.lookup_erase] at hpri
        split at hpri
        · cases hpri
        · exact h.nonNull id priority hpri

/-- A thread gives its computation back, as it has decided. -/
theorem Sound.wp_finish {p : ℕ} {needsReturn : Bool} (hw : workers w = .decided p needsReturn computable)
    (ho : s.objects[p]? = some o) (now : ℕ → τ) :
    wp (if needsReturn then removeFromComputingSet o.mComputablePriority.computationId now
        else returnToComputableSetAndRemoveFromComputingSet p now)
      (fun _ s' => Sound s'.tables (update workers w .waiting)
        (standingBack standing changed o.mComputablePriority.computationId computable) changed)
      (fun _ _ => False) s := by
  have hcomputation : (workers w).computation = some p := by rw [hw]; rfl
  have hv : s.tables.objects[p]? = some o.view := object_iff.2 ⟨o, ho, rfl⟩
  have hp : lookup o.mComputablePriority.computationId s.mComputing = some p := by
    obtain ⟨v, hv', hin⟩ := h.held w p hcomputation
    obtain rfl := some.inj (hv.symm.trans hv')
    exact hin
  have hapart : lookup o.mComputablePriority.computationId s.mComputablePriorities = none := h.apart _ p hp
  have hdecided : o.mComputablePriority.computationId ∉ changed → needsReturn = !computable :=
    h.decided w p needsReturn computable hw _ hv
  cases needsReturn with
  | true =>
    rw [if_pos rfl, removeFromComputingSet, wp_bind, wp_modify]
    refine h.wp_processPendingCheckin hcomputation ho rfl (m := s.mComputablePriorities)
      ⟨fun _ _ => rfl, h.keyed _⟩ (fun hno => ?_) rfl now
    have hfalse : computable = false := by simpa using hdecided hno
    rw [hapart, hfalse]
    rfl
  | false =>
    have hidle : ¬ (s.eraseFromComputingSet o.mComputablePriority.computationId).isComputing
        o.mComputablePriority.computationId := fun hin => by
      obtain ⟨q, hq⟩ := mem_iff_lookup.1 hin
      have hq := (lookup_erase _ _ _).symm.trans hq
      rw [if_pos rfl] at hq
      cases hq
    have hpointing : (s.eraseFromComputingSet o.mComputablePriority.computationId).tables.Pointing := by
      intro id q hq
      have hq := (lookup_erase _ _ _).symm.trans hq
      split at hq
      · cases hq
      · exact h.pointing id q hq
    rw [if_neg nofun, returnToComputableSetAndRemoveFromComputingSet, wp_bind, wp_object ho,
      wp_bind, wp_modify, wp_bind]
    refine (wp_insertToComputableSet hpointing hidle).mono ?_ fun _ _ => elim
    intro _ s₁ ht
    refine h.wp_processPendingCheckin hcomputation ho rfl
      (m := insert o.mComputablePriority.computationId o.mComputablePriority s.mComputablePriorities)
      ⟨fun id hne => ?_, fun c hc => ?_⟩ (fun hno => ?_) ht now
    · rw [StdMap.lookup_insert, if_neg hne]
    · rw [StdMap.lookup_insert, if_pos rfl] at hc
      rw [← some.inj hc]
    · have htrue : computable = true := by simpa using hdecided hno
      rw [StdMap.lookup_insert, if_pos rfl, htrue]
      rfl

end

omit [LinearOrder τ] in
theorem tables_interruptAll : s.interruptAllRunningComputations.tables = s.tables := by
  unfold interruptAllRunningComputations
  generalize ascending s.mComputing.keys = l
  induction l generalizing s with
  | nil => rfl
  | cons id l ih =>
    rw [foldl_cons, ih]
    split
    · rfl
    · exact tables_interrupt _

namespace System

/-- No assertion has failed, and the invariant holds. -/
structure Kept (s : System τ n) : Prop where
  notFailed : s.failed = none
  sound : Sound s.pool.tables s.workers s.standing s.changed

omit [LinearOrder τ] in
/-- A call that cannot throw. -/
theorem kept_call {α : Type} {s : System τ n} {x : Call τ α} {after : α → System τ n → System τ n}
    (h : wp x (fun a pool => (after a { s with pool }).Kept) (fun _ _ => False) s.pool) :
    (s.call x after).Kept := by
  obtain ⟨a, pool, hrun, hq⟩ := h.exists_run
  unfold call
  rw [hrun]
  exact hq

omit [LinearOrder τ] in
theorem restands_setStanding (s : System τ n) (change : LocalComputationPriorityAndStatusChanged) :
    Restands s.standing (s.setStanding change.computation (standingAfter change)).standing change := by
  intro id
  cases standingAfter change with
  | none => exact lookup_erase _ _ _
  | some priority => exact lookup_insert _ _ _ _

omit [LinearOrder τ] in
theorem setStanding_eq (s : System τ n) (id : ComputationId) (priority : Option ComputationPriority) :
    s.setStanding id priority = { s with standing := (s.setStanding id priority).standing } := by
  cases priority <;> rfl

omit [LinearOrder τ] in
theorem givenBack_eq (s : System τ n) (id : ComputationId) (computable : Bool) :
    s.givenBack id computable = { s with standing := standingBack s.standing s.changed id computable } := by
  unfold givenBack standingBack
  split <;> rfl

section
variable {s : System τ n} (h : s.Kept) {worker : Fin n} {p : ℕ}
include h

theorem Kept.onComputationStatusChanged (change : LocalComputationPriorityAndStatusChanged) (now : τ) :
    (({ s with changed := insert change.computation s.changed }.setStanding change.computation
      (standingAfter change)).call (onComputationStatusChanged change now) fun _ s => s).Kept := by
  rw [setStanding_eq]
  refine kept_call ((h.sound.wp_onComputationStatusChanged
    (restands_setStanding { s with changed := insert change.computation s.changed } change) now).mono ?_
    fun _ _ => elim)
  exact fun _ _ hsound => ⟨h.notFailed, hsound⟩

theorem Kept.select (hw : s.workers worker = .waiting) : (s.call selectNextComputation (selectedBy worker)).Kept := by
  refine kept_call ((h.sound.wp_select hw).mono ?_ fun _ _ => elim)
  rintro _ pool (⟨rfl, rfl⟩ | ⟨p, o, rfl, ho, hsound⟩)
  · exact h
  · refine ⟨h.notFailed, ?_⟩
    have hfilter : (s.changed.filter fun id => some id ≠ ({ s with pool } : System τ n).computationId p) =
        s.changed.filter fun id => id ≠ o.mComputablePriority.computationId := by
      refine filter_congr fun id _ => ?_
      unfold computationId
      rw [ho]
      simp
    show Sound pool.tables (update s.workers worker (.selected p)) s.standing (s.changed.filter _)
    rw [hfilter]
    exact hsound

omit [LinearOrder τ] in
theorem Kept.checkOut (hw : s.workers worker = .selected p) (found : Bool) :
    (s.advance worker (if found then .checkedOut p else .decided p true false)).Kept := by
  refine ⟨h.notFailed, h.sound.advance ?_ (fun _ => rfl) (fun _ _ => rfl) ?_ ?_⟩
  · rw [hw]
    cases found <;> rfl
  · intro q hq o ho
    cases found with
    | true =>
      rcases hq with hq | hq
      · cases hq
      · obtain rfl := checkedOut.inj hq
        exact h.sound.fresh worker p (.inl hw) o ho
    | false => rcases hq with hq | hq <;> cases hq
  · intro q needsReturn computable hq o ho _
    cases found with
    | true => cases hq
    | false =>
      obtain ⟨-, rfl, rfl⟩ := decided.inj hq
      rfl

omit [LinearOrder τ] in
theorem Kept.compute (hw : s.workers worker = .checkedOut p) :
    (s.call (compute p true) fun _ s => s.advance worker (.computing p)).Kept := by
  refine kept_call ((h.sound.wp_compute hw).mono ?_ fun _ _ => elim)
  exact fun _ _ hsound => ⟨h.notFailed, hsound⟩

omit [LinearOrder τ] in
/-- The object of a thread. -/
theorem Kept.exists_object (hw : (s.workers worker).computation = some p) : ∃ o, s.pool.objects[p]? = some o ∧
      lookup o.mComputablePriority.computationId s.pool.mComputing = some p := by
  obtain ⟨v, hv, hin⟩ := h.sound.held worker p hw
  obtain ⟨o, ho, rfl⟩ := object_iff.1 hv
  exact ⟨o, ho, hin⟩

omit [LinearOrder τ] in
/-- Where no change came, the priority that the thread reads is not null. -/
theorem Kept.checkIn (hw : s.workers worker = .computing p) (isComputable : Bool) :
    (s.call (object p) fun o s => s.advance worker (.decided p
      (!(isComputable && !o.mComputablePriority.priority.isNull)) isComputable)).Kept := by
  have hcomputation : (s.workers worker).computation = some p := by rw [hw]; rfl
  obtain ⟨o, ho, hin⟩ := h.exists_object hcomputation
  have hsame : (decided p (!(isComputable && !o.mComputablePriority.priority.isNull))
      isComputable).computation = (s.workers worker).computation := hcomputation.symm
  refine kept_call ((wp_object ho).2 ⟨h.notFailed, ?_⟩)
  refine h.sound.advance hsame (fun _ => rfl) (fun _ _ => rfl) (fun q hq => ?_)
    fun q needsReturn computable hq v hv hno => ?_
  · rcases hq with hq | hq <;> cases hq
  · obtain ⟨rfl, rfl, rfl⟩ := decided.inj hq
    obtain rfl := some.inj ((object_iff.2 ⟨o, ho, rfl⟩).symm.trans hv)
    obtain ⟨-, hstands⟩ := h.sound.unchanged _ p o.view hin hv hno
    have hnull : o.mComputablePriority.priority.isNull = false := h.sound.nonNull _ _ hstands
    rw [hnull]
    simp

theorem Kept.finish {needsReturn computable : Bool} (hw : s.workers worker = .decided p needsReturn computable)
    (now : ℕ → τ) :
    (s.call (object p) fun o s =>
      ((s.givenBack o.mComputablePriority.computationId computable).advance worker .waiting).call
        (if needsReturn then removeFromComputingSet o.mComputablePriority.computationId now
          else returnToComputableSetAndRemoveFromComputingSet p now) fun _ s => s).Kept := by
  obtain ⟨o, ho, -⟩ := @exists_object _ _ _ h worker p (by rw [hw]; rfl)
  refine kept_call ((wp_object ho).2 ?_)
  rw [givenBack_eq]
  refine kept_call ((h.sound.wp_finish hw ho now).mono ?_ fun _ _ => elim)
  exact fun _ _ hsound => ⟨h.notFailed, hsound⟩

end

/-- Every step keeps the invariant. -/
theorem Kept.step {s s' : System τ n} (h : s.Kept) {op : Op τ n} (hs : s.step op = some s') : s'.Kept := by
  cases op with
  | onComputationStatusChanged change now =>
    obtain rfl := some.inj hs
    exact h.onComputationStatusChanged change now
  | interruptAll =>
    obtain rfl := some.inj hs
    refine ⟨h.notFailed, ?_⟩
    rw [tables_interruptAll]
    exact h.sound
  | select worker | checkOut worker found | compute worker | checkIn worker isComputable | finish worker now =>
    unfold System.step at hs
    cases hw : s.workers worker <;> simp only [hw] at hs <;> try cases hs
    -- the worker is where it has to be for the call
    first
      | exact h.select hw
      | exact h.checkOut hw found
      | exact h.compute hw
      | exact h.checkIn hw isComputable
      | exact h.finish hw now

omit [LinearOrder τ] in
theorem kept_initial : ({} : System τ n).Kept where
  notFailed := rfl
  sound :=
    { computed := fun id p hp => by
        rw [show ({} : System τ n).pool.tables.computing = ∅ from rfl, lookup_empty] at hp
        cases hp
      held := nofun
      distinct := nofun
      apart := fun id p hp => rfl
      keyed := nofun
      pending := nofun
      fresh := nofun
      idle := fun _ _ => rfl
      nonNull := nofun
      unchanged := nofun
      waits := nofun
      decided := nofun }

/-! ## The claims about the pool -/

/-- No assertion has failed. The computations that are computed are those that the threads have, each by one thread,
and they are not computable. One that is not computed is computable as it stands: with the priority with which its
latest change, or its return after that, left it computable. -/
structure Correct (s : System τ n) : Prop where
  notFailed : s.failed = none
  computing : ∀ id, s.pool.isComputing id ↔ ∃ w p, (s.workers w).computation = some p ∧ s.computationId p = some id
  once : ∀ w w' p p' id, (s.workers w).computation = some p → (s.workers w').computation = some p' →
    s.computationId p = some id → s.computationId p' = some id → w = w'
  apart : ∀ id, s.pool.isComputing id → id ∉ s.pool.mComputablePriorities
  idle : ∀ id, ¬ s.pool.isComputing id →
    (lookup id s.pool.mComputablePriorities).map ComputablePriority.priority = lookup id s.standing

omit [LinearOrder τ] in
theorem computationId_iff {s : System τ n} {p : ℕ} {id : ComputationId} :
    s.computationId p = some id ↔ ∃ o, s.pool.tables.objects[p]? = some o ∧ o.1.computationId = id := by
  unfold computationId
  rw [map_eq_some_iff]
  constructor
  · rintro ⟨o, ho, rfl⟩
    exact ⟨o.view, object_iff.2 ⟨o, ho, rfl⟩, rfl⟩
  · rintro ⟨v, hv, rfl⟩
    obtain ⟨o, ho, rfl⟩ := object_iff.1 hv
    exact ⟨o, ho, rfl⟩

omit [LinearOrder τ] in
theorem Kept.correct {s : System τ n} (h : s.Kept) : s.Correct where
  notFailed := h.notFailed
  computing id := by
    constructor
    · intro hid
      obtain ⟨p, hp⟩ := mem_iff_lookup.1 hid
      obtain ⟨hobject, w, hw⟩ := h.sound.computed id p hp
      exact ⟨w, p, hw, computationId_iff.2 hobject⟩
    · rintro ⟨w, p, hw, hid⟩
      obtain ⟨o, ho, rfl⟩ := computationId_iff.1 hid
      obtain ⟨o', ho', hin⟩ := h.sound.held w p hw
      obtain rfl := some.inj (ho.symm.trans ho')
      exact mem_iff_lookup.2 ⟨p, hin⟩
  once w w' p p' id hw hw' hid hid' := by
    obtain ⟨o, ho, rfl⟩ := computationId_iff.1 hid
    obtain ⟨o', ho', he⟩ := computationId_iff.1 hid'
    obtain ⟨v, hv, hin⟩ := h.sound.held w p hw
    obtain ⟨v', hv', hin'⟩ := h.sound.held w' p' hw'
    obtain rfl := some.inj (ho.symm.trans hv)
    obtain rfl := some.inj (ho'.symm.trans hv')
    rw [he, hin] at hin'
    obtain rfl := some.inj hin'
    exact h.sound.distinct w w' p hw hw'
  apart id hid := by
    obtain ⟨p, hp⟩ := mem_iff_lookup.1 hid
    exact lookup_eq_none.1 (h.sound.apart id p hp)
  idle id hid := h.sound.idle id hid

/-- Throughout every run of status changes and steps of the threads the pool is correct. -/
theorem correct_run (ops : List (Op τ n)) : Run.Always step Correct ({} : System τ n) ops :=
  (Run.always (P := Kept) kept_initial fun _ _ _ h hs => h.step hs).mono fun _ h => h.correct

end System

end Cumulus.WorkerThreadPoolImpl
