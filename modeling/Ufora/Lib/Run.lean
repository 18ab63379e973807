import Mathlib.Data.List.Infix

/-!
# Runs of a state machine

A machine is a partial step: the state an operation leaves, or `none` where the operation does not
return. A run is a list of operations. `Always` says that every state a run goes through has a
property, and `EveryStep` that every operation of it meets a condition in the state it starts from.
`always_of_everyStep` is the induction on runs. `always_iff_everyStep` is for a property that is
kept exactly under a condition: then a run has it throughout exactly when all its steps meet the
condition.
-/

open List Option

namespace Run

variable {σ ο : Type*} (step : σ → ο → Option σ)

/-- The state after a run, where every operation of it returns. -/
def run (s : σ) (ops : List ο) : Option σ := ops.foldlM step s

/-- A machine every operation of which returns. -/
def total (f : σ → ο → σ) : σ → ο → Option σ := fun s op => some (f s op)

@[simp] theorem total_eq_some {f : σ → ο → σ} {s s' : σ} {op : ο} : total f s op = some s' ↔ f s op = s' := some_inj

@[simp] theorem run_nil (s : σ) : run step s [] = some s := rfl

@[simp] theorem run_cons (s : σ) (op : ο) (ops : List ο) :
    run step s (op :: ops) = (step s op).bind fun s' => run step s' ops := rfl

/-- A run followed by one more operation. -/
theorem run_concat (s : σ) (ops : List ο) (op : ο) :
    run step s (ops ++ [op]) = (run step s ops).bind fun s' => step s' op := by
  induction ops generalizing s with
  | nil => cases h : step s op <;> simp [h]
  | cons o ops ih =>
    rw [cons_append, run_cons, run_cons]
    cases step s o with
    | none => rfl
    | some s' => exact ih s'

theorem run_append {s t : σ} {pre mid : List ο} (h : run step s pre = some t) :
    run step s (pre ++ mid) = run step t mid := by
  unfold run at h ⊢
  rw [foldlM_append, h]
  rfl

/-- Every state of the run, the first and the last among them, has the property. -/
def Always (P : σ → Prop) (s : σ) (ops : List ο) : Prop := ∀ pre s', pre <+: ops → run step s pre = some s' → P s'

/-- Every operation of the run meets the condition in the state in which it is called. -/
def EveryStep (C : σ → ο → Prop) (s : σ) (ops : List ο) : Prop :=
  ∀ pre op s', pre ++ [op] <+: ops → run step s pre = some s' → C s' op

variable {step} {P Q I : σ → Prop} {C : σ → ο → Prop} {s : σ} {op : ο} {ops : List ο}

theorem Always.first (h : Always step P s ops) : P s := h [] s nil_prefix rfl

theorem Always.last {s' : σ} (h : Always step P s ops) (hr : run step s ops = some s') : P s' := h ops s' prefix_rfl hr

/-- A state that a run ends in, and that can be computed. -/
theorem Always.any {p : σ → Bool} (h : Always step P s ops) (hp : (run step s ops).any p = true) :
    ∃ s', P s' ∧ p s' := by
  obtain ⟨s', hr, hs'⟩ := (any_eq_true _ _).1 hp
  exact ⟨s', h.last hr, hs'⟩

theorem always_nil : Always step P s [] ↔ P s := by
  refine ⟨Always.first, fun h pre s' hp hr => ?_⟩
  rw [prefix_nil.1 hp, run_nil] at hr
  exact some.inj hr ▸ h

theorem always_cons : Always step P s (op :: ops) ↔ P s ∧ ∀ s', step s op = some s' → Always step P s' ops := by
  constructor
  · refine fun h => ⟨h.first, fun s' hs pre t hp hr => ?_⟩
    refine h (op :: pre) t (cons_prefix_cons.2 ⟨rfl, hp⟩) ?_
    rw [run_cons, hs]
    exact hr
  · rintro ⟨h, ht⟩ pre t hp hr
    cases pre with
    | nil => exact some.inj hr ▸ h
    | cons o pre =>
      obtain ⟨rfl, hpre⟩ := cons_prefix_cons.1 hp
      obtain ⟨s', hs, hr⟩ := bind_eq_some_iff.1 hr
      exact ht s' hs pre t hpre hr

theorem everyStep_nil : EveryStep step C s [] := fun pre op _ hp => absurd (prefix_nil.1 hp) (by simp)

theorem everyStep_cons : EveryStep step C s (op :: ops) ↔
    C s op ∧ ∀ s', step s op = some s' → EveryStep step C s' ops := by
  constructor
  · refine fun h => ⟨h [] op s (by simp) rfl, fun s' hs pre o t hp hr => ?_⟩
    refine h (op :: pre) o t (cons_prefix_cons.2 ⟨rfl, hp⟩) ?_
    rw [run_cons, hs]
    exact hr
  · rintro ⟨h, ht⟩ pre o t hp hr
    cases pre with
    | nil =>
      obtain ⟨rfl, -⟩ := cons_prefix_cons.1 hp
      exact some.inj hr ▸ h
    | cons o' pre =>
      obtain ⟨rfl, hpre⟩ := cons_prefix_cons.1 hp
      obtain ⟨s', hs, hr⟩ := bind_eq_some_iff.1 hr
      exact ht s' hs pre o t hpre hr

/-- A condition that can be computed can be computed along a run. -/
instance decidableEveryStep [∀ s op, Decidable (C s op)] : ∀ s ops, Decidable (EveryStep step C s ops)
  | _, [] => isTrue everyStep_nil
  | s, op :: ops =>
    match h : step s op with
    | none => decidable_of_iff (C s op) <| by rw [everyStep_cons, h]; simp
    | some s' =>
      have := decidableEveryStep s' ops
      decidable_of_iff (C s op ∧ EveryStep step C s' ops) <| by rw [everyStep_cons, h]; simp

theorem Always.mono (h : Always step P s ops) (hi : ∀ s, P s → Q s) : Always step Q s ops :=
  fun pre s' hp hr => hi s' (h pre s' hp hr)

theorem EveryStep.and {D : σ → ο → Prop} (h : EveryStep step C s ops)
    (h' : EveryStep step D s ops) : EveryStep step (fun s op => C s op ∧ D s op) s ops :=
  fun pre op s' hp hr => ⟨h pre op s' hp hr, h' pre op s' hp hr⟩

/-- What follows of a step from its condition and its state. -/
theorem EveryStep.of_always {D : σ → ο → Prop} (h : EveryStep step C s ops)
    (ha : Always step P s ops) (hi : ∀ s op, P s → C s op → D s op) : EveryStep step D s ops :=
  fun pre op s' hp hr =>
    hi s' op (ha pre s' ((prefix_append pre [op]).trans hp) hr) (h pre op s' hp hr)

/-- The steps of the rest of a run meet the condition too. -/
theorem EveryStep.after {pre mid : List ο} {t : σ} (h : EveryStep step C s ops)
    (hp : pre ++ mid <+: ops) (ht : run step s pre = some t) : EveryStep step C t mid := by
  intro pre' op u hu hr
  refine h (pre ++ pre') op u ?_ ((run_append step ht).trans hr)
  rw [append_assoc]
  exact ((prefix_append_right_inj pre).2 hu).trans hp

/-- In a run that returns, every step does. -/
theorem exists_step_of_run (hr : (run step s ops).isSome) {pre : List ο} {s' : σ}
    (hp : pre ++ [op] <+: ops) (hs : run step s pre = some s') :
    ∃ t, step s' op = some t ∧ run step s (pre ++ [op]) = some t := by
  obtain ⟨rest, rfl⟩ := hp
  have hc := run_concat step s pre op
  rw [hs, bind_some] at hc
  cases ht : step s' op with
  | some t => exact ⟨t, rfl, hc.trans ht⟩
  | none =>
    have : run step s (pre ++ [op] ++ rest) = none := by
      unfold run at hc ⊢
      rw [foldlM_append, hc, ht]
      rfl
    rw [this] at hr
    cases hr

/-- What holds of the first state and is kept by every step that meets the condition holds
throughout every run whose steps meet it. -/
theorem always_of_everyStep (h0 : P s)
    (hs : ∀ s op s', P s → C s op → step s op = some s' → P s') (hc : EveryStep step C s ops) :
    Always step P s ops := by
  induction ops generalizing s with
  | nil => exact always_nil.2 h0
  | cons op ops ih =>
    obtain ⟨hc, ht⟩ := everyStep_cons.1 hc
    exact always_cons.2 ⟨h0, fun s' he => ih (hs s op s' h0 hc he) (ht s' he)⟩

/-- Where steps that meet the condition also return, every run whose steps meet it does. -/
theorem returns_of_everyStep (h0 : P s)
    (hs : ∀ s op, P s → C s op → ∃ s', step s op = some s' ∧ P s') (hc : EveryStep step C s ops) :
    (run step s ops).isSome ∧ Always step P s ops := by
  induction ops generalizing s with
  | nil => exact ⟨rfl, always_nil.2 h0⟩
  | cons op ops ih =>
    obtain ⟨hc, ht⟩ := everyStep_cons.1 hc
    obtain ⟨s', he, hp⟩ := hs s op h0 hc
    obtain ⟨hr, ha⟩ := ih hp (ht s' he)
    refine ⟨?_, always_cons.2 ⟨h0, fun t ht => ?_⟩⟩
    · rw [run_cons, he]
      exact hr
    · obtain rfl : s' = t := some.inj (he.symm.trans ht)
      exact ha

/-- What holds of the first state and is kept by every step holds throughout every run. -/
theorem always (h0 : P s) (hs : ∀ s op s', P s → step s op = some s' → P s') : Always step P s ops :=
  always_of_everyStep (C := fun _ _ => True) h0 (fun s op s' h _ => hs s op s' h) fun _ _ _ _ _ => trivial

/-- A property that a step keeps exactly when the step meets the condition holds throughout a run
exactly when every step of it meets the condition. `I` is an invariant that holds anyway. -/
theorem always_iff_everyStep (hi0 : I s) (h0 : P s) (hi : ∀ s op s', I s → step s op = some s' → I s')
    (hs : ∀ s op s', I s → P s → step s op = some s' → (P s' ↔ C s op))
    (hn : ∀ s op, I s → P s → step s op = none → C s op) :
    Always step P s ops ↔ EveryStep step C s ops := by
  induction ops generalizing s with
  | nil => exact ⟨fun _ => everyStep_nil, fun _ => always_nil.2 h0⟩
  | cons op ops ih =>
    rw [always_cons, everyStep_cons]
    cases he : step s op with
    | none => simpa [h0] using hn s op hi0 h0 he
    | some s' =>
      have hk := hs s op s' hi0 h0 he
      simp only [h0, true_and, some.injEq, forall_eq']
      constructor
      · intro h
        have hc := hk.1 h.first
        exact ⟨hc, (ih (hi s op s' hi0 he) (hk.2 hc)).1 h⟩
      · rintro ⟨hc, h⟩
        exact (ih (hi s op s' hi0 he) (hk.2 hc)).2 h

/-- The same for a machine every operation of which returns. -/
theorem always_total_iff_everyStep {f : σ → ο → σ} (h0 : P s) (hs : ∀ s op, P s → (P (f s op) ↔ C s op)) :
    Always (total f) P s ops ↔ EveryStep (total f) C s ops := by
  refine always_iff_everyStep (I := fun _ => True) trivial h0 (fun _ _ _ _ _ => trivial) ?_ ?_
  · intro s op s' _ h he
    obtain rfl := total_eq_some.1 he
    exact hs s op h
  · intro s op _ _ hn
    cases hn

end Run
