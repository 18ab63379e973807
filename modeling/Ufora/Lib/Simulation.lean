import Mathlib.Data.List.Basic
import Mathlib.Logic.Relation

/-!
# Simulations between deterministic machines

A machine goes from state to state until it ends with an outcome or gets stuck, and each state shows
something of itself. `Alike` compares two states of two machines: where the first never gets stuck, the
second does not either, it shows the same on its way, nothing more and nothing less, and it ends with the
same outcomes. `Simulation.alike` is the rule for it: every step of the first machine is followed by steps
of the second one that show nothing new, and a step that is followed by none at all lowers a measure.
-/

namespace Simulation

/-- What a step does. -/
inductive Next (σ ο : Type*)
  | next (s : σ)
  | done (o : ο)
  | stuck

/-- A deterministic machine. -/
structure Machine (σ ο ω : Type*) where
  step : σ → Next σ ο
  shows : σ → ω

variable {σ σ' σ'' ο ω : Type*} {m : Machine σ ο ω} {m' : Machine σ' ο ω} {m'' : Machine σ'' ο ω}

/-- Some steps, by their number. -/
inductive Machine.Steps (m : Machine σ ο ω) : ℕ → σ → σ → Prop
  | refl (s : σ) : m.Steps 0 s s
  | head {n : ℕ} {s t u : σ} (h : m.step s = .next t) (ht : m.Steps n t u) : m.Steps (n + 1) s u

def Machine.Reaches (m : Machine σ ο ω) (s t : σ) : Prop := ∃ n, m.Steps n s t

/-- The machine never gets stuck. -/
def Machine.Safe (m : Machine σ ο ω) (s : σ) : Prop := ∀ t, m.Reaches s t → m.step t ≠ .stuck

/-- What the machine shows on its way. -/
def Machine.Shows (m : Machine σ ο ω) (s : σ) (w : ω) : Prop := ∃ t, m.Reaches s t ∧ m.shows t = w

/-- What the machine ends with. -/
def Machine.Ends (m : Machine σ ο ω) (s : σ) (o : ο) : Prop := ∃ t, m.Reaches s t ∧ m.step t = .done o

/-- Where the first machine never gets stuck the second one does the same. -/
def Alike (m : Machine σ ο ω) (m' : Machine σ' ο ω) (s : σ) (s' : σ') : Prop :=
  m.Safe s → m'.Safe s' ∧ (∀ w, m.Shows s w ↔ m'.Shows s' w) ∧ ∀ o, m.Ends s o ↔ m'.Ends s' o

theorem Alike.trans {s : σ} {s' : σ'} {s'' : σ''} (h : Alike m m' s s') (h' : Alike m' m'' s' s'') :
    Alike m m'' s s'' := by
  intro hsafe
  obtain ⟨hsafe', hshows, hends⟩ := h hsafe
  obtain ⟨hsafe'', hshows', hends'⟩ := h' hsafe'
  exact ⟨hsafe'', fun w => (hshows w).trans (hshows' w), fun o => (hends o).trans (hends' o)⟩

theorem Alike.refl (s : σ) : Alike m m s s := fun h => ⟨h, fun _ => Iff.rfl, fun _ => Iff.rfl⟩

section
variable {s t u : σ} {n k : ℕ}

theorem Machine.Steps.append (h : m.Steps n s t) (h' : m.Steps k t u) : m.Steps (n + k) s u := by
  induction h with
  | refl s => rwa [Nat.zero_add]
  | @head n s v t hs h ih =>
    rw [Nat.add_right_comm]
    exact .head hs (ih h')

theorem Machine.Reaches.trans (h : m.Reaches s t) (h' : m.Reaches t u) : m.Reaches s u :=
  let ⟨_, h⟩ := h
  let ⟨_, h'⟩ := h'
  ⟨_, h.append h'⟩

theorem Machine.Reaches.refl (s : σ) : m.Reaches s s := ⟨0, .refl s⟩

theorem Machine.Reaches.of_step (h : m.step s = .next t) : m.Reaches s t := ⟨1, .head h (.refl t)⟩

theorem Machine.Safe.of_reaches (h : m.Safe s) (ht : m.Reaches s t) : m.Safe t := fun _ hu => h _ (ht.trans hu)

/-- There is one way only. -/
theorem Machine.Steps.split (h : m.Steps n s t) (h' : m.Steps k s u) :
    (∃ r, m.Steps r t u ∧ k = n + r) ∨ ∃ r, m.Steps r u t ∧ n = k + r := by
  induction h generalizing k with
  | refl s => exact .inl ⟨k, h', (Nat.zero_add k).symm⟩
  | @head n s v t hs h ih =>
    cases h' with
    | refl => exact .inr ⟨n + 1, .head hs h, (Nat.zero_add _).symm⟩
    | @head k _ w _ hs' h' =>
      obtain rfl : v = w := by
        rw [hs] at hs'
        exact Next.next.inj hs'
      exact (ih h').imp (fun ⟨r, hr, he⟩ => ⟨r, hr, by omega⟩) fun ⟨r, hr, he⟩ => ⟨r, hr, by omega⟩

end

/-- Steps through states that show the same. -/
inductive Machine.Quietly (m : Machine σ ο ω) (w : ω) : ℕ → σ → σ → Prop
  | refl (s : σ) : m.Quietly w 0 s s
  | head {n : ℕ} {s t u : σ} (hw : m.shows s = w) (h : m.step s = .next t) (ht : m.Quietly w n t u) :
    m.Quietly w (n + 1) s u

theorem Machine.Quietly.steps {w : ω} {n : ℕ} {s t : σ} (h : m.Quietly w n s t) : m.Steps n s t := by
  induction h with
  | refl s => exact .refl s
  | head _ h _ ih => exact .head h ih

/-- A state before the end of quiet steps shows the same and is not stuck. -/
theorem Machine.Quietly.before {w : ω} {n k : ℕ} {s t u : σ} (h : m.Quietly w n s t) (hu : m.Steps k s u)
    (hlt : k < n) : m.shows u = w ∧ ∃ v, m.step u = .next v := by
  induction h generalizing k with
  | refl => omega
  | @head n s v t hw hs h ih =>
    cases hu with
    | refl => exact ⟨hw, v, hs⟩
    | @head k _ x _ hs' hu =>
      obtain rfl : v = x := by
        rw [hs] at hs'
        exact Next.next.inj hs'
      exact ih hu (by omega)

/-- A relation that the steps of the first machine keep, where it never gets stuck: the second one shows
the same, ends where the first one ends, and follows each step; a step that it follows with none lowers a
measure. -/
structure Simulates (m : Machine σ ο ω) (m' : Machine σ' ο ω) (R : σ → σ' → Prop) (measure : σ → ℕ) : Prop where
  shows : ∀ {s s'}, R s s' → m.shows s = m'.shows s'
  done : ∀ {s s' o}, R s s' → m.step s = .done o → m'.step s' = .done o
  next : ∀ {s s' t}, R s s' → m.Safe s → m.step s = .next t → ∃ n t', m'.Quietly (m.shows s) n s' t' ∧
    R t t' ∧ (n = 0 → measure t < measure s)

variable {R : σ → σ' → Prop} {measure : σ → ℕ}

variable (h : Simulates m m' R measure)
include h

/-- The second machine follows the first one. -/
theorem Simulates.forward {n : ℕ} {s t : σ} {s' : σ'} (hr : R s s')
    (hsafe : m.Safe s) (hs : m.Steps n s t) : ∃ t', m'.Reaches s' t' ∧ R t t' := by
  induction hs generalizing s' with
  | refl s => exact ⟨s', .refl s', hr⟩
  | head hs _ ih =>
    obtain ⟨k, u', hu', hru, -⟩ := h.next hr hsafe hs
    obtain ⟨t', ht', hrt⟩ := ih hru (hsafe.of_reaches (.of_step hs))
    exact ⟨t', .trans ⟨k, hu'.steps⟩ ht', hrt⟩

/-- Whatever the second machine reaches, the first one is there too, up to quiet steps to come. -/
theorem Simulates.backward (n : ℕ) : ∀ (d : ℕ) {s : σ} {s' u' : σ'},
    measure s = d → R s s' → m.Safe s → m'.Steps n s' u' →
      ∃ t t', m.Reaches s t ∧ R t t' ∧ (t' = u' ∨ m'.shows u' = m.shows t ∧ ∃ v, m'.step u' = .next v) := by
  induction n using Nat.strongRecOn with
  | _ n ihn =>
    intro d
    induction d using Nat.strongRecOn with
    | _ d ihd =>
      intro s s' u' hd hr hsafe hu
      rcases Nat.eq_zero_or_pos n with rfl | hpos
      · cases hu
        exact ⟨s, s', .refl s, hr, .inl rfl⟩
      cases hs : m.step s with
      | stuck => exact absurd hs (hsafe s (.refl s))
      | done o =>
        have hdone := h.done hr hs
        cases hu with
        | refl => omega
        | head hs' _ => rw [hdone] at hs'; cases hs'
      | next t =>
        obtain ⟨k, t', ht', hrt, hmeasure⟩ := h.next hr hsafe hs
        have hsafe' := hsafe.of_reaches (.of_step hs)
        rcases Nat.lt_or_ge n k with hlt | hle
        · obtain ⟨hshows, hv⟩ := ht'.before hu hlt
          exact ⟨s, s', .refl s, hr, .inr ⟨hshows, hv⟩⟩
        obtain ⟨r, hrest, hn⟩ : ∃ r, m'.Steps r t' u' ∧ n = k + r := by
          rcases ht'.steps.split hu with hc | ⟨r, hrest, he⟩
          · exact hc
          · obtain rfl : r = 0 := by omega
            cases hrest
            exact ⟨0, .refl _, by omega⟩
        rcases Nat.eq_zero_or_pos k with rfl | hk
        · rw [Nat.zero_add] at hn
          subst hn
          obtain ⟨x, x', hx, hrx, hend⟩ := ihd _ (hd ▸ hmeasure rfl) rfl hrt hsafe' hrest
          exact ⟨x, x', .trans (.of_step hs) hx, hrx, hend⟩
        · obtain ⟨x, x', hx, hrx, hend⟩ := ihn r (by omega) _ rfl hrt hsafe' hrest
          exact ⟨x, x', .trans (.of_step hs) hx, hrx, hend⟩

/-- Where the second machine stands, the first one ends the same way or the second one goes on. -/
theorem Simulates.settles (d : ℕ) : ∀ {s : σ} {s' : σ'}, measure s = d →
    R s s' → m.Safe s → (∃ t o, m.Reaches s t ∧ m.step t = .done o ∧ m'.step s' = .done o) ∨
      ∃ v, m'.step s' = .next v := by
  induction d using Nat.strongRecOn with
  | _ d ih =>
    intro s s' hd hr hsafe
    cases hs : m.step s with
    | stuck => exact absurd hs (hsafe s (.refl s))
    | done o => exact .inl ⟨s, o, .refl s, hs, h.done hr hs⟩
    | next t =>
      obtain ⟨k, t', ht', hrt, hmeasure⟩ := h.next hr hsafe hs
      cases ht' with
      | refl =>
        refine (ih _ (hd ▸ hmeasure rfl) rfl hrt (hsafe.of_reaches (.of_step hs))).imp_left ?_
        rintro ⟨u, o, hu, hdone, hdone'⟩
        exact ⟨u, o, .trans (.of_step hs) hu, hdone, hdone'⟩
      | head _ hv _ => exact .inr ⟨_, hv⟩

/-- Machines of which one simulates the other are alike. -/
theorem Simulates.alike {s : σ} {s' : σ'} (hr : R s s') : Alike m m' s s' := by
  intro hsafe
  refine ⟨?_, fun w => ⟨?_, ?_⟩, fun o => ⟨?_, ?_⟩⟩
  · rintro u' ⟨n, hu⟩ hstuck
    obtain ⟨t, t', ⟨k, ht⟩, hrt, rfl | ⟨-, v, hv⟩⟩ := h.backward n _ rfl hr hsafe hu
    · rcases h.settles _ rfl hrt (hsafe.of_reaches ⟨k, ht⟩) with ⟨-, o, -, -, hdone⟩ | ⟨v, hv⟩
      · rw [hdone] at hstuck
        cases hstuck
      · rw [hv] at hstuck
        cases hstuck
    · rw [hv] at hstuck
      cases hstuck
  · rintro ⟨t, ⟨n, ht⟩, rfl⟩
    obtain ⟨t', ht', hrt⟩ := h.forward hr hsafe ht
    exact ⟨t', ht', (h.shows hrt).symm⟩
  · rintro ⟨u', ⟨n, hu⟩, rfl⟩
    obtain ⟨t, t', ht, hrt, rfl | ⟨hshows, -⟩⟩ := h.backward n _ rfl hr hsafe hu
    · exact ⟨t, ht, h.shows hrt⟩
    · exact ⟨t, ht, hshows.symm⟩
  · rintro ⟨t, ⟨n, ht⟩, hdone⟩
    obtain ⟨t', ht', hrt⟩ := h.forward hr hsafe ht
    exact ⟨t', ht', h.done hrt hdone⟩
  · rintro ⟨u', ⟨n, hu⟩, hdone⟩
    obtain ⟨t, t', ht, hrt, rfl | ⟨-, v, hv⟩⟩ := h.backward n _ rfl hr hsafe hu
    · rcases h.settles _ rfl hrt (hsafe.of_reaches ht) with ⟨x, o', hx, hdone', hsame⟩ | ⟨v, hv⟩
      · rw [hsame] at hdone
        obtain rfl := Next.done.inj hdone
        exact ⟨x, ht.trans hx, hdone'⟩
      · rw [hv] at hdone
        cases hdone
    · rw [hv] at hdone
      cases hdone

end Simulation
