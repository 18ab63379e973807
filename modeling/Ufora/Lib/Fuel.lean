import Mathlib.Order.Nat

/-!
# Code that recurses as long as it has to

A function whose recursion is not known to end takes a limit on its depth, and has no result when it comes to
it. `Yields f a` says that `f` returns `a` under every limit that is large enough: it ends, and with `a`. The
rules compose such statements as the code composes the calls.
-/

open Option

namespace Fuel

variable {α β γ : Type*} {f : ℕ → Option α} {a b : α}

/-- With enough fuel, `f` returns `a`. -/
def Yields (f : ℕ → Option α) (a : α) : Prop := ∃ n, ∀ limit, n ≤ limit → f limit = some a

/-- A call returns one value. -/
theorem Yields.unique (h : Yields f a) (h' : Yields f b) : a = b := by
  obtain ⟨n, hn⟩ := h
  obtain ⟨m, hm⟩ := h'
  have ha := hn (n + m) (by omega)
  rw [hm (n + m) (by omega)] at ha
  exact (some.inj ha).symm

theorem yields_some : Yields (fun _ => some a) a := ⟨0, fun _ _ => rfl⟩

/-- What a computation that uses no fuel returns. -/
theorem yields_const {x : Option α} : Yields (fun _ => x) a ↔ x = some a :=
  ⟨fun ⟨n, hn⟩ => hn n le_rfl, fun h => ⟨0, fun _ _ => h⟩⟩

theorem Yields.map (h : Yields f a) (g : α → β) : Yields (fun limit => (f limit).map g) (g a) := by
  obtain ⟨n, hn⟩ := h
  exact ⟨n, fun limit hle => congrArg (Option.map g) (hn limit hle)⟩

/-- A sequence of two calls. -/
theorem Yields.bind {g : α → ℕ → Option β} {b : β} (h : Yields f a) (hg : Yields (g a) b) :
    Yields (fun limit => (f limit).bind fun a => g a limit) b := by
  obtain ⟨n, hn⟩ := h
  obtain ⟨m, hm⟩ := hg
  refine ⟨n + m, fun limit hl => ?_⟩
  show (f limit).bind (fun a => g a limit) = some b
  rw [hn limit (by omega)]
  exact hm limit (by omega)

/-- What comes after a call that returns, where the sequence returns. -/
theorem Yields.of_bind {g : α → ℕ → Option β} {b : β} (h : Yields f a)
    (hbind : Yields (fun limit => (f limit).bind fun a => g a limit) b) : Yields (g a) b := by
  obtain ⟨n, hn⟩ := h
  obtain ⟨m, hm⟩ := hbind
  refine ⟨n + m, fun limit hl => ?_⟩
  have hlimit : (f limit).bind (fun a => g a limit) = some b := hm limit (by omega)
  rwa [hn limit (by omega)] at hlimit

/-- A sequence of two calls returns where both do, if the first one returns under every limit what it returns under
one. -/
theorem exists_yields_bind {g : α → ℕ → Option β} (hf : ∀ limit a, f limit = some a → Yields f a) :
    (∃ b, Yields (fun limit => (f limit).bind fun a => g a limit) b) ↔ ∃ a, Yields f a ∧ ∃ b, Yields (g a) b := by
  constructor
  · rintro ⟨b, hb⟩
    obtain ⟨n, hn⟩ := id hb
    obtain ⟨a, ha, -⟩ := bind_eq_some_iff.1 (hn n le_rfl)
    exact ⟨a, hf n a ha, b, (hf n a ha).of_bind hb⟩
  · rintro ⟨a, ha, b, hb⟩
    exact ⟨b, ha.bind hb⟩

/-- A call of the function itself, one level down. -/
theorem Yields.of_succ (h : Yields (fun limit => f (limit + 1)) a) : Yields f a := by
  obtain ⟨n, hn⟩ := h
  refine ⟨n + 1, fun limit hl => ?_⟩
  cases limit with
  | zero => omega
  | succ limit => exact hn limit (by omega)

theorem Yields.congr {g : ℕ → Option α} (h : Yields g a) (hfg : ∀ limit, f limit = g limit) : Yields f a := by
  rw [show f = g from funext hfg]
  exact h

/-- One branch of the function, a level down. -/
theorem Yields.of_eq_succ {g : ℕ → Option α} (h : Yields g a) (hfg : ∀ limit, f (limit + 1) = g limit) :
    Yields f a := of_succ (h.congr hfg)

/-- A loop whose every round ends, in the states that the rounds leave. -/
theorem yields_foldlM {g : ℕ → β → α → Option β} {I : β → Prop} {l : List α} {b : β}
    (h : ∀ a ∈ l, ∀ b, I b → ∃ b', Yields (fun limit => g limit b a) b' ∧ I b') (hb : I b) :
    ∃ b', Yields (fun limit => l.foldlM (g limit) b) b' ∧ I b' := by
  induction l generalizing b with
  | nil => exact ⟨b, yields_some, hb⟩
  | cons a l ih =>
    obtain ⟨b', hround, hb'⟩ := h a (.head l) b hb
    obtain ⟨b'', hrest, hb''⟩ := ih (fun c hc => h c (.tail a hc)) hb'
    exact ⟨b'', (hround.bind hrest).congr fun limit => List.foldlM_cons, hb''⟩

end Fuel
