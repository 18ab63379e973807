import Mathlib.Data.List.Basic

/-!
# Code that throws

A function that updates an object and may throw is an `EStateM`: an exception keeps the state of the
object at the throw. `wp x Q E s` says that `x`, called in the state `s`, returns with `Q` or throws
with `E`. Its rules turn straight-line code into a statement about the states it goes through, one
rule for each construct; a call is replaced by what is proved of it with `wp.mono`, a loop by its
invariant with `wp_forM`.
-/

open List EStateM

namespace Effect

variable {ε σ α β : Type}

/-- `lassert`: throws unless the condition holds. -/
def lassert (c : Prop) [Decidable c] (msg : ε) : EStateM ε σ Unit :=
  if c then pure () else throw msg

/-- A call on a part of the object. -/
def onPart {τ : Type} (part : σ → τ) (withPart : τ → σ → σ) (x : EStateM ε τ α) : EStateM ε σ α := fun s =>
  match x (part s) with
  | .ok a t => .ok a (withPart t s)
  | .error e t => .error e (withPart t s)

/-- The object after the call, whether it returned or threw. -/
def exec (x : EStateM ε σ α) (s : σ) : σ :=
  match x s with
  | .ok _ s' => s'
  | .error _ s' => s'

/-- The object after a call that returns. -/
def returned (x : EStateM ε σ α) (s : σ) : Option σ :=
  match x s with
  | .ok _ s' => some s'
  | .error _ _ => none

/-- The call returns with `Q` or throws with `E`. -/
def wp (x : EStateM ε σ α) (Q : α → σ → Prop) (E : ε → σ → Prop) (s : σ) : Prop :=
  match x s with
  | .ok a s' => Q a s'
  | .error e s' => E e s'

section
variable {Q Q' : α → σ → Prop} {R : β → σ → Prop} {E E' : ε → σ → Prop} {s : σ} {x : EStateM ε σ α}

theorem wp.mono (h : wp x Q E s) (hQ : ∀ a s', Q a s' → Q' a s') (hE : ∀ e s', E e s' → E' e s') : wp x Q' E' s := by
  unfold wp at h ⊢
  split at h
  · exact hQ _ _ h
  · exact hE _ _ h

/-- The call returns with more. -/
theorem wp.imp (h : wp x Q E s) (hQ : ∀ a s', Q a s' → Q' a s') : wp x Q' E s := h.mono hQ fun _ _ => id

theorem wp_of_ok {a : α} {s' : σ} (hr : x.run s = .ok a s') : wp x Q E s ↔ Q a s' := by
  unfold wp
  rw [show x s = .ok a s' from hr]

theorem wp.of_ok {a : α} {s' : σ} (h : wp x Q E s) (hr : x.run s = .ok a s') : Q a s' := (wp_of_ok hr).1 h

theorem wp.of_error {e : ε} {s' : σ} (h : wp x Q E s) (hr : x.run s = .error e s') : E e s' := by
  unfold wp at h
  rw [show x s = .error e s' from hr] at h
  exact h

theorem wp.and (h : wp x Q E s) (h' : wp x Q' E' s) :
    wp x (fun a s => Q a s ∧ Q' a s) (fun e s => E e s ∧ E' e s) s := by
  unfold wp at h h' ⊢
  split at h
  · next hx => rw [hx] at h'; exact ⟨h, h'⟩
  · next hx => rw [hx] at h'; exact ⟨h, h'⟩

/-- A statement about a call is decided by what is known of its outcome. -/
theorem wp.iff {R : Prop} (h : wp x Q E s) (hQ : ∀ a s', Q a s' → (Q' a s' ↔ R))
    (hE : ∀ e s', E e s' → (E' e s' ↔ R)) : wp x Q' E' s ↔ R := by
  unfold wp at h ⊢
  split at h
  · exact hQ _ _ h
  · exact hE _ _ h

/-- A call returns or it throws. -/
theorem wp_returned (x : EStateM ε σ α) (s : σ) : wp x (fun _ s' => returned x s = some s')
    (fun _ _ => returned x s = none) s := by
  unfold wp returned
  cases x s <;> rfl

/-- A call leaves what it leaves, whether it returns or throws. -/
theorem wp_exec (x : EStateM ε σ α) (s : σ) : wp x (fun _ s' => exec x s = s')
    (fun _ s' => exec x s = s') s := by
  unfold wp exec
  cases x s <;> rfl

/-- What holds of both outcomes whatever they are. -/
theorem wp_of_forall (hQ : ∀ a s', Q a s') (hE : ∀ e s', E e s') : wp x Q E s := by
  unfold wp
  split
  · exact hQ _ _
  · exact hE _ _

@[simp] theorem wp_pure (a : α) : wp (pure a : EStateM ε σ α) Q E s ↔ Q a s := Iff.rfl

@[simp] theorem wp_get {Q : σ → σ → Prop} : wp (get : EStateM ε σ σ) Q E s ↔ Q s s := Iff.rfl

@[simp] theorem wp_modify {Q : PUnit → σ → Prop} (f : σ → σ) :
    wp (modify f : EStateM ε σ PUnit) Q E s ↔ Q ⟨⟩ (f s) := Iff.rfl

@[simp] theorem wp_bind (x : EStateM ε σ α) (f : α → EStateM ε σ β) :
    wp (x >>= f) R E s ↔ wp x (fun a s' => wp (f a) R E s') E s := by
  change (match EStateM.bind x f s with | .ok a s' => R a s' | .error e s' => E e s') ↔ _
  unfold wp EStateM.bind
  cases x s <;> exact Iff.rfl

@[simp] theorem wp_ite (c : Prop) [Decidable c] (x y : EStateM ε σ α) :
    wp (if c then x else y) Q E s ↔ if c then wp x Q E s else wp y Q E s := by
  split <;> exact Iff.rfl

@[simp] theorem wp_lassert {Q : Unit → σ → Prop} (c : Prop) [Decidable c] (msg : ε) :
    wp (lassert c msg : EStateM ε σ Unit) Q E s ↔ if c then Q () s else E msg s := by
  unfold lassert
  split <;> exact Iff.rfl

@[simp] theorem wp_onPart {τ : Type} (part : σ → τ) (withPart : τ → σ → σ) (x : EStateM ε τ α) :
    wp (onPart part withPart x) Q E s ↔
      wp x (fun a t => Q a (withPart t s)) (fun e t => E e (withPart t s)) (part s) := by
  unfold wp onPart
  cases x (part s) <;> exact Iff.rfl

@[simp] theorem wp_tryCatch (x : EStateM ε σ α) (handle : ε → EStateM ε σ α) :
    wp (tryCatch x handle) Q E s ↔ wp x Q (fun e s' => wp (handle e) Q E s') s := by
  show (match EStateM.tryCatch x handle s with | .ok a s' => Q a s' | .error e s' => E e s') ↔ _
  unfold wp EStateM.tryCatch
  cases x s <;> exact Iff.rfl

@[simp] theorem wp_adaptExcept {ε' : Type} {E : ε' → σ → Prop} (f : ε → ε') (x : EStateM ε σ α) :
    wp (adaptExcept f x) Q E s ↔ wp x Q (fun e s' => E (f e) s') s := by
  unfold wp adaptExcept
  cases x s <;> exact Iff.rfl

/-- A loop over a list. The invariant speaks of the elements still to come. -/
theorem wp_forM {γ : Type} {f : γ → EStateM ε σ PUnit} (I : List γ → σ → Prop)
    (h : ∀ a l s, I (a :: l) s → wp (f a) (fun _ s' => I l s') E s) (l : List γ) (hI : I l s) :
    wp (l.forM f) (fun _ s' => I [] s') E s := by
  induction l generalizing s with
  | nil => exact hI
  | cons a l ih =>
    show wp (f a >>= fun _ => l.forM f) _ E s
    rw [wp_bind]
    exact (h a l s hI).imp fun _ s' hs => ih hs

/-- A loop over a list that carries a value. -/
theorem wp_foldlM {γ : Type} {f : β → γ → EStateM ε σ β} (I : β → σ → Prop)
    (h : ∀ a b s, I b s → wp (f b a) I E s) (l : List γ) {b : β} (hI : I b s) :
    wp (l.foldlM f b) I E s := by
  induction l generalizing b s with
  | nil => exact hI
  | cons a l ih =>
    rw [foldlM_cons, wp_bind]
    exact (h a b s hI).imp fun _ _ hs => ih hs

/-- A loop that counts and carries a value. -/
theorem wp_foldlM_range {f : β → ℕ → EStateM ε σ β} {b : β} (n : ℕ) (I : ℕ → β → σ → Prop)
    (h : ∀ k b s, k < n → I k b s → wp (f b k) (fun b' s' => I (k + 1) b' s') E s) (hI : I 0 b s) :
    wp ((List.range n).foldlM f b) (fun b' s' => I n b' s') E s := by
  induction n with
  | zero => exact hI
  | succ n ih =>
    rw [range_succ, foldlM_append, wp_bind]
    refine (ih fun k b s hk => h k b s (by omega)).imp fun b' s' hs' => ?_
    rw [foldlM_cons, wp_bind]
    exact (h n b' s' (by omega) hs').imp fun _ _ hs => hs

/-- A loop that returns has returned from every turn. -/
theorem wp_forM_all {γ : Type} {f : γ → EStateM ε σ PUnit} {P : γ → Prop} {J : σ → Prop}
    (h : ∀ a s, J s → wp (f a) (fun _ s' => P a ∧ J s') E s) (l : List γ) (hJ : J s) :
    wp (l.forM f) (fun _ s' => (∀ a ∈ l, P a) ∧ J s') E s := by
  refine (wp_forM (fun l' s' => (((∀ a ∈ l', P a) → ∀ a ∈ l, P a) ∧ J s')) (fun a l' s' hs' => ?_) l
    ⟨id, hJ⟩).imp fun _ s' hs' => ⟨hs'.1 nofun, hs'.2⟩
  refine (h a s' hs'.2).imp fun _ s'' ha => ⟨fun hl => hs'.1 ?_, ha.2⟩
  exact forall_mem_cons.2 ⟨ha.1, hl⟩

variable {P : σ → Prop}

/-- A loop that stops at the first turn that returns true. -/
theorem wp_anyM {γ : Type} {p : γ → EStateM ε σ Bool} (I : List γ → σ → Prop)
    (h : ∀ a l s, I (a :: l) s → wp (p a) (fun found s' => if found = true then P s' else I l s') E s)
    (l : List γ) (hI : I l s) :
    wp (l.anyM p) (fun found s' => if found = true then P s' else I [] s') E s := by
  induction l generalizing s with
  | nil => exact hI
  | cons a l ih =>
    rw [List.anyM, wp_bind]
    refine (h a l s hI).imp fun found s' hs => ?_
    cases found with
    | true => exact hs
    | false => exact ih hs

/-- Both outcomes of a call keep what its rule says of them. -/
theorem wp.exec (h : wp x (fun _ => P) (fun _ => P) s) : P (exec x s) := by
  unfold wp at h
  unfold Effect.exec
  split <;> split at h <;> simp_all

theorem wp.returned {s' : σ} (h : wp x (fun _ => P) E s)
    (hr : returned x s = some s') : P s' := by
  unfold wp at h
  unfold Effect.returned at hr
  split at h
  · next hx => rw [hx] at hr; exact Option.some.inj hr ▸ h
  · next hx => rw [hx] at hr; cases hr

/-- A call that cannot throw returns. -/
theorem wp.exists_returned
    (h : wp x (fun _ => P) (fun _ _ => False) s) : ∃ s', Effect.returned x s = some s' ∧ P s' := by
  unfold wp at h
  unfold Effect.returned
  split at h
  · exact ⟨_, rfl, h⟩
  · exact h.elim

/-- What a call that cannot throw returns. -/
theorem wp.exists_run (h : wp x Q (fun _ _ => False) s) : ∃ a s', x.run s = .ok a s' ∧ Q a s' := by
  unfold wp at h
  split at h
  · next hx => exact ⟨_, _, hx, h⟩
  · exact h.elim

end

/-! ## Calls that keep an invariant and a relation -/

/-- Called in a state of the invariant `I`, the function leaves one that `R` relates to it, whether it
returns or throws, and throws `E` only. -/
def Keeps (I : σ → Prop) (R : σ → σ → Prop) (E : ε → Prop) (x : EStateM ε σ α) : Prop :=
  ∀ s, I s → wp x (fun _ s' => I s' ∧ R s s') (fun e s' => (I s' ∧ R s s') ∧ E e) s

section
variable {I : σ → Prop} {R : σ → σ → Prop} {E : ε → Prop} [IsPreorder σ R]

theorem keeps_pure (a : α) : Keeps I R E (pure a : EStateM ε σ α) := fun s hs => ⟨hs, refl_of R s⟩

theorem keeps_throw {e : ε} (he : E e) : Keeps I R E (throw e : EStateM ε σ α) := fun s hs => ⟨⟨hs, refl_of R s⟩, he⟩

theorem keeps_get : Keeps I R E (get : EStateM ε σ σ) := fun s hs => ⟨hs, refl_of R s⟩

omit [IsPreorder σ R] in
theorem keeps_modify {f : σ → σ} (hf : ∀ s, I s → I (f s) ∧ R s (f s)) :
    Keeps I R E (modify f : EStateM ε σ PUnit) := hf

variable {x : EStateM ε σ α}

theorem Keeps.bind {f : α → EStateM ε σ β} (hx : Keeps I R E x)
    (hf : ∀ a, Keeps I R E (f a)) : Keeps I R E (x >>= f) := by
  intro s hs
  rw [wp_bind]
  refine (hx s hs).imp fun a t ht => ?_
  exact (hf a t ht.1).mono (fun _ _ h => ⟨h.1, trans_of R ht.2 h.2⟩) fun _ _ h => ⟨⟨h.1.1, trans_of R ht.2 h.1.2⟩, h.2⟩

theorem Keeps.forM {f : α → EStateM ε σ PUnit} (hf : ∀ a, Keeps I R E (f a)) (l : List α) : Keeps I R E (l.forM f) := by
  intro s hs
  refine wp_forM (fun _ t => I t ∧ R s t) (fun a _ t ht => ?_) l ⟨hs, refl_of R s⟩
  exact (hf a t ht.1).mono (fun _ _ h => ⟨h.1, trans_of R ht.2 h.2⟩) fun _ _ h => ⟨⟨h.1.1, trans_of R ht.2 h.1.2⟩, h.2⟩

/-- What every turn of a loop achieves and the later turns keep holds after the loop. -/
theorem wp_forM_achieves {f : α → EStateM ε σ PUnit} {P : α → σ → Prop} {E : ε → σ → Prop}
    (hP : ∀ a s s', R s s' → P a s → P a s')
    (l : List α) (hf : ∀ a ∈ l, ∀ s, I s → wp (f a) (fun _ s' => I s' ∧ R s s' ∧ P a s') E s) {s : σ}
    (hs : I s) : wp (l.forM f) (fun _ s' => I s' ∧ R s s' ∧ ∀ a ∈ l, P a s') E s := by
  refine (wp_forM (fun rest t => (I t ∧ R s t ∧ ∀ a ∈ l, a ∈ rest ∨ P a t) ∧ ∀ a ∈ rest, a ∈ l)
    (fun a rest t ht => ?_) l
    ⟨⟨hs, refl_of R s, fun _ => .inl⟩, fun _ => id⟩).imp fun _ t ht =>
      ⟨ht.1.1, ht.1.2.1, fun a ha => (ht.1.2.2 a ha).resolve_left not_mem_nil⟩
  obtain ⟨⟨hi, hr, hp⟩, hl⟩ := ht
  obtain ⟨ha, hl⟩ := forall_mem_cons.1 hl
  refine (hf a ha t hi).imp fun _ t' ht' => ⟨⟨ht'.1, trans_of R hr ht'.2.1, fun b hb => ?_⟩, hl⟩
  rcases hp b hb with hm | hp
  · rcases mem_cons.1 hm with rfl | hm
    · exact .inr ht'.2.2
    · exact .inl hm
  · exact .inr (hP b t t' ht'.2.1 hp)

theorem Keeps.tryCatch {handle : ε → EStateM ε σ α} (hx : Keeps I R E x)
    (hh : ∀ e, E e → Keeps I R E (handle e)) : Keeps I R E (tryCatch x handle) := by
  intro s hs
  rw [wp_tryCatch]
  refine (hx s hs).mono (fun _ _ => id) fun e t ht => ?_
  exact (hh e ht.2 t ht.1.1).mono (fun _ _ h => ⟨h.1, trans_of R ht.1.2 h.2⟩)
    fun _ _ h => ⟨⟨h.1.1, trans_of R ht.1.2 h.1.2⟩, h.2⟩

omit [IsPreorder σ R] in
theorem Keeps.ite {c : Prop} [Decidable c] {y : EStateM ε σ α} (hx : Keeps I R E x)
    (hy : Keeps I R E y) : Keeps I R E (if c then x else y) := by
  split
  · exact hx
  · exact hy

omit [IsPreorder σ R] in
/-- A call that keeps one relation keeps another one that follows from it. -/
theorem Keeps.of_imp {J : σ → Prop} {S : σ → σ → Prop} (hx : Keeps I R E x)
    (hi : ∀ s, J s → I s) (hr : ∀ s s', J s → R s s' → J s' ∧ S s s') : Keeps J S E x :=
  fun s hs => (hx s (hi s hs)).mono (fun _ s' h => hr s s' hs h.2) fun _ s' h => ⟨hr s s' hs h.1.2, h.2⟩

end

/-! ## Code that throws and updates nothing -/

section
variable {γ : Type} {f : β → γ → Except ε β} {l : List γ} {b b' : β}

/-- Two calls of which the second one uses what the first one returns. -/
theorem ok_of_bind {x : Except ε α} {g : α → Except ε β} (h : x >>= g = .ok b) : ∃ a, x = .ok a ∧ g a = .ok b := by
  cases x with
  | error e => cases h
  | ok a => exact ⟨a, rfl, h⟩

/-- Two calls of which both return. -/
theorem bind_returns {x : Except ε α} {g : α → Except ε β} (hx : ∃ a, x = .ok a) (hg : ∀ a, ∃ b, g a = .ok b) :
    ∃ b, x >>= g = .ok b := by
  obtain ⟨a, rfl⟩ := hx
  exact hg a

/-- What every round of a loop keeps, the loop keeps. -/
theorem foldlM_keeps {I : β → Prop} (hf : ∀ b a b', I b → f b a = .ok b' → I b') (hb : I b)
    (h : l.foldlM f b = .ok b') : I b' := by
  induction l generalizing b with
  | nil =>
    cases h
    exact hb
  | cons a l ih =>
    rw [foldlM_cons] at h
    obtain ⟨b₁, hround, h⟩ := ok_of_bind h
    exact ih (hf b a b₁ hb hround) h

/-- A loop returns where every round does. -/
theorem foldlM_returns {I : β → Prop} (hf : ∀ a ∈ l, ∀ b, I b → ∃ b', f b a = .ok b' ∧ I b') (hb : I b) :
    ∃ b', l.foldlM f b = .ok b' ∧ I b' := by
  induction l generalizing b with
  | nil => exact ⟨b, rfl, hb⟩
  | cons a l ih =>
    obtain ⟨b₁, hround, hb₁⟩ := hf a (.head l) b hb
    obtain ⟨b', hrest, hb'⟩ := ih (fun c hc => hf c (.tail a hc)) hb₁
    refine ⟨b', ?_, hb'⟩
    rw [foldlM_cons, hround]
    exact hrest

end

/-! ## Code that may fail -/

/-- A loop ends where every round does that starts from what holds for the part of the list gone
through so far; then this holds for the whole list. -/
theorem foldlM_eq_some {γ : Type} {f : β → γ → Option β} {I : List γ → β → Prop} {l : List γ} {b : β} (hb : I [] b)
    (hf : ∀ before a after, l = before ++ a :: after → ∀ b, I before b → ∃ b', f b a = some b' ∧ I (before ++ [a]) b') :
    ∃ b', l.foldlM f b = some b' ∧ I l b' := by
  suffices h : ∀ after before b, l = before ++ after → I before b →
      ∃ b', after.foldlM f b = some b' ∧ I l b' from h l [] b rfl hb
  intro after
  induction after with
  | nil =>
    intro before b hl hb
    rw [append_nil] at hl
    exact ⟨b, rfl, hl ▸ hb⟩
  | cons a after ih =>
    intro before b hl hb
    obtain ⟨b₁, hround, hb₁⟩ := hf before a after hl b hb
    obtain ⟨b', hrest, hb'⟩ := ih (before ++ [a]) b₁ (by rw [hl, append_assoc]; rfl) hb₁
    refine ⟨b', ?_, hb'⟩
    rw [foldlM_cons, hround]
    exact hrest

end Effect
