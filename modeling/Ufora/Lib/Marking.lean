import Ufora.Lib.Effect
import Mathlib.Data.Finset.Card

/-!
# Marking

A depth-first search that marks what it visits, and from each object visited goes on to those next to it
that are admitted. What admits an object may depend on what is marked already: an object once admitted
stays so, and a visit admits new objects only next to the one visited. `wp_mark` says that the search ends
and what it leaves: the state is reached by visits, each of the object searched from or of one admitted
next to a marked one, and everything that is admitted next to a marked object is marked, but for what a
search going on has yet to look at.
-/

open Effect List Finset Relation

/-- A search that marks: a state keeps the set of marked objects. -/
structure Marking (ε σ α : Type) where
  marked : σ → Finset α
  visit : α → σ → σ
  next : α → List α
  admits : σ → α → Bool
  /-- What a search passes over. -/
  skips : α → Bool
  /-- What a search asserts of every object it comes to. -/
  asserts : σ → α → Bool
  failed : ε
  /-- The search goes on for too long. -/
  limitReached : ε

namespace Marking

variable {ε σ α : Type} [DecidableEq α]

/-- Marks an object and what comes after it. -/
def mark (m : Marking ε σ α) : ℕ → α → EStateM ε σ Unit
  | 0, _ => throw m.limitReached
  | limit + 1, a => do
    if m.skips a = false then
      lassert (m.asserts (← get) a) m.failed
      if a ∉ m.marked (← get) then
        modify (m.visit a)
        (m.next a).forM fun b => do
          if m.admits (← get) b then
            mark m limit b

variable {m : Marking ε σ α} {s s' s'' : σ} {a b : α}

/-- A visit of `a` itself or of an object admitted next to a marked one. -/
def Visits (m : Marking ε σ α) (a : α) (s s' : σ) : Prop := ∃ b, b ∉ m.marked s ∧ m.skips b = false ∧
    (b = a ∨ ∃ c ∈ m.marked s, b ∈ m.next c ∧ m.admits s b) ∧ s' = m.visit b s

/-- What is admitted next to a marked object is marked or among the `pending` ones. -/
def Closed (m : Marking ε σ α) (pending : α → Prop) (s : σ) : Prop :=
  ∀ c ∈ m.marked s, ∀ b ∈ m.next c, m.admits s b → m.skips b = false → b ∈ m.marked s ∨ pending b

/-- The rules that the state of a marking keeps. -/
structure Lawful (m : Marking ε σ α) : Prop where
  marked_visit : ∀ a s, m.marked (m.visit a s) = insert a (m.marked s)
  admits_visit : ∀ a b s, m.admits s b → m.admits (m.visit a s) b
  of_admits_visit : ∀ a b s, m.admits (m.visit a s) b → m.admits s b ∨ b ∈ m.next a

/-- What a search from `a` leaves. -/
structure Marked (m : Marking ε σ α) (a : α) (s s' : σ) : Prop where
  visits : ReflTransGen (Visits m a) s s'
  mem : m.skips a = false → a ∈ m.marked s'
  closed : ∀ pending, Closed m (fun b => b = a ∨ pending b) s → Closed m pending s'

/-- What is pending need not be looked at when it is marked, skipped or not admitted. -/
theorem Closed.mono {pending pending' : α → Prop} (h : Closed m pending s)
    (himp : ∀ b, b ∉ m.marked s → m.admits s b → m.skips b = false → pending b → pending' b) :
    Closed m pending' s := by
  intro c hc b hb ha hk
  by_cases hm : b ∈ m.marked s
  · exact .inl hm
  · exact (h c hc b hb ha hk).imp_right (himp b hm ha hk)

/-- A search has nothing to do at an object that is skipped or marked. -/
theorem Marked.refl (h : m.skips a = false → a ∈ m.marked s) : Marked m a s s where
  visits := .refl
  mem := h
  closed pending hc := hc.mono fun b hm _ hk hp => by
    rcases hp with rfl | hp
    · exact absurd (h hk) hm
    · exact hp

/-- Visits only mark, and what is admitted stays so. -/
theorem Lawful.mono (hm : Lawful m) (h : ReflTransGen (Visits m a) s s') :
    m.marked s ⊆ m.marked s' ∧ ∀ b, m.admits s b → m.admits s' b := by
  induction h with
  | refl => exact ⟨Finset.Subset.refl _, fun _ => id⟩
  | tail _ hv ih =>
    obtain ⟨c, -, -, -, rfl⟩ := hv
    refine ⟨?_, fun b hb => hm.admits_visit c b _ (ih.2 b hb)⟩
    rw [hm.marked_visit]
    exact ih.1.trans (subset_insert _ _)

/-- The visits of a search from an object admitted next to a marked one are visits of the search that
marked that one. -/
theorem Lawful.lift (hm : Lawful m) (ha : a ∈ m.marked s) (hb : b ∈ m.next a) (hadm : m.admits s b)
    (h : ReflTransGen (Visits m b) s s') : ReflTransGen (Visits m a) s s' := by
  induction h with
  | refl => exact .refl
  | tail h hv ih =>
    obtain ⟨hsub, hadmits⟩ := hm.mono h
    obtain ⟨c, hc, hk, hwhy, rfl⟩ := hv
    refine ih.tail ⟨c, hc, hk, ?_, rfl⟩
    rcases hwhy with rfl | hwhy
    · exact .inr ⟨a, hsub ha, hb, hadmits c hadm⟩
    · exact .inr hwhy

/-- A property of the marked objects that passes on to what is next is one of all that a search marks,
when the object searched from has it. -/
theorem Lawful.forall_marked (hm : Lawful m) {P : α → Prop}
    (h : ReflTransGen (Visits m a) s s') (ha : P a) (hnext : ∀ c b, P c → b ∈ m.next c → P b)
    (hs : ∀ b ∈ m.marked s, P b) : ∀ b ∈ m.marked s', P b := by
  induction h with
  | refl => exact hs
  | tail _ hv ih =>
    obtain ⟨b, -, -, hwhy, rfl⟩ := hv
    rw [hm.marked_visit]
    refine forall_mem_insert _ _ _ |>.2 ⟨?_, ih⟩
    rcases hwhy with rfl | ⟨c, hc, hb, -⟩
    · exact ha
    · exact hnext c b (ih c hc) hb

/-- After a visit, what is next to the object visited is pending. -/
theorem Lawful.closed_visit (hm : Lawful m) {pending : α → Prop} (h : Closed m (fun b => b = a ∨ pending b) s) :
    Closed m (fun b => b ∈ m.next a ∨ pending b) (m.visit a s) := by
  intro c hc b hb ha hk
  rw [hm.marked_visit] at hc ⊢
  rcases mem_insert.1 hc with rfl | hc
  · exact .inr (.inl hb)
  rcases hm.of_admits_visit a b s ha with ha | hn
  · rcases h c hc b hb ha hk with hmem | rfl | hp
    · exact .inl (mem_insert_of_mem hmem)
    · exact .inl (mem_insert_self _ _)
    · exact .inr (.inr hp)
  · exact .inr (.inl hn)

/-- A search ends that starts from one of finitely many objects: it throws only where something it may come
to fails the assertion. -/
theorem wp_mark (hm : Lawful m) {objects : Finset α} (hnext : ∀ c ∈ objects, ∀ b ∈ m.next c, b ∈ objects)
    {I : σ → Prop} (hI : ∀ s b, I s → b ∉ m.marked s → I (m.visit b s)) {ok : α → Prop}
    (hok : ∀ c, ok c → ∀ b ∈ m.next c, ok b) {limit : ℕ} (hs : I s) (ha : a ∈ objects) (hoka : ok a)
    (hlimit : (objects \ m.marked s).card < limit) :
    wp (m.mark limit a) (fun _ s' => Marked m a s s' ∧ I s')
      (fun e _ => e = m.failed ∧ ∃ s b, I s ∧ ok b ∧ m.skips b = false ∧ m.asserts s b = false) s := by
  induction limit generalizing a s with
  | zero => omega
  | succ limit ih =>
    unfold mark
    rw [wp_ite]
    split
    · next hk =>
      rw [wp_bind, wp_get, wp_bind, wp_lassert]
      by_cases hassert : m.asserts s a = true
      swap
      · rw [if_neg hassert]
        exact ⟨rfl, s, a, hs, hoka, hk, Bool.not_eq_true _ ▸ hassert⟩
      rw [if_pos hassert, wp_bind, wp_get, wp_ite]
      split
      · next hmem =>
        rw [wp_bind, wp_modify]
        have hI' := hI s a hs hmem
        have hmarked := hm.marked_visit a s
        have hclosed := fun pending => @Lawful.closed_visit _ _ _ _ _ s a hm pending
        have hvisit : Visits m a s (m.visit a s) := ⟨a, hmem, hk, .inl rfl, rfl⟩
        generalize m.visit a s = s₁ at hI' hmarked hclosed hvisit ⊢
        refine (wp_forM (fun rem t => (∀ b ∈ rem, b ∈ m.next a) ∧ I t ∧ m.marked s₁ ⊆ m.marked t ∧
          ReflTransGen (Visits m a) s t ∧ ∀ pending : α → Prop, Closed m (fun b => b = a ∨ pending b) s →
            Closed m (fun b => b ∈ rem ∨ pending b) t) (fun b rem t ht => ?_) (m.next a)
          ⟨fun _ => id, hI', Finset.Subset.refl _, .single hvisit, hclosed⟩).imp fun _ t ht => ?_
        · obtain ⟨hrem, hIt, hsub, hvisits, hpending⟩ := ht
          have hb := hrem b mem_cons_self
          have hrem' : ∀ c ∈ rem, c ∈ m.next a := fun c hc => hrem c (mem_cons_of_mem _ hc)
          have hat : a ∈ m.marked t := hsub (hmarked ▸ mem_insert_self _ _)
          rw [wp_bind, wp_get, wp_ite]
          split
          · next hadm =>
            have hcard : (objects \ m.marked t).card < limit := by
              have hss : objects \ m.marked t ⊂ objects \ m.marked s := by
                refine Finset.ssubset_iff_subset_ne.2 ⟨sdiff_subset_sdiff le_rfl ?_, fun he => ?_⟩
                · exact (hmarked ▸ subset_insert _ _ : m.marked s ⊆ m.marked s₁).trans hsub
                · have hin : a ∈ objects \ m.marked t := he ▸ mem_sdiff.2 ⟨ha, hmem⟩
                  exact (mem_sdiff.1 hin).2 hat
              have := card_lt_card hss
              omega
            refine (ih hIt (hnext a ha b hb) (hok a hoka b hb) hcard).imp fun _ t' ht' => ?_
            obtain ⟨hmk, hIt'⟩ := ht'
            refine ⟨hrem', hIt', hsub.trans (hm.mono hmk.visits).1,
              hvisits.trans (hm.lift hat hb hadm hmk.visits), fun pending hp => hmk.closed _ ?_⟩
            exact (hpending pending hp).mono fun c _ _ _ hc => by
              rcases hc with hc | hc
              · exact (mem_cons.1 hc).imp_right .inl
              · exact .inr (.inr hc)
          · next hadm =>
            refine ⟨hrem', hIt, hsub, hvisits, fun pending hp => (hpending pending hp).mono ?_⟩
            intro c _ hc _ hwhy
            rcases hwhy with hmem | hwhy
            · rcases mem_cons.1 hmem with rfl | hmem
              · exact absurd hc hadm
              · exact .inl hmem
            · exact .inr hwhy
        · obtain ⟨-, hIt, hsub, hvisits, hpending⟩ := ht
          refine ⟨⟨hvisits, fun _ => hsub (hmarked ▸ mem_insert_self _ _), fun pending hp => ?_⟩, hIt⟩
          exact (hpending pending hp).mono fun c _ _ _ hc => hc.resolve_left not_mem_nil
      · next hmem => exact ⟨Marked.refl fun _ => not_not.1 hmem, hs⟩
    · next hk => exact ⟨Marked.refl fun hk' => absurd hk' hk, hs⟩

end Marking
