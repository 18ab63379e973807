import Ufora.Recovery.Validation

/-!
# Whether choosing ends

`chooseKeptComputationsBelow` does not look whether it was at a computation before. From the roots it comes to every
computation below them, and it ends exactly where none of these is below itself.
-/

open Ordered Fuel Relation Finset Yields

namespace Cumulus.AddDropSystemCalculations

variable (state : AddDropSystemState) (stored : AddDropPersistedState)

/-- The calculations up to the loop of `computeRecoverableAndValidComputations` over the roots, and this loop. -/
def chooseFromRoots (limit : ℕ) : Option AddDropSystemCalculations := do
  let s ← computeMissingDependencies limit state {}
  let s ← (s.withGraph state stored).computeValidComputations limit state
  (ascending s.rootComputations).foldlM (chooseKeptComputationsBelow state stored limit) s

/-- Going down from some root, through valid computations and those that are loaded, one comes to the computation. -/
def ReachedFromRoot (s : AddDropSystemCalculations) (c : ComputationId) : Prop :=
  ∃ root ∈ s.rootComputations, ReflTransGen (state.Below stored (· ∈ s.computationsValid)) root c

/-- Choosing ends, and what is kept or loaded is what is reached from a root. -/
def KeepsReached : Prop := ∃ s, Yields (chooseFromRoots state stored) s ∧
    (∀ c, c ∈ s.computationsKept ↔ c ∈ s.computationsValid ∧ s.ReachedFromRoot state stored c) ∧
    ∀ c, c ∈ s.persistedComputationsLoaded ↔ (c ∉ s.computationsValid ∧
      c ∈ stored.persistedComputationCheckpointStatus) ∧ s.ReachedFromRoot state stored c

variable {state} {stored} {s s' : AddDropSystemCalculations}

/-- What is kept and loaded after a choice among what is reached from the roots. -/
theorem keeps_of_chose (hkept : s.computationsKept = ∅) (hloaded : s.persistedComputationsLoaded = ∅)
    (h : Chose state stored s (· ∈ ascending s.rootComputations) s') :
    (∀ c, c ∈ s'.computationsKept ↔ c ∈ s'.computationsValid ∧ s'.ReachedFromRoot state stored c) ∧
      ∀ c, c ∈ s'.persistedComputationsLoaded ↔ (c ∉ s'.computationsValid ∧
        c ∈ stored.persistedComputationCheckpointStatus) ∧ s'.ReachedFromRoot state stored c := by
  have hreached c : s'.ReachedFromRoot state stored c ↔
      ∃ root, root ∈ ascending s.rootComputations ∧ ReflTransGen (s.below state stored) root c := by
    obtain ⟨kept, loaded, rfl⟩ := h.frame
    simp only [mem_ascending]
    exact Iff.rfl
  refine ⟨fun c => ?_, fun c => ?_⟩
  · rw [h.kept, hkept, h.valid, hreached]
    exact or_iff_right (notMem_empty c)
  · rw [h.loaded, hloaded, h.valid, hreached]
    exact or_iff_right (notMem_empty c)

/-- Choosing ends and keeps what is reached exactly where no computation that is chosen is below itself. -/
theorem keepsReached_iff (state : AddDropSystemState) (stored : AddDropPersistedState) :
    KeepsReached state stored ↔ ∀ c, state.Chosen stored c →
      ¬ TransGen (state.Below stored (state.IsValid stored)) c c := by
  obtain ⟨s₀, s₁, hmissing, -, hvalid, hprepared⟩ := prepared state stored
  constructor
  · rintro ⟨s, hyields, -⟩ c hc
    have hloop := of_bind hmissing hyields
    obtain ⟨n, hn⟩ := of_bind hvalid hloop
    exact hprepared.acyclic (hn n le_rfl) hc
  · intro hacyclic
    obtain ⟨s₂, hchoose⟩ := hprepared.choose_yields hacyclic
    obtain ⟨n, hn⟩ := id hchoose
    have hchose := chose_of_foldlM (fun _ _ _ => chose_of_choose) (hn n le_rfl)
    exact ⟨s₂, hmissing.bind (hvalid.bind hchoose), keeps_of_chose hprepared.kept hprepared.loaded hchose⟩

/-- For two roots that depend on each other choosing does not end. -/
theorem not_keepsReached : ¬ KeepsReached circularRoots {} := by
  intro h
  have hfirst := @below_circularRoots 1 2 (by decide +kernel) (by decide +kernel)
  have hsecond := @below_circularRoots 2 1 (by decide +kernel) (by decide +kernel)
  have hchosen : circularRoots.Chosen {} (.Root 1) :=
    ⟨.Root 1, .inr (.inr (.inr (.inr (.inl (by decide +kernel))))), .refl⟩
  obtain ⟨s₀, s₁, hmissing, -, hvalid, hprepared⟩ := prepared circularRoots {}
  obtain ⟨s, hyields, -⟩ := h
  obtain ⟨n, hn⟩ := of_bind hvalid (of_bind hmissing hyields)
  exact hprepared.acyclic (hn n le_rfl) hchosen (.head hfirst (.single hsecond))

end Cumulus.AddDropSystemCalculations
