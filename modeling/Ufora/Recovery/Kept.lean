import Ufora.Lib.Digraph
import Ufora.Recovery.Missing

/-!
# What is valid and what is kept

`computeValidComputations` ends with the valid computations (`computeValidComputations_yields`).
`chooseKeptComputationsBelow` goes down from a computation along the dependencies of the valid computations
and the persisted dependencies of those that are loaded. It keeps or loads what it comes to
(`chose_of_choose`), and it ends exactly where it comes to no computation that is below itself
(`Below.yields`, `not_below_of_choose`).
-/

open Ordered Worklist Fuel Relation List Finset

namespace Cumulus

open Fora (PageId)
open AddDropSystemCalculations

namespace AddDropSystemState

/-- A valid computation is on a machine, with valid non-root dependencies, and none of the vectors that it
needs is lost. -/
inductive Valid (state : AddDropSystemState) (lost : Hash → Prop) : ComputationId → Prop
  | intro {c : ComputationId} : state.computationOnMachine.hasKey c →
    (∀ child, state.computationDependencies.contains c child → ¬ child.isRoot → Valid state lost child) →
    (∀ b, state.computationBigvecReferences.contains c b → ¬ lost b) → Valid state lost c

/-- What `chooseKeptComputationsBelow` goes on to from a computation. -/
def Below (state : AddDropSystemState) (stored : AddDropPersistedState) (valid : ComputationId → Prop)
    (c child : ComputationId) : Prop :=
  valid c ∧ state.computationDependencies.contains c child ∨
  ¬ valid c ∧ c ∈ stored.persistedComputationCheckpointStatus ∧
    stored.persistedComputationDependencies.contains c child

end AddDropSystemState

namespace AddDropSystemCalculations

variable {state : AddDropSystemState} {stored : AddDropPersistedState}
  {s s' s'' : AddDropSystemCalculations} {l : Loop} {a b : Object} {c d : ComputationId} {limit : ℕ}

/-! ## Valid computations -/

/-- The vectors that miss dependencies and cannot be recovered. -/
def Lost (s : AddDropSystemCalculations) (b : Hash) : Prop := b ∈ s.bigvecsMissingDependencies ∧
    b ∉ s.bigvecsRecoverable

/-- The calculations with the valid computations. -/
def withValid (s : AddDropSystemCalculations) (valid : Finset ComputationId) : AddDropSystemCalculations :=
  { s with computationsValid := valid }

/-- The loop of `computeValidComputations` as a worklist. -/
def validReading (state : AddDropSystemState) (s : AddDropSystemCalculations) : Reading Loop Object where
  good l := ∃ valid, l.calculations = s.withValid valid
  known := s.objects
  marked l := fun
    | .computation c => c ∈ l.calculations.computationsValid
    | _ => False
  dirty := Loop.dirty
  rule m := fun
    | .computation c => computationIsValid state s.Lost (fun d => .computation d ∈ m) c
    | _ => False
  dependents a := fun b =>
    match a, b with
    | .computation c, .computation d => state.computationDependencies.contains d c
    | _, _ => False

theorem reads_valid (hknown : ∀ a, state.Knows a → a ∈ s.objects) : Loop.Reads (validReading state s) where
  good_pop := by
    intro l a
    show (∃ _, l.calculations = _) → ∃ _, (l.pop a).calculations = _
    rw [Loop.calculations_pop]
    exact id
  marked_pop := by
    intro l a
    unfold validReading
    dsimp only
    rw [Loop.calculations_pop]
  dirty := rfl
  rule_mono := by
    intro m m' hsub a ha
    cases a with
    | computation c => exact ⟨ha.1, fun d hd hroot => hsub (ha.2.1 d hd hroot), ha.2.2⟩
    | page _ | bigvec _ => exact ha.elim
  rule_insert := by
    intro m a b hb
    cases b with
    | computation c =>
      by_cases hdep : ∃ d, state.computationDependencies.contains c d ∧ a = .computation d
      · obtain ⟨d, hd, rfl⟩ := hdep
        exact .inr hd
      · refine .inl ⟨hb.1, fun d hd hroot => (hb.2.1 d hd hroot).resolve_left ?_, hb.2.2⟩
        rintro rfl
        exact hdep ⟨d, hd, rfl⟩
    | page _ | bigvec _ => exact hb.elim
  dependents_known := by
    intro a b hb
    cases a with
    | computation c =>
      cases b with
      | computation d => exact hknown _ (.inr (.inl ⟨c, hb⟩))
      | page _ | bigvec _ => exact hb.elim
    | page _ | bigvec _ => cases b <;> exact hb.elim

theorem checked_valid (hl : (validReading state s).good l) :
    Loop.Checked (validReading state s) a l (checkValid state a l) := by
  obtain ⟨valid, hs⟩ := hl
  cases a with
  | computation c =>
    simp only [checkValid]
    have hlost : s.Lost = fun b => b ∈ l.calculations.bigvecsMissingDependencies ∧
        b ∉ l.calculations.bigvecsRecoverable := by
      rw [hs]
      rfl
    split_ifs with hin hrule
    · exact .same fun _ => hin
    · refine .adds ⟨insert c valid, by rw [hs]; rfl⟩ hin ?_ (fun b => ?_) fun b => ?_
      · show computationIsValid state s.Lost _ c
        rw [hlost]
        exact hrule
      · cases b with
        | computation d => exact mem_insert.trans (or_congr_left (by simp))
        | page _ | bigvec _ => exact iff_of_false id fun h => h.elim nofun id
      · cases b with
        | computation d => exact mem_union.trans (or_congr_right TwoWaySetMap.mem_getKeys)
        | page _ | bigvec _ => exact (or_iff_left id).symm
    · refine .same fun h => absurd ?_ hrule
      rw [← hlost]
      exact h
  | page _ | bigvec _ => exact .same False.elim

/-- `computeValidComputations` ends, and finds the valid computations. -/
theorem computeValidComputations_yields (hknown : ∀ a, state.Knows a → a ∈ s.objects)
    (hempty : s.computationsValid = ∅) :
    ∃ s', Yields (fun limit => s.computeValidComputations limit state) s' ∧
      s' = s.withValid s'.computationsValid ∧ ∀ c, c ∈ s'.computationsValid ↔ state.Valid s.Lost c := by
  have hlawful := (reads_valid hknown).lawful fun l _ hl => checked_valid hl
  obtain ⟨l, hyields, hd⟩ := hlawful.drained (s := { calculations := s, dirtyComputations := s.allComputations })
    ⟨s.computationsValid, rfl⟩ fun a ha => by
      cases a with
      | computation c => exact computation_mem_objects.2 ha
      | page _ | bigvec _ => exact absurd ha (notMem_empty _)
  obtain ⟨valid, hgood⟩ := hd.good
  refine ⟨_, hyields.bind yields_some, by rw [hgood]; rfl, fun c => ⟨fun hc => ?_, fun hc => ?_⟩⟩
  · refine hd.least (fun | .computation c => state.Valid s.Lost c | _ => False) (fun a _ hrule => ?_)
      (fun a ha => ?_) (a := .computation c) hc
    · cases a with
      | computation d => exact .intro hrule.1 hrule.2.1 hrule.2.2
      | page _ | bigvec _ => exact hrule
    · cases a with
      | computation d =>
        have hd : d ∈ s.computationsValid := ha
        rw [hempty] at hd
        exact absurd hd (notMem_empty d)
      | page _ | bigvec _ => exact ha
  · induction hc with
    | @intro c hon _ href ih =>
      have hin := hknown (.computation c) (.inr (.inr (.inr (.inr (.inl hon)))))
      exact hd.closed (fun a hrule hmem => by
        cases a with
        | computation d => exact .inr (computation_mem_objects.1 hmem)
        | page _ | bigvec _ => exact hrule.elim) (.computation c) hin ⟨hon, ih, href⟩

/-! ## Kept and loaded computations -/

/-- What comes below what, by the valid computations that were found. -/
def below (state : AddDropSystemState) (stored : AddDropPersistedState) (s : AddDropSystemCalculations) :
    ComputationId → ComputationId → Prop :=
  state.Below stored (· ∈ s.computationsValid)

/-- The calculations with the computations that were chosen. -/
def withChoice (s : AddDropSystemCalculations) (kept loaded : Finset ComputationId) : AddDropSystemCalculations :=
  { s with computationsKept := kept, persistedComputationsLoaded := loaded }

/-- What choosing from some computations leaves: of what is below them, the valid computations are kept, and
the others are loaded where they are persisted. -/
structure Chose (state : AddDropSystemState) (stored : AddDropPersistedState)
    (s : AddDropSystemCalculations) (start : ComputationId → Prop) (s' : AddDropSystemCalculations) : Prop where
  frame : ∃ kept loaded, s' = s.withChoice kept loaded
  kept : ∀ d, d ∈ s'.computationsKept ↔ d ∈ s.computationsKept ∨
    d ∈ s.computationsValid ∧ ∃ c, start c ∧ ReflTransGen (s.below state stored) c d
  loaded : ∀ d, d ∈ s'.persistedComputationsLoaded ↔ d ∈ s.persistedComputationsLoaded ∨
    (d ∉ s.computationsValid ∧ d ∈ stored.persistedComputationCheckpointStatus) ∧
      ∃ c, start c ∧ ReflTransGen (s.below state stored) c d

variable {start start' : ComputationId → Prop}

theorem Chose.valid (h : Chose state stored s start s') : s'.computationsValid = s.computationsValid := by
  obtain ⟨_, _, rfl⟩ := h.frame
  rfl

theorem Chose.nil : Chose state stored s (fun _ => False) s where
  frame := ⟨_, _, rfl⟩
  kept _ := (or_iff_left fun h => h.2.elim fun _ hc => hc.1).symm
  loaded _ := (or_iff_left fun h => h.2.elim fun _ hc => hc.1).symm

theorem Chose.trans (h : Chose state stored s start s') (h' : Chose state stored s' start' s'') :
    Chose state stored s (fun c => start c ∨ start' c) s'' := by
  have hbelow : s'.below state stored = s.below state stored := by
    unfold below
    rw [h.valid]
  constructor
  case frame =>
    obtain ⟨_, _, rfl⟩ := h'.frame
    obtain ⟨_, _, rfl⟩ := h.frame
    exact ⟨_, _, rfl⟩
  case kept =>
    intro d
    rw [h'.kept, h.kept, h.valid, hbelow, or_assoc, ← and_or_left]
    simp only [or_and_right, exists_or]
  case loaded =>
    intro d
    rw [h'.loaded, h.loaded, h.valid, hbelow, or_assoc, ← and_or_left]
    simp only [or_and_right, exists_or]

theorem Chose.congr (h : Chose state stored s start s') (heq : ∀ c, start c ↔ start' c) :
    Chose state stored s start' s' := by
  rwa [show start' = start from funext fun c => propext (heq c).symm]

theorem chose_of_foldlM {f : AddDropSystemCalculations → ComputationId → Option AddDropSystemCalculations}
    (hf : ∀ s c s', f s c = some s' → Chose state stored s (· = c) s') {l : List ComputationId}
    (h : l.foldlM f s = some s') : Chose state stored s (· ∈ l) s' := by
  induction l generalizing s with
  | nil =>
    cases h
    exact Chose.nil.congr fun c => (mem_nil_iff c).symm
  | cons c l ih =>
    rw [foldlM_cons] at h
    obtain ⟨s₁, h₁, h⟩ := Option.bind_eq_some_iff.1 h
    exact ((hf _ _ _ h₁).trans (ih h)).congr fun _ => mem_cons.symm

/-- What is below a computation is the computation itself, and what is below those just below it. -/
theorem reaches_iff {r : ComputationId → ComputationId → Prop} :
    (∃ e, e = c ∧ ReflTransGen r e d) ↔ d = c ∨ ∃ e, r c e ∧ ReflTransGen r e d := by
  rw [exists_eq_left, ReflTransGen.cases_head_iff]
  exact or_congr_left eq_comm

/-- A computation that was chosen, and what was chosen below it. -/
theorem Chose.node {l : List ComputationId} (kept loaded : Finset ComputationId)
    (hbelow : ∀ e, e ∈ l ↔ s.below state stored c e)
    (hkept : ∀ d, d ∈ kept ↔ d ∈ s.computationsKept ∨ d ∈ s.computationsValid ∧ d = c)
    (hloaded : ∀ d, d ∈ loaded ↔ d ∈ s.persistedComputationsLoaded ∨
      (d ∉ s.computationsValid ∧ d ∈ stored.persistedComputationCheckpointStatus) ∧ d = c)
    (h : Chose state stored (s.withChoice kept loaded) (· ∈ l) s') :
    Chose state stored s (· = c) s' := by
  constructor
  case frame =>
    obtain ⟨kept', loaded', rfl⟩ := h.frame
    exact ⟨kept', loaded', rfl⟩
  case kept =>
    intro d
    rw [h.kept, reaches_iff, and_or_left, ← or_assoc]
    refine or_congr (hkept d) (and_congr_right fun _ => exists_congr fun e => and_congr_left fun _ => hbelow e)
  case loaded =>
    intro d
    rw [h.loaded, reaches_iff, and_or_left, ← or_assoc]
    refine or_congr (hloaded d) (and_congr_right fun _ => exists_congr fun e => and_congr_left fun _ => hbelow e)

theorem below_of_valid (h : c ∈ s.computationsValid) :
    d ∈ ascending (state.computationDependencies.getValues c) ↔ s.below state stored c d := by
  rw [mem_ascending]
  exact ⟨fun hd => .inl ⟨h, hd⟩, fun hd => hd.elim And.right fun hd => absurd h hd.1⟩

theorem below_of_persisted (h : c ∉ s.computationsValid)
    (hp : c ∈ stored.persistedComputationCheckpointStatus) :
    d ∈ ascending (stored.persistedComputationDependencies.getValues c) ↔ s.below state stored c d := by
  rw [mem_ascending]
  exact ⟨fun hd => .inr ⟨h, hp, hd⟩, fun hd => hd.elim (fun hd => absurd hd.1 h) fun hd => hd.2.2⟩

theorem not_below (h : c ∉ s.computationsValid)
    (hp : c ∉ stored.persistedComputationCheckpointStatus) : ¬ s.below state stored c d :=
  fun hd => hd.elim (fun hd => h hd.1) fun hd => hp hd.2.1

/-- `chooseKeptComputationsBelow` keeps and loads what is below the computation. -/
theorem chose_of_choose (h : chooseKeptComputationsBelow state stored limit s c = some s') :
    Chose state stored s (· = c) s' := by
  induction limit generalizing s c s' with
  | zero => cases h
  | succ limit ih =>
    unfold chooseKeptComputationsBelow at h
    split_ifs at h with hvalid hpersisted
    · refine .node _ _ (fun e => below_of_valid hvalid) (fun d => ?_) (fun d => ?_)
        (chose_of_foldlM (fun _ _ _ => ih) h)
      · rw [mem_insert, or_comm]
        exact or_congr_right (iff_and_self.2 fun he => he ▸ hvalid)
      · refine (or_iff_left ?_).symm
        rintro ⟨⟨hnot, -⟩, rfl⟩
        exact hnot hvalid
    · refine .node _ _ (fun e => below_of_persisted hvalid hpersisted) (fun d => ?_) (fun d => ?_)
        (chose_of_foldlM (fun _ _ _ => ih) h)
      · refine (or_iff_left ?_).symm
        rintro ⟨hmem, rfl⟩
        exact hvalid hmem
      · rw [mem_insert, or_comm]
        exact or_congr_right (iff_and_self.2 fun he => he ▸ ⟨hvalid, hpersisted⟩)
    · cases h
      refine .node (l := []) s.computationsKept s.persistedComputationsLoaded
        (fun e => iff_of_false not_mem_nil (not_below hvalid hpersisted)) (fun d => ?_) (fun d => ?_)
        (Chose.nil.congr fun c => (mem_nil_iff c).symm)
      · refine (or_iff_left ?_).symm
        rintro ⟨hmem, rfl⟩
        exact hvalid hmem
      · refine (or_iff_left ?_).symm
        rintro ⟨⟨-, hmem⟩, rfl⟩
        exact hpersisted hmem

/-! ## Whether choosing ends -/

/-- Where nothing below is below itself, choosing ends: by induction on a rank that falls downwards. -/
theorem choose_yields {P : ComputationId → Prop} {rank : ComputationId → ℕ} {valid : Finset ComputationId}
    (hP : ∀ c d, P c → state.Below stored (· ∈ valid) c d → P d)
    (hrank : ∀ c d, P c → state.Below stored (· ∈ valid) c d → rank d < rank c) (hc : P c)
    (hs : s.computationsValid = valid) :
    ∃ s', Yields (fun limit => chooseKeptComputationsBelow state stored limit s c) s' ∧
      s'.computationsValid = valid := by
  induction hn : rank c using Nat.strong_induction_on generalizing c s with
  | _ n ih =>
    subst hn
    have hround (d : ComputationId) (hd : s.below state stored c d) (t : AddDropSystemCalculations)
        (ht : t.computationsValid = valid) :=
      ih _ (hrank c d hc (hs ▸ hd)) (hP c d hc (hs ▸ hd)) ht rfl
    by_cases hvalid : c ∈ s.computationsValid
    · obtain ⟨s', hyields, hs'⟩ := yields_foldlM
        (fun d hd => hround d ((below_of_valid hvalid).1 hd)) (b := s.withChoice (insert c s.computationsKept) _) hs
      refine ⟨s', hyields.of_eq_succ fun limit => ?_, hs'⟩
      conv_lhs => unfold chooseKeptComputationsBelow
      rw [if_pos hvalid]
      rfl
    · by_cases hpersisted : c ∈ stored.persistedComputationCheckpointStatus
      · obtain ⟨s', hyields, hs'⟩ := yields_foldlM (fun d hd => hround d ((below_of_persisted hvalid hpersisted).1 hd))
          (b := s.withChoice _ (insert c s.persistedComputationsLoaded)) hs
        refine ⟨s', hyields.of_eq_succ fun limit => ?_, hs'⟩
        conv_lhs => unfold chooseKeptComputationsBelow
        rw [if_neg hvalid, if_pos hpersisted]
        rfl
      · refine ⟨s, yields_some.of_eq_succ fun limit => ?_, hs⟩
        unfold chooseKeptComputationsBelow
        rw [if_neg hvalid, if_neg hpersisted]

/-- Choosing returns within the limit, with these valid computations. -/
def Returns (state : AddDropSystemState) (stored : AddDropPersistedState) (valid : Finset ComputationId)
    (limit : ℕ) (c : ComputationId) : Prop :=
  ∃ s s', s.computationsValid = valid ∧ chooseKeptComputationsBelow state stored limit s c = some s'

variable {valid : Finset ComputationId}

theorem returns_of_foldlM {l : List ComputationId} (hs : s.computationsValid = valid)
    (h : l.foldlM (chooseKeptComputationsBelow state stored limit) s = some s') (hd : d ∈ l) :
    Returns state stored valid limit d := by
  induction l generalizing s with
  | nil => cases hd
  | cons c l ih =>
    rw [foldlM_cons] at h
    obtain ⟨s₁, h₁, h⟩ := Option.bind_eq_some_iff.1 h
    rcases mem_cons.1 hd with rfl | hd
    · exact ⟨s, s₁, hs, h₁⟩
    · exact ih ((chose_of_choose h₁).valid.trans hs) h hd

variable (h : Returns state stored valid limit c)
include h

/-- Choosing returns for what is just below in fewer levels. -/
theorem Returns.below (hd : state.Below stored (· ∈ valid) c d) :
    ∃ n < limit, Returns state stored valid n d := by
  obtain ⟨s, s', rfl, h⟩ := h
  cases limit with
  | zero => cases h
  | succ limit =>
    unfold chooseKeptComputationsBelow at h
    refine ⟨limit, Nat.lt_succ_self limit, ?_⟩
    split_ifs at h with hvalid hpersisted
    · refine returns_of_foldlM ?_ h ((below_of_valid hvalid).2 hd)
      rfl
    · refine returns_of_foldlM ?_ h ((below_of_persisted hvalid hpersisted).2 hd)
      rfl
    · exact absurd hd (not_below hvalid hpersisted)

theorem Returns.belowAll (hd : TransGen (state.Below stored (· ∈ valid)) c d) :
    ∃ n < limit, Returns state stored valid n d := by
  induction hd with
  | single hd => exact h.below hd
  | tail _ hd ih =>
    obtain ⟨n, hn, hret⟩ := ih
    obtain ⟨m, hm, hret⟩ := hret.below hd
    exact ⟨m, hm.trans hn, hret⟩

/-- Where choosing returns, the computation is not below itself. -/
theorem Returns.not_below : ¬ TransGen (state.Below stored (· ∈ valid)) c c := by
  intro hself
  induction limit using Nat.strong_induction_on with
  | _ n ih =>
    obtain ⟨m, hm, hret⟩ := h.belowAll hself
    exact ih m hm hret

end AddDropSystemCalculations

end Cumulus
