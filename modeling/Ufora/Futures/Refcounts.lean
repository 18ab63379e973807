import Ufora.Futures.SimulationState
import Ufora.Lib.Effect

/-!
# The reference counts of slots

What the calls of `SimulationState` do to it (`Advanced`, `Completed`), and that the count of a slot is always
above what the slots that are not completed hold of it (`Counted`). Nothing ever gives up the reference that a
slot starts with, so no slot is collected.
-/

open Ordered Effect List Finset TwoWaySetMap Except Option Nat ControlFlow.SimulationState
  ControlFlow.FutureSlot ControlFlow.SimulationHead ControlFlow.Outcome

namespace ControlFlow.SimulationState

variable {F : ForaValues} {s s' : SimulationState F} {l : List ℕ} {i : ℕ}

/-- The count of a slot. -/
def refcount (s : SimulationState F) (slotIndex : ℕ) : ℕ := s.mSlotRefcounts.getD slotIndex 0

/-! ## Loops over `incref` and `decref` -/

/-- Nothing but the counts changed. -/
structure Recounted (s s' : SimulationState F) : Prop where
  rest : s' = { s with mSlotRefcounts := s'.mSlotRefcounts }
  length : s'.mSlotRefcounts.length = s.mSlotRefcounts.length

theorem Recounted.refl (s : SimulationState F) : Recounted s s := ⟨rfl, rfl⟩

theorem Recounted.trans {s'' : SimulationState F} (h : Recounted s s') (h' : Recounted s' s'') : Recounted s s'' where
  rest := by rw [h'.rest, h.rest]
  length := h'.length.trans h.length

theorem incref_spec (h : s.incref i = .ok s') : Recounted s s' ∧ i < s.mSlotRefcounts.length ∧
      ∀ j, s'.refcount j = s.refcount j + if j = i then 1 else 0 := by
  unfold incref at h
  cases hget : s.mSlotRefcounts[i]? with
  | none => simp [hget] at h
  | some refcount =>
    simp only [hget, ok.injEq] at h
    subst h
    obtain ⟨hlt, rfl⟩ := List.getElem?_eq_some_iff.1 hget
    refine ⟨⟨rfl, by simp⟩, hlt, fun j => ?_⟩
    simp only [refcount, getD_eq_getElem?_getD, getElem?_set]
    by_cases hj : i = j
    · subst hj
      simp [hlt]
    · simp [hj, Ne.symm hj]

theorem incref_returns (h : i < s.mSlotRefcounts.length) : ∃ s', s.incref i = .ok s' := by
  unfold incref
  rw [getElem?_eq_getElem h]
  exact ⟨_, rfl⟩

theorem foldlM_incref (hl : l.Nodup) (h : l.foldlM incref s = .ok s') :
    Recounted s s' ∧ (∀ j ∈ l, j < s.mSlotRefcounts.length) ∧
      ∀ j, s'.refcount j = s.refcount j + if j ∈ l then 1 else 0 := by
  induction l generalizing s with
  | nil =>
    cases h
    exact ⟨.refl _, by simp, by simp⟩
  | cons i l ih =>
    rw [foldlM_cons] at h
    obtain ⟨s₁, h₁, h⟩ := ok_of_bind h
    obtain ⟨hr₁, hlt, hcount₁⟩ := incref_spec h₁
    obtain ⟨hr, hlts, hcount⟩ := ih (nodup_cons.1 hl).2 h
    refine ⟨hr₁.trans hr, fun j hj => ?_, fun j => ?_⟩
    · rcases mem_cons.1 hj with rfl | hj
      · exact hlt
      · exact hr₁.length ▸ hlts j hj
    · rw [hcount, hcount₁]
      have hnot := (nodup_cons.1 hl).1
      by_cases hj : j = i
      · subst hj
        simp [hnot]
      · simp [hj]

variable {failure : Failure}

theorem error_of_incref (h : s.incref i = .error failure) : failure = .outOfRange := by
  unfold incref at h
  cases hget : s.mSlotRefcounts[i]? with
  | none =>
    simp only [hget, error.injEq] at h
    exact h.symm
  | some refcount => simp [hget] at h

theorem error_of_foldlM_incref (h : l.foldlM incref s = .error failure) : failure = .outOfRange := by
  induction l generalizing s with
  | nil => cases h
  | cons i l ih =>
    rw [foldlM_cons] at h
    cases h₁ : s.incref i with
    | error failure' =>
      rw [h₁] at h
      cases h
      exact error_of_incref h₁
    | ok s₁ =>
      rw [h₁] at h
      exact ih h

/-- A count that stays positive is all that changes. -/
theorem decref_returns (h : 2 ≤ s.refcount i) : ∃ s', s.decref i = .ok s' ∧ Recounted s s' ∧
      ∀ j, s'.refcount j = s.refcount j - if j = i then 1 else 0 := by
  unfold refcount at h
  rw [getD_eq_getElem?_getD] at h
  cases hget : s.mSlotRefcounts[i]? with
  | none => simp [hget] at h
  | some refcount =>
    rw [hget, getD_some] at h
    obtain ⟨hlt, rfl⟩ := List.getElem?_eq_some_iff.1 hget
    refine ⟨{ s with mSlotRefcounts := s.mSlotRefcounts.set i (s.mSlotRefcounts[i] - 1) }, ?_, ⟨rfl, by simp⟩,
      fun j => ?_⟩
    · unfold decref
      simp only [hget]
      rw [if_pos (by omega), if_neg (by omega)]
    · simp only [refcount, getD_eq_getElem?_getD, getElem?_set]
      by_cases hj : i = j
      · subst hj
        simp [hlt]
      · simp [hj, Ne.symm hj]

theorem foldlM_decref_returns (hl : l.Nodup) (h : ∀ j ∈ l, 2 ≤ s.refcount j) :
    ∃ s', l.foldlM decref s = .ok s' ∧ Recounted s s' ∧ ∀ j, s'.refcount j = s.refcount j - if j ∈ l then 1 else 0 := by
  induction l generalizing s with
  | nil => exact ⟨s, rfl, .refl s, by simp⟩
  | cons i l ih =>
    have hnot := (nodup_cons.1 hl).1
    obtain ⟨s₁, h₁, hr₁, hcount₁⟩ := decref_returns (h i (.head _))
    obtain ⟨s', h', hr, hcount⟩ := ih (s := s₁) (nodup_cons.1 hl).2 fun j hj => by
      have hne : j ≠ i := fun he => hnot (he ▸ hj)
      rw [hcount₁, if_neg hne]
      exact h j (.tail _ hj)
    refine ⟨s', ?_, hr₁.trans hr, fun j => ?_⟩
    · rw [foldlM_cons, h₁]
      exact h'
    · rw [hcount, hcount₁]
      by_cases hj : j = i
      · subst hj
        simp [hnot]
      · simp [hj]

/-! ## What the counts are above -/

/-- The slots that are not completed. -/
def pending (s : SimulationState F) : Finset ℕ :=
  (Finset.range s.mSlots.length).filter fun t => (s.mSlots[t]?).any isFuture

variable {t : ℕ}

theorem mem_pending : t ∈ s.pending ↔ ∃ slot, s.mSlots[t]? = some slot ∧ slot.isFuture := by
  unfold pending
  rw [Finset.mem_filter, Finset.mem_range]
  constructor
  · rintro ⟨-, h⟩
    simpa [any_eq_true_iff_get] using (Option.any_eq_true ..).1 h
  · rintro ⟨slot, hslot, h⟩
    exact ⟨(List.getElem?_eq_some_iff.1 hslot).1, by simp [hslot, h]⟩

/-- How many of these slots hold slot `i`, where `sets` are what each of them holds. -/
def holders (slots : Finset ℕ) (sets : ℕ → Finset ℕ) (i : ℕ) : ℕ := (slots.filter fun t => i ∈ sets t).card

/-- What `decrefSlotArgs` gives up for a slot. -/
def saved (s : SimulationState F) (slotIndex : ℕ) : Finset ℕ := s.mSlotsToDecrefOnResult.get slotIndex

/-- What holds between calls. -/
structure Counted (s : SimulationState F) : Prop where
  length : s.mSlotRefcounts.length = s.mSlots.length
  uncollected : Uncollected s.mSlots
  enough : ∀ i < s.mSlots.length,
    1 + holders s.pending s.mSlotDependencies.getKeys i + holders s.pending s.saved i ≤ s.refcount i
  keys_lt : ∀ i t, s.mSlotDependencies.contains i t → i < s.mSlots.length ∧ t < s.mSlots.length
  saved_lt : ∀ t ∈ s.pending, ∀ i ∈ s.saved t, i < s.mSlots.length
  submittable : s.mIndicesOfSubmittableFutures ⊆ s.pending

/-! ## Advancing the head -/

theorem contains_insertDependencies {m : TwoWaySetMap ℕ ℕ} {slotIndices : Finset ℕ} {dependent : ℕ} :
    (insertDependencies m slotIndices dependent).contains i t ↔ (i ∈ slotIndices ∧ t = dependent) ∨ m.contains i t := by
  have hfold : ∀ (l : List ℕ) (m : TwoWaySetMap ℕ ℕ),
      (l.foldl (fun m slotIndex => m.insert slotIndex dependent) m).contains i t ↔
        (i ∈ l ∧ t = dependent) ∨ m.contains i t := by
    intro l
    induction l with
    | nil => simp
    | cons j l ih =>
      intro m
      rw [foldl_cons, ih, TwoWaySetMap.contains_insert, List.mem_cons]
      tauto
  rw [insertDependencies, hfold, mem_ascending]

/-- The slot that is made at a head. -/
def newSlots (head : SimulationHead F) : List (FutureSlot F) :=
  match head.futureApplyArgs with
  | .value futureApplyArgs => [.future head.label head.values futureApplyArgs]
  | _ => []

theorem current_notMem_newSlots (head : SimulationHead F) {l : Option String} {r : F.ImplValContainer}
    {isException : Bool} : current l r isException ∉ newSlots head := by
  unfold newSlots
  cases head.futureApplyArgs <;> simp

/-- What advancing to a head does. -/
structure Advanced (s : SimulationState F) (head : SimulationHead F) (s' : SimulationState F) : Prop where
  atHead : s'.mSimulationHead = head
  slots : s'.mSlots = s.mSlots ++ newSlots head
  returns : ∀ failure, head.futureApplyArgs ≠ .fails failure
  below : ∀ value ∈ head.values, value.Below s.mSlots.length
  submittable : s.mIndicesOfSubmittableFutures ⊆ s'.mIndicesOfSubmittableFutures
  counted : Counted s'

variable {head : SimulationHead F}

theorem updateSimulationHead_spec
    (h : s.updateSimulationHeadAndDependentSlotIndices head = .ok s') :
    ∃ body refcounts, head.body = .value body ∧ s' = { s with
      mSlotRefcounts := refcounts
      mSlotsToDecrefOnResult := if body.makesSlot then
        s.mSlotsToDecrefOnResult.insert s.mSlots.length (computeDependentSlotIndices head.values)
        else s.mSlotsToDecrefOnResult
      mSimulationHead := head
      mSlotDependenciesAtSimulationHead := computeDependentSlotIndices head.values } ∧
    refcounts.length = s.mSlotRefcounts.length ∧
    (∀ i ∈ computeDependentSlotIndices head.values, i < s.mSlotRefcounts.length) ∧
    ∀ i, refcounts.getD i 0 = s.refcount i + if i ∈ computeDependentSlotIndices head.values then 1 else 0 := by
  unfold updateSimulationHeadAndDependentSlotIndices at h
  cases hbody : head.body with
  | fails failure => simp [hbody] at h
  | null => simp [hbody] at h
  | value body =>
    have hloop : ∃ s₁, (ascending (computeDependentSlotIndices head.values)).foldlM incref s = .ok s₁ ∧ s' = { s₁ with
          mSlotsToDecrefOnResult := if body.makesSlot then
            s₁.mSlotsToDecrefOnResult.insert s₁.mSlots.length (computeDependentSlotIndices head.values)
            else s₁.mSlotsToDecrefOnResult
          mSimulationHead := head
          mSlotDependenciesAtSimulationHead := computeDependentSlotIndices head.values } := by
      rw [hbody] at h
      cases body with
      | jump => cases h
      | _ =>
        obtain ⟨s₁, h₁, h⟩ := ok_of_bind h
        exact ⟨s₁, h₁, (ok.inj h).symm⟩
    obtain ⟨s₁, h₁, rfl⟩ := hloop
    obtain ⟨hr, hlt, hcount⟩ := foldlM_incref (ascending_nodup _) h₁
    refine ⟨body, s₁.mSlotRefcounts, rfl, ?_, hr.length, fun i hi => hlt i (mem_ascending.2 hi), fun i => ?_⟩
    · rw [hr.rest]
    · have hi := hcount i
      simp only [mem_ascending] at hi
      exact hi

theorem addNewSlotIfNecessary_spec (h : s.addNewSlotIfNecessary = .ok s') :
    (s.mSimulationHead.futureApplyArgs = .null ∧ s' = s) ∨
    ∃ futureApplyArgs refcounts submittable, s.mSimulationHead.futureApplyArgs = .value futureApplyArgs ∧ s' = { s with
        mSlots := s.mSlots ++ [.future s.mSimulationHead.label s.mSimulationHead.values futureApplyArgs]
        mSlotRefcounts := refcounts ++ [1]
        mIndicesOfSubmittableFutures := submittable
        mSlotDependencies := insertDependencies (insertDependencies s.mSlotDependencies
          (computeDependentSlotIndices futureApplyArgs) s.mSlots.length)
          (computeDependentSlotIndices futureApplyArgs) s.mSlots.length } ∧
      refcounts.length = s.mSlotRefcounts.length ∧
      (∀ i ∈ computeDependentSlotIndices futureApplyArgs, i < s.mSlotRefcounts.length) ∧
      (∀ i, refcounts.getD i 0 = s.refcount i + if i ∈ computeDependentSlotIndices futureApplyArgs then 1 else 0) ∧
      s.mIndicesOfSubmittableFutures ⊆ submittable ∧
      submittable ⊆ insert s.mSlots.length s.mIndicesOfSubmittableFutures := by
  unfold addNewSlotIfNecessary at h
  cases hargs : s.mSimulationHead.futureApplyArgs with
  | fails failure => simp [hargs] at h
  | null =>
    simp only [hargs, ok.injEq] at h
    exact .inl ⟨rfl, h.symm⟩
  | value futureApplyArgs =>
    simp only [hargs] at h
    obtain ⟨s₁, h₁, h⟩ := ok_of_bind h
    cases h
    obtain ⟨hr, hlt, hcount⟩ := foldlM_incref (ascending_nodup _) h₁
    refine .inr ⟨futureApplyArgs, s₁.mSlotRefcounts, s₁.mIndicesOfSubmittableFutures, rfl, ?_, hr.length,
      fun i hi => hlt i (mem_ascending.2 hi), fun i => ?_, ?_⟩
    · rw [hr.rest]
      rfl
    · have hi := hcount i
      simp only [mem_ascending] at hi
      exact hi
    · rw [hr.rest]
      split
      · exact ⟨subset_insert _ _, subset_rfl⟩
      · exact ⟨subset_rfl, subset_insert _ _⟩

theorem makesSlot_of_futureApplyArgs {body : ControlFlowNodeBody F} (hbody : head.body = .value body) :
    (head.futureApplyArgs = .null → body.makesSlot = false) ∧
      ∀ args, head.futureApplyArgs = .value args → body.makesSlot = true := by
  unfold futureApplyArgs
  rw [hbody]
  cases body with
  | apply applyArgs normal exception =>
    refine ⟨fun h => ?_, fun _ _ => rfl⟩
    exact absurd h (mapM_ne_null (fun arg => applyArgToFutureValue_ne_null _ _) _)
  | cached arg normal exception =>
    refine ⟨fun h => ?_, fun _ _ => rfl⟩
    cases hv : applyArgToFutureValue head.values arg with
    | null => exact absurd hv (applyArgToFutureValue_ne_null _ _)
    | value => simp [hv] at h
    | fails => simp [hv] at h
  | branch | tupleExpand | switch | jump => exact ⟨fun _ => rfl, by simp⟩

variable {slots : Finset ℕ} {sets : ℕ → Finset ℕ}

theorem holders_insert {sets' : ℕ → Finset ℕ} (ht : t ∉ slots) (hsets : ∀ u ∈ slots, sets' u = sets u) (i : ℕ) :
    holders (insert t slots) sets' i = holders slots sets i + if i ∈ sets' t then 1 else 0 := by
  have hold : slots.filter (fun u => i ∈ sets' u) = slots.filter fun u => i ∈ sets u :=
    filter_congr fun u hu => by rw [hsets u hu]
  unfold holders
  rw [filter_insert, hold]
  split
  · rw [card_insert_of_notMem fun hmem => ht (mem_filter.1 hmem).1]
  · rfl

theorem holders_eq_zero (h : ∀ t ∈ slots, i ∉ sets t) : holders slots sets i = 0 := by
  unfold holders
  rw [Finset.card_eq_zero, filter_eq_empty_iff]
  exact h

theorem pending_lt (h : t ∈ s.pending) : t < s.mSlots.length := by
  obtain ⟨slot, hslot, -⟩ := mem_pending.1 h
  exact (List.getElem?_eq_some_iff.1 hslot).1

/-- A new slot, which is held by nothing but its first reference, for whose holdings the counts were raised. -/
theorem Counted.addSlot (hs : Counted s) {l : Option String} {vs args : List (FutureValue F)}
    {refcounts : List ℕ} (hlen : refcounts.length = s.mSlots.length)
    (hslots : s'.mSlots = s.mSlots ++ [.future l vs args]) (hrefcounts : s'.mSlotRefcounts = refcounts ++ [1])
    {keys kept : Finset ℕ} (hkeys_lt : ∀ i ∈ keys, i < s.mSlots.length) (hkept_lt : ∀ i ∈ kept, i < s.mSlots.length)
    (hcount : ∀ i < s.mSlots.length,
      s.refcount i + (if i ∈ keys then 1 else 0) + (if i ∈ kept then 1 else 0) ≤ refcounts.getD i 0)
    (hkeys : ∀ i t, s'.mSlotDependencies.contains i t ↔
      (i ∈ keys ∧ t = s.mSlots.length) ∨ s.mSlotDependencies.contains i t)
    (hsaved : ∀ t, s'.saved t = if t = s.mSlots.length then kept else s.saved t)
    (hsub : s'.mIndicesOfSubmittableFutures ⊆ insert s.mSlots.length s.mIndicesOfSubmittableFutures) : Counted s' := by
  have hpending : s'.pending = insert s.mSlots.length s.pending := by
    ext t
    rw [mem_insert, mem_pending, mem_pending, hslots]
    rcases lt_trichotomy t s.mSlots.length with hlt | rfl | hlt
    · rw [getElem?_append_left hlt]
      simp [hlt.ne]
    · simp [isFuture]
    · rw [getElem?_eq_none (by simp; omega)]
      simp [hlt.ne', getElem?_eq_none hlt.le]
  have hnot : s.mSlots.length ∉ s.pending := fun h => (pending_lt h).false
  have hold : ∀ t ∈ s.pending, t ≠ s.mSlots.length := fun t ht => (pending_lt ht).ne
  have hgetKeys : ∀ t, s'.mSlotDependencies.getKeys t =
      if t = s.mSlots.length then keys else s.mSlotDependencies.getKeys t := by
    intro t
    ext i
    rw [mem_getKeys, hkeys]
    split
    · next he => simpa [he] using fun hc => absurd (hs.keys_lt i _ hc).2 (lt_irrefl _)
    · next hne => simp [hne]
  constructor
  · rw [hslots, hrefcounts, length_append, length_append, hlen]
    rfl
  · intro i l
    rw [hslots]
    rcases lt_or_ge i s.mSlots.length with hlt | hge
    · rw [getElem?_append_left hlt]
      exact hs.uncollected i l
    · rw [getElem?_append_right hge]
      cases i - s.mSlots.length <;> simp
  · intro i hi
    rw [hpending, holders_insert hnot fun u hu => by rw [hgetKeys, if_neg (hold u hu)],
      holders_insert hnot fun u hu => by rw [hsaved, if_neg (hold u hu)], hgetKeys, hsaved, if_pos rfl, if_pos rfl]
    rcases lt_or_ge i s.mSlots.length with hlt | hge
    · have hrefcount : s'.refcount i = refcounts.getD i 0 := by
        unfold refcount
        rw [hrefcounts, getD_eq_getElem?_getD, getD_eq_getElem?_getD, getElem?_append_left (hlen ▸ hlt)]
      have henough := hs.enough i hlt
      have := hcount i hlt
      omega
    · obtain rfl : i = s.mSlots.length := by
        rw [hslots, length_append] at hi
        exact le_antisymm (Nat.lt_succ_iff.1 hi) hge
      rw [holders_eq_zero fun t ht hmem => (hs.keys_lt _ t (mem_getKeys.1 hmem)).1.false,
        holders_eq_zero fun t ht hmem => (hs.saved_lt t ht _ hmem).false,
        if_neg fun hmem => (hkeys_lt _ hmem).false, if_neg fun hmem => (hkept_lt _ hmem).false]
      unfold refcount
      rw [hrefcounts, ← hlen]
      simp
  · intro i t hc
    rw [hslots, length_append]
    rcases (hkeys i t).1 hc with ⟨hi, rfl⟩ | hc
    · exact ⟨(hkeys_lt i hi).trans (lt_succ_self _), lt_succ_self _⟩
    · exact ⟨(hs.keys_lt i t hc).1.trans (lt_succ_self _), (hs.keys_lt i t hc).2.trans (lt_succ_self _)⟩
  · intro t ht i hi
    rw [hslots, length_append]
    rw [hpending, mem_insert] at ht
    rw [hsaved] at hi
    split at hi
    · exact (hkept_lt i hi).trans (lt_succ_self _)
    · next hne => exact (hs.saved_lt t (ht.resolve_left hne) i hi).trans (lt_succ_self _)
  · rw [hpending]
    exact hsub.trans (insert_subset_insert _ hs.submittable)

/-- A slot that starts is held by nothing but its first reference; it holds what was counted for it. -/
theorem advance_spec (hs : Counted s)
    (h : s.advanceSimulationHeadAndRegisterDependencies head = .ok s') : Advanced s head s' := by
  obtain ⟨s₁, h₁, h⟩ := ok_of_bind h
  obtain ⟨body, refcounts, hbody, rfl, hlen, hlt, hcount⟩ := updateSimulationHead_spec h₁
  obtain ⟨hnull, hvalue⟩ := makesSlot_of_futureApplyArgs hbody
  have hbelow : ∀ value ∈ head.values, value.Below s.mSlots.length := fun value hv i hi => by
    rw [← hs.length]
    exact hlt i (mem_computeDependentSlotIndices.2 ⟨value, hv, hi⟩)
  rcases addNewSlotIfNecessary_spec h with ⟨hargs, rfl⟩ | ⟨args, refcounts', submittable, hargs, rfl, hlen', hlt',
    hcount', hsub, hsub'⟩
  · refine ⟨rfl, by simp [newSlots, hargs], by simp [hargs], hbelow, subset_rfl, ?_⟩
    have hmakes := hnull hargs
    simp only [hmakes, Bool.false_eq_true, if_false]
    exact
      { length := hlen.trans hs.length
        uncollected := hs.uncollected
        enough := fun i hi => by
          have := hcount i
          refine (hs.enough i hi).trans ?_
          show s.refcount i ≤ refcounts.getD i 0
          omega
        keys_lt := hs.keys_lt
        saved_lt := hs.saved_lt
        submittable := hs.submittable }
  · have hmakes := hvalue args hargs
    have hslots : newSlots head = [.future head.label head.values args] := by
      unfold newSlots
      rw [hargs]
    refine ⟨rfl, by rw [hslots], by simp [hargs], hbelow, hsub, ?_⟩
    refine hs.addSlot (hlen'.trans (hlen.trans hs.length)) rfl rfl
      (fun i hi => (hlt' i hi).trans_eq (hlen.trans hs.length)) (fun i hi => (hlt i hi).trans_eq hs.length)
      (fun i hi => ?_) (fun i t => ?_) (fun t => ?_) hsub'
    · have h' : refcounts'.getD i 0 =
          refcounts.getD i 0 + if i ∈ computeDependentSlotIndices args then 1 else 0 := hcount' i
      rw [h', hcount i]
      omega
    · rw [contains_insertDependencies, contains_insertDependencies]
      tauto
    · simp only [saved, hmakes, if_true, StdMap.get_insert]

/-! ## Completing a slot -/

/-- What completing a slot does. -/
structure Completed (s : SimulationState F) (slotIndex : ℕ) (result : F.ImplValContainer) (isException : Bool)
    (s' : SimulationState F) : Prop where
  slots : ∃ slot, s.mSlots[slotIndex]? = some slot ∧ slot.isFuture ∧
    s'.mSlots = s.mSlots.set slotIndex (.current slot.label result isException)
  atHead : s'.mSimulationHead = s.mSimulationHead
  submittable : s.mIndicesOfSubmittableFutures.erase slotIndex ⊆ s'.mIndicesOfSubmittableFutures
  counted : Counted s'

theorem holders_erase (ht : t ∈ slots) (i : ℕ) :
    holders slots sets i = holders (slots.erase t) sets i + if i ∈ sets t then 1 else 0 := by
  conv_lhs => rw [← insert_erase ht]
  exact holders_insert (notMem_erase t slots) (fun _ _ => rfl) i

theorem keysAreCurrent_returns (hgc : Uncollected s.mSlots) (hl : ∀ j ∈ l, j < s.mSlots.length) :
    ∃ b, s.keysAreCurrent l = .ok b := by
  induction l with
  | nil => exact ⟨true, rfl⟩
  | cons j l ih =>
    have hlt := hl j (.head _)
    unfold keysAreCurrent
    rw [getElem?_eq_getElem hlt]
    cases hslot : s.mSlots[j] with
    | future => exact ⟨false, rfl⟩
    | current => exact ih fun k hk => hl k (.tail _ hk)
    | garbageCollected label => exact absurd (hslot ▸ getElem?_eq_getElem hlt) (hgc j label)

/-- The submittable slots after a slot was completed are among those that are pending. -/
theorem updateSubmittableFuturesSet_returns (hgc : Uncollected s.mSlots)
    (hkeys : ∀ j t, s.mSlotDependencies.contains j t → j < s.mSlots.length)
    (hsub : s.mIndicesOfSubmittableFutures ⊆ s.pending) (completed : ℕ) :
    ∃ submittable, s.updateSubmittableFuturesSet completed =
    .ok { s with mIndicesOfSubmittableFutures := submittable } ∧
      s.mIndicesOfSubmittableFutures ⊆ submittable ∧ submittable ⊆ s.pending := by
  have hloop := @foldlM_returns Failure (SimulationState F) ℕ insertIfSubmittable
    (ascending (s.mSlotDependencies.getValues completed)) s
    (fun s₁ => ∃ submittable, s₁ = { s with mIndicesOfSubmittableFutures := submittable } ∧
      s.mIndicesOfSubmittableFutures ⊆ submittable ∧ submittable ⊆ s.pending)
    (fun t _ s₁ => by
      rintro ⟨submittable, rfl, hle, hpending⟩
      unfold insertIfSubmittable canInsertIntoSubmittableSet
      cases hslot : s.mSlots[t]? with
      | none => exact ⟨_, rfl, submittable, rfl, hle, hpending⟩
      | some slot =>
        cases slot with
        | current | garbageCollected => exact ⟨_, rfl, submittable, rfl, hle, hpending⟩
        | future label values args =>
          obtain ⟨b, hb⟩ := @keysAreCurrent_returns F { s with mIndicesOfSubmittableFutures := submittable }
            (ascending (s.mSlotDependencies.getKeys t)) hgc fun j hj =>
              hkeys j t (mem_getKeys.1 (mem_ascending.1 hj))
          rw [hb]
          cases b with
          | false => exact ⟨_, rfl, submittable, rfl, hle, hpending⟩
          | true =>
            refine ⟨_, rfl, insert t submittable, rfl, hle.trans (subset_insert _ _), ?_⟩
            exact insert_subset (mem_pending.2 ⟨_, hslot, rfl⟩) hpending)
    ⟨_, rfl, subset_rfl, hsub⟩
  obtain ⟨s', hs', submittable, rfl, hle, hpending⟩ := hloop
  exact ⟨submittable, hs', hle, hpending⟩

/-- What a completed slot held is given up, all but the values saved for a slot that is kept. -/
theorem slotCompleted_returns (hs : Counted s) (hi : i ∈ s.mIndicesOfSubmittableFutures)
    (r : F.ImplValContainer) (isException : Bool) :
    ∃ s', s.slotCompleted i r isException = .ok s' ∧ Completed s i r isException s' := by
  have hmem := hs.submittable hi
  obtain ⟨slot, hslot, hfuture⟩ := mem_pending.1 hmem
  have hlt := pending_lt hmem
  obtain ⟨s₁, hs₁⟩ : ∃ s₁, s₁ = { s with mSlots := s.mSlots.set i (.current slot.label r isException) } := ⟨_, rfl⟩
  have hpending : s₁.pending = s.pending.erase i := by
    ext t
    rw [mem_erase, mem_pending, mem_pending, hs₁, getElem?_set]
    split
    · next he => simp [he.symm, isFuture]
    · next hne => simp [Ne.symm hne]
  have hgc : Uncollected s₁.mSlots := by
    intro t label
    rw [hs₁, getElem?_set]
    split
    · simp
    · exact hs.uncollected t label
  obtain ⟨s₂, h₂, hr₂, hcount₂⟩ : ∃ s₂, s₁.increfIfKept i r isException = .ok s₂ ∧ Recounted s₁ s₂ ∧
      ∀ j, s.refcount j ≤ s₂.refcount j := by
    unfold increfIfKept
    split
    · obtain ⟨s₂, h₂⟩ := incref_returns (show i < s₁.mSlotRefcounts.length by rw [hs₁]; exact hs.length ▸ hlt)
      obtain ⟨hr, -, hcount⟩ := incref_spec h₂
      exact ⟨s₂, h₂, hr, fun j => by rw [hcount, hs₁]; exact le_add_right _ _⟩
    · exact ⟨s₁, rfl, .refl s₁, fun j => by rw [hs₁]; rfl⟩
  have hrest₂ := hr₂.rest
  obtain ⟨submittable, h₃, hle, hsub⟩ := @updateSubmittableFuturesSet_returns F
    { s₂ with mIndicesOfSubmittableFutures := s₂.mIndicesOfSubmittableFutures.erase i }
    (by rw [hrest₂]; exact hgc)
    (fun j t hc => by
      rw [hrest₂, hs₁] at hc ⊢
      simpa using (hs.keys_lt j t hc).1)
    (by
      show s₂.mIndicesOfSubmittableFutures.erase i ⊆ s₂.pending
      have hpending₂ : s₂.pending = s₁.pending := by
        rw [hrest₂]
        rfl
      rw [hpending₂, hpending, hrest₂, hs₁]
      exact erase_subset_erase i hs.submittable) i
  have henough : ∀ j < s.mSlots.length, 1 + (holders s₁.pending s.mSlotDependencies.getKeys j +
      if j ∈ s.mSlotDependencies.getKeys i then 1 else 0) + (holders s₁.pending s.saved j +
      if j ∈ s.saved i then 1 else 0) ≤ s₂.refcount j := fun j hj => by
    rw [hpending, ← holders_erase hmem, ← holders_erase hmem]
    exact (hs.enough j hj).trans (hcount₂ j)
  obtain ⟨s₄, h₄, hr₄, hcount₄⟩ := @foldlM_decref_returns F
    { s₂ with mIndicesOfSubmittableFutures := submittable }
    (ascending (s.mSlotDependencies.getKeys i)) (ascending_nodup _) fun j hj => by
      have hj := mem_ascending.1 hj
      have := henough j (hs.keys_lt j i (mem_getKeys.1 hj)).1
      rw [if_pos hj] at this
      show 2 ≤ s₂.refcount j
      omega
  have hrest₄ := hr₄.rest
  obtain ⟨s₅, h₅, hr₅, hcount₅⟩ : ∃ s₅, s₄.decrefSlotArgsUnlessKept i r isException = .ok s₅ ∧
      Recounted s₄ s₅ ∧ ∀ j, s₄.refcount j ≤ s₅.refcount j + if j ∈ s.saved i then 1 else 0 := by
    unfold decrefSlotArgsUnlessKept
    split
    · exact ⟨s₄, rfl, .refl s₄, fun j => le_add_right _ _⟩
    · have hsaved : s₄.mSlotsToDecrefOnResult.get i = s.saved i := by
        rw [hrest₄, hrest₂, hs₁]
        rfl
      obtain ⟨s₅, h₅, hr₅, hcount₅⟩ := @foldlM_decref_returns F s₄ (ascending (s.saved i)) (ascending_nodup _)
        fun j hj => by
          have hj := mem_ascending.1 hj
          have := henough j (hs.saved_lt i hmem j hj)
          rw [if_pos hj] at this
          rw [hcount₄]
          show 2 ≤ s₂.refcount j - _
          simp only [mem_ascending]
          omega
      refine ⟨s₅, by rw [decrefSlotArgs, hsaved]; exact h₅, hr₅, fun j => ?_⟩
      rw [hcount₅]
      simp only [mem_ascending]
      omega
  have hrest₅ := hr₅.rest
  refine ⟨s₅, ?_, ?_⟩
  · unfold slotCompleted
    rw [hslot]
    dsimp only
    rw [← hs₁, h₂]
    have hnot : ¬ i ∉ s₂.mIndicesOfSubmittableFutures := by
      rw [hrest₂, hs₁]
      exact not_not_intro hi
    have hkeys : s₂.mSlotDependencies.getKeys i = s.mSlotDependencies.getKeys i := by
      rw [hrest₂, hs₁]
    rw [← hkeys] at h₄
    show (if i ∉ s₂.mIndicesOfSubmittableFutures then _ else _) = _
    rw [if_neg hnot, h₃]
    show (ascending (s₂.mSlotDependencies.getKeys i)).foldlM decref
      { s₂ with mIndicesOfSubmittableFutures := submittable } >>= _ = _
    rw [h₄]
    exact h₅
  · have hslots : s₅.mSlots = s.mSlots.set i (.current slot.label r isException) := by
      rw [hrest₅, hrest₄, hrest₂, hs₁]
    have hpending₅ : s₅.pending = s₁.pending := by
      unfold pending
      rw [hslots, hs₁]
    have hkeys : s₅.mSlotDependencies = s.mSlotDependencies := by
      rw [hrest₅, hrest₄, hrest₂, hs₁]
    have hsaved : s₅.saved = s.saved := by
      unfold saved
      rw [hrest₅, hrest₄, hrest₂, hs₁]
    have hsubmittable : s₅.mIndicesOfSubmittableFutures = submittable := by
      rw [hrest₅, hrest₄]
    have hindices : s₂.mIndicesOfSubmittableFutures = s.mIndicesOfSubmittableFutures := by
      rw [hrest₂, hs₁]
    refine ⟨⟨slot, hslot, hfuture, hslots⟩, by rw [hrest₅, hrest₄, hrest₂, hs₁], ?_, ?_⟩
    · rw [hsubmittable, ← hindices]
      exact hle
    · constructor
      · rw [hr₅.length, hr₄.length, hr₂.length, hslots, length_set, hs₁]
        exact hs.length
      · rw [hslots]
        rw [hs₁] at hgc
        exact hgc
      · intro j hj
        rw [hslots, length_set] at hj
        rw [hpending₅, hkeys, hsaved]
        have h₁ := henough j hj
        have h₂ := hcount₄ j
        have h₃ := hcount₅ j
        simp only [mem_ascending] at h₂
        have h₄ : refcount { s₂ with mIndicesOfSubmittableFutures := submittable } j =
            s₂.refcount j := rfl
        omega
      · intro j t hc
        rw [hkeys] at hc
        rw [hslots, length_set]
        exact hs.keys_lt j t hc
      · intro t ht j hj
        rw [hpending₅, hpending] at ht
        rw [hslots, length_set]
        rw [hsaved] at hj
        exact hs.saved_lt t (Finset.mem_of_mem_erase ht) j hj
      · rw [hsubmittable, hpending₅]
        refine hsub.trans (subset_of_eq ?_)
        unfold pending
        rw [hrest₂]

/-! ## Which assertions fail -/

theorem failure_of_body (h : head.body = .fails failure) : failure = .assertionFailed := by
  unfold body require at h
  cases hget : head.graph.get head.label with
  | none =>
    simp only [hget, map_fails, fails.injEq] at h
    exact h.symm
  | some node => simp [hget] at h

theorem failure_of_futureApplyArgs
    (h : head.futureApplyArgs = .fails failure) : failure = .assertionFailed ∨ failure = .outOfRange := by
  unfold futureApplyArgs at h
  cases hbody : head.body with
  | fails failure' =>
    rw [hbody] at h
    cases h
    exact .inl (failure_of_body hbody)
  | null => simp [hbody] at h
  | value body =>
    rw [hbody] at h
    cases body with
    | apply applyArgs normal exception =>
      obtain ⟨arg, -, harg⟩ := exists_of_mapM_eq_fails h
      exact .inr (failure_of_applyArgToFutureValue harg)
    | cached arg normal exception =>
      simp only [value_bind] at h
      cases harg : applyArgToFutureValue head.values arg with
      | fails failure' =>
        rw [harg] at h
        cases h
        exact .inr (failure_of_applyArgToFutureValue harg)
      | value => simp [harg] at h
      | null => simp [harg] at h
    | branch => cases h
    | tupleExpand => cases h
    | switch => cases h
    | jump => cases h

theorem error_of_advance
    (h : s.advanceSimulationHeadAndRegisterDependencies head = .error failure) :
    failure.isOfLifetime = false := by
  unfold advanceSimulationHeadAndRegisterDependencies at h
  cases h₁ : s.updateSimulationHeadAndDependentSlotIndices head with
  | error failure' =>
    rw [h₁] at h
    cases h
    unfold updateSimulationHeadAndDependentSlotIndices at h₁
    cases hbody : head.body with
    | fails failure' =>
      simp only [hbody, error.injEq] at h₁
      rw [← h₁, failure_of_body hbody]
      rfl
    | null =>
      simp only [hbody, error.injEq] at h₁
      rw [← h₁]
      rfl
    | value body =>
      rw [hbody] at h₁
      cases body with
      | jump =>
        cases h₁
        rfl
      | _ =>
        cases hloop : (ascending (computeDependentSlotIndices head.values)).foldlM incref s with
        | ok s₁ =>
          dsimp only at h₁
          rw [hloop] at h₁
          cases h₁
        | error failure' =>
          dsimp only at h₁
          rw [hloop] at h₁
          cases h₁
          rw [error_of_foldlM_incref hloop]
          rfl
  | ok s₁ =>
    rw [h₁] at h
    have hs₁ : addNewSlotIfNecessary s₁ = .error failure := h
    unfold addNewSlotIfNecessary at hs₁
    cases hargs : s₁.mSimulationHead.futureApplyArgs with
    | fails failure' =>
      simp only [hargs, error.injEq] at hs₁
      rw [← hs₁]
      rcases failure_of_futureApplyArgs hargs with rfl | rfl <;> rfl
    | null => simp [hargs] at hs₁
    | value futureApplyArgs =>
      simp only [hargs] at hs₁
      unfold addDependenciesAndRefcounts at hs₁
      cases hloop : (ascending (computeDependentSlotIndices futureApplyArgs)).foldlM incref _ with
      | ok s₂ =>
        rw [hloop] at hs₁
        cases hs₁
      | error failure' =>
        rw [hloop] at hs₁
        cases hs₁
        rw [error_of_foldlM_incref hloop]
        rfl

/-- A slot that is not submittable is not completed. -/
theorem slotCompleted_fails (hi : i ∉ s.mIndicesOfSubmittableFutures) (r : F.ImplValContainer)
    (isException : Bool) :
    ∃ failure, s.slotCompleted i r isException = .error failure ∧ failure.isOfLifetime = false := by
  unfold slotCompleted
  cases hslot : s.mSlots[i]? with
  | none => exact ⟨.outOfRange, rfl, rfl⟩
  | some slot =>
    dsimp only
    generalize hs₁ : ({ s with mSlots := s.mSlots.set i (.current slot.label r isException) } :
      SimulationState F) = s₁
    have hindices : i ∉ s₁.mIndicesOfSubmittableFutures := by
      rw [← hs₁]
      exact hi
    cases hincref : s₁.increfIfKept i r isException with
    | error failure =>
      refine ⟨failure, rfl, ?_⟩
      unfold increfIfKept at hincref
      split at hincref
      · rw [error_of_incref hincref]
        rfl
      · cases hincref
    | ok s₂ =>
      have hsame : s₂.mIndicesOfSubmittableFutures = s₁.mIndicesOfSubmittableFutures := by
        unfold increfIfKept at hincref
        split at hincref
        · rw [(incref_spec hincref).1.rest]
        · cases hincref
          rfl
      refine ⟨.notSubmittable, ?_, rfl⟩
      show (if i ∉ s₂.mIndicesOfSubmittableFutures then _ else _) = _
      rw [if_pos (hsame ▸ hindices)]

/-! ## The constructor -/

theorem counted_empty (head : SimulationHead F) : Counted { mSimulationHead := head } where
  length := rfl
  uncollected := fun i label => by simp
  enough := fun i hi => absurd hi (by simp)
  keys_lt := fun i t hc => absurd hc contains_empty
  saved_lt := fun t ht => absurd ht (by simp [pending])
  submittable := empty_subset _

theorem error_of_create (h : create head = .error failure) : failure.isOfLifetime = false := by
  unfold create at h
  cases hadv : advanceSimulationHeadAndRegisterDependencies { mSimulationHead := head } head with
  | error failure' =>
    rw [hadv] at h
    cases h
    exact error_of_advance hadv
  | ok s₁ =>
    rw [hadv] at h
    cases hbody : head.body with
    | value body =>
      cases hmakes : body.makesSlot <;> simp [hbody, hmakes, bind, Except.bind, pure, Except.pure] at h
    | null | fails => simp [hbody, bind, Except.bind, pure, Except.pure] at h

theorem create_spec (h : create head = .ok s) : Advanced { mSimulationHead := head } head s := by
  obtain ⟨s₁, h₁, h⟩ := ok_of_bind h
  have hadv := advance_spec (counted_empty head) h₁
  have hbody : s = s₁ ∨ (∃ body, head.body = .value body ∧ body.makesSlot ∧
      s = { s₁ with mIndicesOfSubmittableFutures := {0} }) := by
    cases hbody : head.body with
    | value body =>
      rw [hbody] at h
      dsimp only at h
      split at h
      · next hmakes => exact .inr ⟨body, rfl, hmakes, (ok.inj h).symm⟩
      · exact .inl (ok.inj h).symm
    | null | fails =>
      rw [hbody] at h
      exact .inl (ok.inj h).symm
  rcases hbody with rfl | ⟨body, hbody, hmakes, rfl⟩
  · exact hadv
  · obtain ⟨atHead, slots, returns, below, -, counted⟩ := hadv
    refine ⟨atHead, slots, returns, below, empty_subset _,
      counted.length, counted.uncollected, counted.enough, counted.keys_lt, counted.saved_lt, ?_⟩
    obtain ⟨hnull, -⟩ := makesSlot_of_futureApplyArgs hbody
    have hslots : ∃ args, newSlots head = [.future head.label head.values args] := by
      unfold newSlots
      cases hargs : head.futureApplyArgs with
      | value args => exact ⟨args, rfl⟩
      | null => simp [hnull hargs] at hmakes
      | fails failure => exact absurd hargs (returns failure)
    obtain ⟨args, hargs⟩ := hslots
    refine singleton_subset_iff.2 (mem_pending.2 ⟨.future head.label head.values args, ?_, rfl⟩)
    rw [slots, hargs]
    rfl

end ControlFlow.SimulationState
