import Ufora.Threading.ThreadPoolWithDependencies

/-!
# The executions of a thread pool

In every run a task is started only after all it depends on was completed, and a task whose
dependencies are completed is computable or being executed (`startedInOrder_and_noLostWakeup`). A task
is started once if it is not added again while it is executed (`startedOnce_of_notExecuting`): then
it is in none of the tables that `hasEverSeenTask` looks at, and it is started again
(`not_startedOnce`).
-/

open Ordered List Finset Finmap Option TwoWaySetMap StdMap MapWithIndex Function ThreadPoolWithDependencies Event Run

namespace ThreadPoolWithDependencies

section
variable {τ : Type} [LinearOrder τ]

/-- What a task depends on by its last definition. -/
def dependenciesOf (id : τ) : List (Event τ) → Finset τ
  | [] => ∅
  | .defined id' taskDependencies :: events =>
    if id' = id then taskDependencies else dependenciesOf id events
  | _ :: events => dependenciesOf id events

/-- Every task was started after all that it depended on was completed. -/
def StartedInOrder : List (Event τ) → Prop
  | [] => True
  | .started id :: events =>
    (∀ d ∈ dependenciesOf id events, .completed d ∈ events) ∧ StartedInOrder events
  | _ :: events => StartedInOrder events

end

section
variable {τ π δ : Type} [LinearOrder τ] [LinearOrder π] {n : ℕ}

/-- A thread executes the task. -/
def Executing (s : Pool τ π δ n) (id : τ) : Prop := ∃ thread d, s.mThreads thread = .executing id d

/-- A task that is defined, not completed, and depends on completed tasks only, is computable or being
executed. -/
def NoLostWakeup (s : Pool τ π δ n) : Prop := ∀ id, (∃ deps, .defined id deps ∈ s.events) → .completed id ∉ s.events →
    (∀ d ∈ dependenciesOf id s.events, .completed d ∈ s.events) → s.pool.mComputableTasks.hasKey id ∨ Executing s id

/-- What the tables hold, in terms of what happened. -/
structure Pool.Inv (s : Pool τ π δ n) : Prop where
  completed : ∀ id, id ∈ s.pool.mCompletedTasks ↔ .completed id ∈ s.events
  graph : ∀ id d, s.pool.mDependencyGraph.contains id d ↔ id ∈ s.pool.mTaskDefinitions.keys ∧
    d ∈ dependenciesOf id s.events ∧ d ∉ s.pool.mCompletedTasks
  computable : ∀ id, s.pool.mComputableTasks.hasKey id ↔ id ∈ s.pool.mTaskDefinitions.keys ∧
    ∀ d ∈ dependenciesOf id s.events, d ∈ s.pool.mCompletedTasks
  defined : ∀ id deps, .defined id deps ∈ s.events → id ∈ s.pool.mTaskDefinitions.keys ∨
    id ∈ s.pool.mCompletedTasks ∨ Executing s id
  started : ∀ id, .started id ∈ s.events → id ∈ s.pool.mCurrentlyExecutingTasks ∨ id ∈ s.pool.mCompletedTasks
  inOrder : StartedInOrder s.events

theorem Pool.Inv.noLostWakeup {s : Pool τ π δ n} (h : s.Inv) : NoLostWakeup s := by
  rintro id ⟨deps, hdefined⟩ hcompleted hdeps
  rcases h.defined id deps hdefined with hd | hd | hd
  · exact .inl ((h.computable id).2 ⟨hd, fun d hmem => (h.completed d).2 (hdeps d hmem)⟩)
  · exact absurd ((h.completed id).1 hd) hcompleted
  · exact .inr hd

end

/-! ## Steps -/

variable {τ π δ : Type} [LinearOrder τ] [LinearOrder π] {n : ℕ}

/-- `release` changes only what is computable. -/
theorem foldl_release [Inhabited π] (l : List τ) (pool : ThreadPoolWithDependencies τ π δ) :
    ∃ m, l.foldl release pool = { pool with mComputableTasks := m } ∧
      ∀ id, m.hasKey id ↔ pool.mComputableTasks.hasKey id ∨ id ∈ l ∧ (pool.mDependencyGraph.getValues id).card = 0 := by
  induction l generalizing pool with
  | nil => exact ⟨pool.mComputableTasks, rfl, fun id => by simp⟩
  | cons task l ih =>
    rw [foldl_cons]
    unfold release
    split
    · next hcard =>
      obtain ⟨m, hm, hkeys⟩ := ih { pool with
        mComputableTasks := pool.mComputableTasks.set task (pool.mTaskPriorities.get task) }
      refine ⟨m, hm, fun id => ?_⟩
      rw [hkeys, hasKey_set, List.mem_cons]
      constructor
      · rintro ((rfl | hk) | hk)
        · exact .inr ⟨.inl rfl, hcard⟩
        · exact .inl hk
        · exact .inr ⟨.inr hk.1, hk.2⟩
      · rintro (hk | ⟨rfl | hl, hk⟩)
        · exact .inl (.inr hk)
        · exact .inl (.inl rfl)
        · exact .inr ⟨hl, hk⟩
    · next hcard =>
      obtain ⟨m, hm, hkeys⟩ := ih pool
      refine ⟨m, hm, fun id => ?_⟩
      rw [hkeys, List.mem_cons]
      refine or_congr Iff.rfl (and_congr_left fun hk => ?_)
      exact (or_iff_right fun he : id = task => hcard (he ▸ hk)).symm

variable {s s' : Pool τ π δ n}

theorem Pool.Inv.addTask (h : s.Inv) {id : τ} {definition : δ} {priority : π}
    {deps : Finset τ} (hseen : ¬ s.pool.hasEverSeenTask id) :
    Pool.Inv { s with
      pool := s.pool.defineTask id definition priority deps
      events := .defined id deps :: s.events } := by
  obtain ⟨hdefs, hcompleted⟩ := not_or.1 hseen
  have hkeys : ∀ id', id' ∈ keys (insert id definition s.pool.mTaskDefinitions) ↔
      id' = id ∨ id' ∈ s.pool.mTaskDefinitions.keys := by
    intro id'
    rw [mem_keys_iff, StdMap.lookup_insert, mem_keys_iff]
    split
    · next he => exact iff_of_true ⟨_, rfl⟩ (.inl he)
    · next he => exact (or_iff_right he).symm
  have hdeps : ∀ id', id' ≠ id → dependenciesOf id' (.defined id deps :: s.events) =
      dependenciesOf id' s.events := fun id' hne => if_neg (Ne.symm hne)
  have hself : dependenciesOf id (.defined id deps :: s.events) = deps := if_pos rfl
  have hgraph : ∀ d, ¬ s.pool.mDependencyGraph.contains id d := fun d hd => hdefs ((h.graph id d).1 hd).1
  have hcomputable : ¬ s.pool.mComputableTasks.hasKey id := fun hk => hdefs ((h.computable id).1 hk).1
  have hdefined : ∀ id' deps', .defined id' deps' ∈ Event.defined id deps :: s.events →
      id' ∈ keys (insert id definition s.pool.mTaskDefinitions) ∨ id' ∈ s.pool.mCompletedTasks ∨ Executing s id' := by
    intro id' deps' hmem
    rw [hkeys]
    rcases mem_cons.1 hmem with he | hmem
    · obtain ⟨rfl, -⟩ := Event.defined.inj he
      exact .inl (.inl rfl)
    · exact (h.defined id' deps' hmem).imp Or.inr fun he => he
  have hstarted : ∀ id', .started id' ∈ Event.defined id deps :: s.events →
      id' ∈ s.pool.mCurrentlyExecutingTasks ∨ id' ∈ s.pool.mCompletedTasks := by
    intro id' hmem
    exact h.started id' ((mem_cons.1 hmem).resolve_left nofun)
  have hlog : ∀ id', id' ∈ s.pool.mCompletedTasks ↔ .completed id' ∈ Event.defined id deps :: s.events := by
    intro id'
    rw [h.completed, List.mem_cons]
    exact (or_iff_right nofun).symm
  unfold defineTask
  dsimp only
  split
  · next hcard =>
    obtain ⟨d, hd⟩ := card_pos.1 (Nat.pos_of_ne_zero hcard)
    rw [Finset.mem_filter] at hd
    refine ⟨hlog, fun id' d' => ?_, fun id' => ?_, hdefined, hstarted, h.inOrder⟩
    · rw [contains_insertValues, hkeys, Finset.mem_filter]
      by_cases hid : id' = id
      · subst hid
        rw [hself, or_iff_left (hgraph d'), and_iff_right rfl, and_iff_right (Or.inl rfl)]
      · rw [hdeps id' hid, h.graph, or_iff_right fun he => hid he.1, or_iff_right hid]
    · rw [hkeys]
      by_cases hid : id' = id
      · subst hid
        refine iff_of_false hcomputable fun hall => hd.2 (hall.2 d ?_)
        rw [hself]
        exact hd.1
      · rw [hdeps id' hid, h.computable, or_iff_right hid]
  · next hcard =>
    have hall : ∀ d ∈ deps, d ∈ s.pool.mCompletedTasks := by
      intro d hd
      by_contra hno
      refine hcard (card_ne_zero_of_mem (a := d) ?_)
      exact mem_filter.2 ⟨hd, hno⟩
    refine ⟨hlog, fun id' d' => ?_, fun id' => ?_, hdefined, hstarted, h.inOrder⟩
    · rw [hkeys]
      by_cases hid : id' = id
      · subst hid
        rw [hself]
        exact iff_of_false (hgraph d') fun he => he.2.2 (hall d' he.2.1)
      · rw [hdeps id' hid, h.graph, or_iff_right hid]
    · rw [hasKey_set, hkeys]
      by_cases hid : id' = id
      · subst hid
        rw [hself]
        exact iff_of_true (.inl rfl) ⟨.inl rfl, hall⟩
      · rw [hdeps id' hid, h.computable, or_iff_right hid, or_iff_right hid]

variable {taskDefinition : δ}

/-- What a thread checks out was computable. -/
theorem checkOut_eq [Inhabited δ] {pool pool' : ThreadPoolWithDependencies τ π δ} {t : τ}
    (h : pool.checkOut = some (t, taskDefinition, pool')) :
    pool.mComputableTasks.hasKey t ∧ pool' = { pool with
        mCurrentlyExecutingTasks := insert t pool.mCurrentlyExecutingTasks
        mComputableTasks := pool.mComputableTasks.discard t
        mTaskPriorities := erase t pool.mTaskPriorities
        mTaskDefinitions := erase t pool.mTaskDefinitions } := by
  obtain ⟨pri, -, h⟩ := bind_eq_some_iff.1 h
  obtain ⟨task', htask, h⟩ := bind_eq_some_iff.1 h
  obtain ⟨rfl, he⟩ := Prod.mk.inj (some.inj h)
  obtain ⟨-, rfl⟩ := Prod.mk.inj he
  exact ⟨hasKey_iff.2 ⟨pri, tryGetValue_of_head? htask⟩, rfl⟩

theorem Pool.Inv.checkOut [Inhabited δ] (h : s.Inv) {thread : Fin n} {t : τ}
    {pool' : ThreadPoolWithDependencies τ π δ} (hwaiting : s.mThreads thread = .waiting)
    (hc : s.pool.checkOut = some (t, taskDefinition, pool')) :
    Pool.Inv
      { pool := pool'
        mThreads := Function.update s.mThreads thread (.executing t taskDefinition)
        events := .started t :: s.events } := by
  obtain ⟨hkey, rfl⟩ := checkOut_eq hc
  obtain ⟨hdefs, hdeps⟩ := (h.computable t).1 hkey
  have hkeys : ∀ id, id ∈ keys (erase t s.pool.mTaskDefinitions) ↔ id ≠ t ∧ id ∈ s.pool.mTaskDefinitions.keys := by
    intro id
    rw [keys_erase, Finset.mem_erase]
  refine ⟨fun id => ?_, fun id d => ?_, fun id => ?_, fun id deps hmem => ?_, fun id hmem => ?_, ?_⟩
  · rw [h.completed, List.mem_cons]
    exact (or_iff_right nofun).symm
  · rw [hkeys, h.graph]
    refine ⟨fun hg => ⟨⟨?_, hg.1⟩, hg.2⟩, fun hg => ⟨hg.1.2, hg.2⟩⟩
    rintro rfl
    exact hg.2.2 (hdeps d hg.2.1)
  · show (s.pool.mComputableTasks.discard t).hasKey id ↔ id ∈ Finmap.keys _ ∧ ∀ d ∈ dependenciesOf id s.events, _
    rw [hasKey_discard, hkeys, h.computable, and_assoc]
  · rw [hkeys]
    by_cases hid : id = t
    · exact .inr (.inr ⟨thread, taskDefinition, by rw [hid]; exact update_self ..⟩)
    · rcases h.defined id deps ((mem_cons.1 hmem).resolve_left nofun) with hd | hd | hd
      · exact .inl ⟨hid, hd⟩
      · exact .inr (.inl hd)
      · obtain ⟨k, d, hk⟩ := hd
        refine .inr (.inr ⟨k, d, ?_⟩)
        rw [← hk]
        refine update_of_ne (fun he => ?_) _ _
        rw [he, hwaiting] at hk
        cases hk
  · rcases mem_cons.1 hmem with he | hmem
    · obtain rfl := started.inj he
      exact .inl (mem_insert_self _ _)
    · exact (h.started id hmem).imp mem_insert_of_mem fun he => he
  · exact ⟨fun d hd => (h.completed d).1 (hdeps d hd), h.inOrder⟩

theorem Pool.Inv.complete [Inhabited π] (h : s.Inv) {thread : Fin n} {t : τ}
    (hexecuting : s.mThreads thread = .executing t taskDefinition) :
    Pool.Inv
      { pool := s.pool.complete t
        mThreads := Function.update s.mThreads thread .waiting
        events := .completed t :: s.events } := by
  unfold ThreadPoolWithDependencies.complete
  obtain ⟨m, hm, hkeys⟩ := foldl_release (ascending (s.pool.mDependencyGraph.getKeys t))
    { s.pool with
      mCompletedTasks := insert t s.pool.mCompletedTasks
      mCurrentlyExecutingTasks := s.pool.mCurrentlyExecutingTasks.erase t
      mDependencyGraph := s.pool.mDependencyGraph.dropValue t }
  rw [hm]
  refine ⟨fun id => ?_, fun id d => ?_, fun id => ?_, fun id deps hmem => ?_, fun id hmem => ?_, h.inOrder⟩
  · rw [Finset.mem_insert, h.completed, List.mem_cons]
    exact or_congr ⟨fun he => he ▸ rfl, fun he => completed.inj he⟩ Iff.rfl
  · rw [contains_dropValue, h.graph, Finset.mem_insert, not_or]
    exact ⟨fun hg => ⟨hg.1.1, hg.1.2.1, hg.2, hg.1.2.2⟩, fun hg => ⟨⟨hg.1, hg.2.1, hg.2.2.2⟩, hg.2.2.1⟩⟩
  · rw [hkeys, h.computable, mem_ascending, TwoWaySetMap.mem_getKeys, card_eq_zero, eq_empty_iff_forall_notMem]
    simp only [mem_getValues, contains_dropValue, h.graph]
    constructor
    · rintro (⟨hd, hall⟩ | ⟨⟨hd, -, -⟩, hnone⟩)
      · exact ⟨hd, fun d hmem => mem_insert_of_mem (hall d hmem)⟩
      · refine ⟨hd, fun d hmem => ?_⟩
        by_contra hno
        rw [Finset.mem_insert, not_or] at hno
        exact hnone d ⟨⟨hd, hmem, hno.2⟩, hno.1⟩
    · rintro ⟨hd, hall⟩
      by_cases hself : t ∈ dependenciesOf id s.events ∧ t ∉ s.pool.mCompletedTasks
      · refine .inr ⟨⟨hd, hself⟩, fun d hg => ?_⟩
        exact (mem_insert.1 (hall d hg.1.2.1)).elim hg.2 hg.1.2.2
      · refine .inl ⟨hd, fun d hmem => ?_⟩
        rcases mem_insert.1 (hall d hmem) with rfl | hc
        · exact by_contra fun hno => hself ⟨hmem, hno⟩
        · exact hc
  · rcases h.defined id deps ((mem_cons.1 hmem).resolve_left (by simp)) with hd | hd | hd
    · exact .inl hd
    · exact .inr (.inl (mem_insert_of_mem hd))
    · obtain ⟨k, d, hk⟩ := hd
      by_cases hthread : k = thread
      · rw [hthread, hexecuting] at hk
        obtain ⟨rfl, -⟩ := Thread.executing.inj hk
        exact .inr (.inl (mem_insert_self _ _))
      · exact .inr (.inr ⟨k, d, (update_of_ne hthread _ _).trans hk⟩)
  · by_cases hid : id = t
    · exact .inr (mem_insert.2 (.inl hid))
    · exact (h.started id ((mem_cons.1 hmem).resolve_left (by simp))).imp
        (fun he => mem_erase.2 ⟨hid, he⟩) mem_insert_of_mem

theorem Pool.Inv.step [Inhabited π] [Inhabited δ] (h : s.Inv) {op : Op τ π δ n}
    (hs : step s op = some s') : s'.Inv := by
  cases op with
  | addTask id definition priority deps drop =>
    rw [ThreadPoolWithDependencies.step] at hs
    split at hs
    · exact some.inj hs ▸ h
    · next hseen => exact some.inj hs ▸ h.addTask hseen
  | checkOut thread =>
    rw [ThreadPoolWithDependencies.step] at hs
    split at hs
    · cases hs
    · next hwaiting =>
      obtain ⟨⟨task, taskDefinition, pool'⟩, hc, rfl⟩ := map_eq_some_iff.1 hs
      exact h.checkOut hwaiting hc
  | complete thread =>
    rw [ThreadPoolWithDependencies.step] at hs
    split at hs
    · cases hs
    · next hexecuting => exact some.inj hs ▸ h.complete hexecuting

theorem inv_start : Pool.Inv ({} : Pool τ π δ n) where
  completed id := iff_of_false (notMem_empty id) not_mem_nil
  graph id d := iff_of_false contains_empty fun h => notMem_empty id h.1
  computable id := by
    refine iff_of_false (fun h => ?_) fun h => notMem_empty id h.1
    obtain ⟨v, hv⟩ := hasKey_iff.1 h
    rw [tryGetValue_empty] at hv
    cases hv
  defined id deps h := absurd h not_mem_nil
  started id h := absurd h not_mem_nil
  inOrder := trivial

/-- In every run, with any number of threads, a task is started only after all that it depends on was
completed, and no task is left behind whose dependencies are completed. -/
theorem startedInOrder_and_noLostWakeup [Inhabited π] [Inhabited δ] (ops : List (Op τ π δ n)) : Always step
      (fun s => StartedInOrder s.events ∧ NoLostWakeup s) {} ops :=
  (always inv_start fun _ _ _ h hs => h.step hs).mono fun _ h => ⟨h.inOrder, h.noLostWakeup⟩

/-- In every run, the graph holds what the tasks still wait for, and the computable ones are those that wait for
nothing. -/
theorem always_inv [Inhabited π] [Inhabited δ] (ops : List (Op τ π δ n)) : Always step Pool.Inv {} ops :=
  always inv_start fun _ _ _ h hs => h.step hs

/-! ## Executed once -/

/-- A task is not added while it is executed. -/
def Op.NotExecuting (s : Pool τ π δ n) : Op τ π δ n → Prop
  | .addTask id _ _ _ _ => id ∉ s.pool.mCurrentlyExecutingTasks
  | _ => True

instance (s : Pool τ π δ n) : ∀ op : Op τ π δ n, Decidable (op.NotExecuting s)
  | .addTask id _ _ _ _ => inferInstanceAs (Decidable (id ∉ s.pool.mCurrentlyExecutingTasks))
  | .checkOut _ => .isTrue trivial
  | .complete _ => .isTrue trivial

/-- No task was started twice, and none that can be checked out was started. -/
structure StartedOnce (s : Pool τ π δ n) : Prop where
  count : ∀ id, s.events.count (.started id) ≤ 1
  notStarted : ∀ id ∈ s.pool.mTaskDefinitions.keys, .started id ∉ s.events

theorem StartedOnce.step [Inhabited π] [Inhabited δ] (h : StartedOnce s)
    (hi : s.Inv) {op : Op τ π δ n} (hop : op.NotExecuting s) (hs : step s op = some s') :
    StartedOnce s' := by
  cases op with
  | addTask id definition priority deps drop =>
    rw [ThreadPoolWithDependencies.step] at hs
    split at hs
    · exact some.inj hs ▸ h
    · next hseen =>
      obtain rfl := some.inj hs
      refine ⟨fun id' => ?_, fun id' hid => ?_⟩
      · rw [count_cons_of_ne (by simp)]
        exact h.count id'
      · rw [List.mem_cons, or_iff_right nofun]
        have hkeys : id' ∈ keys (insert id definition s.pool.mTaskDefinitions) := by
          unfold defineTask at hid
          dsimp only at hid
          split at hid <;> exact hid
        rw [mem_keys_iff, StdMap.lookup_insert] at hkeys
        split at hkeys
        · next he =>
          subst he
          exact fun hstarted => (hi.started id' hstarted).elim hop fun hc => hseen (.inr hc)
        · exact h.notStarted id' (mem_keys_iff.2 hkeys)
  | checkOut thread =>
    rw [ThreadPoolWithDependencies.step] at hs
    split at hs
    · cases hs
    · next hwaiting =>
      obtain ⟨⟨task, taskDefinition, pool'⟩, hc, rfl⟩ := map_eq_some_iff.1 hs
      obtain ⟨hkey, rfl⟩ := checkOut_eq hc
      have hnot := h.notStarted task ((hi.computable task).1 hkey).1
      refine ⟨fun id => ?_, fun id hid => ?_⟩
      · by_cases he : id = task
        · subst he
          rw [count_cons_self, count_eq_zero_of_not_mem hnot]
        · rw [count_cons_of_ne fun heq => he (started.inj heq).symm]
          exact h.count id
      · replace hid : id ∈ keys (erase task s.pool.mTaskDefinitions) := hid
        rw [keys_erase, Finset.mem_erase] at hid
        rw [List.mem_cons, or_iff_right fun heq => hid.1 (started.inj heq)]
        exact h.notStarted id hid.2
  | complete thread =>
    rw [ThreadPoolWithDependencies.step] at hs
    split at hs
    · cases hs
    · next task taskDefinition hexecuting =>
      obtain rfl := some.inj hs
      refine ⟨fun id => ?_, fun id hid => ?_⟩
      · rw [count_cons_of_ne (by simp)]
        exact h.count id
      · rw [List.mem_cons, or_iff_right nofun]
        unfold complete at hid
        obtain ⟨m, hm, -⟩ := foldl_release (ascending (s.pool.mDependencyGraph.getKeys task))
          { s.pool with
            mCompletedTasks := insert task s.pool.mCompletedTasks
            mCurrentlyExecutingTasks := s.pool.mCurrentlyExecutingTasks.erase task
            mDependencyGraph := s.pool.mDependencyGraph.dropValue task }
        rw [hm] at hid
        exact h.notStarted id hid

/-- In every run in which no task is added while it is executed, every task is started at most once. -/
theorem startedOnce_of_notExecuting [Inhabited π] [Inhabited δ] (ops : List (Op τ π δ n))
    (h : EveryStep step (fun s op => op.NotExecuting s) {} ops) :
    Always step (fun s => ∀ id, s.events.count (.started id) ≤ 1) {} ops := by
  have hstart : StartedOnce ({} : Pool τ π δ n) := ⟨fun id => Nat.zero_le 1, fun id hid => absurd hid (notMem_empty id)⟩
  have hall := always_of_everyStep (P := fun s => s.Inv ∧ StartedOnce s) ⟨inv_start, hstart⟩
    (fun s op s' hs hop he => ⟨hs.1.step he, hs.2.step hs.1 hop he⟩) h
  exact hall.mono fun s hs => hs.2.count

/-- A task and one that depends on it, with two threads. -/
theorem startedOnce_of_notExecuting_pair :
    let ops : List (Op ℕ ℕ Unit 2) := [.addTask 1 () 0 {0} true, .addTask 0 () 0 ∅ true, .checkOut 0,
      .addTask 1 () 0 ∅ true, .complete 0, .addTask 0 () 0 ∅ true, .checkOut 1]
    EveryStep step (fun s op => op.NotExecuting s) {} ops ∧ Always step
        (fun s => ∀ id, s.events.count (.started id) ≤ 1) {} ops := by
  intro ops
  have h : EveryStep step (fun s op => op.NotExecuting s) {} ops := by
    decide +kernel
  exact ⟨h, startedOnce_of_notExecuting ops h⟩

/-- A task that is added again while it is executed is executed again. -/
theorem not_startedOnce : ¬ ∀ ops : List (Op ℕ ℕ Unit 1), Always step
    (fun s => ∀ id, s.events.count (.started id) ≤ 1) {} ops := by
  intro h
  have hrun : ∃ s, run step ({} : Pool ℕ ℕ Unit 1)
      [.addTask 0 () 0 ∅ true, .checkOut 0, .addTask 0 () 0 ∅ true, .complete 0, .checkOut 0] = some s ∧
      s.events.count (.started 0) = 2 := ⟨_, rfl, by decide +kernel⟩
  obtain ⟨s, hr, hcount⟩ := hrun
  have hle := (h _).last hr 0
  omega

end ThreadPoolWithDependencies
