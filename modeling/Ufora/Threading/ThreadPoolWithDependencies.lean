import Ufora.Containers.MapWithIndex
import Ufora.Lib.Run

/-!
# `ThreadPoolWithDependencies`

`core/threading/ThreadPoolWithDependencies.hpp`: tasks with dependencies, and threads that check them
out and complete them. All but the execution of a task is done under one lock, so a run is a sequence of
calls of `addTask` and of the two halves of a turn of `threadLoop`.
-/

open Ordered Finmap

/-- The tables of the pool. -/
structure ThreadPoolWithDependencies (τ π δ : Type) [LinearOrder τ] [LinearOrder π] where
  mCurrentlyExecutingTasks : Finset τ := ∅
  mTaskDefinitions : StdMap τ δ := ∅
  mComputableTasks : MapWithIndex τ π := ∅
  mCompletedTasks : Finset τ := ∅
  mDependencyGraph : TwoWaySetMap τ τ := ∅
  mTaskPriorities : StdMap τ π := ∅

namespace ThreadPoolWithDependencies

section
variable {τ π δ : Type} [LinearOrder τ] [LinearOrder π] [Inhabited π] [Inhabited δ]

variable (pool : ThreadPoolWithDependencies τ π δ)

/-- `hasEverSeenTask_(id)`. -/
def hasEverSeenTask (id : τ) : Prop := id ∈ pool.mTaskDefinitions.keys ∨ id ∈ pool.mCompletedTasks
deriving Decidable

/-- `addTask` of a task that is neither dropped nor refused. -/
def defineTask (id : τ) (definition : δ) (priority : π)
    (taskDependencies : Finset τ) : ThreadPoolWithDependencies τ π δ :=
  let actualTaskDeps := taskDependencies.filter fun taskId => taskId ∉ pool.mCompletedTasks
  let pool := { pool with
      mTaskDefinitions := insert id definition pool.mTaskDefinitions
      mTaskPriorities := insert id priority pool.mTaskPriorities }
  if actualTaskDeps.card ≠ 0 then
    { pool with mDependencyGraph := pool.mDependencyGraph.insertValues id actualTaskDeps }
  else
    { pool with mComputableTasks := pool.mComputableTasks.set id priority }

/-- The first half of a turn of `threadLoop`, where a task is computable: the task that the thread checks
out and its definition. -/
def checkOut : Option (τ × δ × ThreadPoolWithDependencies τ π δ) := do
  let pri ← pool.mComputableTasks.highestValue
  let task ← (ascending (pool.mComputableTasks.getKeys pri)).head?
  return (task, pool.mTaskDefinitions.get task, { pool with
      mCurrentlyExecutingTasks := insert task pool.mCurrentlyExecutingTasks
      mComputableTasks := pool.mComputableTasks.discard task
      mTaskPriorities := erase task pool.mTaskPriorities
      mTaskDefinitions := erase task pool.mTaskDefinitions })

/-- Makes a task computable whose last dependency is gone. -/
def release (task : τ) : ThreadPoolWithDependencies τ π δ :=
  if (pool.mDependencyGraph.getValues task).card = 0 then
    { pool with mComputableTasks := pool.mComputableTasks.set task (pool.mTaskPriorities.get task) }
  else pool

/-- The second half of a turn of `threadLoop`, after the task was executed. -/
def complete (task : τ) : ThreadPoolWithDependencies τ π δ :=
  let tasksDependingOnUs := pool.mDependencyGraph.getKeys task
  let pool := { pool with
      mCompletedTasks := insert task pool.mCompletedTasks
      mCurrentlyExecutingTasks := pool.mCurrentlyExecutingTasks.erase task
      mDependencyGraph := pool.mDependencyGraph.dropValue task }
  (ascending tasksDependingOnUs).foldl release pool

end

/-! ## Runs -/

/-- What a thread does between two turns of the lock. -/
inductive Thread (τ δ : Type) where
  | waiting
  | executing (task : τ) (taskDefinition : δ)

/-- What happened to a task. -/
inductive Event (τ : Type) where
  | defined (id : τ) (taskDependencies : Finset τ)
  | started (id : τ)
  | completed (id : τ)
deriving DecidableEq

/-- The pool, its `n` threads, and what happened so far, the last first. -/
structure Pool (τ π δ : Type) [LinearOrder τ] [LinearOrder π] (n : ℕ) where
  pool : ThreadPoolWithDependencies τ π δ := {}
  mThreads : Fin n → Thread τ δ := fun _ => .waiting
  events : List (Event τ) := []

/-- The calls of `addTask`, and the halves of the turns of the threads. -/
inductive Op (τ π δ : Type) (n : ℕ) where
  | addTask (id : τ) (definition : δ) (priority : π) (taskDependencies : Finset τ)
      (dropIfTaskAlreadyDefined : Bool)
  | checkOut (thread : Fin n)
  | complete (thread : Fin n)

variable {τ π δ : Type} [LinearOrder τ] [LinearOrder π] [Inhabited π] [Inhabited δ] {n : ℕ}

/-- One step. A call of `addTask` for a task that was seen is dropped or throws, and leaves the pool as
it is either way; a thread checks out a task only where there is one, and completes the one it has. -/
def step (s : Pool τ π δ n) : Op τ π δ n → Option (Pool τ π δ n)
  | .addTask id definition priority taskDependencies _ =>
    if s.pool.hasEverSeenTask id then some s
    else some
      { s with
        pool := s.pool.defineTask id definition priority taskDependencies
        events := .defined id taskDependencies :: s.events }
  | .checkOut thread =>
    match s.mThreads thread with
    | .executing _ _ => none
    | .waiting => s.pool.checkOut.map fun (task, taskDefinition, pool) =>
      { pool := pool
        mThreads := Function.update s.mThreads thread (.executing task taskDefinition)
        events := .started task :: s.events }
  | .complete thread =>
    match s.mThreads thread with
    | .waiting => none
    | .executing task _ => some
      { pool := s.pool.complete task
        mThreads := Function.update s.mThreads thread .waiting
        events := .completed task :: s.events }

end ThreadPoolWithDependencies
