-- What the parts of the runtime share. The extra roots of the collector (`gc.rs`) are a table that
-- counts, for each word, how often it is pinned; no entry says who made it. A waker, as the wait
-- queues hold it, is the data word and the function that a poll context carries (`threads.rs`): the
-- one of an executor task is `task_wake` with the id of the task, so a queue can ask which task a
-- waker belongs to and whether it still runs.
import Mathlib.Logic.Function.Basic

/-! ## Extra roots -/

namespace runtime.gc

/-- How often each word is pinned; a word without an entry is pinned 0 times. -/
abbrev ExtraRoots := Nat → Nat

/-- `add_extra_root`: one more pin, and none for the null word. -/
def addExtraRoot (roots : ExtraRoots) (p : Nat) : ExtraRoots :=
  if p = 0 then roots else Function.update roots p (roots p + 1)

/-- `remove_extra_root`: one pin less, where there is one. -/
def removeExtraRoot (roots : ExtraRoots) (p : Nat) : ExtraRoots :=
  if p = 0 then roots else Function.update roots p (roots p - 1)

theorem addExtraRoot_apply (roots : ExtraRoots) (p v : Nat) :
    addExtraRoot roots p v = if p ≠ 0 ∧ v = p then roots v + 1 else roots v := by
  unfold addExtraRoot
  by_cases hp : p = 0
  · simp [hp]
  · by_cases hv : v = p
    · subst hv; simp [hp]
    · simp [hp, hv]

theorem removeExtraRoot_apply (roots : ExtraRoots) (p v : Nat) :
    removeExtraRoot roots p v = if p ≠ 0 ∧ v = p then roots v - 1 else roots v := by
  unfold removeExtraRoot
  by_cases hp : p = 0
  · simp [hp]
  · by_cases hv : v = p
    · subst hv; simp [hp]
    · simp [hp, hv]

end runtime.gc

/-! ## Wakers -/

namespace runtime.threads

/-- The function of a waker: `task_wake`, or the address of some other callback. -/
inductive WakeFn
  | taskWake
  | other (addr : Nat)
  deriving DecidableEq, Repr

/-- The tasks that sit in the waker registry and are not done, by id. -/
abbrev LiveTasks := Nat → Bool

/-- `executor_waker_task_id`: only `task_wake` has a task, whose id is the data word. -/
def executorWakerTaskId (data : Nat) : WakeFn → Option Nat
  | .taskWake => some data
  | .other _ => none

/-- `executor_waker_task`: whether the task can still be woken, and its id. -/
def executorWakerTask (live : LiveTasks) (data : Nat) (wake : WakeFn) : Option (Bool × Nat) :=
  (executorWakerTaskId data wake).map fun id => (live id, id)

/-- `executor_waker_is_live`: none for a waker that is no executor task. -/
def executorWakerIsLive (live : LiveTasks) (data : Nat) (wake : WakeFn) : Option Bool :=
  (executorWakerTask live data wake).map (·.1)

/-- A task that is done, or cancelled, is live no more. -/
def LiveTasks.without (live : LiveTasks) (task : Nat) : LiveTasks :=
  fun id => if id = task then false else live id

theorem LiveTasks.without_le {live : LiveTasks} {task id : Nat}
    (h : live.without task id = true) : live id = true := by
  unfold LiveTasks.without at h
  split at h
  · cases h
  · exact h

theorem LiveTasks.without_ne {live : LiveTasks} {task id : Nat} (h : id ≠ task) :
    live.without task id = live id := by
  simp [LiveTasks.without, h]

/-- The death of a task leaves the waker of every other task, and every waker that is no
task, as it was. -/
theorem executorWakerIsLive_without {live : LiveTasks} {task data : Nat} {wake : WakeFn}
    (h : executorWakerTaskId data wake ≠ some task) :
    executorWakerIsLive (live.without task) data wake = executorWakerIsLive live data wake := by
  cases wake with
  | taskWake =>
    have hne : data ≠ task := fun e => h (by simp [executorWakerTaskId, e])
    simp [executorWakerIsLive, executorWakerTask, executorWakerTaskId, LiveTasks.without_ne hne]
  | other _ => rfl

/-- A waker that is dead stays dead when one more task dies. -/
theorem executorWakerIsLive_of_without {live : LiveTasks} {task data : Nat} {wake : WakeFn}
    (h : executorWakerIsLive (live.without task) data wake ≠ some false) :
    executorWakerIsLive live data wake ≠ some false := by
  cases wake with
  | taskWake =>
    simp only [executorWakerIsLive, executorWakerTask, executorWakerTaskId, Option.map_some,
      ne_eq, Option.some.injEq, Bool.not_eq_false] at h ⊢
    exact LiveTasks.without_le h
  | other _ => exact h

end runtime.threads
