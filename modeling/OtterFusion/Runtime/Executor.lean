-- The task executor (`threads.rs`): the flags of a task, and the steps of `task_wake`,
-- `poll_task`, `cancel_task_by_id`, `Executor::spawn`, `inject` and `pop_task`, one for each
-- atomic load, store or swap, each lock and each queue operation, in any order of the threads.
import Mathlib.Algebra.Order.Ring.Nat
import OtterFusion.Base.Runs

namespace runtime.threads

/-! ## The state -/

/-- The shared flags of a task. `pollLock` says that somebody holds the poll lock, `registered`
that the waker registry knows the task, and `isFuture` tells `TaskWork::Future` from
`TaskWork::OrdinaryClosure`. -/
structure Task where
  isFuture : Bool
  pollLock : Bool
  polling : Bool
  queued : Bool
  reschedule : Bool
  done : Bool
  cancelRequested : Bool
  registered : Bool
  deriving DecidableEq, Repr

/-- A task as `lang_async_spawn` and `lang_task_spawn` build it. -/
def Task.new (isFuture : Bool) : Task :=
  { isFuture, pollLock := false, polling := false, queued := false, reschedule := false
    done := false, cancelRequested := false, registered := false }

/-- The run queues: the injector, and the local queue of each worker. -/
inductive QueueId
  | injector
  | worker (id : Nat)
  deriving DecidableEq, Repr

/-- The next operation of a thread that runs one of the functions on a task. -/
inductive Op
  -- `task_wake`
  | wakeLookup
  | wakeLoadDone
  | wakeLoadPolling
  | wakeStoreReschedule
  | wakeSwapQueued
  | wakeInject
  | wakeUnregister
  -- `poll_task`, up to the call of the poll function
  | pollLoadDone
  | pollTryLock
  | pollStoreReschedule
  | pollLoadDoneLocked
  | pollStoreQueued
  | pollStorePolling
  | pollLoadCancel
  | pollCancelPolling
  | pollCancelDone
  | pollCancelUnregister
  | pollReturn
  -- `poll_task`, from the call on; `requeue` is its local
  | pollUser
  | pollLeave (pending : Bool)
  | pollLoadCancelPending
  | pollStoreDone
  | pollUnregister
  | pollSwapReschedule
  | pollUnlock (requeue : Bool)
  | pollLoadDoneLast (requeue : Bool)
  | pollSwapLast (requeue : Bool)
  | injectStoreQueued
  | injectPush
  -- `cancel_task_by_id`
  | cancelStoreRequested
  | cancelTryLock
  | cancelSwapDone
  | cancelUnregister
  | cancelUnlock
  | cancelStoreReschedule
  -- the end of `lang_async_spawn`, and `Executor::spawn`
  | spawnRegister
  | spawnFetchNext
  | spawnStoreQueued (worker : Nat)
  | spawnPush (worker : Nat)
  deriving DecidableEq, Repr

/-- What one operation leaves: the flags, the next operation, and the queue it pushed on. -/
structure Turn where
  task : Task
  next : Option Op
  pushes : Option QueueId
  deriving DecidableEq, Repr

/-- An operation that only reads, or that is over before its effect on the queues. -/
def Turn.go (task : Task) (next : Op) : Turn := { task, next := some next, pushes := none }

/-- The last operation of a function. -/
def Turn.ret (task : Task) : Turn := { task, next := none, pushes := none }

/-- The push of a task, the last operation of the functions that make one. -/
def Turn.push (task : Task) (queue : QueueId) : Turn :=
  { task, next := none, pushes := some queue }

/-- One operation on a task. `worker` is the local queue that the next spawn goes to, and
`pending` what the poll function is to return. -/
def turn (worker : Nat) (pending : Bool) (t : Task) : Op → Turn
  | .wakeLookup => if t.registered then .go t .wakeLoadDone else .ret t
  | .wakeLoadDone => if t.done then .go t .wakeUnregister else .go t .wakeLoadPolling
  | .wakeLoadPolling => if t.polling then .go t .wakeStoreReschedule else .go t .wakeSwapQueued
  | .wakeStoreReschedule => .ret { t with reschedule := true }
  | .wakeSwapQueued =>
    .go { t with queued := true } (if t.queued then .wakeStoreReschedule else .wakeInject)
  | .wakeInject => .push t .injector
  | .wakeUnregister => .ret { t with registered := false }
  | .pollLoadDone => if t.done then .ret t else .go t .pollTryLock
  | .pollTryLock =>
    if t.pollLock then .go t .pollStoreReschedule
    else .go { t with pollLock := true } .pollLoadDoneLocked
  | .pollStoreReschedule => .ret { t with reschedule := true }
  | .pollLoadDoneLocked => if t.done then .go t .pollReturn else .go t .pollStoreQueued
  | .pollStoreQueued => .go { t with queued := false } .pollStorePolling
  | .pollStorePolling => .go { t with polling := true } .pollLoadCancel
  | .pollLoadCancel =>
    if t.cancelRequested && t.isFuture then .go t .pollCancelPolling else .go t .pollUser
  | .pollCancelPolling => .go { t with polling := false } .pollCancelDone
  | .pollCancelDone => .go { t with done := true } .pollCancelUnregister
  | .pollCancelUnregister => .go { t with registered := false } .pollReturn
  | .pollReturn => .ret { t with pollLock := false }
  | .pollUser => .go t (.pollLeave pending)
  | .pollLeave isPending =>
    .go { t with polling := false } (if isPending then .pollLoadCancelPending else .pollStoreDone)
  | .pollLoadCancelPending =>
    if t.cancelRequested then .go t .pollStoreDone else .go t .pollSwapReschedule
  | .pollStoreDone => .go { t with done := true } .pollUnregister
  | .pollUnregister => .go { t with registered := false } (.pollUnlock false)
  | .pollSwapReschedule => .go { t with reschedule := false } (.pollUnlock t.reschedule)
  | .pollUnlock requeue => .go { t with pollLock := false } (.pollLoadDoneLast requeue)
  | .pollLoadDoneLast requeue =>
    if !t.done then .go t (.pollSwapLast requeue)
    else if requeue then .go t .injectStoreQueued else .ret t
  | .pollSwapLast requeue =>
    let task := { t with reschedule := false }
    if t.reschedule || requeue then .go task .injectStoreQueued else .ret task
  | .injectStoreQueued => .go { t with queued := true } .injectPush
  | .injectPush => .push t .injector
  | .cancelStoreRequested => .go { t with cancelRequested := true } .cancelTryLock
  | .cancelTryLock =>
    if t.pollLock then if t.isFuture then .go t .cancelStoreReschedule else .ret t
    else .go { t with pollLock := true } (if t.isFuture then .cancelSwapDone else .cancelUnlock)
  | .cancelSwapDone =>
    .go { t with done := true } (if t.done then .cancelUnlock else .cancelUnregister)
  | .cancelUnregister => .go { t with registered := false } .cancelUnlock
  | .cancelUnlock => .ret { t with pollLock := false }
  | .cancelStoreReschedule => .ret { t with reschedule := true }
  | .spawnRegister => .go { t with registered := true } .spawnFetchNext
  | .spawnFetchNext => .go t (.spawnStoreQueued worker)
  | .spawnStoreQueued w => .go { t with queued := true } (.spawnPush w)
  | .spawnPush w => .push t (.worker w)

/-- The executor with the threads that use it. Thread `w` is worker `w` for each `w` below
`workerCount`; the other threads are callers. `begun` and `woken` are history: a poll of the task
has begun (it took the poll lock), and the task was woken after its latest poll began. -/
structure Executor where
  workerCount : Nat
  next : Nat
  nextTaskId : Nat
  queues : QueueId → List Nat
  tasks : Nat → Task
  running : Nat → Option (Nat × Op)
  begun : Nat → Bool
  woken : Nat → Bool

/-! ## The runs -/

/-- A copy of the task is in a run queue. -/
def Executor.inQueue (s : Executor) (id : Nat) : Prop := ∃ q, id ∈ s.queues q

/-- What can happen: a thread starts one of the functions, a worker pops a task, or a thread
takes its next operation. The waker that a poll calls from inside is a caller of its own. -/
inductive Action
  | spawn (thread : Nat) (isFuture : Bool)
  | wake (thread id : Nat)
  | cancel (thread id : Nat)
  | pop (worker : Nat) (queue : QueueId)
  | turn (thread : Nat) (pending : Bool)
  deriving DecidableEq, Repr

/-- The thread that takes the step. -/
def Action.thread : Action → Nat
  | .spawn thread _ | .wake thread _ | .cancel thread _ | .pop thread _ | .turn thread _ => thread

/-- The pop of a worker: the front of its own queue and of the injector, the back of the queue
of another. A `try_lock` that fails only makes `pop_task` go on to the next queue. -/
def popFrom (worker : Nat) (queue : QueueId) (tasks : List Nat) : Option (Nat × List Nat) :=
  if queue = .injector ∨ queue = .worker worker then
    match tasks with
    | [] => none
    | t :: ts => some (t, ts)
  else tasks.getLast?.map fun t => (t, tasks.dropLast)

/-- A poll begins when it takes the poll lock. -/
def begins (t : Task) (op : Op) : Bool := op == .pollTryLock && !t.pollLock

/-- The flags, the thread and the queue after an operation of `thread` on task `id`. -/
def Executor.after (s : Executor) (thread id : Nat) (r : Turn) : Executor :=
  { s with
    tasks := Function.update s.tasks id r.task
    running := Function.update s.running thread (r.next.map fun op => (id, op))
    queues := fun q => if r.pushes = some q then s.queues q ++ [id] else s.queues q }

def step (s : Executor) : Action → Option Executor
  | .spawn thread isFuture =>
    if s.running thread = none then
      some { s with
        nextTaskId := s.nextTaskId + 1
        tasks := Function.update s.tasks s.nextTaskId (.new isFuture)
        running := Function.update s.running thread (some (s.nextTaskId, .spawnRegister)) }
    else none
  | .wake thread id =>
    if s.running thread = none then
      some { s with
        running := Function.update s.running thread (some (id, .wakeLookup))
        woken := Function.update s.woken id (s.woken id || s.begun id) }
    else none
  | .cancel thread id =>
    if s.running thread = none ∧ id < s.nextTaskId then
      some { s with
        running := Function.update s.running thread (some (id, .cancelStoreRequested)) }
    else none
  | .pop worker queue =>
    if worker < s.workerCount ∧ s.running worker = none then do
      let (id, tasks) ← popFrom worker queue (s.queues queue)
      some { s with
        queues := Function.update s.queues queue tasks
        running := Function.update s.running worker (some (id, .pollLoadDone)) }
    else none
  | .turn thread pending => do
    let (id, op) ← s.running thread
    let r := turn (s.next % s.workerCount) pending (s.tasks id) op
    some { s.after thread id r with
      next := if op = .spawnFetchNext then (s.next + 1) % 2 ^ 64 else s.next
      begun := if begins (s.tasks id) op then Function.update s.begun id true else s.begun
      woken := if begins (s.tasks id) op then Function.update s.woken id false else s.woken }

/-- `Executor::new_unstarted`: empty queues, no task, and no thread at work. -/
structure Initial (s : Executor) : Prop where
  workers : 0 < s.workerCount
  queues : ∀ q, s.queues q = []
  tasks : ∀ id, (s.tasks id).registered = false
  running : ∀ th, s.running th = none
  begun : ∀ id, s.begun id = false
  woken : ∀ id, s.woken id = false

/-- The executor with so many workers. -/
def newExecutor (workerCount : Nat) : Executor :=
  { workerCount, next := 0, nextTaskId := 1, queues := fun _ => [], tasks := fun _ => .new true
    running := fun _ => none, begun := fun _ => false, woken := fun _ => false }

theorem newExecutor_initial {workerCount : Nat} (h : 0 < workerCount) :
    Initial (newExecutor workerCount) :=
  ⟨h, fun _ => rfl, fun _ => rfl, fun _ => rfl, fun _ => rfl, fun _ => rfl⟩

/-! ## What one step does -/

section after

variable {s : Executor} {thread id : Nat} {r : Turn}

@[simp] theorem after_tasks_self : (s.after thread id r).tasks id = r.task := by
  simp [Executor.after]

theorem after_tasks_of_ne {i : Nat} (h : i ≠ id) : (s.after thread id r).tasks i = s.tasks i := by
  simp [Executor.after, h]

theorem after_running_self :
    (s.after thread id r).running thread = r.next.map fun op => (id, op) := by
  simp [Executor.after]

theorem after_running_of_ne {th : Nat} (h : th ≠ thread) :
    (s.after thread id r).running th = s.running th := by
  simp [Executor.after, h]

/-- What runs after an operation is what ran before, or the next operation of its thread. -/
theorem after_running {th i : Nat} {op : Op} (h : (s.after thread id r).running th = some (i, op)) :
    (th ≠ thread ∧ s.running th = some (i, op)) ∨ (th = thread ∧ i = id ∧ r.next = some op) := by
  by_cases hth : th = thread
  · subst hth
    rw [after_running_self, Option.map_eq_some_iff] at h
    obtain ⟨op', hop, he⟩ := h
    cases he
    exact Or.inr ⟨rfl, rfl, hop⟩
  · rw [after_running_of_ne hth] at h
    exact Or.inl ⟨hth, h⟩

theorem after_inQueue (thread : Nat) {i : Nat} : (s.after thread id r).inQueue i ↔
    s.inQueue i ∨ (i = id ∧ r.pushes.isSome = true) := by
  unfold Executor.inQueue Executor.after
  simp only
  constructor
  · rintro ⟨q, hq⟩
    split at hq
    · rename_i hp
      rcases List.mem_append.mp hq with hin | hin
      · exact Or.inl ⟨q, hin⟩
      · exact Or.inr ⟨List.mem_singleton.mp hin, by rw [hp]; rfl⟩
    · exact Or.inl ⟨q, hq⟩
  · rintro (⟨q, hq⟩ | ⟨rfl, hp⟩)
    · refine ⟨q, ?_⟩
      split
      · exact List.mem_append_left _ hq
      · exact hq
    · obtain ⟨q, hq⟩ := Option.isSome_iff_exists.mp hp
      exact ⟨q, by simp [hq]⟩

end after

/-- A pop takes one copy from its queue. -/
theorem popFrom_mem {worker id : Nat} {queue : QueueId} {tasks rest : List Nat}
    (h : popFrom worker queue tasks = some (id, rest)) :
    ∀ i, i ∈ tasks ↔ i = id ∨ i ∈ rest := by
  unfold popFrom at h
  split at h
  · split at h
    · cases h
    · cases h
      exact fun i => List.mem_cons
  · rw [Option.map_eq_some_iff] at h
    obtain ⟨t, ht, he⟩ := h
    cases he
    obtain ⟨front, rfl⟩ := List.getLast?_eq_some_iff.mp ht
    intro i
    rw [List.dropLast_concat, List.mem_append, List.mem_singleton, or_comm]

/-- The ways a step can go, each with what it found and what it left. -/
inductive Stepped (s : Executor) : Action → Executor → Prop
  | spawn {thread : Nat} {isFuture : Bool} : s.running thread = none →
      Stepped s (.spawn thread isFuture) { s with
        nextTaskId := s.nextTaskId + 1
        tasks := Function.update s.tasks s.nextTaskId (.new isFuture)
        running := Function.update s.running thread (some (s.nextTaskId, .spawnRegister)) }
  | wake {thread id : Nat} : s.running thread = none → Stepped s (.wake thread id) { s with
      running := Function.update s.running thread (some (id, .wakeLookup))
      woken := Function.update s.woken id (s.woken id || s.begun id) }
  | cancel {thread id : Nat} : s.running thread = none → id < s.nextTaskId →
      Stepped s (.cancel thread id) { s with
        running := Function.update s.running thread (some (id, .cancelStoreRequested)) }
  | pop {worker id : Nat} {queue : QueueId} {tasks : List Nat} : s.running worker = none →
      popFrom worker queue (s.queues queue) = some (id, tasks) →
      Stepped s (.pop worker queue) { s with
        queues := Function.update s.queues queue tasks
        running := Function.update s.running worker (some (id, .pollLoadDone)) }
  | turn {thread id : Nat} {op : Op} {pending : Bool} : s.running thread = some (id, op) →
      Stepped s (.turn thread pending)
        { s.after thread id (turn (s.next % s.workerCount) pending (s.tasks id) op) with
          next := if op = .spawnFetchNext then (s.next + 1) % 2 ^ 64 else s.next
          begun := if begins (s.tasks id) op then Function.update s.begun id true else s.begun
          woken := if begins (s.tasks id) op then Function.update s.woken id false else s.woken }

theorem step_cases {s s' : Executor} {a : Action} (h : step s a = some s') : Stepped s a s' := by
  cases a with
  | spawn thread isFuture =>
    simp only [step, Option.ite_none_right_eq_some, Option.some.injEq] at h
    exact h.2 ▸ .spawn h.1
  | wake thread id =>
    simp only [step, Option.ite_none_right_eq_some, Option.some.injEq] at h
    exact h.2 ▸ .wake h.1
  | cancel thread id =>
    simp only [step, Option.ite_none_right_eq_some, Option.some.injEq] at h
    exact h.2 ▸ .cancel h.1.1 h.1.2
  | pop worker queue =>
    simp only [step, Option.ite_none_right_eq_some, Option.bind_eq_bind, Option.bind_eq_some_iff,
      Option.some.injEq] at h
    obtain ⟨⟨_, hidle⟩, ⟨id, tasks⟩, hpop, rfl⟩ := h
    exact .pop hidle hpop
  | turn thread pending =>
    simp only [step, Option.bind_eq_bind, Option.bind_eq_some_iff, Option.some.injEq] at h
    obtain ⟨⟨id, op⟩, hrun, rfl⟩ := h
    exact .turn hrun

end runtime.threads
