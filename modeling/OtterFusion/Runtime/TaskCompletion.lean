-- How a task completes (`threads.rs`): the steps of `poll_task`, `finish_task` and
-- `cancel_task_by_id` on one task, in any order of the threads that poll and cancel it. A task
-- completes once and with its own value, unless that value is the word for `Pending`.
import OtterFusion.Runtime.Executor
import OtterFusion.Runtime.ThreadCtl

open base.runs runtime.gc runtime.threads

namespace runtime.tasks

/-! ## The state -/

/-- `TASK_PENDING`. -/
def taskPending : Int64 := Int64.minValue

/-- What the future or the closure of the task does in one poll. -/
inductive BodyResult
  | pending
  | ready (value : Int64)
  | panicked (message : Nat)
  deriving DecidableEq

/-- `run_under_boundary`: the word that the body is taken for, or the message of its panic. -/
def underBoundary : BodyResult → Except Nat Int64
  | .pending => .ok taskPending
  | .ready value => .ok value
  | .panicked message => .error message

/-- The stages of a completion, from the store of `done` on. -/
inductive Stage
  | unregister
  | removeRoot
  | publish
  deriving DecidableEq

/-- Where the code goes on after a completion. -/
inductive Back
  | pollReturn
  | pollUnlock
  | cancelUnlock
  deriving DecidableEq

/-- The next operation of a thread that runs one of the functions on the task. -/
inductive Point
  -- `poll_task`, up to the body
  | pollLoadDone
  | pollTryLock
  | pollStoreReschedule
  | pollLoadDoneLocked
  | pollStoreQueued
  | pollStorePolling
  | pollLoadCancel
  | pollCancelPolling
  | pollCancelDone
  | pollUser
  -- `poll_task`, from the return of the body on
  | pollLeave (outcome : Except Nat Int64)
  | pollLoadCancelPending
  | pollSwapReschedule
  | pollStoreDone (ending : Ending)
  | pollReturn
  | pollUnlock (requeue : Bool)
  | pollLoadDoneLast (requeue : Bool)
  | pollSwapLast (requeue : Bool)
  | injectStoreQueued
  | injectPush
  -- a completion, by a poll or by a cancellation
  | finish (stage : Stage) (ending : Ending) (back : Back)
  -- `cancel_task_by_id`
  | cancelLoadCtlDone
  | cancelStoreRequested
  | cancelTryLock
  | cancelSwapDone
  | cancelUnlock
  | cancelStoreReschedule

/-- What an operation does beyond the flags of the task. -/
inductive Effect
  | none
  | result (r : BodyResult)
  | publish (e : Ending)
  | removeRoot

/-- What one operation leaves: the flags, the next operation, and its effect. -/
structure Move where
  task : Task
  next : Option Point
  effect : Effect

def Move.go (task : Task) (next : Point) : Move := { task, next := some next, effect := .none }

/-- The last operation of a function. -/
def Move.ret (task : Task) : Move := { task, next := none, effect := .none }

/-- An operation with an effect. -/
def Move.act (task : Task) (effect : Effect) (next : Point) : Move :=
  { task, next := some next, effect }

def Back.point : Back → Point
  | .pollReturn => .pollReturn
  | .pollUnlock => .pollUnlock false
  | .cancelUnlock => .cancelUnlock

/-- The stages in order: a cancelled task loses its root before the publication, and a task
that ran to its end (`finish_worker`) after it. -/
def finishMove (t : Task) (back : Back) : Ending → Stage → Move
  | .cancelled, .unregister =>
    .go { t with registered := false } (.finish .removeRoot .cancelled back)
  | .cancelled, .removeRoot => .act t .removeRoot (.finish .publish .cancelled back)
  | .cancelled, .publish => .act t (.publish .cancelled) back.point
  | e, .unregister => .go { t with registered := false } (.finish .publish e back)
  | e, .publish => .act t (.publish e) (.finish .removeRoot e back)
  | _, .removeRoot => .act t .removeRoot back.point

/-- The match of `poll_task` on the outcome of the body. -/
def leaveMove (t : Task) : Except Nat Int64 → Move
  | .ok value =>
    if value = taskPending then .go { t with polling := false } .pollLoadCancelPending
    else .go { t with polling := false } (.pollStoreDone (.value value))
  | .error message =>
    .go { t with polling := false } (.pollStoreDone (.panic message))

/-- One operation on the task. `ctlDone` is the `done` of its record, and `r` what the body is
to do. -/
def move (ctlDone : Bool) (r : BodyResult) (t : Task) : Point → Move
  | .pollLoadDone => if t.done then .ret t else .go t .pollTryLock
  | .pollTryLock =>
    if t.pollLock then .go t .pollStoreReschedule
    else .go { t with pollLock := true } .pollLoadDoneLocked
  | .pollStoreReschedule => .ret { t with reschedule := true }
  | .pollLoadDoneLocked => if t.done then .go t .pollReturn else .go t .pollStoreQueued
  | .pollStoreQueued => .go { t with queued := false } .pollStorePolling
  | .pollStorePolling => .go { t with polling := true } .pollLoadCancel
  | .pollLoadCancel =>
    if t.cancelRequested && t.isFuture then .go t .pollCancelPolling else .go t .pollUser
  | .pollCancelPolling => .go { t with polling := false } .pollCancelDone
  | .pollCancelDone => .go { t with done := true } (.finish .unregister .cancelled .pollReturn)
  | .pollUser => .act t (.result r) (.pollLeave (underBoundary r))
  | .pollLeave outcome => leaveMove t outcome
  | .pollLoadCancelPending =>
    if t.cancelRequested then .go t (.pollStoreDone .cancelled)
    else .go t .pollSwapReschedule
  | .pollSwapReschedule => .go { t with reschedule := false } (.pollUnlock t.reschedule)
  | .pollStoreDone e => .go { t with done := true } (.finish .unregister e .pollUnlock)
  | .pollReturn => .ret { t with pollLock := false }
  | .pollUnlock requeue => .go { t with pollLock := false } (.pollLoadDoneLast requeue)
  | .pollLoadDoneLast requeue =>
    if !t.done then .go t (.pollSwapLast requeue)
    else if requeue then .go t .injectStoreQueued else .ret t
  | .pollSwapLast requeue =>
    if t.reschedule || requeue then .go { t with reschedule := false } .injectStoreQueued
    else .ret { t with reschedule := false }
  | .injectStoreQueued => .go { t with queued := true } .injectPush
  | .injectPush => .ret t
  | .finish stage e back => finishMove t back e stage
  | .cancelLoadCtlDone => if ctlDone then .ret t else .go t .cancelStoreRequested
  | .cancelStoreRequested => .go { t with cancelRequested := true } .cancelTryLock
  | .cancelTryLock =>
    if t.pollLock then if t.isFuture then .go t .cancelStoreReschedule else .ret t
    else .go { t with pollLock := true } (if t.isFuture then .cancelSwapDone else .cancelUnlock)
  | .cancelSwapDone =>
    .go { t with done := true }
      (if t.done then .cancelUnlock else .finish .unregister .cancelled .cancelUnlock)
  | .cancelUnlock => .ret { t with pollLock := false }
  | .cancelStoreReschedule => .ret { t with reschedule := true }

/-- A task with the threads that work on it, each at its next operation. `results`, `published`
and `inputRemovals` are history: what the polls of the body gave, the publications that took
effect, and how often the root of the input was removed. -/
structure TaskRun where
  task : Task
  ctl : ThreadInner
  input : Nat
  roots : ExtraRoots
  running : Nat → Option Point
  results : List BodyResult
  published : List Ending
  inputRemovals : Nat

/-! ## The runs -/

/-- What can happen: a worker pops the task, a thread asks for its cancellation, or a thread
takes its next operation. A wake only decides when the task is popped again, which here may be
at any time. -/
inductive Action
  | poll (thread : Nat)
  | cancel (thread : Nat)
  | turn (thread : Nat) (r : BodyResult)
  deriving DecidableEq

/-- The thread that takes the step. -/
def Action.thread : Action → Nat
  | .poll thread | .cancel thread | .turn thread _ => thread

/-- The effect of an operation. A panic pins its message at the boundary. -/
def TaskRun.apply (s : TaskRun) : Effect → TaskRun
  | .none => s
  | .result r =>
    { s with
      results := s.results ++ [r]
      roots := match r with
        | .panicked message => addExtraRoot s.roots message
        | _ => s.roots }
  | .publish e =>
    { s with
      ctl := (publish s.ctl s.roots e).ctl
      roots := (publish s.ctl s.roots e).roots
      published := if takesEffect s.ctl e then s.published ++ [e] else s.published }
  | .removeRoot =>
    { s with
      roots := removeExtraRoot s.roots s.input
      inputRemovals := s.inputRemovals + 1 }

/-- The state after an operation of a thread. -/
def TaskRun.after (s : TaskRun) (thread : Nat) (m : Move) : TaskRun :=
  { s.apply m.effect with
    task := m.task
    running := Function.update s.running thread m.next }

/-- The move that a thread makes, when it is at `p`. -/
def TaskRun.moveAt (s : TaskRun) (r : BodyResult) (p : Point) : Move :=
  move s.ctl.done r s.task p

def step (s : TaskRun) : Action → Option TaskRun
  | .poll thread =>
    if s.running thread = none then
      some { s with running := Function.update s.running thread (some .pollLoadDone) }
    else none
  | .cancel thread =>
    if s.running thread = none then
      some { s with running := Function.update s.running thread (some .cancelLoadCtlDone) }
    else none
  | .turn thread r =>
    -- only a future can be pending
    if r = .pending ∧ s.task.isFuture = false then none
    else (s.running thread).map fun p => s.after thread (s.moveAt r p)

/-- A task as `lang_async_spawn` and `lang_task_spawn` leave it: in a queue, and not polled. -/
structure Initial (s : TaskRun) : Prop where
  task : ∃ isFuture, s.task = { Task.new isFuture with queued := true, registered := true }
  ctl : ∃ resultIsPtr, s.ctl = newCtl resultIsPtr false
  running : ∀ th, s.running th = none
  results : s.results = []
  published : s.published = []
  inputRemovals : s.inputRemovals = 0

/-- A task of its own, whose input is pinned. -/
def newTask (isFuture resultIsPtr : Bool) (input : Nat) : TaskRun :=
  { task := { Task.new isFuture with queued := true, registered := true }
    ctl := newCtl resultIsPtr false, input, roots := addExtraRoot (fun _ => 0) input
    running := fun _ => none, results := [], published := [], inputRemovals := 0 }

theorem newTask_initial (isFuture resultIsPtr : Bool) (input : Nat) :
    Initial (newTask isFuture resultIsPtr input) :=
  ⟨⟨isFuture, rfl⟩, ⟨resultIsPtr, rfl⟩, fun _ => rfl, rfl, rfl, rfl⟩

end runtime.tasks
