-- Lock futures of `Shared` cells under cancellation (`shared.rs`, `async_rt.rs`, `threads.rs`).
-- Tasks poll lock futures, run their bodies under the lock, and cancel futures directly or by
-- a timeout that expires. `lang_future_cancel` looks at the kind word of a future box, and the
-- kind word of a lock future is 0.
import OtterFusion.Runtime.SharedLock

open Function runtime.threads runtime.shared

namespace runtime.cancellation

/-! ## The futures -/

/-- A future box, by what its kind word and its poll function say. The inner future of a
timeout is set when the box is built. -/
inductive Future
  /-- `lang_shared_lock_future`, whose kind word is 0. -/
  | lock (future : Nat)
  /-- `TIMEOUT_FUTURE_KIND`. -/
  | timeout (id : Nat) (inner : Future)
  /-- `SPAWN_FUTURE_KIND`, or the poll function of a spawn future. -/
  | spawn (task : Nat)
  /-- `SLEEP_FUTURE_KIND`, `IO_FUTURE_KIND` or `CHAN_RECV_FUTURE_KIND`. -/
  | registered (id : Nat)
  /-- A generated state machine: its kind word is its cleanup hook. -/
  | generated
  deriving DecidableEq, Repr

/-- The state of a lock future: its cell and the words that its poll reads. -/
structure LockFuture where
  cell : Nat
  data : LockData
  deriving DecidableEq, Repr

/-- `TimeoutCell`: whether the timer is armed, whether it has fired, and whether the inner
future has been cancelled. -/
structure TimeoutCell where
  started : Bool
  fired : Bool
  cancelledLoser : Bool
  deriving DecidableEq, Repr

def TimeoutCell.new : TimeoutCell := { started := false, fired := false, cancelledLoser := false }

/-- An entry of a held-lock set: the cell, and, as history, the lock future that took it. -/
structure Held where
  cell : Nat
  future : Nat
  deriving DecidableEq, Repr

/-! ## The cells, the futures and the tasks -/

/-- The cells with the lock futures and the tasks. `bodies` says for which task the body of a
lock future is under way. `holder`, `givenTo` and `cancelled` are history: the future that
holds a cell, the future that was last given a ticket of a cell, and the lock futures that a
cancellation has reached. -/
structure World where
  cells : Nat → State
  futures : Nat → LockFuture
  bodies : Nat → Option Nat
  held : Nat → List Held
  timeouts : Nat → Option TimeoutCell
  live : LiveTasks
  cancelRequested : Nat → Bool
  holder : Nat → Option Nat
  givenTo : Nat → Nat → Option Nat
  cancelled : Nat → Bool

/-- `held_pop`: the last entry of the cell leaves the set. -/
def heldPop (id : Nat) (held : List Held) : List Held :=
  (held.reverse.eraseP fun h => h.cell == id).reverse

/-- `release_inner`, without the call of the waker. -/
def World.releaseInner (w : World) (id : Nat) : World :=
  { w with
    cells := update w.cells id (shared.releaseInner w.live (w.cells id)).2
    holder := update w.holder id none }

/-- `release_task_held` and `lang_shared_release_all`: the held-lock set of a task is drained,
the last lock first. No body of the task goes on. -/
def World.releaseTaskHeld (w : World) (task : Nat) : World :=
  (w.held task).reverse.foldl (fun w h => w.releaseInner h.cell)
    { w with
      held := update w.held task []
      bodies := fun f => if w.bodies f = some task then none else w.bodies f }

/-- Whether the poll of a lock future takes the lock. -/
def acquires (live : LiveTasks) (s : State) (d : LockData) (wdata : Nat) (wfn : WakeFn) : Bool :=
  match d.state with
  | .running => false
  | _ =>
    if d.isTry then (tryAcquire s).1
    else (advance live s d.acqState d.ticket wdata wfn).1.1

/-- `lock_poll`, up to the end of the body: a poll that takes the lock records it in the
held-lock set of the task. -/
def World.lockPoll (w : World) (task wdata : Nat) (wfn : WakeFn) (f : Nat) : World :=
  let u := w.futures f
  let s := w.cells u.cell
  let polled := shared.lockPoll w.live s u.data wdata wfn
  let w' : World := { w with
    cells := update w.cells u.cell polled.2
    futures := update w.futures f { u with data := polled.1 }
    givenTo := if polled.2.nextTicket = s.nextTicket then w.givenTo
      else update w.givenTo u.cell (update (w.givenTo u.cell) s.nextTicket (some f)) }
  if acquires w.live s u.data wdata wfn then
    { w' with
      held := update w.held task (w.held task ++ [{ cell := u.cell, future := f }])
      bodies := update w.bodies f (some task)
      holder := update w.holder u.cell (some f) }
  else w'

/-- `finish_locked`: the body has ended, so the lock is released. -/
def World.finishLocked (w : World) (f task : Nat) : World :=
  let id := (w.futures f).cell
  World.releaseInner { w with
    held := update w.held task (heldPop id (w.held task))
    bodies := update w.bodies f none } id

/-! ## Cancellation -/

/-- `cancel_task_by_id`: the task is to stop at its next suspension, or at once. -/
def World.cancelTaskById (w : World) (task : Nat) : World :=
  { w with cancelRequested := update w.cancelRequested task true }

/-- `lang_future_cancel` with `cancel_runtime_future`. Neither has a branch for the kind word 0
of a lock future, and a hook is not run. The other kinds of registered futures keep their
registrations elsewhere. -/
def langFutureCancel : Future → World → World
  | .lock f, w => { w with cancelled := update w.cancelled f true }
  | .timeout id inner, w =>
    match w.timeouts id with
    | some cell =>
      let w := { w with timeouts := update w.timeouts id none }
      if cell.cancelledLoser then w else langFutureCancel inner w
    | none => w
  | .spawn task, w => w.cancelTaskById task
  | .registered _, w => w
  | .generated, w => w

/-- `timeout_poll` once the inner future has been polled, with whether that was pending. -/
def World.timeoutPolled (w : World) (id : Nat) (inner : Future) (pending : Bool) : World :=
  if !pending then { w with timeouts := update w.timeouts id none }
  else match w.timeouts id with
    | some cell =>
      if cell.fired then
        if cell.cancelledLoser then w
        else
          let w := langFutureCancel inner { w with
            timeouts := update w.timeouts id (some { cell with cancelledLoser := true }) }
          { w with timeouts := update w.timeouts id none }
      else { w with timeouts := update w.timeouts id (some { cell with started := true }) }
    | none => w

/-- The timer of a timeout fires, when it is armed. -/
def World.timerFires (w : World) (id : Nat) : World :=
  match w.timeouts id with
  | some cell =>
      { w with timeouts := update w.timeouts id (some { cell with fired := cell.started }) }
  | none => w

/-! ## The runs -/

/-- What can happen. A task that is cancelled dies and then drains its held-lock set, a task
that panics drains it first, and a task that completes only dies. -/
inductive Action
  | poll (task wdata : Nat) (wfn : WakeFn) (future : Nat)
  | finish (future : Nat)
  | cancel (fut : Future)
  | timerFires (id : Nat)
  | timeoutPolled (id : Nat) (inner : Future) (pending : Bool)
  | taskDies (task : Nat)
  | releaseTaskHeld (task : Nat)
  deriving DecidableEq, Repr

/-- One step. A lock future is not polled again while a poll of it runs its body. -/
def step (w : World) : Action → Option World
  | .poll task wdata wfn f =>
    if w.bodies f = none ∨ (w.futures f).data.state = .running then
      some (w.lockPoll task wdata wfn f)
    else none
  | .finish f => (w.bodies f).map fun task => w.finishLocked f task
  | .cancel fut => some (langFutureCancel fut w)
  | .timerFires id => some (w.timerFires id)
  | .timeoutPolled id inner pending => some (w.timeoutPolled id inner pending)
  | .taskDies task => some { w with live := w.live.without task }
  | .releaseTaskHeld task => some (w.releaseTaskHeld task)

/-- New cells, with futures that no task has polled. -/
structure Initial (w : World) : Prop where
  cells : ∀ i, w.cells i = .new
  futures : ∀ f, ∃ a t, (w.futures f).data = .new a t
  bodies : ∀ f, w.bodies f = none
  held : ∀ task, w.held task = []
  timeouts : ∀ id, w.timeouts id = some .new
  holder : ∀ i, w.holder i = none
  givenTo : ∀ i t, w.givenTo i t = none
  cancelled : ∀ f, w.cancelled f = false

/-- New cells, with futures that all lock cell 0 and have an async body. -/
def newWorld : World :=
  { cells := fun _ => .new, futures := fun _ => ⟨0, .new true false⟩, bodies := fun _ => none
    held := fun _ => [], timeouts := fun _ => some .new, live := fun _ => true
    cancelRequested := fun _ => false, holder := fun _ => none, givenTo := fun _ _ => none
    cancelled := fun _ => false }

theorem newWorld_initial : Initial newWorld :=
  ⟨fun _ => rfl, fun _ => ⟨true, false, rfl⟩, fun _ => rfl, fun _ => rfl, fun _ => rfl,
    fun _ => rfl, fun _ _ => rfl, fun _ => rfl⟩

/-! ## What the law says -/

/-- A lock future holds nothing: its cell is not held on its behalf, no entry of it stands
before a live waiter, and no held-lock set lists the cell for it. -/
structure Freed (w : World) (f : Nat) : Prop where
  lock : (w.cells (w.futures f).cell).locked = true → w.holder (w.futures f).cell ≠ some f
  queue : ∀ i before e after, (w.cells i).queue = before ++ e :: after →
    w.givenTo i e.ticket = some f → ∀ v ∈ after, v.isLive w.live = false
  held : ∀ task, ∀ h ∈ w.held task, h.future ≠ f

/-! ## The condition on a step -/

/-- A lock future waits when the queue of its cell has its ticket. -/
def Waiting (w : World) (f : Nat) : Prop :=
  (w.futures f).data.state = .acqQueued ∧
    ∃ e ∈ (w.cells (w.futures f).cell).queue, e.ticket = (w.futures f).data.ticket

/-- A lock future that neither waits nor runs its body. -/
def Idle (w : World) (f : Nat) : Prop := w.bodies f = none ∧ ¬Waiting w f

/-- The lock futures that a cancellation reaches, through the timeouts that are not over. -/
def reached (w : World) : Future → List Nat
  | .lock f => [f]
  | .timeout id inner =>
    match w.timeouts id with
    | some cell => if cell.cancelledLoser then [] else reached w inner
    | none => []
  | .spawn _ => []
  | .registered _ => []
  | .generated => []

/-- Whether a poll of a timeout cancels the inner future. -/
def World.expires (w : World) (id : Nat) (pending : Bool) : Bool :=
  pending && (w.timeouts id).any fun cell => cell.fired && !cell.cancelledLoser

end runtime.cancellation
