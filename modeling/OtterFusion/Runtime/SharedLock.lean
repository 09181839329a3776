-- One `Shared` cell (`shared.rs`): the FIFO decision of an acquire poll, the poll of a lock
-- future, the release, and the runs in which tasks poll, release and die in any order.
import Mathlib.Algebra.Order.Ring.Nat
import Mathlib.Data.List.TakeWhile
import OtterFusion.Base.Runs
import OtterFusion.Runtime.Common

open runtime.threads

namespace runtime.shared

/-! ## The cell -/

/-- A queued waiter: the waker to call when its turn comes, and its ticket. -/
structure Waker where
  data : Nat
  wake : WakeFn
  ticket : Nat
  deriving DecidableEq, Repr

/-- The state of a cell. `nextTicket` is a `u64`, so it wraps. -/
structure State where
  locked : Bool
  queue : List Waker
  nextTicket : Nat
  deriving DecidableEq, Repr

/-- `lang_shared_new`: free, nobody waits, and the first ticket is 1. -/
def State.new : State := { locked := false, queue := [], nextTicket := 1 }

/-- The resume state of an acquire poll: `ST_INIT`, `ST_QUEUED` or `ST_ACQUIRED`. -/
inductive AcqState
  | init
  | queued
  | acquired
  deriving DecidableEq, Repr

def ticketSpace : Nat := 2 ^ 64

/-- The task of a waiter, when its waker is an executor task. -/
def Waker.taskId (w : Waker) : Option Nat := executorWakerTaskId w.data w.wake

/-- A waiter that can still be woken: its waker is not that of a task that is done. -/
def Waker.isLive (live : LiveTasks) (w : Waker) : Bool :=
  executorWakerIsLive live w.data w.wake != some false

/-- `prune_dead_front`. -/
def pruneDeadFront (live : LiveTasks) (s : State) : State :=
  { s with queue := s.queue.dropWhile fun w => !w.isLive live }

/-- `remove_duplicate_task_waiters`, with no ticket to keep, as each caller asks for. -/
def removeDuplicateTaskWaiters (live : LiveTasks) (s : State) (data : Nat) (wake : WakeFn) :
    State :=
  match executorWakerTask live data wake with
  | some (true, taskId) => { s with queue := s.queue.filter fun w => w.taskId ≠ some taskId }
  | _ => s

/-- A fresh ticket at the back of the queue: the last lines of two branches of `advance`. -/
def enqueue (s : State) (data : Nat) (wake : WakeFn) : State :=
  { s with
    nextTicket := (s.nextTicket + 1) % ticketSpace
    queue := s.queue ++ [{ data, wake, ticket := s.nextTicket }] }

/-- The waker of the first waiter with this ticket, as the last poll gave it. -/
def refresh (data : Nat) (wake : WakeFn) (ticket : Nat) : List Waker → List Waker
  | [] => []
  | w :: ws => if w.ticket = ticket then { w with data, wake } :: ws
      else w :: refresh data wake ticket ws

/-- `advance`: whether this poll took the lock, and the resume state and ticket to keep. -/
def advance (live : LiveTasks) (s : State) (st : AcqState) (ticket : Nat) (wdata : Nat)
    (wfn : WakeFn) : (Bool × AcqState × Nat) × State :=
  let s := pruneDeadFront live s
  match st with
  | .acquired => ((true, .acquired, ticket), s)
  | .init =>
    if !s.locked && s.queue.isEmpty then
      ((true, .acquired, ticket), { s with locked := true })
    else
      let s := removeDuplicateTaskWaiters live s wdata wfn
      if !s.locked && s.queue.isEmpty then
        ((true, .acquired, ticket), { s with locked := true })
      else ((false, .queued, s.nextTicket), enqueue s wdata wfn)
  | .queued =>
    if s.queue.any fun w => w.ticket == ticket then
      let s := { s with queue := refresh wdata wfn ticket s.queue }
      if !s.locked && s.queue.head?.map (·.ticket) == some ticket then
        ((true, .acquired, ticket), { s with queue := s.queue.tail, locked := true })
      else ((false, .queued, ticket), s)
    -- a stale poll: the queue entry of this ticket is gone
    else if !s.locked then ((true, .acquired, ticket), { s with locked := true })
    else
      let s := removeDuplicateTaskWaiters live s wdata wfn
      ((false, .queued, s.nextTicket), enqueue s wdata wfn)

/-- `lang_shared_try_acquire`, and the one attempt of a `try_lock` future. -/
def tryAcquire (s : State) : Bool × State :=
  if !s.locked && s.queue.isEmpty then (true, { s with locked := true }) else (false, s)

/-- `release_inner`, up to the call of the waker: the cell, and the head to wake. -/
def releaseInner (live : LiveTasks) (s : State) : Option Waker × State :=
  let s := pruneDeadFront live { s with locked := false }
  (s.queue.head?, s)

/-! ## The lock future -/

/-- `LST_ACQ_INIT`, `LST_ACQ_QUEUED` or `LST_RUNNING`. -/
inductive LockState
  | acqInit
  | acqQueued
  | running
  deriving DecidableEq, Repr

/-- The words of a lock future that decide what its poll does to the cell. -/
structure LockData where
  state : LockState
  ticket : Nat
  bodyIsAsync : Bool
  isTry : Bool
  deriving DecidableEq, Repr

/-- `lang_shared_lock_future`. -/
def LockData.new (bodyIsAsync isTry : Bool) : LockData :=
  { state := .acqInit, ticket := 0, bodyIsAsync, isTry }

/-- The resume state that `lock_poll` hands to `advance`. -/
def LockData.acqState (d : LockData) : AcqState :=
  if d.state = .acqInit then .init else .queued

/-- `run_body`: an async body is driven by later polls, any other ends in this one, which
leaves the state word as it is. -/
def LockData.runBody (d : LockData) : LockData :=
  if d.bodyIsAsync then { d with state := .running } else d

/-- `lock_poll`, up to the body and the release that follows it. -/
def lockPoll (live : LiveTasks) (s : State) (d : LockData) (wdata : Nat) (wfn : WakeFn) :
    LockData × State :=
  match d.state with
  | .running => (d, s)
  | _ =>
    if d.isTry then
      let (acquired, s) := tryAcquire s
      (if acquired then d.runBody else d, s)
    else
      let ((acquired, st, ticket), s) := advance live s d.acqState d.ticket wdata wfn
      let d := { d with ticket }
      if acquired then (d.runBody, s)
      else ({ d with state := if st = .queued then .acqQueued else .acqInit }, s)

/-! ## The runs of one cell -/

/-- A cell with its lock futures and tasks. `waking` holds the wakers that releases took from
the queue and have yet to call. `woken` and `issued` are history: the wakers called since the
lock was last taken, and the tickets given out, newest first. -/
structure Cell where
  state : State
  futures : Nat → LockData
  live : LiveTasks
  waking : List Waker
  woken : List Waker
  issued : List Nat

/-- What can happen to a cell. Any waker may poll any future again, and any caller may
release; a release that took a waker calls it in a step of its own. -/
inductive Action
  | poll (future data : Nat) (wake : WakeFn)
  | tryAcquire
  | release
  | callWaker (w : Waker)
  | taskDies (task : Nat)
  deriving DecidableEq, Repr

/-- The cell after its state word changed, with the history that follows from it. -/
def Cell.withState (c : Cell) (s : State) : Cell :=
  { c with
    state := s
    woken := if !c.state.locked && s.locked then [] else c.woken
    issued := if s.nextTicket = c.state.nextTicket then c.issued
      else c.state.nextTicket :: c.issued }

def step (c : Cell) : Action → Option Cell
  | .poll f data wake =>
    let (d, s) := lockPoll c.live c.state (c.futures f) data wake
    some { c.withState s with futures := fun g => if g = f then d else c.futures g }
  | .tryAcquire => some (c.withState (tryAcquire c.state).2)
  | .release =>
    let (head, s) := releaseInner c.live c.state
    some { c.withState s with waking := c.waking ++ head.toList }
  | .callWaker w =>
    if w ∈ c.waking then some { c with waking := c.waking.erase w, woken := w :: c.woken }
    else none
  | .taskDies t => some { c with live := c.live.without t }

/-- A new cell: no future has been polled, no wake is under way. -/
structure Initial (c : Cell) : Prop where
  state : c.state = .new
  futures : ∀ f, ∃ a t, c.futures f = .new a t
  waking : c.waking = []
  woken : c.woken = []
  issued : c.issued = []

/-- A new cell whose futures all have an async body, with every task running. -/
def newCell : Cell :=
  { state := .new, futures := fun _ => .new true false, live := fun _ => true
    waking := [], woken := [], issued := [] }

theorem newCell_initial : Initial newCell :=
  ⟨rfl, fun _ => ⟨true, false, rfl⟩, rfl, rfl, rfl⟩

/-! ## What the queue operations keep -/

@[simp] theorem pruneDeadFront_locked (live : LiveTasks) (s : State) :
    (pruneDeadFront live s).locked = s.locked := rfl

@[simp] theorem pruneDeadFront_nextTicket (live : LiveTasks) (s : State) :
    (pruneDeadFront live s).nextTicket = s.nextTicket := rfl

theorem pruneDeadFront_sublist (live : LiveTasks) (s : State) :
    (pruneDeadFront live s).queue.Sublist s.queue :=
  List.dropWhile_sublist _

@[simp] theorem removeDuplicateTaskWaiters_locked (live : LiveTasks) (s : State) (data : Nat)
    (wake : WakeFn) : (removeDuplicateTaskWaiters live s data wake).locked = s.locked := by
  unfold removeDuplicateTaskWaiters
  split <;> rfl

@[simp] theorem removeDuplicateTaskWaiters_nextTicket (live : LiveTasks) (s : State) (data : Nat)
    (wake : WakeFn) :
    (removeDuplicateTaskWaiters live s data wake).nextTicket = s.nextTicket := by
  unfold removeDuplicateTaskWaiters
  split <;> rfl

theorem removeDuplicateTaskWaiters_sublist (live : LiveTasks) (s : State) (data : Nat)
    (wake : WakeFn) : (removeDuplicateTaskWaiters live s data wake).queue.Sublist s.queue := by
  unfold removeDuplicateTaskWaiters
  split
  · exact List.filter_sublist
  · exact List.Sublist.refl _

/-- A refresh changes no ticket. -/
@[simp] theorem refresh_tickets (data : Nat) (wake : WakeFn) (ticket : Nat) (q : List Waker) :
    (refresh data wake ticket q).map (·.ticket) = q.map (·.ticket) := by
  induction q with
  | nil => rfl
  | cons w ws ih =>
    unfold refresh
    split
    · rfl
    · rw [List.map_cons, List.map_cons, ih]

/-- A waiter that is dead is dropped from the front, so what stands first after the prune can
still be woken. -/
theorem pruneDeadFront_head (live : LiveTasks) (s : State) (w : Waker)
    (h : (pruneDeadFront live s).queue.head? = some w) : w.isLive live = true := by
  have hnot := List.head?_dropWhile_not (fun w : Waker => !w.isLive live) s.queue
  unfold pruneDeadFront at h
  simp only at h
  rw [h] at hnot
  simpa using hnot

/-- The prune drops no waiter that can still be woken. -/
theorem mem_pruneDeadFront_of_live (live : LiveTasks) (s : State) (w : Waker)
    (hw : w ∈ s.queue) (hl : w.isLive live = true) : w ∈ (pruneDeadFront live s).queue := by
  rw [← List.takeWhile_append_dropWhile (p := fun w : Waker => !w.isLive live) (l := s.queue),
    List.mem_append] at hw
  rcases hw with hw | hw
  · have hdead := List.mem_takeWhile_imp hw
    simp [hl] at hdead
  · exact hw

/-- A refresh of the queue leaves the ticket at its head. -/
theorem refresh_head_ticket (data : Nat) (wake : WakeFn) (ticket : Nat) (q : List Waker) :
    (refresh data wake ticket q).head?.map (·.ticket) = q.head?.map (·.ticket) := by
  rw [← List.head?_map, ← List.head?_map, refresh_tickets]

/-! ## What one acquire poll does -/

/-- The ways an acquire poll can go, each with what it found and what it left. -/
inductive Advanced (live : LiveTasks) (s : State) (ticket data : Nat) (wake : WakeFn) :
    AcqState → (Bool × AcqState × Nat) × State → Prop
  | held : Advanced live s ticket data wake .acquired
      ((true, .acquired, ticket), pruneDeadFront live s)
  /-- A first poll of a free lock that nobody waits for. -/
  | free : s.locked = false → (pruneDeadFront live s).queue = [] →
      Advanced live s ticket data wake .init
        ((true, .acquired, ticket), { pruneDeadFront live s with locked := true })
  /-- A first poll of a free lock that only this task waits for. -/
  | alone : s.locked = false →
      (removeDuplicateTaskWaiters live (pruneDeadFront live s) data wake).queue = [] →
      Advanced live s ticket data wake .init ((true, .acquired, ticket),
        { locked := true
          queue := (removeDuplicateTaskWaiters live (pruneDeadFront live s) data wake).queue
          nextTicket := s.nextTicket })
  /-- A first poll that joins the queue. -/
  | joins : (s.locked = false →
        (removeDuplicateTaskWaiters live (pruneDeadFront live s) data wake).queue ≠ []) →
      Advanced live s ticket data wake .init ((false, .queued, s.nextTicket),
        enqueue (removeDuplicateTaskWaiters live (pruneDeadFront live s) data wake) data wake)
  /-- The poll of the waiter at the head of a free lock. -/
  | turn : s.locked = false →
      (pruneDeadFront live s).queue.head?.map (·.ticket) = some ticket →
      Advanced live s ticket data wake .queued ((true, .acquired, ticket),
        { pruneDeadFront live s with
          queue := (refresh data wake ticket (pruneDeadFront live s).queue).tail
          locked := true })
  /-- The poll of a waiter whose turn has not come. -/
  | stays : (pruneDeadFront live s).queue.any (·.ticket == ticket) = true →
      (s.locked = false → (pruneDeadFront live s).queue.head?.map (·.ticket) ≠ some ticket) →
      Advanced live s ticket data wake .queued ((false, .queued, ticket),
        { pruneDeadFront live s with
          queue := refresh data wake ticket (pruneDeadFront live s).queue })
  /-- A stale poll of a free lock. -/
  | staleTakes : (pruneDeadFront live s).queue.any (·.ticket == ticket) = false →
      s.locked = false → Advanced live s ticket data wake .queued
        ((true, .acquired, ticket), { pruneDeadFront live s with locked := true })
  /-- A stale poll of a held lock, which joins the queue again. -/
  | staleJoins : (pruneDeadFront live s).queue.any (·.ticket == ticket) = false →
      s.locked = true → Advanced live s ticket data wake .queued ((false, .queued, s.nextTicket),
        enqueue (removeDuplicateTaskWaiters live (pruneDeadFront live s) data wake) data wake)

theorem advance_cases (live : LiveTasks) (s : State) (st : AcqState) (ticket data : Nat)
    (wake : WakeFn) :
    Advanced live s ticket data wake st (advance live s st ticket data wake) := by
  unfold advance
  cases st with
  | acquired => exact .held
  | init =>
    simp only [removeDuplicateTaskWaiters_locked, removeDuplicateTaskWaiters_nextTicket,
      pruneDeadFront_locked, pruneDeadFront_nextTicket, Bool.and_eq_true, Bool.not_eq_true',
      List.isEmpty_iff]
    split
    · rename_i h
      exact .free h.1 h.2
    · split
      · rename_i h
        exact .alone h.1 h.2
      · rename_i h
        exact .joins fun hl hq => h ⟨hl, hq⟩
  | queued =>
    simp only [removeDuplicateTaskWaiters_nextTicket, pruneDeadFront_locked,
      pruneDeadFront_nextTicket, refresh_head_ticket, Bool.and_eq_true, Bool.not_eq_true',
      beq_iff_eq]
    split
    · rename_i hany
      split
      · rename_i h
        exact .turn h.1 h.2
      · rename_i h
        exact .stays hany fun hl hh => h ⟨hl, hh⟩
    · rename_i hany
      split
      · rename_i hl
        exact .staleTakes (by simpa using hany) hl
      · rename_i hl
        exact .staleJoins (by simpa using hany) (by simpa using hl)

/-! ## What one poll of a lock future does -/

/-- The poll of a future that still wants the lock and may wait for it. -/
def Acquiring (d : LockData) : Prop := d.state ≠ .running ∧ d.isTry = false

section poll

variable {live : LiveTasks} {s : State} {d : LockData} {data : Nat} {wake : WakeFn}

theorem lockPoll_of_acquiring (h : Acquiring d) :
    (lockPoll live s d data wake).2 = (advance live s d.acqState d.ticket data wake).2 := by
  obtain ⟨hst, htry⟩ := h
  unfold lockPoll
  rcases hd : d.state with _ | _ | _
  · simp [htry]; split <;> rfl
  · simp [htry]; split <;> rfl
  · exact absurd hd hst

/-- A future that runs its body, or that never waits, leaves the queue and the counter alone,
and takes the lock only when nobody waits. -/
theorem lockPoll_of_not_acquiring (live : LiveTasks) (s : State) (data : Nat) (wake : WakeFn)
    (h : ¬ Acquiring d) :
    (lockPoll live s d data wake).2 = s ∨
      (s.queue = [] ∧ (lockPoll live s d data wake).2 = { s with locked := true }) := by
  unfold lockPoll tryAcquire
  rcases hd : d.state with _ | _ | _
  · have htry : d.isTry = true := by simpa [Acquiring, hd] using h
    by_cases hf : (!s.locked && s.queue.isEmpty) = true
    · simp only [htry, hf, if_true]
      simp only [Bool.and_eq_true, List.isEmpty_iff] at hf
      exact Or.inr ⟨hf.2, trivial⟩
    · simp only [htry, hf, if_true]
      exact Or.inl rfl
  · have htry : d.isTry = true := by simpa [Acquiring, hd] using h
    by_cases hf : (!s.locked && s.queue.isEmpty) = true
    · simp only [htry, hf, if_true]
      simp only [Bool.and_eq_true, List.isEmpty_iff] at hf
      exact Or.inr ⟨hf.2, trivial⟩
    · simp only [htry, hf, if_true]
      exact Or.inl rfl
  · exact Or.inl rfl

theorem acqState_ne_acquired (d : LockData) : d.acqState ≠ .acquired := by
  unfold LockData.acqState
  split <;> simp

theorem acqState_queued (h : Acquiring d) : d.acqState = .queued ↔ d.state = .acqQueued := by
  unfold LockData.acqState
  rcases hd : d.state with _ | _ | _
  · simp
  · simp
  · exact absurd hd h.1

end poll

end runtime.shared
