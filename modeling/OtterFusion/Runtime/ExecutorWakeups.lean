-- The wakeups of the executor. A wake that finds its task polling or queued only stores
-- `reschedule`, and so does a worker that finds the poll lock held: the poll under way is to swap
-- the flag at its end and requeue. No wakeup is lost while each such store comes in time for a
-- swap, or for a poll that is still to begin; a store that comes late strands the task.
import OtterFusion.Base.Mutex
import OtterFusion.Runtime.Executor

open base.runs base.mutex

namespace runtime.threads

/-! ## What the law says -/

/-- The operations of `task_wake`. -/
def Op.isWake : Op → Bool
  | .wakeLookup | .wakeLoadDone | .wakeLoadPolling | .wakeStoreReschedule | .wakeSwapQueued
  | .wakeInject | .wakeUnregister => true
  | _ => false

/-- The operations of `poll_task`. -/
def Op.isPoll : Op → Bool
  | .pollLoadDone | .pollTryLock | .pollStoreReschedule | .pollLoadDoneLocked | .pollStoreQueued
  | .pollStorePolling | .pollLoadCancel | .pollCancelPolling | .pollCancelDone
  | .pollCancelUnregister | .pollReturn | .pollUser | .pollLeave _ | .pollLoadCancelPending
  | .pollStoreDone | .pollUnregister | .pollSwapReschedule | .pollUnlock _ | .pollLoadDoneLast _
  | .pollSwapLast _ | .injectStoreQueued | .injectPush => true
  | _ => false

/-- No wake and no poll of the task is in progress. -/
def Quiet (s : Executor) (id : Nat) : Prop :=
  ∀ th op, s.running th = some (id, op) → op.isWake = false ∧ op.isPoll = false

/-- A task that no wake and no poll is at work on, that is not done, and that was woken after
its latest poll began, is in a run queue. -/
def NoneStranded (s : Executor) : Prop :=
  ∀ id, Quiet s id → (s.tasks id).done = false → s.woken id = true → s.inQueue id

/-! ## The condition on a step -/

/-- A thread with a popped copy of the task that it has yet to try to lock, or that it is to
put back in a queue. -/
def Op.carries : Op → Bool
  | .pollLoadDone | .pollTryLock | .injectStoreQueued | .injectPush => true
  | .pollUnlock requeue | .pollLoadDoneLast requeue | .pollSwapLast requeue => requeue
  | _ => false

/-- A poll under way that has yet to make its last swap of `reschedule`, or to make the task
done. -/
def Op.willSwap : Op → Bool
  | .pollLoadDoneLocked | .pollStoreQueued | .pollStorePolling | .pollLoadCancel
  | .pollCancelPolling | .pollCancelDone | .pollUser | .pollLeave _ | .pollLoadCancelPending
  | .pollStoreDone | .pollSwapReschedule | .pollUnlock _ | .pollLoadDoneLast _
  | .pollSwapLast _ => true
  | _ => false

/-- The stores of `reschedule` by a wake, and by a worker that found the poll lock held. -/
def Op.stores (op : Op) : Prop := op = .wakeStoreReschedule ∨ op = .pollStoreReschedule

/-- Somebody is still to look at the task after a store of `reschedule`. -/
def Followed (s : Executor) (id : Nat) : Prop :=
  s.inQueue id ∨ ∃ th op, s.running th = some (id, op) ∧ (op.carries || op.willSwap) = true

/-- A store of `reschedule` is in time: the task is done, or somebody is still to look at it. -/
def StoresInTime (s : Executor) : Action → Prop
  | .turn thread _ => ∀ id op, s.running thread = some (id, op) → op.stores →
      (s.tasks id).done = true ∨ Followed s id
  | _ => True

/-! ## What one operation does to its task -/

/-- The operations that only a done task comes to. -/
def Op.needsDone : Op → Bool
  | .wakeUnregister | .pollCancelUnregister | .pollUnregister | .cancelUnregister => true
  | _ => false

/-- A thread at this operation keeps the task from being stranded, given its `reschedule`. -/
def Op.keeps (op : Op) (reschedule : Bool) : Bool :=
  op.isWake || op.carries || op == .pollStoreReschedule || op.willSwap && reschedule

/-- Only a wake or a poll keeps a task from being stranded. -/
theorem keeps_at_work (op : Op) {reschedule : Bool} (h : op.keeps reschedule = true) :
    op.isWake = true ∨ op.isPoll = true := by
  cases op <;> simp_all [Op.keeps, Op.isWake, Op.isPoll, Op.carries, Op.willSwap]

section turn

variable {worker : Nat} {pending : Bool} {t : Task}

attribute [local simp] turn Turn.go Op.needsDone Op.carries Op.willSwap Op.isWake Op.isPoll Op.keeps

/-- No operation makes a done task undone. -/
theorem turn_done (op : Op) (h : t.done = true) : (turn worker pending t op).task.done = true := by
  cases op <;> simp only [turn] <;> (try split_ifs) <;> first | exact h | rfl

theorem turn_not_done {op : Op} (h : (turn worker pending t op).task.done = false) :
    t.done = false := by
  cases ht : t.done with
  | false => rfl
  | true => rw [turn_done op ht] at h; cases h

theorem turn_needsDone (op : Op) {op' : Op} (h : (turn worker pending t op).next = some op')
    (hn : op'.needsDone = true) : (turn worker pending t op).task.done = true := by
  cases op <;> simp only [turn] at h ⊢ <;> (try split_ifs at h ⊢) <;> cases h <;>
    first | rfl | assumption | cases hn

/-- A task leaves the registry only when it is done. -/
theorem turn_registered (op : Op) (hn : op.needsDone = true → t.done = true)
    (h : t.registered = true ∨ t.done = true) :
    (turn worker pending t op).task.registered = true ∨
      (turn worker pending t op).task.done = true := by
  rcases h with h | h
  · by_cases hop : op.needsDone = true
    · exact Or.inr (turn_done op (hn hop))
    · refine Or.inl ?_
      cases op <;> simp only [turn] <;> (try split_ifs) <;>
        first | exact h | rfl | exact absurd rfl hop
  · exact Or.inr (turn_done op h)

/-- Who clears `reschedule` puts the task back in a queue. -/
theorem turn_reschedule (op : Op) (h : t.reschedule = true) :
    (turn worker pending t op).task.reschedule = true ∨
      ∃ op', (turn worker pending t op).next = some op' ∧ op'.carries = true := by
  cases op with
  | pollSwapReschedule => exact Or.inr ⟨.pollUnlock true, by simp [turn, h, Turn.go], rfl⟩
  | pollSwapLast requeue =>
    exact Or.inr ⟨.injectStoreQueued, by simp [turn, h, Turn.go], rfl⟩
  | _ =>
    refine Or.inl ?_
    simp only [turn]
    (try split_ifs) <;> first | exact h | rfl

/-- A wake of a task that is not done goes on, up to its push or its store. -/
theorem turn_wake {op : Op} (hk : op.isWake = true) (hstore : ¬ op.stores)
    (hneeds : op.needsDone = true → t.done = true)
    (hlookup : op = .wakeLookup → t.registered = true)
    (hd : (turn worker pending t op).task.done = false) :
    (turn worker pending t op).pushes.isSome = true ∨
      ∃ op', (turn worker pending t op).next = some op' ∧ op'.isWake = true := by
  have hd0 := turn_not_done hd
  cases op <;> cases hk
  case wakeLookup => exact Or.inr ⟨.wakeLoadDone, by simp [turn, hlookup rfl, Turn.go], rfl⟩
  case wakeLoadDone => exact Or.inr ⟨.wakeLoadPolling, by simp [turn, hd0, Turn.go], rfl⟩
  case wakeLoadPolling =>
    cases hp : t.polling with
    | true => exact Or.inr ⟨.wakeStoreReschedule, by simp [turn, hp, Turn.go], rfl⟩
    | false => exact Or.inr ⟨.wakeSwapQueued, by simp [turn, hp, Turn.go], rfl⟩
  case wakeStoreReschedule => exact absurd (Or.inl rfl) hstore
  case wakeSwapQueued =>
    cases hq : t.queued with
    | true => exact Or.inr ⟨.wakeStoreReschedule, by simp [turn, hq, Turn.go], rfl⟩
    | false => exact Or.inr ⟨.wakeInject, by simp [turn, hq, Turn.go], rfl⟩
  case wakeInject => exact Or.inl rfl
  case wakeUnregister => rw [hneeds rfl] at hd0; cases hd0

/-- A copy of a task that is not done is tried, or goes on to a queue. -/
theorem turn_carries {op : Op} (hk : op.carries = true) (hbegin : begins t op = false)
    (hd : (turn worker pending t op).task.done = false) :
    (turn worker pending t op).pushes.isSome = true ∨
      ∃ op', (turn worker pending t op).next = some op' ∧
        (op'.carries = true ∨ op' = .pollStoreReschedule) := by
  have hd0 := turn_not_done hd
  cases op <;> cases hk
  case pollLoadDone => exact Or.inr ⟨.pollTryLock, by simp [turn, hd0, Turn.go], Or.inl rfl⟩
  case pollTryLock =>
    have hl : t.pollLock = true := by simpa [begins] using hbegin
    exact Or.inr ⟨.pollStoreReschedule, by simp [turn, hl, Turn.go], Or.inr rfl⟩
  case pollUnlock => exact Or.inr ⟨.pollLoadDoneLast true, rfl, Or.inl rfl⟩
  case pollLoadDoneLast =>
    exact Or.inr ⟨.pollSwapLast true, by simp [turn, hd0, Turn.go], Or.inl rfl⟩
  case pollSwapLast => exact Or.inr ⟨.injectStoreQueued, by simp [turn, Turn.go], Or.inl rfl⟩
  case injectStoreQueued => exact Or.inr ⟨.injectPush, rfl, Or.inl rfl⟩
  case injectPush => exact Or.inl rfl

/-- A poll under way that finds `reschedule` set goes on to a swap of it, and requeues. -/
theorem turn_willSwap {op : Op} (hk : op.willSwap = true) (hres : t.reschedule = true)
    (hd : (turn worker pending t op).task.done = false) :
    ∃ op', (turn worker pending t op).next = some op' ∧
      (op'.carries = true ∨
        op'.willSwap = true ∧ (turn worker pending t op).task.reschedule = true) := by
  have hd0 := turn_not_done hd
  cases op <;> cases hk
  case pollLoadDoneLocked =>
    exact ⟨.pollStoreQueued, by simp [turn, hd0, Turn.go], Or.inr ⟨rfl, by simp [turn, hd0, hres,
      Turn.go]⟩⟩
  case pollStoreQueued => exact ⟨.pollStorePolling, rfl, Or.inr ⟨rfl, hres⟩⟩
  case pollStorePolling => exact ⟨.pollLoadCancel, rfl, Or.inr ⟨rfl, hres⟩⟩
  case pollLoadCancel =>
    cases hc : t.cancelRequested && t.isFuture with
    | true => exact ⟨.pollCancelPolling, by simp [turn, hc, Turn.go], Or.inr ⟨rfl, by
        simp [turn, hc, hres, Turn.go]⟩⟩
    | false => exact ⟨.pollUser, by simp [turn, hc, Turn.go], Or.inr ⟨rfl, by
        simp [turn, hc, hres, Turn.go]⟩⟩
  case pollCancelPolling => exact ⟨.pollCancelDone, rfl, Or.inr ⟨rfl, hres⟩⟩
  case pollCancelDone => cases hd
  case pollUser => exact ⟨.pollLeave pending, rfl, Or.inr ⟨rfl, hres⟩⟩
  case pollLeave isPending =>
    cases isPending with
    | true => exact ⟨.pollLoadCancelPending, rfl, Or.inr ⟨rfl, hres⟩⟩
    | false => exact ⟨.pollStoreDone, rfl, Or.inr ⟨rfl, hres⟩⟩
  case pollLoadCancelPending =>
    cases hc : t.cancelRequested with
    | true => exact ⟨.pollStoreDone, by simp [turn, hc, Turn.go], Or.inr ⟨rfl, by
        simp [turn, hc, hres, Turn.go]⟩⟩
    | false => exact ⟨.pollSwapReschedule, by simp [turn, hc, Turn.go], Or.inr ⟨rfl, by
        simp [turn, hc, hres, Turn.go]⟩⟩
  case pollStoreDone => cases hd
  case pollSwapReschedule => exact ⟨.pollUnlock true, by simp [turn, hres, Turn.go], Or.inl rfl⟩
  case pollUnlock requeue => exact ⟨.pollLoadDoneLast requeue, rfl, Or.inr ⟨rfl, hres⟩⟩
  case pollLoadDoneLast requeue =>
    exact ⟨.pollSwapLast requeue, by simp [turn, hd0, Turn.go], Or.inr ⟨rfl, by
      simp [turn, hd0, hres, Turn.go]⟩⟩
  case pollSwapLast => exact ⟨.injectStoreQueued, by simp [turn, hres, Turn.go], Or.inl rfl⟩

/-- An operation of a thread that keeps the task from being stranded pushes the task, or leaves
the thread at one that keeps it, unless it is a store of `reschedule`. -/
theorem turn_keeps (op : Op) (hk : op.keeps t.reschedule = true) (hstore : ¬ op.stores)
    (hbegin : begins t op = false) (hneeds : op.needsDone = true → t.done = true)
    (hlookup : op = .wakeLookup → t.registered = true)
    (hd : (turn worker pending t op).task.done = false) :
    (turn worker pending t op).pushes.isSome = true ∨
      ∃ op', (turn worker pending t op).next = some op' ∧
        op'.keeps (turn worker pending t op).task.reschedule = true := by
  simp only [Op.keeps, Bool.or_eq_true, Bool.and_eq_true, beq_iff_eq] at hk ⊢
  rcases hk with ((hk | hk) | hk) | ⟨hk, hres⟩
  · rcases turn_wake hk hstore hneeds hlookup hd with h | ⟨op', hn, h⟩
    · exact Or.inl h
    · exact Or.inr ⟨op', hn, Or.inl (Or.inl (Or.inl h))⟩
  · rcases turn_carries hk hbegin hd with h | ⟨op', hn, h | h⟩
    · exact Or.inl h
    · exact Or.inr ⟨op', hn, Or.inl (Or.inl (Or.inr h))⟩
    · exact Or.inr ⟨op', hn, Or.inl (Or.inr h)⟩
  · exact absurd (Or.inr hk) hstore
  · obtain ⟨op', hn, h | h⟩ := turn_willSwap hk hres hd
    · exact Or.inr ⟨op', hn, Or.inl (Or.inl (Or.inr h))⟩
    · exact Or.inr ⟨op', hn, Or.inr h⟩

/-- The operations on a task that the registry knew when the thread came to it. -/
def Op.fromKnown : Op → Bool
  | .wakeLookup | .spawnRegister | .cancelStoreRequested | .cancelTryLock | .cancelSwapDone
  | .cancelUnregister | .cancelUnlock | .cancelStoreReschedule => false
  | _ => true

/-- A thread comes to such an operation from another one, or with a registered task. -/
theorem turn_fromKnown (op : Op) {op' : Op} (h : (turn worker pending t op).next = some op')
    (hk : op'.fromKnown = true) :
    op.fromKnown = true ∨ (turn worker pending t op).task.registered = true := by
  cases op <;> simp only [turn] at h ⊢ <;> (try split_ifs at h ⊢) <;> cases h <;>
    first | exact Or.inl rfl | exact Or.inr rfl | exact Or.inr ‹_› | cases hk

theorem turn_pushes (op : Op) (h : (turn worker pending t op).pushes.isSome = true) :
    op.fromKnown = true := by
  cases op <;> simp only [turn] at h <;> (try split_ifs at h) <;> first | rfl | cases h

/-- A wake of a task that the registry does not know ends at once. -/
theorem turn_lookup_unknown (h : t.registered = false) :
    turn worker pending t .wakeLookup = .ret t := by
  simp [turn, h]

end turn

/-! ## What the threads and queues know of the tasks -/

/-- The registry knows the task, or it is done. -/
def Executor.known (s : Executor) (id : Nat) : Prop :=
  (s.tasks id).registered = true ∨ (s.tasks id).done = true

/-- No task comes to a queue or a poll before it is registered, and none leaves the registry
before it is done. -/
structure Wf (s : Executor) : Prop where
  unregistered : ∀ id, s.nextTaskId ≤ id → (s.tasks id).registered = false
  unqueued : ∀ id, s.nextTaskId ≤ id → ¬ s.inQueue id
  unbegun : ∀ id, s.nextTaskId ≤ id → s.begun id = false
  untouched : ∀ id th op, s.nextTaskId ≤ id → s.running th = some (id, op) → op = .wakeLookup
  queued : ∀ id, s.inQueue id → s.known id
  running : ∀ id th op, s.running th = some (id, op) → op.fromKnown = true → s.known id
  begun : ∀ id, s.begun id = true → s.known id
  woken : ∀ id, s.woken id = true → s.begun id = true
  done : ∀ id th op, s.running th = some (id, op) → op.needsDone = true →
    (s.tasks id).done = true

/-- What runs after a thread was set to work is its work, or what ran before. -/
theorem update_running {run : Nat → Option (Nat × Op)} {thread th : Nat} {work other : Nat × Op}
    (h : Function.update run thread (some work) th = some other) :
    other = work ∨ run th = some other := by
  by_cases hth : th = thread
  · subst hth
    rw [Function.update_self, Option.some.injEq] at h
    exact Or.inl h.symm
  · rw [Function.update_of_ne hth] at h
    exact Or.inr h

/-- A thread that starts to run on a task, and changes no more, keeps it so. -/
theorem Wf.start {s s' : Executor} (hw : Wf s) {thread id : Nat} {op : Op}
    (hrun : s'.running = Function.update s.running thread (some (id, op)))
    (htasks : s'.tasks = s.tasks) (hqueues : s'.queues = s.queues)
    (hnext : s'.nextTaskId = s.nextTaskId) (hbegun : s'.begun = s.begun)
    (hwoken : ∀ i, s'.woken i = true → s.begun i = true)
    (hid : op = .wakeLookup ∨ id < s.nextTaskId) (hknown : op.fromKnown = false)
    (hdone : op.needsDone = false) : Wf s' := by
  have hcases : ∀ {i th o}, s'.running th = some (i, o) →
      (i = id ∧ o = op) ∨ s.running th = some (i, o) := by
    intro i th o h
    rw [hrun] at h
    exact (update_running h).imp_left Prod.mk.inj
  have hq : ∀ i, s'.inQueue i ↔ s.inQueue i := by simp [Executor.inQueue, hqueues]
  have hk : ∀ i, s'.known i ↔ s.known i := by simp [Executor.known, htasks]
  constructor
  · rw [hnext, htasks]; exact hw.unregistered
  · rw [hnext]
    intro i hi
    rw [hq]
    exact hw.unqueued i hi
  · rw [hnext, hbegun]; exact hw.unbegun
  · rw [hnext]
    intro i th o hi h
    rcases hcases h with ⟨rfl, rfl⟩ | h
    · exact hid.resolve_right (by omega)
    · exact hw.untouched i th o hi h
  · intro i hi
    rw [hk]
    exact hw.queued i ((hq i).mp hi)
  · intro i th o h ho
    rw [hk]
    rcases hcases h with ⟨rfl, rfl⟩ | h
    · rw [hknown] at ho
      cases ho
    · exact hw.running i th o h ho
  · intro i hi
    rw [hk]
    exact hw.begun i (hbegun ▸ hi)
  · rw [hbegun]; exact hwoken
  · intro i th o h ho
    rw [htasks]
    rcases hcases h with ⟨rfl, rfl⟩ | h
    · rw [hdone] at ho
      cases ho
    · exact hw.done i th o h ho

theorem wf_spawn {s : Executor} (hw : Wf s) {thread : Nat} (isFuture : Bool) : Wf { s with
    nextTaskId := s.nextTaskId + 1
    tasks := Function.update s.tasks s.nextTaskId (.new isFuture)
    running := Function.update s.running thread (some (s.nextTaskId, .spawnRegister)) } := by
  have hcases : ∀ {i th o}, Function.update s.running thread
      (some (s.nextTaskId, .spawnRegister)) th = some (i, o) →
      (i = s.nextTaskId ∧ o = .spawnRegister) ∨ s.running th = some (i, o) :=
    fun h => (update_running h).imp_left Prod.mk.inj
  have hkeep : ∀ i, i < s.nextTaskId →
      Function.update s.tasks s.nextTaskId (.new isFuture) i = s.tasks i :=
    fun i hi => Function.update_of_ne (by omega) _ _
  have hqueue : ∀ i, s.inQueue i → i < s.nextTaskId := by
    intro i hi
    by_contra hge
    exact hw.unqueued i (by omega) hi
  have hbegun : ∀ i, s.begun i = true → i < s.nextTaskId := by
    intro i hi
    by_contra hge
    rw [hw.unbegun i (by omega)] at hi
    cases hi
  have hrun : ∀ i th o, s.running th = some (i, o) → o ≠ .wakeLookup → i < s.nextTaskId := by
    intro i th o h ho
    by_contra hge
    exact ho (hw.untouched i th o (by omega) h)
  constructor
  · intro i hi
    simp only at hi ⊢
    rw [Function.update_of_ne (by omega)]
    exact hw.unregistered i (by omega)
  · intro i hi
    exact hw.unqueued i (Nat.le_of_succ_le hi)
  · intro i hi
    exact hw.unbegun i (Nat.le_of_succ_le hi)
  · intro i th o hi h
    rcases hcases h with ⟨rfl, rfl⟩ | h
    · exact absurd hi (by simp)
    · exact hw.untouched i th o (Nat.le_of_succ_le hi) h
  · intro i hi
    have hk := hw.queued i hi
    unfold Executor.known
    simp only [hkeep i (hqueue i hi)]
    exact hk
  · intro i th o h ho
    rcases hcases h with ⟨rfl, rfl⟩ | h
    · cases ho
    · have hk := hw.running i th o h ho
      unfold Executor.known
      simp only [hkeep i (hrun i th o h fun e => by rw [e] at ho; cases ho)]
      exact hk
  · intro i hi
    have hk := hw.begun i hi
    unfold Executor.known
    simp only [hkeep i (hbegun i hi)]
    exact hk
  · exact hw.woken
  · intro i th o h ho
    rcases hcases h with ⟨rfl, rfl⟩ | h
    · cases ho
    · have hd := hw.done i th o h ho
      simp only [hkeep i (hrun i th o h fun e => by rw [e] at ho; cases ho)]
      exact hd

/-- What is in a queue after a pop was there before. -/
theorem inQueue_of_pop {s : Executor} {worker id i : Nat} {queue : QueueId} {tasks : List Nat}
    (hpop : popFrom worker queue (s.queues queue) = some (id, tasks))
    (h : ∃ q, i ∈ Function.update s.queues queue tasks q) : s.inQueue i := by
  obtain ⟨q, hq⟩ := h
  by_cases he : q = queue
  · subst he
    rw [Function.update_self] at hq
    exact ⟨q, (popFrom_mem hpop i).mpr (Or.inr hq)⟩
  · rw [Function.update_of_ne he] at hq
    exact ⟨q, hq⟩

theorem wf_pop {s : Executor} (hw : Wf s) {worker id : Nat} {queue : QueueId} {tasks : List Nat}
    (hpop : popFrom worker queue (s.queues queue) = some (id, tasks)) : Wf { s with
      queues := Function.update s.queues queue tasks
      running := Function.update s.running worker (some (id, .pollLoadDone)) } := by
  have hid : s.inQueue id := ⟨queue, (popFrom_mem hpop id).mpr (Or.inl rfl)⟩
  have hcases : ∀ {i th o}, Function.update s.running worker (some (id, .pollLoadDone)) th
      = some (i, o) → (i = id ∧ o = .pollLoadDone) ∨ s.running th = some (i, o) :=
    fun h => (update_running h).imp_left Prod.mk.inj
  constructor
  · exact hw.unregistered
  · exact fun i hi hq => hw.unqueued i hi (inQueue_of_pop hpop hq)
  · exact hw.unbegun
  · intro i th o hi h
    rcases hcases h with ⟨rfl, rfl⟩ | h
    · exact absurd hid (hw.unqueued i hi)
    · exact hw.untouched i th o hi h
  · exact fun i hq => hw.queued i (inQueue_of_pop hpop hq)
  · intro i th o h ho
    rcases hcases h with ⟨rfl, rfl⟩ | h
    · exact hw.queued i hid
    · exact hw.running i th o h ho
  · exact hw.begun
  · exact hw.woken
  · intro i th o h ho
    rcases hcases h with ⟨rfl, rfl⟩ | h
    · cases ho
    · exact hw.done i th o h ho

theorem known_after {s : Executor} (hw : Wf s) {thread id : Nat} {op : Op} (worker : Nat)
    (pending : Bool) (hrun : s.running thread = some (id, op)) {i : Nat} (hi : s.known i) :
    (s.after thread id (turn worker pending (s.tasks id) op)).known i := by
  unfold Executor.known
  by_cases he : i = id
  · subst he
    rw [after_tasks_self]
    exact turn_registered op (hw.done i thread op hrun) hi
  · rw [after_tasks_of_ne he]
    exact hi

theorem wf_turn {s : Executor} (hw : Wf s) {thread id : Nat} {op : Op} (pending : Bool)
    (hrun : s.running thread = some (id, op)) : Wf
    { s.after thread id (turn (s.next % s.workerCount) pending (s.tasks id) op) with
      next := if op = .spawnFetchNext then (s.next + 1) % 2 ^ 64 else s.next
      begun := if begins (s.tasks id) op then Function.update s.begun id true else s.begun
      woken := if begins (s.tasks id) op then Function.update s.woken id false else s.woken } := by
  generalize hr : turn (s.next % s.workerCount) pending (s.tasks id) op = r
  have hlookup : ∀ i, s.nextTaskId ≤ i → i = id → op = .wakeLookup ∧ r = .ret (s.tasks id) := by
    rintro i hi rfl
    have hop := hw.untouched i thread op hi hrun
    subst hop
    exact ⟨rfl, by rw [← hr, turn_lookup_unknown (hw.unregistered i hi)]⟩
  have hknown : ∀ i, s.known i → (s.after thread id r).known i :=
    fun i hi => hr ▸ known_after hw _ pending hrun hi
  have hself : op.fromKnown = true → (s.after thread id r).known id :=
    fun h => hknown id (hw.running id thread op hrun h)
  constructor
  · intro i hi
    by_cases he : i = id
    · subst he
      simp only [after_tasks_self, (hlookup i hi rfl).2]
      exact hw.unregistered i hi
    · simp only [after_tasks_of_ne he]
      exact hw.unregistered i hi
  · intro i hi hq
    rcases (after_inQueue thread).mp hq with hq | ⟨he, hp⟩
    · exact hw.unqueued i hi hq
    · rw [(hlookup i hi he).2] at hp
      cases hp
  · intro i hi
    simp only
    split
    · rename_i hb
      by_cases he : i = id
      · rw [(hlookup i hi he).1] at hb
        cases hb
      · rw [Function.update_of_ne he]
        exact hw.unbegun i hi
    · exact hw.unbegun i hi
  · intro i th o hi h
    rcases after_running h with ⟨_, h⟩ | ⟨_, he, hn⟩
    · exact hw.untouched i th o hi h
    · rw [(hlookup i hi he).2] at hn
      cases hn
  · intro i hq
    rcases (after_inQueue thread).mp hq with hq | ⟨rfl, hp⟩
    · exact hknown i (hw.queued i hq)
    · exact hself (turn_pushes op (hr ▸ hp))
  · intro i th o h ho
    rcases after_running h with ⟨_, h⟩ | ⟨_, rfl, hn⟩
    · exact hknown i (hw.running i th o h ho)
    · rcases turn_fromKnown op (hr ▸ hn) ho with hop | hreg
      · exact hself hop
      · refine Or.inl ?_
        simp only [after_tasks_self]
        exact hr ▸ hreg
  · intro i hb
    simp only at hb
    split at hb
    · rename_i hbeg
      by_cases he : i = id
      · subst he
        refine hself ?_
        simp only [begins, Bool.and_eq_true, beq_iff_eq] at hbeg
        rw [hbeg.1]
        rfl
      · rw [Function.update_of_ne he] at hb
        exact hknown i (hw.begun i hb)
    · exact hknown i (hw.begun i hb)
  · intro i hi
    simp only at hi ⊢
    split_ifs at hi ⊢
    · by_cases he : i = id
      · rw [he, Function.update_self] at hi
        cases hi
      · rw [Function.update_of_ne he] at hi ⊢
        exact hw.woken i hi
    · exact hw.woken i hi
  · intro i th o h ho
    rcases after_running h with ⟨_, h⟩ | ⟨_, rfl, hn⟩
    · have hd := hw.done i th o h ho
      by_cases he : i = id
      · subst he
        simp only [after_tasks_self]
        exact hr ▸ turn_done op hd
      · simp only [after_tasks_of_ne he]
        exact hd
    · simp only [after_tasks_self]
      exact hr ▸ turn_needsDone op (hr ▸ hn) ho

theorem wf_step {s s' : Executor} {a : Action} (hw : Wf s) (h : step s a = some s') : Wf s' := by
  cases step_cases h with
  | spawn _ => exact wf_spawn hw _
  | @wake thread id _ =>
    refine hw.start rfl rfl rfl rfl rfl (fun i hi => ?_) (Or.inl rfl) rfl rfl
    simp only at hi
    by_cases he : i = id
    · subst he
      rw [Function.update_self, Bool.or_eq_true] at hi
      exact hi.elim (hw.woken i) fun h => h
    · rw [Function.update_of_ne he] at hi
      exact hw.woken i hi
  | cancel _ hid => exact hw.start rfl rfl rfl rfl rfl hw.woken (Or.inr hid) rfl rfl
  | pop _ hpop => exact wf_pop hw hpop
  | turn hrun => exact wf_turn hw _ hrun

theorem wf_initial {s : Executor} (h : Initial s) : Wf s := by
  have hq : ∀ i, ¬ s.inQueue i := by
    rintro i ⟨q, hq⟩
    rw [h.queues] at hq
    cases hq
  have hrun : ∀ i th o, s.running th ≠ some (i, o) := by
    intro i th o he
    rw [h.running] at he
    cases he
  constructor
  · exact fun i _ => h.tasks i
  · exact fun i _ => hq i
  · exact fun i _ => h.begun i
  · exact fun i th o _ he => absurd he (hrun i th o)
  · exact fun i hi => absurd hi (hq i)
  · exact fun i th o he => absurd he (hrun i th o)
  · intro i hi
    rw [h.begun] at hi
    cases hi
  · intro i hi
    rw [h.woken] at hi
    cases hi
  · exact fun i th o he => absurd he (hrun i th o)

/-! ## What a step keeps -/

/-- The task is in a queue, or a thread is at an operation that keeps it. -/
def Kept (s : Executor) (id : Nat) : Prop :=
  s.inQueue id ∨
    ∃ th op, s.running th = some (id, op) ∧ op.keeps (s.tasks id).reschedule = true

/-- Every task that is not done and was woken is kept. -/
def NoneForgotten (s : Executor) : Prop :=
  ∀ id, (s.tasks id).done = false → s.woken id = true → Kept s id

/-- A step that sets an idle thread to work leaves a kept task kept. -/
theorem Kept.of_idle {s s' : Executor} {thread i : Nat} {work : Option (Nat × Op)}
    (hk : Kept s i) (hidle : s.running thread = none)
    (hrun : s'.running = Function.update s.running thread work)
    (htask : s'.tasks i = s.tasks i) (hqueue : s.inQueue i → s'.inQueue i) : Kept s' i := by
  rcases hk with hq | ⟨th, op, hr, hop⟩
  · exact Or.inl (hqueue hq)
  · refine Or.inr ⟨th, op, ?_, htask ▸ hop⟩
    have hne : th ≠ thread := by
      rintro rfl
      rw [hidle] at hr
      cases hr
    rw [hrun, Function.update_of_ne hne, hr]

/-- An operation on another task leaves a kept task kept. -/
theorem Kept.after_of_ne {s : Executor} {thread id i : Nat} {op : Op} (r : Turn)
    (hrun : s.running thread = some (id, op)) (hk : Kept s i) (he : i ≠ id) :
    Kept (s.after thread id r) i := by
  rcases hk with hq | ⟨th, o, hr, ho⟩
  · exact Or.inl ((after_inQueue thread).mpr (Or.inl hq))
  · have hne : th ≠ thread := by
      rintro rfl
      rw [hrun] at hr
      cases hr
      exact he rfl
    exact Or.inr ⟨th, o, by rw [after_running_of_ne hne, hr], by rwa [after_tasks_of_ne he]⟩

/-- A store of `reschedule` in time leaves its task kept. -/
theorem kept_after_store {s : Executor} {thread id : Nat} {op : Op} (worker : Nat)
    (pending : Bool) (hrun : s.running thread = some (id, op)) (hstore : op.stores)
    (hf : Followed s id) : Kept (s.after thread id (turn worker pending (s.tasks id) op)) id := by
  have hr : turn worker pending (s.tasks id) op =
      .ret { s.tasks id with reschedule := true } := by
    rcases hstore with rfl | rfl <;> rfl
  rcases hf with hq | ⟨th, o, ho, hlook⟩
  · exact Or.inl ((after_inQueue thread).mpr (Or.inl hq))
  · have hne : th ≠ thread := by
      rintro rfl
      rw [hrun] at ho
      cases ho
      rcases hstore with rfl | rfl <;> cases hlook
    refine Or.inr ⟨th, o, by rw [after_running_of_ne hne, ho], ?_⟩
    rw [hr, after_tasks_self]
    simp only [Turn.ret, Op.keeps, Bool.and_true, Bool.or_eq_true] at hlook ⊢
    exact hlook.elim (fun h => Or.inl (Or.inl (Or.inr h))) Or.inr

/-- Any other operation that begins no poll leaves its task kept. -/
theorem kept_after {s : Executor} (hw : Wf s) {thread id : Nat} {op : Op} (worker : Nat)
    (pending : Bool) (hrun : s.running thread = some (id, op)) (hk : Kept s id)
    (hstore : ¬ op.stores) (hbegin : begins (s.tasks id) op = false) (hwoken : s.woken id = true)
    (hd : (turn worker pending (s.tasks id) op).task.done = false) :
    Kept (s.after thread id (turn worker pending (s.tasks id) op)) id := by
  rcases hk with hq | ⟨th, o, ho, hkeep⟩
  · exact Or.inl ((after_inQueue thread).mpr (Or.inl hq))
  · by_cases hth : th = thread
    · subst hth
      rw [hrun] at ho
      cases ho
      have hlookup : op = .wakeLookup → (s.tasks id).registered = true := by
        intro _
        rcases hw.begun id (hw.woken id hwoken) with h | h
        · exact h
        · rw [turn_done op h] at hd
          cases hd
      rcases turn_keeps op hkeep hstore hbegin (hw.done id th op hrun) hlookup hd with
        hp | ⟨op', hn, hkeep'⟩
      · exact Or.inl ((after_inQueue th).mpr (Or.inr ⟨rfl, hp⟩))
      · exact Or.inr ⟨th, op', by rw [after_running_self, hn]; rfl, by rwa [after_tasks_self]⟩
    · have hstay : (s.after thread id (turn worker pending (s.tasks id) op)).running th
          = some (id, o) := by
        rw [after_running_of_ne hth, ho]
      cases hres : (s.tasks id).reschedule with
      | false =>
        refine Or.inr ⟨th, o, hstay, ?_⟩
        simp only [Op.keeps, hres, Bool.and_false, Bool.or_false] at hkeep
        simp only [Op.keeps, Bool.or_eq_true, hkeep, true_or]
      | true =>
        rcases turn_reschedule op hres with h | ⟨op', hn, hc⟩
        · rw [hres] at hkeep
          exact Or.inr ⟨th, o, hstay, by rw [after_tasks_self, h]; exact hkeep⟩
        · refine Or.inr ⟨thread, op', by rw [after_running_self, hn]; rfl, ?_⟩
          simp only [Op.keeps, hc, Bool.or_true, Bool.true_or]

theorem noneForgotten_turn {s : Executor} (hw : Wf s) (hn : NoneForgotten s) {thread id : Nat}
    {op : Op} (pending : Bool) (hrun : s.running thread = some (id, op))
    (hok : StoresInTime s (.turn thread pending)) : NoneForgotten
    { s.after thread id (turn (s.next % s.workerCount) pending (s.tasks id) op) with
      next := if op = .spawnFetchNext then (s.next + 1) % 2 ^ 64 else s.next
      begun := if begins (s.tasks id) op then Function.update s.begun id true else s.begun
      woken := if begins (s.tasks id) op then Function.update s.woken id false else s.woken } := by
  intro i hd hwoken
  simp only at hd hwoken
  by_cases he : i = id
  · subst he
    rw [after_tasks_self] at hd
    cases hb : begins (s.tasks i) op with
    | true => simp [hb] at hwoken
    | false =>
      simp only [hb, Bool.false_eq_true, if_false] at hwoken
      have hd0 : (s.tasks i).done = false := by
        by_contra h
        rw [turn_done op (by simpa using h)] at hd
        cases hd
      by_cases hstore : op.stores
      · rcases hok i op hrun hstore with h | h
        · rw [hd0] at h
          cases h
        · exact kept_after_store _ pending hrun hstore h
      · exact kept_after hw _ pending hrun (hn i hd0 hwoken) hstore hb hwoken hd
  · rw [after_tasks_of_ne he] at hd
    have hwoken' : s.woken i = true := by
      split at hwoken
      · rwa [Function.update_of_ne he] at hwoken
      · exact hwoken
    exact (hn i hd hwoken').after_of_ne _ hrun he

theorem noneForgotten_step {s s' : Executor} {a : Action} (hw : Wf s) (hn : NoneForgotten s)
    (hok : StoresInTime s a) (h : step s a = some s') : NoneForgotten s' := by
  cases step_cases h with
  | @spawn thread isFuture hidle =>
    intro i hd hwoken
    have hne : i ≠ s.nextTaskId := by
      rintro rfl
      have hb := hw.unbegun _ (Nat.le_refl s.nextTaskId)
      rw [hw.woken _ hwoken] at hb
      cases hb
    have htask : Function.update s.tasks s.nextTaskId (.new isFuture) i = s.tasks i :=
      Function.update_of_ne hne _ _
    simp only [htask] at hd
    exact (hn i hd hwoken).of_idle hidle rfl htask fun hq => hq
  | @wake thread id hidle =>
    intro i hd hwoken
    by_cases he : i = id
    · subst he
      exact Or.inr ⟨thread, .wakeLookup, by simp, rfl⟩
    · have hwoken' : s.woken i = true := by simpa [he] using hwoken
      exact (hn i hd hwoken').of_idle hidle rfl rfl fun hq => hq
  | cancel hidle _ =>
    intro i hd hwoken
    exact (hn i hd hwoken).of_idle hidle rfl rfl fun hq => hq
  | @pop worker id queue tasks hidle hpop =>
    intro i hd hwoken
    by_cases he : i = id
    · subst he
      exact Or.inr ⟨worker, .pollLoadDone, by simp, rfl⟩
    · refine (hn i hd hwoken).of_idle hidle rfl rfl ?_
      rintro ⟨q, hq⟩
      by_cases hqq : q = queue
      · subst hqq
        exact ⟨q, by simpa using ((popFrom_mem hpop i).mp hq).resolve_left he⟩
      · exact ⟨q, by simpa [hqq] using hq⟩
  | turn hrun => exact noneForgotten_turn hw hn _ hrun hok

/-! ## The law -/

/-- While each store of `reschedule` comes in time, no task is stranded: one that is not done
and was woken after its latest poll began is in a run queue, unless a wake or a poll of it is in
progress. -/
theorem no_woken_task_is_stranded_while_stores_are_in_time {s : Executor}
    (hs : Reaches step Initial StoresInTime s) : NoneStranded s := by
  have hwf : ∀ s, Reaches step Initial StoresInTime s → Wf s := fun s hs =>
    hs.invariant (fun _ h0 => wf_initial h0) fun _ _ _ hw _ h => wf_step hw h
  have hn : NoneForgotten s := by
    refine hs.invariant_with hwf (fun s h0 id _ hwoken => ?_) fun _ _ _ hw hn hok h =>
      noneForgotten_step hw hn hok h
    rw [h0.woken] at hwoken
    cases hwoken
  intro id hquiet hd hwoken
  rcases hn id hd hwoken with hq | ⟨th, op, hrun, hkeep⟩
  · exact hq
  · obtain ⟨hwake, hpoll⟩ := hquiet th op hrun
    rcases keeps_at_work op hkeep with h | h
    · rw [hwake] at h
      cases h
    · rw [hpoll] at h
      cases h

/-- Whether a step is no store of `reschedule`, or one beside a poll by this worker that has yet
to make its last swap. -/
def storesBeside (worker : Nat) (s : Executor) : Action → Bool
  | .turn thread _ => (s.running thread).all fun t =>
    !decide (t.2 = .wakeStoreReschedule ∨ t.2 = .pollStoreReschedule) ||
      (s.running worker).any fun p => p.1 == t.1 && (p.2.carries || p.2.willSwap)
  | _ => true

theorem storesInTime_of_beside {worker : Nat} {s : Executor} {a : Action}
    (h : storesBeside worker s a = true) : StoresInTime s a := by
  cases a with
  | turn thread pending =>
    intro id op hrun hstores
    right
    simp only [storesBeside, hrun, Option.all_some, Bool.or_eq_true, Bool.not_eq_true',
      decide_eq_false_iff_not, Option.any_eq_true, Bool.and_eq_true, beq_iff_eq] at h
    obtain ⟨⟨i, other⟩, hother, rfl, hlooks⟩ := h.resolve_left fun hno => hno hstores
    refine .inr ⟨worker, other, hother, ?_⟩
    rw [Bool.or_eq_true]
    exact hlooks
  | _ => trivial

/-- Task 1 is spawned, and worker 0 polls it. The wake of thread 6 finds it polling and stores
`reschedule` before the poll returns; the last swaps of the poll put the task back in a queue. -/
theorem no_woken_task_is_stranded_in_a_run :
    let as : List Action := [Action.spawn 5 true] ++ List.replicate 4 (Action.turn 5 true) ++
      [Action.pop 0 (.worker 0)] ++ List.replicate 6 (Action.turn 0 true) ++ [Action.wake 6 1] ++
      List.replicate 4 (Action.turn 6 true) ++ List.replicate 9 (Action.turn 0 true)
    ∃ s, run step (newExecutor 2) as = some s ∧ s.running 0 = none ∧ s.running 6 = none ∧
      (s.tasks 1).done = false ∧ s.woken 1 = true ∧ s.queues .injector = [1] ∧
      NoneStranded s := by
  intro as
  refine ⟨_, rfl, rfl, rfl, rfl, rfl, rfl, ?_⟩
  apply no_woken_task_is_stranded_while_stores_are_in_time
  exact Reaches.of_tested_run (@storesInTime_of_beside 0)
    (.start (newExecutor_initial (by decide))) (rfl : run _ (newExecutor 2) as = some _)

/-- A run leaves alone each thread that takes no step in it. -/
theorem run_running {s s' : Executor} {ls : List Action} {th : Nat}
    (h : run step s ls = some s') (hne : ∀ a ∈ ls, a.thread ≠ th) :
    s'.running th = s.running th := by
  induction ls generalizing s with
  | nil => cases h; rfl
  | cons a ls ih =>
    rw [run_cons, Option.bind_eq_some_iff] at h
    obtain ⟨u, hu, hrest⟩ := h
    have hth : th ≠ a.thread := fun e => hne a List.mem_cons_self e.symm
    rw [ih hrest fun b hb => hne b (List.mem_cons_of_mem a hb)]
    cases step_cases hu with
    | spawn | wake | cancel | pop => exact Function.update_of_ne hth _ _
    | turn => exact after_running_of_ne hth

/-- One worker polls task 1, and a wake finds it polling. The poll swaps `reschedule` for the
last time and returns, and only then the wake stores the flag. -/
def lateWakeStore : List Action :=
  [Action.spawn 5 true] ++ List.replicate 4 (Action.turn 5 true) ++ [Action.pop 0 (.worker 0)] ++
    List.replicate 6 (Action.turn 0 true) ++ [Action.wake 6 1] ++
    List.replicate 3 (Action.turn 6 true) ++
    List.replicate 7 (Action.turn 0 true) ++ [Action.turn 6 true]

/-- Worker 0 has taken the poll lock of task 1 and cleared `queued` when a wake queues another
copy. Worker 1 pops it, finds the poll lock held, and stores `reschedule` after the last swap of
worker 0. With `queued` set for good, the wakes that follow queue nothing either. -/
def lateWorkerStore : List Action :=
  [Action.spawn 5 true] ++ List.replicate 4 (Action.turn 5 true) ++ [Action.pop 0 (.worker 0)] ++
    List.replicate 4 (Action.turn 0 true) ++ [Action.wake 6 1] ++
    List.replicate 5 (Action.turn 6 true) ++
    [Action.pop 1 .injector] ++ List.replicate 2 (Action.turn 1 true) ++
    List.replicate 9 (Action.turn 0 true) ++
    [Action.turn 1 true]

/-- What of a state shows that task 1 is stranded, when only these threads took steps. -/
def Executor.view (s : Executor) (ths : List Nat) (queue : QueueId) :
    List (Option (Nat × Op)) × List Nat × Bool × Bool :=
  (ths.map s.running, s.queues queue, (s.tasks 1).done, s.woken 1)

/-- A run after which its threads are idle again, and task 1 is woken and in no queue. -/
theorem stranded_of_view {workerCount : Nat} {ls : List Action} (ths : List Nat)
    (hths : ∀ a ∈ ls, a.thread ∈ ths)
    (hview : ∀ queue, (run step (newExecutor workerCount) ls).map (·.view ths queue) =
      some (ths.map fun _ => none, [], false, true)) :
    ∃ s, run step (newExecutor workerCount) ls = some s ∧ (∀ th, s.running th = none) ∧
      ¬ NoneStranded s := by
  cases hs : run step (newExecutor workerCount) ls with
  | none => have := hview .injector; rw [hs] at this; cases this
  | some s =>
    have hv : ∀ queue, s.view ths queue = (ths.map fun _ => none, [], false, true) := by
      intro queue
      have := hview queue
      rw [hs] at this
      exact Option.some.inj this
    have hidle : ∀ th, s.running th = none := by
      intro th
      by_cases hth : th ∈ ths
      · have hmap := congrArg (·.1) (hv .injector)
        exact List.map_inj_left.mp hmap th hth
      · exact run_running hs fun a ha e => hth (e ▸ hths a ha)
    refine ⟨s, rfl, hidle, fun hn => ?_⟩
    have hd : (s.tasks 1).done = false := congrArg (·.2.2.1) (hv .injector)
    have hw : s.woken 1 = true := congrArg (·.2.2.2) (hv .injector)
    have hquiet : Quiet s 1 := by
      intro th op hrun
      rw [hidle] at hrun
      cases hrun
    obtain ⟨q, hq⟩ := hn 1 hquiet hd hw
    have hempty : s.queues q = [] := congrArg (·.2.1) (hv q)
    rw [hempty] at hq
    cases hq

/-- A store of `reschedule` after the last swap strands the task, whether a wake makes it or a
worker that found the poll lock held: no thread is at work, and task 1, not done and woken since
its poll began, is in no queue. -/
theorem a_late_store_strands_its_task :
    (Initial (newExecutor 1) ∧ ∃ s, run step (newExecutor 1) lateWakeStore = some s ∧
      (∀ th, s.running th = none) ∧ ¬ NoneStranded s) ∧
    (Initial (newExecutor 2) ∧ ∃ s, run step (newExecutor 2) lateWorkerStore = some s ∧
      (∀ th, s.running th = none) ∧ ¬ NoneStranded s) := by
  refine ⟨⟨newExecutor_initial (by decide), stranded_of_view [0, 5, 6] (by decide) ?_⟩,
    newExecutor_initial (by decide), stranded_of_view [0, 1, 5, 6] (by decide) ?_⟩
  · rintro (_ | _ | w) <;> rfl
  · rintro (_ | _ | w) <;> rfl

/-! ## The poll lock -/

/-- The thread at this operation holds the poll lock of its task. -/
def Op.holdsLock : Op → Bool
  | .pollLoadDoneLocked | .pollStoreQueued | .pollStorePolling | .pollLoadCancel
      | .pollCancelPolling
  | .pollCancelDone | .pollCancelUnregister | .pollReturn | .pollUser | .pollLeave _
  | .pollLoadCancelPending | .pollStoreDone | .pollUnregister | .pollSwapReschedule | .pollUnlock _
  | .cancelSwapDone | .cancelUnregister | .cancelUnlock => true
  | _ => false

def Executor.Holds (s : Executor) (id th : Nat) : Prop :=
  ∃ op, s.running th = some (id, op) ∧ op.holdsLock = true

/-- A poll lock that is taken has one holder. -/
def OneHolder (s : Executor) : Prop :=
  ∀ id, ∃ k, Guarded (s.Holds id) (if (s.tasks id).pollLock then some k else none)

theorem turn_lock {worker : Nat} {pending : Bool} {t : Task} (op : Op) (th k : Nat) :
    ∃ k', Handed th (op.holdsLock = true)
      (∃ op', (turn worker pending t op).next = some op' ∧ op'.holdsLock = true)
      (if t.pollLock then some k else none)
      (if (turn worker pending t op).task.pollLock then some k' else none) := by
  cases op with
  | pollTryLock | cancelTryLock =>
    cases hl : t.pollLock with
    | false => exact ⟨th, .inr (.inl ⟨rfl, by simp [turn, Turn.go, hl]⟩)⟩
    | true =>
      refine ⟨k, .inl ?_⟩
      simp only [turn, hl]
      split_ifs <;> simp_all [Turn.go, Turn.ret, Op.holdsLock]
  | pollReturn | pollUnlock | cancelUnlock =>
    exact ⟨k, .inr (.inr ⟨rfl, .inl rfl, by simp [turn, Turn.go, Turn.ret, Op.holdsLock]⟩)⟩
  | _ =>
    refine ⟨k, .inl ?_⟩
    simp only [turn]
    split_ifs <;> simp_all [Turn.go, Turn.ret, Turn.push, Op.holdsLock]

/-- A thread that starts to run on a task does not hold its lock yet. -/
theorem Executor.Holds.of_start {s s' : Executor} {th i : Nat} {op : Op} (ho : op.holdsLock = false)
    (hrun : s'.running = Function.update s.running th (some (i, op))) {id u : Nat}
    (h : s'.Holds id u) : s.Holds id u := by
  obtain ⟨op', hu, ho'⟩ := h
  rw [hrun] at hu
  obtain he | hu := update_running hu
  · cases he
    rw [ho] at ho'
    cases ho'
  · exact ⟨op', hu, ho'⟩

theorem oneHolder_step {s s' : Executor} {a : Action} (hw : Wf s) (h : OneHolder s)
    (hs : step s a = some s') : OneHolder s' := by
  intro id
  obtain ⟨k, hk⟩ := h id
  cases step_cases hs with
  | spawn _ =>
    refine ⟨k, ?_⟩
    by_cases hid : id = s.nextTaskId
    · subst hid
      refine .free fun u hu => ?_
      obtain ⟨op, hrun, ho⟩ := hu.of_start rfl rfl
      rw [hw.untouched _ _ _ le_rfl hrun] at ho
      cases ho
    · simp only [Function.update_of_ne hid]
      exact fun u hu => hk u (hu.of_start rfl rfl)
  | wake _ | cancel _ _ | pop _ _ => exact ⟨k, fun u hu => hk u (hu.of_start rfl rfl)⟩
  | @turn th i op pending hrun =>
    by_cases hi : id = i
    · subst hi
      obtain ⟨k', hmove⟩ := @turn_lock (s.next % s.workerCount) pending (s.tasks id) op th k
      refine ⟨k', ?_⟩
      rw [after_tasks_self]
      refine hk.handed (t := th) (fun u hu hold => ?_) ?_
      · obtain ⟨op', hu', ho'⟩ := hold
        exact ⟨op', (after_running_of_ne hu).symm.trans hu', ho'⟩
      · simpa [Executor.Holds, hrun, after_running_self] using hmove
    · refine ⟨k, ?_⟩
      rw [after_tasks_of_ne hi]
      rintro u ⟨op', hu, ho⟩
      obtain ⟨-, hu⟩ | ⟨-, he, -⟩ := after_running hu
      · exact hk u ⟨op', hu, ho⟩
      · exact absurd he hi

/-- In every run, two threads that hold the poll lock of a task are one: no two run its body or
complete it together. -/
theorem one_thread_polls_a_task {s : Executor} (hs : Reachable step Initial s) {id th th' : Nat}
    (h : s.Holds id th) (h' : s.Holds id th') : th = th' ∧ (s.tasks id).pollLock = true := by
  have hone : OneHolder s := hs.invariant_with
    (fun _ hs => hs.invariant (fun _ h0 => wf_initial h0) fun _ _ _ hw _ h => wf_step hw h)
    (fun s h0 id => ⟨0, .free fun u ⟨op, hu, _⟩ => by rw [h0.running] at hu; cases hu⟩)
    fun _ _ _ hw hn _ h => oneHolder_step hw hn h
  obtain ⟨k, hk⟩ := hone id
  refine ⟨hk.exclusive h h', eq_true_of_ne_false fun hfree => ?_⟩
  rw [hfree] at hk
  exact hk.none th h

/-- A worker runs the body of the first task. -/
def firstPoll : List Action :=
  [Action.spawn 5 true] ++ List.replicate 4 (Action.turn 5 false) ++ [Action.pop 0 (.worker 0)] ++
    List.replicate 6 (Action.turn 0 false)

theorem one_thread_polls_the_first_task :
    ∃ s, run step (newExecutor 1) firstPoll = some s ∧ (s.tasks 1).pollLock = true := by
  have hrun : run step (newExecutor 1) firstPoll = some _ := rfl
  have hs := Reaches.of_run (.start (newExecutor_initial Nat.one_pos)) hrun
  refine ⟨_, hrun, (@one_thread_polls_a_task _ hs 1 0 0 ?_ ?_).2⟩ <;> exact ⟨.pollUser, rfl, rfl⟩

end runtime.threads
