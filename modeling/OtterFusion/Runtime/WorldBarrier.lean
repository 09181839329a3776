-- The world barrier of the collector (`gc.rs`): the mutators, the functions by which one of them
-- stops and goes on, and a collection that stops the others. A step of a thread is one atomic
-- operation, or a critical section that nothing can be seen in.
import Mathlib.Logic.Function.Basic
import OtterFusion.Base.Runs

open base.runs Function

namespace runtime.barrier

/-! ## The threads -/

/-- `Mutator::state`: `M_RUNNING`, `M_PARKED` and `M_NATIVE`. -/
inductive MutatorState
  | running
  | parked
  | native
  deriving DecidableEq, Repr

/-- A way to stop, with the roots that the thread took for it: `park_self`, `enter_native` with
`leave_native`, and two that take none, `enter_runtime_native_no_roots` with `leave_native` and
`thread_start`. -/
inductive Gate
  | park (taken : List Nat)
  | native (taken : List Nat)
  | idle
  | start
  deriving DecidableEq, Repr

/-- The next operation of a thread. -/
inductive Point
  /-- It has not touched `ME` yet. -/
  | absent
  /-- Code that takes no part in the barrier: that of the program, or of the runtime. -/
  | running
  /-- The way into a gate: the roots are stored, then the state. `thread_start` has none to
  store: it begins at the store of the state. -/
  | publish (gate : Gate)
  | store (gate : Gate)
  /-- The wait in native state. -/
  | blocked (gate : Gate)
  /-- `wait_for_resume`: the lock of `RESUME_GEN`, the load of `STOP` with it, the wait on
  `RESUME_CV`, and the time on the condition variable. -/
  | resumeLock (gate : Gate)
  | resumeTest (gate : Gate)
  | resumeWait (gate : Gate)
  | asleep (gate : Gate)
  /-- The load of `STOP` ahead of `WORLD`, in `leave_native` and `thread_start`. -/
  | test (gate : Gate)
  /-- The lock of `WORLD`, and then with it: the load of `STOP`, the unlock when it is set, the
  store of the state when it is clear, and the unlock after that. -/
  | lock (gate : Gate)
  | retest (gate : Gate)
  | drop (gate : Gate)
  | enter (gate : Gate)
  | leave (gate : Gate)
  /-- `run_collection`, without the turn and with it. -/
  | turnTaken
  | threshold
  | lockWorld
  | setStop
  /-- `stop_the_world`: one round over the states, with the mutators it has still to load. -/
  | quiesce
  | checking (rest : List Nat)
  | scan
  | gather (roots : List Nat)
  | gathering (rest roots : List Nat)
  /-- `collect`, and the three operations of `resume_the_world` and after it. -/
  | collecting (roots : List Nat)
  | clearStop (roots : List Nat)
  | notify
  | dropWorld
  /-- The drop of the `MutatorHandle`. -/
  | drain
  | retain
  | gone
  deriving DecidableEq, Repr

/-- A thread with its `Mutator`. `frames` is what `scan_stack_roots_from` finds on its stack;
only code at `running` changes it. -/
structure Thread where
  point : Point
  state : MutatorState
  roots : List Nat
  frames : List Nat

/-- The statics of the barrier; a mutex is its holder. `sleepers` wait on `RESUME_CV`. -/
structure Statics where
  mutators : List Nat
  mutatorsLock : Option Nat
  resumeGen : Option Nat
  sleepers : List Nat
  stop : Bool
  gcTurn : Option Nat
  world : Option Nat

structure Barrier where
  statics : Statics
  threads : Nat → Thread

/-! ## The steps -/

/-- What a thread does next, where it has a choice; `next` is its only operation. -/
inductive Act
  /-- The first use of `ME`, by `thread_start`. -/
  | register
  /-- Code that changes what the stack holds. -/
  | run (frames : List Nat)
  /-- `lang_gc_safepoint`, `runtime_safepoint`, and the test of `maybe_collect`. -/
  | safepoint
  | enterNative
  | enterRuntimeNativeNoRoots
  | leaveNative
  | runCollection
  /-- `still_over`. -/
  | stillOver (yes : Bool)
  /-- The end of `run_finalizers`, and of the turn. -/
  | endTurn
  | exit
  | next
  deriving DecidableEq, Repr

namespace Gate

/-- The state in which a thread stays at a gate. -/
def state : Gate → MutatorState
  | park _ | start => .parked
  | native _ | idle => .native

/-- The roots that it has published there. -/
def taken : Gate → List Nat
  | park taken | native taken => taken
  | idle | start => []

/-- What follows the store of the state. -/
def stopped : Gate → Point
  | park taken => .resumeLock (park taken)
  | native taken => .blocked (native taken)
  | idle => .blocked idle
  | start => .test start

/-- What follows when `STOP` was set under `WORLD`: `park_self` waits at once. -/
def again : Gate → Point
  | park taken => .resumeLock (park taken)
  | gate => .test gate

end Gate

/-- The states of the mutators that a round of `stop_the_world` and its gathering read. -/
def Barrier.stateOf (w : Barrier) (k : Nat) : MutatorState := (w.threads k).state

/-- One step of the thread `i`: the statics and the thread after it. -/
def threadStep (w : Barrier) (i : Nat) (a : Act) : Option (Statics × Thread) :=
  let s := w.statics
  let me := w.threads i
  let go (p : Point) : Option (Statics × Thread) := some (s, { me with point := p })
  match me.point, a with
  | .absent, .register =>
    if s.mutatorsLock = none then
      some ({ s with mutators := s.mutators ++ [i] },
        { me with point := .store .start, state := .running, roots := [] })
    else none
  | .running, .run frames => some (s, { me with frames })
  | .running, .safepoint => if s.stop then go (.publish (.park me.frames)) else go .running
  | .running, .enterNative => go (.publish (.native me.frames))
  | .running, .enterRuntimeNativeNoRoots => go (.publish .idle)
  | .running, .runCollection =>
    if s.gcTurn = none then some ({ s with gcTurn := some i }, { me with point := .threshold })
    else go .turnTaken
  | .running, .endTurn => if s.gcTurn = some i then some ({ s with gcTurn := none }, me) else none
  | .running, .exit => go .drain
  | .publish gate, .next => some (s, { me with point := .store gate, roots := gate.taken })
  | .store gate, .next => some (s, { me with point := gate.stopped, state := gate.state })
  | .blocked gate, .leaveNative => go (.test gate)
  | .resumeLock gate, .next =>
    if s.resumeGen = none then
      some ({ s with resumeGen := some i }, { me with point := .resumeTest gate })
    else none
  | .resumeTest gate, .next =>
    if s.stop then go (.resumeWait gate)
    else some ({ s with resumeGen := none }, { me with point := .lock gate })
  | .resumeWait gate, .next =>
    some ({ s with resumeGen := none, sleepers := i :: s.sleepers },
      { me with point := .asleep gate })
  -- A wake-up, by `notify_all` or spurious.
  | .asleep gate, .next =>
    some ({ s with sleepers := s.sleepers.filter (· ≠ i) }, { me with point := .resumeLock gate })
  | .test gate, .next => if s.stop then go (.resumeLock gate) else go (.lock gate)
  | .lock gate, .next =>
    if s.world = none then some ({ s with world := some i }, { me with point := .retest gate })
    else none
  | .retest gate, .next => if s.stop then go (.drop gate) else go (.enter gate)
  | .drop gate, .next => some ({ s with world := none }, { me with point := gate.again })
  | .enter gate, .next => some (s, { me with point := .leave gate, state := .running })
  | .leave _, .next => some ({ s with world := none }, { me with point := .running })
  | .turnTaken, .next => if s.stop then go (.publish (.park me.frames)) else go .running
  | .threshold, .stillOver yes =>
    if yes then go .lockWorld else some ({ s with gcTurn := none }, { me with point := .running })
  | .lockWorld, .next =>
    if s.world = none then some ({ s with world := some i }, { me with point := .setStop })
    else none
  | .setStop, .next => some ({ s with stop := true }, { me with point := .quiesce })
  | .quiesce, .next =>
    if s.mutatorsLock = none then
      some ({ s with mutatorsLock := some i }, { me with point := .checking s.mutators })
    else none
  | .checking [], .next => some ({ s with mutatorsLock := none }, { me with point := .scan })
  | .checking (k :: rest), .next =>
    if k ≠ i ∧ w.stateOf k = .running then
      some ({ s with mutatorsLock := none }, { me with point := .quiesce })
    else go (.checking rest)
  | .scan, .next => go (.gather me.frames)
  | .gather roots, .next =>
    if s.mutatorsLock = none then
      some ({ s with mutatorsLock := some i }, { me with point := .gathering s.mutators roots })
    else none
  | .gathering [] roots, .next =>
    some ({ s with mutatorsLock := none }, { me with point := .collecting roots })
  | .gathering (k :: rest) roots, .next =>
    if k = i then go (.gathering rest roots)
    else go (.gathering rest (roots ++ (w.threads k).roots))
  | .collecting roots, .next => go (.clearStop roots)
  | .clearStop _, .next => some ({ s with stop := false }, { me with point := .notify })
  | .notify, .next =>
    if s.resumeGen = none then some ({ s with sleepers := [] }, { me with point := .dropWorld })
    else none
  | .dropWorld, .next => some ({ s with world := none }, { me with point := .running })
  | .drain, .next => go .retain
  | .retain, .next =>
    if s.mutatorsLock = none then
      some ({ s with mutators := s.mutators.filter (· ≠ i) }, { me with point := .gone })
    else none
  | _, _ => none

/-- A step of the barrier: one thread, and what it does. -/
def step (w : Barrier) (l : Nat × Act) : Option Barrier :=
  (threadStep w l.1 l.2).map fun r => { statics := r.1, threads := update w.threads l.1 r.2 }

/-- What a step of the thread `i` can do: the statics and the thread after it. -/
inductive Moved (w : Barrier) (i : Nat) : Statics → Thread → Prop
  | register (hp : (w.threads i).point = .absent) (hl : w.statics.mutatorsLock = none) :
      Moved w i { w.statics with mutators := w.statics.mutators ++ [i] }
        { w.threads i with point := .store .start, state := .running, roots := [] }
  | run (hp : (w.threads i).point = .running) (frames : List Nat) :
      Moved w i w.statics { w.threads i with frames }
  | safepoint (hp : (w.threads i).point = .running) (h : w.statics.stop = true) :
      Moved w i w.statics { w.threads i with point := .publish (.park (w.threads i).frames) }
  | enterNative (hp : (w.threads i).point = .running) :
      Moved w i w.statics { w.threads i with point := .publish (.native (w.threads i).frames) }
  | enterIdle (hp : (w.threads i).point = .running) :
      Moved w i w.statics { w.threads i with point := .publish .idle }
  | takeTurn (hp : (w.threads i).point = .running) (h : w.statics.gcTurn = none) :
      Moved w i { w.statics with gcTurn := some i } { w.threads i with point := .threshold }
  | turnTaken (hp : (w.threads i).point = .running) (h : ¬ w.statics.gcTurn = none) :
      Moved w i w.statics { w.threads i with point := .turnTaken }
  | endTurn (hp : (w.threads i).point = .running) (h : w.statics.gcTurn = some i) :
      Moved w i { w.statics with gcTurn := none } (w.threads i)
  | exit (hp : (w.threads i).point = .running) :
      Moved w i w.statics { w.threads i with point := .drain }
  | stay (hp : (w.threads i).point = .running) (h : ¬ w.statics.stop = true) :
      Moved w i w.statics { w.threads i with point := .running }
  | publish (gate : Gate) (hp : (w.threads i).point = .publish gate) :
      Moved w i w.statics { w.threads i with point := .store gate, roots := gate.taken }
  | store (gate : Gate) (hp : (w.threads i).point = .store gate) :
      Moved w i w.statics { w.threads i with point := gate.stopped, state := gate.state }
  | leaveNative (gate : Gate) (hp : (w.threads i).point = .blocked gate) :
      Moved w i w.statics { w.threads i with point := .test gate }
  | resumeLock (gate : Gate) (hp : (w.threads i).point = .resumeLock gate)
      (h : w.statics.resumeGen = none) :
      Moved w i { w.statics with resumeGen := some i }
        { w.threads i with point := .resumeTest gate }
  | resumeWait (gate : Gate) (hp : (w.threads i).point = .resumeTest gate)
      (h : w.statics.stop = true) :
      Moved w i w.statics { w.threads i with point := .resumeWait gate }
  | resumed (gate : Gate) (hp : (w.threads i).point = .resumeTest gate)
      (h : ¬ w.statics.stop = true) :
      Moved w i { w.statics with resumeGen := none } { w.threads i with point := .lock gate }
  | sleep (gate : Gate) (hp : (w.threads i).point = .resumeWait gate) :
      Moved w i { w.statics with resumeGen := none, sleepers := i :: w.statics.sleepers }
        { w.threads i with point := .asleep gate }
  | wake (gate : Gate) (hp : (w.threads i).point = .asleep gate) :
      Moved w i { w.statics with sleepers := w.statics.sleepers.filter (· ≠ i) }
        { w.threads i with point := .resumeLock gate }
  | mustWait (gate : Gate) (hp : (w.threads i).point = .test gate)
      (h : w.statics.stop = true) :
      Moved w i w.statics { w.threads i with point := .resumeLock gate }
  | mayLock (gate : Gate) (hp : (w.threads i).point = .test gate)
      (h : ¬ w.statics.stop = true) :
      Moved w i w.statics { w.threads i with point := .lock gate }
  | lock (gate : Gate) (hp : (w.threads i).point = .lock gate) (h : w.statics.world = none) :
      Moved w i { w.statics with world := some i } { w.threads i with point := .retest gate }
  | refused (gate : Gate) (hp : (w.threads i).point = .retest gate)
      (h : w.statics.stop = true) :
      Moved w i w.statics { w.threads i with point := .drop gate }
  | allowed (gate : Gate) (hp : (w.threads i).point = .retest gate)
      (h : ¬ w.statics.stop = true) :
      Moved w i w.statics { w.threads i with point := .enter gate }
  | drop (gate : Gate) (hp : (w.threads i).point = .drop gate) :
      Moved w i { w.statics with world := none } { w.threads i with point := gate.again }
  | enter (gate : Gate) (hp : (w.threads i).point = .enter gate) :
      Moved w i w.statics { w.threads i with point := .leave gate, state := .running }
  | leave (gate : Gate) (hp : (w.threads i).point = .leave gate) :
      Moved w i { w.statics with world := none } { w.threads i with point := .running }
  | cooperate (hp : (w.threads i).point = .turnTaken) (h : w.statics.stop = true) :
      Moved w i w.statics { w.threads i with point := .publish (.park (w.threads i).frames) }
  | giveUp (hp : (w.threads i).point = .turnTaken) (h : ¬ w.statics.stop = true) :
      Moved w i w.statics { w.threads i with point := .running }
  | stillOver (hp : (w.threads i).point = .threshold) :
      Moved w i w.statics { w.threads i with point := .lockWorld }
  | notOver (hp : (w.threads i).point = .threshold) :
      Moved w i { w.statics with gcTurn := none } { w.threads i with point := .running }
  | lockWorld (hp : (w.threads i).point = .lockWorld) (h : w.statics.world = none) :
      Moved w i { w.statics with world := some i } { w.threads i with point := .setStop }
  | setStop (hp : (w.threads i).point = .setStop) :
      Moved w i { w.statics with stop := true } { w.threads i with point := .quiesce }
  | look (hp : (w.threads i).point = .quiesce) (h : w.statics.mutatorsLock = none) :
      Moved w i { w.statics with mutatorsLock := some i }
        { w.threads i with point := .checking w.statics.mutators }
  | quiet (hp : (w.threads i).point = .checking []) :
      Moved w i { w.statics with mutatorsLock := none } { w.threads i with point := .scan }
  | pending (k : Nat) (rest : List Nat) (hp : (w.threads i).point = .checking (k :: rest))
      (h : k ≠ i ∧ w.stateOf k = .running) :
      Moved w i { w.statics with mutatorsLock := none } { w.threads i with point := .quiesce }
  | checked (k : Nat) (rest : List Nat) (hp : (w.threads i).point = .checking (k :: rest))
      (h : ¬ (k ≠ i ∧ w.stateOf k = .running)) :
      Moved w i w.statics { w.threads i with point := .checking rest }
  | scan (hp : (w.threads i).point = .scan) :
      Moved w i w.statics { w.threads i with point := .gather (w.threads i).frames }
  | gather (roots : List Nat) (hp : (w.threads i).point = .gather roots)
      (h : w.statics.mutatorsLock = none) :
      Moved w i { w.statics with mutatorsLock := some i }
        { w.threads i with point := .gathering w.statics.mutators roots }
  | gathered (roots : List Nat) (hp : (w.threads i).point = .gathering [] roots) :
      Moved w i { w.statics with mutatorsLock := none }
        { w.threads i with point := .collecting roots }
  | passOver (k : Nat) (rest roots : List Nat)
      (hp : (w.threads i).point = .gathering (k :: rest) roots) (h : k = i) :
      Moved w i w.statics { w.threads i with point := .gathering rest roots }
  | extend (k : Nat) (rest roots : List Nat)
      (hp : (w.threads i).point = .gathering (k :: rest) roots) (h : ¬ k = i) :
      Moved w i w.statics
        { w.threads i with point := .gathering rest (roots ++ (w.threads k).roots) }
  | collected (roots : List Nat) (hp : (w.threads i).point = .collecting roots) :
      Moved w i w.statics { w.threads i with point := .clearStop roots }
  | clearStop (roots : List Nat) (hp : (w.threads i).point = .clearStop roots) :
      Moved w i { w.statics with stop := false } { w.threads i with point := .notify }
  | notify (hp : (w.threads i).point = .notify) (h : w.statics.resumeGen = none) :
      Moved w i { w.statics with sleepers := [] } { w.threads i with point := .dropWorld }
  | dropWorld (hp : (w.threads i).point = .dropWorld) :
      Moved w i { w.statics with world := none } { w.threads i with point := .running }
  | drain (hp : (w.threads i).point = .drain) :
      Moved w i w.statics { w.threads i with point := .retain }
  | retain (hp : (w.threads i).point = .retain) (h : w.statics.mutatorsLock = none) :
      Moved w i { w.statics with mutators := w.statics.mutators.filter (· ≠ i) }
        { w.threads i with point := .gone }

theorem Moved.of_threadStep {w : Barrier} {i : Nat} {a : Act} {r : Statics × Thread}
    (h : threadStep w i a = some r) : Moved w i r.1 r.2 := by
  unfold threadStep at h
  dsimp only at h
  split at h
  all_goals try split at h
  all_goals cases h
  exacts [.register ‹_› ‹_›, .run ‹_› _, .safepoint ‹_› ‹_›, .stay ‹_› ‹_›, .enterNative ‹_›,
    .enterIdle ‹_›, .takeTurn ‹_› ‹_›, .turnTaken ‹_› ‹_›, .endTurn ‹_› ‹_›, .exit ‹_›,
    .publish _ ‹_›, .store _ ‹_›, .leaveNative _ ‹_›, .resumeLock _ ‹_› ‹_›,
    .resumeWait _ ‹_› ‹_›, .resumed _ ‹_› ‹_›, .sleep _ ‹_›, .wake _ ‹_›, .mustWait _ ‹_› ‹_›,
    .mayLock _ ‹_› ‹_›, .lock _ ‹_› ‹_›, .refused _ ‹_› ‹_›, .allowed _ ‹_› ‹_›, .drop _ ‹_›,
    .enter _ ‹_›, .leave _ ‹_›, .cooperate ‹_› ‹_›, .giveUp ‹_› ‹_›, .stillOver ‹_›, .notOver ‹_›,
    .lockWorld ‹_› ‹_›, .setStop ‹_›, .look ‹_› ‹_›, .quiet ‹_›, .pending _ _ ‹_› ‹_›,
    .checked _ _ ‹_› ‹_›, .scan ‹_›, .gather _ ‹_› ‹_›, .gathered _ ‹_›, .passOver _ _ _ ‹_› ‹_›,
    .extend _ _ _ ‹_› ‹_›, .collected _ ‹_›, .clearStop _ ‹_›, .notify ‹_› ‹_›,
    .dropWorld ‹_›, .drain ‹_›, .retain ‹_› ‹_›]

/-- A step of the barrier is a move of one thread. -/
theorem moved_of_step {w t : Barrier} {l : Nat × Act} (h : step w l = some t) :
    ∃ s th, Moved w l.1 s th ∧ t = { statics := s, threads := update w.threads l.1 th } := by
  unfold step at h
  rw [Option.map_eq_some_iff] at h
  obtain ⟨r, hr, rfl⟩ := h
  exact ⟨r.1, r.2, .of_threadStep hr, rfl⟩

end runtime.barrier
