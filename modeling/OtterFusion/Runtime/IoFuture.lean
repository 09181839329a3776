-- One IO future (`async_rt.rs`): its polls, the helper thread that runs the operation, and its
-- cancellations, one atomic operation or critical section at a time. A lock that an `if let`
-- takes is held to the end of its body.
import OtterFusion.Base.Runs
import OtterFusion.Runtime.IoResults

open base.runs Function

namespace runtime.io

/-! ## The parties -/

/-- The next operation of a thread in `io_poll`. The encoded text stands for its pointer. -/
inductive Poll
  | idle
  /-- It has the cell. -/
  | found
  /-- It has the result, and the lock of the result. -/
  | took (encoded : String)
  /-- The entry is removed also. -/
  | removed (encoded : String)
  /-- There was no result. -/
  | empty
  /-- It has swapped `started` first. -/
  | first
  | armed (reg : Nat)
  /-- `reactor_cancel`, up to the swap of `active` and after it. -/
  | giveUp (reg : Nat)
  | unlist (reg : Nat)
  /-- It has found the future not cancelled. -/
  | keep (reg : Nat)
  | kept
  deriving DecidableEq, Repr

/-- The next operation of a thread in `io_cancel_id`. From the removal of the entry on it holds
the lock of the registry. -/
inductive Cancel
  | idle
  | removed
  | marked
  /-- `reactor_cancel`, with the lock of the registration. -/
  | giveUp (reg : Nat)
  | unlist (reg : Nat)
  | drained
  /-- It has the result, and the lock of the result. -/
  | took (encoded : String)
  | discarded (encoded : String)
  deriving DecidableEq, Repr

/-- The next operation of the helper thread. -/
inductive Helper
  | absent
  | running
  /-- `io_complete`, up to the lock of the result. -/
  | completing (encoded : String)
  | late (encoded : String)
  | building (encoded : String)
  | rooted (encoded : String)
  /-- With the lock of the result. -/
  | locked (encoded : String)
  | refused (encoded : String)
  | released (encoded : String)
  | storing (encoded : String)
  | stored
  /-- `reactor_wake_ready`, up to the swap of `active` and after the removal of the waiter. -/
  | waking (reg : Nat)
  | firing (reg : Nat)
  | done
  deriving DecidableEq, Repr

/-- Who holds the lock of the result. -/
inductive Party
  | poll (i : Nat)
  | cancel (j : Nat)
  | helper
  deriving DecidableEq, Repr

/-! ## The state -/

/-- An IO future: its entry in the registry, its `IoCell`, the waiters of the reactor as far as
they are its own, and the threads that are in one of its functions. The last six fields are
history: what the operation came to, how often the result was pinned and unpinned, what polls
have returned as `Ready` (a null pointer is none), the handles released by a discard, and the
calls of wakers. -/
structure IoFuture where
  registered : Bool
  registryHolder : Option Nat
  op : IoOp
  started : Bool
  cancelled : Bool
  result : Option String
  resultHolder : Option Party
  registration : Option Nat
  registrationHolder : Option Nat
  nextReg : Nat
  waiters : Nat → Bool
  active : Nat → Bool
  polls : Nat → Poll
  cancels : Nat → Cancel
  helper : Helper
  outcome : Option Outcome
  pinned : Nat
  unpinned : Nat
  readies : List (Option String)
  released : List Int
  wakes : Nat

namespace IoFuture

variable (s : IoFuture)

/-- A poll goes on. -/
def poll (i : Nat) (p : Poll) : IoFuture := { s with polls := update s.polls i p }

/-- A cancellation goes on. -/
def cancel (j : Nat) (c : Cancel) : IoFuture := { s with cancels := update s.cancels j c }

@[simp] theorem poll_polls (i : Nat) (p : Poll) : (s.poll i p).polls = update s.polls i p := rfl

@[simp] theorem cancel_cancels (j : Nat) (c : Cancel) :
    (s.cancel j c).cancels = update s.cancels j c := rfl

/-- `io_discard_cancelled_result`. -/
def discard (encoded : String) : IoFuture :=
  { s with released := (s.op.discard encoded).toList ++ s.released }

/-- `reactor_register`. -/
def register : IoFuture :=
  { s with
    nextReg := s.nextReg + 1
    waiters := update s.waiters s.nextReg true
    active := update s.active s.nextReg true }

/-- A registration is no longer active. -/
def deactivate (reg : Nat) : IoFuture := { s with active := update s.active reg false }

/-- A waiter leaves the table. -/
def unlist (reg : Nat) : IoFuture := { s with waiters := update s.waiters reg false }

end IoFuture

/-! ## Steps -/

/-- What happens next: an operation of a poll, where a helper thread may fail to start, of a
cancellation, or of the helper, where the operation comes to something. -/
inductive Action
  | poll (i : Nat) (spawns : Bool)
  | cancel (j : Nat)
  | helper (outcome : Outcome)

/-- `io_poll`. -/
def pollStep (s : IoFuture) (i : Nat) (spawns : Bool) : Option IoFuture :=
  match s.polls i with
  | .idle =>
    if s.registryHolder ≠ none then none
    else if s.registered then some (s.poll i .found)
    else some { s with readies := none :: s.readies }
  | .found =>
    if s.resultHolder ≠ none then none
    else match s.result with
      | some e => some { s.poll i (.took e) with result := none, resultHolder := some (.poll i) }
      | none => some (s.poll i .empty)
  | .took e =>
    if s.registryHolder ≠ none then none
    else some { s.poll i (.removed e) with registered := false }
  | .removed e =>
    some { s.poll i .idle with
      unpinned := s.unpinned + 1, readies := some e :: s.readies, resultHolder := none }
  | .empty =>
    if s.started then some (s.poll i .idle) else some { s.poll i .first with started := true }
  | .first => some (s.register.poll i (.armed s.nextReg))
  | .armed reg => if s.cancelled then some (s.poll i (.giveUp reg)) else some (s.poll i (.keep reg))
  | .giveUp reg =>
    if s.active reg then some ((s.deactivate reg).poll i (.unlist reg)) else some (s.poll i .idle)
  | .unlist reg => some ((s.unlist reg).poll i .idle)
  | .keep reg =>
    if s.registrationHolder ≠ none then none
    else some { s.poll i .kept with registration := some reg }
  | .kept =>
    some { s.poll i .idle with helper := if spawns then .running else s.helper }

/-- `io_cancel_id`. -/
def cancelStep (s : IoFuture) (j : Nat) : Option IoFuture :=
  match s.cancels j with
  | .idle =>
    if s.registryHolder ≠ none then none
    else if s.registered then
      some { s.cancel j .removed with registered := false, registryHolder := some j }
    else some s
  | .removed => some { s.cancel j .marked with cancelled := true }
  | .marked =>
    if s.registrationHolder ≠ none then none
    else match s.registration with
      | some reg =>
        some { s.cancel j (.giveUp reg) with registration := none, registrationHolder := some j }
      | none => some (s.cancel j .drained)
  | .giveUp reg =>
    if s.active reg then some ((s.deactivate reg).cancel j (.unlist reg))
    else some { s.cancel j .drained with registrationHolder := none }
  | .unlist reg => some { (s.unlist reg).cancel j .drained with registrationHolder := none }
  | .drained =>
    if s.resultHolder ≠ none then none
    else match s.result with
      | some e =>
        some { s.cancel j (.took e) with result := none, resultHolder := some (.cancel j) }
      | none => some { s.cancel j .idle with registryHolder := none }
  | .took e => some ((s.discard e).cancel j (.discarded e))
  | .discarded _ =>
    some { s.cancel j .idle with
      unpinned := s.unpinned + 1, resultHolder := none, registryHolder := none }

/-- The thread of `io_spawn_worker`, with `io_complete`. -/
def helperStep (s : IoFuture) (o : Outcome) : Option IoFuture :=
  match s.helper with
  | .absent | .done => none
  | .running =>
    if s.op.CanEnd o then
      some { s with outcome := some o, helper := .completing (s.op.encode o) }
    else none
  | .completing e =>
    if s.cancelled then some { s with helper := .late e } else some { s with helper := .building e }
  | .late e => some { s.discard e with helper := .done }
  | .building e => some { s with pinned := s.pinned + 1, helper := .rooted e }
  | .rooted e =>
    if s.resultHolder ≠ none then none
    else some { s with resultHolder := some .helper, helper := .locked e }
  | .locked e =>
    if s.cancelled then some { s with helper := .refused e }
    else some { s with helper := .storing e }
  | .refused e => some { s.discard e with helper := .released e }
  | .released _ =>
    some { s with unpinned := s.unpinned + 1, resultHolder := none, helper := .done }
  | .storing e => some { s with result := some e, helper := .stored }
  | .stored =>
    if s.registrationHolder ≠ none then none
    else match s.registration with
      | some reg => some { s with
          registration := none, resultHolder := none, helper := .waking reg }
      | none => some { s with resultHolder := none, helper := .done }
  | .waking reg =>
    if s.waiters reg then some { s.unlist reg with helper := .firing reg }
    else some { s with helper := .done }
  | .firing reg =>
    if s.active reg then some { s.deactivate reg with wakes := s.wakes + 1, helper := .done }
    else some { s with helper := .done }

/-- One operation of a thread. -/
def step (s : IoFuture) : Action → Option IoFuture
  | .poll i spawns => pollStep s i spawns
  | .cancel j => cancelStep s j
  | .helper o => helperStep s o

/-- `lang_io_future`. -/
def langIoFuture (op : IoOp) : IoFuture where
  registered := true
  registryHolder := none
  op := op
  started := false
  cancelled := false
  result := none
  resultHolder := none
  registration := none
  registrationHolder := none
  nextReg := 1
  waiters := fun _ => false
  active := fun _ => false
  polls := fun _ => .idle
  cancels := fun _ => .idle
  helper := .absent
  outcome := none
  pinned := 0
  unpinned := 0
  readies := []
  released := []
  wakes := 0

/-- A future that is just made. -/
def Initial (s : IoFuture) : Prop := ∃ op, s = langIoFuture op

/-! ### What a step can do -/

/-- The operations of `io_poll`. -/
inductive PollMove (s : IoFuture) (i : Nat) : IoFuture → Prop
  | found (hpoll : s.polls i = .idle) (hregistered : s.registered = true) :
      PollMove s i (s.poll i .found)
  | null (hpoll : s.polls i = .idle) (hregistered : s.registered = false) :
      PollMove s i { s with readies := none :: s.readies }
  | took {e : String} (hpoll : s.polls i = .found) (hresult : s.result = some e)
      (hfree : s.resultHolder = none) :
      PollMove s i { s.poll i (.took e) with result := none, resultHolder := some (.poll i) }
  | empty (hpoll : s.polls i = .found) (hresult : s.result = none) :
      PollMove s i (s.poll i .empty)
  | removed {e : String} (hpoll : s.polls i = .took e) (hfree : s.registryHolder = none) :
      PollMove s i { s.poll i (.removed e) with registered := false }
  | ready {e : String} (hpoll : s.polls i = .removed e) :
      PollMove s i { s.poll i .idle with
        unpinned := s.unpinned + 1, readies := some e :: s.readies, resultHolder := none }
  | again (hpoll : s.polls i = .empty) (hstarted : s.started = true) :
      PollMove s i (s.poll i .idle)
  | first (hpoll : s.polls i = .empty) (hstarted : s.started = false) :
      PollMove s i { s.poll i .first with started := true }
  | register (hpoll : s.polls i = .first) :
      PollMove s i (s.register.poll i (.armed s.nextReg))
  | giveUp {reg : Nat} (hpoll : s.polls i = .armed reg) (hcancelled : s.cancelled = true) :
      PollMove s i (s.poll i (.giveUp reg))
  | keep {reg : Nat} (hpoll : s.polls i = .armed reg) (hcancelled : s.cancelled = false) :
      PollMove s i (s.poll i (.keep reg))
  | deactivate {reg : Nat} (hpoll : s.polls i = .giveUp reg) (hactive : s.active reg = true) :
      PollMove s i ((s.deactivate reg).poll i (.unlist reg))
  | inactive {reg : Nat} (hpoll : s.polls i = .giveUp reg) (hactive : s.active reg = false) :
      PollMove s i (s.poll i .idle)
  | unlist {reg : Nat} (hpoll : s.polls i = .unlist reg) :
      PollMove s i ((s.unlist reg).poll i .idle)
  | kept {reg : Nat} (hpoll : s.polls i = .keep reg) (hfree : s.registrationHolder = none) :
      PollMove s i { s.poll i .kept with registration := some reg }
  | spawned (hpoll : s.polls i = .kept) : PollMove s i { s.poll i .idle with helper := .running }
  | notSpawned (hpoll : s.polls i = .kept) : PollMove s i (s.poll i .idle)

theorem pollStep_moves {s t : IoFuture} {i : Nat} {spawns : Bool}
    (h : pollStep s i spawns = some t) : PollMove s i t := by
  unfold pollStep at h
  cases hpoll : s.polls i with
  | idle =>
    rw [hpoll] at h
    dsimp only at h
    split at h
    · cases h
    · split at h <;> obtain rfl := Option.some.inj h
      · exact .found hpoll ‹_›
      · exact .null hpoll (Bool.eq_false_iff.mpr ‹_›)
  | found =>
    rw [hpoll] at h
    dsimp only at h
    split at h
    · cases h
    · rename_i hfree
      split at h <;> obtain rfl := Option.some.inj h
      · exact .took hpoll ‹_› (not_not.mp hfree)
      · exact .empty hpoll ‹_›
  | took e =>
    rw [hpoll] at h
    dsimp only at h
    split at h
    · cases h
    · rename_i hfree
      obtain rfl := Option.some.inj h
      exact .removed hpoll (not_not.mp hfree)
  | removed e =>
    rw [hpoll] at h
    obtain rfl := Option.some.inj h
    exact .ready hpoll
  | empty =>
    rw [hpoll] at h
    dsimp only at h
    split at h <;> obtain rfl := Option.some.inj h
    · exact .again hpoll ‹_›
    · exact .first hpoll (Bool.eq_false_iff.mpr ‹_›)
  | first =>
    rw [hpoll] at h
    obtain rfl := Option.some.inj h
    exact .register hpoll
  | armed reg =>
    rw [hpoll] at h
    dsimp only at h
    split at h <;> obtain rfl := Option.some.inj h
    · exact .giveUp hpoll ‹_›
    · exact .keep hpoll (Bool.eq_false_iff.mpr ‹_›)
  | giveUp reg =>
    rw [hpoll] at h
    dsimp only at h
    split at h <;> obtain rfl := Option.some.inj h
    · exact .deactivate hpoll ‹_›
    · exact .inactive hpoll (Bool.eq_false_iff.mpr ‹_›)
  | unlist reg =>
    rw [hpoll] at h
    obtain rfl := Option.some.inj h
    exact .unlist hpoll
  | keep reg =>
    rw [hpoll] at h
    dsimp only at h
    split at h
    · cases h
    · rename_i hfree
      obtain rfl := Option.some.inj h
      exact .kept hpoll (not_not.mp hfree)
  | kept =>
    rw [hpoll] at h
    obtain rfl := Option.some.inj h
    cases spawns
    · exact .notSpawned hpoll
    · exact .spawned hpoll

/-- The operations of `io_cancel_id`. -/
inductive CancelMove (s : IoFuture) (j : Nat) : IoFuture → Prop
  | removed (hcancel : s.cancels j = .idle) (hregistered : s.registered = true)
      (hfree : s.registryHolder = none) :
      CancelMove s j { s.cancel j .removed with registered := false, registryHolder := some j }
  | gone (hcancel : s.cancels j = .idle) (hregistered : s.registered = false) : CancelMove s j s
  | marked (hcancel : s.cancels j = .removed) :
      CancelMove s j { s.cancel j .marked with cancelled := true }
  | giveUp {reg : Nat} (hcancel : s.cancels j = .marked) (hreg : s.registration = some reg) :
      CancelMove s j
        { s.cancel j (.giveUp reg) with registration := none, registrationHolder := some j }
  | none (hcancel : s.cancels j = .marked) (hreg : s.registration = none) :
      CancelMove s j (s.cancel j .drained)
  | deactivate {reg : Nat} (hcancel : s.cancels j = .giveUp reg) (hactive : s.active reg = true) :
      CancelMove s j ((s.deactivate reg).cancel j (.unlist reg))
  | inactive {reg : Nat} (hcancel : s.cancels j = .giveUp reg) (hactive : s.active reg = false) :
      CancelMove s j { s.cancel j .drained with registrationHolder := none }
  | unlist {reg : Nat} (hcancel : s.cancels j = .unlist reg) :
      CancelMove s j { (s.unlist reg).cancel j .drained with registrationHolder := none }
  | took {e : String} (hcancel : s.cancels j = .drained) (hresult : s.result = some e)
      (hfree : s.resultHolder = none) :
      CancelMove s j { s.cancel j (.took e) with result := none, resultHolder := some (.cancel j) }
  | empty (hcancel : s.cancels j = .drained) (hresult : s.result = none)
      (hfree : s.resultHolder = none) :
      CancelMove s j { s.cancel j .idle with registryHolder := none }
  | discarded {e : String} (hcancel : s.cancels j = .took e) :
      CancelMove s j ((s.discard e).cancel j (.discarded e))
  | done {e : String} (hcancel : s.cancels j = .discarded e) :
      CancelMove s j { s.cancel j .idle with
        unpinned := s.unpinned + 1, resultHolder := none, registryHolder := none }

theorem cancelStep_moves {s t : IoFuture} {j : Nat} (h : cancelStep s j = some t) :
    CancelMove s j t := by
  unfold cancelStep at h
  cases hcancel : s.cancels j with
  | idle =>
    rw [hcancel] at h
    dsimp only at h
    split at h
    · cases h
    · rename_i hfree
      split at h <;> obtain rfl := Option.some.inj h
      · exact .removed hcancel ‹_› (not_not.mp hfree)
      · exact .gone hcancel (Bool.eq_false_iff.mpr ‹_›)
  | removed =>
    rw [hcancel] at h
    obtain rfl := Option.some.inj h
    exact .marked hcancel
  | marked =>
    rw [hcancel] at h
    dsimp only at h
    split at h
    · cases h
    · split at h <;> obtain rfl := Option.some.inj h
      · exact .giveUp hcancel ‹_›
      · exact .none hcancel ‹_›
  | giveUp reg =>
    rw [hcancel] at h
    dsimp only at h
    split at h <;> obtain rfl := Option.some.inj h
    · exact .deactivate hcancel ‹_›
    · exact .inactive hcancel (Bool.eq_false_iff.mpr ‹_›)
  | unlist reg =>
    rw [hcancel] at h
    obtain rfl := Option.some.inj h
    exact .unlist hcancel
  | drained =>
    rw [hcancel] at h
    dsimp only at h
    split at h
    · cases h
    · rename_i hfree
      split at h <;> obtain rfl := Option.some.inj h
      · exact .took hcancel ‹_› (not_not.mp hfree)
      · exact .empty hcancel ‹_› (not_not.mp hfree)
  | took e =>
    rw [hcancel] at h
    obtain rfl := Option.some.inj h
    exact .discarded hcancel
  | discarded e =>
    rw [hcancel] at h
    obtain rfl := Option.some.inj h
    exact .done hcancel

/-- The operations of the helper thread. -/
inductive HelperMove (s : IoFuture) : IoFuture → Prop
  | ran {o : Outcome} (hhelper : s.helper = .running) (hend : s.op.CanEnd o) :
      HelperMove s { s with outcome := some o, helper := .completing (s.op.encode o) }
  | late {e : String} (hhelper : s.helper = .completing e) (hcancelled : s.cancelled = true) :
      HelperMove s { s with helper := .late e }
  | building {e : String} (hhelper : s.helper = .completing e) (hcancelled : s.cancelled = false) :
      HelperMove s { s with helper := .building e }
  | dropped {e : String} (hhelper : s.helper = .late e) :
      HelperMove s { s.discard e with helper := .done }
  | rooted {e : String} (hhelper : s.helper = .building e) :
      HelperMove s { s with pinned := s.pinned + 1, helper := .rooted e }
  | locked {e : String} (hhelper : s.helper = .rooted e) (hfree : s.resultHolder = none) :
      HelperMove s { s with resultHolder := some .helper, helper := .locked e }
  | refused {e : String} (hhelper : s.helper = .locked e) (hcancelled : s.cancelled = true) :
      HelperMove s { s with helper := .refused e }
  | storing {e : String} (hhelper : s.helper = .locked e) (hcancelled : s.cancelled = false) :
      HelperMove s { s with helper := .storing e }
  | released {e : String} (hhelper : s.helper = .refused e) :
      HelperMove s { s.discard e with helper := .released e }
  | unpinned {e : String} (hhelper : s.helper = .released e) :
      HelperMove s { s with unpinned := s.unpinned + 1, resultHolder := none, helper := .done }
  | stored {e : String} (hhelper : s.helper = .storing e) :
      HelperMove s { s with result := some e, helper := .stored }
  | waking {reg : Nat} (hhelper : s.helper = .stored) (hreg : s.registration = some reg) :
      HelperMove s { s with registration := none, resultHolder := none, helper := .waking reg }
  | none (hhelper : s.helper = .stored) (hreg : s.registration = none) :
      HelperMove s { s with resultHolder := none, helper := .done }
  | firing {reg : Nat} (hhelper : s.helper = .waking reg) (hwaiter : s.waiters reg = true) :
      HelperMove s { s.unlist reg with helper := .firing reg }
  | stale {reg : Nat} (hhelper : s.helper = .waking reg) (hwaiter : s.waiters reg = false) :
      HelperMove s { s with helper := .done }
  | woke {reg : Nat} (hhelper : s.helper = .firing reg) (hactive : s.active reg = true) :
      HelperMove s { s.deactivate reg with wakes := s.wakes + 1, helper := .done }
  | inactive {reg : Nat} (hhelper : s.helper = .firing reg) (hactive : s.active reg = false) :
      HelperMove s { s with helper := .done }

theorem helperStep_moves {s t : IoFuture} {o : Outcome} (h : helperStep s o = some t) :
    HelperMove s t := by
  unfold helperStep at h
  cases hhelper : s.helper with
  | absent => rw [hhelper] at h; cases h
  | done => rw [hhelper] at h; cases h
  | running =>
    rw [hhelper] at h
    dsimp only at h
    split at h
    · obtain rfl := Option.some.inj h
      exact .ran hhelper ‹_›
    · cases h
  | completing e =>
    rw [hhelper] at h
    dsimp only at h
    split at h <;> obtain rfl := Option.some.inj h
    · exact .late hhelper ‹_›
    · exact .building hhelper (Bool.eq_false_iff.mpr ‹_›)
  | late e =>
    rw [hhelper] at h
    obtain rfl := Option.some.inj h
    exact .dropped hhelper
  | building e =>
    rw [hhelper] at h
    obtain rfl := Option.some.inj h
    exact .rooted hhelper
  | rooted e =>
    rw [hhelper] at h
    dsimp only at h
    split at h
    · cases h
    · rename_i hfree
      obtain rfl := Option.some.inj h
      exact .locked hhelper (not_not.mp hfree)
  | locked e =>
    rw [hhelper] at h
    dsimp only at h
    split at h <;> obtain rfl := Option.some.inj h
    · exact .refused hhelper ‹_›
    · exact .storing hhelper (Bool.eq_false_iff.mpr ‹_›)
  | refused e =>
    rw [hhelper] at h
    obtain rfl := Option.some.inj h
    exact .released hhelper
  | released e =>
    rw [hhelper] at h
    obtain rfl := Option.some.inj h
    exact .unpinned hhelper
  | storing e =>
    rw [hhelper] at h
    obtain rfl := Option.some.inj h
    exact .stored hhelper
  | stored =>
    rw [hhelper] at h
    dsimp only at h
    split at h
    · cases h
    · split at h <;> obtain rfl := Option.some.inj h
      · exact .waking hhelper ‹_›
      · exact .none hhelper ‹_›
  | waking reg =>
    rw [hhelper] at h
    dsimp only at h
    split at h <;> obtain rfl := Option.some.inj h
    · exact .firing hhelper ‹_›
    · exact .stale hhelper (Bool.eq_false_iff.mpr ‹_›)
  | firing reg =>
    rw [hhelper] at h
    dsimp only at h
    split at h <;> obtain rfl := Option.some.inj h
    · exact .woke hhelper ‹_›
    · exact .inactive hhelper (Bool.eq_false_iff.mpr ‹_›)

end runtime.io
