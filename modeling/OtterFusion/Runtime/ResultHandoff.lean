-- How a worker hands its result over (`threads.rs`): the publications, `thread_join_poll`,
-- `spawn_poll` and `lang_thread_detach` on the record of one worker, each lock region a step.
import OtterFusion.Runtime.ThreadCtl

open runtime.gc runtime.threads

namespace runtime.joins

/-! ## The state -/

/-- The future that polls: that of `JoinHandle.join`, or that of `spawn EXPR`. -/
inductive Kind
  | join
  | spawn
  deriving DecidableEq, Repr

/-- What a poll reads of a record that is done. -/
structure Seen where
  result : Int64
  resultPinned : Bool
  panicked : Bool
  cancelled : Bool
  message : Nat
  wasTaken : Bool
  deriving DecidableEq

/-- Where a thread is that uses the handle. -/
inductive Joiner
  | idle
  -- `thread_join_poll` and `spawn_poll`: the record is looked up, or was found done
  | polling (kind : Kind)
  | ready (kind : Kind) (seen : Seen)
  -- `lang_thread_detach`, with the record out of the registry
  | detaching
  deriving DecidableEq

/-- Where the worker is: at its code, past the boundary with the message of its panic pinned, or
published. -/
inductive Worker
  | running
  | panicking (message : Nat)
  | ended
  deriving DecidableEq, Repr

/-- The record of one worker, with the threads that use its handle. `others` counts the pins of
the rest of the runtime; `pinned` and `unpinned` are history, the words that were pinned for
this worker and those that were unpinned for it. -/
structure Handoff where
  ctl : ThreadInner
  worker : Worker
  registered : Bool
  joiners : Nat → Joiner
  roots : ExtraRoots
  others : Nat → Nat
  pinned : List Nat
  unpinned : List Nat

/-! ## The operations -/

/-- The lock region of both polls, when the worker is done. -/
def seenOf (g : ThreadInner) : Seen :=
  { result := g.result, resultPinned := g.resultPinned, panicked := g.panicked
    cancelled := g.cancelled, message := g.message, wasTaken := g.taken }

/-- The record after a poll that found the worker done; the first takes the OS handle. -/
def takeResult (g : ThreadInner) : ThreadInner :=
  { g with taken := true, os := g.taken && g.os }

/-- What a poll unpins when it has built its box. A spawn future propagates a panic or a
cancellation by `lang_panic`, from which it does not return. -/
def unpinsOf : Kind → Seen → Option Nat
  | .join, g =>
    if !g.wasTaken && !g.cancelled && (g.panicked || g.resultPinned) then
      some (if g.panicked then g.message else address g.result)
    else none
  | .spawn, g =>
    if g.panicked then none
    else if g.cancelled then none
    else if !g.wasTaken && g.resultPinned then some (address g.result) else none

/-- What a detach unpins: the handoff that nobody will take. -/
def detachUnpins (g : ThreadInner) : Option Nat :=
  if g.done && !g.taken then
    if g.panicked then some g.message
    else if !g.cancelled && g.resultPinned then some (address g.result) else none
  else none

/-- The record after a detach. -/
def detachCtl (g : ThreadInner) : ThreadInner :=
  { g with detached := true, os := false, taken := g.taken || g.done }

/-- `remove_extra_root` of the word, when there is one. -/
def Handoff.unpin (s : Handoff) : Option Nat → Handoff
  | none => s
  | some p => { s with roots := removeExtraRoot s.roots p, unpinned := s.unpinned ++ [p] }

def Handoff.joiner (s : Handoff) (thread : Nat) (j : Joiner) : Handoff :=
  { s with joiners := Function.update s.joiners thread j }

/-- What a publication pins, and what it unpins. -/
def publishPins (g : ThreadInner) : Ending → Option Nat
  | .value result => if g.pins result then some (address result) else none
  | _ => none

def publishUnpins (g : ThreadInner) : Ending → Option Nat
  | .panic message => if g.detached then some message else none
  | _ => none

/-- The publication of the worker. -/
def Handoff.publish (s : Handoff) (e : Ending) : Handoff :=
  { s with
    ctl := (threads.publish s.ctl s.roots e).ctl
    roots := (threads.publish s.ctl s.roots e).roots
    worker := .ended
    pinned := s.pinned ++ (publishPins s.ctl e).toList
    unpinned := s.unpinned ++ (publishUnpins s.ctl e).toList }

/-! ## The runs -/

/-- What can happen. `other` is a pin of the rest of the runtime, made or removed. -/
inductive Action
  | value (result : Int64)
  | panic (message : Nat)
  | publishPanic
  | cancel
  | lookup (thread : Nat) (kind : Kind)
  | poll (thread : Nat) (waker : Waker)
  | finish (thread : Nat)
  | detach (thread : Nat)
  | detachLocked (thread : Nat)
  | other (word : Nat) (pins : Bool)
  deriving DecidableEq

def step (s : Handoff) : Action → Option Handoff
  | .value result => if s.worker = .running then some (s.publish (.value result)) else none
  | .panic message =>
    -- the boundary builds the message and pins it
    if s.worker = .running ∧ message ≠ 0 then
      some { s with
        worker := .panicking message
        roots := addExtraRoot s.roots message
        pinned := s.pinned ++ [message] }
    else none
  | .publishPanic =>
    match s.worker with
    | .panicking message => some (s.publish (.panic message))
    | _ => none
  | .cancel => if s.worker = .running then some (s.publish .cancelled) else none
  | .lookup thread kind =>
    if s.joiners thread = .idle ∧ s.registered = true then
      some (s.joiner thread (.polling kind))
    else none
  | .poll thread waker =>
    match s.joiners thread with
    | .polling kind =>
      if s.ctl.done then
        some ({ s with ctl := takeResult s.ctl }.joiner thread (.ready kind (seenOf s.ctl)))
      else
        some ({ s with ctl := { s.ctl with waiters := registerWaiter s.ctl.waiters waker } }.joiner
          thread .idle)
    | _ => none
  | .finish thread =>
    match s.joiners thread with
    | .ready kind seen => some ((s.unpin (unpinsOf kind seen)).joiner thread .idle)
    | _ => none
  | .detach thread =>
    if s.joiners thread = .idle ∧ s.registered = true then
      some ({ s with registered := false }.joiner thread .detaching)
    else none
  | .detachLocked thread =>
    if s.joiners thread = .detaching then
      some ({ s.unpin (detachUnpins s.ctl) with ctl := detachCtl s.ctl }.joiner thread .idle)
    else none
  | .other word pins =>
    if word = 0 then none
    else if pins then
      some { s with
        roots := addExtraRoot s.roots word
        others := Function.update s.others word (s.others word + 1) }
    else if s.others word = 0 then none
    else
      some { s with
        roots := removeExtraRoot s.roots word
        others := Function.update s.others word (s.others word - 1) }

/-- A worker that was spawned just now. -/
structure Initial (s : Handoff) : Prop where
  ctl : ∃ resultIsPtr os, s.ctl = newCtl resultIsPtr os
  worker : s.worker = .running
  joiners : ∀ th, s.joiners th = .idle
  roots : ∀ v, v ≠ 0 → s.roots v = s.others v
  pinned : s.pinned = []
  unpinned : s.unpinned = []

/-- A worker of its own. -/
def newHandoff (resultIsPtr os : Bool) : Handoff :=
  { ctl := newCtl resultIsPtr os, worker := .running, registered := true, joiners := fun _ => .idle
    roots := fun _ => 0, others := fun _ => 0, pinned := [], unpinned := [] }

theorem newHandoff_initial (resultIsPtr os : Bool) : Initial (newHandoff resultIsPtr os) :=
  ⟨⟨resultIsPtr, os, rfl⟩, rfl, fun _ => rfl, fun _ _ => rfl, rfl, rfl⟩

end runtime.joins
