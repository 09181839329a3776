-- What a worker and its joiners share (`threads.rs`): the record behind a `JoinHandle`, and the
-- functions that publish how the worker ended.
import OtterFusion.Runtime.Common

open runtime.gc

namespace runtime.threads

/-! ## The record -/

/-- A waker: its data word and its function. -/
abbrev Waker := Nat × WakeFn

/-- `ThreadInner`. `os` says that the record still has the handle of the OS thread. -/
structure ThreadInner where
  done : Bool
  taken : Bool
  result : Int64
  resultIsPtr : Bool
  resultPinned : Bool
  panicked : Bool
  cancelled : Bool
  message : Nat
  waiters : List Waker
  os : Bool
  detached : Bool
  deriving DecidableEq

/-- `new_ctl_with_result_is_ptr`; an OS worker stores its handle right after. -/
def newCtl (resultIsPtr os : Bool) : ThreadInner :=
  { done := false, taken := false, result := 0, resultIsPtr, resultPinned := false
    panicked := false, cancelled := false, message := 0, waiters := [], os, detached := false }

/-- `register_waiter`: a waker that is in the list already is not added again. -/
def registerWaiter (waiters : List Waker) (waiter : Waker) : List Waker :=
  if waiter ∈ waiters then waiters else waiters ++ [waiter]

/-- `result as usize`: the word of a result as an address. -/
def address (result : Int64) : Nat := result.toUInt64.toNat

/-! ## The publications -/

/-- The record and the extra roots after a publication, and the wakers that it calls. -/
structure Published where
  ctl : ThreadInner
  roots : ExtraRoots
  woken : List Waker

/-- Whether `publish_done` pins the result for the joiner. -/
def ThreadInner.pins (g : ThreadInner) (result : Int64) : Bool :=
  !g.detached && g.resultIsPtr && result != 0

/-- `publish_done`. -/
def publishDone (g : ThreadInner) (roots : ExtraRoots) (result : Int64) : Published where
  ctl :=
    { g with
      resultPinned := g.resultPinned || g.pins result
      result, done := true, waiters := [] }
  roots := if g.pins result then addExtraRoot roots (address result) else roots
  woken := g.waiters

/-- `publish_panic`: nobody will take the message of a detached worker. -/
def publishPanic (g : ThreadInner) (roots : ExtraRoots) (message : Nat) : Published where
  ctl := { g with panicked := true, message, done := true, waiters := [] }
  roots := if g.detached then removeExtraRoot roots message else roots
  woken := g.waiters

/-- `publish_cancelled`: a worker that is done was not cancelled. -/
def publishCancelled (g : ThreadInner) (roots : ExtraRoots) : Published :=
  if g.done then { ctl := g, roots, woken := [] }
  else { ctl := { g with cancelled := true, done := true, waiters := [] }, roots, woken :=
    g.waiters }

/-- How a worker ends: with a value, with the message of its panic, or cancelled. -/
inductive Ending
  | value (result : Int64)
  | panic (message : Nat)
  | cancelled
  deriving DecidableEq

/-- The publication of an ending. -/
def publish (g : ThreadInner) (roots : ExtraRoots) : Ending → Published
  | .value result => publishDone g roots result
  | .panic message => publishPanic g roots message
  | .cancelled => publishCancelled g roots

/-- A publication that takes effect; only that of a cancellation may have none. -/
def takesEffect (g : ThreadInner) : Ending → Bool
  | .value _ | .panic _ => true
  | .cancelled => !g.done

/-! ## What a publication leaves -/

section publish

variable (g : ThreadInner) (roots : ExtraRoots) (e : Ending)

attribute [local simp] publish publishCancelled

/-- After a publication of any kind, the worker is done. -/
@[simp] theorem publish_done : (publish g roots e).ctl.done = true := by
  cases e with
  | value | panic => rfl
  | cancelled =>
    simp only [publish, publishCancelled]
    split
    · rename_i hd
      exact hd
    · rfl

/-- No publication consumes the result, and none detaches the handle. -/
@[simp] theorem publish_taken : (publish g roots e).ctl.taken = g.taken := by
  cases e with
  | value | panic => rfl
  | cancelled =>
    simp only [publish, publishCancelled]
    split <;> rfl

@[simp] theorem publish_detached : (publish g roots e).ctl.detached = g.detached := by
  cases e with
  | value | panic => rfl
  | cancelled =>
    simp only [publish, publishCancelled]
    split <;> rfl

end publish

end runtime.threads
