-- The end of an object (`gc.rs`): `run_finalizers` takes objects from the finalizer queue, and
-- `lang_rc_release` finalizes a `@RefCounted` object when its count reaches zero. Both call the
-- drop function of the object, which is ordinary code: it retains, releases and stores, and a
-- release in it can finalize another object, so the finalizations form a stack.
import OtterFusion.Base.Runs
import OtterFusion.Runtime.Collect
import OtterFusion.Runtime.Common

namespace runtime.gc

/-! ## The model -/

/-- Where a finalization stands: the drop function runs, or these owned fields are still to be
released. -/
inductive Phase
  | dropping
  | releasing (offsets : List Nat)
  deriving DecidableEq

/-- Which function finalizes. -/
inductive Finalizer
  | runFinalizers
  | rcFinalize
  deriving DecidableEq

/-- A finalization that is not over. -/
structure Frame where
  obj : Nat
  caller : Finalizer
  phase : Phase

/-- The heap while finalizers run. An object is named by its field-block pointer, and a block
that is given out again has a new name. `desc` is the descriptor of each name, `count` the
strong counts, `slot` the words of the owned and the endpoint fields, and `pointers` what an
object holds in whatever shape. The program holds counted references (`held`) and can use the
pointers in `handles`. The fields from `begun` on are the history: the finalizations with the
number of references at their start, the calls of drop functions, the releases of owned fields,
the endpoint releases, and the blocks given back. -/
structure Machine where
  desc : Nat → Desc
  count : Nat → Nat
  slot : Nat → Nat → Nat
  pointers : Nat → List Nat
  known : List Nat
  registry : List Nat
  pending : List (Nat × Nat)
  extraRoots : ExtraRoots
  dropFns : List Nat
  held : Nat → Nat
  handles : List Nat
  stack : List Frame
  begun : List (Nat × Nat)
  drops : List Nat
  released : List (Nat × Nat × Nat)
  endpoints : List (Nat × Nat)
  freed : List Nat

/-- One more than the largest count. -/
def COUNT_END : Nat := 2 ^ 64

/-- `RC_INITIAL`. -/
def RC_INITIAL : Nat := 1

/-- An object is `@RefCounted`. -/
def Machine.RefCounted (w : Machine) (obj : Nat) : Prop := (w.desc obj).kind = .refCounted

instance (w : Machine) (obj : Nat) : Decidable (w.RefCounted obj) := by
  unfold Machine.RefCounted
  infer_instance

/-- The owned fields of the objects. -/
def ownedSlots (desc : Nat → Desc) (known : List Nat) : List (Nat × Nat) :=
  known.flatMap fun o => (desc o).rcOffsets.map fun off => (o, off)

/-- The owned fields that are released. -/
def releasedSlots (released : List (Nat × Nat × Nat)) : List (Nat × Nat) :=
  released.map fun r => (r.1, r.2.1)

/-- Fields are compared by their object and their offset. -/
local instance lawfulFields : LawfulBEq (Nat × Nat) := inferInstance

/-- The owned fields that hold an object and are not released. -/
def Machine.ownedReferences (w : Machine) (obj : Nat) : Nat :=
  (ownedSlots w.desc w.known).countP fun f =>
    decide (w.slot f.1 f.2 = obj ∧ f ∉ releasedSlots w.released)

/-- The references to an object: those that the program holds and those of the owned fields. -/
def Machine.references (w : Machine) (obj : Nat) : Nat := w.held obj + w.ownedReferences obj

/-- The objects whose finalization has begun. -/
def Machine.begunObjs (w : Machine) : List Nat := w.begun.map Prod.fst

/-- The owned fields that a finalization has not released. -/
def Frame.remaining (desc : Nat → Desc) (f : Frame) : List Nat :=
  match f.phase with
  | .dropping => (desc f.obj).rcOffsets
  | .releasing offsets => offsets

/-- A finalization starts, with a call of the drop function or without. -/
def Machine.beginFinalization (w : Machine) (caller : Finalizer) (obj : Nat) (calls : Bool) :
    Machine :=
  { w with
    begun := w.begun ++ [(obj, w.references obj)]
    drops := if calls then w.drops ++ [obj] else w.drops
    handles := if calls then obj :: w.handles else w.handles
    stack :=
      ⟨obj, caller, if calls then .dropping else .releasing (w.desc obj).rcOffsets⟩ :: w.stack }

/-- The start of `rc_finalize`: the object is pinned, and its `Drop` is called. -/
def Machine.rcFinalize (w : Machine) (obj : Nat) : Machine :=
  let tid := (w.desc obj).typeId
  { w with extraRoots := addExtraRoot w.extraRoots obj }.beginFinalization .rcFinalize obj
    (decide (tid ≠ 0 ∧ tid ∈ w.dropFns))

/-- `lang_rc_retain`. -/
def Machine.rcRetain (w : Machine) (obj : Nat) : Machine :=
  if obj = 0 then w
  else { w with count := Function.update w.count obj ((w.count obj + 1) % COUNT_END) }

/-- `lang_rc_release`, up to the drop function that it may call. -/
def Machine.rcRelease (w : Machine) (obj : Nat) : Machine :=
  if obj = 0 then w
  else
    let prev := w.count obj
    let w := { w with
      count := Function.update w.count obj ((prev + (COUNT_END - 1)) % COUNT_END) }
    if prev = 1 then w.rcFinalize obj else w

/-- The caller of `lang_rc_release` gives up its reference, and does not use the pointer again
unless it has it from elsewhere. -/
def Machine.giveUp (w : Machine) (obj : Nat) : Machine :=
  { w with
    held := Function.update w.held obj (w.held obj - 1)
    handles := w.handles.erase obj }

/-- What happens next. The program acts while no finalization is under way or while a drop
function runs: it retains and releases, it allocates, and it stores into objects and moves its
references and handles. The other acts are those of the runtime: it takes an item of the queue,
a drop function returns, the next owned field is released, and a finalization ends. -/
inductive Act
  | retain (obj : Nat)
  | release (obj : Nat)
  | alloc (obj : Nat)
  | mutate (slot : Nat → Nat → Nat) (pointers : Nat → List Nat) (held : Nat → Nat)
      (handles : List Nat)
  | takeItem
  | dropReturns
  | releaseNext
  | finish

/-- The program runs. -/
def Machine.programRuns (w : Machine) : Bool :=
  match w.stack with
  | [] => true
  | f :: _ => f.phase = .dropping

/-- A new object, with null fields; a `@RefCounted` one is registered and has one reference. -/
def Machine.allocate (w : Machine) (obj : Nat) : Machine :=
  { w with
    known := w.known ++ [obj]
    count := if w.RefCounted obj then Function.update w.count obj RC_INITIAL else w.count
    slot := Function.update w.slot obj fun _ => 0
    pointers := Function.update w.pointers obj []
    registry := if w.RefCounted obj then w.registry ++ [obj] else w.registry
    held := if w.RefCounted obj then Function.update w.held obj (w.held obj + 1) else w.held
    handles := obj :: w.handles }

/-- The release of the next owned field of a finalization: `rc_finalize` releases the child,
and `run_finalizers` only corrects the count of a child that is registered. -/
def Machine.releaseField (w : Machine) (f : Frame) (off : Nat) (rest : List Nat)
    (below : List Frame) : Machine :=
  let child := w.slot f.obj off
  let w := { w with
    stack := { f with phase := .releasing rest } :: below
    released := w.released ++ [(f.obj, off, child)] }
  match f.caller with
  | .rcFinalize => w.rcRelease child
  | .runFinalizers =>
    if HEADER ≤ child ∧ child ∈ w.registry then { w with count := rcDecNoFree w.count child }
    else w

/-- The end of a finalization: the endpoints are released and the block is given back.
`rc_finalize` gives it back only when it was registered. -/
def Machine.finishFinalization (w : Machine) (f : Frame) (below : List Frame) : Machine :=
  let w := { w with
    stack := below
    endpoints := w.endpoints ++
      endpointReleasesForObject (w.desc f.obj) (w.slot f.obj) fun handle => w.slot handle 0 }
  match f.caller with
  | .runFinalizers => { w with freed := w.freed ++ [f.obj] }
  | .rcFinalize =>
    { w with
      registry := w.registry.erase f.obj
      extraRoots := removeExtraRoot w.extraRoots f.obj
      freed := if f.obj ∈ w.registry then w.freed ++ [f.obj] else w.freed }

/-- The steps. One call of `run_finalizers` goes on at a time. -/
def step (w : Machine) : Act → Option Machine
  | .retain obj =>
    if w.programRuns then
      some ({ w with held := Function.update w.held obj (w.held obj + 1) }.rcRetain obj)
    else none
  | .release obj => if w.programRuns then some ((w.giveUp obj).rcRelease obj) else none
  | .alloc obj => if w.programRuns ∧ obj ≠ 0 ∧ obj ∉ w.known then some (w.allocate obj) else none
  | .mutate slot pointers held handles =>
    if w.programRuns then
      some { w with slot := slot, pointers := pointers, held := held, handles := handles }
    else none
  | .takeItem =>
    if w.programRuns ∧ ∀ f ∈ w.stack, f.caller ≠ .runFinalizers then
      match w.pending.getLast? with
      | none => none
      | some (obj, tid) =>
        some ({ w with pending := w.pending.dropLast }.beginFinalization .runFinalizers obj
          (decide (tid ∈ w.dropFns)))
    else none
  | .dropReturns =>
    match w.stack with
    | ⟨obj, caller, .dropping⟩ :: below =>
      some { w with
        stack := ⟨obj, caller, .releasing (w.desc obj).rcOffsets⟩ :: below
        handles := w.handles.erase obj }
    | _ => none
  | .releaseNext =>
    match w.stack with
    | ⟨obj, caller, .releasing (off :: rest)⟩ :: below =>
      some (w.releaseField ⟨obj, caller, .releasing (off :: rest)⟩ off rest below)
    | _ => none
  | .finish =>
    match w.stack with
    | ⟨obj, caller, .releasing []⟩ :: below =>
      some (w.finishFinalization ⟨obj, caller, .releasing []⟩ below)
    | _ => none

/-! ## What a step can do -/

/-- All that a step can do, with the checks that it passed. -/
inductive Stepped (w : Machine) : Act → Machine → Prop
  | retain {obj : Nat} (hruns : w.programRuns = true) : Stepped w (.retain obj)
      ({ w with held := Function.update w.held obj (w.held obj + 1) }.rcRetain obj)
  | release {obj : Nat} (hruns : w.programRuns = true) :
      Stepped w (.release obj) ((w.giveUp obj).rcRelease obj)
  | alloc {obj : Nat} (hruns : w.programRuns = true) (hobj : obj ≠ 0) (hnew : obj ∉ w.known) :
      Stepped w (.alloc obj) (w.allocate obj)
  | mutate {slot : Nat → Nat → Nat} {pointers : Nat → List Nat} {held : Nat → Nat}
      {handles : List Nat} (hruns : w.programRuns = true) :
      Stepped w (.mutate slot pointers held handles)
        { w with slot := slot, pointers := pointers, held := held, handles := handles }
  | takeItem {obj tid : Nat} (hruns : w.programRuns = true)
      (hlast : w.pending.getLast? = some (obj, tid)) : Stepped w .takeItem
      ({ w with pending := w.pending.dropLast }.beginFinalization .runFinalizers obj
        (decide (tid ∈ w.dropFns)))
  | dropReturns {obj : Nat} {caller : Finalizer} {below : List Frame}
      (hstack : w.stack = ⟨obj, caller, .dropping⟩ :: below) : Stepped w .dropReturns
      { w with
        stack := ⟨obj, caller, .releasing (w.desc obj).rcOffsets⟩ :: below
        handles := w.handles.erase obj }
  | releaseNext {obj off : Nat} {caller : Finalizer} {rest : List Nat} {below : List Frame}
      (hstack : w.stack = ⟨obj, caller, .releasing (off :: rest)⟩ :: below) :
      Stepped w .releaseNext
        (w.releaseField ⟨obj, caller, .releasing (off :: rest)⟩ off rest below)
  | finish {obj : Nat} {caller : Finalizer} {below : List Frame}
      (hstack : w.stack = ⟨obj, caller, .releasing []⟩ :: below) : Stepped w .finish
      (w.finishFinalization ⟨obj, caller, .releasing []⟩ below)

theorem step_cases {w w' : Machine} {a : Act} (h : step w a = some w') : Stepped w a w' := by
  cases a with
  | retain x =>
    dsimp only [step] at h
    split at h
    · cases h
      exact .retain ‹_›
    · cases h
  | release x =>
    dsimp only [step] at h
    split at h
    · cases h
      exact .release ‹_›
    · cases h
  | alloc x =>
    dsimp only [step] at h
    split at h
    · rename_i hc
      cases h
      exact .alloc hc.1 hc.2.1 hc.2.2
    · cases h
  | mutate slot pointers held handles =>
    dsimp only [step] at h
    split at h
    · cases h
      exact .mutate ‹_›
    · cases h
  | takeItem =>
    dsimp only [step] at h
    split at h
    · rename_i hc
      split at h
      · cases h
      · cases h
        exact .takeItem hc.1 ‹_›
    · cases h
  | dropReturns =>
    dsimp only [step] at h
    split at h
    · cases h
      exact .dropReturns ‹_›
    · cases h
  | releaseNext =>
    dsimp only [step] at h
    split at h
    · cases h
      exact .releaseNext ‹_›
    · cases h
  | finish =>
    dsimp only [step] at h
    split at h
    · cases h
      exact .finish ‹_›
    · cases h

end runtime.gc
