-- The channels (`channels.rs`): the queue with its parked wakers and endpoint counts, the send,
-- the two receives, the cancellation of a receive future, and the runs in which any tasks take
-- these steps in any order.
import OtterFusion.Base.Runs
import OtterFusion.Runtime.Common

open runtime.threads runtime.gc

namespace runtime.channels

/-! ## The parked wakers -/

/-- The waker of a poll context: its data word and its function. -/
structure Waker where
  data : Nat
  wake : WakeFn
  deriving DecidableEq, Repr

/-- The task of a waker, when it is that of an executor task. -/
def Waker.taskId (w : Waker) : Option Nat := executorWakerTaskId w.data w.wake

/-- A waker that can still wake something: it is not that of a task that is done. -/
def Waker.isLive (live : LiveTasks) (w : Waker) : Bool :=
  executorWakerIsLive live w.data w.wake != some false

/-- `prune_dead_waiters`. -/
def pruneDeadWaiters (live : LiveTasks) (waiters : List Waker) : List Waker :=
  waiters.filter (·.isLive live)

/-- `register_waiter`: one entry for each waker, and one for each task. -/
def registerWaiter (live : LiveTasks) (waiters : List Waker) (waiter : Waker) : List Waker :=
  let kept := (pruneDeadWaiters live waiters).filter fun existing =>
    if existing = waiter then false
    else match waiter.taskId with
      | some taskId => existing.taskId != some taskId
      | none => true
  kept ++ [waiter]

/-- `drain_waiters`: the wakers to call; none stay parked. -/
def drainWaiters (live : LiveTasks) (waiters : List Waker) : List Waker × List Waker :=
  (pruneDeadWaiters live waiters, [])

/-- `remove_waiter`. -/
def removeWaiter (waiters : List Waker) (waiter : Waker) : List Waker :=
  waiters.filter (· ≠ waiter)

/-! ## The channel -/

/-- `Inner`. The counts are `u64`s that count handles, so they never reach their end. -/
structure Inner where
  queue : List Nat
  waiters : List Waker
  senders : Nat
  receivers : Nat
  deriving DecidableEq, Repr

/-- What `lang_channel_new` starts with. -/
def Inner.new : Inner := { queue := [], waiters := [], senders := 1, receivers := 1 }

/-- The words of a receive future. The waker words are none while `wake_fn` is 0. -/
structure RecvData where
  chanId : Nat
  readyTid : Nat
  pendingTid : Nat
  elemIsPtr : Bool
  valueTid : Nat
  closedTid : Nat
  waker : Option Waker
  registered : Bool
  deriving DecidableEq, Repr

/-- The box of a future: its data word and its type id. -/
structure FutureBox where
  data : Nat
  typeId : Int
  deriving DecidableEq, Repr

/-- `CHAN_RECV_FUTURE_KIND`. -/
def chanRecvFutureKind : Int := -0x4348414e5f524543

/-- What a poll returns: `Ready` around a `T | ChannelClosed` box, or `Pending`. -/
inductive PollResult
  | ready (readyTid variantTid value : Nat) (isPtr : Bool)
  | pending (pendingTid : Nat)
  deriving DecidableEq, Repr

/-- The statics of the channel runtime, with the pins and the tasks that it reads. -/
structure Runtime where
  nextId : Nat
  registry : Nat → Option Inner
  recvData : Nat → Option RecvData
  activeRecvData : Nat → Bool
  extraRoots : ExtraRoots
  live : LiveTasks

def Runtime.setChannel (r : Runtime) (id : Nat) (g : Inner) : Runtime :=
  { r with registry := fun i => if i = id then some g else r.registry i }

def Runtime.setRecvData (r : Runtime) (data : Nat) (d : RecvData) : Runtime :=
  { r with recvData := fun a => if a = data then some d else r.recvData a }

def Runtime.addRoot (r : Runtime) (p : Nat) : Runtime :=
  { r with extraRoots := addExtraRoot r.extraRoots p }

def Runtime.removeRoot (r : Runtime) (p : Nat) : Runtime :=
  { r with extraRoots := removeExtraRoot r.extraRoots p }

/-- `lang_channel_new`. -/
def langChannelNew (r : Runtime) : Nat × Runtime :=
  (r.nextId, { r.setChannel r.nextId .new with nextId := r.nextId + 1 })

/-! Each of the next functions is none where `channel` panics: there is no channel `id`. -/

/-- `lang_chan_sender_acquire`. -/
def langChanSenderAcquire (r : Runtime) (id : Nat) : Option Runtime := do
  let g ← r.registry id
  return r.setChannel id { g with senders := g.senders + 1 }

/-- `lang_chan_sender_release`, up to the call of the wakers it took. -/
def langChanSenderRelease (r : Runtime) (id : Nat) : Option (List Waker × Runtime) := do
  let g ← r.registry id
  let senders := g.senders - 1
  if senders = 0 then
    let (wakers, waiters) := drainWaiters r.live g.waiters
    return (wakers, r.setChannel id { g with senders, waiters })
  else
    return ([], r.setChannel id { g with senders })

/-- `lang_chan_receiver_acquire`. -/
def langChanReceiverAcquire (r : Runtime) (id : Nat) : Option Runtime := do
  let g ← r.registry id
  return r.setChannel id { g with receivers := g.receivers + 1 }

/-- `lang_chan_receiver_release`. -/
def langChanReceiverRelease (r : Runtime) (id : Nat) : Option Runtime := do
  let g ← r.registry id
  return r.setChannel id { g with receivers := g.receivers - 1 }

/-- `lang_chan_send`, up to the call of the wakers it took: 0, or 1 for `ChannelClosed`. -/
def langChanSend (r : Runtime) (id value : Nat) : Option ((Nat × List Waker) × Runtime) := do
  let g ← r.registry id
  if g.receivers = 0 then
    return ((1, []), r)
  else
    let (wakers, waiters) := drainWaiters r.live g.waiters
    return ((0, wakers),
      (r.addRoot value).setChannel id { g with queue := g.queue ++ [value], waiters })

/-- `finish_recv_data`: the pin of the future data goes with its active entry. -/
def finishRecvData (r : Runtime) (data : Nat) : Bool × Runtime :=
  if r.activeRecvData data then
    (true, { r.removeRoot data with
      activeRecvData := fun a => if a = data then false else r.activeRecvData a })
  else (false, r)

/-- `chan_recv_poll`, also none where `data` is no receive future. -/
def chanRecvPoll (r : Runtime) (data : Nat) (waiter : Waker) : Option (PollResult × Runtime) := do
  let d ← r.recvData data
  let g ← r.registry d.chanId
  match g.queue with
  | value :: queue =>
    let r := (finishRecvData (r.setChannel d.chanId { g with queue }) data).2
    return (.ready d.readyTid d.valueTid value d.elemIsPtr,
      if d.elemIsPtr then r.removeRoot value else r)
  | [] =>
    if g.senders = 0 then
      return (.ready d.readyTid d.closedTid 0 false, (finishRecvData r data).2)
    else
      let waiters := registerWaiter r.live g.waiters waiter
      return (.pending d.pendingTid, (r.setChannel d.chanId { g with waiters }).setRecvData data
        { d with waker := some waiter, registered := true })

/-- `lang_chan_recv_future`, with the address that the collector gave its data. -/
def langChanRecvFuture (r : Runtime) (data id readyTid pendingTid : Nat) (elemIsPtr : Bool)
    (valueTid closedTid : Nat) : FutureBox × Runtime :=
  let d : RecvData :=
    { chanId := id, readyTid, pendingTid, elemIsPtr, valueTid, closedTid
      waker := none, registered := false }
  let r := (r.setRecvData data d).addRoot data
  ({ data, typeId := chanRecvFutureKind },
    { r with activeRecvData := fun a => if a = data then true else r.activeRecvData a })

/-- The first half of `cancel_recv_future`: the waker that the future recorded when it parked
leaves the channel. -/
def unparkRecv (r : Runtime) (data : Nat) (d : RecvData) : Option Runtime :=
  if d.registered then
    match d.waker with
    | some waker => (r.registry d.chanId).map fun g =>
        (r.setChannel d.chanId { g with waiters := removeWaiter g.waiters waker }).setRecvData
          data { d with registered := false }
    | none => some (r.setRecvData data { d with registered := false })
  else some r

/-- `cancel_recv_future`: whether `fut` is a receive future, none for the null pointer. -/
def cancelRecvFuture (r : Runtime) (fut : Option FutureBox) : Option (Bool × Runtime) :=
  match fut with
  | none => some (false, r)
  | some fut =>
    if fut.typeId ≠ chanRecvFutureKind then some (false, r)
    else do
      let d ← r.recvData fut.data
      let r ← unparkRecv r fut.data d
      return (true, (finishRecvData r fut.data).2)

/-- `lang_chan_try_recv`: `has` and the value. -/
def langChanTryRecv (r : Runtime) (id : Nat) : Option ((Bool × Nat) × Runtime) := do
  let g ← r.registry id
  match g.queue with
  | value :: queue =>
    return ((true, value), (r.setChannel id { g with queue }).removeRoot value)
  | [] => return ((false, 0), r)

/-! ## The runs -/

/-- The runtime in use. `waking` holds the wakers that a send or a release took and has yet to
call. The rest is history: `pins` has an entry for each pin that a channel holds, `others` counts
the pins of the rest of the runtime, `waits` is the waker of the last poll of a future that
returned `Pending` and was not cancelled since, and `woken` says that this waker was called since
that poll. -/
structure World where
  rt : Runtime
  waking : List Waker
  pins : List (Nat × Nat)
  others : ExtraRoots
  waits : Nat → Option Waker
  woken : Nat → Bool

/-- What can happen. A send or a release calls each waker it took in a step of its own. -/
inductive Action
  | channelNew
  | senderAcquire (id : Nat)
  | senderRelease (id : Nat)
  | receiverAcquire (id : Nat)
  | receiverRelease (id : Nat)
  | send (id value : Nat)
  | recvFuture (data id readyTid pendingTid : Nat) (elemIsPtr : Bool) (valueTid closedTid : Nat)
  | poll (data : Nat) (waker : Waker)
  | cancel (fut : Option FutureBox)
  | tryRecv (id : Nat)
  | callWaker (waker : Waker)
  | taskDies (task : Nat)
  | otherPin (p : Nat)
  | otherUnpin (p : Nat)
  deriving DecidableEq, Repr

/-- The message at the front of a channel. -/
def Runtime.front (r : Runtime) (id : Nat) : Option Nat := do
  let g ← r.registry id
  g.queue.head?

/-- The pins of a channel after it pins or unpins a word; no null word is pinned. -/
def pinned (pins : List (Nat × Nat)) (id value : Nat) : List (Nat × Nat) :=
  if value = 0 then pins else (id, value) :: pins

def unpinned (pins : List (Nat × Nat)) (id value : Nat) : List (Nat × Nat) :=
  pins.erase (id, value)

/-- The pins after the poll of a future of channel `id`. -/
def pollPins (w : World) (d : RecvData) : List (Nat × Nat) :=
  match w.rt.front d.chanId with
  | some value => if d.elemIsPtr then unpinned w.pins d.chanId value else w.pins
  | none => w.pins

/-- Whether a new future may live at this address: no future that is pinned or pending does. -/
def World.vacant (w : World) (data : Nat) : Bool :=
  data != 0 && !w.rt.activeRecvData data && (w.waits data).isNone

def step (w : World) : Action → Option World
  | .channelNew => some { w with rt := (langChannelNew w.rt).2 }
  | .senderAcquire id => do
    let rt ← langChanSenderAcquire w.rt id
    some { w with rt }
  | .senderRelease id => do
    let (wakers, rt) ← langChanSenderRelease w.rt id
    some { w with rt, waking := w.waking ++ wakers }
  | .receiverAcquire id => do
    let rt ← langChanReceiverAcquire w.rt id
    some { w with rt }
  | .receiverRelease id => do
    let rt ← langChanReceiverRelease w.rt id
    some { w with rt }
  | .send id value => do
    let ((sent, wakers), rt) ← langChanSend w.rt id value
    some { w with
      rt, waking := w.waking ++ wakers
      pins := if sent = 0 then pinned w.pins id value else w.pins }
  | .recvFuture data id readyTid pendingTid elemIsPtr valueTid closedTid =>
    if (w.rt.registry id).isSome && w.vacant data then
      some { w with rt :=
        (langChanRecvFuture w.rt data id readyTid pendingTid elemIsPtr valueTid closedTid).2 }
    else none
  | .poll data waker => do
    let d ← w.rt.recvData data
    let (result, rt) ← chanRecvPoll w.rt data waker
    let waits := match result with
      | .ready .. => none
      | .pending _ => some waker
    some { w with
      rt, pins := pollPins w d
      waits := fun a => if a = data then waits else w.waits a
      woken := fun a => if a = data then false else w.woken a }
  | .cancel fut => do
    let (isRecv, rt) ← cancelRecvFuture w.rt fut
    some { w with
      rt
      waits := fun a => if isRecv && fut.map (·.data) == some a then none else w.waits a }
  | .tryRecv id => do
    let ((has, value), rt) ← langChanTryRecv w.rt id
    some { w with rt, pins := if has then unpinned w.pins id value else w.pins }
  | .callWaker waker =>
    if waker ∈ w.waking then
      some { w with
        waking := w.waking.erase waker
        woken := fun a => w.woken a || w.waits a == some waker }
    else none
  | .taskDies t => some { w with rt := { w.rt with live := w.rt.live.without t } }
  | .otherPin p => some { w with rt := w.rt.addRoot p, others := addExtraRoot w.others p }
  | .otherUnpin p =>
    if w.others p = 0 then none
    else some { w with rt := w.rt.removeRoot p, others := removeExtraRoot w.others p }

/-- The start of the runtime: no channel, no future, nothing pinned. -/
structure Initial (w : World) : Prop where
  nextId : w.rt.nextId = 1
  registry : ∀ id, w.rt.registry id = none
  activeRecvData : ∀ a, w.rt.activeRecvData a = false
  extraRoots : ∀ v, w.rt.extraRoots v = 0
  pins : w.pins = []
  others : ∀ v, w.others v = 0
  waits : ∀ a, w.waits a = none

/-- The start with every task running. -/
def newWorld : World :=
  { rt :=
      { nextId := 1, registry := fun _ => none, recvData := fun _ => none
        activeRecvData := fun _ => false, extraRoots := fun _ => 0, live := fun _ => true }
    waking := [], pins := [], others := fun _ => 0
    waits := fun _ => none, woken := fun _ => false }

theorem newWorld_initial : Initial newWorld :=
  ⟨rfl, fun _ => rfl, fun _ => rfl, fun _ => rfl, rfl, fun _ => rfl, fun _ => rfl⟩

/-! ## What one step does -/

/-- The state after a future took the message at the front of its channel. -/
def World.taken (w : World) (data : Nat) (d : RecvData) (g : Inner) (value : Nat)
    (queue : List Nat) : World :=
  { w with
    rt :=
      let r := (finishRecvData (w.rt.setChannel d.chanId { g with queue }) data).2
      if d.elemIsPtr then r.removeRoot value else r
    pins := if d.elemIsPtr then unpinned w.pins d.chanId value else w.pins
    waits := fun a => if a = data then none else w.waits a
    woken := fun a => if a = data then false else w.woken a }

/-- The state after a poll parked the waker of a future. -/
def World.parked (w : World) (data : Nat) (d : RecvData) (g : Inner) (waker : Waker) : World :=
  { w with
    rt := (w.rt.setChannel d.chanId { g with
        waiters := registerWaiter w.rt.live g.waiters waker }).setRecvData data
      { d with waker := some waker, registered := true }
    waits := fun a => if a = data then some waker else w.waits a
    woken := fun a => if a = data then false else w.woken a }

/-- The state after a cancellation that left the runtime as `rt` before the last line. -/
def World.cancelled (w : World) (data : Nat) (rt : Runtime) : World :=
  { w with
    rt := (finishRecvData rt data).2
    waits := fun a => if a = data then none else w.waits a }

/-- The ways a step can go, each with what it found and what it left. -/
inductive Stepped (w : World) : Action → World → Prop
  | channelNew : Stepped w .channelNew { w with rt := (langChannelNew w.rt).2 }
  | senderAcquire {id : Nat} {g : Inner} : w.rt.registry id = some g →
      Stepped w (.senderAcquire id)
        { w with rt := w.rt.setChannel id { g with senders := g.senders + 1 } }
  | lastSender {id : Nat} {g : Inner} : w.rt.registry id = some g → g.senders - 1 = 0 →
      Stepped w (.senderRelease id) { w with
        rt := w.rt.setChannel id { g with senders := g.senders - 1, waiters := [] }
        waking := w.waking ++ pruneDeadWaiters w.rt.live g.waiters }
  | senderRelease {id : Nat} {g : Inner} : w.rt.registry id = some g → g.senders - 1 ≠ 0 →
      Stepped w (.senderRelease id)
        { w with rt := w.rt.setChannel id { g with senders := g.senders - 1 } }
  | receiverAcquire {id : Nat} {g : Inner} : w.rt.registry id = some g →
      Stepped w (.receiverAcquire id)
        { w with rt := w.rt.setChannel id { g with receivers := g.receivers + 1 } }
  | receiverRelease {id : Nat} {g : Inner} : w.rt.registry id = some g →
      Stepped w (.receiverRelease id)
        { w with rt := w.rt.setChannel id { g with receivers := g.receivers - 1 } }
  | rejected {id value : Nat} {g : Inner} : w.rt.registry id = some g → g.receivers = 0 →
      Stepped w (.send id value) w
  | sent {id value : Nat} {g : Inner} : w.rt.registry id = some g → g.receivers ≠ 0 →
      Stepped w (.send id value) { w with
        rt := (w.rt.addRoot value).setChannel id
          { g with queue := g.queue ++ [value], waiters := [] }
        waking := w.waking ++ pruneDeadWaiters w.rt.live g.waiters
        pins := pinned w.pins id value }
  | recvFuture {data id readyTid pendingTid valueTid closedTid : Nat} {elemIsPtr : Bool}
      {g : Inner} : w.rt.registry id = some g → data ≠ 0 → w.rt.activeRecvData data = false →
      w.waits data = none →
      Stepped w (.recvFuture data id readyTid pendingTid elemIsPtr valueTid closedTid)
        { w with rt :=
          (langChanRecvFuture w.rt data id readyTid pendingTid elemIsPtr valueTid closedTid).2 }
  | takes {data value : Nat} {waker : Waker} {d : RecvData} {g : Inner} {queue : List Nat} :
      w.rt.recvData data = some d → w.rt.registry d.chanId = some g → g.queue = value :: queue →
      Stepped w (.poll data waker) (w.taken data d g value queue)
  | closed {data : Nat} {waker : Waker} {d : RecvData} {g : Inner} :
      w.rt.recvData data = some d → w.rt.registry d.chanId = some g → g.queue = [] →
      g.senders = 0 → Stepped w (.poll data waker) { w with
        rt := (finishRecvData w.rt data).2
        waits := fun a => if a = data then none else w.waits a
        woken := fun a => if a = data then false else w.woken a }
  | parks {data : Nat} {waker : Waker} {d : RecvData} {g : Inner} :
      w.rt.recvData data = some d → w.rt.registry d.chanId = some g → g.queue = [] →
      g.senders ≠ 0 → Stepped w (.poll data waker) (w.parked data d g waker)
  /-- The box is null or that of another kind of future. -/
  | cancelOther {fut : Option FutureBox} :
      (∀ f, fut = some f → f.typeId ≠ chanRecvFutureKind) → Stepped w (.cancel fut) w
  /-- No waker is recorded as parked for the future. -/
  | cancelIdle {data : Nat} {d : RecvData} : w.rt.recvData data = some d →
      (d.registered = false ∨ d.waker = none) →
      Stepped w (.cancel (some { data, typeId := chanRecvFutureKind })) (w.cancelled data
        (if d.registered then w.rt.setRecvData data { d with registered := false } else w.rt))
  /-- The recorded waker leaves the channel. -/
  | cancelParked {data : Nat} {waker : Waker} {d : RecvData} {g : Inner} :
      w.rt.recvData data = some d → d.registered = true → d.waker = some waker →
      w.rt.registry d.chanId = some g →
      Stepped w (.cancel (some { data, typeId := chanRecvFutureKind })) (w.cancelled data
        ((w.rt.setChannel d.chanId { g with
          waiters := removeWaiter g.waiters waker }).setRecvData data
            { d with registered := false }))
  | received {id value : Nat} {g : Inner} {queue : List Nat} : w.rt.registry id = some g →
      g.queue = value :: queue → Stepped w (.tryRecv id) { w with
        rt := (w.rt.setChannel id { g with queue }).removeRoot value
        pins := unpinned w.pins id value }
  | nothing {id : Nat} {g : Inner} : w.rt.registry id = some g → g.queue = [] →
      Stepped w (.tryRecv id) w
  | callWaker {waker : Waker} : waker ∈ w.waking → Stepped w (.callWaker waker) { w with
      waking := w.waking.erase waker
      woken := fun a => w.woken a || w.waits a == some waker }
  | taskDies {task : Nat} : Stepped w (.taskDies task)
      { w with rt := { w.rt with live := w.rt.live.without task } }
  | otherPin {p : Nat} : Stepped w (.otherPin p)
      { w with rt := w.rt.addRoot p, others := addExtraRoot w.others p }
  | otherUnpin {p : Nat} : w.others p ≠ 0 → Stepped w (.otherUnpin p)
      { w with rt := w.rt.removeRoot p, others := removeExtraRoot w.others p }

theorem step_poll_cases {w w' : World} {data : Nat} {waker : Waker}
    (h : step w (.poll data waker) = some w') : Stepped w (.poll data waker) w' := by
  simp only [step, chanRecvPoll, Option.bind_eq_bind, Option.bind_eq_some_iff] at h
  obtain ⟨d, hd, ⟨res, rt⟩, ⟨_, hd', g, hg, hres⟩, hw⟩ := h
  cases hd.symm.trans hd'
  split at hres
  · rename_i value queue hq
    simp only [Option.pure_def, Option.some.injEq, Prod.mk.injEq] at hres hw
    obtain ⟨rfl, rfl⟩ := hres
    subst hw
    have hp : pollPins w d
        = if d.elemIsPtr then unpinned w.pins d.chanId value else w.pins := by
      simp [pollPins, Runtime.front, hg, hq]
    rw [hp]
    exact .takes hd hg hq
  · rename_i hq
    have hp : pollPins w d = w.pins := by simp [pollPins, Runtime.front, hg, hq]
    split at hres
    · rename_i hs
      simp only [Option.pure_def, Option.some.injEq, Prod.mk.injEq] at hres hw
      obtain ⟨rfl, rfl⟩ := hres
      subst hw
      rw [hp]
      exact .closed hd hg hq hs
    · rename_i hs
      simp only [Option.pure_def, Option.some.injEq, Prod.mk.injEq] at hres hw
      obtain ⟨rfl, rfl⟩ := hres
      subst hw
      rw [hp]
      exact .parks hd hg hq hs

theorem step_cancel_cases {w w' : World} {fut : Option FutureBox}
    (h : step w (.cancel fut) = some w') : Stepped w (.cancel fut) w' := by
  cases fut with
  | none =>
    simp only [step, cancelRecvFuture, Option.bind_eq_bind, Option.bind_some, Bool.false_and,
      Bool.false_eq_true, if_false, Option.some.injEq] at h
    subst h
    exact .cancelOther fun f hf => by cases hf
  | some fut =>
    obtain ⟨data, typeId⟩ := fut
    by_cases hk : typeId = chanRecvFutureKind
    · subst hk
      simp only [step, cancelRecvFuture, ne_eq, not_true_eq_false, if_false, Option.bind_eq_bind,
        Option.bind_eq_some_iff, Option.pure_def] at h
      obtain ⟨⟨isRecv, rt⟩, ⟨d, hd, r, hr, hrt⟩, hw⟩ := h
      simp only [Option.some.injEq, Prod.mk.injEq] at hrt hw
      obtain ⟨rfl, rfl⟩ := hrt
      have hwaits : w' = w.cancelled data r := by
        subst hw
        simp only [World.cancelled, Option.map_some, Bool.true_and, beq_iff_eq,
          Option.some.injEq]
        congr 1
        funext a
        simp only [eq_comm]
      subst hwaits
      unfold unparkRecv at hr
      split at hr
      · rename_i hreg
        split at hr
        · rename_i waker hwk
          simp only [Option.map_eq_some_iff] at hr
          obtain ⟨g, hg, rfl⟩ := hr
          exact .cancelParked hd hreg hwk hg
        · rename_i hwk
          simp only [Option.some.injEq] at hr
          subst hr
          have := Stepped.cancelIdle (w := w) hd (Or.inr hwk)
          simpa [hreg] using this
      · rename_i hreg
        simp only [Option.some.injEq] at hr
        subst hr
        have hreg : d.registered = false := by simpa using hreg
        have := Stepped.cancelIdle (w := w) hd (Or.inl hreg)
        simpa [hreg] using this
    · simp only [step, cancelRecvFuture, ne_eq, hk, not_false_eq_true, if_true,
        Option.bind_eq_bind, Option.bind_some, Bool.false_and, Bool.false_eq_true, if_false,
        Option.some.injEq] at h
      subst h
      exact .cancelOther fun f hf => by cases hf; exact hk

theorem step_cases {w w' : World} {a : Action} (h : step w a = some w') : Stepped w a w' := by
  cases a with
  | channelNew =>
    simp only [step, Option.some.injEq] at h
    exact h ▸ .channelNew
  | senderAcquire id =>
    simp only [step, langChanSenderAcquire, Option.bind_eq_bind, Option.bind_eq_some_iff,
      Option.pure_def, Option.some.injEq] at h
    obtain ⟨rt, ⟨g, hg, rfl⟩, rfl⟩ := h
    exact .senderAcquire hg
  | senderRelease id =>
    simp only [step, langChanSenderRelease, drainWaiters, Option.bind_eq_bind,
      Option.bind_eq_some_iff, Option.pure_def, Option.some.injEq] at h
    obtain ⟨⟨wakers, rt⟩, ⟨g, hg, hr⟩, rfl⟩ := h
    split at hr
    · rename_i hs
      simp only [Option.some.injEq, Prod.mk.injEq] at hr
      obtain ⟨rfl, rfl⟩ := hr
      exact .lastSender hg hs
    · rename_i hs
      simp only [Option.some.injEq, Prod.mk.injEq] at hr
      obtain ⟨rfl, rfl⟩ := hr
      simp only [List.append_nil]
      exact .senderRelease hg hs
  | receiverAcquire id =>
    simp only [step, langChanReceiverAcquire, Option.bind_eq_bind, Option.bind_eq_some_iff,
      Option.pure_def, Option.some.injEq] at h
    obtain ⟨rt, ⟨g, hg, rfl⟩, rfl⟩ := h
    exact .receiverAcquire hg
  | receiverRelease id =>
    simp only [step, langChanReceiverRelease, Option.bind_eq_bind, Option.bind_eq_some_iff,
      Option.pure_def, Option.some.injEq] at h
    obtain ⟨rt, ⟨g, hg, rfl⟩, rfl⟩ := h
    exact .receiverRelease hg
  | send id value =>
    simp only [step, langChanSend, drainWaiters, Option.bind_eq_bind, Option.bind_eq_some_iff,
      Option.pure_def, Option.some.injEq] at h
    obtain ⟨⟨⟨sent, wakers⟩, rt⟩, ⟨g, hg, hr⟩, rfl⟩ := h
    split at hr
    · rename_i hs
      simp only [Option.some.injEq, Prod.mk.injEq] at hr
      obtain ⟨⟨rfl, rfl⟩, rfl⟩ := hr
      simp only [List.append_nil, Nat.one_ne_zero, if_false]
      exact .rejected hg hs
    · rename_i hs
      simp only [Option.some.injEq, Prod.mk.injEq] at hr
      obtain ⟨⟨rfl, rfl⟩, rfl⟩ := hr
      simp only [if_true]
      exact .sent hg hs
  | recvFuture data id readyTid pendingTid elemIsPtr valueTid closedTid =>
    simp only [step] at h
    split at h
    · rename_i hv
      simp only [World.vacant, Bool.and_eq_true, Option.isSome_iff_exists, bne_iff_ne, ne_eq,
        Bool.not_eq_true', Option.isNone_iff_eq_none] at hv
      obtain ⟨⟨g, hg⟩, ⟨h0, hact⟩, hwait⟩ := hv
      simp only [Option.some.injEq] at h
      exact h ▸ .recvFuture hg h0 hact hwait
    · cases h
  | poll data waker => exact step_poll_cases h
  | cancel fut => exact step_cancel_cases h
  | tryRecv id =>
    simp only [step, langChanTryRecv, Option.bind_eq_bind, Option.bind_eq_some_iff,
      Option.pure_def, Option.some.injEq] at h
    obtain ⟨⟨⟨has, value⟩, rt⟩, ⟨g, hg, hr⟩, rfl⟩ := h
    split at hr
    · rename_i value queue hq
      simp only [Option.some.injEq, Prod.mk.injEq] at hr
      obtain ⟨⟨rfl, rfl⟩, rfl⟩ := hr
      exact .received hg hq
    · rename_i hq
      simp only [Option.some.injEq, Prod.mk.injEq] at hr
      obtain ⟨⟨rfl, rfl⟩, rfl⟩ := hr
      exact .nothing hg hq
  | callWaker waker =>
    simp only [step] at h
    split at h
    · simp only [Option.some.injEq] at h
      exact h ▸ .callWaker ‹_›
    · cases h
  | taskDies task =>
    simp only [step, Option.some.injEq] at h
    exact h ▸ .taskDies
  | otherPin p =>
    simp only [step, Option.some.injEq] at h
    exact h ▸ .otherPin
  | otherUnpin p =>
    simp only [step] at h
    split at h
    · cases h
    · simp only [Option.some.injEq] at h
      exact h ▸ .otherUnpin ‹_›

end runtime.channels
