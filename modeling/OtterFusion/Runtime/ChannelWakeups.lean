-- The wakeups of the channels. A poll that finds an open and empty channel parks its waker, and
-- a send or the last release of a sender calls what is parked. The wakers of one task are one
-- entry, and the cancellation of a future removes the entry it recorded, also when another
-- future of the task still leans on it; each other step leaves every waiting future served.
import OtterFusion.Runtime.ChannelPins

open base.runs runtime.threads

namespace runtime.channels

/-! ## What the law says -/

/-- The waker of a future was called since its last poll, or a send or a release that took it
is about to call it. -/
def World.called (w : World) (data : Nat) (waker : Waker) : Prop :=
  w.woken data = true ∨ waker ∈ w.waking

/-- A future that waits, on behalf of a task that runs, has been woken once its channel has a
message or no sender, and is parked or has been woken while it has neither. -/
structure WokenOrParked (w : World) (data : Nat) (waker : Waker) (g : Inner) : Prop where
  woken : g.queue ≠ [] ∨ g.senders = 0 → w.called data waker
  parked : g.queue = [] → g.senders ≠ 0 → waker ∈ g.waiters ∨ w.called data waker

/-- No wakeup is lost: it is so for each future whose last poll returned `Pending`, and that was
not cancelled since. -/
def NoLostWakeup (w : World) : Prop :=
  ∀ data waker, w.waits data = some waker → ∃ d g, w.rt.recvData data = some d ∧
    w.rt.registry d.chanId = some g ∧
    (waker.isLive w.rt.live = true → WokenOrParked w data waker g)

/-! ## The condition on a step -/

/-- A cancellation that takes a recorded waker from the channel takes it from no other future:
no other one waits on the channel with this waker, for a task that runs, and has yet to be
woken. -/
def CancelsAlone (w : World) : Action → Prop
  | .cancel (some fut) => fut.typeId = chanRecvFutureKind →
    ∀ d waker, w.rt.recvData fut.data = some d → d.registered = true → d.waker = some waker →
      ∀ other e, other ≠ fut.data → w.rt.recvData other = some e → e.chanId = d.chanId →
        w.waits other = some waker → waker.isLive w.rt.live = true → w.called other waker
  | _ => True

/-! ## The parked wakers -/

/-- Two wakers of one task are one waker. -/
theorem Waker.eq_of_taskId {v w : Waker} {t : Nat} (hv : v.taskId = some t)
    (hw : w.taskId = some t) : v = w := by
  obtain ⟨vd, vf⟩ := v
  obtain ⟨wd, wf⟩ := w
  cases vf with
  | other a => cases hv
  | taskWake =>
    cases wf with
    | other a => cases hw
    | taskWake =>
      simp only [Waker.taskId, executorWakerTaskId, Option.some.injEq] at hv hw
      subst hv hw
      rfl

theorem mem_pruneDeadWaiters {live : LiveTasks} {waiters : List Waker} {v : Waker} :
    v ∈ pruneDeadWaiters live waiters ↔ v ∈ waiters ∧ v.isLive live = true := by
  unfold pruneDeadWaiters
  rw [List.mem_filter]

/-- A registration drops the dead wakers, and no other one. -/
theorem mem_registerWaiter {live : LiveTasks} {waiters : List Waker} {waiter v : Waker} :
    v ∈ registerWaiter live waiters waiter ↔
      v = waiter ∨ (v ∈ waiters ∧ v.isLive live = true) := by
  unfold registerWaiter
  simp only [List.mem_append, List.mem_filter, mem_pruneDeadWaiters, List.mem_singleton]
  constructor
  · rintro (⟨h, -⟩ | h)
    · exact Or.inr h
    · exact Or.inl h
  · rintro (h | h)
    · exact Or.inr h
    · by_cases he : v = waiter
      · exact Or.inr he
      · refine Or.inl ⟨h, ?_⟩
        rw [if_neg he]
        cases ht : waiter.taskId with
        | none => rfl
        | some t =>
          simp only [bne_iff_ne, ne_eq]
          intro hv
          exact he (Waker.eq_of_taskId hv ht)

/-- A channel with a message, or without a sender, has nobody parked. -/
def DrainedWhenReady (w : World) : Prop :=
  ∀ id g, w.rt.registry id = some g → g.queue ≠ [] ∨ g.senders = 0 → g.waiters = []

theorem drainedWhenReady_setChannel {w : World} {id : Nat} {g' : Inner}
    (hw : DrainedWhenReady w) {i : Nat} {g : Inner}
    (h : (w.rt.setChannel id g').registry i = some g)
    (hg : g'.queue ≠ [] ∨ g'.senders = 0 → g'.waiters = []) :
    g.queue ≠ [] ∨ g.senders = 0 → g.waiters = [] := by
  rw [setChannel_registry] at h
  split at h
  · cases h
    exact hg
  · exact hw i g h

/-- The same for a change that keeps the waiters and makes no channel ready. -/
theorem drainedWhenReady_kept {w : World} {id : Nat} {g g' : Inner} (hw : DrainedWhenReady w)
    (hg : w.rt.registry id = some g) {i : Nat} {gi : Inner}
    (h : (w.rt.setChannel id g').registry i = some gi)
    (hready : g'.queue ≠ [] ∨ g'.senders = 0 → g.queue ≠ [] ∨ g.senders = 0)
    (hwaiters : g'.waiters = g.waiters) :
    gi.queue ≠ [] ∨ gi.senders = 0 → gi.waiters = [] := by
  apply drainedWhenReady_setChannel hw h
  intro hr
  rw [hwaiters]
  exact hw id g hg (hready hr)

theorem drainedWhenReady_step {w w' : World} {a : Action} (hw : DrainedWhenReady w)
    (h : step w a = some w') : DrainedWhenReady w' := by
  intro i g' hg'
  cases step_cases h with
  | channelNew => exact drainedWhenReady_setChannel hw hg' fun _ => rfl
  | senderAcquire hg =>
    refine drainedWhenReady_kept hw hg hg' (fun hr => ?_) rfl
    exact hr.elim Or.inl fun h0 => absurd h0 (Nat.succ_ne_zero _)
  | lastSender hg _ => exact drainedWhenReady_setChannel hw hg' fun _ => rfl
  | senderRelease hg hs =>
    refine drainedWhenReady_kept hw hg hg' (fun hr => ?_) rfl
    exact hr.elim Or.inl fun h0 => absurd h0 hs
  | receiverAcquire hg | receiverRelease hg =>
    exact drainedWhenReady_kept hw hg hg' (fun hr => hr) rfl
  | sent hg _ => exact drainedWhenReady_setChannel (w := w) hw hg' fun _ => rfl
  | recvFuture _ _ _ _ => exact hw i g' hg'
  | takes hd hg hq =>
    rw [taken_registry] at hg'
    exact drainedWhenReady_kept hw hg hg' (fun _ => Or.inl (by simp [hq])) rfl
  | closed _ _ _ _ =>
    simp only [finishRecvData_registry] at hg'
    exact hw i g' hg'
  | parks _ hg hq hs =>
    refine drainedWhenReady_setChannel hw hg' fun hr => ?_
    rcases hr with h1 | h1
    · exact absurd hq h1
    · exact absurd h1 hs
  | cancelIdle _ _ =>
    simp only [World.cancelled, finishRecvData_registry] at hg'
    split at hg' <;> exact hw i g' hg'
  | cancelParked _ _ _ hg =>
    simp only [World.cancelled, finishRecvData_registry] at hg'
    refine drainedWhenReady_setChannel hw hg' fun hr => ?_
    simp only [hw _ _ hg hr, removeWaiter, List.filter_nil]
  | received hg hq =>
    exact drainedWhenReady_kept hw hg hg' (fun _ => Or.inl (by simp [hq])) rfl
  | rejected | cancelOther | nothing | callWaker | taskDies | otherPin | otherUnpin =>
    exact hw i g' hg'

/-! ## What a step keeps -/

/-- A waiting future is served: its channel exists, and its waker is parked there or called. -/
def ServedAt (w : World) (data : Nat) (waker : Waker) : Prop :=
  ∃ d g, w.rt.recvData data = some d ∧ w.rt.registry d.chanId = some g ∧
    (waker.isLive w.rt.live = true → waker ∈ g.waiters ∨ w.called data waker)

def Served (w : World) : Prop :=
  ∀ data waker, w.waits data = some waker → ServedAt w data waker

/-- As nobody is parked on a channel that is ready, to be served is to lose no wakeup. -/
theorem served_iff {w : World} (hd : DrainedWhenReady w) : Served w ↔ NoLostWakeup w := by
  constructor
  · intro hs data waker hwait
    obtain ⟨d, g, hrd, hg, hlive⟩ := hs data waker hwait
    refine ⟨d, g, hrd, hg, fun hl => ⟨fun hready => ?_, fun _ _ => hlive hl⟩⟩
    rcases hlive hl with hin | hc
    · rw [hd _ _ hg hready] at hin
      cases hin
    · exact hc
  · intro hn data waker hwait
    obtain ⟨d, g, hrd, hg, hlive⟩ := hn data waker hwait
    refine ⟨d, g, hrd, hg, fun hl => ?_⟩
    by_cases hready : g.queue ≠ [] ∨ g.senders = 0
    · exact Or.inr ((hlive hl).woken hready)
    · have hq : g.queue = [] := by
        by_contra h
        exact hready (Or.inl h)
      exact (hlive hl).parked hq fun h0 => hready (Or.inr h0)

/-- What of the channels and the calls must survive for a future to stay served: no channel
goes, and a live waker leaves it only to be called. -/
structure Keeps (w w' : World) : Prop where
  live : ∀ v : Waker, v.isLive w'.rt.live = true → v.isLive w.rt.live = true
  parked : ∀ id g, w.rt.registry id = some g → ∃ g', w'.rt.registry id = some g' ∧
    ∀ v ∈ g.waiters, v.isLive w'.rt.live = true → v ∈ g'.waiters ∨ v ∈ w'.waking
  waking : ∀ v ∈ w.waking, v ∈ w'.waking

theorem Keeps.servedAt {w w' : World} (hk : Keeps w w') {data : Nat} {waker : Waker}
    (hs : ServedAt w data waker)
    (hd : ∀ d, w.rt.recvData data = some d →
      ∃ d', w'.rt.recvData data = some d' ∧ d'.chanId = d.chanId)
    (hwoken : w.woken data = true → w'.woken data = true) : ServedAt w' data waker := by
  obtain ⟨d, g, hrd, hg, hlive⟩ := hs
  obtain ⟨d', hrd', hid⟩ := hd d hrd
  obtain ⟨g', hg', hpark⟩ := hk.parked _ g hg
  refine ⟨d', g', hrd', by rw [hid, hg'], fun hl => ?_⟩
  rcases hlive (hk.live _ hl) with hin | hw | hw
  · rcases hpark waker hin hl with hin' | hin'
    · exact Or.inl hin'
    · exact Or.inr (Or.inr hin')
  · exact Or.inr (Or.inl (hwoken hw))
  · exact Or.inr (Or.inr (hk.waking waker hw))

/-- A step that changes the registry as one new entry for a channel does. -/
theorem keeps_setChannel {w w' : World} {id : Nat} {g g' : Inner}
    (hg : w.rt.registry id = some g)
    (hreg : w'.rt.registry = (w.rt.setChannel id g').registry)
    (hlive : w'.rt.live = w.rt.live)
    (hpark : ∀ v ∈ g.waiters, v.isLive w.rt.live = true → v ∈ g'.waiters ∨ v ∈ w'.waking)
    (hwaking : ∀ v ∈ w.waking, v ∈ w'.waking) : Keeps w w' := by
  refine ⟨fun v hv => hlive ▸ hv, fun i g1 hg1 => ?_, hwaking⟩
  rw [hreg, setChannel_registry, hlive]
  by_cases hi : i = id
  · subst hi
    cases hg.symm.trans hg1
    exact ⟨g', if_pos rfl, hpark⟩
  · exact ⟨g1, by rw [if_neg hi, hg1], fun v hv _ => Or.inl hv⟩

theorem keeps_of_same {w w' : World} (hreg : w'.rt.registry = w.rt.registry)
    (hlive : w'.rt.live = w.rt.live) (hwaking : w'.waking = w.waking) : Keeps w w' := by
  refine ⟨fun v hv => hlive ▸ hv, fun i g hg => ⟨g, by rw [hreg, hg], fun v hv _ => Or.inl hv⟩,
    fun v hv => hwaking ▸ hv⟩

/-- A step that leaves the futures alone keeps them served with what it keeps. -/
theorem Served.keep {w w' : World} (hs : Served w) (hk : Keeps w w')
    (hrecv : w'.rt.recvData = w.rt.recvData) (hwaits : w'.waits = w.waits)
    (hwoken : w'.woken = w.woken) : Served w' := by
  intro data waker hwait
  rw [hwaits] at hwait
  exact hk.servedAt (hs data waker hwait) (fun d hd => ⟨d, by rw [hrecv, hd], rfl⟩)
    fun h => hwoken ▸ h

/-- The same for a step that ends the wait of one future and leaves the others alone. -/
theorem Served.keep_but {w w' : World} (hs : Served w) (data : Nat) (hk : Keeps w w')
    (hrecv : ∀ a, a ≠ data → w'.rt.recvData a = w.rt.recvData a)
    (hwaits : ∀ a, w'.waits a = if a = data then none else w.waits a)
    (hwoken : ∀ a, a ≠ data → w'.woken a = w.woken a) : Served w' := by
  intro a waker hwait
  rw [hwaits] at hwait
  by_cases ha : a = data
  · rw [if_pos ha] at hwait
    cases hwait
  · rw [if_neg ha] at hwait
    exact hk.servedAt (hs a waker hwait) (fun d hd => ⟨d, by rw [hrecv a ha, hd], rfl⟩)
      fun h => by rw [hwoken a ha, h]

@[simp] theorem taken_recvData (w : World) (data value : Nat) (d : RecvData) (g : Inner)
    (queue : List Nat) : (w.taken data d g value queue).rt.recvData = w.rt.recvData := by
  unfold World.taken Runtime.removeRoot
  simp only
  split <;> simp [Runtime.setChannel]

@[simp] theorem taken_live (w : World) (data value : Nat) (d : RecvData) (g : Inner)
    (queue : List Nat) : (w.taken data d g value queue).rt.live = w.rt.live := by
  unfold World.taken Runtime.removeRoot
  simp only
  split <;> simp [Runtime.setChannel]

/-- A poll that parks serves its own future, and each other one as before. -/
theorem served_parked {w : World} {data : Nat} {d : RecvData} {g : Inner} (waker : Waker)
    (hs : Served w) (hd : w.rt.recvData data = some d) (hg : w.rt.registry d.chanId = some g) :
    Served (w.parked data d g waker) := by
  have hk : Keeps w (w.parked data d g waker) := by
    refine keeps_setChannel hg rfl rfl (fun v hv hl => Or.inl ?_) fun v hv => hv
    exact mem_registerWaiter.mpr (Or.inr ⟨hv, hl⟩)
  intro a v hwait
  by_cases ha : a = data
  · subst ha
    have hv : waker = v := by simpa [World.parked] using hwait
    subst hv
    refine ⟨{ d with waker := some waker, registered := true },
      { g with waiters := registerWaiter w.rt.live g.waiters waker }, ?_, ?_, fun _ => ?_⟩
    · simp [World.parked, Runtime.setRecvData]
    · simp [World.parked, Runtime.setRecvData, Runtime.setChannel]
    · exact Or.inl (mem_registerWaiter.mpr (Or.inl rfl))
  · have hwait' : w.waits a = some v := by simpa [World.parked, ha] using hwait
    refine hk.servedAt (hs a v hwait') (fun e he => ⟨e, ?_, rfl⟩) fun h => ?_
    · simpa [World.parked, Runtime.setRecvData, Runtime.setChannel, ha] using he
    · simpa [World.parked, ha] using h

/-- The call of a waker wakes each future that waits with it. -/
theorem served_callWaker {w : World} (waker : Waker) (hs : Served w) : Served { w with
    waking := w.waking.erase waker
    woken := fun a => w.woken a || w.waits a == some waker } := by
  intro a v hwait
  have hwait : w.waits a = some v := hwait
  obtain ⟨d, g, hrd, hg, hlive⟩ := hs a v hwait
  refine ⟨d, g, hrd, hg, fun hl => ?_⟩
  by_cases hv : v = waker
  · exact Or.inr (Or.inl (by simp [hwait, hv]))
  · rcases hlive hl with hin | hw | hw
    · exact Or.inl hin
    · exact Or.inr (Or.inl (by simp [hw]))
    · exact Or.inr (Or.inr ((List.mem_erase_of_ne hv).mpr hw))

/-- A cancellation that removes a waker serves the other futures exactly when it removes it
from none of them. -/
theorem served_cancelParked {w : World} {data : Nat} {waker : Waker} {d : RecvData} {g : Inner}
    (hs : Served w) (hd : w.rt.recvData data = some d) (hreg : d.registered = true)
    (hwk : d.waker = some waker) (hg : w.rt.registry d.chanId = some g) :
    Served (w.cancelled data ((w.rt.setChannel d.chanId { g with
        waiters := removeWaiter g.waiters waker }).setRecvData data
          { d with registered := false })) ↔
      CancelsAlone w (.cancel (some { data, typeId := chanRecvFutureKind })) := by
  constructor
  · rintro hs' - d' waker' hd' - hwk' other e hne he hid hwait hl
    cases hd.symm.trans hd'
    cases hwk.symm.trans hwk'
    have hwait' : (w.cancelled data ((w.rt.setChannel d.chanId { g with
        waiters := removeWaiter g.waiters waker }).setRecvData data
          { d with registered := false })).waits other = some waker := by
      simp [World.cancelled, hne, hwait]
    obtain ⟨e', g', he', hg', hlive⟩ := hs' other waker hwait'
    simp only [World.cancelled, finishRecvData_recvData, finishRecvData_registry,
      finishRecvData_live, Runtime.setRecvData, Runtime.setChannel, hne, if_false] at he' hg' hlive
    cases he.symm.trans he'
    rw [if_pos hid, Option.some.injEq] at hg'
    subst hg'
    rcases hlive hl with hin | hc
    · simp [removeWaiter] at hin
    · exact hc
  · intro halone other v hwait'
    have hne : other ≠ data := by
      rintro rfl
      simp [World.cancelled] at hwait'
    have hwait : w.waits other = some v := by simpa [World.cancelled, hne] using hwait'
    obtain ⟨e, ge, he, hge, hlive⟩ := hs other v hwait
    by_cases hid : e.chanId = d.chanId
    · refine ⟨e, { g with waiters := removeWaiter g.waiters waker }, ?_, ?_, fun hl => ?_⟩
      · simpa [World.cancelled, Runtime.setRecvData, Runtime.setChannel, hne] using he
      · simp [World.cancelled, Runtime.setRecvData, Runtime.setChannel, hid]
      · have hl' : v.isLive w.rt.live = true := by
          simpa [World.cancelled, Runtime.setRecvData, Runtime.setChannel] using hl
        by_cases hv : v = waker
        · subst hv
          exact Or.inr (halone rfl d v hd hreg hwk other e hne he hid hwait hl')
        · rw [hid] at hge
          cases hg.symm.trans hge
          rcases hlive hl' with hin | hc
          · exact Or.inl (by simp [removeWaiter, hin, hv])
          · exact Or.inr hc
    · refine ⟨e, ge, ?_, ?_, fun hl => ?_⟩
      · simpa [World.cancelled, Runtime.setRecvData, Runtime.setChannel, hne] using he
      · simpa [World.cancelled, Runtime.setRecvData, Runtime.setChannel, hid] using hge
      · exact hlive (by simpa [World.cancelled, Runtime.setRecvData, Runtime.setChannel] using hl)

/-- A step keeps every waiting future served exactly when a cancellation in it is alone. -/
theorem served_step {w w' : World} {a : Action} (hf : Fresh w) (hs : Served w)
    (h : step w a = some w') : Served w' ↔ CancelsAlone w a := by
  have hsub : ∀ v ∈ w.waking, v ∈ w.waking := fun _ hv => hv
  cases step_cases h with
  | channelNew =>
    refine iff_of_true (hs.keep ⟨fun _ hv => hv, fun id g hg => ⟨g, ?_, fun v hv _ => Or.inl hv⟩,
      hsub⟩ rfl rfl rfl) trivial
    have hne : id ≠ w.rt.nextId := by
      rintro rfl
      rw [hf _ (Nat.le_refl _)] at hg
      cases hg
    simpa [langChannelNew, setChannel_registry, hne] using hg
  | senderAcquire hg | senderRelease hg _ | receiverAcquire hg | receiverRelease hg =>
    refine iff_of_true (hs.keep ?_ rfl rfl rfl) trivial
    exact keeps_setChannel hg rfl rfl (fun v hv _ => Or.inl hv) hsub
  | lastSender hg _ | sent hg _ =>
    refine iff_of_true (hs.keep ?_ rfl rfl rfl) trivial
    refine keeps_setChannel hg rfl rfl (fun v hv hl => Or.inr ?_) fun v hv => ?_
    · exact List.mem_append_right _ (mem_pruneDeadWaiters.mpr ⟨hv, hl⟩)
    · exact List.mem_append_left _ hv
  | @recvFuture data id readyTid pendingTid valueTid closedTid elemIsPtr g hg h0 hact hwait =>
    refine iff_of_true (hs.keep_but data (keeps_of_same rfl rfl rfl) (fun a ha => ?_)
      (fun a => ?_) fun _ _ => rfl) trivial
    · simp [langChanRecvFuture, Runtime.addRoot, Runtime.setRecvData, ha]
    · by_cases ha : a = data
      · simp [ha, hwait]
      · simp [ha]
  | @takes data value waker d g queue hd hg hq =>
    refine iff_of_true (hs.keep_but data ?_ (fun a _ => by rw [taken_recvData]) (fun _ => rfl)
      fun a ha => by simp [World.taken, ha]) trivial
    exact keeps_setChannel hg (taken_registry w data value d g queue)
      (taken_live w data value d g queue) (fun v hv _ => Or.inl hv) hsub
  | @closed data waker d g hd hg hq hs0 =>
    refine iff_of_true (hs.keep_but data ?_ (fun a _ => by simp) (fun _ => rfl)
      fun a ha => by simp [ha]) trivial
    exact keeps_of_same (finishRecvData_registry _ _) (finishRecvData_live _ _) rfl
  | parks hd hg _ _ => exact iff_of_true (served_parked _ hs hd hg) trivial
  | @cancelOther fut hkind =>
    refine iff_of_true hs ?_
    cases fut with
    | none => trivial
    | some f => exact fun hk => absurd hk (hkind f rfl)
  | @cancelIdle data d hd hidle =>
    refine iff_of_true (hs.keep_but data (keeps_of_same ?_ ?_ rfl) (fun a ha => ?_) (fun _ => rfl)
      fun _ _ => rfl) ?_
    · simp only [World.cancelled, finishRecvData_registry]
      split <;> rfl
    · simp only [World.cancelled, finishRecvData_live]
      split <;> rfl
    · simp only [World.cancelled, finishRecvData_recvData]
      split
      · simp [Runtime.setRecvData, ha]
      · rfl
    · rintro - d' waker hd' hreg hwk
      cases hd.symm.trans hd'
      rcases hidle with h1 | h1
      · rw [h1] at hreg
        cases hreg
      · rw [h1] at hwk
        cases hwk
  | cancelParked hd hreg hwk hg => exact served_cancelParked hs hd hreg hwk hg
  | received hg hq =>
    refine iff_of_true (hs.keep ?_ rfl rfl rfl) trivial
    exact keeps_setChannel hg rfl rfl (fun v hv _ => Or.inl hv) hsub
  | callWaker hin => exact iff_of_true (served_callWaker _ hs) trivial
  | taskDies =>
    refine iff_of_true (hs.keep ⟨fun v hv => ?_, fun id g hg => ⟨g, hg, fun v hv _ => Or.inl hv⟩,
      hsub⟩ rfl rfl rfl) trivial
    simp only [Waker.isLive, bne_iff_ne] at hv ⊢
    exact executorWakerIsLive_of_without hv
  | rejected | nothing | otherPin | otherUnpin =>
    exact iff_of_true (hs.keep (keeps_of_same rfl rfl rfl) rfl rfl rfl) trivial

/-! ## The law -/

theorem wakeups_in_every_run {w : World} (hw : Reachable step Initial w) :
    Fresh w ∧ DrainedWhenReady w := by
  refine hw.invariant (I := fun w => Fresh w ∧ DrainedWhenReady w) (fun w h0 => ?_) ?_
  · refine ⟨fun id _ => h0.registry id, fun id g hg => ?_⟩
    rw [h0.registry] at hg
    cases hg
  · rintro w a w' ⟨hf, hd⟩ _ h
    exact ⟨fresh_step hf h, drainedWhenReady_step hd h⟩

/-- While each cancellation takes its waker from no other future, no wakeup is lost: a future
that waits has been woken once its channel is ready, and is parked or has been woken while the
channel is open and empty. The next step keeps it so exactly when it is such a cancellation, or
none. -/
theorem no_wakeup_is_lost_while_cancellations_are_alone {w : World}
    (hw : Reaches step Initial CancelsAlone w) :
    NoLostWakeup w ∧ ∀ a w', step w a = some w' → (NoLostWakeup w' ↔ CancelsAlone w a) := by
  have hall : ∀ w, Reaches step Initial CancelsAlone w → Fresh w ∧ DrainedWhenReady w :=
    fun w hw => wakeups_in_every_run (hw.mono fun _ _ _ => trivial)
  have hserved : Served w := by
    refine hw.invariant_with hall (fun w h0 data waker hwait => ?_) fun w a w' hI hs ha h =>
      (served_step hI.1 hs h).mpr ha
    rw [h0.waits] at hwait
    cases hwait
  obtain ⟨hf, hd⟩ := hall w hw
  refine ⟨(served_iff hd).mp hserved, fun a w' h => ?_⟩
  rw [← served_iff (drainedWhenReady_step hd h)]
  exact served_step hf hserved h

/-- Whether a step cancels no future. -/
def cancelsNothing (_ : World) : Action → Bool
  | .cancel (some _) => false
  | _ => true

theorem cancelsAlone_of_nothing {w : World} {a : Action} (h : cancelsNothing w a = true) :
    CancelsAlone w a := by
  cases a with
  | cancel fut =>
    cases fut with
    | none => trivial
    | some _ => cases h
  | _ => trivial

/-- Two tasks wait on a channel. The future of task 8 is cancelled, which leaves that of task 7
parked, and the send that follows takes the waker of task 7. -/
theorem no_wakeup_is_lost_in_a_run :
    let as : List Action := [.channelNew, .recvFuture 64 1 7 9 false 11 12,
      .recvFuture 128 1 7 9 false 11 12, .poll 64 ⟨7, .taskWake⟩, .poll 128 ⟨8, .taskWake⟩]
    let cancel : Action := .cancel (some ⟨128, chanRecvFutureKind⟩)
    ∃ w, run step newWorld (as ++ [cancel, .send 1 5]) = some w ∧
      w.waits 64 = some ⟨7, .taskWake⟩ ∧ w.waking = [⟨7, .taskWake⟩] ∧ NoLostWakeup w ∧
      ∀ a w', step w a = some w' → (NoLostWakeup w' ↔ CancelsAlone w a) := by
  intro as cancel
  refine ⟨_, rfl, by decide, by decide, ?_⟩
  apply no_wakeup_is_lost_while_cancellations_are_alone
  have hparked : Reaches step Initial CancelsAlone _ :=
    Reaches.of_tested_run (fun _ _ => cancelsAlone_of_nothing) (.start newWorld_initial)
      (rfl : run _ newWorld as = some _)
  refine .next (l := .send 1 5) (.next (l := cancel) hparked ?_ rfl) trivial rfl
  rintro - d waker hd _ hwaker other e hother _ _ hwaits
  cases hd
  cases hwaker
  have hother64 : (if other = 128 then some ⟨8, .taskWake⟩ else if other = 64 then
      some ⟨7, .taskWake⟩ else none) = some (⟨8, .taskWake⟩ : Waker) := hwaits
  rw [if_neg hother] at hother64
  split at hother64 <;> cases hother64

/-- Task 7 waits with two futures of one channel, and its waker is one entry. The first future
is cancelled and takes the entry with it; the send that follows wakes nobody, and the second
future waits beside a message. -/
theorem a_cancelled_future_takes_the_wakeup_of_another : Initial newWorld ∧
    ∃ w, run step newWorld [.channelNew, .recvFuture 64 1 7 9 false 11 12,
        .recvFuture 128 1 7 9 false 11 12, .poll 64 ⟨7, .taskWake⟩, .poll 128 ⟨7, .taskWake⟩,
        .cancel (some ⟨64, chanRecvFutureKind⟩), .send 1 5] = some w ∧
      w.waits 128 = some ⟨7, .taskWake⟩ ∧ w.rt.queueOf 1 = [5] ∧ w.waking = [] ∧
      w.woken 128 = false ∧ ¬ NoLostWakeup w := by
  refine ⟨newWorld_initial, _, rfl, by decide, by decide, by decide, by decide, fun h => ?_⟩
  obtain ⟨d, g, hd, hg, hlive⟩ := h 128 ⟨7, .taskWake⟩ (by decide)
  cases Option.some.inj hd
  cases Option.some.inj hg
  rcases (hlive (by decide)).woken (Or.inl (by decide)) with hw | hw
  · exact absurd hw (by decide)
  · exact absurd hw (by decide)

end runtime.channels
