-- The wakeups of a `Shared` lock. A release wakes the live waiter at the head of the queue, and
-- nothing else does. So the head stays woken while the lock is free, unless the head leaves the
-- queue without the lock: its task dies, or its task polls another lock future of the cell.
import OtterFusion.Base.Outcome
import OtterFusion.Runtime.SharedLock

open base.outcome base.runs runtime.threads

namespace runtime.shared

/-! ## What the law says -/

/-- The live waiter at the head of the queue. -/
def firstLive (live : LiveTasks) (q : List Waker) : Option Waker := q.find? (·.isLive live)

/-- With a free lock, the live waiter at the head was called since the lock was last taken, or
a release that took it from the head is about to call it. -/
def HeadWoken (c : Cell) : Prop :=
  c.state.locked = false → ∀ w, firstLive c.live c.state.queue = some w →
    w ∈ c.woken ∨ w ∈ c.waking

/-! ## The condition on a step -/

/-- The queue that a first poll with this waker finds once the dead front and the entries of
its own task are gone. -/
def othersQueued (c : Cell) (data : Nat) (wake : WakeFn) : List Waker :=
  (removeDuplicateTaskWaiters c.live (pruneDeadFront c.live c.state) data wake).queue

/-- While the lock is free, the live head leaves the queue only with the lock: a first poll
keeps it, unless nobody but its own task waits, and a task that dies holds no live head that
another live waiter stands behind. -/
def KeepsHead (c : Cell) : Action → Prop
  | .poll f data wake =>
    (c.futures f).state = .acqInit → (c.futures f).isTry = false → c.state.locked = false →
      ∀ w, firstLive c.live c.state.queue = some w →
        w ∈ othersQueued c data wake ∨ othersQueued c data wake = []
  | .taskDies t =>
    c.state.locked = false → ∀ w, firstLive c.live c.state.queue = some w →
      w.taskId = some t → ∀ v ∈ c.state.queue, v.isLive c.live = true → v.taskId = some t
  | _ => True

/-! ## The live head of the queue -/

/-- The prune brings the live head to the front. -/
theorem pruneDeadFront_head? (live : LiveTasks) (s : State) :
    (pruneDeadFront live s).queue.head? = firstLive live s.queue := by
  unfold firstLive pruneDeadFront
  exact (List.find?_eq_head?_dropWhile_not _ _).symm

theorem firstLive_cons {live : LiveTasks} {w : Waker} (h : w.isLive live = true)
    (q : List Waker) : firstLive live (w :: q) = some w := by
  simp [firstLive, h]

/-- The live head is what a queue with the dead front pruned starts with. -/
theorem pruneDeadFront_cons {live : LiveTasks} {s : State} {w : Waker}
    (h : firstLive live s.queue = some w) :
    w.isLive live = true ∧ ∃ q, (pruneDeadFront live s).queue = w :: q := by
  have hhead := pruneDeadFront_head? live s
  rw [h] at hhead
  exact ⟨pruneDeadFront_head live s w hhead, List.head?_eq_some_iff.mp hhead⟩

theorem pruneDeadFront_nil {live : LiveTasks} {s : State}
    (h : firstLive live s.queue = none) : (pruneDeadFront live s).queue = [] := by
  have hhead := pruneDeadFront_head? live s
  rw [h] at hhead
  exact List.head?_eq_none_iff.mp hhead

/-- The removal of a task's entries keeps the order of the others, so a head that stays is
still the head. -/
theorem removeDuplicates_cons {live : LiveTasks} {s : State} {w : Waker} {q : List Waker}
    {data : Nat} {wake : WakeFn} (hq : s.queue = w :: q)
    (hw : w ∈ (removeDuplicateTaskWaiters live s data wake).queue) :
    ∃ q', (removeDuplicateTaskWaiters live s data wake).queue = w :: q' := by
  unfold removeDuplicateTaskWaiters at hw ⊢
  split at hw
  · simp only [hq] at hw ⊢
    exact ⟨_, List.filter_cons_of_pos (List.mem_filter.mp hw).2⟩
  · exact ⟨q, hq⟩

/-- A refresh of another ticket leaves the head as it is. -/
theorem refresh_cons {data ticket : Nat} {wake : WakeFn} {w : Waker} (q : List Waker)
    (h : w.ticket ≠ ticket) :
    refresh data wake ticket (w :: q) = w :: refresh data wake ticket q := by
  simp [refresh, h]

/-! ## What a step keeps -/

/-- A lock that is held, or that this step takes, asks for no wakeup. -/
theorem headWoken_of_locked {c : Cell} (h : c.state.locked = true) : HeadWoken c :=
  fun hfree => absurd hfree (by simp [h])

/-- A change of the queue of a free lock that leaves the live head where it is. -/
theorem headWoken_of_same_head {c c' : Cell} (hc : HeadWoken c)
    (hfree : c.state.locked = false)
    (hhead : ∀ w, firstLive c'.live c'.state.queue = some w →
      firstLive c.live c.state.queue = some w)
    (hwoken : c'.woken = c.woken) (hwaking : c'.waking = c.waking) : HeadWoken c' := by
  intro _ w hw
  rw [hwoken, hwaking]
  exact hc hfree w (hhead w hw)

/-- A first poll that joins the queue of a free lock leaves the live head where it is, if that
was not an entry of its own task. -/
theorem joins_same_head {c : Cell} {data : Nat} {wake : WakeFn} {w : Waker}
    (hne : othersQueued c data wake ≠ [])
    (hkeep : ∀ w, firstLive c.live c.state.queue = some w →
      w ∈ othersQueued c data wake ∨ othersQueued c data wake = [])
    (hw : firstLive c.live (othersQueued c data wake ++
      [{ data, wake, ticket := c.state.nextTicket }]) = some w) :
    firstLive c.live c.state.queue = some w := by
  cases hhead : firstLive c.live c.state.queue with
  | none =>
    have hnil := removeDuplicateTaskWaiters_sublist c.live (pruneDeadFront c.live c.state)
      data wake
    rw [pruneDeadFront_nil hhead] at hnil
    exact absurd (List.sublist_nil.mp hnil) hne
  | some v =>
    obtain ⟨hlive, q, hq⟩ := pruneDeadFront_cons hhead
    have hv : v ∈ othersQueued c data wake := (hkeep v hhead).resolve_right hne
    obtain ⟨q', hq'⟩ := removeDuplicates_cons hq hv
    unfold othersQueued at hw
    rw [hq', List.cons_append, firstLive_cons hlive] at hw
    exact hw

/-- A waiter that polls before its turn leaves the live head of a free lock where it is. -/
theorem stays_same_head {live : LiveTasks} {s : State} {ticket data : Nat} {wake : WakeFn}
    {w : Waker} (hturn : (pruneDeadFront live s).queue.head?.map (·.ticket) ≠ some ticket)
    (hw : firstLive live (refresh data wake ticket (pruneDeadFront live s).queue) = some w) :
    firstLive live s.queue = some w := by
  cases hhead : firstLive live s.queue with
  | none =>
    rw [pruneDeadFront_nil hhead] at hw
    cases hw
  | some v =>
    obtain ⟨hlive, q, hq⟩ := pruneDeadFront_cons hhead
    rw [hq] at hw hturn
    have hne : v.ticket ≠ ticket := by simpa using hturn
    rw [refresh_cons q hne, firstLive_cons hlive] at hw
    exact hw

/-- A poll of a waiting future that keeps the head keeps it woken. -/
theorem headWoken_poll {c : Cell} {f data : Nat} {wake : WakeFn} (hc : HeadWoken c)
    (hkeep : KeepsHead c (.poll f data wake)) (hq : Acquiring (c.futures f)) :
    HeadWoken (c.withState (lockPoll c.live c.state (c.futures f) data wake).2) := by
  rw [lockPoll_of_acquiring hq]
  have hadv := advance_cases c.live c.state (c.futures f).acqState (c.futures f).ticket data wake
  generalize advance c.live c.state (c.futures f).acqState (c.futures f).ticket data wake = r
    at hadv
  have hne := acqState_ne_acquired (c.futures f)
  have hinit : (c.futures f).acqState = .init → (c.futures f).state = .acqInit := by
    unfold LockData.acqState
    split
    · exact fun _ => ‹_›
    · exact fun h => by cases h
  generalize (c.futures f).acqState = st at hadv hne hinit
  cases hadv with
  | held => exact absurd rfl hne
  | free | alone | turn | staleTakes => exact headWoken_of_locked rfl
  | joins h =>
    cases hfree : c.state.locked with
    | true => exact headWoken_of_locked (by simp [Cell.withState, enqueue, hfree])
    | false =>
      refine headWoken_of_same_head hc hfree (fun w hw => ?_) (by
        simp [Cell.withState, enqueue, hfree]) rfl
      simp only [Cell.withState, enqueue, removeDuplicateTaskWaiters_nextTicket,
        pruneDeadFront_nextTicket] at hw
      exact joins_same_head (h hfree) (hkeep (hinit rfl) hq.2 hfree) hw
  | stays hany hturn =>
    cases hfree : c.state.locked with
    | true => exact headWoken_of_locked (by simp [Cell.withState, hfree])
    | false =>
      refine headWoken_of_same_head hc hfree (fun w hw => ?_) (by
        simp [Cell.withState, hfree]) rfl
      exact stays_same_head (hturn hfree) hw
  | staleJoins _ hl => exact headWoken_of_locked (by simp [Cell.withState, enqueue, hl])

/-- A death that leaves no live waiter behind the head leaves the head woken. -/
theorem headWoken_taskDies {c : Cell} {t : Nat} (hc : HeadWoken c)
    (hkeep : KeepsHead c (.taskDies t)) : HeadWoken { c with live := c.live.without t } := by
  intro hfree w hw
  simp only at hfree hw ⊢
  obtain ⟨hlive, before, after, hq, hdead⟩ := List.find?_eq_some_iff_append.mp hw
  have hlive' : w.isLive c.live = true := by
    simp only [Waker.isLive, bne_iff_ne] at hlive ⊢
    exact executorWakerIsLive_of_without hlive
  have hother : w.taskId ≠ some t := by
    intro he
    cases hwf : w.wake with
    | taskWake =>
      have hd : w.data = t := by simpa [Waker.taskId, executorWakerTaskId, hwf] using he
      simp [Waker.isLive, executorWakerIsLive, executorWakerTask, executorWakerTaskId, hwf, hd,
        LiveTasks.without] at hlive
    | other a => simp [Waker.taskId, executorWakerTaskId, hwf] at he
  have hwq : w ∈ c.state.queue := by rw [hq]; simp
  cases hhead : firstLive c.live c.state.queue with
  | none => exact absurd hlive' (by simpa using List.find?_eq_none.mp hhead w hwq)
  | some v =>
    by_cases hv : v.taskId = some t
    · exact absurd (hkeep hfree v hhead hv w hwq hlive') hother
    · have hvlive : v.isLive (c.live.without t) = true := by
        have := (pruneDeadFront_cons hhead).1
        simp only [Waker.isLive] at this ⊢
        rw [executorWakerIsLive_without hv]
        exact this
      obtain ⟨_, before', after', hq', hdead'⟩ := List.find?_eq_some_iff_append.mp hhead
      have hsame : firstLive (c.live.without t) c.state.queue = some v := by
        refine List.find?_eq_some_iff_append.mpr ⟨hvlive, before', after', hq', fun u hu => ?_⟩
        have hud := hdead' u hu
        simp only [Waker.isLive, Bool.not_eq_true', bne_eq_false_iff_eq] at hud ⊢
        by_contra hlu
        exact executorWakerIsLive_of_without hlu hud
      have hvw : v = w := Option.some.inj (hsame.symm.trans hw)
      exact hvw ▸ hc hfree v hhead

/-- Every step that keeps the head keeps it woken. -/
theorem headWoken_step {c c' : Cell} {a : Action} (hc : HeadWoken c) (ha : KeepsHead c a)
    (h : step c a = some c') : HeadWoken c' := by
  cases a with
  | poll f data wake =>
    simp only [step, Option.some.injEq] at h
    subst h
    by_cases hq : Acquiring (c.futures f)
    · exact headWoken_poll hc ha hq
    · rcases lockPoll_of_not_acquiring c.live c.state data wake hq with he | ⟨_, he⟩
      · rw [he]
        intro hfree w hw
        have hfree : c.state.locked = false := hfree
        simpa [Cell.withState, hfree] using hc hfree w hw
      · rw [he]
        exact headWoken_of_locked rfl
  | tryAcquire =>
    simp only [step, Option.some.injEq] at h
    subst h
    unfold tryAcquire
    split
    · exact headWoken_of_locked rfl
    · intro hfree w hw
      have hfree : c.state.locked = false := hfree
      simpa [Cell.withState, hfree] using hc hfree w hw
  | release =>
    simp only [step, Option.some.injEq] at h
    subst h
    intro _ w hw
    have hhead := pruneDeadFront_head? c.live { c.state with locked := false }
    refine Or.inr (List.mem_append_right _ ?_)
    have hfirst : firstLive c.live c.state.queue = some w := by
      cases hf : firstLive c.live c.state.queue with
      | none =>
        have hnil := pruneDeadFront_nil (s := { c.state with locked := false }) hf
        simp only [Cell.withState, releaseInner, hnil] at hw
        cases hw
      | some v =>
        obtain ⟨hlive, q, hq⟩ := pruneDeadFront_cons (s := { c.state with locked := false }) hf
        simp only [Cell.withState, releaseInner, hq, firstLive_cons hlive] at hw
        exact hw
    simp only at hhead
    simp [releaseInner, hhead, hfirst]
  | callWaker v =>
    simp only [step] at h
    split at h
    · cases h
      intro hfree w hw
      by_cases hwv : w = v
      · exact Or.inl (by simp [hwv])
      · rcases hc hfree w hw with hin | hin
        · exact Or.inl (List.mem_cons_of_mem _ hin)
        · exact Or.inr ((List.mem_erase_of_ne hwv).mpr hin)
    · cases h
  | taskDies t =>
    simp only [step, Option.some.injEq] at h
    subst h
    exact headWoken_taskDies hc ha

/-! ## The law -/

/-- In a run whose steps all keep the head, a free lock has woken its live head, or a release
that is under way is about to; once no release is under way, it has. -/
theorem a_free_lock_has_woken_its_head {c : Cell} (hc : Reaches step Initial KeepsHead c) :
    HeadWoken c ∧ (c.waking = [] → c.state.locked = false → ∀ w,
      firstLive c.live c.state.queue = some w → w ∈ c.woken) := by
  have h : HeadWoken c := by
    refine hc.invariant (fun c h0 => ?_) fun _ _ _ h ha hst => headWoken_step h ha hst
    intro _ w hw
    rw [h0.state] at hw
    cases hw
  refine ⟨h, fun hnone hfree w hw => ?_⟩
  rcases h hfree w hw with hin | hin
  · exact hin
  · rw [hnone] at hin
    cases hin

instance (c : Cell) : DecidablePred (KeepsHead c)
  | .poll f _ _ => inferInstanceAs (Decidable ((c.futures f).state = .acqInit → _ → _ → _))
  | .taskDies _ => inferInstanceAs (Decidable (c.state.locked = false → _))
  | .tryAcquire | .release | .callWaker _ => .isTrue trivial

/-- Tasks 7 and 8 queue behind task 9. Task 7 dies while the lock is held; the release then takes
the waker of task 8, which is called. -/
theorem a_free_lock_has_woken_its_head_in_a_run :
    let as : List Action := [.poll 3 9 .taskWake, .poll 0 7 .taskWake, .poll 1 8 .taskWake,
      .taskDies 7, .release, .callWaker ⟨8, .taskWake, 2⟩]
    ∃ c, run step newCell as = some c ∧ c.waking = [] ∧ c.state.locked = false ∧
      firstLive c.live c.state.queue = some ⟨8, .taskWake, 2⟩ ∧ HeadWoken c ∧
      (c.waking = [] → c.state.locked = false → ∀ w,
        firstLive c.live c.state.queue = some w → w ∈ c.woken) := by
  intro as
  refine ⟨_, rfl, rfl, rfl, rfl, ?_⟩
  apply a_free_lock_has_woken_its_head
  exact Reaches.of_tested_run (fun _ _ => of_decide_eq_true) (.start newCell_initial)
    (rfl : run _ newCell as = some _)

/-- Task 7 is woken at the head and dies before it polls; or it polls another lock future of
the cell first. Either way task 8 stands at the head of a free lock and nobody wakes it. -/
theorem a_free_lock_can_leave_its_head_asleep : Initial newCell ∧
    (∃ c, run step newCell [.poll 3 9 .taskWake, .poll 0 7 .taskWake, .poll 1 8 .taskWake,
        .release, .callWaker ⟨7, .taskWake, 1⟩, .taskDies 7] = some c ∧
      c.waking = [] ∧ ¬ HeadWoken c) ∧
    (∃ c, run step newCell [.poll 3 9 .taskWake, .poll 0 7 .taskWake, .poll 1 8 .taskWake,
        .release, .callWaker ⟨7, .taskWake, 1⟩, .poll 2 7 .taskWake] = some c ∧
      c.waking = [] ∧ ¬ HeadWoken c) := by
  refine ⟨newCell_initial, ⟨_, rfl, rfl, fun h => ?_⟩, ⟨_, rfl, rfl, fun h => ?_⟩⟩
  · exact absurd (h rfl ⟨8, .taskWake, 2⟩ rfl) (by decide)
  · exact absurd (h rfl ⟨8, .taskWake, 2⟩ rfl) (by decide)

end runtime.shared
