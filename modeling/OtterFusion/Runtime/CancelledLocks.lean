-- What a cancelled lock future leaves behind. The cancellation of a lock future does nothing
-- to its cell, so it frees the lock and the queue only when the future neither waits nor runs
-- its body. Then, as it is not polled again, it holds nothing from there on.
import Mathlib.Data.List.Nodup
import OtterFusion.Runtime.SharedCancel
import OtterFusion.Runtime.SharedFifo

open Function base.runs runtime.threads runtime.shared

namespace runtime.cancellation

/-- A step that leaves no cancelled future behind: a cancellation reaches only futures that
are idle, a cancelled future is not polled again, and a ticket is given out only while the
counter has not wrapped round to 0. -/
def FindsIdle (w : World) : Action → Prop
  | .poll _ wdata wfn f =>
    w.cancelled f = false ∧
      (Acquiring (w.futures f).data →
        givesTicket w.live (w.cells (w.futures f).cell) (w.futures f).data.acqState
          (w.futures f).data.ticket wdata wfn = true →
        (w.cells (w.futures f).cell).nextTicket ≠ 0)
  | .cancel fut => ∀ f ∈ reached w fut, Idle w f
  | .timeoutPolled id inner pending =>
    w.expires id pending = true → ∀ f ∈ reached w inner, Idle w f
  | _ => True

/-! ## What a poll does to the queue -/

/-- A waiter of the queue that a poll of a lock future finds, under another ticket than the one
the future waits with. -/
def Other (s : State) (d : LockData) (ticket : Nat) : Prop :=
  (∃ v ∈ s.queue, v.ticket = ticket) ∧ ¬(d.state = .acqQueued ∧ d.ticket = ticket)

/-- The ways a poll of a lock future can go, with whether it takes the lock. -/
inductive Polled (s : State) (d : LockData) : Bool → LockData → State → Prop
  | takes {d' : LockData} {s' : State} : s.locked = false → s'.locked = true →
      s'.nextTicket = s.nextTicket → (∀ e ∈ s'.queue, Other s d e.ticket) →
      Polled s d true d' s'
  | stays {d' : LockData} {s' : State} : s'.locked = s.locked → s'.nextTicket = s.nextTicket →
      (∀ e ∈ s'.queue, ∃ v ∈ s.queue, v.ticket = e.ticket) →
      (d.state = .acqQueued → d'.state = .acqQueued ∧ d'.ticket = d.ticket) →
      Polled s d false d' s'
  | joins {d' : LockData} {s' : State} : s'.locked = s.locked →
      s'.nextTicket ≠ s.nextTicket → d'.state = .acqQueued → d'.ticket = s.nextTicket →
      (∀ e ∈ s'.queue, e.ticket = s.nextTicket ∨ Other s d e.ticket) → Polled s d false d' s'

section polled

variable {live : LiveTasks} {s : State} {d : LockData} {data : Nat} {wake : WakeFn}

theorem other_of_sublist {q : List Waker} (hq : q.Sublist s.queue)
    (hno : d.state = .acqQueued → q.any (·.ticket == d.ticket) = false) :
    ∀ e ∈ q, Other s d e.ticket := by
  intro e he
  refine ⟨⟨e, hq.subset he, rfl⟩, fun ⟨hst, ht⟩ => ?_⟩
  have hany : q.any (·.ticket == d.ticket) = true := List.any_eq_true.mpr ⟨e, he, by simp [ht]⟩
  rw [hno hst] at hany
  cases hany

/-- The waiters behind the head of a queue in order have other tickets than the head. -/
theorem other_behind_head (hs : Ordered s)
    (hh : (pruneDeadFront live s).queue.head?.map (·.ticket) = some d.ticket) :
    ∀ e ∈ (refresh data wake d.ticket (pruneDeadFront live s).queue).tail,
      Other s d e.ticket := by
  intro e he
  have hsub := pruneDeadFront_sublist live s
  have hsorted := ((hs.prune live).refresh data wake d.ticket).sorted
  have hhead := refresh_head_ticket data wake d.ticket (pruneDeadFront live s).queue
  have hmem : e.ticket ∈ (refresh data wake d.ticket (pruneDeadFront live s).queue).map
      (·.ticket) := List.mem_map_of_mem (List.mem_of_mem_tail he)
  rw [refresh_tickets] at hmem
  obtain ⟨v, hv, hvt⟩ := List.mem_map.mp hmem
  refine ⟨⟨v, hsub.subset hv, hvt⟩, fun ⟨_, ht⟩ => ?_⟩
  rw [hh] at hhead
  cases hq : refresh data wake d.ticket (pruneDeadFront live s).queue with
  | nil => rw [hq] at he; cases he
  | cons x xs =>
    simp only [hq, List.tail_cons, List.head?_cons, Option.map_some, Option.some.injEq,
      List.map_cons, List.pairwise_cons] at he hhead hsorted
    have hlt := hsorted.1 _ (List.mem_map_of_mem he)
    omega

theorem acquires_of_acquiring (h : Acquiring d) :
    acquires live s d data wake = (advance live s d.acqState d.ticket data wake).1.1 := by
  obtain ⟨hst, htry⟩ := h
  unfold acquires
  rw [htry]
  rcases hd : d.state with _ | _ | _
  · rfl
  · rfl
  · exact absurd hd hst

/-- A poll of a future that waits for the lock. -/
theorem polled_of_acquiring (hs : Ordered s) (h : Acquiring d) :
    Polled s d (acquires live s d data wake) (shared.lockPoll live s d data wake).1
      (shared.lockPoll live s d data wake).2 := by
  have hadv := advance_cases live s d.acqState d.ticket data wake
  have hsub := pruneDeadFront_sublist live s
  have hown := (removeDuplicateTaskWaiters_sublist live (pruneDeadFront live s) data wake).trans
    hsub
  have hne := acqState_ne_acquired d
  have hqueued := acqState_queued h
  have hacq : acquires live s d data wake = _ := acquires_of_acquiring h
  obtain ⟨hst, htry⟩ := h
  have hpoll : shared.lockPoll live s d data wake =
      let r := advance live s d.acqState d.ticket data wake
      (if r.1.1 then { d with ticket := r.1.2.2 }.runBody
        else { d with ticket := r.1.2.2
                      state := if r.1.2.1 = .queued then .acqQueued else .acqInit }, r.2) := by
    unfold shared.lockPoll
    rcases hd : d.state with _ | _ | _
    · simp only [htry, Bool.false_eq_true, if_false]
      split <;> rfl
    · simp only [htry, Bool.false_eq_true, if_false]
      split <;> rfl
    · exact absurd hd hst
  rw [hpoll, hacq]
  generalize advance live s d.acqState d.ticket data wake = r at hadv
  generalize hacqState : d.acqState = st at hadv
  cases hadv with
  | held => exact absurd hacqState hne
  | free hl hq =>
    refine .takes hl rfl rfl fun e he => ?_
    rw [show (pruneDeadFront live s).queue = [] from hq] at he
    cases he
  | alone hl hq =>
    refine .takes hl rfl rfl fun e he => ?_
    rw [show (removeDuplicateTaskWaiters live (pruneDeadFront live s) data wake).queue = []
      from hq] at he
    cases he
  | turn hl hh => exact .takes hl rfl rfl (other_behind_head hs hh)
  | staleTakes hany hl => exact .takes hl rfl rfl (other_of_sublist hsub fun _ => hany)
  | stays hany hh =>
    refine .stays rfl rfl (fun e he => ?_) fun _ => ⟨rfl, rfl⟩
    have hmem : e.ticket ∈ (refresh data wake d.ticket (pruneDeadFront live s).queue).map
        (·.ticket) := List.mem_map_of_mem he
    rw [refresh_tickets] at hmem
    obtain ⟨v, hv, hvt⟩ := List.mem_map.mp hmem
    exact ⟨v, hsub.subset hv, hvt⟩
  | joins hq =>
    refine .joins (by simp [enqueue]) ?_ rfl rfl fun e he => ?_
    · simpa [enqueue] using succ_mod_ne hs.fits
    · simp only [enqueue, List.mem_append, List.mem_singleton] at he
      rcases he with he | rfl
      · refine .inr (other_of_sublist hown (fun hqd => ?_) e he)
        have := hqueued.mpr hqd
        rw [hacqState] at this
        cases this
      · exact .inl (by simp)
  | staleJoins hany hl =>
    refine .joins (by simp [enqueue]) ?_ rfl rfl fun e he => ?_
    · simpa [enqueue] using succ_mod_ne hs.fits
    · simp only [enqueue, List.mem_append, List.mem_singleton] at he
      rcases he with he | rfl
      · have hoth := removeDuplicateTaskWaiters_sublist live (pruneDeadFront live s) data wake
        refine .inr (other_of_sublist hown (fun _ => ?_) e he)
        rw [List.any_eq_false] at hany ⊢
        exact fun x hx => hany x (hoth.subset hx)
      · exact .inl (by simp)

/-- A poll of a future that runs its body, or that never waits. -/
theorem polled_of_not_acquiring (h : ¬Acquiring d) :
    Polled s d (acquires live s d data wake) (shared.lockPoll live s d data wake).1
      (shared.lockPoll live s d data wake).2 := by
  have hself : ∀ e ∈ s.queue, ∃ v ∈ s.queue, v.ticket = e.ticket := fun e he => ⟨e, he, rfl⟩
  by_cases hrun : d.state = .running
  · unfold acquires shared.lockPoll
    rw [hrun]
    exact .stays rfl rfl hself fun hq => absurd hq (by simp [hrun])
  · have htry : d.isTry = true := by
      by_contra htry
      exact h ⟨hrun, by simpa using htry⟩
    unfold acquires shared.lockPoll tryAcquire
    rw [htry]
    by_cases hf : (!s.locked && s.queue.isEmpty) = true
    · have hfree := hf
      simp only [Bool.and_eq_true, Bool.not_eq_true', List.isEmpty_iff] at hfree
      cases hd : d.state with
      | running => exact absurd hd hrun
      | _ =>
        simp only [hf, if_true]
        refine .takes hfree.1 rfl rfl fun e he => ?_
        simp only [hfree.2, List.not_mem_nil] at he
    · cases hd : d.state with
      | running => exact absurd hd hrun
      | _ =>
        simp only [hf, if_true]
        exact .stays rfl rfl hself fun hq => ⟨hd ▸ hq, rfl⟩

theorem lockPoll_polled (live : LiveTasks) (data : Nat) (wake : WakeFn) (hs : Ordered s) :
    Polled s d (acquires live s d data wake) (shared.lockPoll live s d data wake).1
      (shared.lockPoll live s d data wake).2 := by
  by_cases h : Acquiring d
  · exact polled_of_acquiring hs h
  · exact polled_of_not_acquiring h

/-- A poll takes only a free lock, which is then locked, and leaves it as it is otherwise. -/
def TakesFree (took : Bool) (s s' : State) : Prop :=
  if took then s.locked = false ∧ s'.locked = true else s'.locked = s.locked

theorem Polled.takesFree {took : Bool} {d' : LockData} {s' : State} (h : Polled s d took d' s') :
    TakesFree took s s' := by
  cases h with
  | takes hfree htaken _ _ => exact ⟨hfree, htaken⟩
  | stays hl _ _ _ => exact hl
  | joins hl _ _ _ _ => exact hl

/-- No two polls take one lock, whatever the queue looks like. -/
theorem lockPoll_takesFree (live : LiveTasks) (s : State) (d : LockData) (data : Nat)
    (wake : WakeFn) :
    TakesFree (acquires live s d data wake) s (shared.lockPoll live s d data wake).2 := by
  by_cases h : Acquiring d
  · have hadv := advance_cases live s d.acqState d.ticket data wake
    have hne := acqState_ne_acquired d
    rw [acquires_of_acquiring h, lockPoll_of_acquiring h]
    generalize advance live s d.acqState d.ticket data wake = r at hadv
    generalize d.acqState = st at hadv hne
    cases hadv with
    | held => exact absurd rfl hne
    | free hl _ => exact ⟨hl, rfl⟩
    | alone hl _ => exact ⟨hl, rfl⟩
    | joins _ => exact removeDuplicateTaskWaiters_locked live (pruneDeadFront live s) data wake
    | turn hl _ => exact ⟨hl, rfl⟩
    | stays _ _ => exact pruneDeadFront_locked live s
    | staleTakes _ hl => exact ⟨hl, rfl⟩
    | staleJoins _ _ =>
      exact removeDuplicateTaskWaiters_locked live (pruneDeadFront live s) data wake
  · exact (polled_of_not_acquiring h).takesFree

/-- A poll keeps the queue in order, unless it gives out a ticket that wrapped. -/
theorem lockPoll_ordered (hs : Ordered s) (hn : Acquiring d →
    givesTicket live s d.acqState d.ticket data wake = true → s.nextTicket ≠ 0) :
    Ordered (shared.lockPoll live s d data wake).2 := by
  by_cases h : Acquiring d
  · rw [lockPoll_of_acquiring h]
    exact (advance_cases live s d.acqState d.ticket data wake).ordered hs (hn h)
  · rcases lockPoll_of_not_acquiring live s data wake h with he | ⟨_, he⟩
    · rw [he]
      exact hs
    · rw [he]
      exact hs.of_sublist (List.Sublist.refl _) rfl

end polled

/-! ## The invariant of a run -/

/-- The history agrees with the cells: who holds a lock runs a body under it, and the held-lock
sets list just these locks, each once. -/
structure Locks (w : World) : Prop where
  holder : ∀ i f, w.holder i = some f →
    (w.cells i).locked = true ∧ (w.futures f).cell = i ∧ w.bodies f ≠ none
  held : ∀ task, ∀ h ∈ w.held task,
    w.holder h.cell = some h.future ∧ w.bodies h.future = some task
  once : ∀ task, ((w.held task).map Held.cell).Nodup
  bodies : ∀ f task, w.bodies f = some task → ⟨(w.futures f).cell, f⟩ ∈ w.held task

/-- Besides, the queues are in order, and a ticket in a queue is the one that its future waits
with. -/
structure Inv (w : World) : Prop extends Locks w where
  ordered : ∀ i, Ordered (w.cells i)
  given : ∀ i, ∀ e ∈ (w.cells i).queue, ∀ f, w.givenTo i e.ticket = some f →
    (w.futures f).cell = i ∧ (w.futures f).data.state = .acqQueued ∧
      (w.futures f).data.ticket = e.ticket

theorem Initial.locks {w : World} (h : Initial w) : Locks w := by
  constructor
  · intro i f hf
    rw [h.holder] at hf
    cases hf
  · intro task x hx
    rw [h.held] at hx
    cases hx
  · intro task
    rw [h.held]
    exact List.nodup_nil
  · intro f task hf
    rw [h.bodies] at hf
    cases hf

theorem Initial.inv {w : World} (h : Initial w) : Inv w := by
  refine ⟨h.locks, fun i => ?_, fun i e he => ?_⟩
  · rw [h.cells]
    exact ⟨by simp [State.new, ticketSpace], by simp [State.new], by simp [State.new]⟩
  · have hnil : (w.cells i).queue = [] := by
      rw [h.cells]
      rfl
    rw [hnil] at he
    cases he

/-- A future has no entry left in a queue, and its body is not under way. -/
structure Gone (w : World) (f : Nat) : Prop where
  body : w.bodies f = none
  queue : ∀ i, ∀ e ∈ (w.cells i).queue, w.givenTo i e.ticket ≠ some f

theorem Inv.gone {w : World} (h : Inv w) {f : Nat} (hf : Idle w f) : Gone w f := by
  refine ⟨hf.1, fun i e he hgiven => hf.2 ?_⟩
  obtain ⟨rfl, hst, ht⟩ := h.given i e he f hgiven
  exact ⟨hst, e, he, ht.symm⟩

theorem Inv.freed {w : World} (h : Inv w) {f : Nat} (hf : Gone w f) : Freed w f := by
  refine ⟨fun _ hholder => ?_, fun i before e after hq hgiven => ?_, fun task x hx hxf => ?_⟩
  · exact (h.holder _ f hholder).2.2 hf.body
  · refine absurd hgiven (hf.queue i e ?_)
    rw [hq]
    exact List.mem_append_right _ List.mem_cons_self
  · have hbody := (h.held task x hx).2
    rw [hxf, hf.body] at hbody
    cases hbody

/-! ## A poll -/

section poll

variable {w : World} {task data f : Nat} {wake : WakeFn}

theorem setFuture_cell (d : LockData) (g : Nat) :
    (update w.futures f { w.futures f with data := d } g).cell = (w.futures g).cell := by
  by_cases hg : g = f
  · subst hg
    rw [update_self]
  · rw [update_of_ne hg]

/-- The tickets given out, when a poll of a future leaves the counter at `next`. -/
def World.give (w : World) (f next : Nat) : Nat → Nat → Option Nat :=
  if next = (w.cells (w.futures f).cell).nextTicket then w.givenTo
  else update w.givenTo (w.futures f).cell (update (w.givenTo (w.futures f).cell)
    (w.cells (w.futures f).cell).nextTicket (some f))

theorem give_other {next i t : Nat} (hi : i ≠ (w.futures f).cell) :
    w.give f next i t = w.givenTo i t := by
  unfold World.give
  split
  · rfl
  · rw [update_of_ne hi]

/-- What stands in a queue after a poll: a waiter that was there before, whom the poll left with
his ticket, or the entry that the poll gave a ticket to. -/
theorem Polled.queue {took : Bool} {d' : LockData} {s' : State}
    (hp : Polled (w.cells (w.futures f).cell) (w.futures f).data took d' s') {i : Nat} {e : Waker}
    (he : e ∈ (update w.cells (w.futures f).cell s' i).queue) {g : Nat}
    (hg : w.give f s'.nextTicket i e.ticket = some g) :
    (∃ v ∈ (w.cells i).queue, v.ticket = e.ticket ∧ w.givenTo i v.ticket = some g ∧
      (g = f → (w.futures f).cell = i → (w.futures f).data.state = .acqQueued →
        (w.futures f).data.ticket = e.ticket → d'.state = .acqQueued ∧ d'.ticket = e.ticket)) ∨
    (g = f ∧ (w.futures f).cell = i ∧ d'.state = .acqQueued ∧ d'.ticket = e.ticket) := by
  by_cases hi : i = (w.futures f).cell
  · subst hi
    rw [update_self] at he
    unfold World.give at hg
    cases hp with
    | takes _ _ hn hq =>
      rw [if_pos hn] at hg
      obtain ⟨⟨v, hv, hvt⟩, hother⟩ := hq e he
      exact .inl ⟨v, hv, hvt, hvt ▸ hg, fun _ _ hst ht => absurd ⟨hst, ht⟩ hother⟩
    | stays _ hn hq hkeep =>
      rw [if_pos hn] at hg
      obtain ⟨v, hv, hvt⟩ := hq e he
      refine .inl ⟨v, hv, hvt, hvt ▸ hg, fun _ _ hst ht => ?_⟩
      exact ⟨(hkeep hst).1, (hkeep hst).2.trans ht⟩
    | joins _ hn hst ht hq =>
      rw [if_neg hn, update_self] at hg
      by_cases het : e.ticket = (w.cells (w.futures f).cell).nextTicket
      · rw [het, update_self] at hg
        exact .inr ⟨(Option.some.inj hg).symm, rfl, hst, ht.trans het.symm⟩
      · rw [update_of_ne het] at hg
        obtain ⟨⟨v, hv, hvt⟩, hother⟩ := (hq e he).resolve_left het
        exact .inl ⟨v, hv, hvt, hvt ▸ hg, fun _ _ hst ht => absurd ⟨hst, ht⟩ hother⟩
  · rw [update_of_ne hi] at he
    rw [give_other hi] at hg
    exact .inl ⟨e, he, rfl, hg, fun _ hc => absurd hc.symm hi⟩

/-- A poll leaves each ticket in a queue with the future that waits with it. -/
theorem Inv.given_polled (h : Inv w) {took : Bool} {d' : LockData} {s' : State}
    (hp : Polled (w.cells (w.futures f).cell) (w.futures f).data took d' s') :
    ∀ i, ∀ e ∈ (update w.cells (w.futures f).cell s' i).queue, ∀ g,
      w.give f s'.nextTicket i e.ticket = some g →
        (update w.futures f { w.futures f with data := d' } g).cell = i ∧
        (update w.futures f { w.futures f with data := d' } g).data.state = .acqQueued ∧
        (update w.futures f { w.futures f with data := d' } g).data.ticket = e.ticket := by
  intro i e he g hg
  rw [setFuture_cell]
  rcases hp.queue he hg with ⟨v, hv, hvt, hgiven, hkeep⟩ | ⟨rfl, hc, hst, ht⟩
  · obtain ⟨hc, hst, ht⟩ := h.given i v hv g hgiven
    refine ⟨hc, ?_⟩
    by_cases hgf : g = f
    · subst hgf
      rw [update_self]
      exact hkeep rfl hc hst (ht.trans hvt)
    · rw [update_of_ne hgf]
      exact ⟨hst, ht.trans hvt⟩
  · rw [update_self]
    exact ⟨hc, hst, ht⟩

/-- A poll that does not take the lock. -/
theorem Locks.polled (h : Locks w) {d' : LockData} {s' : State} {given : Nat → Nat → Option Nat}
    (hs : TakesFree false (w.cells (w.futures f).cell) s') :
    Locks { w with
      cells := update w.cells (w.futures f).cell s'
      futures := update w.futures f { w.futures f with data := d' }
      givenTo := given } := by
  have hlocked : ∀ i, (update w.cells (w.futures f).cell s' i).locked = (w.cells i).locked := by
    intro i
    by_cases hi : i = (w.futures f).cell
    · subst hi
      rw [update_self]
      exact hs
    · rw [update_of_ne hi]
  constructor
  · intro i g hg
    obtain ⟨hl, hc, hb⟩ := h.holder i g hg
    exact ⟨(hlocked i).trans hl, (setFuture_cell d' g).trans hc, hb⟩
  · exact h.held
  · exact h.once
  · intro g o hg
    have hmem := h.bodies g o hg
    rwa [← setFuture_cell d' g] at hmem

/-- A poll that takes the lock. -/
theorem Locks.takes (h : Locks w) {d' : LockData} {s' : State} {given : Nat → Nat → Option Nat}
    (hbody : w.bodies f = none) (hs : TakesFree true (w.cells (w.futures f).cell) s') :
    Locks { w with
      cells := update w.cells (w.futures f).cell s'
      futures := update w.futures f { w.futures f with data := d' }
      givenTo := given
      held := update w.held task (w.held task ++ [{ cell := (w.futures f).cell, future := f }])
      bodies := update w.bodies f (some task)
      holder := update w.holder (w.futures f).cell (some f) } := by
  obtain ⟨hfree, htaken⟩ := hs
  have hnone : ∀ o, ∀ x ∈ w.held o, x.cell ≠ (w.futures f).cell := by
    intro o x hx hxc
    have hl := (h.holder _ _ (h.held o x hx).1).1
    rw [hxc, hfree] at hl
    cases hl
  have hheld : ∀ o, ∀ x ∈ update w.held task
      (w.held task ++ [{ cell := (w.futures f).cell, future := f }]) o,
      x ∈ w.held o ∨ (o = task ∧ x = { cell := (w.futures f).cell, future := f }) := by
    intro o x hx
    by_cases ho : o = task
    · subst ho
      simpa using hx
    · rw [update_of_ne ho] at hx
      exact .inl hx
  constructor
  · intro i g hg
    dsimp only at hg ⊢
    rw [setFuture_cell]
    by_cases hi : i = (w.futures f).cell
    · subst hi
      rw [update_self] at hg
      obtain rfl := Option.some.inj hg
      rw [update_self, update_self]
      exact ⟨htaken, rfl, Option.some_ne_none _⟩
    · rw [update_of_ne hi] at hg ⊢
      obtain ⟨hl, hc, hb⟩ := h.holder i g hg
      refine ⟨hl, hc, ?_⟩
      by_cases hgf : g = f
      · subst hgf
        rw [update_self]
        exact Option.some_ne_none _
      · rw [update_of_ne hgf]
        exact hb
  · intro o x hx
    dsimp only at hx ⊢
    rcases hheld o x hx with hold | ⟨rfl, rfl⟩
    · obtain ⟨hh, hb⟩ := h.held o x hold
      have hne : x.future ≠ f := by
        intro he
        rw [he, hbody] at hb
        cases hb
      rw [update_of_ne (hnone o x hold), update_of_ne hne]
      exact ⟨hh, hb⟩
    · rw [update_self, update_self]
      exact ⟨rfl, rfl⟩
  · intro o
    dsimp only
    by_cases ho : o = task
    · subst ho
      rw [update_self, List.map_append, List.nodup_append]
      refine ⟨h.once o, List.pairwise_singleton _ _, fun a ha b hb => ?_⟩
      obtain ⟨x, hx, rfl⟩ := List.mem_map.mp ha
      simp only [List.map_cons, List.map_nil, List.mem_singleton] at hb
      exact hb ▸ hnone o x hx
    · rw [update_of_ne ho]
      exact h.once o
  · intro g o hg
    dsimp only at hg ⊢
    rw [setFuture_cell]
    by_cases hgf : g = f
    · subst hgf
      rw [update_self] at hg
      obtain rfl := Option.some.inj hg
      rw [update_self]
      exact List.mem_append_right _ (List.mem_singleton_self _)
    · rw [update_of_ne hgf] at hg
      have hmem := h.bodies g o hg
      by_cases ho : o = task
      · subst ho
        rw [update_self]
        exact List.mem_append_left _ hmem
      · rw [update_of_ne ho]
        exact hmem

theorem acquires_of_running (hrun : (w.futures f).data.state = .running) (live : LiveTasks)
    (s : State) : acquires live s (w.futures f).data data wake = false := by
  unfold acquires
  rw [hrun]

theorem Locks.lockPoll (h : Locks w)
    (hready : w.bodies f = none ∨ (w.futures f).data.state = .running) :
    Locks (w.lockPoll task data wake f) := by
  have hs := lockPoll_takesFree w.live (w.cells (w.futures f).cell) (w.futures f).data data wake
  unfold World.lockPoll
  dsimp only
  by_cases hacq : acquires w.live (w.cells (w.futures f).cell) (w.futures f).data data wake = true
  · rw [if_pos hacq]
    rw [hacq] at hs
    refine h.takes (hready.resolve_right fun hrun => ?_) hs
    rw [acquires_of_running hrun] at hacq
    cases hacq
  · rw [if_neg hacq]
    rw [Bool.not_eq_true] at hacq
    rw [hacq] at hs
    exact h.polled hs

/-- What a poll makes of the cells, the futures and the tickets given out. -/
theorem lockPoll_world (w : World) (task data : Nat) (wake : WakeFn) (f : Nat) :
    let polled := shared.lockPoll w.live (w.cells (w.futures f).cell) (w.futures f).data data wake
    (w.lockPoll task data wake f).cells = update w.cells (w.futures f).cell polled.2 ∧
      (w.lockPoll task data wake f).futures
        = update w.futures f { w.futures f with data := polled.1 } ∧
      (w.lockPoll task data wake f).givenTo = w.give f polled.2.nextTicket := by
  unfold World.lockPoll
  dsimp only
  split <;> exact ⟨rfl, rfl, rfl⟩

theorem Inv.lockPoll (h : Inv w)
    (hready : w.bodies f = none ∨ (w.futures f).data.state = .running)
    (hn : Acquiring (w.futures f).data →
      givesTicket w.live (w.cells (w.futures f).cell) (w.futures f).data.acqState
        (w.futures f).data.ticket data wake = true →
      (w.cells (w.futures f).cell).nextTicket ≠ 0) :
    Inv (w.lockPoll task data wake f) := by
  have hp := lockPoll_polled (d := (w.futures f).data) w.live data wake
    (h.ordered (w.futures f).cell)
  obtain ⟨hcells, hfutures, hgiven⟩ := lockPoll_world w task data wake f
  refine ⟨h.toLocks.lockPoll hready, fun i => ?_, ?_⟩
  · rw [hcells]
    by_cases hi : i = (w.futures f).cell
    · subst hi
      simpa using lockPoll_ordered (h.ordered (w.futures f).cell) hn
    · simpa [hi] using h.ordered i
  · rw [hcells, hfutures, hgiven]
    exact h.given_polled hp

/-- A poll of another future leaves a future gone. -/
theorem Gone.lockPoll {g : Nat} (h : Inv w) (hg : Gone w g) (hne : g ≠ f) :
    Gone (w.lockPoll task data wake f) g := by
  have hp := lockPoll_polled (d := (w.futures f).data) w.live data wake
    (h.ordered (w.futures f).cell)
  have hqueue : ∀ i, ∀ e ∈ (update w.cells (w.futures f).cell
      (shared.lockPoll w.live (w.cells (w.futures f).cell) (w.futures f).data data wake).2
        i).queue,
      w.give f (shared.lockPoll w.live (w.cells (w.futures f).cell) (w.futures f).data data
        wake).2.nextTicket i e.ticket ≠ some g := by
    intro i e he hgiven
    rcases hp.queue he hgiven with ⟨v, hv, _, hold, _⟩ | ⟨heq, _⟩
    · exact hg.queue i v hv hold
    · exact hne heq
  unfold World.lockPoll
  dsimp only
  by_cases hacq : acquires w.live (w.cells (w.futures f).cell) (w.futures f).data data wake = true
  · rw [if_pos hacq]
    refine ⟨?_, hqueue⟩
    dsimp only
    rw [update_of_ne hne]
    exact hg.body
  · rw [if_neg hacq]
    exact ⟨hg.body, hqueue⟩

end poll

/-! ## A release -/

/-- A pop takes out the entry of the cell and leaves the others. -/
theorem mem_eraseP_cell {id : Nat} {held : List Held} {x : Held}
    (h : (held.map Held.cell).Nodup) :
    x ∈ held.eraseP (fun y => y.cell == id) ↔ x ∈ held ∧ x.cell ≠ id := by
  induction held with
  | nil => simp
  | cons y ys ih =>
    rw [List.map_cons, List.nodup_cons] at h
    by_cases hy : y.cell = id
    · rw [List.eraseP_cons_of_pos (by simpa using hy), List.mem_cons]
      constructor
      · intro hx
        refine ⟨.inr hx, fun hxid => h.1 ?_⟩
        rw [hy, ← hxid]
        exact List.mem_map_of_mem hx
      · rintro ⟨rfl | hx, hne⟩
        · exact absurd hy hne
        · exact hx
    · rw [List.eraseP_cons_of_neg (by simpa using hy), List.mem_cons, List.mem_cons, ih h.2]
      constructor
      · rintro (rfl | ⟨hx, hne⟩)
        · exact ⟨.inl rfl, hy⟩
        · exact ⟨.inr hx, hne⟩
      · rintro ⟨rfl | hx, hne⟩
        · exact .inl rfl
        · exact .inr ⟨hx, hne⟩

theorem mem_heldPop {id : Nat} {held : List Held} {x : Held} (h : (held.map Held.cell).Nodup) :
    x ∈ heldPop id held ↔ x ∈ held ∧ x.cell ≠ id := by
  unfold heldPop
  rw [List.mem_reverse, mem_eraseP_cell, List.mem_reverse]
  rw [List.map_reverse]
  exact List.nodup_reverse.mpr h

theorem heldPop_sublist (id : Nat) (held : List Held) : (heldPop id held).Sublist held := by
  unfold heldPop
  have hsub : (held.reverse.eraseP fun y => y.cell == id).Sublist held.reverse :=
    List.eraseP_sublist
  simpa using hsub.reverse

/-- What the release of some cells does: they are free and nobody's, and waiters may leave. -/
structure Released (cells : List Nat) (w r : World) : Prop where
  futures : r.futures = w.futures
  bodies : r.bodies = w.bodies
  held : r.held = w.held
  givenTo : r.givenTo = w.givenTo
  cancelled : r.cancelled = w.cancelled
  queue : ∀ i, (r.cells i).queue.Sublist (w.cells i).queue
  nextTicket : ∀ i, (r.cells i).nextTicket = (w.cells i).nextTicket
  locked : ∀ i, i ∉ cells → (r.cells i).locked = (w.cells i).locked
  holder : ∀ i, r.holder i = if i ∈ cells then none else w.holder i

theorem releaseInner_released (w : World) (id : Nat) : Released [id] w (w.releaseInner id) := by
  refine ⟨rfl, rfl, rfl, rfl, rfl, fun i => ?_, fun i => ?_, fun i hi => ?_, fun i => ?_⟩
  · unfold World.releaseInner
    by_cases hi : i = id
    · subst hi
      dsimp only
      rw [update_self]
      exact pruneDeadFront_sublist w.live { w.cells i with locked := false }
    · dsimp only
      rw [update_of_ne hi]
  · unfold World.releaseInner
    by_cases hi : i = id
    · subst hi
      dsimp only
      rw [update_self]
      rfl
    · dsimp only
      rw [update_of_ne hi]
  · unfold World.releaseInner
    dsimp only
    rw [update_of_ne (by simpa using hi)]
  · unfold World.releaseInner
    simp [update_apply]

theorem foldl_released (held : List Held) (w : World) :
    Released (held.map Held.cell) w (held.foldl (fun w x => w.releaseInner x.cell) w) := by
  induction held generalizing w with
  | nil =>
    exact ⟨rfl, rfl, rfl, rfl, rfl, fun _ => .refl _, fun _ => rfl, fun _ _ => rfl, fun _ => rfl⟩
  | cons x xs ih =>
    rw [List.foldl_cons, List.map_cons]
    have hone := releaseInner_released w x.cell
    have hrest := ih (w.releaseInner x.cell)
    refine ⟨hrest.futures.trans hone.futures, hrest.bodies.trans hone.bodies,
      hrest.held.trans hone.held, hrest.givenTo.trans hone.givenTo,
      hrest.cancelled.trans hone.cancelled, fun i => (hrest.queue i).trans (hone.queue i),
      fun i => (hrest.nextTicket i).trans (hone.nextTicket i), fun i hi => ?_, fun i => ?_⟩
    · rw [List.mem_cons, not_or] at hi
      exact (hrest.locked i hi.2).trans (hone.locked i (by simpa using hi.1))
    · rw [hrest.holder, hone.holder]
      by_cases h1 : i = x.cell <;> by_cases h2 : i ∈ xs.map Held.cell <;> simp [h1, h2]

/-- A task gives up some of the cells that it holds: each entry of them leaves its held-lock
set, and each body that it runs under them ends. -/
structure GivesUp (task : Nat) (cells : List Nat) (w v : World) : Prop where
  same : v.cells = w.cells ∧ v.futures = w.futures ∧ v.givenTo = w.givenTo ∧
    v.holder = w.holder ∧ v.cancelled = w.cancelled
  own : ∀ i ∈ cells, ∃ x ∈ w.held task, x.cell = i
  bodies : ∀ f, v.bodies f =
    if w.bodies f = some task ∧ (w.futures f).cell ∈ cells then none else w.bodies f
  held : ∀ o x, x ∈ v.held o ↔ x ∈ w.held o ∧ ¬(o = task ∧ x.cell ∈ cells)
  sublist : ∀ o, (v.held o).Sublist (w.held o)

section release

variable {w v r : World} {task : Nat} {cells : List Nat}

theorem GivesUp.keeps_body (hv : GivesUp task cells w v) {f : Nat}
    (hf : (w.futures f).cell ∉ cells) : v.bodies f = w.bodies f := by
  rw [hv.bodies, if_neg fun ⟨_, hc⟩ => hf hc]

/-- A cell that a task gives up is in no other held-lock set. -/
theorem GivesUp.not_mem (hv : GivesUp task cells w v) (h : Locks w) {o : Nat} {x : Held}
    (hx : x ∈ w.held o) (hnot : ¬(o = task ∧ x.cell ∈ cells)) : x.cell ∉ cells := by
  intro hmem
  obtain ⟨y, hy, hyx⟩ := hv.own _ hmem
  have hyh := (h.held task y hy).1
  rw [hyx, (h.held o x hx).1] at hyh
  have hbody := (h.held task y hy).2
  rw [← Option.some.inj hyh, (h.held o x hx).2] at hbody
  exact hnot ⟨Option.some.inj hbody, hmem⟩

theorem Locks.release (h : Locks w) (hv : GivesUp task cells w v) (hr : Released cells v r) :
    Locks r := by
  obtain ⟨hcells, hfutures, _, hholder, _⟩ := hv.same
  constructor
  · intro i f hf
    rw [hr.holder, hholder] at hf
    split at hf
    · cases hf
    · rename_i hi
      obtain ⟨hl, hc, hb⟩ := h.holder i f hf
      rw [hr.locked i hi, hcells, hr.futures, hfutures, hr.bodies,
        hv.keeps_body (by rwa [hc])]
      exact ⟨hl, hc, hb⟩
  · intro o x hx
    rw [hr.held, hv.held] at hx
    obtain ⟨hh, hb⟩ := h.held o x hx.1
    have hnot := hv.not_mem h hx.1 hx.2
    rw [hr.holder, if_neg hnot, hholder, hr.bodies,
      hv.keeps_body (by rwa [(h.holder _ _ hh).2.1])]
    exact ⟨hh, hb⟩
  · intro o
    rw [hr.held]
    exact (h.once o).sublist ((hv.sublist o).map _)
  · intro f o hf
    rw [hr.bodies, hv.bodies] at hf
    split at hf
    · cases hf
    · rename_i hno
      rw [hr.futures, hfutures, hr.held, hv.held]
      refine ⟨h.bodies f o hf, fun ⟨ho, hc⟩ => hno ⟨ho ▸ hf, hc⟩⟩

theorem Inv.release (h : Inv w) (hv : GivesUp task cells w v) (hr : Released cells v r) :
    Inv r := by
  obtain ⟨hcells, hfutures, hgivenTo, _, _⟩ := hv.same
  have hqueue : ∀ i, (r.cells i).queue.Sublist (w.cells i).queue := fun i => hcells ▸ hr.queue i
  refine ⟨h.toLocks.release hv hr, fun i => ?_, fun i e he f hf => ?_⟩
  · refine (h.ordered i).of_sublist (hqueue i) ?_
    rw [hr.nextTicket, hcells]
  · rw [hr.givenTo, hgivenTo] at hf
    rw [hr.futures, hfutures]
    exact h.given i e ((hqueue i).subset he) f hf

theorem Gone.release {f : Nat} (hf : Gone w f) (hv : GivesUp task cells w v)
    (hr : Released cells v r) : Gone r f := by
  obtain ⟨hcells, _, hgivenTo, _, _⟩ := hv.same
  constructor
  · rw [hr.bodies, hv.bodies]
    split
    · rfl
    · exact hf.body
  · intro i e he
    rw [hr.givenTo, hgivenTo]
    exact hf.queue i e (hcells ▸ (hr.queue i).subset he)

/-- The end of a body gives up its cell. -/
theorem finish_givesUp (h : Locks w) {f : Nat} (hf : w.bodies f = some task) :
    GivesUp task [(w.futures f).cell] w { w with
      held := update w.held task (heldPop (w.futures f).cell (w.held task))
      bodies := update w.bodies f none } := by
  have hmem := h.bodies f task hf
  have hholds := (h.held task _ hmem).1
  refine ⟨⟨rfl, rfl, rfl, rfl, rfl⟩, ?_, fun g => ?_, fun o x => ?_, fun o => ?_⟩
  · intro i hi
    obtain rfl := List.mem_singleton.mp hi
    exact ⟨_, hmem, rfl⟩
  · dsimp only
    by_cases hg : g = f
    · subst hg
      rw [update_self, if_pos ⟨hf, List.mem_singleton_self _⟩]
    · rw [update_of_ne hg, if_neg]
      rintro ⟨hbody, hc⟩
      have hown := (h.held task _ (h.bodies g task hbody)).1
      rw [List.mem_singleton.mp hc, hholds] at hown
      exact hg (Option.some.inj hown).symm
  · dsimp only
    by_cases ho : o = task
    · subst ho
      rw [update_self, mem_heldPop (h.once o)]
      simp
    · rw [update_of_ne ho]
      simp [ho]
  · dsimp only
    by_cases ho : o = task
    · subst ho
      rw [update_self]
      exact heldPop_sublist _ _
    · rw [update_of_ne ho]

/-- A task that drains its held-lock set gives up all the cells in it. -/
theorem drain_givesUp (h : Locks w) (task : Nat) :
    GivesUp task ((w.held task).reverse.map Held.cell) w { w with
      held := update w.held task []
      bodies := fun f => if w.bodies f = some task then none else w.bodies f } := by
  refine ⟨⟨rfl, rfl, rfl, rfl, rfl⟩, ?_, fun g => ?_, fun o x => ?_, fun o => ?_⟩
  · intro i hi
    obtain ⟨x, hx, rfl⟩ := List.mem_map.mp hi
    exact ⟨x, List.mem_reverse.mp hx, rfl⟩
  · dsimp only
    by_cases hbody : w.bodies g = some task
    · rw [if_pos hbody, if_pos]
      have hmem := List.mem_reverse.mpr (h.bodies g task hbody)
      exact ⟨hbody, List.mem_map_of_mem hmem⟩
    · rw [if_neg hbody, if_neg fun hc => hbody hc.1]
  · dsimp only
    by_cases ho : o = task
    · subst ho
      rw [update_self]
      simp only [List.not_mem_nil, true_and, false_iff, not_and, not_not]
      intro hx
      exact List.mem_map.mpr ⟨x, List.mem_reverse.mpr hx, rfl⟩
    · rw [update_of_ne ho]
      simp [ho]
  · dsimp only
    by_cases ho : o = task
    · subst ho
      rw [update_self]
      exact List.nil_sublist _
    · rw [update_of_ne ho]

end release

/-! ## A cancellation -/

/-- What a cancellation changes: the timeouts, the tasks that are to stop, and the history of
the lock futures that it reached. -/
structure OnlyCancels (w v : World) : Prop where
  cells : v.cells = w.cells
  futures : v.futures = w.futures
  bodies : v.bodies = w.bodies
  held : v.held = w.held
  holder : v.holder = w.holder
  givenTo : v.givenTo = w.givenTo

section cancel

variable {w v : World}

theorem OnlyCancels.locks (hv : OnlyCancels w v) (h : Locks w) : Locks v := by
  obtain ⟨hcells, hfutures, hbodies, hheld, hholder, _⟩ := hv
  constructor
  · rw [hholder, hcells, hfutures, hbodies]
    exact h.holder
  · rw [hheld, hholder, hbodies]
    exact h.held
  · rw [hheld]
    exact h.once
  · rw [hbodies, hheld, hfutures]
    exact h.bodies

theorem OnlyCancels.inv (hv : OnlyCancels w v) (h : Inv w) : Inv v := by
  refine ⟨hv.locks h.toLocks, ?_, ?_⟩
  · rw [hv.cells]
    exact h.ordered
  · rw [hv.cells, hv.givenTo, hv.futures]
    exact h.given

theorem OnlyCancels.gone (hv : OnlyCancels w v) {f : Nat} (h : Gone w f) : Gone v f := by
  constructor
  · rw [hv.bodies]
    exact h.body
  · rw [hv.cells, hv.givenTo]
    exact h.queue

theorem OnlyCancels.trans {u : World} (hv : OnlyCancels w v) (hu : OnlyCancels v u) :
    OnlyCancels w u :=
  ⟨hu.cells.trans hv.cells, hu.futures.trans hv.futures, hu.bodies.trans hv.bodies,
    hu.held.trans hv.held, hu.holder.trans hv.holder, hu.givenTo.trans hv.givenTo⟩

theorem onlyCancels_timeouts (w : World) (timeouts : Nat → Option TimeoutCell) :
    OnlyCancels w { w with timeouts := timeouts } :=
  ⟨rfl, rfl, rfl, rfl, rfl, rfl⟩

theorem timerFires_only (w : World) (id : Nat) : OnlyCancels w (w.timerFires id) := by
  unfold World.timerFires
  split
  · exact onlyCancels_timeouts w _
  · exact ⟨rfl, rfl, rfl, rfl, rfl, rfl⟩

/-- A cancellation reaches no more lock futures once a timeout is over. -/
theorem reached_update {w : World} {id : Nat} {c : Option TimeoutCell}
    (hc : ∀ x, c = some x → x.cancelledLoser = true) (fut : Future) :
    ∀ f ∈ reached { w with timeouts := update w.timeouts id c } fut, f ∈ reached w fut := by
  induction fut with
  | timeout id' inner ih =>
    intro f hf
    unfold reached at hf ⊢
    dsimp only at hf
    by_cases hid : id' = id
    · subst hid
      rw [update_self] at hf
      cases c with
      | none => cases hf
      | some x =>
        dsimp only at hf
        rw [if_pos (hc x rfl)] at hf
        cases hf
    · rw [update_of_ne hid] at hf
      split at hf
      · split at hf
        · cases hf
        · rename_i hno
          simp only [hno]
          exact ih f hf
      · cases hf
  | _ => exact fun f hf => hf

/-- A cancellation of a future changes nothing but what it has reached. -/
theorem langFutureCancel_spec (fut : Future) (w : World) :
    OnlyCancels w (langFutureCancel fut w) ∧
      ∀ f, (langFutureCancel fut w).cancelled f = true →
        w.cancelled f = true ∨ f ∈ reached w fut := by
  induction fut generalizing w with
  | lock g =>
    refine ⟨⟨rfl, rfl, rfl, rfl, rfl, rfl⟩, fun f hf => ?_⟩
    unfold langFutureCancel at hf
    by_cases hfg : f = g
    · subst hfg
      exact .inr (List.mem_singleton_self _)
    · dsimp only at hf
      rw [update_of_ne hfg] at hf
      exact .inl hf
  | timeout id inner ih =>
    unfold langFutureCancel reached
    cases hid : w.timeouts id with
    | none => exact ⟨⟨rfl, rfl, rfl, rfl, rfl, rfl⟩, fun f hf => .inl hf⟩
    | some cell =>
      dsimp only
      by_cases hloser : cell.cancelledLoser = true
      · rw [if_pos hloser, if_pos hloser]
        exact ⟨onlyCancels_timeouts w _, fun f hf => .inl hf⟩
      · rw [if_neg hloser, if_neg hloser]
        obtain ⟨honly, hreached⟩ := ih { w with timeouts := update w.timeouts id none }
        refine ⟨(onlyCancels_timeouts w _).trans honly, fun f hf => ?_⟩
        refine (hreached f hf).imp_right (reached_update ?_ inner f)
        rintro x ⟨⟩
  | _ => exact ⟨⟨rfl, rfl, rfl, rfl, rfl, rfl⟩, fun f hf => .inl hf⟩

theorem timeoutPolled_spec (w : World) (id : Nat) (inner : Future) (pending : Bool) :
    OnlyCancels w (w.timeoutPolled id inner pending) ∧
      ∀ f, (w.timeoutPolled id inner pending).cancelled f = true →
        w.cancelled f = true ∨ (w.expires id pending = true ∧ f ∈ reached w inner) := by
  unfold World.timeoutPolled World.expires
  cases pending with
  | false => exact ⟨onlyCancels_timeouts w _, fun f hf => .inl hf⟩
  | true =>
    cases hid : w.timeouts id with
    | none => exact ⟨⟨rfl, rfl, rfl, rfl, rfl, rfl⟩, fun f hf => .inl hf⟩
    | some cell =>
      simp only [Bool.not_true, Bool.false_eq_true, if_false, Option.any_some, Bool.true_and]
      by_cases hfired : cell.fired = true
      · rw [if_pos hfired]
        by_cases hloser : cell.cancelledLoser = true
        · rw [if_pos hloser]
          exact ⟨⟨rfl, rfl, rfl, rfl, rfl, rfl⟩, fun f hf => .inl hf⟩
        · rw [if_neg hloser]
          obtain ⟨honly, hreached⟩ := langFutureCancel_spec inner { w with
            timeouts := update w.timeouts id (some { cell with cancelledLoser := true }) }
          refine ⟨((onlyCancels_timeouts w _).trans honly).trans (onlyCancels_timeouts _ _),
            fun f hf => ?_⟩
          refine (hreached f hf).imp_right fun hin => ⟨by simp [hfired, hloser], ?_⟩
          refine reached_update ?_ inner f hin
          rintro x ⟨⟩
          rfl
      · rw [if_neg hfired]
        exact ⟨onlyCancels_timeouts w _, fun f hf => .inl hf⟩

end cancel

/-! ## The law -/

section law

variable {w t : World} {a : Action}

/-- One step that meets the condition keeps the invariant, and each cancelled lock future stays
gone. -/
theorem inv_step (h : Inv w) (hgone : ∀ f, w.cancelled f = true → Gone w f)
    (hok : FindsIdle w a) (hst : step w a = some t) :
    Inv t ∧ ∀ f, t.cancelled f = true → Gone t f := by
  cases a with
  | poll task data wake f =>
    simp only [step] at hst
    split at hst
    · rename_i hready
      cases hst
      refine ⟨h.lockPoll hready hok.2, fun g hg => ?_⟩
      have hsame : (w.lockPoll task data wake f).cancelled = w.cancelled := by
        unfold World.lockPoll
        dsimp only
        split <;> rfl
      rw [hsame] at hg
      refine (hgone g hg).lockPoll h ?_
      rintro rfl
      rw [hok.1] at hg
      cases hg
    · cases hst
  | finish f =>
    simp only [step] at hst
    obtain ⟨task, hbody, rfl⟩ := Option.map_eq_some_iff.mp hst
    have hv := finish_givesUp h.toLocks hbody
    have hr := releaseInner_released { w with
      held := update w.held task (heldPop (w.futures f).cell (w.held task))
      bodies := update w.bodies f none } (w.futures f).cell
    refine ⟨h.release hv hr, fun g hg => (hgone g ?_).release hv hr⟩
    exact hg
  | cancel fut =>
    cases hst
    obtain ⟨honly, hreached⟩ := langFutureCancel_spec fut w
    refine ⟨honly.inv h, fun g hg => honly.gone ?_⟩
    rcases hreached g hg with hold | hin
    · exact hgone g hold
    · exact h.gone (hok g hin)
  | timerFires id =>
    cases hst
    have honly := timerFires_only w id
    have hsame : (w.timerFires id).cancelled = w.cancelled := by
      unfold World.timerFires
      split <;> rfl
    exact ⟨honly.inv h, fun g hg => honly.gone (hgone g (hsame ▸ hg))⟩
  | timeoutPolled id inner pending =>
    cases hst
    obtain ⟨honly, hreached⟩ := timeoutPolled_spec w id inner pending
    refine ⟨honly.inv h, fun g hg => honly.gone ?_⟩
    rcases hreached g hg with hold | ⟨hexpires, hin⟩
    · exact hgone g hold
    · exact h.gone (hok hexpires g hin)
  | taskDies task =>
    cases hst
    have honly : OnlyCancels w { w with live := w.live.without task } :=
      ⟨rfl, rfl, rfl, rfl, rfl, rfl⟩
    exact ⟨honly.inv h, fun g hg => honly.gone (hgone g hg)⟩
  | releaseTaskHeld task =>
    cases hst
    have hv := drain_givesUp h.toLocks task
    have hr := foldl_released (w.held task).reverse { w with
      held := update w.held task []
      bodies := fun f => if w.bodies f = some task then none else w.bodies f }
    refine ⟨h.release hv hr, fun g hg => (hgone g ?_).release hv hr⟩
    have hsame := hr.cancelled
    exact (congrFun hsame g).symm.trans hg

theorem reaches_inv (h : Reaches step Initial FindsIdle w) :
    Inv w ∧ ∀ f, w.cancelled f = true → Gone w f := by
  refine h.invariant (fun w h0 => ⟨h0.inv, fun g hg => ?_⟩)
    fun w a t hw hok hst => inv_step hw.1 hw.2 hok hst
  rw [h0.cancelled] at hg
  cases hg

end law

/-! ## The mutex -/

/-- Each step keeps the locks and the history together, whatever a cancellation finds. -/
theorem locks_step {w t : World} {a : Action} (h : Locks w) (hst : step w a = some t) :
    Locks t := by
  cases a with
  | poll task data wake f =>
    simp only [step] at hst
    split at hst
    · rename_i hready
      cases hst
      exact h.lockPoll hready
    · cases hst
  | finish f =>
    simp only [step] at hst
    obtain ⟨task, hbody, rfl⟩ := Option.map_eq_some_iff.mp hst
    exact h.release (finish_givesUp h hbody) (releaseInner_released { w with
      held := update w.held task (heldPop (w.futures f).cell (w.held task))
      bodies := update w.bodies f none } (w.futures f).cell)
  | cancel fut =>
    cases hst
    exact (langFutureCancel_spec fut w).1.locks h
  | timerFires id =>
    cases hst
    exact (timerFires_only w id).locks h
  | timeoutPolled id inner pending =>
    cases hst
    exact (timeoutPolled_spec w id inner pending).1.locks h
  | taskDies task =>
    cases hst
    have honly : OnlyCancels w { w with live := w.live.without task } :=
      ⟨rfl, rfl, rfl, rfl, rfl, rfl⟩
    exact honly.locks h
  | releaseTaskHeld task =>
    cases hst
    exact h.release (drain_givesUp h task) (foldl_released (w.held task).reverse { w with
      held := update w.held task []
      bodies := fun f => if w.bodies f = some task then none else w.bodies f })

end runtime.cancellation
