-- The order in which a `Shared` lock is given out. Tickets grow along the queue, so the head
-- is the oldest waiter. One branch of `advance` breaks the order: a stale poll, whose ticket
-- is gone from the queue, takes a free lock past the waiters that still stand there.
import OtterFusion.Runtime.SharedLock

open base.runs runtime.threads

namespace runtime.shared

/-! ## What the law says -/

/-- The ticket with which a future waits in the queue, once the dead front is pruned. -/
def standing (c : Cell) (f : Nat) : Option Nat :=
  let d := c.futures f
  if d.state = .acqQueued ∧ (pruneDeadFront c.live c.state).queue.any (·.ticket == d.ticket) then
    some d.ticket
  else none

/-- A step that takes the lock leaves no live waiter behind that came before it: it is the poll
of a queued future, and each live waiter left in the queue has a newer ticket. -/
def NoBarging (c : Cell) (a : Action) (c' : Cell) : Prop :=
  c.state.locked = false → c'.state.locked = true →
    ∀ w ∈ c'.state.queue, w.isLive c.live = true →
      ∃ f data wake t, a = .poll f data wake ∧ standing c f = some t ∧ t < w.ticket

/-- The tickets given out so far grow strictly. -/
def TicketsGrow (c : Cell) : Prop := c.issued.Pairwise (· > ·)

/-! ## The condition on a step -/

/-- A poll that comes back with a ticket the queue does not hold. -/
def Stale (c : Cell) (f : Nat) : Prop := (c.futures f).state = .acqQueued ∧ standing c f = none

/-- Whether an acquire poll gives out a ticket. -/
def givesTicket (live : LiveTasks) (s : State) (st : AcqState) (ticket data : Nat)
    (wake : WakeFn) : Bool :=
  let s := pruneDeadFront live s
  match st with
  | .acquired => false
  | .init =>
    (s.locked || !s.queue.isEmpty) &&
      (s.locked || !(removeDuplicateTaskWaiters live s data wake).queue.isEmpty)
  | .queued => !(s.queue.any (·.ticket == ticket)) && s.locked

/-- A step in turn: a stale poll that finds the lock free finds no live waiter queued, and a
ticket is given out only while the counter has not wrapped round to 0. -/
def InTurn (c : Cell) : Action → Prop
  | .poll f data wake =>
    Acquiring (c.futures f) →
      (Stale c f → c.state.locked = false → ∀ w ∈ c.state.queue, w.isLive c.live = false) ∧
      (givesTicket c.live c.state (c.futures f).acqState (c.futures f).ticket data wake = true →
        c.state.nextTicket ≠ 0)
  | _ => True

/-! ## The order of the queue -/

/-- The tickets grow along the queue, and each is below the next ticket, until that wraps. -/
structure Ordered (s : State) : Prop where
  fits : s.nextTicket < ticketSpace
  sorted : (s.queue.map (·.ticket)).Pairwise (· < ·)
  below : s.nextTicket ≠ 0 → ∀ w ∈ s.queue, w.ticket < s.nextTicket

/-- A counter that is not 0 after the add is one larger: only 0 comes from a wrap. -/
theorem nextTicket_of_ne_zero {n : Nat} (hn : n < ticketSpace)
    (h : (n + 1) % ticketSpace ≠ 0) : (n + 1) % ticketSpace = n + 1 := by
  rcases Nat.lt_or_ge (n + 1) ticketSpace with hlt | hge
  · exact Nat.mod_eq_of_lt hlt
  · have he : n + 1 = ticketSpace := by omega
    rw [he, Nat.mod_self] at h
    exact absurd rfl h

theorem Ordered.of_sublist {s s' : State} (h : Ordered s) (hq : s'.queue.Sublist s.queue)
    (hn : s'.nextTicket = s.nextTicket) : Ordered s' := by
  refine ⟨hn ▸ h.fits, h.sorted.sublist (hq.map _), fun h0 w hw => ?_⟩
  rw [hn] at h0 ⊢
  exact h.below h0 w (hq.subset hw)

theorem Ordered.prune {s : State} (h : Ordered s) (live : LiveTasks) :
    Ordered (pruneDeadFront live s) :=
  h.of_sublist (pruneDeadFront_sublist live s) rfl

theorem Ordered.removeDuplicates {s : State} (h : Ordered s) (live : LiveTasks) (data : Nat)
    (wake : WakeFn) : Ordered (removeDuplicateTaskWaiters live s data wake) :=
  h.of_sublist (removeDuplicateTaskWaiters_sublist live s data wake) (by simp)

theorem Ordered.refresh {s : State} (h : Ordered s) (data : Nat) (wake : WakeFn) (t : Nat) :
    Ordered { s with queue := refresh data wake t s.queue } := by
  refine ⟨h.fits, by simpa using h.sorted, fun h0 w hw => ?_⟩
  have hmem : w.ticket ∈ (shared.refresh data wake t s.queue).map (·.ticket) :=
    List.mem_map_of_mem hw
  rw [refresh_tickets] at hmem
  obtain ⟨v, hv, hvt⟩ := List.mem_map.mp hmem
  exact hvt ▸ h.below h0 v hv

theorem Ordered.enqueue {s : State} (h : Ordered s) (hn : s.nextTicket ≠ 0) (data : Nat)
    (wake : WakeFn) : Ordered (enqueue s data wake) := by
  refine ⟨Nat.mod_lt _ (by unfold ticketSpace; omega), ?_, fun h0 w hw => ?_⟩
  · simp only [shared.enqueue, List.map_append, List.map_cons, List.map_nil]
    rw [List.pairwise_append]
    refine ⟨h.sorted, List.pairwise_singleton _ _, fun a ha b hb => ?_⟩
    obtain ⟨v, hv, rfl⟩ := List.mem_map.mp ha
    simp only [List.mem_singleton] at hb
    exact hb ▸ h.below hn v hv
  · have hnext := nextTicket_of_ne_zero h.fits h0
    simp only [shared.enqueue, List.mem_append, List.mem_singleton] at hw ⊢
    rw [hnext]
    rcases hw with hw | rfl
    · have := h.below hn w hw
      omega
    · exact Nat.lt_succ_self _

/-! ## What one acquire poll keeps -/

section advanced

variable {live : LiveTasks} {s : State} {ticket data : Nat} {wake : WakeFn} {st : AcqState}
  {r : (Bool × AcqState × Nat) × State}

/-- The queue of an acquire poll that joins it, before its own entry is added. -/
theorem Ordered.others (h : Ordered s) :
    Ordered (removeDuplicateTaskWaiters live (pruneDeadFront live s) data wake) :=
  (h.prune live).removeDuplicates live data wake

/-- With a free lock, an own entry that is all the queue holds leaves it empty. -/
theorem removeDuplicates_nil (h : (pruneDeadFront live s).queue = []) :
    (removeDuplicateTaskWaiters live (pruneDeadFront live s) data wake).queue = [] := by
  have hsub := removeDuplicateTaskWaiters_sublist live (pruneDeadFront live s) data wake
  rw [h] at hsub
  exact List.sublist_nil.mp hsub

/-- An acquire poll gives out the next ticket, or leaves the counter alone. -/
theorem Advanced.nextTicket_eq (h : Advanced live s ticket data wake st r) :
    r.2.nextTicket = if givesTicket live s st ticket data wake then
      (s.nextTicket + 1) % ticketSpace else s.nextTicket := by
  unfold givesTicket
  cases h with
  | held => simp
  | free hl hq => simp [hl, hq]
  | alone hl hq => simp [hl, hq]
  | joins h =>
    cases hl : s.locked with
    | true => simp [enqueue, hl]
    | false =>
      have hne := mt removeDuplicates_nil (h hl)
      simp [enqueue, hl, h hl, hne]
  | turn hl hh => simp [hl]
  | stays hany _ => simp [hany]
  | staleTakes hany hl => simp [hl]
  | staleJoins hany hl => simp [hany, hl, enqueue]

/-- An acquire poll keeps the queue in order, unless it gives out a ticket that wrapped. -/
theorem Advanced.ordered (h : Advanced live s ticket data wake st r) (hs : Ordered s)
    (hn : givesTicket live s st ticket data wake = true → s.nextTicket ≠ 0) : Ordered r.2 := by
  have hp := hs.prune live
  have hjoin : givesTicket live s st ticket data wake = true →
      Ordered (enqueue (removeDuplicateTaskWaiters live (pruneDeadFront live s) data wake)
        data wake) :=
    fun hg => hs.others.enqueue (by simpa using hn hg) data wake
  cases h with
  | held => exact hp
  | free hl hq => exact hp.of_sublist (List.Sublist.refl _) rfl
  | alone hl hq => exact hs.others.of_sublist (List.Sublist.refl _) (by simp)
  | joins h =>
    refine hjoin ?_
    unfold givesTicket
    cases hl : s.locked with
    | true => simp [hl]
    | false => simp [hl, h hl, mt removeDuplicates_nil (h hl)]
  | turn hl hh => exact (hp.refresh data wake ticket).of_sublist (List.tail_sublist _) rfl
  | stays hany _ => exact hp.refresh data wake ticket
  | staleTakes hany hl => exact hp.of_sublist (List.Sublist.refl _) rfl
  | staleJoins hany hl => exact hjoin (by simp [givesTicket, hany, hl])

/-- What is left in the queue of a free lock that an acquire poll takes: nobody, or, behind
the head of the queue, waiters with newer tickets, or, after a stale poll, all the waiters. -/
theorem Advanced.taken (h : Advanced live s ticket data wake st r) (hs : Ordered s)
    (hfree : s.locked = false) (hst : st ≠ .acquired) (htaken : r.2.locked = true) :
    r.2.queue = [] ∨
    (st = .queued ∧ (pruneDeadFront live s).queue.any (·.ticket == ticket) = true ∧
      ∀ w ∈ r.2.queue, ticket < w.ticket) ∨
    (st = .queued ∧ (pruneDeadFront live s).queue.any (·.ticket == ticket) = false ∧
      r.2.queue = (pruneDeadFront live s).queue) := by
  cases h with
  | held => exact absurd rfl hst
  | free hl hq => exact Or.inl hq
  | alone hl hq => exact Or.inl hq
  | joins h => simp [enqueue, hfree] at htaken
  | turn hl hh =>
    refine Or.inr (Or.inl ⟨rfl, ?_, ?_⟩)
    · obtain ⟨w, hw, hwt⟩ := Option.map_eq_some_iff.mp hh
      exact List.any_eq_true.mpr ⟨w, List.mem_of_mem_head? hw, by simp [hwt]⟩
    · intro w hw
      simp only at hw
      have hord := (hs.prune live).refresh data wake ticket
      rw [← refresh_head_ticket data wake ticket] at hh
      have hsorted := hord.sorted
      simp only at hsorted
      cases hq : refresh data wake ticket (pruneDeadFront live s).queue with
      | nil => rw [hq] at hw; cases hw
      | cons v vs =>
        rw [hq] at hw hh hsorted
        simp only [List.head?_cons, Option.map_some, Option.some.injEq] at hh
        rw [List.map_cons, List.pairwise_cons] at hsorted
        exact hh ▸ hsorted.1 _ (List.mem_map_of_mem hw)
  | stays hany _ => simp [hfree] at htaken
  | staleTakes hany hl => exact Or.inr (Or.inr ⟨rfl, hany, rfl⟩)
  | staleJoins hany hl => rw [hfree] at hl; cases hl

/-- A stale poll of a free lock takes it, whoever waits. -/
theorem Advanced.stale (h : Advanced live s ticket data wake .queued r)
    (hfree : s.locked = false)
    (hany : (pruneDeadFront live s).queue.any (·.ticket == ticket) = false) :
    r.2.locked = true ∧ r.2.queue = (pruneDeadFront live s).queue := by
  cases h with
  | turn hl hh =>
    obtain ⟨w, hw, hwt⟩ := Option.map_eq_some_iff.mp hh
    have hin : (pruneDeadFront live s).queue.any (·.ticket == ticket) = true :=
      List.any_eq_true.mpr ⟨w, List.mem_of_mem_head? hw, by simp [hwt]⟩
    rw [hany] at hin
    cases hin
  | stays hin _ => rw [hany] at hin; cases hin
  | staleTakes _ hl => exact ⟨rfl, rfl⟩
  | staleJoins _ hl => rw [hfree] at hl; cases hl

end advanced

/-! ## The invariant of a cell -/

/-- The queue is in order, and the tickets given out are below the next one. -/
structure InOrder (c : Cell) : Prop where
  ordered : Ordered c.state
  grow : TicketsGrow c
  below : c.state.nextTicket ≠ 0 → ∀ i ∈ c.issued, i < c.state.nextTicket
  wrapped : c.state.nextTicket = 0 → c.issued ≠ []

theorem Initial.inOrder {c : Cell} (h : Initial c) : InOrder c := by
  refine ⟨?_, ?_, ?_, ?_⟩
  · rw [h.state]
    exact ⟨by simp [State.new, ticketSpace], by simp [State.new], by simp [State.new]⟩
  · simp [TicketsGrow, h.issued]
  · simp [h.issued]
  · simp [h.state, State.new]

theorem succ_mod_ne {n : Nat} (h : n < ticketSpace) : (n + 1) % ticketSpace ≠ n := by
  have hs : ticketSpace = 2 ^ 64 := rfl
  rcases Nat.lt_or_ge (n + 1) ticketSpace with hlt | hge
  · rw [Nat.mod_eq_of_lt hlt]; omega
  · have he : n + 1 = ticketSpace := by omega
    rw [he, Nat.mod_self]; omega

theorem withState_issued_same {c : Cell} {s : State}
    (h : s.nextTicket = c.state.nextTicket) : (c.withState s).issued = c.issued := by
  simp [Cell.withState, h]

theorem withState_issued_next {c : Cell} {s : State} (hc : Ordered c.state)
    (h : s.nextTicket = (c.state.nextTicket + 1) % ticketSpace) :
    (c.withState s).issued = c.state.nextTicket :: c.issued := by
  simp [Cell.withState, h, succ_mod_ne hc.fits]

/-- The tickets go on growing exactly when the one just given out is not 0. -/
theorem InOrder.grow_next {c : Cell} (hc : InOrder c) {s : State}
    (h : s.nextTicket = (c.state.nextTicket + 1) % ticketSpace) :
    TicketsGrow (c.withState s) ↔ c.state.nextTicket ≠ 0 := by
  unfold TicketsGrow
  rw [withState_issued_next hc.ordered h, List.pairwise_cons]
  constructor
  · rintro ⟨hall, _⟩ h0
    obtain ⟨i, hi⟩ := List.exists_mem_of_ne_nil _ (hc.wrapped h0)
    have := hall i hi
    omega
  · exact fun h0 => ⟨fun i hi => hc.below h0 i hi, hc.grow⟩

theorem InOrder.same {c : Cell} (hc : InOrder c) {s : State} (ho : Ordered s)
    (h : s.nextTicket = c.state.nextTicket) : InOrder (c.withState s) := by
  refine ⟨ho, ?_, ?_, ?_⟩
  · unfold TicketsGrow
    rw [withState_issued_same h]
    exact hc.grow
  · rw [withState_issued_same h]
    simp only [Cell.withState]
    rw [h]
    exact hc.below
  · rw [withState_issued_same h]
    simp only [Cell.withState]
    rw [h]
    exact hc.wrapped

theorem InOrder.next {c : Cell} (hc : InOrder c) {s : State} (ho : Ordered s)
    (h0 : c.state.nextTicket ≠ 0)
    (h : s.nextTicket = (c.state.nextTicket + 1) % ticketSpace) : InOrder (c.withState s) := by
  refine ⟨ho, (hc.grow_next h).mpr h0, ?_, ?_⟩
  · rw [withState_issued_next hc.ordered h]
    simp only [Cell.withState]
    intro hne i hi
    rw [h] at hne ⊢
    rw [nextTicket_of_ne_zero hc.ordered.fits hne]
    rcases List.mem_cons.mp hi with rfl | hi
    · exact Nat.lt_succ_self _
    · exact Nat.lt_succ_of_lt (hc.below h0 i hi)
  · rw [withState_issued_next hc.ordered h]
    simp

/-- The history of a cell does not depend on its futures. -/
theorem InOrder.of_eq {c c' : Cell} (hc : InOrder c) (hs : c'.state = c.state)
    (hi : c'.issued = c.issued) : InOrder c' := by
  obtain ⟨h1, h2, h3, h4⟩ := hc
  refine ⟨hs ▸ h1, ?_, ?_, ?_⟩
  · unfold TicketsGrow at *
    rw [hi]
    exact h2
  · rw [hs, hi]; exact h3
  · rw [hs, hi]; exact h4

/-- Every step in turn keeps the order. -/
theorem inOrder_step {c c' : Cell} {a : Action} (hc : InOrder c) (ha : InTurn c a)
    (h : step c a = some c') : InOrder c' := by
  cases a with
  | poll f data wake =>
    simp only [step, Option.some.injEq] at h
    subst h
    refine InOrder.of_eq (c := c.withState (lockPoll c.live c.state (c.futures f) data wake).2)
      ?_ rfl rfl
    by_cases hq : Acquiring (c.futures f)
    · rw [lockPoll_of_acquiring hq]
      have hadv := advance_cases c.live c.state (c.futures f).acqState (c.futures f).ticket
        data wake
      have hgive := (ha hq).2
      have hord := hadv.ordered hc.ordered hgive
      have hnext := hadv.nextTicket_eq
      split at hnext
      · rename_i hg
        exact hc.next hord (hgive hg) hnext
      · exact hc.same hord hnext
    · rcases lockPoll_of_not_acquiring c.live c.state data wake hq with he | ⟨_, he⟩
      · rw [he]
        exact hc.same hc.ordered rfl
      · rw [he]
        exact hc.same (hc.ordered.of_sublist (List.Sublist.refl _) rfl) rfl
  | tryAcquire =>
    simp only [step, Option.some.injEq] at h
    subst h
    unfold tryAcquire
    split
    · exact hc.same (hc.ordered.of_sublist (List.Sublist.refl _) rfl) rfl
    · exact hc.same hc.ordered rfl
  | release =>
    simp only [step, Option.some.injEq] at h
    subst h
    refine InOrder.of_eq (c := c.withState (releaseInner c.live c.state).2) ?_ rfl rfl
    exact hc.same (hc.ordered.of_sublist (List.dropWhile_sublist _) rfl) rfl
  | callWaker w =>
    simp only [step] at h
    split at h
    · cases h
      exact hc.of_eq rfl rfl
    · cases h
  | taskDies t =>
    simp only [step, Option.some.injEq] at h
    subst h
    exact hc.of_eq rfl rfl

theorem reaches_inOrder {c : Cell} (h : Reaches step Initial InTurn c) : InOrder c :=
  h.invariant (fun _ h0 => h0.inOrder) fun _ _ _ hc ha hst => inOrder_step hc ha hst

/-! ## The law -/

section standing

variable {c : Cell} {f : Nat}

theorem standing_some (hs : (c.futures f).state = .acqQueued)
    (hany : (pruneDeadFront c.live c.state).queue.any (·.ticket == (c.futures f).ticket) = true) :
    standing c f = some (c.futures f).ticket := by
  simp only [standing, hs, hany, and_self, if_true]

theorem Stale.not_any (h : Stale c f) :
    (pruneDeadFront c.live c.state).queue.any (·.ticket == (c.futures f).ticket) = false := by
  by_contra hany
  have := standing_some h.1 (by simpa using hany)
  rw [h.2] at this
  cases this

theorem stale_of_not_any (hs : (c.futures f).state = .acqQueued)
    (hany : (pruneDeadFront c.live c.state).queue.any (·.ticket == (c.futures f).ticket) = false) :
    Stale c f := by
  refine ⟨hs, ?_⟩
  simp [standing, hany]

end standing

/-- The poll of a future that wants the lock barges past nobody exactly when it is not a stale
poll of a free lock that a live waiter still stands before. -/
theorem poll_no_barging {c c' : Cell} {f data : Nat} {wake : WakeFn} (hc : InOrder c)
    (hq : Acquiring (c.futures f)) (h : step c (.poll f data wake) = some c') :
    NoBarging c (.poll f data wake) c' ↔
      (Stale c f → c.state.locked = false → ∀ w ∈ c.state.queue, w.isLive c.live = false) := by
  simp only [step, Option.some.injEq] at h
  have hstate : c'.state =
      (advance c.live c.state (c.futures f).acqState (c.futures f).ticket data wake).2 := by
    rw [← h, ← lockPoll_of_acquiring hq]
    rfl
  have hadv := advance_cases c.live c.state (c.futures f).acqState (c.futures f).ticket data wake
  unfold NoBarging
  rw [hstate]
  constructor
  · intro hno hstale hfree w hw
    rw [(acqState_queued hq).mpr hstale.1] at hadv hno
    obtain ⟨hlock, hqueue⟩ := hadv.stale hfree hstale.not_any
    by_contra hlive
    have hlive : w.isLive c.live = true := by simpa using hlive
    have hmem := mem_pruneDeadFront_of_live c.live c.state w hw hlive
    obtain ⟨g, _, _, t, hg, hstand, _⟩ := hno hfree hlock w (hqueue ▸ hmem) hlive
    simp only [Action.poll.injEq] at hg
    rw [← hg.1, hstale.2] at hstand
    cases hstand
  · intro hturn hfree hlock w hw hlive
    rcases hadv.taken hc.ordered hfree (acqState_ne_acquired _) hlock with
      hnil | ⟨hst, hany, hnewer⟩ | ⟨hst, hany, hqueue⟩
    · rw [hnil] at hw
      cases hw
    · have hs := (acqState_queued hq).mp hst
      exact ⟨f, data, wake, _, rfl, standing_some hs hany, hnewer w hw⟩
    · have hs := (acqState_queued hq).mp hst
      have hdead := hturn (stale_of_not_any hs hany) hfree w
        ((pruneDeadFront_sublist c.live c.state).subset (hqueue ▸ hw))
      rw [hlive] at hdead
      cases hdead

/-- A step that is no poll of a waiting future takes the lock only when nobody waits. -/
theorem other_no_barging {c c' : Cell} {a : Action} (h : step c a = some c')
    (hq : ∀ f data wake, a = .poll f data wake → ¬ Acquiring (c.futures f)) :
    NoBarging c a c' ∧ c'.state.nextTicket = c.state.nextTicket := by
  unfold NoBarging
  cases a with
  | poll f data wake =>
    simp only [step, Option.some.injEq] at h
    subst h
    simp only [Cell.withState]
    rcases lockPoll_of_not_acquiring c.live c.state data wake (hq f data wake rfl)
      with he | ⟨hnil, he⟩
    · rw [he]
      exact ⟨fun h1 h2 => absurd h2 (by simp [h1]), rfl⟩
    · rw [he]
      simp [hnil]
  | tryAcquire =>
    simp only [step, Option.some.injEq] at h
    subst h
    unfold tryAcquire
    split
    · rename_i hf
      simp only [Bool.and_eq_true, List.isEmpty_iff] at hf
      simp [Cell.withState, hf.2]
    · exact ⟨fun h1 h2 => absurd h2 (by simp [Cell.withState, h1]), rfl⟩
  | release =>
    simp only [step, Option.some.injEq] at h
    subst h
    simp [Cell.withState, releaseInner]
  | callWaker w =>
    simp only [step] at h
    split at h
    · cases h
      exact ⟨fun h1 h2 => absurd h2 (by simp [h1]), rfl⟩
    · cases h
  | taskDies t =>
    simp only [step, Option.some.injEq] at h
    subst h
    exact ⟨fun h1 h2 => absurd h2 (by simp [h1]), rfl⟩

theorem step_issued {c c' : Cell} {a : Action} (h : step c a = some c') :
    c'.issued = (c.withState c'.state).issued := by
  cases a with
  | callWaker w =>
    simp only [step] at h
    split at h
    · cases h
      simp [Cell.withState]
    · cases h
  | _ =>
    simp only [step, Option.some.injEq] at h
    subst h
    simp [Cell.withState]

/-- After a run whose steps were all in turn, the next step takes the lock past no older live
waiter and gives out no ticket that is not the largest so far, exactly when it is in turn. -/
theorem the_lock_is_fifo_while_steps_are_in_turn {c c' : Cell} {a : Action}
    (hc : Reaches step Initial InTurn c) (h : step c a = some c') :
    (NoBarging c a c' ∧ TicketsGrow c') ↔ InTurn c a := by
  have hin := reaches_inOrder hc
  have hgrow : TicketsGrow c' ↔ TicketsGrow (c.withState c'.state) := by
    unfold TicketsGrow
    rw [step_issued h]
  by_cases hq : ∃ f data wake, a = .poll f data wake ∧ Acquiring (c.futures f)
  · obtain ⟨f, data, wake, rfl, hacq⟩ := hq
    have hnext : c'.state.nextTicket =
        if givesTicket c.live c.state (c.futures f).acqState (c.futures f).ticket data wake then
          (c.state.nextTicket + 1) % ticketSpace else c.state.nextTicket := by
      simp only [step, Option.some.injEq] at h
      subst h
      rw [← (advance_cases c.live c.state (c.futures f).acqState (c.futures f).ticket data
        wake).nextTicket_eq, ← lockPoll_of_acquiring hacq]
      rfl
    have hticket : TicketsGrow (c.withState c'.state) ↔
        (givesTicket c.live c.state (c.futures f).acqState (c.futures f).ticket data wake = true →
          c.state.nextTicket ≠ 0) := by
      split at hnext
      · rename_i hg
        rw [hin.grow_next hnext]
        simp [hg]
      · rename_i hg
        unfold TicketsGrow
        rw [withState_issued_same hnext]
        simp only [hg, Bool.false_eq_true, false_implies, iff_true]
        exact hin.grow
    rw [poll_no_barging hin hacq h, hgrow, hticket]
    exact ⟨fun hp _ => hp, fun hp => hp hacq⟩
  · have hq : ∀ f data wake, a = .poll f data wake → ¬ Acquiring (c.futures f) :=
      fun f data wake ha hacq => hq ⟨f, data, wake, ha, hacq⟩
    obtain ⟨hno, hsame⟩ := other_no_barging h hq
    have hturn : InTurn c a := by
      cases a with
      | poll f data wake => exact fun hacq => absurd hacq (hq f data wake rfl)
      | _ => trivial
    refine ⟨fun _ => hturn, fun _ => ⟨hno, hgrow.mpr ?_⟩⟩
    unfold TicketsGrow
    rw [withState_issued_same hsame]
    exact hin.grow

instance : DecidablePred Acquiring := fun _ => inferInstanceAs (Decidable (_ ∧ _))

instance (c : Cell) (f : Nat) : Decidable (Stale c f) := inferInstanceAs (Decidable (_ ∧ _))

instance (c : Cell) : DecidablePred (InTurn c)
  | .poll f _ _ => inferInstanceAs (Decidable (Acquiring (c.futures f) →
      (Stale c f → _ → ∀ w ∈ c.state.queue, _) ∧ _))
  | .tryAcquire | .release | .callWaker _ | .taskDies _ => .isTrue trivial

/-- Tasks 7 and 8 queue behind task 9, which releases the lock. Task 7 comes back with the older
ticket and takes the lock; task 8 still stands in the queue. -/
theorem the_lock_is_fifo_in_a_run :
    let as : List Action := [.poll 3 9 .taskWake, .poll 0 7 .taskWake, .poll 1 8 .taskWake,
      .release, .callWaker ⟨7, .taskWake, 1⟩]
    ∃ c c', run step newCell as = some c ∧ step c (.poll 0 7 .taskWake) = some c' ∧
      c'.state = ⟨true, [⟨8, .taskWake, 2⟩], 3⟩ ∧
      NoBarging c (.poll 0 7 .taskWake) c' ∧ TicketsGrow c' := by
  intro as
  refine ⟨_, _, rfl, rfl, rfl, ?_⟩
  refine (the_lock_is_fifo_while_steps_are_in_turn ?_ rfl).mpr (by decide)
  exact Reaches.of_tested_run (fun _ _ => of_decide_eq_true) (.start newCell_initial)
    (rfl : run _ newCell as = some _)

/-- Task 7 polls two lock futures, 0 and then 1, so that the entry of future 0 leaves the
queue. When the lock is free again, a poll of future 0 takes it past task 8. -/
theorem a_stale_poll_barges : Initial newCell ∧ ∃ c c',
    run step newCell [.poll 3 9 .taskWake, .poll 0 7 .taskWake, .poll 1 7 .taskWake,
      .poll 2 8 .taskWake, .release, .callWaker ⟨7, .taskWake, 2⟩] = some c ∧
    step c (.poll 0 7 .taskWake) = some c' ∧ ¬ NoBarging c (.poll 0 7 .taskWake) c' := by
  refine ⟨newCell_initial, _, _, rfl, rfl, fun h => ?_⟩
  obtain ⟨f, data, wake, t, ha, hstand, _⟩ := h rfl rfl ⟨8, .taskWake, 3⟩ (by decide) rfl
  cases ha
  cases hstand

end runtime.shared
