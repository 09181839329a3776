-- A task completes once, with its own value (`threads.rs`), in every run in which no body gives
-- the word that `poll_task` takes for `Pending`. Whoever holds the poll lock knows how far the
-- completion is; the other threads change nothing that it depends on.
import OtterFusion.Runtime.TaskCompletion

open base.runs runtime.gc runtime.threads

namespace runtime.tasks

/-! ## What the law says -/

/-- The ending that a result of the body calls for. -/
def BodyResult.ending : BodyResult → Option Ending
  | .pending => none
  | .ready value => some (.value value)
  | .panicked message => some (.panic message)

/-- The ending that a thread at this point is about to publish, or has just published. -/
def Point.ending : Point → Option Ending
  | .pollLeave (.ok value) => if value = taskPending then none else some (.value value)
  | .pollLeave (.error message) => some (.panic message)
  | .pollStoreDone e => some e
  | .pollCancelDone => some .cancelled
  | .finish _ e _ => some e
  | _ => none

/-- The record tells its readers this ending, or none yet. -/
def Shows (g : ThreadInner) : Option Ending → Prop
  | none => g.done = false ∧ g.panicked = false ∧ g.cancelled = false
  | some (.value value) =>
    g.done = true ∧ g.panicked = false ∧ g.cancelled = false ∧ g.result = value
  | some (.panic message) =>
    g.done = true ∧ g.panicked = true ∧ g.cancelled = false ∧ g.message = message
  | some .cancelled => g.done = true ∧ g.panicked = false ∧ g.cancelled = true

/-- The task completes at most once; what a body gave is published as it is, or a thread is
about to; and when the task is done and no thread is completing it, exactly one ending was
published and the root of the input was removed once. -/
structure CompletesOnce (s : TaskRun) : Prop where
  at_most_once : s.published.length ≤ 1
  own : ∀ e ∈ s.published, e = .cancelled ∨ ∃ r ∈ s.results, r.ending = some e
  shown : ∀ e ∈ s.published, Shows s.ctl (some e)
  not_lost : ∀ r ∈ s.results, ∀ e, r.ending = some e →
    s.published = [e] ∨ ∃ th p, s.running th = some p ∧ p.ending = some e
  exactly_once : s.task.done = true →
    (∀ th p, s.running th = some p → p.ending = none) →
    s.published.length = 1 ∧ s.inputRemovals = 1
  root_once : s.inputRemovals ≤ 1
  no_body : s.task.done = true → ∀ th, s.running th ≠ some .pollUser

/-! ## The condition on a step -/

/-- The body does not give the word that stands for `Pending` as its value. -/
def NotPendingWord (s : TaskRun) : Action → Prop
  | .turn thread r => s.running thread = some .pollUser → r ≠ .ready taskPending
  | _ => True

/-! ## How far the completion is -/

/-- What the polls of the body gave, without those that were pending. -/
def TaskRun.outcomes (s : TaskRun) : List Ending := s.results.filterMap BodyResult.ending

/-- What the body gave when the task ends so. -/
def produced : Ending → List Ending
  | .cancelled => []
  | e => [e]

/-- How far the completion is: whether the task is done, what is published, how often the root
of the input was removed, and what the body gave. -/
structure At (s : TaskRun) (done : Bool) (shown : Option Ending) (removals : Nat)
    (outcomes : List Ending) : Prop where
  done : s.task.done = done
  shows : Shows s.ctl shown
  published : s.published = shown.toList
  removals : s.inputRemovals = removals
  outcomes : s.outcomes = outcomes

/-- Nothing of the completion has begun. -/
def Open (s : TaskRun) (outcomes : List Ending) : Prop := At s false none 0 outcomes

/-- The completion is open, or it is over. -/
def Resting (s : TaskRun) : Prop := Open s [] ∨ ∃ e, At s true (some e) 1 (produced e)

/-- The thread at this point holds the poll lock. -/
def Point.holds : Point → Bool
  | .pollLoadDone | .pollTryLock | .pollStoreReschedule | .pollLoadDoneLast _ | .pollSwapLast _
  | .injectStoreQueued | .injectPush | .cancelLoadCtlDone | .cancelStoreRequested
  | .cancelTryLock | .cancelStoreReschedule => false
  | _ => true

/-- How far the completion is when the holder of the poll lock is at this point. -/
def Standing (s : TaskRun) : Point → Prop
  | .pollStoreQueued | .pollStorePolling | .pollLoadCancel | .pollCancelPolling | .pollCancelDone
  | .pollUser | .pollLoadCancelPending | .pollSwapReschedule => Open s []
  | .pollLeave outcome => Open s (Point.pollLeave outcome).ending.toList
  | .pollStoreDone e => Open s (produced e)
  | .finish .unregister e _ => At s true none 0 (produced e)
  | .finish .removeRoot .cancelled _ => At s true none 0 []
  | .finish .removeRoot e _ => At s true (some e) 0 (produced e)
  | .finish .publish .cancelled _ => At s true none 1 []
  | .finish .publish e _ => At s true none 0 (produced e)
  | _ => Resting s

section moves

variable {s : TaskRun} {th : Nat} {d d' : Bool} {shown : Option Ending} {n : Nat}
  {o : List Ending} {t : Task} {p : Point}

/-- An operation without an effect leaves all but the flag. -/
theorem At.go (h : At s d shown n o) (hd : t.done = d') :
    At (s.after th (.go t p)) d' shown n o :=
  ⟨hd, h.shows, h.published, h.removals, h.outcomes⟩

theorem At.ret (h : At s d shown n o) (hd : t.done = d') :
    At (s.after th (.ret t)) d' shown n o :=
  ⟨hd, h.shows, h.published, h.removals, h.outcomes⟩

theorem At.result (h : At s d shown n o) (r : BodyResult) (hd : t.done = d') :
    At (s.after th (.act t (.result r) p)) d' shown n (o ++ r.ending.toList) := by
  obtain ⟨_, hshows, hpub, hrem, rfl⟩ := h
  refine ⟨hd, hshows, hpub, hrem, ?_⟩
  cases r <;> simp [TaskRun.outcomes, TaskRun.after, TaskRun.apply, Move.act, BodyResult.ending]

/-- The first publication takes effect, and the record tells it. -/
theorem At.publish (h : At s d none n o) (e : Ending) (hd : t.done = d') :
    At (s.after th (.act t (.publish e) p)) d' (some e) n o := by
  obtain ⟨_, ⟨hdone, hpanicked, hcancelled⟩, hpub, hrem, hout⟩ := h
  have heffect : takesEffect s.ctl e = true := by
    cases e with
    | value | panic => rfl
    | cancelled => simp [takesEffect, hdone]
  have hnew : (s.after th (.act t (.publish e) p)).published = [e] := by
    simp [TaskRun.after, TaskRun.apply, Move.act, heffect, hpub]
  refine ⟨hd, ?_, hnew, hrem, hout⟩
  cases e with
  | value v => exact ⟨rfl, hpanicked, hcancelled, rfl⟩
  | panic m => exact ⟨rfl, rfl, hcancelled, rfl⟩
  | cancelled =>
    simp [Shows, TaskRun.after, TaskRun.apply, Move.act, threads.publish, publishCancelled,
      hdone, hpanicked]

theorem At.removeRoot (h : At s d shown n o) (hd : t.done = d') :
    At (s.after th (.act t .removeRoot p)) d' shown (n + 1) o := by
  obtain ⟨_, hshows, hpub, hrem, hout⟩ := h
  exact ⟨hd, hshows, hpub, congrArg (· + 1) hrem, hout⟩

theorem Resting.go (h : Resting s) (hd : t.done = s.task.done) :
    Resting (s.after th (.go t p)) := by
  rcases h with h | ⟨e, h⟩
  · exact Or.inl (h.go (hd.trans h.done))
  · exact Or.inr ⟨e, h.go (hd.trans h.done)⟩

theorem Resting.ret (h : Resting s) (hd : t.done = s.task.done) :
    Resting (s.after th (.ret t)) := by
  rcases h with h | ⟨e, h⟩
  · exact Or.inl (h.ret (hd.trans h.done))
  · exact Or.inr ⟨e, h.ret (hd.trans h.done)⟩

/-- A task at rest that is not done is open, and one that is done has completed. -/
theorem Resting.open (h : Resting s) (hd : s.task.done = false) : Open s [] := by
  rcases h with h | ⟨e, h⟩
  · exact h
  · rw [h.done] at hd
    cases hd

theorem Resting.ended (h : Resting s) (hd : s.task.done = true) :
    ∃ e, At s true (some e) 1 (produced e) := by
  rcases h with h | h
  · rw [h.done] at hd
    cases hd
  · exact h

end moves

/-- What the holder of the poll lock leaves: it holds the lock still and stands at its next
point, or it has let go and the completion is at rest. -/
inductive Follows (s s' : TaskRun) (m : Move) : Prop
  | keeps {p : Point} : m.next = some p → p.holds = true → m.task.pollLock = s.task.pollLock →
      Standing s' p → Follows s s' m
  | releases : (∀ p, m.next = some p → p.holds = false) → m.task.pollLock = false →
      Resting s' → Follows s s' m

theorem back_holds (b : Back) : b.point.holds = true := by
  cases b <;> rfl

theorem back_standing {s : TaskRun} (b : Back) (h : Resting s) : Standing s b.point := by
  cases b <;> exact h

/-- What the body gave is what the poll leaves with, unless it is the word for `Pending`. -/
theorem leave_ending {r : BodyResult} (hr : r ≠ .ready taskPending) :
    (Point.pollLeave (underBoundary r)).ending = r.ending := by
  cases r with
  | pending => rfl
  | ready value =>
    apply if_neg
    rintro rfl
    exact hr rfl
  | panicked => rfl

section follows

variable {s : TaskRun} (th : Nat) (r : BodyResult)

theorem finish_follows (stage : Stage) (e : Ending) (back : Back)
    (h : Standing s (.finish stage e back)) :
    Follows s (s.after th (finishMove s.task back e stage)) (finishMove s.task back e stage) := by
  have hd : s.task.done = true := by
    cases stage <;> cases e <;> exact h.done
  cases e with
  | cancelled =>
    cases stage with
    | unregister => exact .keeps rfl rfl rfl (At.go h hd)
    | removeRoot => exact .keeps rfl rfl rfl (At.removeRoot h hd)
    | publish =>
      exact .keeps rfl (back_holds back) rfl
        (back_standing back (Or.inr ⟨.cancelled, At.publish h .cancelled hd⟩))
  | value v =>
    cases stage with
    | unregister => exact .keeps rfl rfl rfl (At.go h hd)
    | publish => exact .keeps rfl rfl rfl (At.publish h (.value v) hd)
    | removeRoot =>
      exact .keeps rfl (back_holds back) rfl
        (back_standing back (Or.inr ⟨.value v, At.removeRoot h hd⟩))
  | panic m =>
    cases stage with
    | unregister => exact .keeps rfl rfl rfl (At.go h hd)
    | publish => exact .keeps rfl rfl rfl (At.publish h (.panic m) hd)
    | removeRoot =>
      exact .keeps rfl (back_holds back) rfl
        (back_standing back (Or.inr ⟨.panic m, At.removeRoot h hd⟩))

/-- The poll leaves with the ending that its outcome calls for. -/
theorem leave_follows (outcome : Except Nat Int64) (h : Standing s (.pollLeave outcome)) :
    Follows s (s.after th (leaveMove s.task outcome)) (leaveMove s.task outcome) := by
  have hd : s.task.done = false := h.done
  cases outcome with
  | error m => exact .keeps rfl rfl rfl (At.go h hd)
  | ok v =>
    have hopen : Open s (if v = taskPending then none else some (Ending.value v)).toList := h
    simp only [leaveMove]
    split
    · rename_i hv
      rw [if_pos hv] at hopen
      exact .keeps rfl rfl rfl (At.go hopen hd)
    · rename_i hv
      rw [if_neg hv] at hopen
      exact .keeps rfl rfl rfl (At.go hopen hd)

/-- The holder of the poll lock goes from point to point. -/
theorem standing_follows {p : Point} (hp : p.holds = true) (h : Standing s p)
    (hr : p = .pollUser → r ≠ .ready taskPending) :
    Follows s (s.after th (s.moveAt r p)) (s.moveAt r p) := by
  unfold TaskRun.moveAt
  cases p with
  | pollLoadDone | pollTryLock | pollStoreReschedule | pollLoadDoneLast | pollSwapLast
  | injectStoreQueued | injectPush | cancelLoadCtlDone | cancelStoreRequested | cancelTryLock
  | cancelStoreReschedule => cases hp
  | pollLoadDoneLocked =>
    simp only [move]
    split
    · exact .keeps rfl rfl rfl (Resting.go h rfl)
    · rename_i hd
      have hopen : Open s [] := Resting.open h (eq_false_of_ne_true hd)
      exact .keeps rfl rfl rfl (hopen.go hopen.done)
  | pollStoreQueued | pollStorePolling | pollCancelPolling | pollSwapReschedule =>
    have hd : s.task.done = false := h.done
    first
      | exact .keeps rfl rfl rfl (At.go h hd)
      | exact .keeps rfl rfl rfl (Or.inl (At.go h hd))
  | pollLoadCancel | pollLoadCancelPending =>
    have hd : s.task.done = false := h.done
    simp only [move]
    split <;> exact .keeps rfl rfl rfl (At.go h hd)
  | pollUser =>
    have hd : s.task.done = false := h.done
    have hleft : Open (s.after th (.act s.task (.result r) (.pollLeave (underBoundary r))))
        (Point.pollLeave (underBoundary r)).ending.toList := by
      rw [leave_ending (hr rfl)]
      exact At.result h r hd
    exact .keeps rfl rfl rfl hleft
  | pollLeave outcome => exact leave_follows th outcome h
  | pollCancelDone | pollStoreDone => exact .keeps rfl rfl rfl (At.go h rfl)
  | pollReturn | cancelUnlock => exact .releases (fun _ hn => by cases hn) rfl (Resting.ret h rfl)
  | pollUnlock requeue =>
    refine .releases (fun p hn => ?_) rfl (Resting.go h rfl)
    cases hn
    rfl
  | finish stage e back => exact finish_follows th stage e back h
  | cancelSwapDone =>
    simp only [move]
    split
    · rename_i hd
      obtain ⟨e, hended⟩ := Resting.ended h hd
      exact .keeps rfl rfl rfl (Or.inr ⟨e, hended.go rfl⟩)
    · rename_i hd
      have hopen : Open s [] := Resting.open h (eq_false_of_ne_true hd)
      exact .keeps rfl rfl rfl (hopen.go rfl)

end follows

/-! ## The threads that do not hold the lock -/

/-- What the completion depends on is the same in both states. -/
structure Same (s s' : TaskRun) : Prop where
  done : s'.task.done = s.task.done
  ctl : s'.ctl = s.ctl
  published : s'.published = s.published
  removals : s'.inputRemovals = s.inputRemovals
  results : s'.results = s.results

section same

variable {s s' : TaskRun}

theorem At.same {d : Bool} {shown : Option Ending} {n : Nat} {o : List Ending}
    (hs : Same s s') (h : At s d shown n o) : At s' d shown n o := by
  refine ⟨hs.done.trans h.done, ?_, hs.published.trans h.published,
    hs.removals.trans h.removals, ?_⟩
  · rw [hs.ctl]
    exact h.shows
  · unfold TaskRun.outcomes
    rw [hs.results]
    exact h.outcomes

theorem Resting.same (hs : Same s s') (h : Resting s) : Resting s' := by
  rcases h with h | ⟨e, h⟩
  · exact Or.inl (At.same hs h)
  · exact Or.inr ⟨e, h.same hs⟩

theorem Standing.same {p : Point} (hs : Same s s') (h : Standing s p) : Standing s' p := by
  cases p with
  | finish stage e back => cases stage <;> cases e <;> exact At.same hs h
  | _ => first | exact At.same hs h | exact Resting.same hs h

end same

/-- What a thread leaves that did not hold the lock: it does not hold it now, or it found it
free and took it. -/
inductive Outside (s s' : TaskRun) (next : Option Point) : Prop
  | stays : (∀ p, next = some p → p.holds = false) → s'.task.pollLock = s.task.pollLock →
      Outside s s' next
  | takes {p : Point} : next = some p → s.task.pollLock = false → s'.task.pollLock = true →
      (Resting s' → Standing s' p) → Outside s s' next

section outside

variable {s : TaskRun} (th : Nat) (r : BodyResult)

/-- A thread without the lock changes nothing that the completion depends on. -/
theorem outside_same {p : Point} (hp : p.holds = false) :
    Same s (s.after th (s.moveAt r p)) := by
  have hgo : ∀ (t : Task) (q : Point), t.done = s.task.done → Same s (s.after th (.go t q)) :=
    fun t q ht => ⟨ht, rfl, rfl, rfl, rfl⟩
  have hret : ∀ t : Task, t.done = s.task.done → Same s (s.after th (.ret t)) :=
    fun t ht => ⟨ht, rfl, rfl, rfl, rfl⟩
  unfold TaskRun.moveAt
  cases p with
  | pollStoreReschedule | injectPush | cancelStoreReschedule => exact hret _ rfl
  | injectStoreQueued | cancelStoreRequested => exact hgo _ _ rfl
  | pollLoadDone | pollTryLock | pollSwapLast | cancelLoadCtlDone =>
    simp only [move]
    split <;> first | exact hgo _ _ rfl | exact hret _ rfl
  | pollLoadDoneLast =>
    simp only [move]
    split
    · exact hgo _ _ rfl
    · split <;> first | exact hgo _ _ rfl | exact hret _ rfl
  | cancelTryLock =>
    simp only [move]
    split
    · split <;> first | exact hgo _ _ rfl | exact hret _ rfl
    · exact hgo _ _ rfl
  | _ => cases hp

theorem outside_follows {p : Point} (hp : p.holds = false) :
    Outside s (s.after th (s.moveAt r p)) (s.moveAt r p).next := by
  have hgo : ∀ (t : Task) (q : Point), t.pollLock = s.task.pollLock → q.holds = false →
      Outside s (s.after th (.go t q)) (Move.go t q).next := fun t q ht hq =>
    .stays (fun q' h => by cases h; exact hq) ht
  have hret : ∀ t : Task, t.pollLock = s.task.pollLock →
      Outside s (s.after th (.ret t)) (Move.ret t).next := fun t ht =>
    .stays (fun q' h => by cases h) ht
  unfold TaskRun.moveAt
  cases p with
  | pollStoreReschedule | injectPush | cancelStoreReschedule => exact hret _ rfl
  | injectStoreQueued | cancelStoreRequested => exact hgo _ _ rfl rfl
  | pollLoadDone | pollSwapLast | cancelLoadCtlDone =>
    simp only [move]
    split <;> first | exact hgo _ _ rfl rfl | exact hret _ rfl
  | pollLoadDoneLast =>
    simp only [move]
    split
    · exact hgo _ _ rfl rfl
    · split <;> first | exact hgo _ _ rfl rfl | exact hret _ rfl
  | pollTryLock =>
    simp only [move]
    split
    · exact hgo _ _ rfl rfl
    · rename_i hfree
      exact .takes rfl (eq_false_of_ne_true hfree) rfl id
  | cancelTryLock =>
    simp only [move]
    split
    · split
      · exact hgo _ _ rfl rfl
      · exact hret _ rfl
    · rename_i hfree
      split <;> exact .takes rfl (eq_false_of_ne_true hfree) rfl id
  | _ => cases hp

end outside

/-! ## The invariant -/

/-- At most one thread holds the poll lock, and it stands where the completion is; while nobody
holds it, the completion is at rest. -/
structure Inv (s : TaskRun) : Prop where
  holder : ∀ th p, s.running th = some p → p.holds = true →
    s.task.pollLock = true ∧ Standing s p
  alone : ∀ th th' p p', s.running th = some p → s.running th' = some p' →
    p.holds = true → p'.holds = true → th = th'
  unheld : (∀ th p, s.running th = some p → p.holds = false) → Resting s

section inv

variable {s s' : TaskRun} {th : Nat} {next : Option Point}

/-- No thread holds a lock that is free. -/
theorem Inv.free (h : Inv s) (hfree : s.task.pollLock = false) {th : Nat} {p : Point}
    (hrun : s.running th = some p) : p.holds = false := by
  by_contra hp
  have hlock := (h.holder th p hrun (eq_true_of_ne_false hp)).1
  rw [hfree] at hlock
  cases hlock

theorem running_update {next : Option Point} (hrun : s'.running = Function.update s.running th next)
    {i : Nat} {p : Point} (h : s'.running i = some p) :
    (i = th ∧ next = some p) ∨ (i ≠ th ∧ s.running i = some p) := by
  rw [hrun] at h
  by_cases hi : i = th
  · subst hi
    exact Or.inl ⟨rfl, by simpa using h⟩
  · exact Or.inr ⟨hi, by simpa [hi] using h⟩

/-- A step of a thread that does not hold the lock. -/
theorem Inv.outside (h : Inv s) (hrun : s'.running = Function.update s.running th next)
    (hth : ∀ p, s.running th = some p → p.holds = false) (hsame : Same s s')
    (hout : Outside s s' next) : Inv s' := by
  have hnobody : (∀ i p, i ≠ th → s.running i = some p → p.holds = false) → Resting s' := by
    intro hothers
    refine Resting.same hsame (h.unheld fun i p hi => ?_)
    by_cases hith : i = th
    · exact hth p (hith ▸ hi)
    · exact hothers i p hith hi
  cases hout with
  | stays hnext hlock =>
    refine ⟨fun i p hi hp => ?_, fun i j p q hi hj hp hq => ?_, fun hall => ?_⟩
    · rcases running_update hrun hi with ⟨_, hn⟩ | ⟨_, hi⟩
      · rw [hnext p hn] at hp
        cases hp
      · obtain ⟨hl, hstand⟩ := h.holder i p hi hp
        exact ⟨hlock.trans hl, hstand.same hsame⟩
    · rcases running_update hrun hi with ⟨_, hn⟩ | ⟨_, hi⟩
      · rw [hnext p hn] at hp
        cases hp
      · rcases running_update hrun hj with ⟨_, hn⟩ | ⟨_, hj⟩
        · rw [hnext q hn] at hq
          cases hq
        · exact h.alone i j p q hi hj hp hq
    · refine hnobody fun i p hith hi => hall i p ?_
      rw [hrun, Function.update_of_ne hith]
      exact hi
  | takes hnext hfree hlock hstand =>
    have hrest : Resting s' := hnobody fun i p _ hi => h.free hfree hi
    refine ⟨fun i p hi hp => ?_, fun i j p q hi hj hp hq => ?_, fun hall => hrest⟩
    · rcases running_update hrun hi with ⟨_, hn⟩ | ⟨_, hi⟩
      · rw [hnext, Option.some.injEq] at hn
        exact ⟨hlock, hn ▸ hstand hrest⟩
      · rw [h.free hfree hi] at hp
        cases hp
    · rcases running_update hrun hi with ⟨rfl, _⟩ | ⟨_, hi⟩
      · rcases running_update hrun hj with ⟨rfl, _⟩ | ⟨_, hj⟩
        · rfl
        · rw [h.free hfree hj] at hq
          cases hq
      · rw [h.free hfree hi] at hp
        cases hp

/-- A step of the thread that holds the lock. -/
theorem Inv.inside {m : Move} {p : Point} (h : Inv s)
    (hrun : s'.running = Function.update s.running th m.next) (hlock : s'.task = m.task)
    (hth : s.running th = some p) (hp : p.holds = true) (hfol : Follows s s' m) : Inv s' := by
  have hothers : ∀ i q, i ≠ th → s.running i = some q → q.holds = false := by
    intro i q hith hi
    by_contra hq
    exact hith (h.alone i th q p hi hth (eq_true_of_ne_false hq) hp)
  cases hfol with
  | @keeps p' hnext hp' hkept hstand =>
    refine ⟨fun i q hi hq => ?_, fun i j q q' hi hj hq hq' => ?_, fun hall => ?_⟩
    · rcases running_update hrun hi with ⟨_, hn⟩ | ⟨hith, hi⟩
      · rw [hnext, Option.some.injEq] at hn
        rw [hlock, hkept]
        exact ⟨(h.holder th p hth hp).1, hn ▸ hstand⟩
      · rw [hothers i q hith hi] at hq
        cases hq
    · rcases running_update hrun hi with ⟨rfl, _⟩ | ⟨hith, hi⟩
      · rcases running_update hrun hj with ⟨rfl, _⟩ | ⟨hjth, hj⟩
        · rfl
        · rw [hothers j q' hjth hj] at hq'
          cases hq'
      · rw [hothers i q hith hi] at hq
        cases hq
    · have hno := hall th p' (by rw [hrun, Function.update_self, hnext])
      rw [hno] at hp'
      cases hp'
  | releases hnext _ hrest =>
    have hnone : ∀ i q, s'.running i = some q → q.holds = false := by
      intro i q hi
      rcases running_update hrun hi with ⟨_, hn⟩ | ⟨hith, hi⟩
      · exact hnext q hn
      · exact hothers i q hith hi
    refine ⟨fun i q hi hq => ?_, fun i j q q' hi hj hq hq' => ?_, fun _ => hrest⟩
    · rw [hnone i q hi] at hq
      cases hq
    · rw [hnone i q hi] at hq
      cases hq

end inv

/-- What starts on an idle thread does not hold the lock. -/
theorem inv_starts {s : TaskRun} {th : Nat} {p : Point} (h : Inv s) (hidle : s.running th = none)
    (hp : p.holds = false) : Inv { s with running := Function.update s.running th (some p) } := by
  refine h.outside rfl (fun q hq => ?_) ⟨rfl, rfl, rfl, rfl, rfl⟩
    (.stays (fun q hq => by cases hq; exact hp) rfl)
  rw [hidle] at hq
  cases hq

theorem inv_step {s t : TaskRun} {a : Action} (h : Inv s) (hok : NotPendingWord s a)
    (hs : step s a = some t) : Inv t := by
  cases a with
  | poll th | cancel th =>
    simp only [step, Option.ite_none_right_eq_some, Option.some.injEq] at hs
    obtain ⟨hidle, rfl⟩ := hs
    exact inv_starts h hidle rfl
  | turn th r =>
    simp only [step, Option.ite_none_left_eq_some, Option.map_eq_some_iff] at hs
    obtain ⟨_, p, hrun, rfl⟩ := hs
    cases hp : p.holds with
    | false =>
      refine h.outside rfl (fun q hq => ?_) (outside_same th r hp) (outside_follows th r hp)
      rw [hrun, Option.some.injEq] at hq
      exact hq ▸ hp
    | true =>
      have hstand := (h.holder th p hrun hp).2
      exact h.inside rfl rfl hrun hp (standing_follows th r hp hstand fun e => hok (e ▸ hrun))

theorem inv_initial {s : TaskRun} (h : Initial s) : Inv s := by
  have hopen : Open s [] := by
    obtain ⟨isFuture, htask⟩ := h.task
    obtain ⟨resultIsPtr, hctl⟩ := h.ctl
    refine ⟨by rw [htask]; rfl, ?_, h.published, h.inputRemovals, ?_⟩
    · rw [hctl]
      exact ⟨rfl, rfl, rfl⟩
    · unfold TaskRun.outcomes
      rw [h.results]
      rfl
  refine ⟨fun th p hrun => ?_, fun th _ p _ hrun => ?_, fun _ => Or.inl hopen⟩
  · rw [h.running] at hrun
    cases hrun
  · rw [h.running] at hrun
    cases hrun

/-! ## The law -/

/-- What the holder's point, or the rest, says about the whole completion; `ending` is what the
holder is about to publish. -/
structure Tells (s : TaskRun) (ending shown : Option Ending) (n : Nat) : Prop where
  published : s.published = shown.toList
  shows : Shows s.ctl shown
  removals : s.inputRemovals = n
  once : n ≤ 1
  own : ∀ e, shown = some e → s.outcomes = produced e
  kept : ∀ e ∈ s.outcomes, shown = some e ∨ ending = some e
  finished : s.task.done = true → ending = none → shown.isSome = true ∧ n = 1

section tells

variable {s : TaskRun} {e : Ending} {n : Nat}

theorem mem_produced {e e' : Ending} (h : e' ∈ produced e) : some e = some e' := by
  cases e with
  | cancelled => cases h
  | value | panic => exact congrArg some (List.mem_singleton.mp h).symm

theorem Tells.ended (h : At s true (some e) n (produced e)) (hn : n ≤ 1) {ending : Option Ending}
    (hover : ending = none → n = 1) : Tells s ending (some e) n := by
  refine ⟨h.published, h.shows, h.removals, hn, fun e' he => ?_, fun e' he => ?_, fun _ hnone =>
    ⟨rfl, hover hnone⟩⟩
  · cases he
    exact h.outcomes
  · rw [h.outcomes] at he
    exact Or.inl (mem_produced he)

theorem Tells.unpublished {d : Bool} {ending : Option Ending} {o : List Ending}
    (h : At s d none n o) (hn : n ≤ 1) (hkept : ∀ e' ∈ o, ending = some e')
    (hover : d = true → ending ≠ none) : Tells s ending none n := by
  refine ⟨h.published, h.shows, h.removals, hn, fun e' he => (by cases he), fun e' he => ?_,
    fun hd hnone => ?_⟩
  · rw [h.outcomes] at he
    exact Or.inr (hkept e' he)
  · rw [h.done] at hd
    exact absurd hnone (hover hd)

theorem Resting.tells (h : Resting s) : ∃ shown n, Tells s none shown n := by
  rcases h with h | ⟨e, h⟩
  · refine ⟨none, 0, .unpublished h (by omega) (fun e he => by cases he) fun hd => by cases hd⟩
  · exact ⟨some e, 1, .ended h (by omega) fun _ => rfl⟩

theorem Standing.tells {p : Point} (hp : p.holds = true) (h : Standing s p) :
    ∃ shown n, Tells s p.ending shown n := by
  have hopen : Open s [] → p.ending = none → ∃ shown n, Tells s p.ending shown n :=
    fun h he => he ▸ Resting.tells (Or.inl h)
  have hrest : Resting s → p.ending = none → ∃ shown n, Tells s p.ending shown n :=
    fun h he => he ▸ h.tells
  cases p with
  | pollStoreQueued | pollStorePolling | pollLoadCancel | pollCancelPolling | pollUser
  | pollLoadCancelPending | pollSwapReschedule => exact hopen h rfl
  | pollLoadDoneLocked | pollReturn | pollUnlock | cancelSwapDone | cancelUnlock =>
    exact hrest h rfl
  | pollLeave outcome =>
    exact ⟨none, 0, .unpublished h (by omega) (fun e he => Option.mem_toList.mp he)
      fun hd => by cases hd⟩
  | pollCancelDone =>
    exact ⟨none, 0, .unpublished h (by omega) (fun e' he => by cases he) fun hd => by cases hd⟩
  | pollStoreDone e =>
    exact ⟨none, 0, .unpublished h (by omega) (fun e' he => mem_produced he)
      fun hd => by cases hd⟩
  | finish stage e back =>
    have hnever : Point.ending (.finish stage e back) ≠ none := by
      intro h
      cases h
    cases stage with
    | unregister =>
      exact ⟨none, 0, .unpublished h (by omega) (fun e' he => mem_produced he) fun _ => hnever⟩
    | removeRoot =>
      cases e with
      | cancelled =>
        exact ⟨none, 0, .unpublished h (by omega) (fun e' he => by cases he) fun _ => hnever⟩
      | value | panic =>
        exact ⟨_, 0, .ended h (by omega) fun hnone => absurd hnone hnever⟩
    | publish =>
      cases e with
      | cancelled =>
        exact ⟨none, 1, .unpublished h (by omega) (fun e' he => by cases he) fun _ => hnever⟩
      | value | panic =>
        exact ⟨none, 0, .unpublished h (by omega) (fun e' he => mem_produced he) fun _ => hnever⟩
  | _ => cases hp

end tells

/-- In every state some thread, or none, is about to publish an ending, and the rest of the
completion agrees with it. -/
theorem Inv.tells {s : TaskRun} (h : Inv s) : ∃ ending shown n, Tells s ending shown n ∧
    ∀ e, ending = some e → ∃ th p, s.running th = some p ∧ p.ending = some e := by
  by_cases hheld : ∃ th p, s.running th = some p ∧ p.holds = true
  · obtain ⟨th, p, hrun, hp⟩ := hheld
    obtain ⟨shown, n, ht⟩ := (h.holder th p hrun hp).2.tells hp
    exact ⟨p.ending, shown, n, ht, fun e he => ⟨th, p, hrun, he⟩⟩
  · have hrest : Resting s := h.unheld fun th p hrun =>
      eq_false_of_ne_true fun hp => hheld ⟨th, p, hrun, hp⟩
    obtain ⟨shown, n, ht⟩ := hrest.tells
    exact ⟨none, shown, n, ht, fun e he => by cases he⟩

theorem mem_outcomes {s : TaskRun} {e : Ending} :
    e ∈ s.outcomes ↔ ∃ r ∈ s.results, r.ending = some e := List.mem_filterMap

theorem Inv.completesOnce {s : TaskRun} (h : Inv s) : CompletesOnce s := by
  obtain ⟨ending, shown, n, ht, hending⟩ := h.tells
  have hmem : ∀ e ∈ s.published, shown = some e := by
    intro e he
    rw [ht.published] at he
    exact Option.mem_toList.mp he
  refine ⟨?_, fun e he => ?_, fun e he => ?_, fun r hr e he => ?_, fun hd hquiet => ?_, ?_,
    fun hd th hrun => ?_⟩
  · rw [ht.published]
    cases shown <;> simp
  · have hown := ht.own e (hmem e he)
    cases e with
    | cancelled => exact Or.inl rfl
    | value | panic => exact Or.inr (mem_outcomes.mp (hown ▸ List.mem_singleton_self _))
  · exact hmem e he ▸ ht.shows
  · rcases ht.kept e (mem_outcomes.mpr ⟨r, hr, he⟩) with hshown | hleft
    · refine Or.inl ?_
      rw [ht.published, hshown]
      rfl
    · exact Or.inr (hending e hleft)
  · have hnone : ending = none := by
      cases ending with
      | none => rfl
      | some e =>
        obtain ⟨th, p, hrun, hp⟩ := hending e rfl
        rw [hquiet th p hrun] at hp
        cases hp
    obtain ⟨hsome, hn⟩ := ht.finished hd hnone
    obtain ⟨e, rfl⟩ := Option.isSome_iff_exists.mp hsome
    rw [ht.published, ht.removals, hn]
    exact ⟨rfl, rfl⟩
  · rw [ht.removals]
    exact ht.once
  · have hopen : Open s [] := (h.holder th .pollUser hrun rfl).2
    rw [hopen.done] at hd
    cases hd

/-- No operation takes back that the task is done. -/
theorem move_done {ctlDone : Bool} {r : BodyResult} {t : Task} (p : Point) (h : t.done = true) :
    (move ctlDone r t p).task.done = true := by
  cases p with
  | finish stage e back => cases stage <;> cases e <;> exact h
  | pollLeave outcome =>
    cases outcome with
    | ok v =>
      simp only [move, leaveMove]
      split <;> exact h
    | error => exact h
  | pollCancelDone | pollStoreDone | cancelSwapDone => rfl
  | pollLoadDone | pollTryLock | pollLoadDoneLocked | pollLoadCancel | pollLoadCancelPending
  | pollSwapLast | cancelLoadCtlDone =>
    simp only [move]
    split <;> exact h
  | pollLoadDoneLast | cancelTryLock =>
    simp only [move]
    split
    · first | exact h | (split <;> exact h)
    · first | exact h | (split <;> exact h)
  | _ => exact h

theorem apply_ctl_done {s : TaskRun} (e : Effect) (h : s.ctl.done = true) :
    (s.apply e).ctl.done = true := by
  cases e with
  | publish e => exact threads.publish_done s.ctl s.roots e
  | none | result | removeRoot => exact h

theorem done_kept {s t : TaskRun} {a : Action} (hs : step s a = some t) :
    (s.task.done = true → t.task.done = true) ∧ (s.ctl.done = true → t.ctl.done = true) := by
  cases a with
  | poll th | cancel th =>
    simp only [step, Option.ite_none_right_eq_some, Option.some.injEq] at hs
    obtain ⟨_, rfl⟩ := hs
    exact ⟨id, id⟩
  | turn th r =>
    simp only [step, Option.ite_none_left_eq_some, Option.map_eq_some_iff] at hs
    obtain ⟨_, p, _, rfl⟩ := hs
    exact ⟨move_done p, apply_ctl_done _⟩

/-- Only the body adds a result. -/
theorem move_result {ctlDone : Bool} {r : BodyResult} {t : Task} {p : Point}
    (h : ∃ r', (move ctlDone r t p).effect = .result r') : p = .pollUser := by
  obtain ⟨r', h⟩ := h
  cases p with
  | pollUser => rfl
  | finish stage e back => cases stage <;> cases e <;> cases h
  | pollLeave outcome =>
    cases outcome with
    | ok v =>
      simp only [move, leaveMove] at h
      split at h <;> cases h
    | error => cases h
  | pollLoadDoneLast | cancelTryLock =>
    simp only [move] at h
    split at h
    · first | cases h | (split at h <;> cases h)
    · first | cases h | (split at h <;> cases h)
  | pollLoadDone | pollTryLock | pollLoadDoneLocked | pollLoadCancel | pollLoadCancelPending
  | pollSwapLast | cancelLoadCtlDone =>
    simp only [move] at h
    split at h <;> cases h
  | _ => cases h

theorem results_kept {s t : TaskRun} {a : Action} (hno : ∀ th, s.running th ≠ some .pollUser)
    (hs : step s a = some t) : t.results = s.results := by
  cases a with
  | poll th | cancel th =>
    simp only [step, Option.ite_none_right_eq_some, Option.some.injEq] at hs
    obtain ⟨_, rfl⟩ := hs
    rfl
  | turn th r =>
    simp only [step, Option.ite_none_left_eq_some, Option.map_eq_some_iff] at hs
    obtain ⟨_, p, hrun, rfl⟩ := hs
    unfold TaskRun.after
    cases he : (s.moveAt r p).effect with
    | none | publish | removeRoot => rfl
    | result r' => exact absurd (move_result ⟨r', he⟩ ▸ hrun) (hno th)

/-- While no body gives the word that stands for `Pending` as its value, the task completes once
and with what its body gave; `done` never reverts, and no body runs once the task is done. -/
theorem a_task_completes_once_while_no_value_is_the_pending_word {s : TaskRun}
    (hs : Reaches step Initial NotPendingWord s) :
    CompletesOnce s ∧ ∀ a t, step s a = some t →
      (s.task.done = true → t.task.done = true ∧ t.results = s.results) ∧
      (s.ctl.done = true → t.ctl.done = true) := by
  have hinv : Inv s :=
    hs.invariant (fun _ h0 => inv_initial h0) fun _ _ _ h hok hstep => inv_step h hok hstep
  have hlaw : CompletesOnce s := hinv.completesOnce
  refine ⟨hlaw, fun a t hstep => ⟨fun hd => ?_, (done_kept hstep).2⟩⟩
  exact ⟨(done_kept hstep).1 hd, results_kept (hlaw.no_body hd) hstep⟩

/-- A future that is pending is polled again; a cancellation comes while its body runs, and the
body panics. -/
def pendingThenPanic : List Action :=
  [Action.poll 0] ++ List.replicate 13 (Action.turn 0 .pending) ++ [Action.poll 1] ++
    List.replicate 6 (Action.turn 1 .pending) ++ [Action.cancel 2] ++
    List.replicate 4 (Action.turn 2 .pending) ++
    List.replicate 8 (Action.turn 1 (.panicked 64))

/-- The poll of a closure that gives the least word. -/
def leastWord : List Action :=
  [Action.poll 0] ++ List.replicate 13 (Action.turn 0 (.ready taskPending))

/-- The same with a cancellation while the closure runs. -/
def cancelledLeastWord : List Action :=
  [Action.poll 0] ++ List.replicate 6 (Action.turn 0 (.ready taskPending)) ++ [Action.cancel 2] ++
    List.replicate 3 (Action.turn 2 (.ready 0)) ++
    List.replicate 9 (Action.turn 0 (.ready taskPending))

/-- What the body is to give in a step. -/
def Action.result : Action → Option BodyResult
  | .turn _ r => some r
  | _ => none

theorem notPendingWord_of_result {a : Action} (h : a.result ≠ some (.ready taskPending))
    (s : TaskRun) : NotPendingWord s a := by
  cases a with
  | poll | cancel => trivial
  | turn th r =>
    intro _ hr
    exact h (congrArg some hr)

theorem a_task_completes_once_in_a_run :
    ∃ s, run step (newTask true true 8) pendingThenPanic = some s ∧
      s.published = [.panic 64] ∧ s.task.done = true ∧ CompletesOnce s := by
  have hok : ∀ a ∈ pendingThenPanic, ∀ s, NotPendingWord s a := by
    have hall : ∀ a ∈ pendingThenPanic, a.result ≠ some (.ready taskPending) := by decide
    exact fun a ha s => notPendingWord_of_result (hall a ha) s
  refine ⟨_, rfl, rfl, rfl, ?_⟩
  exact (a_task_completes_once_while_no_value_is_the_pending_word
    (.of_run_ok (.start (newTask_initial true true 8)) hok rfl)).1

/-- A run leaves alone each thread that takes no step in it. -/
theorem run_running {s t : TaskRun} {ls : List Action} {th : Nat}
    (h : run step s ls = some t) (hne : ∀ a ∈ ls, a.thread ≠ th) :
    t.running th = s.running th := by
  induction ls generalizing s with
  | nil => cases h; rfl
  | cons a ls ih =>
    rw [run_cons, Option.bind_eq_some_iff] at h
    obtain ⟨u, hu, hrest⟩ := h
    have hth : th ≠ a.thread := fun e => hne a List.mem_cons_self e.symm
    rw [ih hrest fun b hb => hne b (List.mem_cons_of_mem a hb)]
    cases a with
    | poll | cancel =>
      simp only [step, Option.ite_none_right_eq_some, Option.some.injEq] at hu
      obtain ⟨_, rfl⟩ := hu
      exact Function.update_of_ne hth _ _
    | turn th' r =>
      simp only [step, Option.ite_none_left_eq_some, Option.map_eq_some_iff] at hu
      obtain ⟨_, p, _, rfl⟩ := hu
      exact Function.update_of_ne hth _ _

/-- The threads of a run are idle after it when each that took a step is. -/
theorem idle_after {s t : TaskRun} {ls : List Action} (h : run step s ls = some t)
    (hidle : ∀ th, s.running th = none) (hls : ∀ a ∈ ls, t.running a.thread = none) (th : Nat) :
    t.running th = none := by
  by_cases hth : ∃ a ∈ ls, a.thread = th
  · obtain ⟨a, ha, rfl⟩ := hth
    exact hls a ha
  · rw [run_running h fun a ha e => hth ⟨a, ha, e⟩]
    exact hidle th

/-- A value that nobody publishes, or is about to, is lost. -/
theorem not_completesOnce {s : TaskRun} {value : Int64} (hidle : ∀ th, s.running th = none)
    (hr : .ready value ∈ s.results) (hp : s.published ≠ [.value value]) : ¬ CompletesOnce s := by
  intro h
  rcases h.not_lost _ hr _ rfl with hpub | ⟨th, p, hrun, _⟩
  · exact hp hpub
  · rw [hidle] at hrun
    cases hrun

/-- A closure that gives the least word has its value taken for `Pending`: the poll ends, no
thread is at work, and nobody publishes the value. When the task was cancelled meanwhile, the
cancellation is published in its place. -/
theorem the_least_word_is_taken_for_pending :
    (∃ s, run step (newTask false false 8) leastWord = some s ∧ s.task.done = false ∧
      s.published = [] ∧ ¬ CompletesOnce s) ∧
    ∃ s, run step (newTask false false 8) cancelledLeastWord = some s ∧ s.task.done = true ∧
      s.published = [.cancelled] ∧ ¬ CompletesOnce s := by
  constructor
  · refine ⟨_, rfl, rfl, rfl, ?_⟩
    apply not_completesOnce
      (@idle_after (newTask false false 8) _ leastWord rfl (fun _ => rfl) (by decide))
    · exact List.mem_singleton_self _
    · decide
  · refine ⟨_, rfl, rfl, rfl, ?_⟩
    apply not_completesOnce
      (@idle_after (newTask false false 8) _ cancelledLeastWord rfl (fun _ => rfl) (by decide))
    · exact List.mem_singleton_self _
    · decide

end runtime.tasks
