-- The pins of a handoff balance (`threads.rs`): the result or the panic message of a worker is
-- unpinned once, unless a spawn future is the first to find the panic, or a join finds a panic
-- that was published after the detach.
import Mathlib.Data.List.Count
import OtterFusion.Base.Runs
import OtterFusion.Runtime.ResultHandoff

open base.runs runtime.gc runtime.threads

namespace runtime.joins

/-! ## What the law says -/

/-- The pins of the worker balance: none is removed that was not made for it, none is removed
before somebody consumes the result or detaches the handle, and once that is done and no poll is
under way each is removed. -/
structure PinsBalance (s : Handoff) : Prop where
  own : ∀ v, s.unpinned.count v ≤ s.pinned.count v
  table : ∀ v, v ≠ 0 → s.roots v + s.unpinned.count v = s.others v + s.pinned.count v
  kept : s.ctl.taken = false → s.ctl.detached = false → s.unpinned = []
  released : s.worker = .ended → s.ctl.taken = true ∨ s.ctl.detached = true →
    (∀ th kind seen, s.joiners th ≠ .ready kind seen) → s.unpinned = s.pinned

/-! ## The condition on a step -/

/-- The first poll that finds a panic is of a `join`, when the handle was not detached before
the panic was published, and of a spawn future, when it was. -/
def FirstUnpins (s : Handoff) : Action → Prop
  | .poll thread _ => s.ctl.done = true → s.ctl.taken = false → s.ctl.panicked = true →
      ∀ kind, s.joiners thread = .polling kind → (kind = .join ↔ s.ctl.detached = false)
  | _ => True

/-! ## The invariant -/

/-- The words that a record hands over. -/
def handedOver (g : ThreadInner) : List Nat :=
  if g.panicked then [g.message] else if g.resultPinned then [address g.result] else []

/-- A record without an outcome. -/
structure Blank (g : ThreadInner) : Prop where
  done : g.done = false
  taken : g.taken = false
  panicked : g.panicked = false
  cancelled : g.cancelled = false
  resultPinned : g.resultPinned = false

/-- What is pinned and unpinned so far, by where the worker is. -/
def Progress (s : Handoff) : Worker → Prop
  | .running => Blank s.ctl ∧ s.pinned = [] ∧ s.unpinned = []
  | .panicking message =>
    Blank s.ctl ∧ message ≠ 0 ∧ s.pinned = [message] ∧ s.unpinned = []
  | .ended => s.ctl.done = true ∧ s.pinned = handedOver s.ctl ∧
      (s.ctl.taken = false → s.unpinned = if s.ctl.detached then s.pinned else [])

/-- The outcomes exclude each other, and a result is pinned for a handle that is not detached. -/
structure Outcome (g : ThreadInner) : Prop where
  panicked : g.panicked = true → g.resultPinned = false ∧ g.cancelled = false
  cancelled : g.cancelled = true → g.resultPinned = false
  detached : g.taken = false → g.detached = true → g.resultPinned = false

/-- The polls that have found the worker done, of which one at most was the first. -/
structure Polls (s : Handoff) : Prop where
  seen : ∀ th kind seen, s.joiners th = .ready kind seen → s.ctl.taken = true ∧
    { seen with wasTaken := true } = seenOf s.ctl
  first : ∀ th th' kind kind' seen seen', s.joiners th = .ready kind seen →
    s.joiners th' = .ready kind' seen' → seen.wasTaken = false → seen'.wasTaken = false → th = th'
  owed : ∀ th kind seen, s.joiners th = .ready kind seen → seen.wasTaken = false →
    s.pinned = s.unpinned ++ (unpinsOf kind seen).toList
  settled : s.ctl.taken = true →
    (∀ th kind seen, s.joiners th = .ready kind seen → seen.wasTaken = true) →
    s.unpinned = s.pinned

/-- The handle is detached once. -/
structure Detaches (s : Handoff) : Prop where
  registered : s.registered = true →
    s.ctl.detached = false ∧ ∀ th, s.joiners th ≠ .detaching
  detaching : ∀ th, s.joiners th = .detaching →
    s.ctl.detached = false ∧ ∀ th', s.joiners th' = .detaching → th' = th

structure Inv (s : Handoff) : Prop where
  progress : Progress s s.worker
  outcome : Outcome s.ctl
  polls : Polls s
  detaches : Detaches s
  table : ∀ v, v ≠ 0 → s.roots v + s.unpinned.count v = s.others v + s.pinned.count v

/-! ## What the operations leave alone -/

section frame

variable (s : Handoff) (o : Option Nat) (th : Nat) (j : Joiner)

@[simp] theorem unpin_ctl : (s.unpin o).ctl = s.ctl := by cases o <;> rfl

@[simp] theorem unpin_worker : (s.unpin o).worker = s.worker := by cases o <;> rfl

@[simp] theorem unpin_registered : (s.unpin o).registered = s.registered := by cases o <;> rfl

@[simp] theorem unpin_joiners : (s.unpin o).joiners = s.joiners := by cases o <;> rfl

@[simp] theorem unpin_others : (s.unpin o).others = s.others := by cases o <;> rfl

@[simp] theorem unpin_pinned : (s.unpin o).pinned = s.pinned := by cases o <;> rfl

@[simp] theorem unpin_unpinned : (s.unpin o).unpinned = s.unpinned ++ o.toList := by
  cases o <;> simp [Handoff.unpin]

@[simp] theorem joiner_ctl : (s.joiner th j).ctl = s.ctl := rfl

@[simp] theorem joiner_worker : (s.joiner th j).worker = s.worker := rfl

@[simp] theorem joiner_registered : (s.joiner th j).registered = s.registered := rfl

@[simp] theorem joiner_pinned : (s.joiner th j).pinned = s.pinned := rfl

@[simp] theorem joiner_unpinned : (s.joiner th j).unpinned = s.unpinned := rfl

theorem joiner_joiners (i : Nat) :
    (s.joiner th j).joiners i = if i = th then j else s.joiners i := by
  by_cases h : i = th
  · subst h
    simp [Handoff.joiner]
  · simp [Handoff.joiner, h]

end frame

/-- The table of extra roots, once it is in step with the history, stays so when a word is
unpinned that is pinned still. -/
theorem table_unpin {s : Handoff} {o : Option Nat} (hpin : s.pinned = s.unpinned ++ o.toList)
    (h : ∀ v, v ≠ 0 → s.roots v + s.unpinned.count v = s.others v + s.pinned.count v) (v : Nat)
    (hv : v ≠ 0) : (s.unpin o).roots v + (s.unpin o).unpinned.count v =
      (s.unpin o).others v + (s.unpin o).pinned.count v := by
  have hs := h v hv
  rw [unpin_unpinned, unpin_others, unpin_pinned, List.count_append]
  rw [hpin, List.count_append] at hs ⊢
  cases o with
  | none => simpa [Handoff.unpin] using hs
  | some p =>
    have hroots : (s.unpin (some p)).roots v = if p ≠ 0 ∧ v = p then s.roots v - 1 else s.roots v :=
      removeExtraRoot_apply s.roots p v
    rw [hroots]
    simp only [Option.toList_some, List.count_singleton] at hs ⊢
    by_cases hp : p = v
    · subst hp
      simp only [beq_self_eq_true, if_true, ne_eq, hv, not_false_eq_true, and_self] at hs ⊢
      omega
    · have hne : (p == v) = false := beq_false_of_ne hp
      rw [if_neg fun hc => hp hc.2.symm]
      simp only [hne, Bool.false_eq_true, if_false] at hs ⊢
      omega

/-- A pin that the table and the history both gain. -/
theorem table_pin {roots others : Nat → Nat} {pinned unpinned : List Nat} {p : Nat} (hp : p ≠ 0)
    (h : ∀ v, v ≠ 0 → roots v + unpinned.count v = others v + pinned.count v) (v : Nat)
    (hv : v ≠ 0) : addExtraRoot roots p v + unpinned.count v =
      others v + (pinned ++ [p]).count v := by
  have hs := h v hv
  rw [addExtraRoot_apply, List.count_append, List.count_singleton]
  by_cases hpv : p = v
  · subst hpv
    simp only [ne_eq, hp, not_false_eq_true, and_self, if_true, beq_self_eq_true]
    omega
  · have hne : (p == v) = false := beq_false_of_ne hpv
    rw [if_neg fun hc => hpv hc.2.symm, hne]
    simpa using hs

/-! ## The publications -/

/-- A record that is done is that of a worker that has published. -/
theorem Inv.worker_ended {s : Handoff} (h : Inv s) (hd : s.ctl.done = true) :
    s.worker = .ended := by
  have hp := h.progress
  cases hw : s.worker with
  | ended => rfl
  | running | panicking =>
    rw [hw] at hp
    rw [hp.1.done] at hd
    cases hd

theorem Inv.ended {s : Handoff} (h : Inv s) (hd : s.ctl.done = true) : Progress s .ended :=
  h.worker_ended hd ▸ h.progress

/-- Before the worker is done, its record has no outcome. -/
theorem Inv.blank {s : Handoff} (h : Inv s) (hd : s.ctl.done = false) : Blank s.ctl := by
  have hp := h.progress
  cases hw : s.worker with
  | running | panicking =>
    rw [hw] at hp
    exact hp.1
  | ended =>
    rw [hw] at hp
    rw [hp.1] at hd
    cases hd

/-- While nobody has taken the result, no poll has found the worker done. -/
theorem Inv.none_ready {s : Handoff} (h : Inv s) (ht : s.ctl.taken = false) (th : Nat)
    (kind : Kind) (seen : Seen) : s.joiners th ≠ .ready kind seen := by
  intro hj
  have htaken := (h.polls.seen th kind seen hj).1
  rw [ht] at htaken
  cases htaken

theorem Polls.of_untaken {s : Handoff} (hnone : ∀ th kind seen, s.joiners th ≠ .ready kind seen)
    (hsettled : s.ctl.taken = true → s.unpinned = s.pinned) : Polls s :=
  ⟨fun th kind seen hj => absurd hj (hnone th kind seen),
    fun th _ kind _ seen _ hj => absurd hj (hnone th kind seen),
    fun th kind seen hj => absurd hj (hnone th kind seen), fun ht _ => hsettled ht⟩

theorem address_ne_zero {result : Int64} (h : result ≠ 0) : address result ≠ 0 := by
  intro h0
  have hword : result.toUInt64 = 0 := UInt64.toNat_inj.mp h0
  exact h (congrArg Int64.ofUInt64 hword)

/-- The pin of a word is one that the history has, when it was pinned as it was published. -/
theorem table_publish {s : Handoff} {e : Ending} (hun : s.unpinned = [])
    (hpin : ∀ m, e = .panic m → s.pinned = [m])
    (h : ∀ v, v ≠ 0 → s.roots v + s.unpinned.count v = s.others v + s.pinned.count v) (v : Nat)
    (hv : v ≠ 0) : (s.publish e).roots v + (s.publish e).unpinned.count v =
      (s.publish e).others v + (s.publish e).pinned.count v := by
  cases e with
  | cancelled =>
    have hroots : (s.publish .cancelled).roots = s.roots := by
      simp only [Handoff.publish, threads.publish, publishCancelled]
      split <;> rfl
    have hs := h v hv
    rw [hroots]
    simpa [Handoff.publish, publishPins, publishUnpins] using hs
  | value result =>
    cases hp : s.ctl.pins result with
    | false =>
      have hs := h v hv
      simpa [Handoff.publish, threads.publish, publishDone, publishPins, publishUnpins, hp] using hs
    | true =>
      have hne : result ≠ 0 := by
        rintro rfl
        simp [ThreadInner.pins] at hp
      have hs := table_pin (address_ne_zero hne) h v hv
      simpa [Handoff.publish, threads.publish, publishDone, publishPins, publishUnpins, hp] using hs
  | panic m =>
    cases hd : s.ctl.detached with
    | false =>
      have hs := h v hv
      simpa [Handoff.publish, threads.publish, publishPanic, publishPins, publishUnpins, hd]
        using hs
    | true =>
      have hs := @table_unpin s (some m) (by rw [hun, hpin m rfl]; rfl) h v hv
      simpa [Handoff.publish, threads.publish, publishPanic, publishPins, publishUnpins, hd,
        Handoff.unpin] using hs

/-- The record after a publication that found no outcome. -/
theorem blank_publish {g : ThreadInner} (h : Blank g) (roots : ExtraRoots) (e : Ending) :
    Outcome (threads.publish g roots e).ctl ∧
    handedOver (threads.publish g roots e).ctl = match e with
      | .value result => if g.pins result then [address result] else []
      | .panic message => [message]
      | .cancelled => [] := by
  cases e with
  | value result =>
    refine ⟨⟨fun hp => ?_, fun hc => ?_, fun _ hd => ?_⟩, ?_⟩
    · exact absurd (hp.symm.trans h.panicked) Bool.noConfusion
    · exact absurd (hc.symm.trans h.cancelled) Bool.noConfusion
    · have hdet : g.detached = true := hd
      simp [threads.publish, publishDone, h.resultPinned, ThreadInner.pins, hdet]
    · simp [threads.publish, publishDone, handedOver, h.panicked, h.resultPinned]
  | panic message =>
    exact ⟨⟨fun _ => ⟨h.resultPinned, h.cancelled⟩, fun _ => h.resultPinned,
      fun _ _ => h.resultPinned⟩, by simp [threads.publish, publishPanic, handedOver]⟩
  | cancelled =>
    have hctl : (threads.publish g roots .cancelled).ctl =
        { g with cancelled := true, done := true, waiters := [] } := by
      simp [threads.publish, publishCancelled, h.done]
    rw [hctl]
    refine ⟨⟨fun hp => ?_, fun _ => h.resultPinned, fun _ _ => h.resultPinned⟩, ?_⟩
    · exact absurd (hp.symm.trans h.panicked) Bool.noConfusion
    · simp [handedOver, h.panicked, h.resultPinned]

/-- A publication takes a worker without an outcome to one whose pin is the handoff. -/
theorem inv_publish {s : Handoff} {e : Ending} (h : Inv s) (hblank : Blank s.ctl)
    (hun : s.unpinned = []) (hpin : s.pinned = match e with
      | .panic m => [m]
      | _ => []) : Inv (s.publish e) := by
  have htaken : (s.publish e).ctl.taken = false :=
    (threads.publish_taken s.ctl s.roots e).trans hblank.taken
  have hdetached : (s.publish e).ctl.detached = s.ctl.detached :=
    threads.publish_detached s.ctl s.roots e
  obtain ⟨houtcome, hhands⟩ := blank_publish hblank s.roots e
  refine ⟨⟨threads.publish_done s.ctl s.roots e, ?_, fun _ => ?_⟩, houtcome,
    .of_untaken (h.none_ready hblank.taken) fun ht => (by rw [htaken] at ht; cases ht),
    ⟨fun hr => ?_, fun th hj => ?_⟩, table_publish hun (fun m he => by rw [hpin, he]) h.table⟩
  · have hnew : (s.publish e).pinned = s.pinned ++ (publishPins s.ctl e).toList := rfl
    refine hnew.trans (Eq.trans ?_ hhands.symm)
    cases e with
    | value result =>
      rw [hpin]
      simp only [publishPins, List.nil_append]
      split <;> rfl
    | panic | cancelled => rw [hpin]; rfl
  · rw [hdetached]
    cases hd : s.ctl.detached with
    | false => cases e <;> simp [Handoff.publish, publishUnpins, hun, hd]
    | true =>
      cases e with
      | value => simp [Handoff.publish, publishPins, publishUnpins, ThreadInner.pins, hun, hpin, hd]
      | panic => simp [Handoff.publish, publishPins, publishUnpins, hun, hpin, hd]
      | cancelled => simp [Handoff.publish, publishPins, publishUnpins, hun, hpin]
  · rw [hdetached]
    exact h.detaches.registered hr
  · rw [hdetached]
    exact h.detaches.detaching th hj

/-! ## The polls -/

/-- What a record still owes is what its first consumer is to unpin. -/
theorem owed_first {s : Handoff} {kind : Kind} (h : Inv s) (hd : s.ctl.done = true)
    (ht : s.ctl.taken = false)
    (hok : s.ctl.panicked = true → (kind = .join ↔ s.ctl.detached = false)) :
    s.pinned = s.unpinned ++ (unpinsOf kind (seenOf s.ctl)).toList := by
  obtain ⟨_, hpinned, hunpinned⟩ := h.ended hd
  rw [hunpinned ht, hpinned]
  cases hp : s.ctl.panicked with
  | true =>
    have hc := (h.outcome.panicked hp).2
    cases kind with
    | join =>
      have hdet : s.ctl.detached = false := (hok hp).mp rfl
      simp [hdet, unpinsOf, seenOf, handedOver, hp, hc, ht]
    | spawn =>
      have hdet : s.ctl.detached = true := by
        by_contra hdet
        exact Kind.noConfusion ((hok hp).mpr (eq_false_of_ne_true hdet))
      simp [hdet, unpinsOf, seenOf, handedOver, hp]
  | false =>
    cases hr : s.ctl.resultPinned with
    | false => cases kind <;> simp [unpinsOf, seenOf, handedOver, hp, hr]
    | true =>
      have hc : s.ctl.cancelled = false := by
        by_contra hc
        have hr' := h.outcome.cancelled (eq_true_of_ne_false hc)
        rw [hr] at hr'
        cases hr'
      have hdet : s.ctl.detached = false := by
        by_contra hdet
        have hr' := h.outcome.detached ht (eq_true_of_ne_false hdet)
        rw [hr] at hr'
        cases hr'
      cases kind <;> simp [hdet, unpinsOf, seenOf, handedOver, hp, hr, hc, ht]

/-- A thread that is neither about to detach nor before a ready result changes its place. -/
theorem inv_moves {s : Handoff} {th : Nat} {j : Joiner} {ctl : ThreadInner} (h : Inv s)
    (hold : ∀ kind seen, s.joiners th ≠ .ready kind seen)
    (hready : ∀ kind seen, j ≠ .ready kind seen) (hdet : j ≠ .detaching)
    (hctl : ∃ waiters, ctl = { s.ctl with waiters }) :
    Inv ({ s with ctl }.joiner th j) := by
  obtain ⟨waiters, rfl⟩ := hctl
  have hj : ∀ {i kind seen}, ({ s with ctl := { s.ctl with waiters } }.joiner th j).joiners i =
      .ready kind seen → s.joiners i = .ready kind seen := by
    intro i kind seen hi
    rw [joiner_joiners] at hi
    split at hi
    · exact absurd hi (hready kind seen)
    · exact hi
  have hdj : ∀ {i}, ({ s with ctl := { s.ctl with waiters } }.joiner th j).joiners i =
      .detaching → s.joiners i = .detaching := by
    intro i hi
    rw [joiner_joiners] at hi
    split at hi
    · exact absurd hi hdet
    · exact hi
  refine ⟨?_, ⟨h.outcome.panicked, h.outcome.cancelled, h.outcome.detached⟩,
    ⟨fun i kind seen hi => h.polls.seen i kind seen (hj hi),
      fun i i' kind kind' seen seen' hi hi' =>
        h.polls.first i i' kind kind' seen seen' (hj hi) (hj hi'),
      fun i kind seen hi => h.polls.owed i kind seen (hj hi), fun ht hall => ?_⟩,
    ⟨fun hr => ⟨(h.detaches.registered hr).1, fun i hi => (h.detaches.registered hr).2 i (hdj hi)⟩,
      fun i hi => ⟨(h.detaches.detaching i (hdj hi)).1,
        fun i' hi' => (h.detaches.detaching i (hdj hi)).2 i' (hdj hi')⟩⟩, h.table⟩
  · have hp := h.progress
    cases hw : s.worker with
    | running | panicking =>
      rw [hw] at hp
      simp only [Handoff.joiner]
      exact ⟨⟨hp.1.done, hp.1.taken, hp.1.panicked, hp.1.cancelled, hp.1.resultPinned⟩, hp.2⟩
    | ended =>
      rw [hw] at hp
      exact hp
  · refine h.polls.settled ht fun i kind seen hi => hall i kind seen ?_
    rw [joiner_joiners, if_neg]
    · exact hi
    · rintro rfl
      exact hold kind seen hi

/-- A poll that finds the worker done takes its result, and owes its pin when it is the first. -/
theorem inv_poll {s : Handoff} {th : Nat} {kind : Kind} (h : Inv s) (hd : s.ctl.done = true)
    (hth : s.joiners th = .polling kind)
    (hok : s.ctl.taken = false → s.ctl.panicked = true →
      (kind = .join ↔ s.ctl.detached = false)) :
    Inv ({ s with ctl := takeResult s.ctl }.joiner th (.ready kind (seenOf s.ctl))) := by
  have hended := h.ended hd
  have hj : ∀ {i k seen}, ({ s with ctl := takeResult s.ctl }.joiner th
      (.ready kind (seenOf s.ctl))).joiners i = .ready k seen →
      (i = th ∧ k = kind ∧ seen = seenOf s.ctl) ∨ (i ≠ th ∧ s.joiners i = .ready k seen) := by
    intro i k seen hi
    rw [joiner_joiners] at hi
    split at hi
    · rename_i hith
      cases hi
      exact Or.inl ⟨hith, rfl, rfl⟩
    · rename_i hith
      exact Or.inr ⟨hith, hi⟩
  have hdj : ∀ {i}, ({ s with ctl := takeResult s.ctl }.joiner th
      (.ready kind (seenOf s.ctl))).joiners i = .detaching → s.joiners i = .detaching := by
    intro i hi
    rw [joiner_joiners] at hi
    split at hi
    · cases hi
    · exact hi
  refine ⟨?_, ⟨h.outcome.panicked, h.outcome.cancelled, fun ht => by cases ht⟩,
    ⟨fun i k seen hi => ?_, fun i i' k k' seen seen' hi hi' hf hf' => ?_, fun i k seen hi hf => ?_,
      fun _ hall => ?_⟩,
    ⟨fun hr => ⟨(h.detaches.registered hr).1, fun i hi => (h.detaches.registered hr).2 i (hdj hi)⟩,
      fun i hi => ⟨(h.detaches.detaching i (hdj hi)).1,
        fun i' hi' => (h.detaches.detaching i (hdj hi)).2 i' (hdj hi')⟩⟩, h.table⟩
  · simp only [Handoff.joiner, h.worker_ended hd]
    exact ⟨hd, hended.2.1, fun ht => by cases ht⟩
  · rcases hj hi with ⟨_, _, rfl⟩ | ⟨_, hi⟩
    · exact ⟨rfl, rfl⟩
    · obtain ⟨_, hseen⟩ := h.polls.seen i k seen hi
      have htake : seenOf (takeResult s.ctl) = { seenOf s.ctl with wasTaken := true } := rfl
      exact ⟨rfl, by simp only [Handoff.joiner]; rw [htake, ← hseen]⟩
  · rcases hj hi with ⟨rfl, _, rfl⟩ | ⟨_, hready⟩
    · rcases hj hi' with ⟨rfl, _, _⟩ | ⟨_, hready'⟩
      · rfl
      · exact absurd hready' (h.none_ready hf i' k' seen')
    · rcases hj hi' with ⟨rfl, _, rfl⟩ | ⟨_, hready'⟩
      · exact absurd hready (h.none_ready hf' i k seen)
      · exact h.polls.first i i' k k' seen seen' hready hready' hf hf'
  · rcases hj hi with ⟨rfl, rfl, rfl⟩ | ⟨_, hi⟩
    · exact owed_first h hd hf (hok hf)
    · exact h.polls.owed i k seen hi hf
  · have htaken : s.ctl.taken = true :=
      hall th kind (seenOf s.ctl) (by rw [joiner_joiners, if_pos rfl])
    refine h.polls.settled htaken fun i k seen hi => hall i k seen ?_
    rw [joiner_joiners, if_neg]
    · exact hi
    · rintro rfl
      rw [hth] at hi
      cases hi

/-- A poll that is not the first unpins nothing. -/
theorem unpinsOf_taken {kind : Kind} {seen : Seen} (h : seen.wasTaken = true) :
    unpinsOf kind seen = none := by
  cases kind <;> simp [unpinsOf, h]

theorem inv_finish {s : Handoff} {th : Nat} {kind : Kind} {seen : Seen} (h : Inv s)
    (hth : s.joiners th = .ready kind seen) :
    Inv ((s.unpin (unpinsOf kind seen)).joiner th .idle) := by
  obtain ⟨htaken, hseen⟩ := h.polls.seen th kind seen hth
  have hj : ∀ {i j}, j ≠ .idle → ((s.unpin (unpinsOf kind seen)).joiner th .idle).joiners i = j →
      i ≠ th ∧ s.joiners i = j := by
    intro i j hidle hi
    rw [joiner_joiners] at hi
    split at hi
    · exact absurd hi.symm hidle
    · rename_i hith
      rw [unpin_joiners] at hi
      exact ⟨hith, hi⟩
  have hprogress : Progress ((s.unpin (unpinsOf kind seen)).joiner th .idle) s.worker := by
    have hp := h.progress
    cases hw : s.worker with
    | running | panicking =>
      rw [hw] at hp
      rw [hp.1.taken] at htaken
      cases htaken
    | ended =>
      rw [hw] at hp
      refine ⟨?_, ?_, fun ht => ?_⟩
      · simpa using hp.1
      · simpa using hp.2.1
      · simp [htaken] at ht
  have hdetaches : Detaches ((s.unpin (unpinsOf kind seen)).joiner th .idle) := by
    refine ⟨fun hr => ?_, fun i hi => ?_⟩
    · have hreg := h.detaches.registered (by simpa using hr)
      exact ⟨by simpa using hreg.1, fun i hi =>
        hreg.2 i (hj Joiner.noConfusion hi).2⟩
    · have hdet := h.detaches.detaching i (hj Joiner.noConfusion hi).2
      exact ⟨by simpa using hdet.1, fun i' hi' =>
        hdet.2 i' (hj Joiner.noConfusion hi').2⟩
  cases hf : seen.wasTaken with
  | true =>
    rw [unpinsOf_taken hf] at hj hprogress hdetaches ⊢
    refine ⟨hprogress, h.outcome, ⟨fun i k sn hi => ?_, fun i i' k k' sn sn' hi hi' => ?_,
      fun i k sn hi => ?_, fun ht hall => ?_⟩, hdetaches, h.table⟩
    · exact h.polls.seen i k sn (hj Joiner.noConfusion hi).2
    · exact h.polls.first i i' k k' sn sn' (hj Joiner.noConfusion hi).2
        (hj Joiner.noConfusion hi').2
    · exact h.polls.owed i k sn (hj Joiner.noConfusion hi).2
    · refine h.polls.settled ht fun i k sn hi => ?_
      by_cases hith : i = th
      · rw [hith, hth] at hi
        cases hi
        exact hf
      · exact hall i k sn (by rw [joiner_joiners, if_neg hith]; exact hi)
  | false =>
    have howed := h.polls.owed th kind seen hth hf
    have hothers : ∀ i k sn, i ≠ th → s.joiners i = .ready k sn → sn.wasTaken = true := by
      intro i k sn hith hi
      by_contra hsn
      exact hith (h.polls.first i th k kind sn seen hi hth (eq_false_of_ne_true hsn) hf)
    refine ⟨by simpa using hprogress, by simpa using h.outcome,
      ⟨fun i k sn hi => ?_, fun i i' k k' sn sn' hi hi' hs => ?_, fun i k sn hi hs => ?_,
        fun _ _ => ?_⟩, hdetaches, fun v hv => ?_⟩
    · simpa using h.polls.seen i k sn (hj Joiner.noConfusion hi).2
    · obtain ⟨hith, hi⟩ := hj Joiner.noConfusion hi
      rw [hothers i k sn hith hi] at hs
      cases hs
    · obtain ⟨hith, hi⟩ := hj Joiner.noConfusion hi
      rw [hothers i k sn hith hi] at hs
      cases hs
    · simp [howed]
    · exact table_unpin howed h.table v hv

/-! ## The other steps -/

/-- What was unpinned is the beginning of what was pinned. -/
theorem Inv.due {s : Handoff} (h : Inv s) : ∃ due, s.pinned = s.unpinned ++ due := by
  have hp := h.progress
  cases hw : s.worker with
  | running | panicking =>
    rw [hw] at hp
    obtain ⟨_, hrest⟩ := hp
    first
      | exact ⟨s.pinned, by rw [hrest.2]; rfl⟩
      | exact ⟨s.pinned, by rw [hrest.2.2]; rfl⟩
  | ended =>
    rw [hw] at hp
    obtain ⟨_, _, huntaken⟩ := hp
    cases ht : s.ctl.taken with
    | false =>
      cases hdet : s.ctl.detached with
      | true => exact ⟨[], by rw [huntaken ht, hdet]; simp⟩
      | false => exact ⟨s.pinned, by rw [huntaken ht, hdet]; simp⟩
    | true =>
      by_cases hfirst : ∃ th kind seen, s.joiners th = .ready kind seen ∧ seen.wasTaken = false
      · obtain ⟨th, kind, seen, hj, hf⟩ := hfirst
        exact ⟨_, h.polls.owed th kind seen hj hf⟩
      · refine ⟨[], ?_⟩
        rw [List.append_nil]
        refine (h.polls.settled ht fun th kind seen hj => ?_).symm
        exact eq_true_of_ne_false fun hf => hfirst ⟨th, kind, seen, hj, hf⟩

/-- The boundary pins the message of a panic. -/
theorem inv_panic {s : Handoff} {message : Nat} (h : Inv s) (hw : s.worker = .running)
    (hm : message ≠ 0) : Inv { s with
      worker := .panicking message
      roots := addExtraRoot s.roots message
      pinned := s.pinned ++ [message] } := by
  have hp : Progress s .running := hw ▸ h.progress
  obtain ⟨hblank, hpinned, hunpinned⟩ := hp
  refine ⟨⟨hblank, hm, by rw [hpinned]; rfl, hunpinned⟩, h.outcome,
    .of_untaken (h.none_ready hblank.taken) fun ht => ?_, ⟨h.detaches.registered,
      h.detaches.detaching⟩, table_pin hm h.table⟩
  have hfalse := hblank.taken
  rw [ht] at hfalse
  cases hfalse

/-- A thread takes the record out of the registry, to detach it. -/
theorem inv_detach {s : Handoff} {th : Nat} (h : Inv s) (hth : s.joiners th = .idle)
    (hr : s.registered = true) : Inv ({ s with registered := false }.joiner th .detaching) := by
  obtain ⟨hdet, hno⟩ := h.detaches.registered hr
  have hj : ∀ {i kind seen}, ({ s with registered := false }.joiner th .detaching).joiners i =
      .ready kind seen → s.joiners i = .ready kind seen := by
    intro i kind seen hi
    rw [joiner_joiners] at hi
    split at hi
    · cases hi
    · exact hi
  have hone : ∀ i, ({ s with registered := false }.joiner th .detaching).joiners i = .detaching →
      i = th := by
    intro i hi
    rw [joiner_joiners] at hi
    split at hi
    · assumption
    · exact absurd hi (hno i)
  refine ⟨?_, h.outcome, ⟨fun i kind seen hi => h.polls.seen i kind seen (hj hi),
    fun i i' k k' sn sn' hi hi' => h.polls.first i i' k k' sn sn' (hj hi) (hj hi'),
    fun i kind seen hi => h.polls.owed i kind seen (hj hi), fun ht hall => ?_⟩,
    ⟨fun hr' => (by cases hr'), fun i hi => ⟨hdet, fun i' hi' => ?_⟩⟩, h.table⟩
  · have hp := h.progress
    cases hw : s.worker with
    | running | panicking | ended =>
      rw [hw] at hp
      exact hp
  · refine h.polls.settled ht fun i kind seen hi => hall i kind seen ?_
    rw [joiner_joiners, if_neg]
    · exact hi
    · rintro rfl
      rw [hth] at hi
      cases hi
  · rw [hone i hi, hone i' hi']

/-- A detach of a worker that is done unpins what nobody took. -/
theorem detached_pins {s : Handoff} (h : Inv s) (hd : s.ctl.done = true)
    (ht : s.ctl.taken = false) (hdet : s.ctl.detached = false) :
    s.pinned = s.unpinned ++ (detachUnpins s.ctl).toList := by
  obtain ⟨_, hpinned, hunpinned⟩ := h.ended hd
  rw [hunpinned ht, hdet, hpinned]
  cases hp : s.ctl.panicked with
  | true => simp [handedOver, detachUnpins, hd, ht, hp]
  | false =>
    cases hr : s.ctl.resultPinned with
    | false => simp [handedOver, detachUnpins, hd, ht, hp, hr]
    | true =>
      have hc : s.ctl.cancelled = false := by
        by_contra hc
        have hr' := h.outcome.cancelled (eq_true_of_ne_false hc)
        rw [hr] at hr'
        cases hr'
      simp [handedOver, detachUnpins, hd, ht, hp, hr, hc]

theorem inv_detachLocked {s : Handoff} {th : Nat} (h : Inv s) (hth : s.joiners th = .detaching) :
    Inv ({ s.unpin (detachUnpins s.ctl) with ctl := detachCtl s.ctl }.joiner th .idle) := by
  have hj : ∀ {i j}, j ≠ .idle → ({ s.unpin (detachUnpins s.ctl) with
      ctl := detachCtl s.ctl }.joiner th .idle).joiners i = j → i ≠ th ∧ s.joiners i = j := by
    intro i j hidle hi
    rw [joiner_joiners] at hi
    split at hi
    · exact absurd hi.symm hidle
    · rename_i hith
      exact ⟨hith, by simpa using hi⟩
  obtain ⟨hdet, hone⟩ := h.detaches.detaching th hth
  have hdetaches : Detaches ({ s.unpin (detachUnpins s.ctl) with
      ctl := detachCtl s.ctl }.joiner th .idle) := by
    refine ⟨fun hr => ?_, fun i hi => ?_⟩
    · exact absurd hth ((h.detaches.registered (by simpa using hr)).2 th)
    · obtain ⟨hith, hi⟩ := hj Joiner.noConfusion hi
      exact absurd (hone i hi) hith
  cases hd : s.ctl.done with
  | false =>
    have hblank := h.blank hd
    have hnone : detachUnpins s.ctl = none := by simp [detachUnpins, hd]
    have htaken : (detachCtl s.ctl).taken = false := by simp [detachCtl, hd, hblank.taken]
    rw [hnone] at hj hdetaches ⊢
    refine ⟨?_, ⟨h.outcome.panicked, h.outcome.cancelled, fun _ _ => hblank.resultPinned⟩,
      .of_untaken (fun i k sn hi => h.none_ready hblank.taken i k sn (hj Joiner.noConfusion hi).2)
        fun ht => (by rw [joiner_ctl, htaken] at ht; cases ht), hdetaches, h.table⟩
    have hp := h.progress
    have hblank' : Blank (detachCtl s.ctl) :=
      ⟨hd, htaken, hblank.panicked, hblank.cancelled, hblank.resultPinned⟩
    simp only [joiner_worker, unpin_worker]
    cases hw : s.worker with
    | running | panicking =>
      rw [hw] at hp
      exact ⟨hblank', hp.2⟩
    | ended =>
      rw [hw] at hp
      rw [hp.1] at hd
      cases hd
  | true =>
    have htaken : (detachCtl s.ctl).taken = true := by simp [detachCtl, hd]
    have hended := h.ended hd
    have hprogress : Progress ({ s.unpin (detachUnpins s.ctl) with
        ctl := detachCtl s.ctl }.joiner th .idle) s.worker := by
      rw [h.worker_ended hd]
      exact ⟨hd, by simpa [handedOver, detachCtl] using hended.2.1, fun ht => by
        rw [joiner_ctl, htaken] at ht; cases ht⟩
    have houtcome : Outcome (detachCtl s.ctl) :=
      ⟨h.outcome.panicked, h.outcome.cancelled, fun ht => by rw [htaken] at ht; cases ht⟩
    cases ht : s.ctl.taken with
    | true =>
      have hnone : detachUnpins s.ctl = none := by simp [detachUnpins, ht]
      have hseen : seenOf (detachCtl s.ctl) = seenOf s.ctl := by simp [seenOf, detachCtl, ht]
      rw [hnone] at hj hdetaches hprogress ⊢
      refine ⟨hprogress, houtcome, ⟨fun i k sn hi => ?_, fun i i' k k' sn sn' hi hi' => ?_,
        fun i k sn hi => ?_, fun _ hall => ?_⟩, hdetaches, h.table⟩
      · obtain ⟨_, hs⟩ := h.polls.seen i k sn (hj Joiner.noConfusion hi).2
        exact ⟨htaken, hs.trans hseen.symm⟩
      · exact h.polls.first i i' k k' sn sn' (hj Joiner.noConfusion hi).2
          (hj Joiner.noConfusion hi').2
      · exact h.polls.owed i k sn (hj Joiner.noConfusion hi).2
      · refine h.polls.settled ht fun i k sn hi => hall i k sn ?_
        rw [joiner_joiners, if_neg]
        · exact hi
        · rintro rfl
          rw [hth] at hi
          cases hi
    | false =>
      have hpins := detached_pins h hd ht hdet
      refine ⟨by simpa using hprogress, houtcome,
        .of_untaken (fun i k sn hi => h.none_ready ht i k sn (hj Joiner.noConfusion hi).2)
          fun _ => ?_, hdetaches, fun v hv => table_unpin hpins h.table v hv⟩
      simp [hpins]

/-- The rest of the runtime makes and removes its own pins. -/
theorem inv_other {s : Handoff} {roots others : Nat → Nat} (h : Inv s)
    (htable : ∀ v, v ≠ 0 → roots v + s.unpinned.count v = others v + s.pinned.count v) :
    Inv { s with roots, others } :=
  ⟨h.progress, h.outcome, ⟨h.polls.seen, h.polls.first, h.polls.owed, h.polls.settled⟩,
    ⟨h.detaches.registered, h.detaches.detaching⟩, htable⟩

theorem inv_step {s t : Handoff} {a : Action} (h : Inv s) (hok : FirstUnpins s a)
    (hs : step s a = some t) : Inv t := by
  cases a with
  | value result =>
    simp only [step, Option.ite_none_right_eq_some, Option.some.injEq] at hs
    obtain ⟨hw, rfl⟩ := hs
    have hp : Progress s .running := hw ▸ h.progress
    exact inv_publish h hp.1 hp.2.2 hp.2.1
  | panic message =>
    simp only [step, Option.ite_none_right_eq_some, Option.some.injEq] at hs
    obtain ⟨⟨hw, hm⟩, rfl⟩ := hs
    exact inv_panic h hw hm
  | publishPanic =>
    cases hw : s.worker with
    | running | ended => simp [step, hw] at hs
    | panicking message =>
      simp only [step, hw, Option.some.injEq] at hs
      subst hs
      have hp : Progress s (.panicking message) := hw ▸ h.progress
      exact inv_publish h hp.1 hp.2.2.2 hp.2.2.1
  | cancel =>
    simp only [step, Option.ite_none_right_eq_some, Option.some.injEq] at hs
    obtain ⟨hw, rfl⟩ := hs
    have hp : Progress s .running := hw ▸ h.progress
    exact inv_publish h hp.1 hp.2.2 hp.2.1
  | lookup th kind =>
    simp only [step, Option.ite_none_right_eq_some, Option.some.injEq] at hs
    obtain ⟨⟨hidle, _⟩, rfl⟩ := hs
    refine inv_moves h (fun k sn hr => ?_) (fun k sn => Joiner.noConfusion)
      Joiner.noConfusion ⟨s.ctl.waiters, rfl⟩
    rw [hidle] at hr
    cases hr
  | poll th waker =>
    cases hth : s.joiners th with
    | idle | ready | detaching => simp [step, hth] at hs
    | polling kind =>
      simp only [step, hth] at hs
      split at hs
      · rename_i hd
        simp only [Option.some.injEq] at hs
        subst hs
        exact inv_poll h hd hth fun ht hp => hok hd ht hp kind hth
      · simp only [Option.some.injEq] at hs
        subst hs
        refine inv_moves h (fun k sn hr => ?_) (fun k sn => Joiner.noConfusion)
          Joiner.noConfusion ⟨_, rfl⟩
        rw [hth] at hr
        cases hr
  | finish th =>
    cases hth : s.joiners th with
    | idle | polling | detaching => simp [step, hth] at hs
    | ready kind seen =>
      simp only [step, hth, Option.some.injEq] at hs
      exact hs ▸ inv_finish h hth
  | detach th =>
    simp only [step, Option.ite_none_right_eq_some, Option.some.injEq] at hs
    obtain ⟨⟨hidle, hr⟩, rfl⟩ := hs
    exact inv_detach h hidle hr
  | detachLocked th =>
    simp only [step, Option.ite_none_right_eq_some, Option.some.injEq] at hs
    obtain ⟨hth, rfl⟩ := hs
    exact inv_detachLocked h hth
  | other word pins =>
    simp only [step, Option.ite_none_left_eq_some] at hs
    obtain ⟨hword, hs⟩ := hs
    split at hs
    · simp only [Option.some.injEq] at hs
      subst hs
      refine inv_other h fun v hv => ?_
      have htable := h.table v hv
      rw [addExtraRoot_apply]
      by_cases hvw : v = word
      · subst hvw
        simp only [ne_eq, hword, not_false_eq_true, and_self, if_true, Function.update_self]
        omega
      · rw [if_neg fun hc => hvw hc.2, Function.update_of_ne hvw]
        exact htable
    · simp only [Option.ite_none_left_eq_some, Option.some.injEq] at hs
      obtain ⟨hothers, rfl⟩ := hs
      refine inv_other h fun v hv => ?_
      have htable := h.table v hv
      rw [removeExtraRoot_apply]
      by_cases hvw : v = word
      · subst hvw
        obtain ⟨due, hdue⟩ := h.due
        rw [hdue, List.count_append] at htable ⊢
        simp only [ne_eq, hword, not_false_eq_true, and_self, if_true, Function.update_self]
        omega
      · rw [if_neg fun hc => hvw hc.2, Function.update_of_ne hvw]
        exact htable

theorem inv_initial {s : Handoff} (h : Initial s) : Inv s := by
  obtain ⟨resultIsPtr, os, hctl⟩ := h.ctl
  have hblank : Blank s.ctl := by
    rw [hctl]
    exact ⟨rfl, rfl, rfl, rfl, rfl⟩
  have hnone : ∀ {th j}, j ≠ .idle → s.joiners th ≠ j := by
    rintro th j hj rfl
    exact hj (h.joiners th)
  refine ⟨?_, ⟨fun _ => ⟨hblank.resultPinned, hblank.cancelled⟩, fun _ => hblank.resultPinned,
      fun _ _ => hblank.resultPinned⟩,
    .of_untaken (fun _ _ _ => hnone Joiner.noConfusion) fun _ => h.unpinned.trans h.pinned.symm,
    ⟨fun _ => ⟨by rw [hctl]; rfl, fun _ => hnone Joiner.noConfusion⟩,
      fun _ hj => absurd hj (hnone Joiner.noConfusion)⟩, fun v hv => ?_⟩
  · rw [h.worker]
    exact ⟨hblank, h.pinned, h.unpinned⟩
  · rw [h.roots v hv, h.pinned, h.unpinned]

/-! ## The law -/

theorem Inv.pinsBalance {s : Handoff} (h : Inv s) : PinsBalance s := by
  obtain ⟨due, hdue⟩ := h.due
  refine ⟨fun v => ?_, h.table, fun ht hdet => ?_, fun hw hconsumed hquiet => ?_⟩
  · rw [hdue, List.count_append]
    omega
  · have hp := h.progress
    cases hw : s.worker with
    | running =>
      rw [hw] at hp
      exact hp.2.2
    | panicking =>
      rw [hw] at hp
      exact hp.2.2.2
    | ended =>
      rw [hw] at hp
      rw [hp.2.2 ht, hdet]
      rfl
  · have hp : Progress s .ended := hw ▸ h.progress
    cases ht : s.ctl.taken with
    | true => exact h.polls.settled ht fun th kind seen hj => absurd hj (hquiet th kind seen)
    | false =>
      rw [ht] at hconsumed
      have hdet : s.ctl.detached = true := hconsumed.resolve_left Bool.noConfusion
      rw [hp.2.2 ht, hdet]
      rfl

/-- While the first poll that finds a panic is one that unpins its message exactly when the
message is pinned still, the pins of the worker balance. -/
theorem the_result_pins_balance_while_first_polls_unpin {s : Handoff}
    (hs : Reaches step Initial FirstUnpins s) : PinsBalance s := by
  have hinv : Inv s :=
    hs.invariant (fun _ h0 => inv_initial h0) fun _ _ _ h hok hstep => inv_step h hok hstep
  exact hinv.pinsBalance

/-- A spawn future is the first to find the panic of its worker. -/
def spawnedPanic : List Action :=
  [.panic 64, .publishPanic, .lookup 0 .spawn, .poll 0 (7, .taskWake), .finish 0]

/-- A join has looked its record up when the handle is detached, and the panic comes after. The
rest of the runtime has a pin of its own on the message. -/
def detachedPanic : List Action :=
  [.lookup 0 .join, .detach 1, .detachLocked 1, .panic 64, .other 64 true, .publishPanic,
    .poll 0 (7, .taskWake), .finish 0]

/-- A worker panics, and the first poll of its join unpins the message. -/
theorem the_result_pins_balance_in_a_run :
    ∃ s, run step (newHandoff true true)
        [.panic 64, .publishPanic, .lookup 0 .join, .poll 0 (7, .taskWake), .finish 0] = some s ∧
      s.pinned = [64] ∧ s.unpinned = [64] ∧ PinsBalance s := by
  have h0 : Reaches step Initial FirstUnpins (newHandoff true true) :=
    .start (newHandoff_initial true true)
  have h1 := h0.next (l := Action.panic 64) trivial rfl
  have h2 := h1.next (l := Action.publishPanic) trivial rfl
  have h3 := h2.next (l := Action.lookup 0 .join) trivial rfl
  have h4 := h3.next (l := Action.poll 0 (7, .taskWake))
    (fun _ _ _ _ hk => ⟨fun _ => rfl, fun _ => (Joiner.polling.inj hk).symm⟩) rfl
  have h5 := h4.next (l := Action.finish 0) trivial rfl
  exact ⟨_, rfl, rfl, rfl, the_result_pins_balance_while_first_polls_unpin h5⟩

/-- The pin of a message that a spawn future finds stays for good; a join that finds a panic of
a detached handle removes a pin that another part of the runtime made. -/
theorem a_panic_leaks_its_message_or_loses_it_twice :
    (∃ s, run step (newHandoff true true) spawnedPanic = some s ∧ s.pinned = [64] ∧
      s.unpinned = [] ∧ ¬ PinsBalance s) ∧
    ∃ s, run step (newHandoff true true) detachedPanic = some s ∧ s.pinned = [64] ∧
      s.unpinned = [64, 64] ∧ s.others 64 = 1 ∧ s.roots 64 = 0 ∧ ¬ PinsBalance s := by
  constructor
  · refine ⟨_, rfl, rfl, rfl, fun h => ?_⟩
    have hreleased := h.released rfl (Or.inl rfl) fun th kind seen hj => ?_
    · cases hreleased
    · by_cases hth : th = 0
      · subst hth
        cases hj
      · change Function.update
          (Function.update (Function.update (fun _ => Joiner.idle) 0 _) 0 _) 0 _
          th = _ at hj
        simp [hth] at hj
  · refine ⟨_, rfl, rfl, rfl, rfl, rfl, fun h => ?_⟩
    have hown := h.own 64
    revert hown
    decide

end runtime.joins
