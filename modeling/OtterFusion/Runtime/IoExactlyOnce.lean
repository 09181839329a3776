-- The result of an IO future is in one place at a time: with the helper, in its slot, with a poll
-- or with a cancellation. It is pinned and unpinned once, and its handle is delivered or
-- released once.
import OtterFusion.Runtime.IoFuture

open base.runs Function

namespace runtime.io

/-! ## Where the result is -/

/-- Where the encoded result is, and what has been done with it. -/
inductive Place
  | unmade
  | made (e : String)
  | rooted (e : String)
  | refused (e : String)
  | slot (e : String)
  | poll (i : Nat) (e : String)
  | cancel (j : Nat) (e : String)
  | discarded (j : Nat) (e : String)
  | delivered (e : String)
  | dropped (e : String)
  | late (e : String)

namespace Place

def text : Place → Option String
  | unmade => none
  | made e | rooted e | refused e | slot e | poll _ e | cancel _ e | discarded _ e | delivered e
  | dropped e | late e => some e

def slotText : Place → Option String
  | slot e => some e
  | _ => none

def pollText (i : Nat) : Place → Option String
  | poll k e => if k = i then some e else none
  | _ => none

def cancelText (j : Nat) : Place → Option (String × Bool)
  | cancel k e => if k = j then some (e, false) else none
  | discarded k e => if k = j then some (e, true) else none
  | _ => none

def pinned : Place → Nat
  | unmade | made _ | late _ => 0
  | _ => 1

def unpinned : Place → Nat
  | delivered _ | dropped _ => 1
  | _ => 0

def readies : Place → List (Option String)
  | delivered e => [some e]
  | _ => []

def released (op : IoOp) : Place → List Int
  | refused e | discarded _ e | dropped e | late e => (op.discard e).toList
  | _ => []

/-- The helper has handed the result over, or dropped it. -/
def Out : Place → Prop
  | unmade | made _ | rooted _ | refused _ => False
  | _ => True

end Place

/-- The result that a poll has. -/
def Poll.text : Poll → Option String
  | took e | removed e => some e
  | _ => none

/-- The result that a cancellation has, and whether its handle is released. -/
def Cancel.text : Cancel → Option (String × Bool)
  | took e => some (e, false)
  | discarded e => some (e, true)
  | _ => none

/-- Where the result is as far as the helper goes. -/
def Helper.At : Helper → Place → Prop
  | absent, p | running, p => p = .unmade
  | completing e, p | late e, p | building e, p => p = .made e
  | rooted e, p | locked e, p | refused e, p | storing e, p => p = .rooted e
  | released e, p => p = .refused e
  | stored, p | waking _, p | firing _, p | done, p => p.Out

/-- The result is at a place, and nowhere else. -/
structure ResultAt (s : IoFuture) (p : Place) : Prop where
  result : s.result = p.slotText
  polls : ∀ i, (s.polls i).text = p.pollText i
  cancels : ∀ j, (s.cancels j).text = p.cancelText j
  helper : s.helper.At p
  outcome : s.outcome.map s.op.encode = p.text
  ends : ∀ o, s.outcome = some o → s.op.CanEnd o
  pinned : s.pinned = p.pinned
  unpinned : s.unpinned = p.unpinned
  readies : s.readies = p.readies
  released : s.released = p.released s.op

namespace ResultAt

variable {s : IoFuture} {p : Place}

/-- A poll goes on that has nothing to do with the result. -/
theorem poll (h : ResultAt s p) {i : Nat} {q : Poll} (hold : (s.polls i).text = none)
    (hnew : q.text = none) : ResultAt (s.poll i q) p := by
  refine ⟨h.result, fun k => ?_, h.cancels, h.helper, h.outcome, h.ends, h.pinned, h.unpinned,
    h.readies, h.released⟩
  rw [IoFuture.poll_polls]
  by_cases hk : k = i
  · subst hk
    rw [update_self, hnew, ← h.polls, hold]
  · rw [update_of_ne hk]
    exact h.polls k

theorem cancel (h : ResultAt s p) {j : Nat} {c : Cancel} (hold : (s.cancels j).text = none)
    (hnew : c.text = none) : ResultAt (s.cancel j c) p := by
  refine ⟨h.result, h.polls, fun k => ?_, h.helper, h.outcome, h.ends, h.pinned, h.unpinned,
    h.readies, h.released⟩
  rw [IoFuture.cancel_cancels]
  by_cases hk : k = j
  · subst hk
    rw [update_self, hnew, ← h.cancels, hold]
  · rw [update_of_ne hk]
    exact h.cancels k

/-- A change that leaves what the result is seen by. -/
theorem same {t : IoFuture} (h : ResultAt s p) (hop : t.op = s.op) (hresult : t.result = s.result)
    (hpolls : t.polls = s.polls) (hcancels : t.cancels = s.cancels) (hhelper : t.helper.At p)
    (houtcome : t.outcome = s.outcome) (hpinned : t.pinned = s.pinned)
    (hunpinned : t.unpinned = s.unpinned) (hreadies : t.readies = s.readies)
    (hreleased : t.released = s.released) : ResultAt t p where
  result := hresult.trans h.result
  polls := fun i => hpolls ▸ h.polls i
  cancels := fun j => hcancels ▸ h.cancels j
  helper := hhelper
  outcome := by rw [houtcome, hop]; exact h.outcome
  ends := by rw [houtcome, hop]; exact h.ends
  pinned := hpinned.trans h.pinned
  unpinned := hunpinned.trans h.unpinned
  readies := hreadies.trans h.readies
  released := by rw [hreleased, hop]; exact h.released

theorem slot (h : ResultAt s p) {e : String} (hresult : s.result = some e) : p = .slot e := by
  have hp := h.result
  rw [hresult] at hp
  cases p <;> simp_all [Place.slotText]

theorem atPoll (h : ResultAt s p) {i : Nat} {e : String} (hpoll : (s.polls i).text = some e) :
    p = .poll i e := by
  have hp := h.polls i
  rw [hpoll] at hp
  cases p <;> simp_all [Place.pollText]

theorem atCancel (h : ResultAt s p) {j : Nat} {e : String} (hcancel : s.cancels j = .took e) :
    p = .cancel j e := by
  have hp := h.cancels j
  rw [hcancel] at hp
  cases p <;> simp_all [Place.cancelText, Cancel.text]

theorem atDiscarded (h : ResultAt s p) {j : Nat} {e : String}
    (hcancel : s.cancels j = .discarded e) : p = .discarded j e := by
  have hp := h.cancels j
  rw [hcancel] at hp
  cases p <;> simp_all [Place.cancelText, Cancel.text]

end ResultAt

/-- The helper does not look at who has the result after it. -/
theorem Helper.At.out {h : Helper} {p q : Place} (hp : h.At p) (hout : p.Out) (hq : q.Out) :
    h.At q := by
  cases h with
  | stored | waking _ | firing _ | done => exact hq
  | absent | running | completing _ | late _ | building _ | rooted _ | locked _ | refused _
  | storing _ | released _ =>
    subst hp
    exact hout.elim

/-! ## Steps -/

section steps

variable {s t : IoFuture} {p : Place}

/-- A poll takes the result, or lets it go. -/
theorem ResultAt.pollHolds (h : ResultAt s p) {i : Nat} {q : Poll} {p' : Place}
    (hp : ∀ k, k ≠ i → p.pollText k = none)
    (hq : ∀ k, p'.pollText k = if k = i then q.text else none)
    (k : Nat) : ((s.poll i q).polls k).text = p'.pollText k := by
  rw [IoFuture.poll_polls, hq]
  by_cases hk : k = i
  · subst hk
    rw [update_self, if_pos rfl]
  · rw [update_of_ne hk, h.polls, hp k hk, if_neg hk]

theorem ResultAt.cancelHolds (h : ResultAt s p) {j : Nat} {c : Cancel} {p' : Place}
    (hp : ∀ k, k ≠ j → p.cancelText k = none)
    (hc : ∀ k, p'.cancelText k = if k = j then c.text else none) (k : Nat) :
    ((s.cancel j c).cancels k).text = p'.cancelText k := by
  rw [IoFuture.cancel_cancels, hc]
  by_cases hk : k = j
  · subst hk
    rw [update_self, if_pos rfl]
  · rw [update_of_ne hk, h.cancels, hp k hk, if_neg hk]

/-- What `io_poll` does with the result. -/
theorem ResultAt.pollMove (h : ResultAt s p) {i : Nat}
    (hidle : s.polls i = .idle → s.registered = true)
    (hkept : s.polls i = .kept → s.helper = .absent) (hmove : PollMove s i t) :
    ∃ q, ResultAt t q := by
  cases hmove with
  | found hpoll | empty hpoll | again hpoll | giveUp hpoll | keep hpoll | inactive hpoll
  | notSpawned hpoll => exact ⟨p, h.poll (by rw [hpoll]; rfl) rfl⟩
  | null hpoll hregistered =>
    rw [hidle hpoll] at hregistered
    cases hregistered
  | @took e hpoll hresult =>
    obtain rfl := h.slot hresult
    refine ⟨.poll i e, rfl, h.pollHolds (fun _ _ => rfl) fun k => ?_, h.cancels,
      h.helper.out trivial trivial, h.outcome, h.ends, h.pinned, h.unpinned, h.readies, h.released⟩
    simp [Place.pollText, Poll.text, eq_comm]
  | @removed e hpoll =>
    obtain rfl := h.atPoll (by rw [hpoll]; rfl)
    refine ⟨.poll i e, h.result, h.pollHolds (fun k hk => ?_) fun k => ?_, h.cancels, h.helper,
      h.outcome, h.ends, h.pinned, h.unpinned, h.readies, h.released⟩
    · simp [Place.pollText, Ne.symm hk]
    · simp [Place.pollText, Poll.text, eq_comm]
  | @ready e hpoll =>
    obtain rfl := h.atPoll (by rw [hpoll]; rfl)
    refine ⟨.delivered e, h.result, h.pollHolds (fun k hk => ?_) fun k => ?_, h.cancels,
      h.helper.out trivial trivial, h.outcome, h.ends, h.pinned, ?_, ?_, h.released⟩
    · simp [Place.pollText, Ne.symm hk]
    · simp [Place.pollText, Poll.text]
    · dsimp only
      rw [h.unpinned]
      rfl
    · dsimp only
      rw [h.readies]
      rfl
  | first hpoll | register hpoll | deactivate hpoll | unlist hpoll | kept hpoll =>
    have hsame := fun q hq => h.poll (q := q) (i := i) (by rw [hpoll]; rfl) hq
    refine ⟨p, (hsame _ rfl).same rfl rfl rfl rfl h.helper rfl rfl rfl rfl rfl⟩
  | spawned hpoll =>
    have hsame := h.poll (i := i) (q := .idle) (by rw [hpoll]; rfl) rfl
    have hunmade : p = .unmade := by
      have hhelper := h.helper
      rw [hkept hpoll] at hhelper
      exact hhelper
    exact ⟨p, hsame.same rfl rfl rfl rfl hunmade rfl rfl rfl rfl rfl⟩

/-- What `io_cancel_id` does with the result. -/
theorem ResultAt.cancelMove (h : ResultAt s p) {j : Nat} (hmove : CancelMove s j t) :
    ∃ q, ResultAt t q := by
  cases hmove with
  | gone => exact ⟨p, h⟩
  | none hcancel => exact ⟨p, h.cancel (by rw [hcancel]; rfl) rfl⟩
  | removed hcancel | marked hcancel | giveUp hcancel | deactivate hcancel | inactive hcancel
  | unlist hcancel | empty hcancel =>
    have hsame := fun c hc => h.cancel (c := c) (j := j) (by rw [hcancel]; rfl) hc
    exact ⟨p, (hsame _ rfl).same rfl rfl rfl rfl h.helper rfl rfl rfl rfl rfl⟩
  | @took e hcancel hresult =>
    obtain rfl := h.slot hresult
    refine ⟨.cancel j e, rfl, h.polls, h.cancelHolds (fun _ _ => rfl) fun k => ?_,
      h.helper.out trivial trivial, h.outcome, h.ends, h.pinned, h.unpinned, h.readies, h.released⟩
    simp [Place.cancelText, Cancel.text, eq_comm]
  | @discarded e hcancel =>
    obtain rfl := h.atCancel hcancel
    refine ⟨.discarded j e, h.result, h.polls, h.cancelHolds (fun k hk => ?_) fun k => ?_,
      h.helper.out trivial trivial, h.outcome, h.ends, h.pinned, h.unpinned, h.readies, ?_⟩
    · simp [Place.cancelText, Ne.symm hk]
    · simp [Place.cancelText, Cancel.text, eq_comm]
    · change (s.op.discard e).toList ++ s.released = (s.op.discard e).toList
      rw [h.released]
      exact List.append_nil _
  | @done e hcancel =>
    obtain rfl := h.atDiscarded hcancel
    refine ⟨.dropped e, h.result, h.polls, h.cancelHolds (fun k hk => ?_) fun k => ?_,
      h.helper.out trivial trivial, h.outcome, h.ends, h.pinned, ?_, h.readies, h.released⟩
    · simp [Place.cancelText, Ne.symm hk]
    · simp [Place.cancelText, Cancel.text]
    · dsimp only
      rw [h.unpinned]
      rfl

/-- What the helper does with the result. -/
theorem ResultAt.helperMove (h : ResultAt s p) (hmove : HelperMove s t) : ∃ q, ResultAt t q := by
  have hat := h.helper
  cases hmove with
  | @ran o hhelper hend =>
    rw [hhelper] at hat
    obtain rfl : p = .unmade := hat
    exact ⟨.made (s.op.encode o), h.result, h.polls, h.cancels, rfl, rfl,
      fun o' ho => Option.some.inj ho ▸ hend, h.pinned, h.unpinned, h.readies, h.released⟩
  | late hhelper | building hhelper =>
    rw [hhelper] at hat
    exact ⟨p, h.same rfl rfl rfl rfl hat rfl rfl rfl rfl rfl⟩
  | locked hhelper | refused hhelper | storing hhelper =>
    rw [hhelper] at hat
    exact ⟨p, h.same rfl rfl rfl rfl hat rfl rfl rfl rfl rfl⟩
  | waking hhelper | none hhelper | firing hhelper | stale hhelper | woke hhelper
  | inactive hhelper =>
    rw [hhelper] at hat
    exact ⟨p, h.same rfl rfl rfl rfl hat rfl rfl rfl rfl rfl⟩
  | @dropped e hhelper =>
    rw [hhelper] at hat
    obtain rfl : p = .made e := hat
    refine ⟨.late e, h.result, h.polls, h.cancels, trivial, h.outcome, h.ends, h.pinned,
      h.unpinned, h.readies, ?_⟩
    change (s.op.discard e).toList ++ s.released = (s.op.discard e).toList
    rw [h.released]
    exact List.append_nil _
  | @rooted e hhelper =>
    rw [hhelper] at hat
    obtain rfl : p = .made e := hat
    refine ⟨.rooted e, h.result, h.polls, h.cancels, rfl, h.outcome, h.ends, ?_, h.unpinned,
      h.readies, h.released⟩
    dsimp only
    rw [h.pinned]
    rfl
  | @released e hhelper =>
    rw [hhelper] at hat
    obtain rfl : p = .rooted e := hat
    refine ⟨.refused e, h.result, h.polls, h.cancels, rfl, h.outcome, h.ends, h.pinned,
      h.unpinned, h.readies, ?_⟩
    change (s.op.discard e).toList ++ s.released = (s.op.discard e).toList
    rw [h.released]
    exact List.append_nil _
  | @unpinned e hhelper =>
    rw [hhelper] at hat
    obtain rfl : p = .refused e := hat
    refine ⟨.dropped e, h.result, h.polls, h.cancels, trivial, h.outcome, h.ends, h.pinned, ?_,
      h.readies, h.released⟩
    dsimp only
    rw [h.unpinned]
    rfl
  | @stored e hhelper =>
    rw [hhelper] at hat
    obtain rfl : p = .rooted e := hat
    exact ⟨.slot e, rfl, h.polls, h.cancels, trivial, h.outcome, h.ends, h.pinned, h.unpinned,
      h.readies, h.released⟩

end steps

end runtime.io
