-- The registration of an IO future in the reactor: one poll makes it, and it is in one place at a
-- time, until the helper wakes it or a cancellation drops it.
import OtterFusion.Runtime.IoFuture

open base.runs Function

namespace runtime.io

/-! ## The poll that starts the operation -/

/-- From the swap of `started` to the start of the helper. -/
def Poll.starting : Poll → Bool
  | first | armed _ | giveUp _ | unlist _ | keep _ | kept => true
  | _ => false

/-- One poll starts the operation, before there is a helper. -/
structure Starts (s : IoFuture) : Prop where
  one : ∀ i k, (s.polls i).starting = true → (s.polls k).starting = true → i = k
  started : ∀ i, (s.polls i).starting = true → s.started = true
  absent : ∀ i, (s.polls i).starting = true → s.helper = .absent
  unstarted : s.started = false → s.helper = .absent

namespace Starts

variable {s t : IoFuture}

/-- A poll goes on, and starts nothing. -/
theorem poll (h : Starts s) {i : Nat} {q : Poll}
    (hq : q.starting = true → (s.polls i).starting = true) : Starts (s.poll i q) := by
  have hold : ∀ k, ((s.poll i q).polls k).starting = true → (s.polls k).starting = true := by
    intro k hk
    rw [IoFuture.poll_polls] at hk
    by_cases hki : k = i
    · subst hki
      rw [update_self] at hk
      exact hq hk
    · rwa [update_of_ne hki] at hk
  exact ⟨fun a b ha hb => h.one a b (hold a ha) (hold b hb), fun a ha => h.started a (hold a ha),
    fun a ha => h.absent a (hold a ha), h.unstarted⟩

/-- A change of what the start does not look at. -/
theorem same (h : Starts s) (hpolls : t.polls = s.polls) (hstarted : t.started = s.started)
    (hhelper : t.helper = s.helper) : Starts t := by
  refine ⟨?_, ?_, ?_, ?_⟩
  · rw [hpolls]
    exact h.one
  · rw [hpolls, hstarted]
    exact h.started
  · rw [hpolls, hhelper]
    exact h.absent
  · rw [hstarted, hhelper]
    exact h.unstarted

theorem pollMove (h : Starts s) {i : Nat} (hmove : PollMove s i t) : Starts t := by
  cases hmove with
  | null => exact h.same rfl rfl rfl
  | found hpoll | empty hpoll | again hpoll | inactive hpoll | notSpawned hpoll =>
    exact h.poll fun hq => (by cases hq)
  | giveUp hpoll | keep hpoll => exact h.poll fun _ => (by rw [hpoll]; rfl)
  | took hpoll | removed hpoll | ready hpoll | unlist hpoll =>
    have hnext := fun q hq => h.poll (i := i) (q := q) hq
    exact (hnext _ fun hq => (by cases hq)).same rfl rfl rfl
  | register hpoll | deactivate hpoll | kept hpoll =>
    have hnext := fun q hq => h.poll (i := i) (q := q) hq
    exact (hnext _ fun _ => (by rw [hpoll]; rfl)).same rfl rfl rfl
  | first hpoll hstarted =>
    have honly : ∀ k, ((s.poll i .first).polls k).starting = true → k = i := by
      intro k hk
      by_contra hki
      rw [IoFuture.poll_polls, update_of_ne hki] at hk
      rw [h.started k hk] at hstarted
      cases hstarted
    exact ⟨fun a b ha hb => (honly a ha).trans (honly b hb).symm, fun _ _ => rfl,
      fun _ _ => h.unstarted hstarted, fun hfalse => (by cases hfalse)⟩
  | spawned hpoll =>
    have hi : (s.polls i).starting = true := by rw [hpoll]; rfl
    have hnone : ∀ k, ((s.poll i .idle).polls k).starting = false := by
      intro k
      rw [IoFuture.poll_polls]
      by_cases hki : k = i
      · subst hki
        rw [update_self]
        rfl
      · rw [update_of_ne hki]
        exact Bool.eq_false_iff.mpr fun hk => hki (h.one k i hk hi)
    have habsurd : ∀ k, ((s.poll i .idle).polls k).starting = true → False := by
      intro k hk
      rw [hnone] at hk
      cases hk
    refine ⟨fun a _ ha _ => (habsurd a ha).elim, fun a ha => (habsurd a ha).elim,
      fun a ha => (habsurd a ha).elim, fun hfalse => ?_⟩
    have htrue := h.started i hi
    rw [show s.started = false from hfalse] at htrue
    cases htrue

theorem cancelMove (h : Starts s) {j : Nat} (hmove : CancelMove s j t) : Starts t := by
  cases hmove
  all_goals exact h.same rfl rfl rfl

theorem helperMove (h : Starts s) (hmove : HelperMove s t) : Starts t := by
  have hnone : s.helper ≠ .absent → ∀ k, (s.polls k).starting = true → False :=
    fun hhelper k hk => hhelper (h.absent k hk)
  have hstarted : s.helper ≠ .absent → s.started ≠ false :=
    fun hhelper hfalse => hhelper (h.unstarted hfalse)
  have hpresent : s.helper ≠ .absent := by
    cases hmove <;> simp_all
  refine ⟨fun a b ha => ?_, fun a ha => ?_, fun a ha => ?_, fun hfalse => ?_⟩
  · cases hmove <;> exact (hnone hpresent a ha).elim
  · cases hmove <;> exact (hnone hpresent a ha).elim
  · cases hmove <;> exact (hnone hpresent a ha).elim
  · cases hmove <;> exact (hstarted hpresent hfalse).elim

end Starts

/-! ## Where the registration is -/

/-- Where the registration is. `pollGone`, `cancelGone` and `firing` have settled one of the table
and the flag, and go on to the other. -/
inductive RegPlace
  | unmade
  | poll (i reg : Nat)
  | pollGone (i reg : Nat)
  | slot (reg : Nat)
  | cancel (j reg : Nat)
  | cancelGone (j reg : Nat)
  | waking (reg : Nat)
  | firing (reg : Nat)
  | gone

namespace RegPlace

def pollReg (i : Nat) : RegPlace → Option (Nat × Bool)
  | poll k reg => if k = i then some (reg, true) else none
  | pollGone k reg => if k = i then some (reg, false) else none
  | _ => none

def cancelReg (j : Nat) : RegPlace → Option (Nat × Bool)
  | cancel k reg => if k = j then some (reg, true) else none
  | cancelGone k reg => if k = j then some (reg, false) else none
  | _ => none

def helperReg : RegPlace → Option (Nat × Bool)
  | waking reg => some (reg, true)
  | firing reg => some (reg, false)
  | _ => none

def slotReg : RegPlace → Option Nat
  | slot reg => some reg
  | _ => none

/-- The waiter that is in the table. -/
def waiter : RegPlace → Option Nat
  | poll _ reg | pollGone _ reg | slot reg | cancel _ reg | cancelGone _ reg | waking reg =>
      some reg
  | _ => none

/-- The registration that is active. -/
def active : RegPlace → Option Nat
  | poll _ reg | slot reg | cancel _ reg | waking reg | firing reg => some reg
  | _ => none

end RegPlace

/-- The registration that a poll has, and whether it is as it was made. -/
def Poll.reg : Poll → Option (Nat × Bool)
  | armed reg | giveUp reg | keep reg => some (reg, true)
  | unlist reg => some (reg, false)
  | _ => none

def Cancel.reg : Cancel → Option (Nat × Bool)
  | giveUp reg => some (reg, true)
  | unlist reg => some (reg, false)
  | _ => none

def Helper.reg : Helper → Option (Nat × Bool)
  | waking reg => some (reg, true)
  | firing reg => some (reg, false)
  | _ => none

/-- The registration is at a place, and nowhere else. -/
structure RegAt (s : IoFuture) (p : RegPlace) : Prop where
  polls : ∀ i, (s.polls i).reg = p.pollReg i
  cancels : ∀ j, (s.cancels j).reg = p.cancelReg j
  helper : s.helper.reg = p.helperReg
  slot : s.registration = p.slotReg
  waiters : ∀ r, s.waiters r = true ↔ p.waiter = some r
  active : ∀ r, s.active r = true ↔ p.active = some r
  wakes : s.wakes ≤ 1 ∧ (p = .gone ∨ s.wakes = 0)
  unmade : (s.started = false ∨ ∃ i, s.polls i = .first) → p = .unmade

namespace RegAt

variable {s t : IoFuture} {p : RegPlace}

/-- A poll goes on to have what a place says. -/
theorem pollHolds (h : RegAt s p) {i : Nat} {q : Poll} {p' : RegPlace}
    (hp : ∀ k, k ≠ i → p.pollReg k = none)
    (hq : ∀ k, p'.pollReg k = if k = i then q.reg else none) (k : Nat) :
    ((s.poll i q).polls k).reg = p'.pollReg k := by
  rw [IoFuture.poll_polls, hq]
  by_cases hk : k = i
  · subst hk
    rw [update_self, if_pos rfl]
  · rw [update_of_ne hk, h.polls, hp k hk, if_neg hk]

theorem cancelHolds (h : RegAt s p) {j : Nat} {c : Cancel} {p' : RegPlace}
    (hp : ∀ k, k ≠ j → p.cancelReg k = none)
    (hc : ∀ k, p'.cancelReg k = if k = j then c.reg else none) (k : Nat) :
    ((s.cancel j c).cancels k).reg = p'.cancelReg k := by
  rw [IoFuture.cancel_cancels, hc]
  by_cases hk : k = j
  · subst hk
    rw [update_self, if_pos rfl]
  · rw [update_of_ne hk, h.cancels, hp k hk, if_neg hk]

/-- No poll is to register any more. -/
theorem noFirst (h : Starts s) {i : Nat} {q : Poll} (hi : (s.polls i).starting = true)
    (hq : q ≠ .first) : ¬ (s.started = false ∨ ∃ k, (s.poll i q).polls k = .first) := by
  rintro (hfalse | ⟨k, hk⟩)
  · rw [h.started i hi] at hfalse
    cases hfalse
  · rw [IoFuture.poll_polls] at hk
    by_cases hki : k = i
    · subst hki
      rw [update_self] at hk
      exact hq hk
    · rw [update_of_ne hki] at hk
      exact hki (h.one k i (by rw [hk]; rfl) hi)

/-- A poll goes on that keeps what it has of the registration. -/
theorem poll (h : RegAt s p) {i : Nat} {q : Poll} (hreg : q.reg = (s.polls i).reg)
    (hfirst : q ≠ .first) : RegAt (s.poll i q) p := by
  refine ⟨fun k => ?_, h.cancels, h.helper, h.slot, h.waiters, h.active, h.wakes, fun hun => ?_⟩
  · rw [IoFuture.poll_polls]
    by_cases hk : k = i
    · subst hk
      rw [update_self, hreg, h.polls]
    · rw [update_of_ne hk, h.polls]
  · rcases hun with hun | ⟨k, hk⟩
    · exact h.unmade (.inl hun)
    · rw [IoFuture.poll_polls] at hk
      by_cases hki : k = i
      · subst hki
        rw [update_self] at hk
        exact absurd hk hfirst
      · rw [update_of_ne hki] at hk
        exact h.unmade (.inr ⟨k, hk⟩)

theorem cancel (h : RegAt s p) {j : Nat} {c : Cancel} (hreg : c.reg = (s.cancels j).reg) :
    RegAt (s.cancel j c) p := by
  refine ⟨h.polls, fun k => ?_, h.helper, h.slot, h.waiters, h.active, h.wakes, h.unmade⟩
  rw [IoFuture.cancel_cancels]
  by_cases hk : k = j
  · subst hk
    rw [update_self, hreg, h.cancels]
  · rw [update_of_ne hk, h.cancels]

/-- A change that leaves what the registration is seen by. -/
theorem same (h : RegAt s p) (hpolls : t.polls = s.polls) (hcancels : t.cancels = s.cancels)
    (hhelper : t.helper.reg = s.helper.reg) (hslot : t.registration = s.registration)
    (hwaiters : t.waiters = s.waiters) (hactive : t.active = s.active) (hwakes : t.wakes = s.wakes)
    (hstarted : t.started = s.started) : RegAt t p where
  polls := fun i => hpolls ▸ h.polls i
  cancels := fun j => hcancels ▸ h.cancels j
  helper := hhelper.trans h.helper
  slot := hslot.trans h.slot
  waiters := fun r => hwaiters ▸ h.waiters r
  active := fun r => hactive ▸ h.active r
  wakes := hwakes ▸ h.wakes
  unmade := by
    rw [hstarted, hpolls]
    exact h.unmade

theorem atSlot (h : RegAt s p) {reg : Nat} (hreg : s.registration = some reg) : p = .slot reg := by
  have hp := h.slot
  rw [hreg] at hp
  cases p <;> simp_all [RegPlace.slotReg]

theorem atPoll (h : RegAt s p) (i reg : Nat) (hpoll : (s.polls i).reg = some (reg, true)) :
    p = .poll i reg := by
  have hp := h.polls i
  rw [hpoll] at hp
  cases p <;> simp_all [RegPlace.pollReg]

theorem atPollGone (h : RegAt s p) (i reg : Nat) (hpoll : (s.polls i).reg = some (reg, false)) :
    p = .pollGone i reg := by
  have hp := h.polls i
  rw [hpoll] at hp
  cases p <;> simp_all [RegPlace.pollReg]

theorem atCancel (h : RegAt s p) (j reg : Nat) (hcancel : (s.cancels j).reg = some (reg, true)) :
    p = .cancel j reg := by
  have hp := h.cancels j
  rw [hcancel] at hp
  cases p <;> simp_all [RegPlace.cancelReg]

theorem atCancelGone (h : RegAt s p) (j reg : Nat)
    (hcancel : (s.cancels j).reg = some (reg, false)) : p = .cancelGone j reg := by
  have hp := h.cancels j
  rw [hcancel] at hp
  cases p <;> simp_all [RegPlace.cancelReg]

theorem atHelper (h : RegAt s p) (reg : Nat) (made : Bool)
    (hhelper : s.helper.reg = some (reg, made)) :
    p = if made then .waking reg else .firing reg := by
  have hp := h.helper
  rw [hhelper] at hp
  cases p <;> simp_all [RegPlace.helperReg]

/-- The one entry of a table that is cleared. -/
theorem cleared {table : Nat → Bool} {reg : Nat} (htable : ∀ r, table r = true ↔ some reg = some r)
    (r : Nat) : update table reg false r = true ↔ none = some r := by
  by_cases hr : r = reg
  · subst hr
    rw [update_self]
    simp
  · rw [update_of_ne hr, htable]
    simp [Ne.symm hr]

/-! ### Steps -/

theorem none_woke (h : RegAt s p) (hp : p ≠ .gone) : s.wakes = 0 := h.wakes.2.resolve_left hp

theorem pollMove (h : RegAt s p) (hstarts : Starts s) {i : Nat} (hmove : PollMove s i t) :
    ∃ q, RegAt t q := by
  cases hmove with
  | null => exact ⟨p, h.same rfl rfl rfl rfl rfl rfl rfl rfl⟩
  | found hpoll | empty hpoll | again hpoll | giveUp hpoll | keep hpoll | notSpawned hpoll =>
    exact ⟨p, h.poll (by rw [hpoll]; rfl) nofun⟩
  | took hpoll | removed hpoll | ready hpoll =>
    have hnext := fun q hreg hfirst => h.poll (i := i) (q := q) hreg hfirst
    exact ⟨p, (hnext _ (by rw [hpoll]; rfl) (by exact nofun)).same rfl rfl rfl rfl rfl rfl rfl rfl⟩
  | spawned hpoll =>
    have hhelper : s.helper = .absent := hstarts.absent i (by rw [hpoll]; rfl)
    have hnext := h.poll (i := i) (q := .idle) (by rw [hpoll]; rfl) nofun
    exact ⟨p, hnext.same rfl rfl (by rw [show (s.poll i .idle).helper = .absent from hhelper]; rfl)
      rfl rfl rfl rfl rfl⟩
  | first hpoll hstarted =>
    obtain rfl := h.unmade (.inl hstarted)
    exact ⟨.unmade, h.pollHolds (fun _ _ => rfl) (fun k => by simp [RegPlace.pollReg, Poll.reg]),
      h.cancels, h.helper, h.slot, h.waiters, h.active, h.wakes, fun _ => rfl⟩
  | register hpoll =>
    obtain rfl := h.unmade (.inr ⟨i, hpoll⟩)
    have hadd : ∀ {table : Nat → Bool}, (∀ r, table r = true ↔ (none : Option Nat) = some r) →
        ∀ r, update table s.nextReg true r = true ↔ some s.nextReg = some r := by
      intro table htable r
      by_cases hr : r = s.nextReg
      · subst hr
        simp
      · rw [update_of_ne hr, htable]
        simp [Ne.symm hr]
    refine ⟨.poll i s.nextReg, h.pollHolds (fun _ _ => rfl) (fun k => ?_), h.cancels, h.helper,
      h.slot, hadd h.waiters, hadd h.active, ⟨h.wakes.1, .inr (h.none_woke nofun)⟩, fun hun => ?_⟩
    · simp [RegPlace.pollReg, Poll.reg, eq_comm]
    · exact absurd hun (noFirst hstarts (by rw [hpoll]; rfl) nofun)
  | @deactivate reg hpoll =>
    obtain rfl := h.atPoll i reg (by rw [hpoll]; rfl)
    refine ⟨.pollGone i reg, h.pollHolds (fun k hk => ?_) (fun k => ?_), h.cancels, h.helper,
      h.slot, h.waiters, cleared h.active, ⟨h.wakes.1, .inr (h.none_woke nofun)⟩, fun hun => ?_⟩
    · simp [RegPlace.pollReg, Ne.symm hk]
    · simp [RegPlace.pollReg, Poll.reg, eq_comm]
    · exact absurd hun (noFirst hstarts (by rw [hpoll]; rfl) nofun)
  | @inactive reg hpoll hactive =>
    obtain rfl := h.atPoll i reg (by rw [hpoll]; rfl)
    rw [(h.active reg).mpr rfl] at hactive
    cases hactive
  | @unlist reg hpoll =>
    obtain rfl := h.atPollGone i reg (by rw [hpoll]; rfl)
    refine ⟨.gone, h.pollHolds (fun k hk => ?_) (fun k => ?_), h.cancels, h.helper, h.slot,
      cleared h.waiters, h.active, ⟨h.wakes.1, .inl rfl⟩, fun hun => ?_⟩
    · simp [RegPlace.pollReg, Ne.symm hk]
    · simp [RegPlace.pollReg, Poll.reg]
    · exact absurd hun (noFirst hstarts (by rw [hpoll]; rfl) nofun)
  | @kept reg hpoll =>
    obtain rfl := h.atPoll i reg (by rw [hpoll]; rfl)
    refine ⟨.slot reg, h.pollHolds (fun k hk => ?_) (fun k => ?_), h.cancels, h.helper, rfl,
      h.waiters, h.active, ⟨h.wakes.1, .inr (h.none_woke nofun)⟩, fun hun => ?_⟩
    · simp [RegPlace.pollReg, Ne.symm hk]
    · simp [RegPlace.pollReg, Poll.reg]
    · exact absurd hun (noFirst hstarts (by rw [hpoll]; rfl) nofun)

theorem cancelMove (h : RegAt s p) {j : Nat} (hmove : CancelMove s j t) : ∃ q, RegAt t q := by
  cases hmove with
  | gone => exact ⟨p, h⟩
  | none hcancel => exact ⟨p, h.cancel (by rw [hcancel]; rfl)⟩
  | removed hcancel | marked hcancel | took hcancel | empty hcancel | discarded hcancel
  | done hcancel =>
    have hnext := fun c hreg => h.cancel (j := j) (c := c) hreg
    exact ⟨p, (hnext _ (by rw [hcancel]; rfl)).same rfl rfl rfl rfl rfl rfl rfl rfl⟩
  | @giveUp reg hcancel hreg =>
    obtain rfl := h.atSlot hreg
    refine ⟨.cancel j reg, h.polls, h.cancelHolds (fun _ _ => rfl) (fun k => ?_), h.helper, rfl,
      h.waiters, h.active, ⟨h.wakes.1, .inr (h.none_woke nofun)⟩, fun hun => ?_⟩
    · simp [RegPlace.cancelReg, Cancel.reg, eq_comm]
    · cases h.unmade hun
  | @deactivate reg hcancel =>
    obtain rfl := h.atCancel j reg (by rw [hcancel]; rfl)
    refine ⟨.cancelGone j reg, h.polls, h.cancelHolds (fun k hk => ?_) (fun k => ?_), h.helper,
      h.slot, h.waiters, cleared h.active, ⟨h.wakes.1, .inr (h.none_woke nofun)⟩, fun hun => ?_⟩
    · simp [RegPlace.cancelReg, Ne.symm hk]
    · simp [RegPlace.cancelReg, Cancel.reg, eq_comm]
    · cases h.unmade hun
  | @inactive reg hcancel hactive =>
    obtain rfl := h.atCancel j reg (by rw [hcancel]; rfl)
    rw [(h.active reg).mpr rfl] at hactive
    cases hactive
  | @unlist reg hcancel =>
    obtain rfl := h.atCancelGone j reg (by rw [hcancel]; rfl)
    refine ⟨.gone, h.polls, h.cancelHolds (fun k hk => ?_) (fun k => ?_), h.helper, h.slot,
      cleared h.waiters, h.active, ⟨h.wakes.1, .inl rfl⟩, fun hun => ?_⟩
    · simp [RegPlace.cancelReg, Ne.symm hk]
    · simp [RegPlace.cancelReg, Cancel.reg]
    · cases h.unmade hun

theorem helperMove (h : RegAt s p) (hmove : HelperMove s t) : ∃ q, RegAt t q := by
  cases hmove with
  | ran hhelper | late hhelper | building hhelper | dropped hhelper | rooted hhelper
  | locked hhelper | refused hhelper | storing hhelper | released hhelper | unpinned hhelper
  | stored hhelper | none hhelper =>
    exact ⟨p, h.same rfl rfl (by rw [hhelper]; rfl) rfl rfl rfl rfl rfl⟩
  | @waking reg hhelper hreg =>
    obtain rfl := h.atSlot hreg
    exact ⟨.waking reg, h.polls, h.cancels, rfl, rfl, h.waiters, h.active,
      ⟨h.wakes.1, .inr (h.none_woke nofun)⟩, fun hun => (by cases h.unmade hun)⟩
  | @firing reg hhelper =>
    obtain rfl := h.atHelper reg true (by rw [hhelper]; rfl)
    exact ⟨.firing reg, h.polls, h.cancels, rfl, h.slot, cleared h.waiters, h.active,
      ⟨h.wakes.1, .inr (h.none_woke nofun)⟩, fun hun => (by cases h.unmade hun)⟩
  | @stale reg hhelper hwaiter =>
    obtain rfl := h.atHelper reg true (by rw [hhelper]; rfl)
    rw [(h.waiters reg).mpr rfl] at hwaiter
    cases hwaiter
  | @woke reg hhelper =>
    obtain rfl := h.atHelper reg false (by rw [hhelper]; rfl)
    have hwakes : s.wakes = 0 := h.none_woke nofun
    refine ⟨.gone, h.polls, h.cancels, rfl, h.slot, h.waiters, cleared h.active, ⟨?_, .inl rfl⟩,
      fun hun => (by cases h.unmade hun)⟩
    dsimp only
    omega
  | @inactive reg hhelper hactive =>
    obtain rfl := h.atHelper reg false (by rw [hhelper]; rfl)
    rw [(h.active reg).mpr rfl] at hactive
    cases hactive

end RegAt

end runtime.io
