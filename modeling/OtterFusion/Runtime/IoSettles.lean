-- What holds in every run of an IO future: its result, its handle, its waker and its registration
-- are each dealt with once, while polls come before the end and no cancellation comes between the
-- check of a first poll and its store.
import OtterFusion.Runtime.IoExactlyOnce
import OtterFusion.Runtime.IoRegistrations

open base.runs Function

namespace runtime.io

/-! ## The lock of the result -/

/-- The helper is in its critical section. -/
def Helper.locks : Helper → Bool
  | locked _ | refused _ | released _ | storing _ | stored => true
  | _ => false

/-- A party is in a critical section of the result. -/
def Holds (polls : Nat → Poll) (cancels : Nat → Cancel) (helper : Helper) : Party → Prop
  | .helper => helper.locks = true
  | .poll i => (polls i).text ≠ none
  | .cancel j => (cancels j).text ≠ none

/-- Who is in a critical section has the lock. -/
def Locked (s : IoFuture) : Prop :=
  ∀ x, Holds s.polls s.cancels s.helper x → s.resultHolder = some x

section locks

variable {s t : IoFuture} (h : Locked s)
include h

theorem Locked.keep
    (hholds : ∀ x, Holds t.polls t.cancels t.helper x → Holds s.polls s.cancels s.helper x)
    (hholder : t.resultHolder = s.resultHolder) : Locked t :=
  fun x hx => hholder.trans (h x (hholds x hx))

theorem Locked.acquire {x : Party} (hfree : s.resultHolder = none)
    (hholds : ∀ y, Holds t.polls t.cancels t.helper y →
      Holds s.polls s.cancels s.helper y ∨ y = x)
    (hholder : t.resultHolder = some x) : Locked t := by
  intro y hy
  rcases hholds y hy with hy | rfl
  · rw [h y hy] at hfree
    cases hfree
  · exact hholder

theorem Locked.release {x : Party} (hx : Holds s.polls s.cancels s.helper x)
    (hholds : ∀ y, Holds t.polls t.cancels t.helper y →
      Holds s.polls s.cancels s.helper y ∧ y ≠ x) : Locked t := by
  intro y hy
  obtain ⟨hold, hne⟩ := hholds y hy
  exact absurd (Option.some.inj ((h y hold).symm.trans (h x hx))) hne

end locks

section holds

variable {polls : Nat → Poll} {cancels : Nat → Cancel} {helper : Helper}

theorem holds_poll {i : Nat} {q : Poll} {y : Party}
    (h : Holds (update polls i q) cancels helper y) :
    (Holds polls cancels helper y ∧ y ≠ .poll i) ∨ (y = .poll i ∧ q.text ≠ none) := by
  cases y with
  | helper => exact .inl ⟨h, nofun⟩
  | cancel j => exact .inl ⟨h, nofun⟩
  | poll k =>
    change (update polls i q k).text ≠ none at h
    by_cases hk : k = i
    · subst hk
      rw [update_self] at h
      exact .inr ⟨rfl, h⟩
    · rw [update_of_ne hk] at h
      exact .inl ⟨h, fun heq => hk (Party.poll.inj heq)⟩

theorem holds_cancel {j : Nat} {c : Cancel} {y : Party}
    (h : Holds polls (update cancels j c) helper y) :
    (Holds polls cancels helper y ∧ y ≠ .cancel j) ∨ (y = .cancel j ∧ c.text ≠ none) := by
  cases y with
  | helper => exact .inl ⟨h, nofun⟩
  | poll i => exact .inl ⟨h, nofun⟩
  | cancel k =>
    change (update cancels j c k).text ≠ none at h
    by_cases hk : k = j
    · subst hk
      rw [update_self] at h
      exact .inr ⟨rfl, h⟩
    · rw [update_of_ne hk] at h
      exact .inl ⟨h, fun heq => hk (Party.cancel.inj heq)⟩

/-- A poll goes on that does not enter a critical section. -/
theorem holds_of_poll {i : Nat} {q : Poll} (hq : q.text ≠ none → (polls i).text ≠ none)
    (y : Party) (h : Holds (update polls i q) cancels helper y) :
    Holds polls cancels helper y := by
  rcases holds_poll h with hold | ⟨rfl, hheld⟩
  · exact hold.1
  · exact hq hheld

theorem holds_of_cancel {j : Nat} {c : Cancel} (hc : c.text ≠ none → (cancels j).text ≠ none)
    (y : Party) (h : Holds polls (update cancels j c) helper y) :
    Holds polls cancels helper y := by
  rcases holds_cancel h with hold | ⟨rfl, hheld⟩
  · exact hold.1
  · exact hc hheld

/-- The helper goes on outside of its critical section. -/
theorem holds_of_helper {q : Helper} (hq : q.locks = true → helper.locks = true) (y : Party)
    (h : Holds polls cancels q y) : Holds polls cancels helper y := by
  cases y with
  | helper => exact hq h
  | poll i => exact h
  | cancel j => exact h

end holds

variable {s t : IoFuture}

theorem Locked.pollMove (h : Locked s) {i : Nat} (hmove : PollMove s i t) : Locked t := by
  cases hmove with
  | null => exact h
  | found | empty | again | first | register | giveUp | keep | deactivate | inactive | unlist
  | kept | notSpawned => exact h.keep (holds_of_poll fun hq => absurd rfl hq) rfl
  | removed hpoll => exact h.keep (holds_of_poll fun _ => by rw [hpoll]; nofun) rfl
  | took hpoll hresult hfree =>
    refine h.acquire hfree (fun y hy => ?_) rfl
    rcases holds_poll hy with hy | hy
    · exact .inl hy.1
    · exact .inr hy.1
  | ready hpoll =>
    have hi : (s.polls i).text ≠ none := by rw [hpoll]; nofun
    refine h.release (x := .poll i) hi fun y hy => ?_
    rcases holds_poll hy with hy | hy
    · exact hy
    · exact absurd rfl hy.2
  | spawned hpoll =>
    refine h.keep (fun y hy => ?_) rfl
    have hy' : Holds s.polls s.cancels .running y := holds_of_poll (fun hq => absurd rfl hq) y hy
    have hrunning : Helper.running.locks = true → s.helper.locks = true := nofun
    exact holds_of_helper hrunning y hy'

theorem Locked.cancelMove (h : Locked s) {j : Nat} (hmove : CancelMove s j t) : Locked t := by
  cases hmove with
  | gone => exact h
  | none | removed | marked | giveUp | deactivate | inactive | unlist | empty =>
    exact h.keep (holds_of_cancel fun hc => absurd rfl hc) rfl
  | discarded hcancel =>
    have hj : (s.cancels j).text ≠ none := by rw [hcancel]; nofun
    exact h.keep (holds_of_cancel fun _ => hj) rfl
  | took hcancel hresult hfree =>
    refine h.acquire hfree (fun y hy => ?_) rfl
    rcases holds_cancel hy with hy | hy
    · exact .inl hy.1
    · exact .inr hy.1
  | done hcancel =>
    have hj : (s.cancels j).text ≠ none := by rw [hcancel]; nofun
    refine h.release (x := .cancel j) hj fun y hy => ?_
    rcases holds_cancel hy with hy | hy
    · exact hy
    · exact absurd rfl hy.2

theorem Locked.helperMove (h : Locked s) (hmove : HelperMove s t) : Locked t := by
  cases hmove with
  | ran | late | building | dropped | rooted | firing | stale | woke | inactive =>
    exact h.keep (holds_of_helper nofun) rfl
  | refused hhelper | storing hhelper | released hhelper | stored hhelper =>
    exact h.keep (holds_of_helper fun _ => by rw [hhelper]; rfl) rfl
  | locked hhelper hfree =>
    refine h.acquire hfree (fun y hy => ?_) rfl
    cases y with
    | helper => exact .inr rfl
    | poll i => exact .inl hy
    | cancel j => exact .inl hy
  | unpinned hhelper | waking hhelper | none hhelper =>
    have hlocks : s.helper.locks = true := by rw [hhelper]; rfl
    refine h.release (x := .helper) hlocks fun y hy => ?_
    cases y with
    | helper => cases hy
    | poll i => exact ⟨hy, nofun⟩
    | cancel j => exact ⟨hy, nofun⟩

/-! ## What is over, and what is still to come -/

/-- A cancellation has not looked for the result yet. -/
def Cancel.before : Cancel → Bool
  | removed | marked | giveUp _ | unlist _ | drained => true
  | _ => false

/-- The helper has looked for the registration. -/
def Helper.past : Helper → Bool
  | waking _ | firing _ | done => true
  | _ => false

/-- The helper is through with storing the result, or with dropping it. -/
def Helper.out : Helper → Bool
  | stored | waking _ | firing _ | done => true
  | _ => false

/-- After a cancellation has looked for the registration, there is none. -/
def Swept (s : IoFuture) : Prop :=
  s.cancelled = true → (∀ j, s.cancels j ≠ .marked) →
    s.registration = none ∧ ∀ i reg, s.polls i ≠ .keep reg

/-- The helper has found the future cancelled. -/
def Helper.refuses : Helper → Bool
  | late _ | refused _ | released _ => true
  | _ => false

/-- After the helper has looked for the registration, there is none; it does not look when it has
found the future cancelled. -/
structure Woken (s : IoFuture) : Prop where
  past : s.helper.past = true → s.registration = none ∨ s.cancelled = true
  refuses : s.helper.refuses = true → s.cancelled = true

/-- The entry has left the registry by a cancellation, or by a poll that has had the result. -/
def Gone (s : IoFuture) : Prop :=
  s.registered = false →
    s.cancelled = true ∨ (∃ j, s.cancels j = .removed) ∨ s.helper.out = true

/-- A result without an entry is one that a cancellation is about to take. -/
def Handed (s : IoFuture) : Prop :=
  s.registered = false → (s.result ≠ none ∨ ∃ e, s.helper = .storing e) →
    ∃ j, (s.cancels j).before = true

/-- The order that the steps keep: a poll comes before the entry is removed, and no cancellation
looks for the registration while a first poll is about to store it. -/
def InOrder (s : IoFuture) : Action → Prop
  | .poll i _ => s.polls i = .idle → s.registered = true
  | .cancel j => s.cancels j = .marked → ∀ i reg, s.polls i ≠ .keep reg
  | .helper _ => True

theorem Swept.pollMove (h : Swept s) {i : Nat} (hmove : PollMove s i t) : Swept t := by
  have hpoll : ∀ {q : Poll}, (∀ reg, q ≠ .keep reg) → Swept (s.poll i q) := by
    intro q hq hcancelled hmarked
    refine ⟨(h hcancelled hmarked).1, fun k reg hk => ?_⟩
    rw [IoFuture.poll_polls] at hk
    by_cases hki : k = i
    · subst hki
      rw [update_self] at hk
      exact hq reg hk
    · rw [update_of_ne hki] at hk
      exact (h hcancelled hmarked).2 k reg hk
  cases hmove with
  | null => exact h
  | keep _ hcancelled =>
    intro htrue
    rw [show s.cancelled = true from htrue] at hcancelled
    cases hcancelled
  | kept hkeep =>
    intro hcancelled hmarked
    exact absurd hkeep ((h hcancelled hmarked).2 i _)
  | _ => exact hpoll nofun

theorem Swept.cancelMove (h : Swept s) {j : Nat}
    (hok : s.cancels j = .marked → ∀ i reg, s.polls i ≠ .keep reg) (hmove : CancelMove s j t) :
    Swept t := by
  have hcancel : ∀ {c : Cancel}, s.cancels j ≠ .marked → Swept (s.cancel j c) := by
    intro c hj hcancelled hmarked
    refine h hcancelled fun k hk => ?_
    have hkj : k ≠ j := fun heq => hj (heq ▸ hk)
    apply hmarked k
    rw [IoFuture.cancel_cancels, update_of_ne hkj]
    exact hk
  cases hmove with
  | gone => exact h
  | marked =>
    intro _ hmarked
    exact absurd (update_self j _ s.cancels) (hmarked j)
  | giveUp hj => exact fun _ _ => ⟨rfl, hok hj⟩
  | none hj hreg => exact fun _ _ => ⟨hreg, hok hj⟩
  | removed hj | deactivate hj | inactive hj | unlist hj | took hj | empty hj | discarded hj
  | done hj => exact hcancel (by rw [hj]; nofun)

theorem Swept.helperMove (h : Swept s) (hmove : HelperMove s t) : Swept t := by
  cases hmove with
  | waking => exact fun hcancelled hmarked => ⟨rfl, (h hcancelled hmarked).2⟩
  | _ => exact h

theorem Woken.pollMove (h : Woken s) (hstarts : Starts s) {i : Nat} (hmove : PollMove s i t) :
    Woken t := by
  cases hmove with
  | kept hpoll =>
    have hhelper : s.helper = .absent := hstarts.absent i (by rw [hpoll]; rfl)
    refine ⟨fun hpast => ?_, h.refuses⟩
    have hfalse : s.helper.past = true := hpast
    rw [hhelper] at hfalse
    cases hfalse
  | spawned => exact ⟨nofun, nofun⟩
  | _ => exact ⟨h.past, h.refuses⟩

theorem Woken.cancelMove (h : Woken s) {j : Nat} (hmove : CancelMove s j t) : Woken t := by
  cases hmove with
  | gone => exact h
  | marked => exact ⟨fun _ => .inr rfl, fun _ => rfl⟩
  | giveUp => exact ⟨fun _ => .inl rfl, h.refuses⟩
  | _ => exact ⟨h.past, h.refuses⟩

theorem Woken.helperMove (h : Woken s) (hmove : HelperMove s t) : Woken t := by
  cases hmove with
  | ran | building | rooted | locked | storing | stored => exact ⟨nofun, nofun⟩
  | late _ hcancelled | refused _ hcancelled => exact ⟨nofun, fun _ => hcancelled⟩
  | released hhelper => exact ⟨nofun, fun _ => h.refuses (by rw [hhelper]; rfl)⟩
  | dropped hhelper | unpinned hhelper =>
    exact ⟨fun _ => .inr (h.refuses (by rw [hhelper]; rfl)), nofun⟩
  | waking => exact ⟨fun _ => .inl rfl, nofun⟩
  | none _ hreg => exact ⟨fun _ => .inl hreg, nofun⟩
  | firing hhelper | stale hhelper | woke hhelper | inactive hhelper =>
    exact ⟨fun _ => h.past (by rw [hhelper]; rfl), nofun⟩

/-- The helper is through when a poll or a cancellation has the result. -/
theorem Helper.At.isOut {h : Helper} {p : Place} (hp : h.At p) (hout : p.Out) : h.out = true := by
  cases h with
  | stored | waking _ | firing _ | done => rfl
  | absent | running | completing _ | late _ | building _ | rooted _ | locked _ | refused _
  | storing _ | released _ =>
    subst hp
    exact hout.elim

theorem Gone.pollMove (h : Gone s) (hresult : ∃ p, ResultAt s p) (hstarts : Starts s) {i : Nat}
    (hmove : PollMove s i t) : Gone t := by
  cases hmove with
  | @removed e hpoll =>
    obtain ⟨p, hp⟩ := hresult
    obtain rfl := hp.atPoll (i := i) (e := e) (by rw [hpoll]; rfl)
    exact fun _ => .inr (.inr (hp.helper.isOut trivial))
  | spawned hpoll =>
    intro hregistered
    have hhelper : s.helper = .absent := hstarts.absent i (by rw [hpoll]; rfl)
    rcases h hregistered with hcancelled | hremoved | hout
    · exact .inl hcancelled
    · exact .inr (.inl hremoved)
    · rw [hhelper] at hout
      cases hout
  | _ => exact h

theorem Gone.cancelMove (h : Gone s) {j : Nat} (hmove : CancelMove s j t) : Gone t := by
  have hcancel : ∀ {c : Cancel}, s.cancels j ≠ .removed → Gone (s.cancel j c) := by
    intro c hj hregistered
    rcases h hregistered with hcancelled | ⟨k, hk⟩ | hout
    · exact .inl hcancelled
    · have hkj : k ≠ j := fun heq => hj (heq ▸ hk)
      refine .inr (.inl ⟨k, ?_⟩)
      rw [IoFuture.cancel_cancels, update_of_ne hkj]
      exact hk
    · exact .inr (.inr hout)
  cases hmove with
  | gone => exact h
  | removed => exact fun _ => .inr (.inl ⟨j, update_self j _ s.cancels⟩)
  | marked => exact fun _ => .inl rfl
  | giveUp hj | none hj | deactivate hj | inactive hj | unlist hj | took hj | empty hj
  | discarded hj | done hj => exact hcancel (by rw [hj]; nofun)

theorem Gone.helperMove (h : Gone s) (hmove : HelperMove s t) : Gone t := by
  have hkeep : (s.helper.out = true → t.helper.out = true) → t.registered = s.registered →
      t.cancelled = s.cancelled → t.cancels = s.cancels → Gone t := by
    intro hout hregistered hcancelled hcancels hfalse
    rw [hcancelled, hcancels]
    rcases h (hregistered ▸ hfalse) with hgone | hgone | hgone
    · exact .inl hgone
    · exact .inr (.inl hgone)
    · exact .inr (.inr (hout hgone))
  cases hmove with
  | ran hhelper | building hhelper | rooted hhelper | locked hhelper | storing hhelper
  | late hhelper | refused hhelper | released hhelper =>
    exact hkeep (fun hout => (by rw [hhelper] at hout; cases hout)) rfl rfl rfl
  | _ => exact hkeep (fun _ => rfl) rfl rfl rfl

theorem Handed.pollMove (h : Handed s) (hresult : ∃ p, ResultAt s p) {i : Nat}
    (hmove : PollMove s i t) : Handed t := by
  cases hmove with
  | took =>
    rintro hregistered (hsome | hstoring)
    · exact absurd rfl hsome
    · exact h hregistered (.inr hstoring)
  | @removed e hpoll =>
    obtain ⟨p, hp⟩ := hresult
    obtain rfl := hp.atPoll (i := i) (e := e) (by rw [hpoll]; rfl)
    rintro _ (hsome | ⟨e', hstoring⟩)
    · exact absurd hp.result hsome
    · have hat := hp.helper
      rw [show s.helper = .storing e' from hstoring] at hat
      cases hat
  | spawned =>
    rintro hregistered (hsome | ⟨e', hstoring⟩)
    · exact h hregistered (.inl hsome)
    · cases hstoring
  | _ => exact h

theorem Handed.cancelMove (h : Handed s) (hlocked : Locked s) {j : Nat}
    (hmove : CancelMove s j t) : Handed t := by
  have hbefore : ∀ {c : Cancel}, c.before = true → ∃ k, ((update s.cancels j c) k).before = true :=
    fun hc => ⟨j, by rw [update_self]; exact hc⟩
  have hafter : ∀ {c : Cancel}, (s.cancels j).before = false →
      (∃ k, (s.cancels k).before = true) → ∃ k, ((update s.cancels j c) k).before = true := by
    rintro c hj ⟨k, hk⟩
    have hkj : k ≠ j := fun heq => (by rw [heq, hj] at hk; cases hk)
    exact ⟨k, by rw [update_of_ne hkj]; exact hk⟩
  have hidle : s.resultHolder = none → ¬ ∃ e, s.helper = .storing e := by
    rintro hfree ⟨e, hstoring⟩
    have hlocks : s.helper.locks = true := by rw [hstoring]; rfl
    rw [hlocked .helper hlocks] at hfree
    cases hfree
  cases hmove with
  | gone => exact h
  | none | removed | marked | giveUp | deactivate | inactive | unlist =>
    exact fun _ _ => hbefore rfl
  | took _ _ hfree =>
    rintro _ (hsome | hstoring)
    · exact absurd rfl hsome
    · exact absurd hstoring (hidle hfree)
  | empty _ hresult hfree =>
    rintro _ (hsome | hstoring)
    · exact absurd hresult hsome
    · exact absurd hstoring (hidle hfree)
  | discarded hcancel | done hcancel =>
    exact fun hregistered hdue => hafter (by rw [hcancel]; rfl) (h hregistered hdue)

theorem Handed.helperMove (h : Handed s) (hgone : Gone s) (hmove : HelperMove s t) :
    Handed t := by
  cases hmove with
  | storing hhelper hcancelled =>
    intro hregistered _
    rcases hgone hregistered with htrue | ⟨k, hk⟩ | hout
    · rw [htrue] at hcancelled
      cases hcancelled
    · exact ⟨k, by rw [show s.cancels k = .removed from hk]; rfl⟩
    · rw [hhelper] at hout
      cases hout
  | stored hhelper => exact fun hregistered _ => h hregistered (.inr ⟨_, hhelper⟩)
  | _ =>
    rintro hregistered (hsome | ⟨e, hstoring⟩)
    · exact h hregistered (.inl hsome)
    · cases hstoring

/-! ## Runs -/

/-- What holds in every state of a run in order. -/
structure Inv (s : IoFuture) : Prop where
  result : ∃ p, ResultAt s p
  registration : ∃ p, RegAt s p
  starts : Starts s
  locked : Locked s
  swept : Swept s
  woken : Woken s
  gone : Gone s
  handed : Handed s

theorem Initial.inv (h : Initial s) : Inv s := by
  obtain ⟨op, rfl⟩ := h
  refine ⟨⟨.unmade, ?_⟩, ⟨.unmade, ?_⟩, ?_, ?_, nofun, ⟨nofun, nofun⟩, nofun, nofun⟩
  · exact ⟨rfl, fun _ => rfl, fun _ => rfl, rfl, rfl, nofun, rfl, rfl, rfl, rfl⟩
  · have hnone : ∀ r : Nat, false = true ↔ (none : Option Nat) = some r := fun r => by simp
    exact ⟨fun _ => rfl, fun _ => rfl, rfl, rfl, hnone, hnone, ⟨Nat.zero_le 1, .inr rfl⟩,
      fun _ => rfl⟩
  · exact ⟨nofun, nofun, nofun, fun _ => rfl⟩
  · intro x hx
    cases x with
    | helper => cases hx
    | poll i => exact absurd rfl hx
    | cancel j => exact absurd rfl hx

theorem Inv.step {a : Action} (h : Inv s) (hok : InOrder s a) (hstep : step s a = some t) :
    Inv t := by
  obtain ⟨p, hp⟩ := h.result
  obtain ⟨r, hr⟩ := h.registration
  cases a with
  | poll i spawns =>
    have hmove := pollStep_moves (show pollStep s i spawns = some t from hstep)
    have hkept : s.polls i = .kept → s.helper = .absent :=
      fun hpoll => h.starts.absent i (by rw [hpoll]; rfl)
    exact ⟨hp.pollMove hok hkept hmove, hr.pollMove h.starts hmove, h.starts.pollMove hmove,
      h.locked.pollMove hmove, h.swept.pollMove hmove, h.woken.pollMove h.starts hmove,
      h.gone.pollMove h.result h.starts hmove, h.handed.pollMove h.result hmove⟩
  | cancel j =>
    have hmove := cancelStep_moves (show cancelStep s j = some t from hstep)
    exact ⟨hp.cancelMove hmove, hr.cancelMove hmove, h.starts.cancelMove hmove,
      h.locked.cancelMove hmove, h.swept.cancelMove hok hmove, h.woken.cancelMove hmove,
      h.gone.cancelMove hmove, h.handed.cancelMove h.locked hmove⟩
  | helper o =>
    have hmove := helperStep_moves (show helperStep s o = some t from hstep)
    exact ⟨hp.helperMove hmove, hr.helperMove hmove, h.starts.helperMove hmove,
      h.locked.helperMove hmove, h.swept.helperMove hmove, h.woken.helperMove hmove,
      h.gone.helperMove hmove, h.handed.helperMove h.gone hmove⟩

/-! ## Exactly once -/

/-- The future is resolved or cancelled, and no thread is in one of its functions. -/
structure Quiet (s : IoFuture) : Prop where
  gone : s.registered = false
  polls : ∀ i, s.polls i = .idle
  cancels : ∀ j, s.cancels j = .idle
  helper : s.helper = .absent ∨ s.helper = .done

/-- The future completes or is cancelled once. What is owed is settled when no thread is in one of
its functions; of the waiters, when the helper and the cancellations are through. -/
structure ExactlyOnce (s : IoFuture) : Prop where
  ready : ∀ r ∈ s.readies, ∃ o, s.outcome = some o ∧ r = some (s.op.encode o)
  pins : s.pinned ≤ 1 ∧ s.unpinned ≤ s.pinned
  handle : ∀ o handle, s.outcome = some o → s.op.handle o = some handle →
    s.readies.length + s.released.length ≤ 1 ∧ ∀ r ∈ s.released, r = (handle : Int)
  released : ∀ r ∈ s.released, ∃ o handle, s.outcome = some o ∧ s.op.handle o = some handle ∧
    r = (handle : Int)
  wakes : s.wakes ≤ 1
  unpinned : Quiet s → s.unpinned = s.pinned
  settled : Quiet s → ∀ o handle, s.outcome = some o → s.op.handle o = some handle →
    s.readies.length + s.released.length = 1
  unlisted : s.registered = false → (∀ j, s.cancels j = .idle) →
    (s.helper = .done ∨ s.helper = .absent ∧ ∀ i, s.polls i = .idle) →
      ∀ reg, s.waiters reg = false

/-- What the discard of the result has released. -/
theorem ResultAt.discard {p : Place} (h : ResultAt s p) {e : String} (he : p.text = some e) :
    ∃ o, s.outcome = some o ∧ s.op.encode o = e ∧
      s.op.discard e = (s.op.handle o).map Int.ofNat := by
  have houtcome := h.outcome
  rw [he] at houtcome
  obtain ⟨o, ho, rfl⟩ := Option.map_eq_some_iff.mp houtcome
  exact ⟨o, ho, rfl, discard_encode (h.ends o ho)⟩

theorem Place.released_of_text (op : IoOp) (p : Place) :
    p.released op = [] ∨ ∃ e, p.text = some e ∧ p.released op = (op.discard e).toList ∧
      p.readies = [] := by
  cases p with
  | refused e | discarded _ e | dropped e | late e => exact .inr ⟨e, rfl, rfl, rfl⟩
  | _ => exact .inl rfl

theorem Inv.released (h : Inv s) {r : Int} (hr : r ∈ s.released) :
    s.readies = [] ∧ s.released = [r] ∧
      ∃ o handle, s.outcome = some o ∧ s.op.handle o = some handle ∧ r = (handle : Int) := by
  obtain ⟨p, hp⟩ := h.result
  rcases p.released_of_text s.op with hnone | ⟨e, he, hreleased, hreadies⟩
  · rw [hp.released, hnone] at hr
    cases hr
  · obtain ⟨o, ho, _, hdiscard⟩ := hp.discard he
    rw [hp.released, hreleased, hdiscard] at hr ⊢
    obtain ⟨handle, hhandle, rfl⟩ := Option.map_eq_some_iff.mp (Option.mem_toList.mp hr)
    refine ⟨hp.readies.trans hreadies, ?_, o, handle, ho, hhandle, rfl⟩
    rw [hhandle]
    rfl

theorem Inv.ready (h : Inv s) {r : Option String} (hr : r ∈ s.readies) :
    s.readies = [r] ∧ ∃ o, s.outcome = some o ∧ r = some (s.op.encode o) := by
  obtain ⟨p, hp⟩ := h.result
  rw [hp.readies] at hr ⊢
  cases p with
  | delivered e =>
    obtain rfl := List.mem_singleton.mp hr
    obtain ⟨o, ho, hencode, _⟩ := hp.discard (e := e) rfl
    exact ⟨rfl, o, ho, by rw [hencode]⟩
  | _ => cases hr

theorem Inv.atMostOnce (h : Inv s) : s.readies.length + s.released.length ≤ 1 := by
  rcases hreleased : s.released with _ | ⟨r, rs⟩
  · rcases hreadies : s.readies with _ | ⟨r, rs⟩
    · simp
    · have hone := (h.ready (r := r) (by rw [hreadies]; exact List.mem_cons_self)).1
      rw [hreadies] at hone
      rw [hone]
      simp
  · obtain ⟨hnone, hone, _⟩ := h.released (r := r) (by rw [hreleased]; exact List.mem_cons_self)
    rw [hreleased] at hone
    rw [hnone, hone]
    simp

/-- Where the result is when all is quiet. -/
theorem Inv.quiet (h : Inv s) (hquiet : Quiet s) {p : Place} (hp : ResultAt s p) :
    p = .unmade ∨ ∃ e, p = .delivered e ∨ p = .dropped e ∨ p = .late e := by
  have hhelper := hp.helper
  cases p with
  | unmade => exact .inl rfl
  | delivered e => exact .inr ⟨e, .inl rfl⟩
  | dropped e => exact .inr ⟨e, .inr (.inl rfl)⟩
  | late e => exact .inr ⟨e, .inr (.inr rfl)⟩
  | made | rooted | refused =>
    rcases hquiet.helper with hend | hend <;> rw [hend] at hhelper <;> cases hhelper
  | slot e =>
    have hsome : s.result ≠ none := by rw [hp.result]; nofun
    obtain ⟨j, hj⟩ := h.handed hquiet.gone (.inl hsome)
    rw [hquiet.cancels] at hj
    cases hj
  | poll i e =>
    have hi := hp.polls i
    rw [hquiet.polls] at hi
    simp [Place.pollText, Poll.text] at hi
  | cancel j e | discarded j e =>
    have hj := hp.cancels j
    rw [hquiet.cancels] at hj
    simp [Place.cancelText, Cancel.text] at hj

theorem Inv.unlisted (h : Inv s) (hgone : s.registered = false)
    (hcancels : ∀ j, s.cancels j = .idle)
    (hhelper : s.helper = .done ∨ s.helper = .absent ∧ ∀ i, s.polls i = .idle) (reg : Nat) :
    s.waiters reg = false := by
  obtain ⟨r, hr⟩ := h.registration
  have hpolls : ∀ i, (s.polls i).reg = none := by
    intro i
    rcases hhelper with hdone | ⟨_, hidle⟩
    · cases hpoll : (s.polls i).reg with
      | none => rfl
      | some x =>
        have hstarting : (s.polls i).starting = true := by
          cases hi : s.polls i <;> rw [hi] at hpoll <;> first | rfl | cases hpoll
        rw [h.starts.absent i hstarting] at hdone
        cases hdone
    · rw [hidle]
      rfl
  have hnone : r.waiter = none := by
    cases r with
    | unmade | firing | gone => rfl
    | poll i k | pollGone i k =>
      have hi := hr.polls i
      rw [hpolls] at hi
      simp [RegPlace.pollReg] at hi
    | cancel j k | cancelGone j k =>
      have hj := hr.cancels j
      rw [hcancels] at hj
      simp [RegPlace.cancelReg, Cancel.reg] at hj
    | waking k =>
      have hreg := hr.helper
      rcases hhelper with hend | ⟨hend, _⟩ <;> rw [hend] at hreg <;> cases hreg
    | slot k =>
      have hslot : s.registration ≠ none := by
        rw [hr.slot]
        exact Option.some_ne_none _
      have hcancelled : s.cancelled = true := by
        rcases h.gone hgone with hcancelled | ⟨j, hj⟩ | hout
        · exact hcancelled
        · rw [hcancels] at hj
          cases hj
        · rcases hhelper with hend | ⟨hend, _⟩
          · exact (h.woken.past (by rw [hend]; rfl)).resolve_left hslot
          · rw [hend] at hout
            cases hout
      have hmarked : ∀ j, s.cancels j ≠ .marked := by
        intro j hj
        rw [hcancels] at hj
        cases hj
      exact absurd (h.swept hcancelled hmarked).1 hslot
  refine Bool.eq_false_iff.mpr fun hwaiter => ?_
  rw [hr.waiters, hnone] at hwaiter
  cases hwaiter

theorem Inv.exactlyOnce (h : Inv s) : ExactlyOnce s := by
  obtain ⟨p, hp⟩ := h.result
  refine ⟨fun r hr => (h.ready hr).2, ?_, fun o handle ho hhandle => ⟨h.atMostOnce, fun r hr => ?_⟩,
    fun r hr => (h.released hr).2.2, ?_, fun hquiet => ?_, fun hquiet o handle ho hhandle => ?_,
    h.unlisted⟩
  · rw [hp.pinned, hp.unpinned]
    cases p <;> simp [Place.pinned, Place.unpinned]
  · obtain ⟨o', handle', ho', hhandle', rfl⟩ := (h.released hr).2.2
    obtain rfl := Option.some.inj (ho.symm.trans ho')
    rw [Option.some.inj (hhandle.symm.trans hhandle')]
  · obtain ⟨r, hr⟩ := h.registration
    exact hr.wakes.1
  · rw [hp.pinned, hp.unpinned]
    rcases h.quiet hquiet hp with rfl | ⟨e, rfl | rfl | rfl⟩ <;> rfl
  · rcases h.quiet hquiet hp with rfl | ⟨e, hend⟩
    · have hnone := hp.outcome
      rw [ho] at hnone
      cases hnone
    · have he : p.text = some e := by rcases hend with rfl | rfl | rfl <;> rfl
      obtain ⟨o', ho', _, hdiscard⟩ := hp.discard he
      obtain rfl := Option.some.inj (ho.symm.trans ho')
      rw [hhandle] at hdiscard
      rw [hp.readies, hp.released]
      rcases hend with rfl | rfl | rfl <;> simp [Place.readies, Place.released, hdiscard]

/-- In every run in order, an IO future completes or is cancelled once. -/
theorem an_io_future_ends_once_while_steps_are_in_order
    (h : Reaches step Initial InOrder s) : ExactlyOnce s := by
  have hinv : Inv s := h.invariant (fun _ h0 => h0.inv) fun _ _ _ hi hok hstep => hi.step hok hstep
  exact hinv.exactlyOnce

/-- A test of the order, for runs in which no cancellation looks for the registration. -/
def inOrder (s : IoFuture) : Action → Bool
  | .poll i _ => s.polls i != .idle || s.registered
  | .cancel j => s.cancels j != .marked
  | .helper _ => true

theorem inOrder_sound (s : IoFuture) (a : Action) (h : inOrder s a = true) : InOrder s a := by
  cases a with
  | poll i spawns =>
    intro hidle
    simpa [inOrder, hidle] using h
  | cancel j =>
    intro hmarked
    simp [inOrder, hmarked] at h
  | helper o => trivial

/-- The operations of a first poll that starts the helper. -/
def firstPoll : List Action := List.replicate 7 (.poll 0 true)

/-- A file is opened: the future is polled, the helper completes it, and a second poll takes the
result with the handle 7. -/
def opening : List Action :=
  firstPoll ++ List.replicate 9 (Action.helper (.opened 7 "")) ++
    List.replicate 4 (Action.poll 0 true)

/-- The handle is delivered once, and the waker is called once. -/
theorem an_opened_file_is_delivered_once :
    ∃ s, run (fun s a => if inOrder s a then step s a else none) (langIoFuture .fsFileOpen) opening
        = some s ∧ s.readies = [some "07"] ∧ s.released = [] ∧ s.pinned = 1 ∧ s.unpinned = 1 ∧
      s.wakes = 1 ∧ ExactlyOnce s := by
  have htest : (run (fun s a => if inOrder s a then step s a else none) (langIoFuture .fsFileOpen)
      opening).any (fun s => s.readies = [some "07"] ∧ s.released = [] ∧ s.pinned = 1 ∧
        s.unpinned = 1 ∧ s.wakes = 1) = true := by
    decide
  obtain ⟨s, hs, htest⟩ := (Option.any_eq_true _ _).mp htest
  obtain ⟨hreadies, hreleased, hpinned, hunpinned, hwakes⟩ := of_decide_eq_true htest
  have hreach : Reaches step Initial InOrder s :=
    (Reaches.start ⟨.fsFileOpen, rfl⟩).of_tested_run inOrder_sound hs
  exact ⟨s, hs, hreadies, hreleased, hpinned, hunpinned, hwakes,
    an_io_future_ends_once_while_steps_are_in_order hreach⟩

/-- A cancellation comes between the check of a first poll and its store, and the helper ends. -/
def leaking : List Action :=
  List.replicate 5 (Action.poll 0 true) ++ List.replicate 4 (Action.cancel 0) ++
    List.replicate 2 (Action.poll 0 true) ++ List.replicate 3 (Action.helper (.opened 7 ""))

/-- A future is polled after it is cancelled. -/
def polledLate : List Action := List.replicate 4 (Action.cancel 0) ++ [Action.poll 0 true]

/-- The waiter of a cancelled future stays in the table after its helper, and a poll of a cancelled
future returns a null pointer as `Ready`. -/
theorem a_waiter_stays_and_a_null_is_ready :
    (∃ s, run step (langIoFuture .fsFileOpen) leaking = some s ∧ s.registered = false ∧
      (∀ j, s.cancels j = .idle) ∧ s.helper = .done ∧ s.waiters 1 = true) ∧
    (∃ s, run step (langIoFuture .fsFileOpen) polledLate = some s ∧ s.readies = [none]) ∧
    ¬ ∀ s, Reachable step Initial s → ExactlyOnce s := by
  have hleak : ∃ s, run step (langIoFuture .fsFileOpen) leaking = some s ∧ s.registered = false ∧
      (∀ j, s.cancels j = .idle) ∧ s.helper = .done ∧ s.waiters 1 = true := by
    refine ⟨_, rfl, rfl, fun j => ?_, rfl, rfl⟩
    cases j <;> rfl
  refine ⟨hleak, ⟨_, rfl, rfl⟩, fun h => ?_⟩
  obtain ⟨s, hs, hgone, hcancels, hhelper, hwaiter⟩ := hleak
  have hreach : Reachable step Initial s := .of_run (.start ⟨.fsFileOpen, rfl⟩) hs
  rw [(h s hreach).unlisted hgone hcancels (.inl hhelper)] at hwaiter
  cases hwaiter

end runtime.io
