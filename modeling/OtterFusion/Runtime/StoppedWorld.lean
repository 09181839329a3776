-- The world is stopped while a collector marks and sweeps: one thread collects, no other runs
-- past its gate, and what a stopped thread has published is what it took when it stopped.
import Mathlib.Tactic.ByContra
import OtterFusion.Base.Mutex
import OtterFusion.Runtime.WorldBarrier

open base.runs base.mutex Function

namespace runtime.barrier

/-! ## What a point says -/

/-- The gate at which a thread stays. -/
def Point.gate : Point → Option Gate
  | .blocked gate | .resumeLock gate | .resumeTest gate | .resumeWait gate | .asleep gate
  | .test gate | .lock gate | .retest gate | .drop gate | .enter gate => some gate
  | _ => none

/-- What the mutator's state is at a point. -/
def Point.state (p : Point) : MutatorState := (p.gate.map Gate.state).getD .running

/-- `MUTATORS` has the mutator. -/
def Point.registered : Point → Prop
  | .absent | .gone => False
  | _ => True

/-- The thread is RUNNING, and past its gate: not a new one ahead of `thread_start`. -/
def Point.pastGate : Point → Prop
  | .absent | .gone | .store .start => False
  | p => p.gate = none

def Point.holdsWorld : Point → Prop
  | .retest _ | .drop _ | .enter _ | .leave _ | .setStop | .quiesce | .checking _ | .scan
  | .gather _ | .gathering _ _ | .collecting _ | .clearStop _ | .notify | .dropWorld => True
  | _ => False

def Point.holdsResumeGen : Point → Prop
  | .resumeTest _ | .resumeWait _ => True
  | _ => False

/-- The thread is a collector: from its turn to the end of the barrier. -/
def Point.collects : Point → Prop
  | .threshold | .lockWorld | .setStop | .quiesce | .checking _ | .scan | .gather _
  | .gathering _ _ | .collecting _ | .clearStop _ | .notify | .dropWorld => True
  | _ => False

/-- The mutators of which a collector has not seen yet that they are stopped. -/
def Point.unchecked : Point → Option (List Nat)
  | .checking rest => some rest
  | .scan | .gather _ | .gathering _ _ | .collecting _ | .clearStop _ => some []
  | _ => none

/-- The roots that a collector has so far, with the mutators whose roots it has still to add. -/
def Point.roots (mutators : List Nat) : Point → Option (List Nat × List Nat)
  | .gather roots => some (mutators, roots)
  | .gathering rest roots => some (rest, roots)
  | .collecting roots | .clearStop roots => some ([], roots)
  | _ => none

/-- What a scan of the stack finds, for the gates that scan it. -/
def Gate.found (frames : List Nat) : Gate → List Nat
  | .park _ | .native _ => frames
  | .idle | .start => []

/-- The gate that a thread is on its way into, or stays at. -/
def Point.bound : Point → Option Gate
  | .publish gate | .store gate => some gate
  | p => p.gate

/-- The roots taken are those of the stack as it is, and they are published before the thread
stops. -/
def Thread.Taken (th : Thread) : Prop :=
  (∀ g, th.point.bound = some g → g.taken = g.found th.frames) ∧
    ∀ g, th.point = .store g ∨ th.point.gate = some g → th.roots = g.taken

attribute [local simp] Point.gate Point.state Point.registered Point.pastGate Point.holdsWorld
  Point.holdsResumeGen Point.collects Point.unchecked Point.roots Point.bound Gate.found
  Thread.Taken

/-! ## Gates -/

/-- Nobody is RUNNING at a gate. -/
theorem gate_state_ne (g : Gate) : g.state ≠ .running := by cases g <;> exact nofun

theorem registered_of_pastGate {p : Point} (h : p.pastGate) : p.registered := by
  cases p <;> trivial

theorem running_of_pastGate {p : Point} (h : p.pastGate) : p.state = .running := by
  cases p <;> simp_all [Point.pastGate, Point.state, Point.gate]

theorem bound_of_gate {p : Point} {g : Gate} (h : p.gate = some g) : p.bound = some g := by
  cases p <;> simp_all [Point.gate, Point.bound]

/-- A registered thread that is RUNNING is past its gate, or a new one. -/
theorem pastGate_of_running {p : Point} (hr : p.registered) (hs : p.state = .running)
    (hp : p ≠ .store .start) : p.pastGate := by
  cases hg : p.gate with
  | some g =>
    unfold Point.state at hs
    rw [hg] at hs
    exact absurd hs (gate_state_ne g)
  | none => cases p <;> simp_all [Point.pastGate, Point.registered, Point.gate]

/-! ## What a move does -/

section moves

variable {w : Barrier} {i : Nat} {s : Statics} {th : Thread}

theorem Moved.state (h : Moved w i s th)
    (hs : (w.threads i).state = (w.threads i).point.state) : th.state = th.point.state := by
  cases h with
  | store g | drop g => cases g <;> simp_all [Gate.stopped, Gate.again, Point.state, Point.gate]
  | _ => simp_all [Point.state, Point.gate]

theorem Moved.member_of_ne (h : Moved w i s th) {k : Nat} (hk : k ≠ i) :
    k ∈ s.mutators ↔ k ∈ w.statics.mutators := by
  cases h <;> simp [hk]

theorem Moved.member (h : Moved w i s th)
    (hm : ∀ k, k ∈ w.statics.mutators ↔ (w.threads k).point.registered) (k : Nat) :
    k ∈ s.mutators ↔ (update w.threads i th k).point.registered := by
  by_cases hk : k = i
  · subst hk
    rw [update_self]
    cases h with
    | store g | drop g =>
      cases g <;> simp_all [Gate.stopped, Gate.again, Point.registered]
    | _ => simp_all [Point.registered]
  · rw [update_of_ne hk, h.member_of_ne hk, hm k]

theorem Moved.world (h : Moved w i s th) :
    Handed i (w.threads i).point.holdsWorld th.point.holdsWorld w.statics.world s.world := by
  cases h with
  | store g | drop g =>
    cases g <;> simp_all [Handed, Gate.stopped, Gate.again, Point.holdsWorld]
  | _ => simp_all [Handed, Point.holdsWorld]

theorem Moved.resumeGen (h : Moved w i s th) :
    Handed i (w.threads i).point.holdsResumeGen th.point.holdsResumeGen w.statics.resumeGen
      s.resumeGen := by
  cases h with
  | store g | drop g =>
    cases g <;> simp_all [Handed, Gate.stopped, Gate.again, Point.holdsResumeGen]
  | _ => simp_all [Handed, Point.holdsResumeGen]

theorem Moved.turn (h : Moved w i s th) :
    Handed i (w.threads i).point.collects th.point.collects w.statics.gcTurn s.gcTurn := by
  cases h with
  | store g | drop g =>
    cases g <;> simp_all [Handed, Gate.stopped, Gate.again, Point.collects]
  | _ => simp_all [Handed, Point.collects]

/-- Only the holder of `WORLD` gets past its gate. -/
theorem Moved.pastGate (h : Moved w i s th) (hp : th.point.pastGate) :
    (w.threads i).point.pastGate ∨ (w.threads i).point.holdsWorld := by
  cases h with
  | store g | drop g =>
    cases g <;> simp_all [Gate.stopped, Gate.again, Point.pastGate, Point.gate]
  | publish g => cases g <;> simp_all [Point.pastGate, Point.gate]
  | _ => simp_all [Point.pastGate, Point.gate, Point.holdsWorld]

/-- What a collector has still to check: all mutators at first, then one less when the state it
loads is not RUNNING. -/
theorem Moved.unchecked (h : Moved w i s th) {rest : List Nat}
    (hr : th.point.unchecked = some rest) :
    rest = w.statics.mutators ∨ (w.threads i).point.unchecked = some rest ∨
      ∃ k, (w.threads i).point.unchecked = some (k :: rest) ∧
        ¬ (k ≠ i ∧ w.stateOf k = .running) := by
  cases h with
  | store g | drop g => cases g <;> simp [Gate.stopped, Gate.again, Point.unchecked] at hr
  | checked k rest' hp hk =>
    cases hr
    exact .inr (.inr ⟨k, by simp [hp, Point.unchecked], hk⟩)
  | _ => simp_all [Point.unchecked]

/-- What a collector has gathered: its own roots at first, then those of one mutator more. -/
theorem Moved.roots (h : Moved w i s th) {rest acc : List Nat}
    (hr : th.point.roots s.mutators = some (rest, acc)) :
    (rest = s.mutators ∧ acc = (w.threads i).frames) ∨
      (w.threads i).point.roots w.statics.mutators = some (rest, acc) ∨
      ∃ k acc', (w.threads i).point.roots w.statics.mutators = some (k :: rest, acc') ∧
        (k = i ∧ acc = acc' ∨ acc = acc' ++ (w.threads k).roots) := by
  cases h with
  | store g | drop g => cases g <;> simp [Gate.stopped, Gate.again, Point.roots] at hr
  | passOver k rest' acc' hp hk =>
    cases hr
    exact .inr (.inr ⟨k, acc, by simp [hp, Point.roots], .inl ⟨hk, rfl⟩⟩)
  | extend k rest' acc' hp hk =>
    cases hr
    exact .inr (.inr ⟨k, acc', by simp [hp, Point.roots], .inr rfl⟩)
  | _ => simp_all [Point.roots]

/-- Only a thread that is RUNNING publishes roots; a new one has none. -/
theorem Moved.published (h : Moved w i s th) :
    th.roots = [] ∨ (w.threads i).point.pastGate ∨
      th.roots = (w.threads i).roots ∧ (i ∈ s.mutators → i ∈ w.statics.mutators) := by
  cases h <;> simp_all [Point.pastGate, Point.gate]

/-- Only code that takes no part in the barrier changes the stack. -/
theorem Moved.frames (h : Moved w i s th) :
    th.frames = (w.threads i).frames ∨ (w.threads i).point = .running ∧ th.point = .running := by
  cases h <;> simp_all

theorem Moved.taken (h : Moved w i s th) (ht : (w.threads i).Taken) : th.Taken := by
  obtain ⟨hfound, hroots⟩ := ht
  cases h with
  | store g | drop g =>
    cases g <;> simp_all [Thread.Taken, Gate.stopped, Gate.again, Point.bound, Point.gate]
  | _ => simp_all [Thread.Taken, Point.bound, Point.gate, Gate.found, Gate.taken]

end moves

/-! ## The invariant -/

/-- What holds between any two steps: a state is that of its point, `MUTATORS` has who is
registered, the locks keep the points behind them apart, and what a collector has seen stopped
stays stopped, with the roots that it then adds. -/
structure Inv (w : Barrier) : Prop where
  state : ∀ k, (w.threads k).state = (w.threads k).point.state
  member : ∀ k, k ∈ w.statics.mutators ↔ (w.threads k).point.registered
  world : Guarded (fun k => (w.threads k).point.holdsWorld) w.statics.world
  turn : Guarded (fun k => (w.threads k).point.collects) w.statics.gcTurn
  taken : ∀ k, (w.threads k).Taken
  unchecked : ∀ i rest, (w.threads i).point.unchecked = some rest →
    ∀ k, k ≠ i → (w.threads k).point.pastGate → k ∈ rest
  gathered : ∀ i rest acc, (w.threads i).point.roots w.statics.mutators = some (rest, acc) →
    (w.threads i).frames ⊆ acc ∧
      ∀ k ∈ w.statics.mutators, k ≠ i → k ∈ rest ∨ (w.threads k).roots ⊆ acc

/-- At first the mutators run, every lock is free and nobody waits. -/
structure Initial (w : Barrier) : Prop where
  point : ∀ k, (w.threads k).point = if k ∈ w.statics.mutators then .running else .absent
  state : ∀ k, (w.threads k).state = .running
  statics : w.statics =
    { mutators := w.statics.mutators, mutatorsLock := none, resumeGen := none, sleepers := []
      stop := false, gcTurn := none, world := none }

theorem holdsWorld_of_unchecked {p : Point} {rest : List Nat} (h : p.unchecked = some rest) :
    p.holdsWorld := by
  cases p <;> simp_all [Point.unchecked, Point.holdsWorld]

theorem unchecked_of_roots {p : Point} {mutators rest acc : List Nat}
    (h : p.roots mutators = some (rest, acc)) : p.unchecked = some [] := by
  cases p <;> simp_all [Point.roots, Point.unchecked]

/-- Ahead of its lock of `MUTATORS` a collector has still to add the roots of them all; after it,
those of a list of its own. -/
theorem roots_of_roots {p : Point} {mutators rest acc : List Nat}
    (h : p.roots mutators = some (rest, acc)) (mutators' : List Nat) :
    ∃ rest', p.roots mutators' = some (rest', acc) ∧ (rest = mutators ∨ rest = rest') := by
  cases p <;> simp_all [Point.roots]

theorem Initial.inv {w : Barrier} (h : Initial w) : Inv w := by
  have hout : ∀ k, (w.threads k).point = .running ∨ (w.threads k).point = .absent := by
    intro k
    rw [h.point k]
    split
    · exact .inl rfl
    · exact .inr rfl
  constructor
  case state =>
    intro k
    rw [h.state k]
    rcases hout k with hk | hk <;> rw [hk] <;> rfl
  case member =>
    intro k
    rw [h.point k]
    split <;> simp_all [Point.registered]
  case world =>
    apply Guarded.free
    intro k
    rcases hout k with hk | hk <;> rw [hk] <;> exact id
  case turn =>
    apply Guarded.free
    intro k
    rcases hout k with hk | hk <;> rw [hk] <;> exact id
  case taken =>
    intro k
    rcases hout k with hk | hk <;> simp [Thread.Taken, hk, Point.bound, Point.gate]
  case unchecked =>
    intro i rest hr
    rcases hout i with hk | hk <;> simp [hk, Point.unchecked] at hr
  case gathered =>
    intro i rest acc hr
    rcases hout i with hk | hk <;> simp [hk, Point.roots] at hr

section keeps

variable {w : Barrier} {i : Nat} {s : Statics} {th : Thread}

/-- A lock that the move of one thread hands as it should keeps its holder. -/
theorem Moved.guarded {holds : Point → Prop} {o o' : Option Nat}
    (h : Guarded (fun k => holds (w.threads k).point) o)
    (hmove : Handed i (holds (w.threads i).point) (holds th.point) o o') :
    Guarded (fun k => holds (update w.threads i th k).point) o' := by
  apply h.handed (t := i)
  · intro k hk
    simp [update_of_ne hk]
  · simpa using hmove

theorem Moved.keeps_unchecked (h : Moved w i s th) (hw : Inv w) (j : Nat) (rest : List Nat)
    (hr : (update w.threads i th j).point.unchecked = some rest) (k : Nat) (hk : k ≠ j)
    (hp : (update w.threads i th k).point.pastGate) : k ∈ rest := by
  by_cases hj : j = i
  · subst hj
    rw [update_self] at hr
    rw [update_of_ne hk] at hp
    obtain rfl | hold | ⟨m, hold, hm⟩ := h.unchecked hr
    · rw [hw.member k]
      exact registered_of_pastGate hp
    · exact hw.unchecked j rest hold k hk hp
    · have hmem := hw.unchecked j (m :: rest) hold k hk hp
      rcases List.mem_cons.mp hmem with rfl | hmem
      · have hs := (hw.state k).trans (running_of_pastGate hp)
        exact absurd ⟨hk, hs⟩ hm
      · exact hmem
  · rw [update_of_ne hj] at hr
    by_cases hki : k = i
    · subst hki
      rw [update_self] at hp
      rcases h.pastGate hp with hold | hold
      · exact hw.unchecked j rest hr k hk hold
      · exact absurd (hw.world.exclusive hold (holdsWorld_of_unchecked hr)) hk
    · rw [update_of_ne hki] at hp
      exact hw.unchecked j rest hr k hk hp

theorem Moved.keeps_gathered (h : Moved w i s th) (hw : Inv w) (j : Nat) (rest acc : List Nat)
    (hr : (update w.threads i th j).point.roots s.mutators = some (rest, acc)) :
    (update w.threads i th j).frames ⊆ acc ∧
      ∀ k ∈ s.mutators, k ≠ j → k ∈ rest ∨ (update w.threads i th k).roots ⊆ acc := by
  by_cases hj : j = i
  · subst hj
    rw [update_self] at hr ⊢
    have hframes : th.frames = (w.threads j).frames := by
      rcases h.frames with hf | ⟨-, hp⟩
      · exact hf
      · simp [hp, Point.roots] at hr
    rw [hframes]
    obtain ⟨rfl, rfl⟩ | hold | ⟨m, acc', hold, hm⟩ := h.roots hr
    · exact ⟨List.Subset.refl _, fun k hk _ => .inl hk⟩
    · obtain ⟨hown, hothers⟩ := hw.gathered j rest acc hold
      refine ⟨hown, fun k hk hkj => ?_⟩
      rw [update_of_ne hkj]
      exact hothers k ((h.member_of_ne hkj).mp hk) hkj
    · obtain ⟨hown, hothers⟩ := hw.gathered j (m :: rest) acc' hold
      have hmore : acc' ⊆ acc := by
        rcases hm with ⟨-, rfl⟩ | rfl
        · exact List.Subset.refl _
        · exact List.subset_append_left _ _
      refine ⟨fun x hx => hmore (hown hx), fun k hk hkj => ?_⟩
      rw [update_of_ne hkj]
      rcases hothers k ((h.member_of_ne hkj).mp hk) hkj with hmem | hsub
      · rcases List.mem_cons.mp hmem with rfl | hmem
        · right
          rcases hm with ⟨rfl, -⟩ | rfl
          · exact absurd rfl hkj
          · exact List.subset_append_right _ _
        · exact .inl hmem
      · exact .inr fun x hx => hmore (hsub hx)
  · rw [update_of_ne hj] at hr ⊢
    obtain ⟨rest', hold, hrest⟩ := roots_of_roots hr w.statics.mutators
    obtain ⟨hown, hothers⟩ := hw.gathered j rest' acc hold
    refine ⟨hown, fun k hk hkj => ?_⟩
    rcases hrest with rfl | rfl
    · exact .inl hk
    · by_cases hki : k = i
      · subst hki
        rw [update_self]
        rcases h.published with hnil | hpast | ⟨hsame, hmem⟩
        · rw [hnil]
          exact .inr (List.nil_subset _)
        · have hnone := hw.unchecked j [] (unchecked_of_roots hold) k hkj hpast
          cases hnone
        · rw [hsame]
          exact hothers k (hmem hk) hkj
      · rw [update_of_ne hki]
        exact hothers k ((h.member_of_ne hki).mp hk) hkj

theorem Moved.inv (h : Moved w i s th) (hw : Inv w) :
    Inv { statics := s, threads := update w.threads i th } where
  state k := by
    by_cases hk : k = i
    · subst hk
      simpa using h.state (hw.state k)
    · simpa [update_of_ne hk] using hw.state k
  member := h.member hw.member
  world := Moved.guarded hw.world h.world
  turn := Moved.guarded hw.turn h.turn
  taken k := by
    by_cases hk : k = i
    · subst hk
      simpa using h.taken (hw.taken k)
    · simpa [update_of_ne hk] using hw.taken k
  unchecked := h.keeps_unchecked hw
  gathered := h.keeps_gathered hw

end keeps

theorem inv_step {w t : Barrier} {l : Nat × Act} (hw : Inv w) (h : step w l = some t) : Inv t := by
  obtain ⟨s, th, hmove, rfl⟩ := moved_of_step h
  exact hmove.inv hw

theorem inv_reachable {w : Barrier} (h : Reachable step Initial w) : Inv w :=
  h.invariant (fun _ h => h.inv) fun _ _ _ hw _ hst => inv_step hw hst

/-! ## The world is stopped -/

/-- The roots that a collector marks from. -/
def Point.marked : Point → Option (List Nat)
  | .collecting roots | .clearStop roots => some roots
  | _ => none

/-- What a collector may rely on while it marks and sweeps, and until it clears `STOP`. -/
structure Stopped (w : Barrier) (i : Nat) (roots : List Nat) : Prop where
  /-- Nobody else runs past its gate. -/
  quiet : ∀ k ∈ w.statics.mutators, k ≠ i → (w.threads k).state = .running →
    (w.threads k).point = .store .start
  /-- Whoever has stopped stays at a gate, and its published roots are those it took there. -/
  published : ∀ k ∈ w.statics.mutators, (w.threads k).state ≠ .running →
    ∃ gate, (w.threads k).point.gate = some gate ∧ (w.threads k).roots = gate.taken ∧
      gate.taken = gate.found (w.threads k).frames
  /-- The roots have those of all threads. -/
  complete : (w.threads i).frames ⊆ roots ∧
    ∀ k ∈ w.statics.mutators, k ≠ i → (w.threads k).roots ⊆ roots

/-- In every state that any threads reach in any order of their steps, at most one of them
collects; and from the return of its `stop_the_world` until it clears `STOP` the world is
stopped. -/
theorem the_world_is_stopped_while_one_collects {w : Barrier} (h : Reachable step Initial w) :
    (∀ i j, (w.threads i).point.collects → (w.threads j).point.collects → i = j) ∧
      ∀ i roots, (w.threads i).point.marked = some roots → Stopped w i roots := by
  have hw := inv_reachable h
  refine ⟨fun i j hi hj => hw.turn.exclusive hi hj, fun i roots hr => ?_⟩
  have hroots : (w.threads i).point.roots w.statics.mutators = some ([], roots) := by
    cases hp : (w.threads i).point <;> simp_all [Point.marked, Point.roots]
  obtain ⟨hown, hothers⟩ := hw.gathered i [] roots hroots
  constructor
  case quiet =>
    intro k hk hki hs
    by_contra hnew
    have hpast := pastGate_of_running ((hw.member k).mp hk) ((hw.state k).symm.trans hs) hnew
    cases hw.unchecked i [] (unchecked_of_roots hroots) k hki hpast
  case published =>
    intro k hk hs
    obtain ⟨hfound, hpub⟩ := hw.taken k
    cases hg : (w.threads k).point.gate with
    | none =>
      have hrun : (w.threads k).state = .running := by rw [hw.state k, Point.state, hg]; rfl
      exact absurd hrun hs
    | some gate => exact ⟨gate, rfl, hpub gate (.inr hg), hfound gate (bound_of_gate hg)⟩
  case complete =>
    refine ⟨hown, fun k hk hki => ?_⟩
    rcases hothers k hk hki with hmem | hsub
    · cases hmem
    · exact hsub

/-- Two threads, of which the first runs and the second is not there yet. -/
def twoThreads : Barrier where
  statics :=
    { mutators := [0], mutatorsLock := none, resumeGen := none, sleepers := [], stop := false
      gcTurn := none, world := none }
  threads k :=
    { point := if k = 0 then .running else .absent, state := .running, roots := []
      frames := if k = 0 then [5] else [] }

theorem twoThreads_initial : Initial twoThreads where
  point k := by simp [twoThreads]
  state _ := rfl
  statics := rfl

/-- The second thread starts, and waits in native state; the first collects, while the second
wants to go on and a third one registers. -/
def heldSchedule : List (Nat × Act) :=
  [(1, Act.register)] ++ List.replicate 6 (1, Act.next) ++
    [(1, Act.run [7]), (1, Act.enterNative)] ++
    List.replicate 2 (1, Act.next) ++ [(0, Act.runCollection), (0, Act.stillOver true)] ++
    List.replicate 11 (0, Act.next) ++ [(1, Act.leaveNative), (1, Act.next), (2, Act.register)]

theorem a_wait_and_a_late_start_are_held :
    ∃ w, run step twoThreads heldSchedule = some w ∧ Stopped w 0 [5, 7] ∧
      (w.threads 1).point = .resumeLock (.native [7]) ∧ (w.threads 2).state = .running := by
  have hrun : run step twoThreads heldSchedule = some _ := rfl
  refine ⟨_, hrun, ?_, rfl, rfl⟩
  have hreach := Reaches.of_run (.start twoThreads_initial) hrun
  exact (the_world_is_stopped_while_one_collects hreach).2 0 [5, 7] rfl

/-! ## Nobody sleeps through a resume -/

/-- The thread is on `RESUME_CV`, or with `RESUME_GEN` about to wait there. -/
def Sleeps (w : Barrier) (k : Nat) : Prop :=
  k ∈ w.statics.sleepers ∨ ∃ gate, (w.threads k).point = .resumeWait gate

/-- Who sleeps has a collector to wake it: `STOP` is set, or was cleared ahead of a `notify`. -/
def Woken (w : Barrier) : Prop :=
  ∀ k, Sleeps w k → w.statics.stop = true ∨ ∃ i, (w.threads i).point = .notify

section woken

variable {w : Barrier} {i : Nat} {s : Statics} {th : Thread}

/-- Only who has seen `STOP` set goes to sleep. -/
theorem Moved.sleeps (h : Moved w i s th) {k : Nat}
    (hk : Sleeps { statics := s, threads := update w.threads i th } k) :
    Sleeps w k ∨ w.statics.stop = true := by
  rcases hk with hk | ⟨gate, hk⟩
  · cases h with
    | sleep g hp =>
      rcases List.mem_cons.mp hk with rfl | hk
      · exact .inl (.inr ⟨g, hp⟩)
      · exact .inl (.inl hk)
    | wake g hp => exact .inl (.inl (List.mem_filter.mp hk).1)
    | notify => cases hk
    | _ => exact .inl (.inl hk)
  · by_cases hki : k = i
    · subst hki
      simp only [update_self] at hk
      cases h with
      | store g | drop g => cases g <;> simp [Gate.stopped, Gate.again] at hk
      | _ => simp_all
    · simp only [update_of_ne hki] at hk
      exact .inl (.inr ⟨gate, hk⟩)

/-- `STOP` is cleared ahead of a `notify`, and the `notify` wakes all who sleep. -/
theorem Moved.stop (h : Moved w i s th) (hs : w.statics.stop = true) :
    s.stop = true ∨ th.point = .notify := by
  cases h <;> simp_all

theorem Moved.notified (h : Moved w i s th) (hp : (w.threads i).point = .notify) :
    s.sleepers = [] ∧ w.statics.resumeGen = none ∧ th.point = .dropWorld := by
  cases h <;> simp_all

theorem Moved.woken (h : Moved w i s th) (hw : Woken w)
    (hg : Guarded (fun k => (w.threads k).point.holdsResumeGen) w.statics.resumeGen) :
    Woken { statics := s, threads := update w.threads i th } := by
  intro k hk
  by_cases hn : (w.threads i).point = .notify
  · obtain ⟨hnone, hfree, hp⟩ := h.notified hn
    rcases hk with hk | ⟨gate, hk⟩
    · simp [hnone] at hk
    · by_cases hki : k = i
      · subst hki
        simp [hp] at hk
      · simp only [update_of_ne hki] at hk
        rw [hfree] at hg
        exact absurd (by simp [hk, Point.holdsResumeGen]) (hg.none k)
  · have hset : w.statics.stop = true →
        s.stop = true ∨ ∃ j, (update w.threads i th j).point = .notify := by
      intro hs
      rcases h.stop hs with hs | hp
      · exact .inl hs
      · exact .inr ⟨i, by simpa using hp⟩
    rcases h.sleeps hk with hold | hs
    · rcases hw k hold with hs | ⟨j, hj⟩
      · exact hset hs
      · have hji : j ≠ i := fun hji => hn (hji ▸ hj)
        exact .inr ⟨j, by simpa [update_of_ne hji] using hj⟩
    · exact hset hs

end woken

/-- The same, with the lock that keeps a `notify` apart from who is about to wait. -/
structure Watched (w : Barrier) : Prop where
  woken : Woken w
  resumeGen : Guarded (fun k => (w.threads k).point.holdsResumeGen) w.statics.resumeGen

theorem Initial.watched {w : Barrier} (h : Initial w) : Watched w where
  woken := by
    rintro k (hk | ⟨gate, hk⟩)
    · rw [h.statics] at hk
      cases hk
    · rw [h.point k] at hk
      split at hk <;> cases hk
  resumeGen := by
    apply Guarded.free
    intro k hk
    rw [h.point k] at hk
    split at hk <;> cases hk

theorem watched_step {w t : Barrier} {l : Nat × Act} (hw : Watched w) (h : step w l = some t) :
    Watched t := by
  obtain ⟨s, th, hmove, rfl⟩ := moved_of_step h
  exact ⟨hmove.woken hw.woken hw.resumeGen, Moved.guarded hw.resumeGen hmove.resumeGen⟩

/-- A thread that waits for the world to resume is always going to be woken. -/
theorem nobody_sleeps_through_a_resume {w : Barrier} (h : Reachable step Initial w) :
    Woken w :=
  have hw : Watched w :=
    h.invariant (fun _ h => h.watched) fun _ _ _ hw _ hst => watched_step hw hst
  hw.woken

/-- Thread 1 is asleep, and thread 0 has cleared `STOP` and stands before its `notify_all`. -/
theorem nobody_sleeps_through_the_held_resume :
    let schedule := heldSchedule ++ List.replicate 3 (1, Act.next) ++ List.replicate 2 (0, Act.next)
    ∃ w, run step twoThreads schedule = some w ∧ w.statics.sleepers = [1] ∧
      w.statics.stop = false ∧ (w.threads 0).point = .notify ∧ Woken w := by
  intro schedule
  have hrun : run step twoThreads schedule = some _ := rfl
  refine ⟨_, hrun, rfl, rfl, rfl, ?_⟩
  exact nobody_sleeps_through_a_resume (.of_run (.start twoThreads_initial) hrun)

end runtime.barrier
