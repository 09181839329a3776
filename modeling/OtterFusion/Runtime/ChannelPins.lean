-- The pins of the channels. A send pins the message that it queues, and the receive that takes
-- the message is to unpin it. The poll of a receive future unpins only managed elements, so the
-- pin of a scalar stays for good; each other step keeps the pins and the queues in step. A channel
-- is first in, first out.
import Mathlib.Data.List.Count
import OtterFusion.Runtime.Channel

open base.runs runtime.gc

namespace runtime.channels

/-! ## What the law says -/

/-- The messages in a channel; none where there is no channel. -/
def Runtime.queueOf (r : Runtime) (id : Nat) : List Nat := ((r.registry id).map (·.queue)).getD []

/-- How many pins a channel holds for a word. -/
def World.held (w : World) (id value : Nat) : Nat := w.pins.count (id, value)

/-- How many copies of a word are still in the queue of a channel. -/
def World.copies (w : World) (id value : Nat) : Nat := (w.rt.queueOf id).count value

/-- A channel holds one pin for each copy in its queue. The null word is never pinned. -/
def PinsMatch (w : World) : Prop :=
  ∀ id value, w.held id value = if value = 0 then 0 else w.copies id value

/-- The pins of a word in the table of extra roots: those of the rest of the runtime, those of
the channels, and that of a receive future whose data lives there. -/
def World.owed (w : World) (v : Nat) : Nat :=
  w.others v + w.pins.countP (·.2 = v) + (w.rt.activeRecvData v).toNat

/-- The table of extra roots has the pins that the history tells. -/
def TableAgrees (w : World) : Prop := ∀ v, v ≠ 0 → w.rt.extraRoots v = w.owed v

/-! ## The condition on a step -/

/-- A poll that takes a message, other than the null word, is of a future whose elements are
managed, so that it unpins the message. -/
def UnpinsTaken (w : World) : Action → Prop
  | .poll data _ => ∀ d, w.rt.recvData data = some d → ∀ value queue,
      w.rt.queueOf d.chanId = value :: queue → value ≠ 0 → d.elemIsPtr = true
  | _ => True

/-! ## What the operations leave alone -/

section frame

variable (r : Runtime) (data p id : Nat) (d : RecvData) (g : Inner)

@[simp] theorem finishRecvData_registry :
    (finishRecvData r data).2.registry = r.registry := by
  unfold finishRecvData
  split <;> rfl

@[simp] theorem finishRecvData_recvData :
    (finishRecvData r data).2.recvData = r.recvData := by
  unfold finishRecvData
  split <;> rfl

@[simp] theorem finishRecvData_nextId : (finishRecvData r data).2.nextId = r.nextId := by
  unfold finishRecvData
  split <;> rfl

@[simp] theorem finishRecvData_live : (finishRecvData r data).2.live = r.live := by
  unfold finishRecvData
  split <;> rfl

@[simp] theorem removeRoot_registry : (r.removeRoot p).registry = r.registry := rfl

theorem setChannel_registry (i : Nat) :
    (r.setChannel id g).registry i = if i = id then some g else r.registry i := rfl

theorem queueOf_setChannel (i : Nat) :
    (r.setChannel id g).queueOf i = if i = id then g.queue else r.queueOf i := by
  unfold Runtime.queueOf
  rw [setChannel_registry]
  split <;> rfl

theorem queueOf_of_registry {r r' : Runtime} (h : r'.registry = r.registry) :
    r'.queueOf = r.queueOf := by
  unfold Runtime.queueOf
  rw [h]

theorem queueOf_some {r : Runtime} {id : Nat} {g : Inner} (h : r.registry id = some g) :
    r.queueOf id = g.queue := by
  simp [Runtime.queueOf, h]

end frame

/-- A change of a channel that keeps its queue keeps every queue. -/
theorem queueOf_setChannel_same {r : Runtime} {id : Nat} {g g' : Inner}
    (hg : r.registry id = some g) (hq : g'.queue = g.queue) :
    (r.setChannel id g').queueOf = r.queueOf := by
  funext i
  rw [queueOf_setChannel]
  split
  · rename_i hi
    rw [hi, queueOf_some hg, hq]
  · rfl

section taken

variable (w : World) (data value : Nat) (d : RecvData) (g : Inner) (queue : List Nat)

theorem taken_registry : (w.taken data d g value queue).rt.registry =
    (w.rt.setChannel d.chanId { g with queue }).registry := by
  unfold World.taken
  simp only
  split <;> simp

theorem taken_nextId : (w.taken data d g value queue).rt.nextId = w.rt.nextId := by
  unfold World.taken Runtime.removeRoot
  simp only
  split <;> simp [Runtime.setChannel]

theorem taken_queueOf (i : Nat) : (w.taken data d g value queue).rt.queueOf i =
    if i = d.chanId then queue else w.rt.queueOf i := by
  rw [queueOf_of_registry (taken_registry w data value d g queue), queueOf_setChannel]

end taken

/-! ## How a step moves messages and pins -/

/-- No channel has an id that is yet to be given out. -/
def Fresh (w : World) : Prop := ∀ id, w.rt.nextId ≤ id → w.rt.registry id = none

theorem fresh_step {w w' : World} {a : Action} (hf : Fresh w) (h : step w a = some w') :
    Fresh w' := by
  have hset : ∀ {id g g'}, w.rt.registry id = some g → ∀ i, w.rt.nextId ≤ i →
      (w.rt.setChannel id g').registry i = none := by
    intro id g g' hg i hi
    rw [setChannel_registry]
    split
    · rename_i he
      rw [← he, hf i hi] at hg
      cases hg
    · exact hf i hi
  intro i hi
  cases step_cases h with
  | channelNew =>
    simp only [langChannelNew, setChannel_registry] at hi ⊢
    rw [if_neg (by omega)]
    exact hf i (by omega)
  | senderAcquire hg | lastSender hg _ | senderRelease hg _ | receiverAcquire hg
  | receiverRelease hg => exact hset hg i hi
  | sent hg _ => exact hset hg i hi
  | recvFuture _ _ _ _ => exact hf i hi
  | takes _ hg _ =>
    rw [taken_nextId] at hi
    rw [taken_registry]
    exact hset hg i hi
  | closed _ _ _ _ =>
    simp only [finishRecvData_nextId, finishRecvData_registry] at hi ⊢
    exact hf i hi
  | parks _ hg _ _ => exact hset hg i hi
  | cancelIdle _ _ =>
    simp only [World.cancelled, finishRecvData_nextId, finishRecvData_registry] at hi ⊢
    split at hi <;> simp only [*] <;> exact hf i hi
  | cancelParked _ _ _ hg =>
    simp only [World.cancelled, finishRecvData_nextId, finishRecvData_registry] at hi ⊢
    exact hset hg i hi
  | received hg _ => exact hset hg i hi
  | rejected | cancelOther | nothing | callWaker | taskDies | otherPin | otherUnpin =>
    exact hf i hi

/-- What a step does to the queues and the pins. -/
inductive Moved (w : World) (a : Action) (w' : World) : Prop
  | stays : w'.rt.queueOf = w.rt.queueOf → w'.pins = w.pins → UnpinsTaken w a → Moved w a w'
  | pushes (id value : Nat) :
      (∀ i, w'.rt.queueOf i = if i = id then w.rt.queueOf i ++ [value] else w.rt.queueOf i) →
      w'.pins = pinned w.pins id value → UnpinsTaken w a → Moved w a w'
  | pops (id value : Nat) (queue : List Nat) (unpins : Bool) :
      w.rt.queueOf id = value :: queue →
      (∀ i, w'.rt.queueOf i = if i = id then queue else w.rt.queueOf i) →
      w'.pins = (if unpins then unpinned w.pins id value else w.pins) →
      (UnpinsTaken w a ↔ (value ≠ 0 → unpins = true)) → Moved w a w'

theorem step_moves {w w' : World} {a : Action} (hf : Fresh w) (h : step w a = some w') :
    Moved w a w' := by
  cases step_cases h with
  | channelNew =>
    refine .stays ?_ rfl trivial
    funext i
    have hq : (langChannelNew w.rt).2.queueOf i = (w.rt.setChannel w.rt.nextId .new).queueOf i :=
      rfl
    rw [hq, queueOf_setChannel]
    split
    · rename_i hi
      simp [Inner.new, Runtime.queueOf, hf i (by omega)]
    · rfl
  | senderAcquire hg | lastSender hg _ | senderRelease hg _ | receiverAcquire hg
  | receiverRelease hg => exact .stays (queueOf_setChannel_same hg rfl) rfl trivial
  | @sent id value g hg hr =>
    refine .pushes id value (fun i => ?_) rfl trivial
    simp only [queueOf_setChannel]
    split
    · rename_i hi
      rw [hi, queueOf_some hg]
    · rfl
  | recvFuture _ _ _ _ => exact .stays rfl rfl trivial
  | @takes data value waker d g queue hd hg hq =>
    refine .pops d.chanId value queue d.elemIsPtr (by rw [queueOf_some hg, hq])
      (taken_queueOf w data value d g queue) rfl ⟨fun hu => ?_, fun hu => ?_⟩
    · exact hu d hd value queue (by rw [queueOf_some hg, hq])
    · intro d' hd' value' queue' hq'
      cases hd.symm.trans hd'
      rw [queueOf_some hg, hq] at hq'
      cases hq'
      exact hu
  | closed hd hg hq _ =>
    refine .stays (queueOf_of_registry (finishRecvData_registry _ _)) rfl ?_
    intro d' hd' value' queue' hq'
    cases hd.symm.trans hd'
    rw [queueOf_some hg, hq] at hq'
    cases hq'
  | parks hd hg hq _ =>
    refine .stays (queueOf_setChannel_same hg rfl) rfl ?_
    intro d' hd' value' queue' hq'
    cases hd.symm.trans hd'
    rw [queueOf_some hg, hq] at hq'
    cases hq'
  | cancelIdle _ _ =>
    refine .stays (queueOf_of_registry ?_) rfl trivial
    simp only [World.cancelled, finishRecvData_registry]
    split <;> rfl
  | cancelParked _ _ _ hg =>
    refine .stays ?_ rfl trivial
    simp only [World.cancelled, queueOf_of_registry (finishRecvData_registry _ _)]
    exact queueOf_setChannel_same hg rfl
  | @received id value g queue hg hq =>
    refine .pops id value queue true (by rw [queueOf_some hg, hq]) (fun i => ?_) rfl
      ⟨fun _ _ => rfl, fun _ => trivial⟩
    rw [queueOf_of_registry (removeRoot_registry _ _), queueOf_setChannel]
  | rejected | cancelOther | nothing | callWaker | taskDies | otherPin | otherUnpin =>
    exact .stays rfl rfl trivial

/-! ## The pins and the queues -/

theorem count_pinned (pins : List (Nat × Nat)) (id value i v : Nat) :
    (pinned pins id value).count (i, v) =
      pins.count (i, v) + if value ≠ 0 ∧ i = id ∧ v = value then 1 else 0 := by
  unfold pinned
  by_cases h0 : value = 0
  · simp [h0]
  · by_cases he : i = id ∧ v = value
    · obtain ⟨rfl, rfl⟩ := he
      simp [h0]
    · have hne : ((id, value) == (i, v)) = false := by
        simp only [beq_eq_false_iff_ne, ne_eq, Prod.mk.injEq]
        exact fun h => he ⟨h.1.symm, h.2.symm⟩
      simp [h0, he, List.count_cons, hne]

theorem count_unpinned (pins : List (Nat × Nat)) (id value i v : Nat) :
    (unpinned pins id value).count (i, v) =
      pins.count (i, v) - if i = id ∧ v = value then 1 else 0 := by
  unfold unpinned
  rw [List.count_erase]
  by_cases he : i = id ∧ v = value
  · obtain ⟨rfl, rfl⟩ := he
    simp
  · have hne : ((id, value) == (i, v)) = false := by
      simp only [beq_eq_false_iff_ne, ne_eq, Prod.mk.injEq]
      exact fun h => he ⟨h.1.symm, h.2.symm⟩
    simp [he, hne]

/-- A step keeps the pins and the queues in step exactly when it unpins what it takes. -/
theorem pinsMatch_step {w w' : World} {a : Action} (hf : Fresh w) (hw : PinsMatch w)
    (h : step w a = some w') : PinsMatch w' ↔ UnpinsTaken w a := by
  cases step_moves hf h with
  | stays hq hp hu =>
    refine ⟨fun _ => hu, fun _ i v => ?_⟩
    have := hw i v
    simpa only [World.held, World.copies, hp, hq] using this
  | pushes id value hq hp hu =>
    refine ⟨fun _ => hu, fun _ i v => ?_⟩
    have hiv := hw i v
    simp only [World.held, World.copies] at hiv ⊢
    rw [hp, count_pinned, hq, hiv]
    by_cases hi : i = id
    · by_cases hv : v = value
      · subst hv
        by_cases h0 : v = 0 <;> simp [hi, h0, List.count_append]
      · have hne : value ≠ v := fun e => hv e.symm
        simp [hi, hv, List.count_append, hne]
    · simp [hi]
  | pops id value queue unpins hhead hq hp hu =>
    rw [hu]
    constructor
    · intro hm h0
      have hafter := hm id value
      have hbefore := hw id value
      simp only [World.held, World.copies] at hafter hbefore
      cases unpins with
      | true => rfl
      | false =>
        rw [hp, hq] at hafter
        simp only [Bool.false_eq_true, if_false, h0, if_true] at hafter hbefore
        rw [hhead, List.count_cons_self] at hbefore
        omega
    · intro hun i v
      have hiv := hw i v
      simp only [World.held, World.copies] at hiv ⊢
      rw [hp, hq]
      by_cases hi : i = id
      · subst hi
        rw [hhead] at hiv
        by_cases hv : v = value
        · subst hv
          by_cases h0 : v = 0
          · rw [if_pos h0] at hiv ⊢
            cases unpins with
            | true => rw [if_pos rfl, count_unpinned, hiv, Nat.zero_sub]
            | false => exact hiv
          · rw [hun h0, if_pos rfl, count_unpinned, hiv]
            simp [h0]
        · have hne : value ≠ v := fun e => hv e.symm
          rw [if_pos rfl, ← List.count_cons_of_ne hne, ← hiv]
          cases unpins with
          | true => simp [count_unpinned, hv]
          | false => rfl
      · rw [if_neg hi, ← hiv]
        cases unpins with
        | true => simp [count_unpinned, hi]
        | false => rfl

/-- In every run, each copy in a queue has its pin; so no receive unpins what it did not pin. -/
def PinsCover (w : World) : Prop := ∀ id value, value ≠ 0 → w.copies id value ≤ w.held id value

theorem pinsCover_step {w w' : World} {a : Action} (hf : Fresh w) (hw : PinsCover w)
    (h : step w a = some w') : PinsCover w' := by
  intro i v h0
  have hiv := hw i v h0
  simp only [World.held, World.copies] at hiv ⊢
  cases step_moves hf h with
  | stays hq hp _ => rwa [hp, hq]
  | pushes id value hq hp _ =>
    rw [hp, count_pinned, hq]
    by_cases hi : i = id
    · by_cases hv : v = value
      · subst hv
        simp only [hi, if_true, List.count_append, List.count_singleton_self, ne_eq, h0,
          not_false_eq_true, and_self]
        rw [hi] at hiv
        omega
      · have hne : value ≠ v := fun e => hv e.symm
        simpa [hi, hv, List.count_append, hne] using hi ▸ hiv
    · simpa [hi] using hiv
  | pops id value queue unpins hhead hq hp _ =>
    have hle : (if unpins then unpinned w.pins id value else w.pins).count (i, v) + 1 ≥
        w.pins.count (i, v) := by
      split
      · rw [count_unpinned]; split <;> omega
      · omega
    rw [hp, hq]
    by_cases hi : i = id
    · subst hi
      rw [hhead] at hiv
      rw [if_pos rfl]
      by_cases hv : v = value
      · subst hv
        rw [List.count_cons_self] at hiv
        omega
      · have hne : value ≠ v := fun e => hv e.symm
        rw [List.count_cons_of_ne hne] at hiv
        cases unpins with
        | true => simpa [count_unpinned, hv] using hiv
        | false => exact hiv
    · rw [if_neg hi]
      cases unpins with
      | true => simpa [count_unpinned, hi] using hiv
      | false => exact hiv

/-! ## The pins and the table of extra roots -/

theorem countP_pinned (pins : List (Nat × Nat)) (id : Nat) {value v : Nat} (hv : v ≠ 0) :
    (pinned pins id value).countP (·.2 = v) =
      pins.countP (·.2 = v) + if value = v then 1 else 0 := by
  unfold pinned
  by_cases h0 : value = 0
  · have hne : value ≠ v := fun e => hv (e ▸ h0)
    rw [if_pos h0, if_neg hne, Nat.add_zero]
  · rw [if_neg h0, List.countP_cons]
    simp

theorem countP_unpinned {pins : List (Nat × Nat)} {id value v : Nat} (hv : v ≠ 0)
    (hin : value ≠ 0 → (id, value) ∈ pins) :
    (unpinned pins id value).countP (·.2 = v) + (if value = v then 1 else 0) =
      pins.countP (·.2 = v) := by
  unfold unpinned
  by_cases hm : (id, value) ∈ pins
  · rw [(List.perm_cons_erase hm).countP_eq, List.countP_cons]
    simp
  · have h0 : value = 0 := by
      by_contra h0
      exact hm (hin h0)
    have hne : value ≠ v := fun e => hv (e ▸ h0)
    rw [List.erase_of_not_mem hm, if_neg hne, Nat.add_zero]

/-- The end of a future takes the pin of its data with its active entry, and no other pin. -/
theorem finishRecvData_pins {r : Runtime} {v n : Nat} (data : Nat) (hv : v ≠ 0)
    (h : r.extraRoots v = n + (r.activeRecvData v).toNat) :
    (finishRecvData r data).2.extraRoots v =
      n + ((finishRecvData r data).2.activeRecvData v).toNat := by
  unfold finishRecvData
  split
  · rename_i hact
    simp only [Runtime.removeRoot, removeExtraRoot_apply]
    by_cases hd : v = data
    · subst hd
      simp only [hact, Bool.toNat_true] at h
      simp only [ne_eq, hv, not_false_eq_true, and_self, if_true, Bool.toNat_false]
      omega
    · simpa only [hd, and_false, if_false] using h
  · exact h

/-- A message at the front of a channel has its pin. -/
theorem front_pinned {w : World} {id value : Nat} {g : Inner} {queue : List Nat}
    (hc : PinsCover w) (hg : w.rt.registry id = some g) (hq : g.queue = value :: queue)
    (h0 : value ≠ 0) : (id, value) ∈ w.pins := by
  have hle := hc id value h0
  simp only [World.copies, World.held, queueOf_some hg, hq, List.count_cons_self] at hle
  exact List.count_pos_iff.mp (by omega)

theorem tableAgrees_step {w w' : World} {a : Action} (hc : PinsCover w) (ht : TableAgrees w)
    (h : step w a = some w') : TableAgrees w' := by
  intro v hv
  have hw := ht v hv
  unfold World.owed at hw ⊢
  cases step_cases h with
  | channelNew | senderAcquire | lastSender | senderRelease | receiverAcquire
  | receiverRelease | rejected | cancelOther | nothing | callWaker | taskDies | parks =>
    exact hw
  | @sent id value g hg hr =>
    rw [countP_pinned w.pins id hv]
    simp only [Runtime.addRoot, Runtime.setChannel, addExtraRoot_apply, hw]
    by_cases he : v = value
    · subst he
      simp only [ne_eq, hv, not_false_eq_true, and_self, if_true]
      omega
    · have hne : value ≠ v := fun e => he e.symm
      simp [he, hne]
  | @recvFuture data id readyTid pendingTid valueTid closedTid elemIsPtr g hg h0 hact hwait =>
    simp only [langChanRecvFuture, Runtime.addRoot, Runtime.setRecvData, addExtraRoot_apply, hw]
    by_cases he : v = data
    · subst he
      simp [hact, hv]
    · simp [he]
  | @takes data value waker d g queue hd hg hq =>
    have hfin := finishRecvData_pins (r := w.rt.setChannel d.chanId { g with queue }) data hv hw
    unfold World.taken
    cases helem : d.elemIsPtr with
    | false => simpa only [helem, Bool.false_eq_true, if_false] using hfin
    | true =>
      have hpins := countP_unpinned hv (front_pinned hc hg hq)
      simp only [if_true, Runtime.removeRoot, removeExtraRoot_apply, hfin]
      by_cases he : v = value
      · subst he
        simp only [ne_eq, hv, not_false_eq_true, and_self, if_true] at hpins ⊢
        omega
      · have hne : value ≠ v := fun e => he e.symm
        simp only [he, hne, and_false, if_false] at hpins ⊢
        omega
  | @closed data waker d g hd hg hq hs => exact finishRecvData_pins data hv hw
  | @cancelIdle data d hd hidle =>
    refine finishRecvData_pins data hv ?_
    split <;> exact hw
  | @cancelParked data waker d g hd hreg hwk hg =>
    exact finishRecvData_pins (r := (w.rt.setChannel d.chanId _).setRecvData data _) data hv hw
  | @received id value g queue hg hq =>
    have hpins := countP_unpinned hv (front_pinned hc hg hq)
    simp only [Runtime.removeRoot, Runtime.setChannel, removeExtraRoot_apply, hw]
    by_cases he : v = value
    · subst he
      simp only [ne_eq, hv, not_false_eq_true, and_self, if_true] at hpins ⊢
      omega
    · have hne : value ≠ v := fun e => he e.symm
      simp only [he, hne, and_false, if_false] at hpins ⊢
      omega
  | @otherPin p =>
    simp only [Runtime.addRoot, addExtraRoot_apply, hw]
    split <;> omega
  | @otherUnpin p hp =>
    simp only [Runtime.removeRoot, removeExtraRoot_apply, hw]
    split
    · rename_i he
      rw [← he.2] at hp
      omega
    · rfl

/-! ## The law -/

/-- What holds in every run: ids are fresh, each queued copy is pinned, and the table tells
the pins of all. -/
theorem pins_in_every_run {w : World} (hw : Reachable step Initial w) :
    Fresh w ∧ PinsCover w ∧ TableAgrees w := by
  refine hw.invariant (I := fun w => Fresh w ∧ PinsCover w ∧ TableAgrees w) (fun w h0 => ?_) ?_
  · refine ⟨fun id _ => h0.registry id, fun id value _ => ?_, fun v _ => ?_⟩
    · simp [World.copies, Runtime.queueOf, h0.registry]
    · simp [World.owed, h0.extraRoots, h0.others, h0.pins, h0.activeRecvData]
  · rintro w a w' ⟨hf, hc, ht⟩ _ h
    exact ⟨fresh_step hf h, pinsCover_step hf hc h, tableAgrees_step hc ht h⟩

/-- While each poll that takes a message unpins it, every channel holds exactly one pin for
each message in its queue, and the table of extra roots has these pins. The next step keeps it
so exactly when it, too, unpins what it takes. -/
theorem the_pins_match_the_queues_while_polls_unpin {w : World}
    (hw : Reaches step Initial UnpinsTaken w) :
    PinsMatch w ∧ TableAgrees w ∧
      ∀ a w', step w a = some w' → (PinsMatch w' ↔ UnpinsTaken w a) := by
  have hall : ∀ w, Reaches step Initial UnpinsTaken w → Fresh w ∧ PinsCover w ∧ TableAgrees w :=
    fun w hw => pins_in_every_run (hw.mono fun _ _ _ => trivial)
  have hmatch : PinsMatch w := by
    refine hw.invariant_with hall (fun w h0 => ?_) fun w a w' hI hm ha h =>
      (pinsMatch_step hI.1 hm h).mpr ha
    intro id value
    simp [World.held, World.copies, Runtime.queueOf, h0.registry, h0.pins]
  exact ⟨hmatch, (hall w hw).2.2, fun a w' h => pinsMatch_step (hall w hw).1 hmatch h⟩

/-- Whether a step is no poll of a future of scalars. -/
def pollsManaged (w : World) : Action → Bool
  | .poll data _ => (w.rt.recvData data).all (·.elemIsPtr)
  | _ => true

theorem unpinsTaken_of_managed {w : World} {a : Action} (h : pollsManaged w a = true) :
    UnpinsTaken w a := by
  cases a with
  | poll data waker =>
    intro d hd value queue _ _
    simpa [pollsManaged, hd] using h
  | _ => trivial

/-- Three messages are sent, two of them equal. A parked future takes the first, a `try_recv` the
second, and another future is cancelled while it is parked. -/
theorem the_pins_match_the_queues_in_a_run :
    let as : List Action := [.channelNew, .recvFuture 64 1 7 9 true 11 12,
      .recvFuture 128 1 7 9 true 11 12, .poll 64 ⟨7, .taskWake⟩, .poll 128 ⟨8, .taskWake⟩,
      .cancel (some ⟨128, chanRecvFutureKind⟩), .send 1 5, .callWaker ⟨7, .taskWake⟩,
      .send 1 6, .send 1 5, .poll 64 ⟨7, .taskWake⟩, .tryRecv 1]
    ∃ w, run step newWorld as = some w ∧ w.rt.queueOf 1 = [5] ∧ w.rt.extraRoots 5 = 1 ∧
      PinsMatch w ∧ TableAgrees w ∧
      ∀ a w', step w a = some w' → (PinsMatch w' ↔ UnpinsTaken w a) := by
  intro as
  refine ⟨_, rfl, by decide, by decide, ?_⟩
  apply the_pins_match_the_queues_while_polls_unpin
  exact Reaches.of_tested_run (fun _ _ => unpinsTaken_of_managed) (.start newWorld_initial)
    (rfl : run _ newWorld as = some _)

/-- A channel of integers: 5 is sent, and the poll of a receive future takes it. The queue is
empty, but the pin of 5 stays, in the channel's account and in the table. -/
theorem the_pin_of_a_polled_scalar_stays : Initial newWorld ∧
    ∃ w, run step newWorld [.channelNew, .send 1 5, .recvFuture 64 1 7 9 false 11 12,
        .poll 64 ⟨3, .taskWake⟩] = some w ∧
      w.copies 1 5 = 0 ∧ w.held 1 5 = 1 ∧ w.rt.extraRoots 5 = 1 ∧ ¬ PinsMatch w := by
  refine ⟨newWorld_initial, _, rfl, by decide, by decide, by decide, fun h => ?_⟩
  exact absurd (h 1 5) (by decide)

/-! ## First in, first out -/

/-- The messages of channel `id` that a step sends: the sender is told 0. -/
def World.accepts (w : World) (id : Nat) : Action → List Nat
  | .send i value =>
    if i = id ∧ (langChanSend w.rt i value).map (·.1.1) = some 0 then [value] else []
  | _ => []

/-- The messages of channel `id` that a step returns: the value of a poll, or of a `try_recv`, that
finds the queue not empty. -/
def World.delivers (w : World) (id : Nat) : Action → List Nat
  | .poll data waker =>
    if (w.rt.recvData data).map (·.chanId) = some id ∧ w.rt.queueOf id ≠ [] then
      match chanRecvPoll w.rt data waker with
      | some (.ready _ _ value _, _) => [value]
      | _ => []
    else []
  | .tryRecv i =>
    match langChanTryRecv w.rt i with
    | some ((true, value), _) => if i = id then [value] else []
    | _ => []
  | _ => []

/-- The messages of the steps of a run, by what each step has. -/
def through (f : World → Action → List Nat) : World → List Action → List Nat
  | _, [] => []
  | w, a :: as => f w a ++ ((step w a).map fun w' => through f w' as).getD []

theorem queueOf_step {w w' : World} {a : Action} (hf : Fresh w) (h : step w a = some w')
    (id : Nat) :
    w.rt.queueOf id ++ w.accepts id a = w.delivers id a ++ w'.rt.queueOf id := by
  have hstays : ∀ {t : World} {b : Action}, t.rt.queueOf = w.rt.queueOf → w.accepts id b = [] →
      w.delivers id b = [] →
      w.rt.queueOf id ++ w.accepts id b = w.delivers id b ++ t.rt.queueOf id := by
    intro t b hq ha hd
    rw [hq, ha, hd, List.append_nil, List.nil_append]
  cases step_cases h with
  | channelNew =>
    refine hstays (funext fun i => ?_) rfl rfl
    show (w.rt.setChannel w.rt.nextId .new).queueOf i = _
    rw [queueOf_setChannel]
    split
    · rename_i hi
      simp [Inner.new, Runtime.queueOf, hf i (by omega)]
    · rfl
  | senderAcquire hg | lastSender hg _ | senderRelease hg _ | receiverAcquire hg
  | receiverRelease hg => exact hstays (queueOf_setChannel_same hg rfl) rfl rfl
  | rejected hg hr =>
    exact hstays rfl (by simp [World.accepts, langChanSend, hg, hr]) rfl
  | @sent i value g hg hr =>
    have hsent : (langChanSend w.rt i value).map (·.1.1) = some 0 := by simp [langChanSend, hg, hr]
    simp only [World.accepts, World.delivers, queueOf_setChannel, hsent, and_true, List.nil_append]
    by_cases hi : i = id
    · subst hi
      simp [queueOf_some hg]
    · simp [hi, Ne.symm hi, Runtime.addRoot, Runtime.queueOf]
  | recvFuture _ _ _ _ => exact hstays rfl rfl rfl
  | @takes data value waker d g queue hd hg hq =>
    obtain ⟨r, hpoll⟩ : ∃ r, chanRecvPoll w.rt data waker =
        some (.ready d.readyTid d.valueTid value d.elemIsPtr, r) := by
      simp [chanRecvPoll, hd, hg, hq]
    have hfront : w.rt.queueOf d.chanId = value :: queue := by rw [queueOf_some hg, hq]
    simp only [World.accepts, World.delivers, taken_queueOf, hd, hpoll, Option.map_some,
      Option.some.injEq, List.append_nil]
    by_cases hi : d.chanId = id
    · subst hi
      simp [hfront]
    · simp [hi, Ne.symm hi]
  | closed hd hg hq _ =>
    refine hstays (queueOf_of_registry (finishRecvData_registry _ _)) rfl ?_
    simp only [World.delivers, hd, Option.map_some, Option.some.injEq]
    exact if_neg fun hne => hne.2 (hne.1 ▸ (queueOf_some hg).trans hq)
  | parks hd hg hq _ =>
    refine hstays (queueOf_setChannel_same hg rfl) rfl ?_
    simp only [World.delivers, hd, Option.map_some, Option.some.injEq]
    exact if_neg fun hne => hne.2 (hne.1 ▸ (queueOf_some hg).trans hq)
  | cancelIdle _ _ =>
    refine hstays (queueOf_of_registry ?_) rfl rfl
    simp only [World.cancelled, finishRecvData_registry]
    split <;> rfl
  | cancelParked _ _ _ hg =>
    refine hstays ?_ rfl rfl
    simp only [World.cancelled, queueOf_of_registry (finishRecvData_registry _ _)]
    exact queueOf_setChannel_same hg rfl
  | @received i value g queue hg hq =>
    rw [queueOf_of_registry (removeRoot_registry _ _), queueOf_setChannel]
    simp only [World.accepts, World.delivers, langChanTryRecv, hg, hq, Option.bind_eq_bind,
      Option.bind_some, Option.pure_def, List.append_nil]
    by_cases hi : i = id
    · subst hi
      simp [queueOf_some hg, hq]
    · simp [hi, Ne.symm hi]
  | nothing hg hq =>
    exact hstays rfl rfl (by simp [World.delivers, langChanTryRecv, hg, hq])
  | cancelOther | callWaker | taskDies | otherPin | otherUnpin => exact hstays rfl rfl rfl

/-- What a channel delivers is what was sent, in this order and each message once; the rest is in
its queue. -/
theorem a_channel_is_first_in_first_out {w w' : World} {as : List Action} (hw : Initial w)
    (h : run step w as = some w') (id : Nat) :
    through (fun w => w.accepts id) w as =
      through (fun w => w.delivers id) w as ++ w'.rt.queueOf id := by
  have hall : ∀ {as : List Action} {v : World}, Fresh v → run step v as = some w' →
      v.rt.queueOf id ++ through (fun w => w.accepts id) v as =
        through (fun w => w.delivers id) v as ++ w'.rt.queueOf id := by
    intro as
    induction as with
    | nil =>
      intro v _ hrun
      cases hrun
      exact List.append_nil _
    | cons a as ih =>
      intro v hv hrun
      obtain ⟨t, ht, hrest⟩ := Option.bind_eq_some_iff.mp hrun
      have hstep := queueOf_step hv ht id
      have hlater := ih (fresh_step hv ht) hrest
      simp only [through, ht, Option.map_some, Option.getD_some]
      rw [← List.append_assoc, hstep, List.append_assoc, hlater, List.append_assoc]
  have hempty : w.rt.queueOf id = [] := by simp [Runtime.queueOf, hw.registry]
  have hrun := hall (fun i _ => hw.registry i) h
  rwa [hempty] at hrun

theorem a_channel_is_first_in_first_out_at :
    let as : List Action := [.channelNew, .send 1 5, .send 1 6, .tryRecv 1]
    ∃ w, run step newWorld as = some w ∧ through (fun w => w.accepts 1) newWorld as =
      through (fun w => w.delivers 1) newWorld as ++ w.rt.queueOf 1 :=
  ⟨_, rfl, a_channel_is_first_in_first_out newWorld_initial rfl 1⟩

end runtime.channels
