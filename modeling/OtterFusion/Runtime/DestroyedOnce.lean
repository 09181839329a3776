-- Deterministic destruction (`gc.rs`, `lang_rc_retain`, `lang_rc_release`, `rc_finalize`): an
-- object is finalized when its last reference goes, and once, as long as no drop function
-- retains an object whose count is zero.
import OtterFusion.Runtime.Finalization

namespace runtime.gc

/-! ## What a run has to keep -/

/-- Each drop function was called once at most, as the start of a finalization, and when no
reference to its object was left; each block was given back once at most, and by then each owned
field was released, once. -/
structure DestroyedOnce (w : Machine) : Prop where
  dropped_once : w.drops.Nodup
  dropped_first : w.drops.Sublist w.begunObjs
  after_the_last_reference : ∀ e ∈ w.begun, e.2 = 0
  freed_once : w.freed.Nodup
  released_once : (releasedSlots w.released).Nodup
  children_released : ∀ o ∈ w.freed, ∀ off ∈ (w.desc o).rcOffsets,
    (o, off) ∈ releasedSlots w.released

/-- The program is balanced: it retains live `@RefCounted` objects, it releases references that
it holds, and a store moves references between the program and the fields. -/
def Balanced (w : Machine) : Act → Prop
  | .retain obj => obj = 0 ∨ (obj ∈ w.known ∧ w.RefCounted obj)
  | .release obj => obj = 0 ∨ 0 < w.held obj
  | .mutate slot pointers held handles => ∀ x, x ≠ 0 →
    { w with slot := slot, pointers := pointers, held := held, handles := handles }.references x =
      w.references x
  | _ => True

/-- A retain finds an object with a count, not one whose destruction is under way, and does not
overflow the count. -/
def NoRevival (w : Machine) : Act → Prop
  | .retain obj => obj ≠ 0 → w.count obj ≠ 0 ∧ w.count obj + 1 < COUNT_END
  | _ => True

/-- A machine before any finalization, whose counts are the numbers of references. -/
structure Settled (w : Machine) : Prop where
  no_queue : w.pending = []
  no_frames : w.stack = []
  none_begun : w.begun = []
  none_dropped : w.drops = []
  none_released : w.released = []
  none_freed : w.freed = []
  known_once : w.known.Nodup
  null_unknown : 0 ∉ w.known
  offsets_once : ∀ o, (w.desc o).rcOffsets.Nodup
  small : ∀ x, w.count x < COUNT_END
  counted : ∀ x, x ≠ 0 →
    w.references x = if x ∈ w.known ∧ w.RefCounted x then w.count x else 0

/-! ## The counts -/

/-- The counts are the numbers of references, with one more for an object whose reference is
given up but not yet released. -/
structure Counted (w : Machine) (owed : Nat) : Prop where
  counted : ∀ x, x ≠ 0 → w.references x + (if x = owed then 1 else 0) =
    if x ∈ w.known ∧ w.RefCounted x then w.count x else 0
  small : ∀ x, w.count x < COUNT_END
  known_once : w.known.Nodup
  null_unknown : 0 ∉ w.known
  offsets_once : ∀ o, (w.desc o).rcOffsets.Nodup

/-- The object of an owed reference is counted. -/
theorem Counted.owed_counted {w : Machine} {x : Nat} (h : Counted w x) (hx : x ≠ 0) :
    x ∈ w.known ∧ w.count x = w.references x + 1 := by
  have hc := h.counted x hx
  rw [if_pos rfl] at hc
  split at hc
  · rename_i hk
    exact ⟨hk.1, hc.symm⟩
  · omega

/-- The release pays what is owed. -/
theorem Counted.pay {w : Machine} {x : Nat} (h : Counted w x) : Counted (w.rcRelease x) 0 := by
  unfold Machine.rcRelease
  by_cases hx : x = 0
  · subst hx
    exact h
  · rw [if_neg hx]
    obtain ⟨_, hcount⟩ := h.owed_counted hx
    have hsmall := h.small x
    have hprev : (w.count x + (COUNT_END - 1)) % COUNT_END = w.count x - 1 := by
      rw [show w.count x + (COUNT_END - 1) = w.count x - 1 + COUNT_END by omega,
        Nat.add_mod_right, Nat.mod_eq_of_lt (by omega)]
    have hpaid : Counted { w with count := Function.update w.count x (w.count x - 1) } 0 := by
      refine ⟨fun y hy => ?_, fun y => ?_, h.known_once, h.null_unknown, h.offsets_once⟩
      · have hc := h.counted y hy
        by_cases hyx : y = x
        · subst hyx
          show w.references y + _ = if y ∈ w.known ∧ w.RefCounted y then
            Function.update w.count y (w.count y - 1) y else 0
          rw [Function.update_self]
          rw [if_pos rfl] at hc
          rw [if_neg hy]
          split at hc <;> rename_i hk
          · rw [if_pos hk]
            omega
          · omega
        · show w.references y + _ = if y ∈ w.known ∧ w.RefCounted y then
            Function.update w.count x (w.count x - 1) y else 0
          rw [Function.update_of_ne hyx, if_neg hy]
          rw [if_neg hyx] at hc
          exact hc
      · show Function.update w.count x (w.count x - 1) y < COUNT_END
        by_cases hyx : y = x
        · subst hyx
          rw [Function.update_self]
          omega
        · rw [Function.update_of_ne hyx]
          exact h.small y
    dsimp only
    rw [hprev]
    split
    · exact ⟨hpaid.counted, hpaid.small, h.known_once, h.null_unknown, h.offsets_once⟩
    · exact hpaid

/-! ## The history -/

/-- The finalizations so far: none began twice or early, their objects keep the count zero, those
on the stack know what they still have to release, and what is given back is released. -/
structure History (w : Machine) : Prop where
  no_queue : w.pending = []
  counting : ∀ f ∈ w.stack, f.caller = .rcFinalize
  begun_once : w.begunObjs.Nodup
  begun_known : ∀ o ∈ w.begunObjs, o ∈ w.known
  begun_zero : ∀ o ∈ w.begunObjs, w.count o = 0
  after_the_last_reference : ∀ e ∈ w.begun, e.2 = 0
  dropped_first : w.drops.Sublist w.begunObjs
  stack_once : (w.stack.map Frame.obj).Nodup
  stack_begun : ∀ f ∈ w.stack, f.obj ∈ w.begunObjs
  stack_known : ∀ f ∈ w.stack, f.obj ∈ w.known
  freed_once : w.freed.Nodup
  freed_begun : ∀ o ∈ w.freed, o ∈ w.begunObjs
  freed_over : ∀ f ∈ w.stack, f.obj ∉ w.freed
  released_once : (releasedSlots w.released).Nodup
  released_begun : ∀ s ∈ releasedSlots w.released, s.1 ∈ w.begunObjs
  remaining_once : ∀ f ∈ w.stack, (f.remaining w.desc).Nodup
  remaining_owned : ∀ f ∈ w.stack, ∀ off ∈ f.remaining w.desc, off ∈ (w.desc f.obj).rcOffsets
  remaining : ∀ f ∈ w.stack, ∀ off ∈ (w.desc f.obj).rcOffsets,
    off ∈ f.remaining w.desc ↔ (f.obj, off) ∉ releasedSlots w.released
  children_released : ∀ o ∈ w.freed, ∀ off ∈ (w.desc o).rcOffsets,
    (o, off) ∈ releasedSlots w.released

theorem History.destroyedOnce {w : Machine} (h : History w) : DestroyedOnce w :=
  ⟨h.begun_once.sublist h.dropped_first, h.dropped_first, h.after_the_last_reference,
    h.freed_once, h.released_once, h.children_released⟩

/-- Without its top, the stack is as good. -/
theorem History.pop {w : Machine} {f : Frame} {below : List Frame} (h : History w)
    (hstack : w.stack = f :: below) :
    History { w with stack := below } ∧ ∀ g ∈ below, g.obj ≠ f.obj := by
  have hbelow : ∀ g ∈ below, g ∈ w.stack := by
    intro g hg
    rw [hstack]
    exact List.mem_cons_of_mem f hg
  have honce := h.stack_once
  rw [hstack, List.map_cons, List.nodup_cons] at honce
  refine ⟨{ h with
    counting := fun g hg => h.counting g (hbelow g hg)
    stack_once := honce.2
    stack_begun := fun g hg => h.stack_begun g (hbelow g hg)
    stack_known := fun g hg => h.stack_known g (hbelow g hg)
    freed_over := fun g hg => h.freed_over g (hbelow g hg)
    remaining_once := fun g hg => h.remaining_once g (hbelow g hg)
    remaining_owned := fun g hg => h.remaining_owned g (hbelow g hg)
    remaining := fun g hg => h.remaining g (hbelow g hg) }, fun g hg he => ?_⟩
  exact honce.1 (List.mem_map.mpr ⟨g, hg, he⟩)

/-- A finalization goes on top of the stack. -/
theorem History.push {w : Machine} {f : Frame} (h : History w) (hcaller : f.caller = .rcFinalize)
    (hbegun : f.obj ∈ w.begunObjs) (hknown : f.obj ∈ w.known) (hfreed : f.obj ∉ w.freed)
    (hothers : ∀ g ∈ w.stack, g.obj ≠ f.obj) (honce : (f.remaining w.desc).Nodup)
    (howned : ∀ off ∈ f.remaining w.desc, off ∈ (w.desc f.obj).rcOffsets)
    (hleft : ∀ off ∈ (w.desc f.obj).rcOffsets,
      off ∈ f.remaining w.desc ↔ (f.obj, off) ∉ releasedSlots w.released) :
    History { w with stack := f :: w.stack } := by
  refine { h with
    counting := List.forall_mem_cons.mpr ⟨hcaller, h.counting⟩
    stack_once := List.nodup_cons.mpr ⟨fun hmem => ?_, h.stack_once⟩
    stack_begun := List.forall_mem_cons.mpr ⟨hbegun, h.stack_begun⟩
    stack_known := List.forall_mem_cons.mpr ⟨hknown, h.stack_known⟩
    freed_over := List.forall_mem_cons.mpr ⟨hfreed, h.freed_over⟩
    remaining_once := List.forall_mem_cons.mpr ⟨honce, h.remaining_once⟩
    remaining_owned := List.forall_mem_cons.mpr ⟨howned, h.remaining_owned⟩
    remaining := List.forall_mem_cons.mpr ⟨hleft, h.remaining⟩ }
  obtain ⟨g, hg, he⟩ := List.mem_map.mp hmem
  exact hothers g hg he

/-- The start of a finalization is recorded, and the call of its drop function. -/
theorem History.record {w : Machine} {x : Nat} (h : History w) (hknown : x ∈ w.known)
    (hnew : x ∉ w.begunObjs) (hzero : w.count x = 0) (href : w.references x = 0)
    (calls : Bool) :
    History { w with
      begun := w.begun ++ [(x, w.references x)]
      drops := if calls then w.drops ++ [x] else w.drops } := by
  have hbegun : (w.begun ++ [(x, w.references x)]).map Prod.fst = w.begunObjs ++ [x] := by
    rw [List.map_append]
    rfl
  have hgrows : ∀ o ∈ w.begunObjs, o ∈ (w.begun ++ [(x, w.references x)]).map Prod.fst := by
    intro o ho
    rw [hbegun]
    exact List.mem_append_left _ ho
  have hcases : ∀ o ∈ (w.begun ++ [(x, w.references x)]).map Prod.fst,
      o ∈ w.begunObjs ∨ o = x := by
    intro o ho
    rw [hbegun, List.mem_append, List.mem_singleton] at ho
    exact ho
  refine { h with
    begun_once := ?_
    begun_known := fun o ho => (hcases o ho).elim (h.begun_known o) fun he => he ▸ hknown
    begun_zero := fun o ho => (hcases o ho).elim (h.begun_zero o) fun he => he ▸ hzero
    after_the_last_reference := fun e he => ?_
    dropped_first := ?_
    stack_begun := fun f hf => hgrows _ (h.stack_begun f hf)
    freed_begun := fun o ho => hgrows o (h.freed_begun o ho)
    released_begun := fun s hs => hgrows _ (h.released_begun s hs) }
  · show ((w.begun ++ [(x, w.references x)]).map Prod.fst).Nodup
    rw [hbegun, ← List.concat_eq_append]
    exact List.Nodup.concat hnew h.begun_once
  · rcases List.mem_append.mp he with he | he
    · exact h.after_the_last_reference e he
    · rw [List.mem_singleton.mp he]
      exact href
  · show (if calls then w.drops ++ [x] else w.drops).Sublist _
    unfold Machine.begunObjs
    rw [hbegun]
    cases calls with
    | false => exact h.dropped_first.trans (List.sublist_append_left _ _)
    | true => exact h.dropped_first.append (List.Sublist.refl _)

/-- A finalization that begins for the first time, without references. -/
theorem History.begin {w : Machine} {x : Nat} (h : History w)
    (hoff : (w.desc x).rcOffsets.Nodup) (hknown : x ∈ w.known) (hnew : x ∉ w.begunObjs)
    (hzero : w.count x = 0) (href : w.references x = 0) (calls : Bool) :
    History (w.beginFinalization .rcFinalize x calls) := by
  have hrecord := h.record hknown hnew hzero href calls
  have hremaining : Frame.remaining w.desc
      ⟨x, .rcFinalize, if calls then .dropping else .releasing (w.desc x).rcOffsets⟩ =
        (w.desc x).rcOffsets := by
    cases calls <;> rfl
  have hunreleased : ∀ off, (x, off) ∉ releasedSlots w.released :=
    fun off hr => hnew (h.released_begun _ hr)
  have hothers : ∀ g ∈ w.stack, g.obj ≠ x := fun g hg he => hnew (he ▸ h.stack_begun g hg)
  have hpush := hrecord.push
    (f := ⟨x, .rcFinalize, if calls then .dropping else .releasing (w.desc x).rcOffsets⟩) rfl
    (by simp [Machine.begunObjs]) hknown (fun hf => hnew (h.freed_begun x hf)) hothers
    (by rw [hremaining]; exact hoff) (fun off ho => by rwa [hremaining] at ho)
    (fun off ho => by rw [hremaining]; exact iff_of_true ho (hunreleased off))
  exact { hpush with }

/-- A count that changes is not one of the finalized objects. -/
theorem History.setCount {w : Machine} {x : Nat} (h : History w) (hnew : x ∉ w.begunObjs)
    (n : Nat) : History { w with count := Function.update w.count x n } := by
  refine { h with begun_zero := fun o ho => ?_ }
  have hne : o ≠ x := fun he => hnew (he ▸ ho)
  show Function.update w.count x n o = 0
  rw [Function.update_of_ne hne]
  exact h.begun_zero o ho

/-- The history of a release: it may begin one finalization. -/
theorem History.pay {w : Machine} {x : Nat} (h : History w) (hc : Counted w x) :
    History (w.rcRelease x) := by
  unfold Machine.rcRelease
  by_cases hx : x = 0
  · rw [if_pos hx]
    exact h
  · rw [if_neg hx]
    obtain ⟨hknown, hcount⟩ := hc.owed_counted hx
    have hnew : x ∉ w.begunObjs := by
      intro hb
      have hzero := h.begun_zero x hb
      omega
    have hpaid := h.setCount hnew ((w.count x + (COUNT_END - 1)) % COUNT_END)
    dsimp only
    split
    · rename_i hlast
      have href : w.references x = 0 := by omega
      have hzero : Function.update w.count x ((w.count x + (COUNT_END - 1)) % COUNT_END) x = 0 := by
        rw [Function.update_self, hlast]
        rfl
      have hbegin := hpaid.begin (hc.offsets_once x) hknown hnew hzero href
        (decide ((w.desc x).typeId ≠ 0 ∧ (w.desc x).typeId ∈ w.dropFns))
      exact { hbegin with }
    · exact hpaid

/-- The release of an owned field of an object whose finalization is taken from the stack. -/
theorem History.release {w : Machine} {obj off : Nat} (child : Nat) (h : History w)
    (hbegun : obj ∈ w.begunObjs) (hothers : ∀ g ∈ w.stack, g.obj ≠ obj)
    (hfresh : (obj, off) ∉ releasedSlots w.released) :
    History { w with released := w.released ++ [(obj, off, child)] } := by
  have hslots : releasedSlots (w.released ++ [(obj, off, child)]) =
      releasedSlots w.released ++ [(obj, off)] := by
    unfold releasedSlots
    rw [List.map_append]
    rfl
  have hmem : ∀ s, s ∈ releasedSlots (w.released ++ [(obj, off, child)]) ↔
      s ∈ releasedSlots w.released ∨ s = (obj, off) := by
    intro s
    rw [hslots, List.mem_append, List.mem_singleton]
  refine { h with
    released_once := ?_
    released_begun := fun s hs => ?_
    remaining := fun f hf o ho => ?_
    children_released := fun o ho o' ho' =>
      (hmem _).mpr (Or.inl (h.children_released o ho o' ho')) }
  · rw [hslots, ← List.concat_eq_append]
    exact List.Nodup.concat hfresh h.released_once
  · rcases (hmem s).mp hs with hs | rfl
    · exact h.released_begun s hs
    · exact hbegun
  · show o ∈ Frame.remaining w.desc f ↔ _
    rw [hmem, not_or, h.remaining f hf o ho]
    exact (and_iff_left fun he => hothers f hf (Prod.mk.inj he).1).symm

/-- The release of the next owned field, up to the release of the child. -/
theorem History.field {w : Machine} {obj off : Nat} {rest : List Nat} {below : List Frame}
    (h : History w) (hstack : w.stack = ⟨obj, .rcFinalize, .releasing (off :: rest)⟩ :: below) :
    History { w with
      stack := ⟨obj, .rcFinalize, .releasing rest⟩ :: below
      released := w.released ++ [(obj, off, w.slot obj off)] } ∧
      (obj, off) ∉ releasedSlots w.released ∧ obj ∈ w.known ∧
        off ∈ (w.desc obj).rcOffsets := by
  have htop : (⟨obj, .rcFinalize, .releasing (off :: rest)⟩ : Frame) ∈ w.stack := by
    rw [hstack]
    exact List.mem_cons_self
  have hbegun : obj ∈ w.begunObjs := h.stack_begun _ htop
  have hknown : obj ∈ w.known := h.stack_known _ htop
  have hfreed : obj ∉ w.freed := h.freed_over _ htop
  have honce : (off :: rest).Nodup := h.remaining_once _ htop
  have howned : ∀ o ∈ off :: rest, o ∈ (w.desc obj).rcOffsets := h.remaining_owned _ htop
  have hleft : ∀ o ∈ (w.desc obj).rcOffsets,
      o ∈ off :: rest ↔ (obj, o) ∉ releasedSlots w.released := h.remaining _ htop
  have hoff : off ∈ (w.desc obj).rcOffsets := howned off List.mem_cons_self
  have hfresh : (obj, off) ∉ releasedSlots w.released := (hleft off hoff).mp List.mem_cons_self
  obtain ⟨hpop, hothers⟩ := h.pop hstack
  have hrelease := hpop.release (w.slot obj off) hbegun hothers hfresh
  have hpush := hrelease.push (f := ⟨obj, .rcFinalize, .releasing rest⟩) rfl hbegun hknown hfreed
    hothers (List.nodup_cons.mp honce).2 (fun o ho => howned o (List.mem_cons_of_mem off ho))
    fun o ho => ?_
  · exact ⟨{ hpush with }, hfresh, hknown, hoff⟩
  · show o ∈ rest ↔ (obj, o) ∉ releasedSlots (w.released ++ [(obj, off, w.slot obj off)])
    unfold releasedSlots at hleft ⊢
    rw [List.map_append, List.mem_append, not_or, ← hleft o ho, List.mem_cons, List.map_singleton,
      List.mem_singleton]
    have hne : off ∉ rest := (List.nodup_cons.mp honce).1
    constructor
    · intro hr
      refine ⟨Or.inr hr, fun he => hne ?_⟩
      have hoff : o = off := (Prod.mk.inj he).2
      exact hoff ▸ hr
    · rintro ⟨rfl | hr, hne⟩
      · exact absurd rfl hne
      · exact hr

/-- A drop function returns. -/
theorem History.dropReturns {w : Machine} {obj : Nat} {caller : Finalizer} {below : List Frame}
    (h : History w) (hstack : w.stack = ⟨obj, caller, .dropping⟩ :: below) (handles : List Nat) :
    History { w with
      stack := ⟨obj, caller, .releasing (w.desc obj).rcOffsets⟩ :: below
      handles := handles } := by
  have htop : (⟨obj, caller, .dropping⟩ : Frame) ∈ w.stack := by
    rw [hstack]
    exact List.mem_cons_self
  have hcaller : caller = .rcFinalize := h.counting _ htop
  have hbegun : obj ∈ w.begunObjs := h.stack_begun _ htop
  have hknown : obj ∈ w.known := h.stack_known _ htop
  have hfreed : obj ∉ w.freed := h.freed_over _ htop
  have honce : (w.desc obj).rcOffsets.Nodup := h.remaining_once _ htop
  have hleft : ∀ o ∈ (w.desc obj).rcOffsets,
      o ∈ (w.desc obj).rcOffsets ↔ (obj, o) ∉ releasedSlots w.released := h.remaining _ htop
  obtain ⟨hpop, hothers⟩ := h.pop hstack
  have hpush := hpop.push (f := ⟨obj, caller, .releasing (w.desc obj).rcOffsets⟩) hcaller hbegun
    hknown hfreed hothers honce (fun o ho => ho) hleft
  exact { hpush with }

/-- A finalization ends: all its owned fields are released. -/
theorem History.finish {w : Machine} {obj : Nat} {caller : Finalizer} {below : List Frame}
    (h : History w) (hstack : w.stack = ⟨obj, caller, .releasing []⟩ :: below) :
    History (w.finishFinalization ⟨obj, caller, .releasing []⟩ below) := by
  have htop : (⟨obj, caller, .releasing []⟩ : Frame) ∈ w.stack := by
    rw [hstack]
    exact List.mem_cons_self
  have hcaller : caller = .rcFinalize := h.counting _ htop
  have hbegun : obj ∈ w.begunObjs := h.stack_begun _ htop
  have hover : obj ∉ w.freed := h.freed_over _ htop
  have hleft : ∀ o ∈ (w.desc obj).rcOffsets,
      o ∈ [] ↔ (obj, o) ∉ releasedSlots w.released := h.remaining _ htop
  have hdone : ∀ off ∈ (w.desc obj).rcOffsets, (obj, off) ∈ releasedSlots w.released := by
    intro off hoff
    by_contra hnot
    exact List.not_mem_nil ((hleft off hoff).mpr hnot)
  obtain ⟨hpop, hothers⟩ := h.pop hstack
  subst hcaller
  unfold Machine.finishFinalization
  dsimp only
  split
  · have hfreed : ∀ o ∈ w.freed ++ [obj], o ∈ w.freed ∨ o = obj := by
      intro o ho
      simpa using ho
    refine { hpop with
      freed_once := ?_
      freed_begun := fun o ho => ?_
      freed_over := fun f hf ho => ?_
      children_released := fun o ho => ?_ }
    · rw [← List.concat_eq_append]
      exact List.Nodup.concat hover h.freed_once
    · rcases hfreed o ho with ho | rfl
      · exact h.freed_begun o ho
      · exact hbegun
    · rcases hfreed _ ho with ho | ho
      · exact hpop.freed_over f hf ho
      · exact hothers f hf ho
    · rcases hfreed o ho with ho | rfl
      · exact h.children_released o ho
      · exact hdone
  · exact { hpop with }

/-! ## What each step owes -/

theorem mem_ownedSlots {desc : Nat → Desc} {known : List Nat} {s : Nat × Nat} :
    s ∈ ownedSlots desc known ↔ s.1 ∈ known ∧ s.2 ∈ (desc s.1).rcOffsets := by
  unfold ownedSlots
  rw [List.mem_flatMap]
  constructor
  · rintro ⟨o, ho, hs⟩
    obtain ⟨off, hoff, rfl⟩ := List.mem_map.mp hs
    exact ⟨ho, hoff⟩
  · rintro ⟨ho, hoff⟩
    exact ⟨s.1, ho, List.mem_map.mpr ⟨s.2, hoff, rfl⟩⟩

theorem ownedSlots_nodup {desc : Nat → Desc} {known : List Nat} (hknown : known.Nodup)
    (hoff : ∀ o, (desc o).rcOffsets.Nodup) : (ownedSlots desc known).Nodup := by
  unfold ownedSlots
  rw [List.nodup_flatMap]
  refine ⟨fun o _ => (hoff o).map fun a b hab => (Prod.mk.inj hab).2, ?_⟩
  refine hknown.imp fun {a b} hab s hs hs' => ?_
  obtain ⟨_, _, rfl⟩ := List.mem_map.mp hs
  obtain ⟨_, _, he⟩ := List.mem_map.mp hs'
  exact hab (Prod.mk.inj he).1.symm

/-- When a field is released, one field less holds its child. -/
theorem countP_released {slots done : List (Nat × Nat)} {s : Nat × Nat} (hslots : slots.Nodup)
    (hs : s ∈ slots) (hfresh : s ∉ done) (value : Nat × Nat → Nat) (x : Nat) :
    (slots.countP fun f => decide (value f = x ∧ f ∉ done ++ [s])) +
        (if x = value s then 1 else 0) =
      slots.countP fun f => decide (value f = x ∧ f ∉ done) := by
  have hmem : ∀ f, f ≠ s → (f ∉ done ++ [s] ↔ f ∉ done) := by
    intro f hf
    simp [hf]
  induction slots with
  | nil => exact absurd hs List.not_mem_nil
  | cons f rest ih =>
    rw [List.nodup_cons] at hslots
    rw [List.countP_cons, List.countP_cons]
    by_cases hf : f = s
    · subst hf
      have hrest : (rest.countP fun g => decide (value g = x ∧ g ∉ done ++ [f])) =
          rest.countP fun g => decide (value g = x ∧ g ∉ done) := by
        refine List.countP_congr fun g hg => ?_
        have hgf : g ≠ f := fun he => hslots.1 (he ▸ hg)
        rw [decide_eq_true_iff, decide_eq_true_iff, hmem g hgf]
      rw [hrest]
      by_cases hx : x = value f
      · simp [hx, hfresh]
      · simp [hx, Ne.symm hx]
    · have hsr : s ∈ rest := (List.mem_cons.mp hs).resolve_left fun he => hf he.symm
      have hih := ih hslots.2 hsr
      have hhead : decide (value f = x ∧ f ∉ done ++ [s]) =
          decide (value f = x ∧ f ∉ done) := by
        simp only [hmem f hf]
      rw [hhead]
      omega

theorem Counted.retain {w : Machine} {x : Nat} (h : Counted w 0)
    (hlive : x = 0 ∨ ((x ∈ w.known ∧ w.RefCounted x) ∧ w.count x + 1 < COUNT_END)) :
    Counted
      ({ w with held := Function.update w.held x (w.held x + 1) }.rcRetain x) 0 := by
  unfold Machine.rcRetain
  have hheld : ∀ y, y ≠ x → Function.update w.held x (w.held x + 1) y = w.held y :=
    fun y hy => Function.update_of_ne hy ..
  split
  · rename_i hx
    refine ⟨fun y hy => ?_, h.small, h.known_once, h.null_unknown, h.offsets_once⟩
    have hc := h.counted y hy
    show Function.update w.held x (w.held x + 1) y + w.ownedReferences y + _ = _
    rw [hheld y fun hyx => hy (hyx.trans hx)]
    exact hc
  · rename_i hx
    obtain ⟨hcounted, hsmall⟩ := hlive.resolve_left hx
    have hmod : (w.count x + 1) % COUNT_END = w.count x + 1 := Nat.mod_eq_of_lt hsmall
    refine ⟨fun y hy => ?_, fun y => ?_, h.known_once, h.null_unknown, h.offsets_once⟩
    · have hc := h.counted y hy
      show Function.update w.held x (w.held x + 1) y + w.ownedReferences y + _ =
        if y ∈ w.known ∧ w.RefCounted y then
          Function.update w.count x ((w.count x + 1) % COUNT_END) y else 0
      rw [hmod]
      unfold Machine.references at hc
      by_cases hyx : y = x
      · subst hyx
        rw [if_pos hcounted] at hc ⊢
        rw [Function.update_self, Function.update_self]
        omega
      · rw [hheld y hyx, Function.update_of_ne hyx]
        exact hc
    · show Function.update w.count x ((w.count x + 1) % COUNT_END) y < COUNT_END
      rw [hmod]
      by_cases hyx : y = x
      · subst hyx
        rw [Function.update_self]
        exact hsmall
      · rw [Function.update_of_ne hyx]
        exact h.small y

/-- The program gives a reference up. -/
theorem Counted.give {w : Machine} {x : Nat} (h : Counted w 0) (hheld : x = 0 ∨ 0 < w.held x) :
    Counted (w.giveUp x) x := by
  refine ⟨fun y hy => ?_, h.small, h.known_once, h.null_unknown, h.offsets_once⟩
  have hc := h.counted y hy
  rw [if_neg hy] at hc
  show Function.update w.held x (w.held x - 1) y + w.ownedReferences y + _ =
    if y ∈ w.known ∧ w.RefCounted y then w.count y else 0
  unfold Machine.references at hc
  by_cases hyx : y = x
  · subst hyx
    have hpos := hheld.resolve_left hy
    rw [Function.update_self, if_pos rfl, ← hc]
    omega
  · rw [Function.update_of_ne hyx, if_neg hyx]
    exact hc

/-- A finalization gives the reference of an owned field up. -/
theorem Counted.field {w : Machine} {obj off : Nat} (h : Counted w 0) (hknown : obj ∈ w.known)
    (hoff : off ∈ (w.desc obj).rcOffsets) (hfresh : (obj, off) ∉ releasedSlots w.released)
    (stack : List Frame) :
    Counted { w with
      stack := stack
      released := w.released ++ [(obj, off, w.slot obj off)] } (w.slot obj off) := by
  refine ⟨fun y hy => ?_, h.small, h.known_once, h.null_unknown, h.offsets_once⟩
  have hc := h.counted y hy
  rw [if_neg hy] at hc
  have hslot : (obj, off) ∈ ownedSlots w.desc w.known := mem_ownedSlots.mpr ⟨hknown, hoff⟩
  have hcount := countP_released (ownedSlots_nodup h.known_once h.offsets_once) hslot hfresh
    (fun f => w.slot f.1 f.2) y
  have hslots : releasedSlots (w.released ++ [(obj, off, w.slot obj off)]) =
      releasedSlots w.released ++ [(obj, off)] := by
    unfold releasedSlots
    rw [List.map_append]
    rfl
  show w.held y + ((ownedSlots w.desc w.known).countP fun f => decide (w.slot f.1 f.2 = y ∧
    f ∉ releasedSlots (w.released ++ [(obj, off, w.slot obj off)]))) + _ = _
  rw [hslots, Nat.add_assoc, hcount]
  exact hc

/-- A new object has no references but the one of the program. -/
theorem Counted.alloc {w : Machine} {x : Nat} (h : Counted w 0) (hx : x ≠ 0)
    (hnew : x ∉ w.known) : Counted (w.allocate x) 0 := by
  have howned : ∀ y, y ≠ 0 → (w.allocate x).ownedReferences y = w.ownedReferences y := by
    intro y hy
    unfold Machine.ownedReferences Machine.allocate
    dsimp only
    unfold ownedSlots
    rw [List.flatMap_append, List.countP_append]
    have hold : ∀ f ∈ ownedSlots w.desc w.known, f.1 ≠ x :=
      fun f hf he => hnew (he ▸ (mem_ownedSlots.mp hf).1)
    have hnone : ([x].flatMap fun o => (w.desc o).rcOffsets.map fun off => (o, off)).countP
        (fun f => decide (Function.update w.slot x (fun _ => 0) f.1 f.2 = y ∧
          f ∉ releasedSlots w.released)) = 0 := by
      rw [List.countP_eq_zero]
      intro f hf hd
      obtain ⟨off, _, rfl⟩ := List.mem_map.mp (by simpa using hf)
      have hval := (of_decide_eq_true hd).1
      rw [Function.update_self] at hval
      exact hy hval.symm
    rw [hnone, Nat.add_zero]
    refine List.countP_congr fun f hf => ?_
    rw [decide_eq_true_iff, decide_eq_true_iff, Function.update_of_ne (hold f hf)]
  have hfresh := h.counted x hx
  rw [if_neg hx, if_neg fun hk => hnew hk.1] at hfresh
  unfold Machine.references at hfresh
  refine ⟨fun y hy => ?_, fun y => ?_, ?_, ?_, h.offsets_once⟩
  · have hc := h.counted y hy
    rw [if_neg hy] at hc ⊢
    unfold Machine.references at hc ⊢
    rw [howned y hy]
    show (if w.RefCounted x then Function.update w.held x (w.held x + 1) else w.held) y +
      w.ownedReferences y + 0 = if y ∈ w.known ++ [x] ∧ w.RefCounted y then
        (if w.RefCounted x then Function.update w.count x RC_INITIAL else w.count) y else 0
    by_cases hyx : y = x
    · subst hyx
      by_cases hk : w.RefCounted y
      · rw [if_pos hk, if_pos hk, if_pos ⟨List.mem_append_right _ (List.mem_singleton_self y), hk⟩,
          Function.update_self, Function.update_self]
        unfold RC_INITIAL
        omega
      · rw [if_neg hk, if_neg fun hc => hk hc.2]
        omega
    · have hmem : y ∈ w.known ++ [x] ↔ y ∈ w.known := by simp [hyx]
      simp only [hmem]
      split
      · rw [Function.update_of_ne hyx, Function.update_of_ne hyx]
        exact hc
      · exact hc
  · show (if w.RefCounted x then Function.update w.count x RC_INITIAL else w.count) y < COUNT_END
    split
    · by_cases hyx : y = x
      · subst hyx
        rw [Function.update_self]
        decide
      · rw [Function.update_of_ne hyx]
        exact h.small y
    · exact h.small y
  · show (w.known ++ [x]).Nodup
    rw [← List.concat_eq_append]
    exact List.Nodup.concat hnew h.known_once
  · show 0 ∉ w.known ++ [x]
    rw [List.mem_append, List.mem_singleton, not_or]
    exact ⟨h.null_unknown, Ne.symm hx⟩

/-! ## Runs -/

theorem Settled.counted_history {w : Machine} (h : Settled w) : Counted w 0 ∧ History w := by
  refine ⟨⟨fun x hx => ?_, h.small, h.known_once, h.null_unknown, h.offsets_once⟩, ?_⟩
  · rw [if_neg hx]
    exact h.counted x hx
  · constructor <;>
      simp [h.no_queue, h.no_frames, h.none_begun, h.none_dropped, h.none_released, h.none_freed,
        Machine.begunObjs, releasedSlots]

/-- A step keeps the counts and the history. -/
theorem counted_history_step {w w' : Machine} {a : Act} (hc : Counted w 0) (hh : History w)
    (hb : Balanced w a) (hn : NoRevival w a) (hs : step w a = some w') :
    Counted w' 0 ∧ History w' := by
  cases step_cases hs with
  | @retain x hruns =>
    by_cases hx : x = 0
    · subst hx
      exact ⟨hc.retain (Or.inl rfl), { hh with }⟩
    · obtain ⟨hcount, hsmall⟩ := hn hx
      refine ⟨hc.retain (Or.inr ⟨hb.resolve_left hx, hsmall⟩), ?_⟩
      have hset := hh.setCount (fun hbegun => hcount (hh.begun_zero x hbegun))
        ((w.count x + 1) % COUNT_END)
      unfold Machine.rcRetain
      rw [if_neg hx]
      exact { hset with }
  | @release x hruns =>
    have howed := hc.give hb
    have hgiven : History (w.giveUp x) := { hh with }
    exact ⟨howed.pay, hgiven.pay howed⟩
  | @alloc x hruns hx hnew =>
    refine ⟨hc.alloc hx hnew, { hh with
      begun_known := fun o ho => List.mem_append_left _ (hh.begun_known o ho)
      begun_zero := fun o ho => ?_
      stack_known := fun f hf => List.mem_append_left _ (hh.stack_known f hf) }⟩
    have hne : o ≠ x := fun he => hnew (he ▸ hh.begun_known o ho)
    unfold Machine.allocate
    dsimp only
    split
    · rw [Function.update_of_ne hne]
      exact hh.begun_zero o ho
    · exact hh.begun_zero o ho
  | mutate hruns =>
    refine ⟨⟨fun x hx => ?_, hc.small, hc.known_once, hc.null_unknown, hc.offsets_once⟩,
      { hh with }⟩
    rw [hb x hx]
    exact hc.counted x hx
  | takeItem hruns hlast =>
    rw [hh.no_queue] at hlast
    exact absurd hlast (by simp)
  | dropReturns hstack =>
    exact ⟨⟨hc.counted, hc.small, hc.known_once, hc.null_unknown, hc.offsets_once⟩,
      hh.dropReturns hstack _⟩
  | @releaseNext obj off caller rest below hstack =>
    have htop : (⟨obj, caller, .releasing (off :: rest)⟩ : Frame) ∈ w.stack := by
      rw [hstack]
      exact List.mem_cons_self
    have hcaller : caller = .rcFinalize := hh.counting _ htop
    subst hcaller
    obtain ⟨hfield, hfresh, hknown, hoff⟩ := hh.field hstack
    have howed := hc.field hknown hoff hfresh (⟨obj, .rcFinalize, .releasing rest⟩ :: below)
    exact ⟨howed.pay, hfield.pay howed⟩
  | @finish obj caller below hstack =>
    refine ⟨?_, hh.finish hstack⟩
    cases caller <;>
      exact ⟨hc.counted, hc.small, hc.known_once, hc.null_unknown, hc.offsets_once⟩

/-- In a run of a balanced program where no retain finds an object whose count is zero, each
object is destroyed once. -/
theorem each_object_is_destroyed_once_while_none_is_revived {w : Machine}
    (h : base.runs.Reaches step Settled (fun w a => Balanced w a ∧ NoRevival w a) w) :
    DestroyedOnce w := by
  have hinv : Counted w 0 ∧ History w :=
    h.invariant (fun w hw => hw.counted_history)
      fun w a w' hi hok hs => counted_history_step hi.1 hi.2 hok.1 hok.2 hs
  exact hinv.2.destroyedOnce

/-- Two `@RefCounted` objects with a `Drop`. The program holds the first, which owns the second. -/
def pairMachine : Machine where
  desc o := ⟨.refCounted, 1, [], if o = 16 then [8] else [], []⟩
  count o := if o = 16 ∨ o = 32 then 1 else 0
  slot o off := if o = 16 ∧ off = 8 then 32 else 0
  pointers o := if o = 16 then [32] else []
  known := [16, 32]
  registry := [16, 32]
  pending := []
  extraRoots _ := 0
  dropFns := [1]
  held o := if o = 16 then 1 else 0
  handles := [16]
  stack := []
  begun := []
  drops := []
  released := []
  endpoints := []
  freed := []

theorem pairMachine_settled : Settled pairMachine := by
  refine ⟨rfl, rfl, rfl, rfl, rfl, rfl, by decide, by decide, fun o => ?_, fun x => ?_,
    fun x _ => ?_⟩
  · show (if o = 16 then [8] else []).Nodup
    split <;> simp
  · show (if x = 16 ∨ x = 32 then 1 else 0) < COUNT_END
    split <;> decide
  · by_cases h16 : x = 16
    · subst h16
      decide
    · by_cases h32 : x = 32
      · subst h32
        decide
      · have hunknown : x ∉ pairMachine.known := by simp [pairMachine, h16, h32]
        have howned : pairMachine.ownedReferences x = 0 := by
          unfold Machine.ownedReferences
          rw [List.countP_eq_zero]
          intro f hf
          obtain rfl : f = (16, 8) := by simpa [ownedSlots, pairMachine] using hf
          simp [pairMachine, Ne.symm h32]
        rw [if_neg fun hk => hunknown hk.1]
        unfold Machine.references
        rw [howned]
        simp [pairMachine, h16]

/-- The drop function of the first object retains and releases the second, which goes next. -/
theorem a_released_object_is_destroyed_once : ∃ w,
    base.runs.Reaches step Settled (fun w a => Balanced w a ∧ NoRevival w a) w ∧
      w.drops = [16, 32] ∧ w.freed = [32, 16] ∧ DestroyedOnce w := by
  have hrun : ∃ w, base.runs.Reaches step Settled (fun w a => Balanced w a ∧ NoRevival w a) w ∧
      w.drops = [16, 32] ∧ w.freed = [32, 16] := by
    refine ⟨_, .next (l := .finish) (.next (l := .finish) (.next (l := .dropReturns)
      (.next (l := .releaseNext) (.next (l := .dropReturns) (.next (l := .release 32)
      (.next (l := .retain 32) (.next (l := .release 16) (.start pairMachine_settled)
      ⟨Or.inr ?_, trivial⟩ rfl) ⟨Or.inr ?_, fun _ => ?_⟩ rfl) ⟨Or.inr ?_, trivial⟩ rfl)
      ⟨trivial, trivial⟩ rfl) ⟨trivial, trivial⟩ rfl) ⟨trivial, trivial⟩ rfl)
      ⟨trivial, trivial⟩ rfl) ⟨trivial, trivial⟩ rfl, rfl, rfl⟩
    all_goals decide
  obtain ⟨w, hw, hdrops, hfreed⟩ := hrun
  exact ⟨w, hw, hdrops, hfreed, each_object_is_destroyed_once_while_none_is_revived hw⟩

/-- A drop function that retains and releases its own object is called again. -/
theorem a_drop_that_retains_its_object_is_called_twice : ∃ w,
    base.runs.Reaches step Settled Balanced w ∧ ¬DestroyedOnce w := by
  refine ⟨_, .next (l := .release 16) (.next (l := .retain 16) (.next (l := .release 16)
    (.start pairMachine_settled) (Or.inr ?_) rfl) (Or.inr ?_) rfl) (Or.inr ?_) rfl,
    fun h => absurd h.dropped_once ?_⟩
  all_goals decide

end runtime.gc
