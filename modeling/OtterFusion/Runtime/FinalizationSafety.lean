-- Safe finalization (`gc.rs`, `run_finalizers` and `rc_finalize`): when a drop function is
-- called, all that its object leads to is allocated, and the function was not called before.
-- This holds as long as no object is given back that one still waiting leads to, and no release
-- finalizes an object of the queue.
import OtterFusion.Runtime.CollectExact
import OtterFusion.Runtime.Finalization

namespace runtime.gc

open base.marking

/-! ## What a run has to keep -/

/-- There is a path of pointers from an object to another. -/
abbrev Machine.Leads (w : Machine) : Nat → Nat → Prop := Reach w.pointers

/-- An object that was given out and not given back. -/
def Machine.Allocated (w : Machine) (obj : Nat) : Prop := obj ∈ w.known ∧ obj ∉ w.freed

/-- The objects of the finalizer queue. -/
def Machine.queued (w : Machine) : List Nat := w.pending.map Prod.fst

/-- The program can get at an object: one of its handles leads there. -/
def Machine.Accessible (w : Machine) (obj : Nat) : Prop := ReachFrom w.pointers w.handles obj

/-- The program uses what it can get at: it releases such objects, it stores into such objects,
and it stores pointers to such objects. An owned field is one of the pointers of its object. -/
def WellUsed (w : Machine) : Act → Prop
  | .release obj => obj = 0 ∨ w.Accessible obj
  | .mutate slot pointers _ handles =>
    (∀ o, (slot o = w.slot o ∧ pointers o = w.pointers o) ∨
      (w.Accessible o ∧ (∀ b ∈ pointers o, w.Accessible b) ∧
        ∀ off ∈ (w.desc o).rcOffsets, slot o off ≠ 0 → slot o off ∈ pointers o)) ∧
      ∀ b ∈ handles, w.Accessible b
  | _ => True

/-- A release that takes a count to zero finds its object in the registry, where no object of
the queue is, and not under finalization. -/
def FindsRegistered (w : Machine) (obj : Nat) : Prop :=
  obj ≠ 0 → w.count obj = 1 → obj ∈ w.registry ∧ obj ∉ w.stack.map Frame.obj

/-- The end of this finalization gives its object back. -/
def Machine.GivesBack (w : Machine) (f : Frame) : Prop :=
  f.caller = .rcFinalize → f.obj ∈ w.registry

/-- The children that a finalization has still to release. `run_finalizers` releases none. -/
def Machine.owedBy (w : Machine) (f : Frame) : List Nat :=
  match f.caller with
  | .rcFinalize => ((f.remaining w.desc).map (w.slot f.obj)).filter (· ≠ 0)
  | .runFinalizers => []

/-- What is still needed: the queue, the children that these finalizations have still to release,
and the handles. -/
def Machine.needed (w : Machine) (stack : List Frame) : List Nat :=
  w.queued ++ stack.flatMap w.owedBy ++ w.handles

/-- No release finalizes what the queue holds or what is under finalization, and when an object
is given back, nothing that is still needed leads to it: no object of the queue, no child to be
released, and no handle. -/
def Untangled (w : Machine) : Act → Prop
  | .release obj => FindsRegistered w obj
  | .releaseNext => ∀ f ∈ w.stack.head?, f.caller = .rcFinalize → ∀ off rest,
    f.phase = .releasing (off :: rest) → FindsRegistered w (w.slot f.obj off)
  | .finish => ∀ f ∈ w.stack.head?, w.GivesBack f →
    ∀ r ∈ w.needed w.stack.tail, ¬w.Leads r f.obj
  | _ => True

/-- Before the finalizers run: what the queue and the handles lead to is allocated, and the
objects of the queue are out of the registry. -/
structure Ready (w : Machine) : Prop where
  no_frames : w.stack = []
  none_begun : w.begun = []
  none_dropped : w.drops = []
  queued_once : w.queued.Nodup
  unregistered : ∀ o ∈ w.queued, o ∉ w.registry
  freed_known : ∀ o ∈ w.freed, o ∈ w.known
  allocated : ∀ r ∈ w.queued ++ w.handles, ∀ b, w.Leads r b → w.Allocated b
  owned_traced : ∀ o, w.Allocated o → ∀ off ∈ (w.desc o).rcOffsets, w.slot o off ≠ 0 →
    w.slot o off ∈ w.pointers o

/-! ## The invariant -/

/-- What is needed leads to allocated objects only, and no object is finalized twice: one whose
finalization has begun is under it, or is given back. -/
structure Safe (w : Machine) : Prop where
  allocated : ∀ r ∈ w.needed w.stack, ∀ b, w.Leads r b → w.Allocated b
  freed_known : ∀ o ∈ w.freed, o ∈ w.known
  queued_once : w.queued.Nodup
  unregistered : ∀ o ∈ w.queued, o ∉ w.registry
  waiting : ∀ o ∈ w.queued, o ∉ w.stack.map Frame.obj
  stack_once : (w.stack.map Frame.obj).Nodup
  stack_allocated : ∀ f ∈ w.stack, w.Allocated f.obj
  counting : ∀ f ∈ w.stack, f.caller = .rcFinalize → f.obj ∈ w.registry
  begun_over : ∀ o ∈ w.begunObjs, o ∈ w.stack.map Frame.obj ∨ o ∈ w.freed
  begun_once : w.begunObjs.Nodup
  dropped_first : w.drops.Sublist w.begunObjs
  owned_traced : ∀ o, w.Allocated o → ∀ off ∈ (w.desc o).rcOffsets, w.slot o off ≠ 0 →
    w.slot o off ∈ w.pointers o
  remaining_owned : ∀ f ∈ w.stack, ∀ off ∈ f.remaining w.desc, off ∈ (w.desc f.obj).rcOffsets

theorem Ready.safe {w : Machine} (h : Ready w) : Safe w := by
  have hframes : ∀ f, f ∉ w.stack := by
    rw [h.no_frames]
    exact fun f => List.not_mem_nil
  have hbegun : w.begunObjs = [] := by simp [Machine.begunObjs, h.none_begun]
  refine ⟨fun r hr => h.allocated r ?_, h.freed_known, h.queued_once, h.unregistered,
    fun o _ => ?_, ?_, fun f hf => absurd hf (hframes f), fun f hf => absurd hf (hframes f),
    fun o ho => ?_, ?_, ?_, h.owned_traced, fun f hf => absurd hf (hframes f)⟩
  · unfold Machine.needed at hr
    rw [h.no_frames] at hr
    simpa using hr
  · simp [h.no_frames]
  · simp [h.no_frames]
  · simp [hbegun] at ho
  · simp [hbegun]
  · rw [h.none_dropped]
    exact List.nil_sublist _

theorem mem_needed {w : Machine} {stack : List Frame} {r : Nat} :
    r ∈ w.needed stack ↔ r ∈ w.queued ∨ (∃ f ∈ stack, r ∈ w.owedBy f) ∨ r ∈ w.handles := by
  unfold Machine.needed
  rw [List.mem_append, List.mem_append, List.mem_flatMap, or_assoc]

theorem mem_owedBy {w : Machine} {f : Frame} {r : Nat} : r ∈ w.owedBy f ↔
    f.caller = .rcFinalize ∧ ∃ off ∈ f.remaining w.desc, w.slot f.obj off = r ∧ r ≠ 0 := by
  unfold Machine.owedBy
  cases f.caller with
  | runFinalizers => simp
  | rcFinalize =>
    simp only [List.mem_filter, List.mem_map, decide_eq_true_iff, true_and]
    constructor
    · rintro ⟨⟨off, hoff, he⟩, hne⟩
      exact ⟨off, hoff, he, hne⟩
    · rintro ⟨off, hoff, he, hne⟩
      exact ⟨⟨off, hoff, he⟩, hne⟩

theorem handle_needed {w : Machine} {stack : List Frame} {r : Nat} (hr : r ∈ w.handles) :
    r ∈ w.needed stack :=
  mem_needed.mpr (.inr (.inr hr))

/-- What the program can get at is allocated. -/
theorem Safe.accessible {w : Machine} (h : Safe w) {o : Nat} (ho : w.Accessible o) :
    w.Allocated o := by
  obtain ⟨r, hr, hro⟩ := ho
  exact h.allocated r (handle_needed hr) o hro

theorem Machine.Accessible.leads {w : Machine} {a b : Nat} (ha : w.Accessible a)
    (hb : w.Leads a b) : w.Accessible b := by
  obtain ⟨r, hr, hra⟩ := ha
  exact ⟨r, hr, hra.trans hb⟩

/-- An object that is not under finalization, and not given back, has not been finalized. -/
theorem Safe.not_begun {w : Machine} {x : Nat} (h : Safe w) (hx : w.Allocated x)
    (hother : x ∉ w.stack.map Frame.obj) : x ∉ w.begunObjs :=
  fun hb => (h.begun_over x hb).elim hother hx.2

/-- A finalization begins, of an object that leads to allocated objects only. -/
theorem Safe.begin {w : Machine} {x : Nat} (h : Safe w)
    (hx : ∀ b, w.Leads x b → w.Allocated b) (hqueued : x ∉ w.queued)
    (hother : x ∉ w.stack.map Frame.obj) (caller : Finalizer)
    (hregistered : caller = .rcFinalize → x ∈ w.registry) (calls : Bool) :
    Safe (w.beginFinalization caller x calls) := by
  have hnew := h.not_begun (hx x .refl) hother
  have hbegun : (w.beginFinalization caller x calls).begunObjs = w.begunObjs ++ [x] := by
    unfold Machine.begunObjs Machine.beginFinalization
    rw [List.map_append]
    rfl
  have hremaining : ∀ off ∈ Frame.remaining w.desc
      ⟨x, caller, if calls then .dropping else .releasing (w.desc x).rcOffsets⟩,
      off ∈ (w.desc x).rcOffsets := by
    intro off hoff
    cases calls <;> exact hoff
  have hneeded : ∀ r ∈ (w.beginFinalization caller x calls).needed
      (w.beginFinalization caller x calls).stack, r ∈ w.needed w.stack ∨ w.Leads x r := by
    intro r hr
    rcases mem_needed.mp hr with hr | ⟨f, hf, hr⟩ | hr
    · exact .inl (mem_needed.mpr (.inl hr))
    · rcases List.mem_cons.mp hf with rfl | hf
      · obtain ⟨_, off, hoff, rfl, hne⟩ := mem_owedBy.mp hr
        exact .inr (.single (h.owned_traced x (hx x .refl) off (hremaining off hoff) hne))
      · exact .inl (mem_needed.mpr (.inr (.inl ⟨f, hf, hr⟩)))
    · unfold Machine.beginFinalization at hr
      cases calls with
      | false => exact .inl (handle_needed hr)
      | true =>
        rcases List.mem_cons.mp hr with rfl | hr
        · exact .inr .refl
        · exact .inl (handle_needed hr)
  refine { h with
    allocated := fun r hr b hb => ?_
    waiting := fun o ho => ?_
    stack_once := List.nodup_cons.mpr ⟨hother, h.stack_once⟩
    stack_allocated := List.forall_mem_cons.mpr ⟨hx x .refl, h.stack_allocated⟩
    counting := List.forall_mem_cons.mpr ⟨hregistered, h.counting⟩
    begun_over := fun o ho => ?_
    begun_once := ?_
    dropped_first := ?_
    remaining_owned := List.forall_mem_cons.mpr ⟨hremaining, h.remaining_owned⟩ }
  · rcases hneeded r hr with hr | hr
    · exact h.allocated r hr b hb
    · exact hx b (hr.trans hb)
  · intro hmem
    rcases List.mem_cons.mp hmem with he | hmem
    · exact hqueued ((show o = x from he) ▸ ho)
    · exact h.waiting o ho hmem
  · rw [hbegun, List.mem_append, List.mem_singleton] at ho
    rcases ho with ho | rfl
    · exact (h.begun_over o ho).imp_left (List.mem_cons_of_mem _)
    · exact .inl List.mem_cons_self
  · rw [hbegun, ← List.concat_eq_append]
    exact List.Nodup.concat hnew h.begun_once
  · rw [hbegun]
    unfold Machine.beginFinalization
    cases calls with
    | false => exact h.dropped_first.trans (List.sublist_append_left _ _)
    | true => exact h.dropped_first.append (List.Sublist.refl _)

/-- A release, of an object that leads to allocated objects only. -/
theorem Safe.release {w : Machine} {x : Nat} (h : Safe w)
    (hx : x ≠ 0 → ∀ b, w.Leads x b → w.Allocated b) (hfinds : FindsRegistered w x) :
    Safe (w.rcRelease x) := by
  unfold Machine.rcRelease
  split
  · exact h
  · rename_i hne
    dsimp only
    split
    · rename_i hlast
      obtain ⟨hregistered, hother⟩ := hfinds hne hlast
      have hbegin := h.begin (hx hne) (fun hq => h.unregistered x hq hregistered) hother
        .rcFinalize (fun _ => hregistered)
        (decide ((w.desc x).typeId ≠ 0 ∧ (w.desc x).typeId ∈ w.dropFns))
      exact { hbegin with }
    · exact { h with }

/-- What is needed under a smaller stack and fewer handles is needed. -/
theorem Safe.fewer {w : Machine} (h : Safe w) (stack : List Frame) (handles : List Nat)
    (howed : ∀ f ∈ stack, ∀ r ∈ w.owedBy f, r ∈ w.needed w.stack)
    (hhandles : ∀ r ∈ handles, r ∈ w.handles) :
    ∀ r ∈ { w with stack := stack, handles := handles }.needed stack, ∀ b, w.Leads r b →
      w.Allocated b := by
  intro r hr
  rcases mem_needed.mp hr with hr | ⟨f, hf, hr⟩ | hr
  · exact h.allocated r (mem_needed.mpr (.inl hr))
  · exact h.allocated r (howed f hf r hr)
  · exact h.allocated r (handle_needed (hhandles r hr))

theorem owed_needed {w : Machine} {f : Frame} (hf : f ∈ w.stack) :
    ∀ r ∈ w.owedBy f, r ∈ w.needed w.stack :=
  fun _ hr => mem_needed.mpr (.inr (.inl ⟨f, hf, hr⟩))

/-- The program gives a pointer up. -/
theorem Safe.giveUp {w : Machine} (h : Safe w) (x : Nat) : Safe (w.giveUp x) :=
  { h with
    allocated := h.fewer w.stack (w.handles.erase x) (fun _ hf => owed_needed hf)
      fun _ hr => List.mem_of_mem_erase hr }

/-- The program stores what it can get at. -/
theorem Safe.mutate {w : Machine} (h : Safe w) {slot : Nat → Nat → Nat}
    {pointers : Nat → List Nat} {held : Nat → Nat} {handles : List Nat}
    (hstores : ∀ o, (slot o = w.slot o ∧ pointers o = w.pointers o) ∨
      (w.Accessible o ∧ (∀ b ∈ pointers o, w.Accessible b) ∧
        ∀ off ∈ (w.desc o).rcOffsets, slot o off ≠ 0 → slot o off ∈ pointers o))
    (hhandles : ∀ b ∈ handles, w.Accessible b) :
    Safe { w with slot := slot, pointers := pointers, held := held, handles := handles } := by
  have hclosed : ∀ a, w.Accessible a → ∀ b ∈ w.pointers a, w.Accessible b :=
    fun _ ha _ hb => ha.next hb
  have hedges : ∀ a, ∀ b ∈ pointers a, b ∈ w.pointers a ∨ w.Accessible b := by
    intro a b hb
    rcases hstores a with ⟨_, hsame⟩ | ⟨_, hnew, _⟩
    · exact .inl (hsame ▸ hb)
    · exact .inr (hnew b hb)
  have hpath : ∀ {a b}, Reach pointers a b → w.Leads a b ∨ w.Accessible b :=
    fun hb => hb.of_new_edges hclosed hedges
  have haccessible : ∀ {a b}, w.Accessible a → Reach pointers a b → w.Accessible b :=
    fun ha hb => (hpath hb).elim ha.leads id
  refine { h with
    allocated := fun r hr b hb => ?_
    owned_traced := fun o ho off hoff hne => ?_ }
  · rcases mem_needed.mp hr with hr | ⟨f, hf, hr⟩ | hr
    · exact (hpath hb).elim (h.allocated r (mem_needed.mpr (.inl hr)) b) h.accessible
    · obtain ⟨hcaller, off, hoff, he, hne⟩ := mem_owedBy.mp hr
      rcases hstores f.obj with ⟨hsame, _⟩ | ⟨_, hnew, howned⟩
      · have howed : r ∈ w.owedBy f :=
          mem_owedBy.mpr ⟨hcaller, off, hoff, hsame ▸ he, hne⟩
        have hr : r ∈ w.needed w.stack := owed_needed (w := w) hf r howed
        exact (hpath hb).elim (h.allocated r hr b) h.accessible
      · subst he
        have hchild := howned off (h.remaining_owned f hf off hoff) hne
        exact h.accessible (haccessible (hnew _ hchild) hb)
    · exact h.accessible (haccessible (hhandles r hr) hb)
  · rcases hstores o with ⟨hslot, hpointers⟩ | ⟨_, _, howned⟩
    · have hold := h.owned_traced o ho off hoff
      rw [← hslot, ← hpointers] at hold
      exact hold hne
    · exact howned off hoff hne

/-- A new object is allocated, and leads nowhere. -/
theorem Safe.alloc {w : Machine} {x : Nat} (h : Safe w) (hnew : x ∉ w.known) :
    Safe (w.allocate x) := by
  have hfewer : ∀ a, ∀ b ∈ Function.update w.pointers x [] a, b ∈ w.pointers a := by
    intro a b hb
    by_cases hax : a = x
    · subst hax
      rw [Function.update_self] at hb
      exact absurd hb List.not_mem_nil
    · rwa [Function.update_of_ne hax] at hb
  have hkept : ∀ b, w.Allocated b → (w.allocate x).Allocated b :=
    fun b hb => ⟨List.mem_append_left _ hb.1, hb.2⟩
  have hx : (w.allocate x).Allocated x :=
    ⟨List.mem_append_right _ (List.mem_singleton_self x), fun hf => hnew (h.freed_known x hf)⟩
  have hother : ∀ o, w.Allocated o → o ≠ x := fun o ho he => hnew (he ▸ ho.1)
  have hregistry : ∀ o, o ≠ x → (o ∈ (w.allocate x).registry ↔ o ∈ w.registry) := by
    intro o ho
    unfold Machine.allocate
    dsimp only
    split
    · simp [ho]
    · rfl
  have hneeded : ∀ r ∈ (w.allocate x).needed w.stack, r ∈ w.needed w.stack ∨ r = x := by
    intro r hr
    rcases mem_needed.mp hr with hr | ⟨f, hf, hr⟩ | hr
    · exact .inl (mem_needed.mpr (.inl hr))
    · obtain ⟨hcaller, off, hoff, he, hne⟩ := mem_owedBy.mp hr
      have hslot : (w.allocate x).slot f.obj = w.slot f.obj :=
        Function.update_of_ne (hother _ (h.stack_allocated f hf)) ..
      rw [hslot] at he
      exact .inl (owed_needed hf r (mem_owedBy.mpr ⟨hcaller, off, hoff, he, hne⟩))
    · exact (List.mem_cons.mp hr).symm.imp_left handle_needed
  refine { h with
    allocated := fun r hr b hb => ?_
    freed_known := fun o ho => List.mem_append_left _ (h.freed_known o ho)
    unregistered := fun o ho => ?_
    stack_allocated := fun f hf => hkept _ (h.stack_allocated f hf)
    counting := fun f hf hcaller => ?_
    owned_traced := fun o ho off hoff => ?_ }
  · rcases hneeded r hr with hr | rfl
    · exact hkept b (h.allocated r hr b (Reach.mono hfewer hb))
    · rcases Relation.ReflTransGen.cases_head hb with rfl | ⟨c, hc, _⟩
      · exact hx
      · have hnone : (w.allocate r).pointers r = [] := Function.update_self ..
        rw [hnone] at hc
        exact absurd hc List.not_mem_nil
  · rw [hregistry o (hother o (h.allocated o (mem_needed.mpr (.inl ho)) o .refl))]
    exact h.unregistered o ho
  · rw [hregistry _ (hother _ (h.stack_allocated f hf))]
    exact h.counting f hf hcaller
  · show Function.update w.slot x (fun _ => 0) o off ≠ 0 →
      Function.update w.slot x (fun _ => 0) o off ∈ Function.update w.pointers x [] o
    by_cases hox : o = x
    · subst hox
      rw [Function.update_self]
      exact fun hne => absurd rfl hne
    · rw [Function.update_of_ne hox, Function.update_of_ne hox]
      refine h.owned_traced o ⟨?_, ho.2⟩ off hoff
      exact (List.mem_append.mp ho.1).resolve_right fun he => hox (List.mem_singleton.mp he)

/-- A finalization ends, and its object is given back. -/
theorem Safe.finish {w : Machine} {f : Frame} {below : List Frame} (h : Safe w)
    (hstack : w.stack = f :: below)
    (hfree : w.GivesBack f → ∀ r ∈ w.needed below, ¬w.Leads r f.obj) :
    Safe (w.finishFinalization f below) := by
  have htop : f ∈ w.stack := by
    rw [hstack]
    exact List.mem_cons_self
  have hbelow : ∀ g ∈ below, g ∈ w.stack := by
    intro g hg
    rw [hstack]
    exact List.mem_cons_of_mem f hg
  have honce := h.stack_once
  rw [hstack, List.map_cons, List.nodup_cons] at honce
  have hapart : ∀ g ∈ below, g.obj ≠ f.obj :=
    fun g hg he => honce.1 (List.mem_map.mpr ⟨g, hg, he⟩)
  have hgives : w.GivesBack f := h.counting f htop
  have hfreed : ∀ {o}, o ∉ w.freed → o ≠ f.obj → o ∉ w.freed ++ [f.obj] := by
    intro o ho hne hmem
    exact (List.mem_append.mp hmem).elim ho fun he => hne (List.mem_singleton.mp he)
  have hover : ∀ o ∈ w.begunObjs, o ∈ below.map Frame.obj ∨ o ∈ w.freed ++ [f.obj] := by
    intro o ho
    rcases h.begun_over o ho with ho | ho
    · rw [hstack, List.map_cons, List.mem_cons] at ho
      exact ho.symm.imp_right fun he => List.mem_append_right _ (List.mem_singleton.mpr he)
    · exact .inr (List.mem_append_left _ ho)
  have hback : Safe { w with stack := below, freed := w.freed ++ [f.obj] } := by
    refine { h with
      allocated := fun r hr b hb => ?_
      freed_known := fun o ho => ?_
      waiting := fun o ho hmem => ?_
      stack_once := honce.2
      stack_allocated := fun g hg => ?_
      counting := fun g hg => h.counting g (hbelow g hg)
      begun_over := hover
      owned_traced := fun o ho => h.owned_traced o ⟨ho.1, fun hf => ho.2 ?_⟩
      remaining_owned := fun g hg => h.remaining_owned g (hbelow g hg) }
    · have hall := h.fewer below w.handles
        (fun g hg => owed_needed (hbelow g hg)) (fun _ hr => hr) r hr b hb
      exact ⟨hall.1, hfreed hall.2 fun he => hfree hgives r hr (he ▸ hb)⟩
    · rcases List.mem_append.mp ho with ho | ho
      · exact h.freed_known o ho
      · rw [List.mem_singleton.mp ho]
        exact (h.stack_allocated f htop).1
    · refine h.waiting o ho ?_
      rw [hstack]
      exact List.mem_cons_of_mem _ hmem
    · have hall := h.stack_allocated g (hbelow g hg)
      exact ⟨hall.1, hfreed hall.2 (hapart g hg)⟩
    · exact List.mem_append_left _ hf
  unfold Machine.finishFinalization
  dsimp only
  split
  · exact { hback with }
  · rename_i hcaller
    rw [if_pos (hgives hcaller)]
    refine { hback with
      unregistered := fun o ho hmem => h.unregistered o ho (List.mem_of_mem_erase hmem)
      counting := fun g hg hc => ?_ }
    exact (List.mem_erase_of_ne (hapart g hg)).mpr (h.counting g (hbelow g hg) hc)

/-- The last item of the queue is taken. -/
theorem Safe.take {w : Machine} {obj tid : Nat} (h : Safe w)
    (hlast : w.pending.getLast? = some (obj, tid)) (calls : Bool) :
    Safe ({ w with pending := w.pending.dropLast }.beginFinalization .runFinalizers obj calls) := by
  obtain ⟨rest, hpending⟩ := List.getLast?_eq_some_iff.mp hlast
  have hqueued : w.queued = rest.map Prod.fst ++ [obj] := by
    unfold Machine.queued
    rw [hpending, List.map_append]
    rfl
  have hdrop : w.pending.dropLast = rest := by
    rw [hpending, List.dropLast_concat]
  have honce := h.queued_once
  rw [hqueued, ← List.concat_eq_append, List.nodup_concat] at honce
  have hobj : obj ∈ w.queued := by
    rw [hqueued]
    exact List.mem_append_right _ (List.mem_singleton_self obj)
  have hrest : ∀ o ∈ rest.map Prod.fst, o ∈ w.queued := by
    intro o ho
    rw [hqueued]
    exact List.mem_append_left _ ho
  rw [hdrop]
  have htaken : Safe { w with pending := rest } := by
    refine { h with
      allocated := fun r hr => h.allocated r ?_
      queued_once := honce.2
      unregistered := fun o ho => h.unregistered o (hrest o ho)
      waiting := fun o ho => h.waiting o (hrest o ho) }
    rcases mem_needed.mp hr with hr | hr
    · exact mem_needed.mpr (.inl (hrest r hr))
    · exact mem_needed.mpr (.inr hr)
  exact htaken.begin (h.allocated obj (mem_needed.mpr (.inl hobj))) honce.1 (h.waiting obj hobj)
    .runFinalizers (fun hc => by cases hc) calls

/-- The top of the stack is replaced by another turn of the same finalization. -/
theorem Safe.turn {w : Machine} {f g : Frame} {below : List Frame} (h : Safe w)
    (hstack : w.stack = f :: below) (hobj : g.obj = f.obj) (hcaller : g.caller = f.caller)
    (hremaining : ∀ off ∈ g.remaining w.desc, off ∈ f.remaining w.desc) {handles : List Nat}
    (hhandles : ∀ r ∈ handles, r ∈ w.handles) :
    Safe { w with stack := g :: below, handles := handles } := by
  have htop : f ∈ w.stack := by
    rw [hstack]
    exact List.mem_cons_self
  have hbelow : ∀ k ∈ below, k ∈ w.stack := by
    intro k hk
    rw [hstack]
    exact List.mem_cons_of_mem f hk
  have hobjs : (g :: below).map Frame.obj = w.stack.map Frame.obj := by
    rw [hstack, List.map_cons, List.map_cons, hobj]
  have howed : ∀ r ∈ w.owedBy g, r ∈ w.needed w.stack := by
    intro r hr
    obtain ⟨hc, off, hoff, he, hne⟩ := mem_owedBy.mp hr
    exact owed_needed htop r
      (mem_owedBy.mpr ⟨hcaller ▸ hc, off, hremaining off hoff, hobj ▸ he, hne⟩)
  exact { h with
    allocated := h.fewer (g :: below) handles
      (List.forall_mem_cons.mpr ⟨howed, fun k hk => owed_needed (hbelow k hk)⟩) hhandles
    waiting := fun o ho => by
      rw [hobjs]
      exact h.waiting o ho
    stack_once := by
      rw [hobjs]
      exact h.stack_once
    stack_allocated := List.forall_mem_cons.mpr
      ⟨hobj ▸ h.stack_allocated f htop, fun k hk => h.stack_allocated k (hbelow k hk)⟩
    counting := List.forall_mem_cons.mpr
      ⟨fun hc => hobj ▸ h.counting f htop (hcaller ▸ hc), fun k hk => h.counting k (hbelow k hk)⟩
    begun_over := fun o ho => by
      rw [hobjs]
      exact h.begun_over o ho
    remaining_owned := List.forall_mem_cons.mpr
      ⟨fun off hoff => hobj ▸ h.remaining_owned f htop off (hremaining off hoff),
        fun k hk => h.remaining_owned k (hbelow k hk)⟩ }

/-- A step keeps the invariant. -/
theorem safe_step {w w' : Machine} {a : Act} (h : Safe w) (hw : WellUsed w a)
    (hu : Untangled w a) (hs : step w a = some w') : Safe w' := by
  cases step_cases hs with
  | @retain x hruns =>
    unfold Machine.rcRetain
    split <;> exact { h with }
  | @release x hruns =>
    refine (h.giveUp x).release (fun hne b hb => ?_) hu
    exact h.accessible ((hw.resolve_left hne).leads hb)
  | @alloc x hruns hx hnew => exact h.alloc hnew
  | mutate hruns => exact h.mutate hw.1 hw.2
  | takeItem hruns hlast => exact h.take hlast _
  | @dropReturns obj caller below hstack =>
    exact h.turn (g := ⟨obj, caller, .releasing (w.desc obj).rcOffsets⟩) hstack rfl rfl
      (fun _ hoff => hoff) fun _ hr => List.mem_of_mem_erase hr
  | @releaseNext obj off caller rest below hstack =>
    have hturn : Safe { w with stack := ⟨obj, caller, .releasing rest⟩ :: below } :=
      h.turn (g := ⟨obj, caller, .releasing rest⟩) hstack rfl rfl
        (fun _ hoff => List.mem_cons_of_mem off hoff) fun _ hr => hr
    have hnext : Safe { w with
        stack := ⟨obj, caller, .releasing rest⟩ :: below
        released := w.released ++ [(obj, off, w.slot obj off)] } := { hturn with }
    unfold Machine.releaseField
    cases caller with
    | runFinalizers =>
      dsimp only
      split <;> exact { hnext with }
    | rcFinalize =>
      have htop : (⟨obj, .rcFinalize, .releasing (off :: rest)⟩ : Frame) ∈ w.stack := by
        rw [hstack]
        exact List.mem_cons_self
      have hfinds := hu ⟨obj, .rcFinalize, .releasing (off :: rest)⟩ (by rw [hstack]; rfl) rfl off
        rest rfl
      refine hnext.release (fun hne => ?_) fun hne hlast => ?_
      · exact h.allocated _ (owed_needed htop _
          (mem_owedBy.mpr ⟨rfl, off, List.mem_cons_self, rfl, hne⟩))
      · have hother := (hfinds hne hlast).2
        rw [hstack] at hother
        exact ⟨(hfinds hne hlast).1, hother⟩
  | @finish obj caller below hstack =>
    have hfree := hu ⟨obj, caller, .releasing []⟩ (by rw [hstack]; rfl)
    rw [hstack, List.tail_cons] at hfree
    exact h.finish hstack hfree

/-! ## Calls of drop functions -/

/-- A step calls the drop function of this object. -/
def Calls (w w' : Machine) (obj : Nat) : Prop := w'.drops = w.drops ++ [obj]

/-- What has to hold when a drop function is called: all that its object leads to is allocated,
and the function was not called before. -/
def CallIsSafe (w : Machine) (obj : Nat) : Prop :=
  (∀ b, w.Leads obj b → w.Allocated b) ∧ obj ∉ w.drops

/-- A step that begins no finalization calls no drop function; one that begins a finalization
changes neither the pointers nor what is allocated. -/
theorem calls_begin {w w' : Machine} {a : Act} {obj : Nat} (hs : step w a = some w')
    (hcalls : Calls w w' obj) :
    obj ∈ w'.handles ∧ w'.pointers = w.pointers ∧ w'.known = w.known ∧ w'.freed = w.freed := by
  have hsame : ∀ m : Machine, m.drops = w.drops → ¬Calls w m obj := by
    intro m hm hc
    unfold Calls at hc
    rw [hm] at hc
    exact absurd hc (by simp)
  have hbegin : ∀ (m : Machine) (caller : Finalizer) (x : Nat) (calls : Bool),
      m.drops = w.drops → Calls w (m.beginFinalization caller x calls) obj →
        obj ∈ (m.beginFinalization caller x calls).handles := by
    intro m caller x calls hm hc
    cases calls with
    | false => exact absurd hc (hsame _ hm)
    | true =>
      have hx : x = obj := by
        have hd : m.drops ++ [x] = w.drops ++ [obj] := hc
        rw [hm] at hd
        simpa using hd
      subst hx
      exact List.mem_cons_self
  have hrelease : ∀ (m : Machine) (x : Nat), m.drops = w.drops → m.pointers = w.pointers →
      m.known = w.known → m.freed = w.freed → Calls w (m.rcRelease x) obj →
        obj ∈ (m.rcRelease x).handles ∧ (m.rcRelease x).pointers = w.pointers ∧
          (m.rcRelease x).known = w.known ∧ (m.rcRelease x).freed = w.freed := by
    intro m x hd hp hk hf hc
    unfold Machine.rcRelease at hc ⊢
    split at hc
    · exact absurd hc (hsame _ hd)
    · dsimp only at hc ⊢
      split at hc
      · rename_i hne hlast
        rw [if_neg hne, if_pos hlast]
        exact ⟨hbegin _ _ _ _ hd hc, hp, hk, hf⟩
      · exact absurd hc (hsame _ hd)
  cases step_cases hs with
  | retain hruns =>
    unfold Machine.rcRetain at hcalls
    split at hcalls <;> exact absurd hcalls (hsame _ rfl)
  | release hruns => exact hrelease _ _ rfl rfl rfl rfl hcalls
  | alloc hruns hx hnew => exact absurd hcalls (hsame _ rfl)
  | mutate hruns => exact absurd hcalls (hsame _ rfl)
  | takeItem hruns hlast => exact ⟨hbegin _ _ _ _ rfl hcalls, rfl, rfl, rfl⟩
  | dropReturns hstack => exact absurd hcalls (hsame _ rfl)
  | @releaseNext o off caller rest below hstack =>
    unfold Machine.releaseField at hcalls ⊢
    cases caller with
    | runFinalizers =>
      dsimp only at hcalls
      split at hcalls <;> exact absurd hcalls (hsame _ rfl)
    | rcFinalize => exact hrelease _ _ rfl rfl rfl rfl hcalls
  | @finish o caller below hstack =>
    cases caller <;> exact absurd hcalls (hsame _ rfl)

/-- In a run where the program uses what it can get at, and where the objects that wait and
those that are given back are not tangled, each call of a drop function is safe. -/
theorem finalization_is_safe_while_the_queue_is_untangled {w w' : Machine} {a : Act} {obj : Nat}
    (h : base.runs.Reaches step Ready (fun w a => WellUsed w a ∧ Untangled w a) w)
    (hok : WellUsed w a ∧ Untangled w a) (hs : step w a = some w') (hcalls : Calls w w' obj) :
    CallIsSafe w obj := by
  have hsafe : Safe w := h.invariant (fun _ hw => hw.safe)
    fun _ _ _ hi hok hs => safe_step hi hok.1 hok.2 hs
  have hsafe' : Safe w' := safe_step hsafe hok.1 hok.2 hs
  obtain ⟨hhandle, hpointers, hknown, hfreed⟩ := calls_begin hs hcalls
  constructor
  · intro b hb
    have hb' : w'.Leads obj b := by
      unfold Machine.Leads
      rw [hpointers]
      exact hb
    have hall := hsafe'.allocated obj (handle_needed hhandle) b hb'
    unfold Machine.Allocated at hall ⊢
    rwa [hknown, hfreed] at hall
  · have honce := hsafe'.begun_once.sublist hsafe'.dropped_first
    rw [hcalls, ← List.concat_eq_append, List.nodup_concat] at honce
    exact honce.1

/-- Four objects with a `Drop`. Of two plain ones the first holds the second, and of two
`@RefCounted` ones, which nothing else holds, the first owns the second. The program has the third
object, unless it waits for its finalizer. -/
def chainMachine (pending : List (Nat × Nat)) : Machine where
  desc o :=
    ⟨if o = 48 ∨ o = 64 then .refCounted else .plain, 1, [], if o = 48 then [8] else [], []⟩
  count o := if o = 48 ∨ o = 64 then 1 else 0
  slot o off := if o = 48 ∧ off = 8 then 64 else 0
  pointers o := if o = 16 then [32] else if o = 48 then [64] else []
  known := [16, 32, 48, 64]
  registry := [48, 64].filter fun o => o ∉ pending.map Prod.fst
  pending := pending
  extraRoots _ := 0
  dropFns := [1]
  held o := if o = 48 then 1 else 0
  handles := [48].filter fun o => o ∉ pending.map Prod.fst
  stack := []
  begun := []
  drops := []
  released := []
  endpoints := []
  freed := []

theorem leads_in_the_chain {pending : List (Nat × Nat)} {r b : Nat}
    (h : Reach (chainMachine pending).pointers r b) :
    b = r ∨ (r = 16 ∧ b = 32) ∨ (r = 48 ∧ b = 64) := by
  induction h with
  | refl => exact .inl rfl
  | @tail c d _ hd ih =>
    change d ∈ (if c = 16 then [32] else if c = 48 then [64] else []) at hd
    rcases ih with rfl | ⟨_, rfl⟩ | ⟨_, rfl⟩
    · split at hd
      · exact .inr (.inl ⟨‹_›, List.mem_singleton.mp hd⟩)
      · split at hd
        · exact .inr (.inr ⟨‹_›, List.mem_singleton.mp hd⟩)
        · cases hd
    · cases hd
    · cases hd

theorem chainMachine_ready {pending : List (Nat × Nat)} (honce : (pending.map Prod.fst).Nodup)
    (hknown : ∀ o ∈ pending.map Prod.fst, o ∈ [16, 32, 48, 64]) :
    Ready (chainMachine pending) := by
  refine ⟨rfl, rfl, rfl, honce, fun o ho hr => ?_, fun o ho => absurd ho List.not_mem_nil,
    fun r hr b hb => ⟨?_, List.not_mem_nil⟩, fun o _ off hoff _ => ?_⟩
  · exact absurd ho (of_decide_eq_true (List.mem_filter.mp hr).2)
  · have hstart : r ∈ [16, 32, 48, 64] := by
      rcases List.mem_append.mp hr with hr | hr
      · exact hknown r hr
      · obtain rfl := List.mem_singleton.mp (List.mem_filter.mp hr).1
        decide
    rcases leads_in_the_chain hb with rfl | ⟨_, rfl⟩ | ⟨_, rfl⟩
    · exact hstart
    · exact List.mem_cons_of_mem _ List.mem_cons_self
    · exact by simp [chainMachine]
  · change off ∈ (if o = 48 then [8] else []) at hoff
    split at hoff
    · rename_i ho
      subst ho
      obtain rfl := List.mem_singleton.mp hoff
      exact List.mem_singleton_self 64
    · cases hoff

/-- In the chain an object may be given back when neither it nor what leads to it is needed. -/
theorem untangled_in_the_chain {w : Machine}
    (hpointers : w.pointers = (chainMachine []).pointers)
    (h : ∀ f ∈ w.stack.head?, ∀ r ∈ w.needed w.stack.tail,
      ¬(f.obj = r ∨ (r = 16 ∧ f.obj = 32) ∨ (r = 48 ∧ f.obj = 64))) : Untangled w .finish := by
  intro f hf _ r hr hlead
  unfold Machine.Leads at hlead
  rw [hpointers] at hlead
  exact h f hf r hr (leads_in_the_chain hlead)

/-- The program releases the third object, which takes the fourth along, and the queue is taken in
such an order that the object which holds the other goes first. -/
theorem a_call_is_safe_after_what_leads_to_the_object : ∃ w w',
    Calls w w' 32 ∧ w.drops = [48, 64, 16] ∧ w.freed = [64, 48, 16] ∧ CallIsSafe w 32 := by
  have hready : Ready (chainMachine [(32, 1), (16, 1)]) :=
    chainMachine_ready (by decide) (by decide)
  have hrun : ∃ w w', base.runs.Reaches step Ready (fun w a => WellUsed w a ∧ Untangled w a) w ∧
      step w .takeItem = some w' ∧ Calls w w' 32 ∧ w.drops = [48, 64, 16] ∧
        w.freed = [64, 48, 16] := by
    refine ⟨_, _, .next (l := .finish) (.next (l := .dropReturns) (.next (l := .takeItem)
      (.next (l := .finish) (.next (l := .finish) (.next (l := .dropReturns)
      (.next (l := .releaseNext) (.next (l := .dropReturns) (.next (l := .release 48)
      (.start hready) ⟨.inr (.start (by decide)), fun _ _ => by decide⟩ rfl)
      ⟨trivial, trivial⟩ rfl) ⟨trivial, ?_⟩ rfl) ⟨trivial, trivial⟩ rfl)
      ⟨trivial, untangled_in_the_chain rfl (by decide)⟩ rfl)
      ⟨trivial, untangled_in_the_chain rfl (by decide)⟩ rfl) ⟨trivial, trivial⟩ rfl)
      ⟨trivial, trivial⟩ rfl) ⟨trivial, untangled_in_the_chain rfl (by decide)⟩ rfl, rfl, rfl,
      rfl, rfl⟩
    intro f hf _ off rest hphase
    cases hf
    cases hphase
    exact fun _ _ => by decide
  obtain ⟨w, w', hw, hs, hcalls, hdrops, hfreed⟩ := hrun
  exact ⟨w, w', hcalls, hdrops, hfreed,
    finalization_is_safe_while_the_queue_is_untangled (a := .takeItem) hw ⟨trivial, trivial⟩ hs
      hcalls⟩

/-- Taken in the other order, the drop function of the first object is called when the second,
which it holds, is given back. And when a drop function releases the last reference to an object
of the queue, the drop function of this object is called at once and then by the queue again. -/
theorem a_drop_function_is_called_on_a_dangling_pointer :
    (∃ w w', base.runs.Reaches step Ready WellUsed w ∧ step w .takeItem = some w' ∧
      Calls w w' 16 ∧ ¬CallIsSafe w 16) ∧
    ∃ w w', base.runs.Reaches step Ready WellUsed w ∧ step w .takeItem = some w' ∧
      Calls w w' 64 ∧ ¬CallIsSafe w 64 := by
  have hready : Ready (chainMachine [(16, 1), (32, 1)]) :=
    chainMachine_ready (by decide) (by decide)
  have hcounted : Ready (chainMachine [(64, 1), (48, 1)]) :=
    chainMachine_ready (by decide) (by decide)
  constructor
  · refine ⟨_, _, .next (l := .finish) (.next (l := .dropReturns) (.next (l := .takeItem)
      (.start hready) trivial rfl) trivial rfl) trivial rfl, rfl, rfl, fun hsafe => ?_⟩
    exact (hsafe.1 32 (.single (by decide))).2 (by decide)
  · refine ⟨_, _, .next (l := .finish) (.next (l := .releaseNext) (.next (l := .dropReturns)
      (.next (l := .finish) (.next (l := .dropReturns) (.next (l := .release 64)
      (.next (l := .takeItem) (.start hcounted) trivial rfl) ?_ rfl) trivial rfl) trivial rfl)
      trivial rfl) trivial rfl) trivial rfl, rfl, rfl, fun hsafe => hsafe.2 (by decide)⟩
    exact .inr ⟨48, by decide, .single (by decide)⟩

/-! ## After a collection -/

/-- The machine that a collection leaves to the finalizers, with the references and the handles
of the program. The graph is what the collection saw. -/
def machineAfter (h : Heap) (r : Collected) (held : Nat → Nat) (handles : List Nat) :
    Machine where
  desc fb := h.memory.desc (fb - HEADER)
  count := r.heap.memory.word
  slot fb off := h.memory.word (fb + off)
  pointers := children h.memory h.bases
  known := h.bases.map (· + HEADER)
  registry := r.heap.objects.map fun e => e.1 + HEADER
  pending := r.heap.pending.map fun i => (i.base + HEADER, i.typeId)
  extraRoots fb := if fb ∈ h.extraRoots then 1 else 0
  dropFns := h.dropFns
  held := held
  handles := handles
  stack := []
  begun := []
  drops := []
  released := []
  endpoints := r.releases
  freed := r.toFree.map fun e => e.1 + HEADER

section

variable {h : Heap} {roots : List Nat} {held : Nat → Nat} {handles : List Nat}

theorem known_of_path {a b : Nat} (ha : a ∈ h.bases) (hp : Path h a b) : b ∈ h.bases := by
  rcases Relation.ReflTransGen.cases_tail hp with rfl | ⟨_, _, hedge⟩
  · exact ha
  · exact hedge.1

/-- The paths of the machine are those of the heap. -/
theorem path_of_leads {a c : Nat} (hp : Reach (children h.memory h.bases) (a + HEADER) c) :
    ∃ b, c = b + HEADER ∧ Path h a b := by
  induction hp with
  | refl => exact ⟨a, rfl, .refl⟩
  | @tail d e _ he ih =>
    obtain ⟨b, rfl, hb⟩ := ih
    obtain ⟨hle, _⟩ := isObj_iff.mp (List.mem_filter.mp he).2
    refine ⟨e - HEADER, (Nat.sub_add_cancel hle).symm, hb.tail (mem_succ.mp ?_)⟩
    exact List.mem_map.mpr ⟨e, he, rfl⟩

variable (hl : Layout h) (hhandles : ∀ p ∈ handles, ∃ b, p = b + HEADER ∧ Live h roots b)
  (howned : ∀ b ∈ h.bases, ¬Garbage h roots b → ∀ off ∈ (h.memory.desc b).rcOffsets,
    h.memory.word (b + HEADER + off) ≠ 0 →
      h.memory.word (b + HEADER + off) ∈ children h.memory h.bases (b + HEADER))

include hl hhandles howned

/-- What a collection leaves is ready for the finalizers: all that the queue leads to is kept. -/
theorem a_collection_leaves_the_queue_ready {r : Collected} (ho : Outcome h roots r) :
    Ready (machineAfter h r held handles) := by
  have hfreed : ∀ b, b + HEADER ∈ (machineAfter h r held handles).freed ↔
      b ∈ h.registered.map Prod.fst ∧ Garbage h roots b := by
    simp [machineAfter, ho.frees]
  have hkept : ∀ {a c}, Live h roots a ∨ Finalizable h roots a →
      (machineAfter h r held handles).Leads (a + HEADER) c →
        (machineAfter h r held handles).Allocated c := by
    intro a c hk hc
    obtain ⟨b, rfl, hp⟩ := path_of_leads hc
    have hb : b ∈ h.bases ∧ ¬Garbage h roots b := by
      rcases hk with ⟨s, hs, hsa⟩ | hd
      · exact ⟨known_of_path hs.known (hsa.trans hp), fun hg => hg.1 ⟨s, hs, hsa.trans hp⟩⟩
      · exact ⟨known_of_path (List.mem_append_left _ hd.1) hp, fun hg => hg.2 a hd hp⟩
    exact ⟨List.mem_map_of_mem hb.1, fun hf => hb.2 ((hfreed b).mp hf).2⟩
  obtain ⟨new, hpending, _, hnew⟩ := ho.queue
  refine ⟨rfl, rfl, rfl, ?_, fun o hq hreg => ?_, fun o hfo => ?_, fun p hp c hc => ?_,
    fun o halloc off hoff hne => ?_⟩
  · have honce := (ho.queued_once hl).map (add_left_injective HEADER)
    simpa [Machine.queued, machineAfter, Function.comp_def] using honce
  · obtain ⟨q, hmem, rfl⟩ := List.mem_map.mp hq
    obtain ⟨i, hi, rfl⟩ := List.mem_map.mp hmem
    obtain ⟨e, he, hei⟩ := List.mem_map.mp hreg
    have hbase : e.1 = i.base := add_left_injective HEADER hei
    obtain ⟨her, hnot, _⟩ := (ho.objects e).mp he
    rw [hpending] at hi
    rcases List.mem_append.mp hi with hi | hi
    · exact hl.pending_not_registered (List.mem_map_of_mem hi) (hbase ▸ List.mem_map_of_mem her)
    · obtain ⟨d, _, hd, hid⟩ := (hnew i).mp hi
      rw [hid] at hbase
      exact hnot (hbase ▸ hd)
  · obtain ⟨e, he, rfl⟩ := List.mem_map.mp hfo
    exact List.mem_map_of_mem (List.mem_append_left _ (List.mem_map_of_mem ((ho.frees e).mp he).1))
  · rcases List.mem_append.mp hp with hp | hp
    · obtain ⟨q, hq, rfl⟩ := List.mem_map.mp hp
      obtain ⟨i, hi, rfl⟩ := List.mem_map.mp hq
      rw [hpending] at hi
      rcases List.mem_append.mp hi with hi | hi
      · exact hkept (.inl (.of_pending (List.mem_map_of_mem hi))) hc
      · obtain ⟨e, _, hd, rfl⟩ := (hnew i).mp hi
        exact hkept (.inr hd) hc
    · obtain ⟨b, rfl, hb⟩ := hhandles p hp
      exact hkept (.inl hb) hc
  · obtain ⟨hko, hfo⟩ := halloc
    obtain ⟨b, hb, rfl⟩ := List.mem_map.mp hko
    simp only [machineAfter, Nat.add_sub_cancel] at hoff
    refine howned b hb (fun hg => hfo ((hfreed b).mpr ⟨?_, hg⟩)) off hoff hne
    exact (List.mem_append.mp hb).resolve_right fun hb => (Live.of_pending hb).not_garbage hg

end

end runtime.gc
