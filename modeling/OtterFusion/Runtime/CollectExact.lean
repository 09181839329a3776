-- When a collection is exact: what the roots reach stays, what nothing needs is freed, and the
-- unreachable objects with a `Drop` are queued. It is exact when no object waits for its
-- finalizer and no object that dies owns a stale pointer to a live one.
import OtterFusion.Runtime.Collect

namespace runtime.gc

open base.marking

/-! ## What a collection has to do -/

/-- The objects of the registry, with the logs merged in. -/
def Heap.registered (h : Heap) : List (Nat × Nat) := drainAllocLogs h.objects h.allocLogs

/-- All blocks of memory that hold an object: the registered ones and the pending ones. -/
def Heap.blocks (h : Heap) : List (Nat × Nat) :=
  h.registered ++ h.pending.map fun i => (i.base, i.total)

/-- There is a path of pointers from an object to another. -/
abbrev Path (h : Heap) : Nat → Nat → Prop :=
  Relation.ReflTransGen (Edge h.memory h.bases)

/-- A known object that is a root or an extra root, or one that waits for its finalizer. -/
def Root (h : Heap) (roots : List Nat) (b : Nat) : Prop :=
  (b ∈ h.bases ∧ (b + HEADER ∈ roots ∨ b + HEADER ∈ h.extraRoots)) ∨
    b ∈ h.pending.map Item.base

/-- Reachable from the roots, the extra roots or the pending objects. -/
def Live (h : Heap) (roots : List Nat) (b : Nat) : Prop := ∃ r, Root h roots r ∧ Path h r b

/-- The type of the object has a registered `Drop`. -/
def HasDrop (h : Heap) (b : Nat) : Prop :=
  (h.memory.desc b).typeId ≠ 0 ∧ (h.memory.desc b).typeId ∈ h.dropFns

/-- A registered object that is unreachable and has a `Drop`. -/
def Finalizable (h : Heap) (roots : List Nat) (b : Nat) : Prop :=
  b ∈ h.registered.map Prod.fst ∧ ¬Live h roots b ∧ HasDrop h b

/-- An unreachable object that neither has a `Drop` nor is reachable from one that has. -/
def Garbage (h : Heap) (roots : List Nat) (b : Nat) : Prop :=
  ¬Live h roots b ∧ ∀ d, Finalizable h roots d → ¬Path h d b

/-- A collection is exact. A field is a word of the block; the first word of a `@RefCounted`
object is its hidden count, and no field. -/
structure Exact (h : Heap) (roots : List Nat) (r : Collected) : Prop where
  keeps : ∀ e ∈ h.registered, Live h roots e.1 → e ∈ r.heap.objects ∧ e ∉ r.toFree
  keeps_pending : ∀ i ∈ h.pending, i ∈ r.heap.pending ∧ i.base ∉ r.toFree.map Prod.fst
  keeps_fields : ∀ e ∈ h.blocks, Live h roots e.1 →
    r.heap.memory.desc e.1 = h.memory.desc e.1 ∧
      ∀ off, HEADER + off < e.2 → ((h.memory.desc e.1).kind = .refCounted → 8 ≤ off) →
        r.heap.memory.word (e.1 + HEADER + off) = h.memory.word (e.1 + HEADER + off)
  frees : ∀ e, e ∈ r.toFree ↔ e ∈ h.registered ∧ Garbage h roots e.1
  frees_once : (r.toFree.map Prod.fst).Nodup
  moves : ∀ e ∈ h.registered, Finalizable h roots e.1 →
    ⟨e.1, e.2, (h.memory.desc e.1).typeId⟩ ∈ r.heap.pending ∧
      (r.heap.pending.map Item.base).count e.1 = 1 ∧ e ∉ r.heap.objects
  clean : ∀ b ∈ r.heap.bases, r.heap.memory.mark b = 0

/-- What the allocator and the compiler promise of the memory: each block is known once, blocks
do not overlap, an owned field lies in its block and does not point inside another object, and
no object is marked between two collections. -/
structure Layout (h : Heap) : Prop where
  once : h.bases.Nodup
  header : ∀ e ∈ h.blocks, HEADER ≤ e.2
  apart : ∀ e ∈ h.blocks, ∀ e' ∈ h.blocks, e.1 ≠ e'.1 → e.1 + e.2 ≤ e'.1 ∨ e'.1 + e'.2 ≤ e.1
  owned : ∀ e ∈ h.blocks, ∀ off ∈ (h.memory.desc e.1).rcOffsets, HEADER + off < e.2
  whole : ∀ e ∈ h.blocks, ∀ off ∈ (h.memory.desc e.1).rcOffsets, ∀ e' ∈ h.blocks,
    e'.1 ≤ h.memory.word (e.1 + HEADER + off) →
      h.memory.word (e.1 + HEADER + off) < e'.1 + e'.2 →
        h.memory.word (e.1 + HEADER + off) = e'.1 + HEADER
  clean : ∀ b ∈ h.bases, h.memory.mark b = 0

/-- An object that is to be freed owns a stale pointer: it leads to a live object whose first
word is a field, not a count, and not 0. -/
def StaleOwner (h : Heap) (roots : List Nat) : Prop :=
  ∃ e ∈ h.registered, Garbage h roots e.1 ∧ ∃ off ∈ (h.memory.desc e.1).rcOffsets,
    ∃ e' ∈ h.blocks, Live h roots e'.1 ∧ (h.memory.desc e'.1).kind ≠ .refCounted ∧
      HEADER < e'.2 ∧ h.memory.word (e.1 + HEADER + off) = e'.1 + HEADER ∧
        h.memory.word (e'.1 + HEADER) ≠ 0

/-! ## The marking -/

/-- The objects whose mark word is set. -/
def isMarked (mark : Nat → Nat) (b : Nat) : Bool := mark b != 0

theorem isMarked_eq_true {mark : Nat → Nat} {b : Nat} : isMarked mark b = true ↔ mark b ≠ 0 := by
  simp [isMarked]

theorem isMarked_update (mark : Nat → Nat) (b : Nat) :
    isMarked (Function.update mark b 1) = Function.update (isMarked mark) b true := by
  funext x
  by_cases hx : x = b
  · subst hx
    simp [isMarked]
  · simp [isMarked, hx]

/-- The loop of the collector marks the way of the library. -/
theorem markLoop_marks (m : Memory) (bases : List Nat) (n : Nat) (mark : Nat → Nat)
    {work : List Nat} (hwork : ∀ fb ∈ work, HEADER ≤ fb) :
    (markLoop m bases n mark work).map isMarked =
      base.marking.mark (succ m bases) n (isMarked mark) (work.map (· - HEADER)) := by
  induction n generalizing mark work with
  | zero => cases work <;> rfl
  | succ n ih =>
    cases work with
    | nil => rfl
    | cons fb work =>
      have hfb : HEADER ≤ fb := hwork fb List.mem_cons_self
      have hrest : ∀ x ∈ work, HEADER ≤ x := fun x hx => hwork x (List.mem_cons_of_mem fb hx)
      unfold markLoop
      rw [List.map_cons, base.marking.mark]
      by_cases hm : mark (fb - HEADER) ≠ 0
      · rw [if_pos hm, if_pos (isMarked_eq_true.mpr hm)]
        exact ih mark hrest
      · rw [if_neg hm, if_neg (isMarked_eq_true.not.mpr hm), ih _ ?_, isMarked_update]
        · congr 1
          unfold succ
          rw [Nat.sub_add_cancel hfb, List.map_append, List.map_reverse]
        · intro x hx
          rcases List.mem_append.mp hx with hx | hx
          · have hchild := (List.mem_filter.mp (List.mem_reverse.mp hx)).2
            exact (isObj_iff.mp hchild).1
          · exact hrest x hx

/-- `mark_reachable` ends, and it marks what its worklist reaches. -/
theorem markReachable_marks (m : Memory) {bases work : List Nat} (mark : Nat → Nat)
    (hbases : bases.Nodup) (hwork : ∀ fb ∈ work, isObj bases fb = true) :
    ∃ mark', markReachable m bases mark work = some mark' ∧
      Marked (succ m bases) (isMarked mark) (work.reverse.map (· - HEADER)) (isMarked mark') := by
  have hrev : ∀ fb ∈ work.reverse, isObj bases fb = true :=
    fun fb hfb => hwork fb (List.mem_reverse.mp hfb)
  have hloop := markLoop_marks m bases (markFuel m bases work) mark
    fun fb hfb => (isObj_iff.mp (hrev fb hfb)).1
  have hnodes : ∀ x ∈ bases.toFinset, ∀ y ∈ succ m bases x, y ∈ bases.toFinset := by
    intro x _ y hy
    exact List.mem_toFinset.mpr (mem_succ.mp hy).1
  have hstart : ∀ x ∈ work.reverse.map (· - HEADER), x ∈ bases.toFinset := by
    intro x hx
    obtain ⟨fb, hfb, rfl⟩ := List.mem_map.mp hx
    exact List.mem_toFinset.mpr (isObj_iff.mp (hrev fb hfb)).2
  have hfuel : (work.reverse.map (· - HEADER)).length +
      ∑ x ∈ bases.toFinset with isMarked mark x = false, (succ m bases x).length ≤
        markFuel m bases work := by
    have hsum : ∑ x ∈ bases.toFinset with isMarked mark x = false, (succ m bases x).length ≤
        ∑ x ∈ bases.toFinset, (succ m bases x).length :=
      Finset.sum_le_sum_of_subset (Finset.filter_subset _ _)
    rw [List.sum_toFinset _ hbases] at hsum
    unfold markFuel
    simp only [succ, List.length_map, List.length_reverse] at hsum ⊢
    omega
  obtain ⟨after, hafter⟩ := mark_ends bases.toFinset hnodes hstart hfuel
  rw [← hloop] at hafter
  obtain ⟨mark', hmark', rfl⟩ := Option.map_eq_some_iff.mp hafter
  exact ⟨mark', hmark', mark_spec (by rw [← hloop, hmark']; rfl)⟩

/-! ## The two markings of a collection -/

theorem reach_iff_path {h : Heap} {a b : Nat} :
    Reach (succ h.memory h.bases) a b ↔ Path h a b := by
  have he : (fun a b => b ∈ succ h.memory h.bases a) = Edge h.memory h.bases := by
    funext a b
    exact propext mem_succ
  rw [Reach, he]

theorem Root.known {h : Heap} {roots : List Nat} {b : Nat} (hr : Root h roots b) :
    b ∈ h.bases := by
  rcases hr with ⟨hb, _⟩ | hb
  · exact hb
  · exact List.mem_append_right _ hb

theorem mem_work {h : Heap} {roots : List Nat} {fb : Nat} :
    fb ∈ h.work roots ↔ HEADER ≤ fb ∧ Root h roots (fb - HEADER) := by
  unfold Heap.work Root
  rw [List.mem_append, List.mem_append, List.mem_filter, List.mem_filter, isObj_iff]
  constructor
  · rintro ((⟨hr, hle, hb⟩ | ⟨hr, hle, hb⟩) | hp)
    · exact ⟨hle, Or.inl ⟨hb, Or.inl (by rwa [Nat.sub_add_cancel hle])⟩⟩
    · exact ⟨hle, Or.inl ⟨hb, Or.inr (by rwa [Nat.sub_add_cancel hle])⟩⟩
    · obtain ⟨i, hi, rfl⟩ := List.mem_map.mp hp
      rw [Nat.add_sub_cancel]
      exact ⟨Nat.le_add_left .., Or.inr (List.mem_map_of_mem hi)⟩
  · rintro ⟨hle, ⟨hb, hr | hr⟩ | hp⟩
    · rw [Nat.sub_add_cancel hle] at hr
      exact Or.inl (Or.inl ⟨hr, hle, hb⟩)
    · rw [Nat.sub_add_cancel hle] at hr
      exact Or.inl (Or.inr ⟨hr, hle, hb⟩)
    · obtain ⟨i, hi, he⟩ := List.mem_map.mp hp
      exact Or.inr (List.mem_map.mpr ⟨i, hi, by rw [he, Nat.sub_add_cancel hle]⟩)

theorem work_known (h : Heap) (roots : List Nat) :
    ∀ fb ∈ h.work roots, isObj h.bases fb = true := by
  intro fb hfb
  obtain ⟨hle, hr⟩ := mem_work.mp hfb
  exact isObj_iff.mpr ⟨hle, hr.known⟩

/-- What the worklist of the first marking reaches. -/
theorem reachFrom_work {h : Heap} {roots : List Nat} {b : Nat} :
    ReachFrom (succ h.memory h.bases) ((h.work roots).reverse.map (· - HEADER)) b ↔
      Live h roots b := by
  constructor
  · rintro ⟨r, hr, hp⟩
    obtain ⟨fb, hfb, rfl⟩ := List.mem_map.mp hr
    exact ⟨_, (mem_work.mp (List.mem_reverse.mp hfb)).2, reach_iff_path.mp hp⟩
  · rintro ⟨r, hr, hp⟩
    refine ⟨r, List.mem_map.mpr ⟨r + HEADER, ?_, Nat.add_sub_cancel ..⟩, reach_iff_path.mpr hp⟩
    rw [List.mem_reverse, mem_work, Nat.add_sub_cancel]
    exact ⟨Nat.le_add_left .., hr⟩

theorem known_succ {h : Heap} :
    ∀ a, a ∈ h.bases → ∀ b ∈ succ h.memory h.bases a, b ∈ h.bases :=
  fun _ _ _ hb => (mem_succ.mp hb).1

/-- From marks that no edge leaves, a marking adds what its worklist reaches. -/
theorem marking {h : Heap} (hl : Layout h) {work : List Nat} {mark : Nat → Nat}
    (hwork : ∀ fb ∈ work, isObj h.bases fb = true)
    (hclosed : ∀ a ∈ h.bases, mark a ≠ 0 → ∀ b ∈ succ h.memory h.bases a, mark b ≠ 0) :
    ∃ mark', markReachable h.memory h.bases mark work = some mark' ∧ ∀ b ∈ h.bases,
      (mark' b ≠ 0 ↔ mark b ≠ 0 ∨
        ReachFrom (succ h.memory h.bases) (work.reverse.map (· - HEADER)) b) := by
  obtain ⟨mark', hmark', hmarked⟩ := markReachable_marks h.memory mark hl.once hwork
  refine ⟨mark', hmark', fun b hb => ?_⟩
  have hiff := hmarked.iff (P := fun a => a ∈ h.bases) (x := b) known_succ (fun x hx => ?_)
    (fun a ha hm c hc => ?_)
  · rwa [isMarked_eq_true, isMarked_eq_true] at hiff
  · obtain ⟨fb, hfb, rfl⟩ := List.mem_map.mp hx
    exact (isObj_iff.mp (hwork fb (List.mem_reverse.mp hfb))).2
  · exact isMarked_eq_true.mpr (hclosed a ha (isMarked_eq_true.mp hm) c hc)

/-- The first marking marks what is live. -/
theorem first_marking {h : Heap} (hl : Layout h) (roots : List Nat) :
    ∃ mark₁, markReachable h.memory h.bases h.memory.mark (h.work roots) = some mark₁ ∧
      ∀ b ∈ h.bases, (mark₁ b ≠ 0 ↔ Live h roots b) := by
  have hclosed : ∀ a ∈ h.bases, h.memory.mark a ≠ 0 →
      ∀ b ∈ succ h.memory h.bases a, h.memory.mark b ≠ 0 :=
    fun a ha hm => absurd (hl.clean a ha) hm
  obtain ⟨mark₁, hmark₁, hiff⟩ := marking hl (work_known h roots) hclosed
  refine ⟨mark₁, hmark₁, fun b hb => ?_⟩
  rw [hiff b hb, reachFrom_work]
  exact or_iff_right (not_not.mpr (hl.clean b hb))

theorem Live.next {h : Heap} {roots : List Nat} {a b : Nat} (ha : Live h roots a)
    (hb : Edge h.memory h.bases a b) : Live h roots b := by
  obtain ⟨r, hr, hp⟩ := ha
  exact ⟨r, hr, hp.tail hb⟩

/-- The objects that the collector finds unreachable and with a `Drop`. -/
theorem mem_newlyUnreachable {m : Memory} {mark : Nat → Nat} {dropFns : List Nat}
    {objects : List (Nat × Nat)} {i : Item} :
    i ∈ newlyUnreachable m mark dropFns objects ↔
      ∃ e ∈ objects, mark e.1 = 0 ∧ ((m.desc e.1).typeId ≠ 0 ∧ (m.desc e.1).typeId ∈ dropFns) ∧
        i = ⟨e.1, e.2, (m.desc e.1).typeId⟩ := by
  unfold newlyUnreachable
  split
  · rename_i hempty
    rw [List.isEmpty_iff] at hempty
    subst hempty
    constructor
    · intro hi
      exact absurd hi List.not_mem_nil
    · rintro ⟨e, _, _, ⟨_, htid⟩, _⟩
      exact absurd htid List.not_mem_nil
  · rw [List.mem_filterMap]
    refine exists_congr fun e => and_congr_right fun _ => ?_
    dsimp only
    split
    · rename_i hc
      rw [Option.some.injEq, eq_comm]
      exact ⟨fun hi => ⟨hc.1, hc.2, hi⟩, fun hi => hi.2.2⟩
    · rename_i hc
      exact ⟨fun hi => absurd hi (by simp), fun hi => absurd ⟨hi.1, hi.2.1⟩ hc⟩

/-- After the first marking, these are the finalizable objects. -/
theorem mem_newly {h : Heap} {roots : List Nat} {mark₁ : Nat → Nat}
    (hmark₁ : ∀ b ∈ h.bases, (mark₁ b ≠ 0 ↔ Live h roots b)) {i : Item} :
    i ∈ newlyUnreachable h.memory mark₁ h.dropFns h.registered ↔
      ∃ e ∈ h.registered, Finalizable h roots e.1 ∧
        i = ⟨e.1, e.2, (h.memory.desc e.1).typeId⟩ := by
  rw [mem_newlyUnreachable]
  refine exists_congr fun e => and_congr_right fun he => ?_
  have hkey : e.1 ∈ h.registered.map Prod.fst := List.mem_map_of_mem he
  have hlive : mark₁ e.1 = 0 ↔ ¬Live h roots e.1 := by
    rw [← hmark₁ e.1 (List.mem_append_left _ hkey), not_not]
  rw [hlive]
  exact ⟨fun hi => ⟨⟨hkey, hi.1, hi.2.1⟩, hi.2.2⟩, fun hi => ⟨hi.1.2.1, hi.1.2.2, hi.2⟩⟩

/-- The second marking leaves the garbage unmarked, and nothing else. -/
theorem second_marking {h : Heap} (hl : Layout h) {roots : List Nat} {mark₁ : Nat → Nat}
    (hmark₁ : ∀ b ∈ h.bases, (mark₁ b ≠ 0 ↔ Live h roots b)) {newly : List Item}
    (hnewly : ∀ i, i ∈ newly ↔ ∃ e ∈ h.registered, Finalizable h roots e.1 ∧
      i = ⟨e.1, e.2, (h.memory.desc e.1).typeId⟩) :
    ∃ mark₂, resurrect h.memory h.bases mark₁ newly = some mark₂ ∧
      ∀ b ∈ h.bases, (mark₂ b = 0 ↔ Garbage h roots b) := by
  have hfinal : ∀ d, Finalizable h roots d → ∃ i ∈ newly, i.base = d := by
    intro d hd
    obtain ⟨e, he, rfl⟩ := List.mem_map.mp hd.1
    exact ⟨_, (hnewly _).mpr ⟨e, he, hd, rfl⟩, rfl⟩
  unfold resurrect
  split
  · rename_i hempty
    rw [List.isEmpty_iff] at hempty
    refine ⟨mark₁, rfl, fun b hb => ?_⟩
    have hlive : mark₁ b = 0 ↔ ¬Live h roots b := by rw [← hmark₁ b hb, not_not]
    rw [hlive]
    refine ⟨fun hb => ⟨hb, fun d hd => ?_⟩, fun hb => hb.1⟩
    obtain ⟨i, hi, _⟩ := hfinal d hd
    rw [hempty] at hi
    exact absurd hi List.not_mem_nil
  · have hknown : ∀ fb ∈ newly.map fun i => i.base + HEADER, isObj h.bases fb = true := by
      intro fb hfb
      obtain ⟨i, hi, rfl⟩ := List.mem_map.mp hfb
      obtain ⟨e, _, hd, rfl⟩ := (hnewly i).mp hi
      exact isObj_base.mpr (List.mem_append_left _ hd.1)
    have hclosed : ∀ a ∈ h.bases, mark₁ a ≠ 0 →
        ∀ c ∈ succ h.memory h.bases a, mark₁ c ≠ 0 := by
      intro a ha hm c hc
      have hedge := mem_succ.mp hc
      rw [hmark₁ c hedge.1]
      exact ((hmark₁ a ha).mp hm).next hedge
    obtain ⟨mark₂, hmark₂, hiff⟩ := marking hl hknown hclosed
    refine ⟨mark₂, hmark₂, fun b hb => ?_⟩
    have hnot : mark₂ b = 0 ↔ ¬(Live h roots b ∨ ReachFrom (succ h.memory h.bases)
        ((newly.map fun i => i.base + HEADER).reverse.map (· - HEADER)) b) := by
      rw [← hmark₁ b hb, ← hiff b hb, not_not]
    rw [hnot, not_or]
    refine and_congr_right fun _ => ⟨fun hnone d hd hp => hnone ?_, fun hnone hr => ?_⟩
    · obtain ⟨i, hi, rfl⟩ := hfinal d hd
      refine ⟨i.base, List.mem_map.mpr ⟨i.base + HEADER, ?_, Nat.add_sub_cancel ..⟩,
        reach_iff_path.mpr hp⟩
      exact List.mem_reverse.mpr (List.mem_map_of_mem hi)
    · obtain ⟨r, hr, hp⟩ := hr
      obtain ⟨fb, hfb, rfl⟩ := List.mem_map.mp hr
      obtain ⟨i, hi, rfl⟩ := List.mem_map.mp (List.mem_reverse.mp hfb)
      obtain ⟨e, _, hd, rfl⟩ := (hnewly i).mp hi
      rw [Nat.add_sub_cancel] at hp
      exact hnone e.1 hd (reach_iff_path.mp hp)

/-! ## The sweep -/

/-- An object is one of the newly unreachable ones. -/
def isNewly (newly : List Item) (b : Nat) : Bool := (newly.find? fun i => i.base == b).isSome

theorem isNewly_iff {newly : List Item} {b : Nat} :
    isNewly newly b = true ↔ ∃ i ∈ newly, i.base = b := by
  simp [isNewly, List.find?_isSome]

theorem insertObject_of_fresh {objects : List (Nat × Nat)} {e : Nat × Nat}
    (he : e.1 ∉ objects.map Prod.fst) : insertObject objects e = objects ++ [e] :=
  if_neg he

/-- The entry of the queue that the sweep makes of an object. -/
def queued (newly : List Item) (e : Nat × Nat) : Option Item :=
  (newly.find? fun i => i.base == e.1).map fun i => ⟨e.1, e.2, i.typeId⟩

/-- What one turn of the sweep does with an object that no turn has seen. -/
theorem sweepOne_cases (newly : List Item) (s : Swept) (e : Nat × Nat)
    (he : e.1 ∉ s.survivors.map Prod.fst) :
    (sweepOne newly s e).survivors =
        s.survivors ++ [e].filter (fun e => !isNewly newly e.1 && isMarked s.mark e.1) ∧
      (sweepOne newly s e).newPending = s.newPending ++ [e].filterMap (queued newly) ∧
      (sweepOne newly s e).toFree =
        s.toFree ++ [e].filter (fun e => !isNewly newly e.1 && !isMarked s.mark e.1) ∧
      (sweepOne newly s e).mark = Function.update s.mark e.1 0 := by
  unfold sweepOne isNewly queued
  cases hfind : newly.find? fun i => i.base == e.1 with
  | some i => simp [hfind]
  | none =>
    by_cases hm : s.mark e.1 = 0
    · simp [hfind, hm, isMarked]
    · simp [hfind, hm, isMarked, insertObject_of_fresh he]

/-- What the sweep does, from the marks that it starts with. -/
theorem foldl_sweepOne {newly : List Item} {objects : List (Nat × Nat)} {s : Swept}
    (honce : (objects.map Prod.fst).Nodup)
    (hfresh : ∀ e ∈ objects, e.1 ∉ s.survivors.map Prod.fst) :
    (objects.foldl (sweepOne newly) s).survivors =
        s.survivors ++ objects.filter (fun e => !isNewly newly e.1 && isMarked s.mark e.1) ∧
      (objects.foldl (sweepOne newly) s).newPending =
        s.newPending ++ objects.filterMap (queued newly) ∧
      (objects.foldl (sweepOne newly) s).toFree =
        s.toFree ++ objects.filter (fun e => !isNewly newly e.1 && !isMarked s.mark e.1) ∧
      ∀ b, (objects.foldl (sweepOne newly) s).mark b =
        if b ∈ objects.map Prod.fst then 0 else s.mark b := by
  induction objects generalizing s with
  | nil => simp
  | cons e rest ih =>
    rw [List.map_cons, List.nodup_cons] at honce
    obtain ⟨hsurvivors, hpending, hfree, hmark⟩ :=
      sweepOne_cases newly s e (hfresh e List.mem_cons_self)
    have hsame : ∀ o ∈ rest, isMarked (sweepOne newly s e).mark o.1 = isMarked s.mark o.1 := by
      intro o ho
      have hne : o.1 ≠ e.1 := fun he => honce.1 (he ▸ List.mem_map_of_mem ho)
      rw [hmark]
      simp [isMarked, hne]
    have hnext : ∀ o ∈ rest, o.1 ∉ (sweepOne newly s e).survivors.map Prod.fst := by
      intro o ho hmem
      rw [hsurvivors, List.map_append, List.mem_append] at hmem
      rcases hmem with hmem | hmem
      · exact hfresh o (List.mem_cons_of_mem e ho) hmem
      · obtain ⟨e', he', heq⟩ := List.mem_map.mp hmem
        have hsingle := List.mem_singleton.mp (List.mem_filter.mp he').1
        rw [hsingle] at heq
        exact honce.1 (heq ▸ List.mem_map_of_mem ho)
    have hkeep :
        rest.filter (fun o => !isNewly newly o.1 && isMarked (sweepOne newly s e).mark o.1) =
        rest.filter fun o => !isNewly newly o.1 && isMarked s.mark o.1 :=
      List.filter_congr fun o ho => by rw [hsame o ho]
    have hdrop :
        rest.filter (fun o => !isNewly newly o.1 && !isMarked (sweepOne newly s e).mark o.1) =
        rest.filter fun o => !isNewly newly o.1 && !isMarked s.mark o.1 :=
      List.filter_congr fun o ho => by rw [hsame o ho]
    obtain ⟨ihs, ihp, ihf, ihm⟩ := ih honce.2 hnext
    rw [List.foldl_cons]
    refine ⟨?_, ?_, ?_, fun b => ?_⟩
    · rw [ihs, hsurvivors, List.append_assoc, hkeep, ← List.filter_append]
      rfl
    · rw [ihp, hpending, List.append_assoc, ← List.filterMap_append]
      rfl
    · rw [ihf, hfree, List.append_assoc, hdrop, ← List.filter_append]
      rfl
    · rw [ihm, hmark]
      by_cases hb : b = e.1
      · simp [hb]
      · have hmem : b ∈ (e :: rest).map Prod.fst ↔ b ∈ rest.map Prod.fst := by
          rw [List.map_cons, List.mem_cons]
          exact or_iff_right hb
        simp only [hmem, Function.update_of_ne hb]

theorem sweep_spec (newly : List Item) (mark : Nat → Nat) {objects : List (Nat × Nat)}
    (honce : (objects.map Prod.fst).Nodup) :
    (sweep newly mark objects).survivors =
        objects.filter (fun e => !isNewly newly e.1 && isMarked mark e.1) ∧
      (sweep newly mark objects).newPending = objects.filterMap (queued newly) ∧
      (sweep newly mark objects).toFree =
        objects.filter (fun e => !isNewly newly e.1 && !isMarked mark e.1) ∧
      ∀ b, (sweep newly mark objects).mark b =
        if b ∈ objects.map Prod.fst then 0 else mark b :=
  foldl_sweepOne (s := ⟨mark, [], [], []⟩) honce fun _ _ => List.not_mem_nil

theorem queued_keys_sublist (newly : List Item) (objects : List (Nat × Nat)) :
    ((objects.filterMap (queued newly)).map Item.base).Sublist (objects.map Prod.fst) := by
  induction objects with
  | nil => exact .slnil
  | cons e rest ih =>
    rw [List.filterMap_cons, List.map_cons]
    cases hq : queued newly e with
    | none => exact ih.cons _
    | some i =>
      have hbase : i.base = e.1 := by
        obtain ⟨_, _, rfl⟩ := Option.map_eq_some_iff.mp hq
        rfl
      rw [List.map_cons, hbase]
      exact ih.cons_cons _

/-! ## The counts of the children -/

/-- The release of a field changes the word at this address. -/
def Releases (dying : List Nat) (word : Nat → Nat) (a field : Nat) : Prop :=
  HEADER ≤ word field ∧ word field - HEADER ∉ dying ∧ word field = a

instance (dying : List Nat) (word : Nat → Nat) (a field : Nat) :
    Decidable (Releases dying word a field) := by
  unfold Releases
  infer_instance

theorem rcDecNoFree_apply (word : Nat → Nat) (child a : Nat) :
    rcDecNoFree word child a = if child = a then word a - 1 else word a := by
  unfold rcDecNoFree
  by_cases ha : child = a
  · subst ha
    rw [if_pos rfl]
    split
    · exact Function.update_self ..
    · omega
  · rw [if_neg ha]
    split
    · exact Function.update_of_ne (Ne.symm ha) ..
    · rfl

theorem releaseField_apply (dying : List Nat) (word : Nat → Nat) (field a : Nat) :
    releaseField dying word field a =
      if Releases dying word a field then word a - 1 else word a := by
  unfold releaseField
  by_cases hc : HEADER ≤ word field ∧ word field - HEADER ∉ dying
  · rw [if_pos hc, rcDecNoFree_apply]
    by_cases ha : word field = a
    · rw [if_pos ha, if_pos ⟨hc.1, hc.2, ha⟩]
    · rw [if_neg ha, if_neg fun h => ha h.2.2]
  · rw [if_neg hc, if_neg fun h => hc ⟨h.1, h.2.1⟩]

/-- When no release changes an owned field, each word loses one for each release of it. -/
theorem foldl_releaseField {dying fields : List Nat} {word : Nat → Nat}
    (hkeep : ∀ f ∈ fields, ∀ g ∈ fields, ¬Releases dying word g f) (a : Nat) :
    fields.foldl (releaseField dying) word a =
      word a - fields.countP fun f => decide (Releases dying word a f) := by
  induction fields generalizing word with
  | nil => rfl
  | cons f rest ih =>
    have hsame : ∀ g ∈ rest, releaseField dying word f g = word g := by
      intro g hg
      rw [releaseField_apply]
      exact if_neg (hkeep f List.mem_cons_self g (List.mem_cons_of_mem f hg))
    have hreleases : ∀ g ∈ rest, ∀ b,
        Releases dying (releaseField dying word f) b g ↔ Releases dying word b g := by
      intro g hg b
      unfold Releases
      rw [hsame g hg]
    rw [List.foldl_cons, ih ?_, List.countP_cons, releaseField_apply]
    · have hcount : rest.countP (fun g => decide (Releases dying (releaseField dying word f) a g)) =
          rest.countP fun g => decide (Releases dying word a g) :=
        List.countP_congr fun g hg => by simp [hreleases g hg a]
      rw [hcount]
      by_cases hr : Releases dying word a f
      · simp only [hr, if_true, decide_true]
        omega
      · simp [hr]
    · intro g hg b hb
      rw [hreleases g hg b]
      exact hkeep g (List.mem_cons_of_mem f hg) b (List.mem_cons_of_mem f hb)

/-! ## What every collection does -/

/-- What a collection does, also where it is not exact. -/
structure Outcome (h : Heap) (roots : List Nat) (r : Collected) : Prop where
  objects : ∀ e, e ∈ r.heap.objects ↔
    e ∈ h.registered ∧ ¬Finalizable h roots e.1 ∧ ¬Garbage h roots e.1
  queue : ∃ new, r.heap.pending = h.pending ++ new ∧
    (new.map Item.base).Sublist (h.registered.map Prod.fst) ∧
      ∀ i, i ∈ new ↔ ∃ e ∈ h.registered, Finalizable h roots e.1 ∧
        i = ⟨e.1, e.2, (h.memory.desc e.1).typeId⟩
  frees : ∀ e, e ∈ r.toFree ↔ e ∈ h.registered ∧ Garbage h roots e.1
  in_order : r.toFree.Sublist h.registered
  logs : r.heap.registered = r.heap.objects
  desc : r.heap.memory.desc = h.memory.desc
  mark_registered : ∀ b ∈ h.registered.map Prod.fst, r.heap.memory.mark b = 0
  mark_pending : ∀ b ∈ h.pending.map Item.base, r.heap.memory.mark b ≠ 0
  word : ∀ a, r.heap.memory.word a = h.memory.word a -
    (ownedFields h.memory r.toFree).countP fun f =>
      decide (Releases (r.toFree.map Prod.fst) h.memory.word a f)

theorem drainAllocLogs_empty (objects : List (Nat × Nat)) (logs : List (List (Nat × Nat))) :
    drainAllocLogs objects (logs.map fun _ => []) = objects := by
  unfold drainAllocLogs
  have hflat : (logs.map fun _ => ([] : List (Nat × Nat))).flatten = [] := by
    simp
  rw [hflat]
  rfl

theorem Live.not_garbage {h : Heap} {roots : List Nat} {b : Nat} (hb : Live h roots b) :
    ¬Garbage h roots b :=
  fun hg => hg.1 hb

theorem Finalizable.not_garbage {h : Heap} {roots : List Nat} {b : Nat}
    (hb : Finalizable h roots b) : ¬Garbage h roots b :=
  fun hg => hg.2 b hb .refl

theorem Live.of_pending {h : Heap} {roots : List Nat} {b : Nat}
    (hb : b ∈ h.pending.map Item.base) : Live h roots b :=
  ⟨b, Or.inr hb, .refl⟩

theorem Layout.once_registered {h : Heap} (hl : Layout h) : (h.registered.map Prod.fst).Nodup :=
  (List.nodup_append.mp hl.once).1

theorem Layout.pending_not_registered {h : Heap} (hl : Layout h) {b : Nat}
    (hb : b ∈ h.pending.map Item.base) : b ∉ h.registered.map Prod.fst :=
  fun hr => (List.nodup_append.mp hl.once).2.2 b hr b hb rfl

theorem mem_ownedFields {m : Memory} {toFree : List (Nat × Nat)} {f : Nat} :
    f ∈ ownedFields m toFree ↔
      ∃ e ∈ toFree, ∃ off ∈ (m.desc e.1).rcOffsets, f = e.1 + HEADER + off := by
  unfold ownedFields
  simp only [List.mem_flatMap, List.mem_map, eq_comm]

/-- No release changes an owned field of an object that is freed. -/
theorem Layout.owned_kept {h : Heap} (hl : Layout h) {toFree : List (Nat × Nat)}
    (hfree : ∀ e ∈ toFree, e ∈ h.registered) :
    ∀ f ∈ ownedFields h.memory toFree, ∀ g ∈ ownedFields h.memory toFree,
      ¬Releases (toFree.map Prod.fst) h.memory.word g f := by
  intro f hf g hg hr
  obtain ⟨e, he, off, hoff, rfl⟩ := mem_ownedFields.mp hf
  obtain ⟨e', he', off', hoff', rfl⟩ := mem_ownedFields.mp hg
  have hblock : e ∈ h.blocks := List.mem_append_left _ (hfree e he)
  have hblock' : e' ∈ h.blocks := List.mem_append_left _ (hfree e' he')
  obtain ⟨_, hnot, heq⟩ := hr
  have hin := hl.owned e' hblock' off' hoff'
  have hstart := hl.whole e hblock off hoff e' hblock' (by omega) (by omega)
  rw [hstart, Nat.add_sub_cancel] at hnot
  exact hnot (List.mem_map_of_mem he')

/-- A collection ends, and this is what it does. -/
theorem collect_ends {h : Heap} (hl : Layout h) (roots : List Nat) :
    ∃ r, collect h roots = some r ∧ Outcome h roots r := by
  obtain ⟨mark₁, hmark₁, hlive⟩ := first_marking hl roots
  have hnewly := fun i => mem_newly hlive (i := i)
  obtain ⟨mark₂, hmark₂, hgarbage⟩ := second_marking hl hlive hnewly
  obtain ⟨hsurvivors, hqueue, hfree, hmark⟩ := sweep_spec
    (newlyUnreachable h.memory mark₁ h.dropFns h.registered) mark₂ hl.once_registered
  have hnew : ∀ b, isNewly (newlyUnreachable h.memory mark₁ h.dropFns h.registered) b = true ↔
      Finalizable h roots b := by
    intro b
    rw [isNewly_iff]
    constructor
    · rintro ⟨i, hi, rfl⟩
      obtain ⟨e, _, hd, rfl⟩ := (hnewly i).mp hi
      exact hd
    · intro hd
      obtain ⟨e, he, rfl⟩ := List.mem_map.mp hd.1
      exact ⟨_, (hnewly _).mpr ⟨e, he, hd, rfl⟩, rfl⟩
  have hknown : ∀ e ∈ h.registered, e.1 ∈ h.bases :=
    fun e he => List.mem_append_left _ (List.mem_map_of_mem he)
  have hmarked : ∀ e ∈ h.registered, isMarked mark₂ e.1 = true ↔ ¬Garbage h roots e.1 := by
    intro e he
    rw [isMarked_eq_true, ← hgarbage e.1 (hknown e he)]
  have hfrees : ∀ e, e ∈ (sweep (newlyUnreachable h.memory mark₁ h.dropFns h.registered) mark₂
      h.registered).toFree ↔ e ∈ h.registered ∧ Garbage h roots e.1 := by
    intro e
    rw [hfree, List.mem_filter]
    refine and_congr_right fun he => ?_
    have hbool : (!isMarked mark₂ e.1) = true ↔ Garbage h roots e.1 := by
      rw [Bool.not_eq_true', ← Bool.not_eq_true, hmarked e he, not_not]
    rw [Bool.and_eq_true, hbool, Bool.not_eq_true', ← Bool.not_eq_true, hnew]
    exact ⟨fun hc => hc.2, fun hg => ⟨fun hd => hd.not_garbage hg, hg⟩⟩
  refine ⟨reclaim h (sweep (newlyUnreachable h.memory mark₁ h.dropFns h.registered) mark₂
    h.registered), ?_, ?_⟩
  · unfold collect
    rw [hmark₁, Option.bind_eq_bind, Option.bind_some]
    dsimp only
    rw [← Heap.registered, hmark₂, Option.bind_some]
  · refine
      { objects := fun e => ?_
        queue := ⟨_, rfl, ?_, fun i => ?_⟩
        frees := hfrees
        in_order := ?_
        logs := drainAllocLogs_empty _ _
        desc := rfl
        mark_registered := fun b hb => ?_
        mark_pending := fun b hb => ?_
        word := foldl_releaseField (hl.owned_kept fun e he => ((hfrees e).mp he).1) }
    · show e ∈ (sweep _ _ _).survivors ↔ _
      rw [hsurvivors, List.mem_filter, Bool.and_eq_true, Bool.not_eq_true', ← Bool.not_eq_true,
        hnew]
      exact and_congr_right fun he => and_congr_right fun _ => hmarked e he
    · rw [hqueue]
      exact queued_keys_sublist _ _
    · rw [hqueue, List.mem_filterMap]
      refine exists_congr fun e => and_congr_right fun he => ?_
      constructor
      · intro hq
        obtain ⟨j, hj, rfl⟩ := Option.map_eq_some_iff.mp hq
        have hbase : j.base = e.1 := by simpa using List.find?_some hj
        obtain ⟨e', _, hd, rfl⟩ := (hnewly j).mp (List.mem_of_find?_eq_some hj)
        exact ⟨hbase ▸ hd, by rw [← hbase]⟩
      · rintro ⟨hd, rfl⟩
        obtain ⟨j, hj⟩ := Option.isSome_iff_exists.mp ((hnew e.1).mpr hd)
        have hbase : j.base = e.1 := by simpa using List.find?_some hj
        obtain ⟨e', _, _, rfl⟩ := (hnewly j).mp (List.mem_of_find?_eq_some hj)
        unfold queued
        rw [hj, Option.map_some, ← hbase]
    · show (sweep _ _ _).toFree.Sublist _
      rw [hfree]
      exact List.filter_sublist
    · show (sweep _ _ _).mark b = 0
      rw [hmark, if_pos hb]
    · show (sweep _ _ _).mark b ≠ 0
      rw [hmark, if_neg (hl.pending_not_registered hb), ne_eq,
        hgarbage b (List.mem_append_right _ hb)]
      exact (Live.of_pending hb).not_garbage

/-! ## When a collection is exact -/

theorem Outcome.not_freed {h : Heap} {roots : List Nat} {r : Collected} (ho : Outcome h roots r)
    {b : Nat} (hb : Live h roots b) : b ∉ r.toFree.map Prod.fst := by
  intro hmem
  obtain ⟨e, he, rfl⟩ := List.mem_map.mp hmem
  exact hb.not_garbage ((ho.frees e).mp he).2

/-- Each object waits once for its finalizer. -/
theorem Outcome.queued_once {h : Heap} {roots : List Nat} {r : Collected} (hl : Layout h)
    (ho : Outcome h roots r) : (r.heap.pending.map Item.base).Nodup := by
  obtain ⟨new, hpending, hsub, _⟩ := ho.queue
  rw [hpending, List.map_append]
  have hnodup := hl.once.sublist (hsub.append (List.Sublist.refl (h.pending.map Item.base)))
  exact (List.perm_append_comm.nodup_iff).mp hnodup

/-- Without stale pointers a collection changes no field of a live object. -/
theorem Outcome.field_kept {h : Heap} {roots : List Nat} {r : Collected} (hl : Layout h)
    (ho : Outcome h roots r) (hstale : ¬StaleOwner h roots) {e : Nat × Nat} (he : e ∈ h.blocks)
    (hlive : Live h roots e.1) {off : Nat} (hoff : HEADER + off < e.2)
    (hcount : (h.memory.desc e.1).kind = .refCounted → 8 ≤ off) :
    r.heap.memory.word (e.1 + HEADER + off) = h.memory.word (e.1 + HEADER + off) := by
  rw [ho.word]
  by_cases hzero : h.memory.word (e.1 + HEADER + off) = 0
  · omega
  · have hnone : (ownedFields h.memory r.toFree).countP (fun f => decide
        (Releases (r.toFree.map Prod.fst) h.memory.word (e.1 + HEADER + off) f)) = 0 := by
      rw [List.countP_eq_zero]
      intro f hf hr
      obtain ⟨g, hg, goff, hgoff, rfl⟩ := mem_ownedFields.mp hf
      obtain ⟨_, _, heq⟩ := of_decide_eq_true hr
      obtain ⟨hgr, hgarbage⟩ := (ho.frees g).mp hg
      have hstart := hl.whole g (List.mem_append_left _ hgr) goff hgoff e he (by omega) (by omega)
      have hoff0 : off = 0 := by omega
      subst hoff0
      refine hstale ⟨g, hgr, hgarbage, goff, hgoff, e, he, hlive, fun hk => ?_, by omega,
        hstart, hzero⟩
      exact absurd (hcount hk) (by omega)
    omega

/-- A stale pointer changes a field of a live object. -/
theorem Outcome.field_lost {h : Heap} {roots : List Nat} {r : Collected}
    (ho : Outcome h roots r) (hstale : StaleOwner h roots) :
    ∃ e ∈ h.blocks, Live h roots e.1 ∧ (h.memory.desc e.1).kind ≠ .refCounted ∧
      HEADER + 0 < e.2 ∧
        r.heap.memory.word (e.1 + HEADER + 0) ≠ h.memory.word (e.1 + HEADER + 0) := by
  obtain ⟨g, hg, hgarbage, goff, hgoff, e, he, hlive, hk, hsize, hword, hpos⟩ := hstale
  refine ⟨e, he, hlive, hk, hsize, ?_⟩
  have hfield : g.1 + HEADER + goff ∈ ownedFields h.memory r.toFree :=
    mem_ownedFields.mpr ⟨g, (ho.frees g).mpr ⟨hg, hgarbage⟩, goff, hgoff, rfl⟩
  have hsub : e.1 + HEADER - HEADER = e.1 := Nat.add_sub_cancel ..
  have hreleases : Releases (r.toFree.map Prod.fst) h.memory.word (e.1 + HEADER)
      (g.1 + HEADER + goff) := by
    unfold Releases
    rw [hword, hsub]
    exact ⟨Nat.le_add_left .., ho.not_freed hlive, rfl⟩
  have hcount : 0 < (ownedFields h.memory r.toFree).countP fun f =>
      decide (Releases (r.toFree.map Prod.fst) h.memory.word (e.1 + HEADER) f) :=
    List.countP_pos_iff.mpr ⟨_, hfield, decide_eq_true hreleases⟩
  rw [Nat.add_zero, ho.word]
  omega

/-- A collection ends, and it is exact when no object waits for its finalizer and no object
that dies owns a stale pointer; otherwise it is not. -/
theorem a_collection_is_exact_without_pending_objects_and_stale_owners (h : Heap)
    (roots : List Nat) (hl : Layout h) :
    ∃ r, collect h roots = some r ∧
      (Exact h roots r ↔ h.pending = [] ∧ ¬StaleOwner h roots) := by
  obtain ⟨r, hr, ho⟩ := collect_ends hl roots
  refine ⟨r, hr, fun hx => ⟨?_, fun hstale => ?_⟩, fun ⟨hnone, hstale⟩ => ?_⟩
  · by_contra hne
    obtain ⟨i, hi⟩ := List.exists_mem_of_ne_nil _ hne
    have hbase : i.base ∈ r.heap.bases :=
      List.mem_append_right _ (List.mem_map_of_mem (hx.keeps_pending i hi).1)
    exact ho.mark_pending i.base (List.mem_map_of_mem hi) (hx.clean i.base hbase)
  · obtain ⟨e, he, hlive, hk, hsize, hchanged⟩ := ho.field_lost hstale
    exact hchanged ((hx.keeps_fields e he hlive).2 0 hsize fun h => absurd h hk)
  · obtain ⟨new, hpending, hsub, hnew⟩ := ho.queue
    refine
      { keeps := fun e he hlive => ⟨?_, fun hf => ?_⟩
        keeps_pending := fun i hi => absurd hi (by rw [hnone]; exact List.not_mem_nil)
        keeps_fields := fun e he hlive => ⟨by rw [ho.desc], fun off hoff hcount => ?_⟩
        frees := ho.frees
        frees_once := hl.once_registered.sublist (ho.in_order.map _)
        moves := fun e he hd => ⟨?_, ?_, fun ho' => ?_⟩
        clean := fun b hb => ?_ }
    · exact (ho.objects e).mpr ⟨he, fun hd => hd.2.1 hlive, hlive.not_garbage⟩
    · exact hlive.not_garbage ((ho.frees e).mp hf).2
    · exact ho.field_kept hl hstale he hlive hoff hcount
    · rw [hpending, List.mem_append]
      exact Or.inr ((hnew _).mpr ⟨e, he, hd, rfl⟩)
    · apply List.count_eq_one_of_mem (ho.queued_once hl)
      rw [hpending, List.map_append, List.mem_append]
      exact Or.inr (List.mem_map.mpr ⟨_, (hnew _).mpr ⟨e, he, hd, rfl⟩, rfl⟩)
    · exact ((ho.objects e).mp ho').2.1 hd
    · apply ho.mark_registered
      unfold Heap.bases at hb
      rw [← Heap.registered, ho.logs, hpending, hnone, List.nil_append] at hb
      rcases List.mem_append.mp hb with hb | hb
      · obtain ⟨e, he, rfl⟩ := List.mem_map.mp hb
        exact List.mem_map_of_mem ((ho.objects e).mp he).1
      · exact hsub.subset hb

/-- An object at 16 with a `Drop` and one field, which holds the object at 64. -/
def dropMemory : Memory where
  desc b := if b = 16 then ⟨.plain, 1, [0], [], []⟩ else ⟨.plain, 0, [], [], []⟩
  mark _ := 0
  word a := if a = 32 then 80 else 0

/-- Both objects are registered, and nothing reaches them. -/
def unreachableHeap : Heap := ⟨dropMemory, [(16, 24), (64, 24)], [], [], [], [1]⟩

theorem no_stale_owner_in_the_unreachable_heap : ¬StaleOwner unreachableHeap [] := by
  rintro ⟨e, _, _, off, hoff, _⟩
  have hnone : (unreachableHeap.memory.desc e.1).rcOffsets = [] := by
    show (if e.1 = 16 then _ else _ : Desc).rcOffsets = []
    split <;> rfl
  rw [hnone] at hoff
  exact List.not_mem_nil hoff

theorem a_collection_of_the_unreachable_heap_is_exact :
    ∃ r, collect unreachableHeap [] = some r ∧ Exact unreachableHeap [] r := by
  have hl : Layout unreachableHeap :=
    ⟨by decide, by decide, by decide, by decide, by decide, by decide⟩
  obtain ⟨r, hr, hiff⟩ :=
    a_collection_is_exact_without_pending_objects_and_stale_owners unreachableHeap [] hl
  exact ⟨r, hr, hiff.mpr ⟨rfl, no_stale_owner_in_the_unreachable_heap⟩⟩

/-- The object at 16 waits for its finalizer. -/
def pendingHeap : Heap := ⟨dropMemory, [(64, 24)], [], [⟨16, 24, 1⟩], [], [1]⟩

/-- The mark of the pending object stays, so a second collection does not look into it, and
frees the object that it holds. -/
theorem a_second_collection_frees_what_a_pending_object_holds :
    Layout pendingHeap ∧ ∃ r, collect pendingHeap [] = some r ∧ ¬Exact pendingHeap [] r ∧
      ∃ r₂, collect r.heap [] = some r₂ ∧ Live r.heap [] 64 ∧ (64, 24) ∈ r₂.toFree := by
  have hl : Layout pendingHeap :=
    ⟨by decide, by decide, by decide, by decide, by decide, by decide⟩
  refine ⟨hl, _, rfl, fun hx => absurd (hx.clean 16 (by decide)) (by decide), _, rfl, ?_, by decide⟩
  exact ⟨16, Or.inr (by decide), .single ⟨by decide, mem_scan.mp (by decide)⟩⟩

end runtime.gc
