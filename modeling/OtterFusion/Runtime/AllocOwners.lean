-- The owners of the addresses of the managed heap (`gc_alloc.rs`): a bump region, a free list, a
-- thread that has a block in hand, or the program. This is the invariant of the allocator, and
-- how the owners change with a step.
import Mathlib.Data.List.Nodup
import OtterFusion.Base.Ownership
import OtterFusion.Base.Runs
import OtterFusion.Runtime.Alloc

open base.ownership base.runs

namespace runtime.alloc

/-! ## Size classes -/

/-- What the callers of `alloc` promise in a build without overflow checks: the size is that of
a Rust allocation. -/
def Promised (checks : Bool) (total : Nat) : Prop := checks = true ∨ total ≤ isizeMax

/-- The class of a size that was promised. -/
structure Sized (checks : Bool) (total cls : Nat) : Prop where
  cls : sizeClass checks total = some cls
  promised : Promised checks total

/-- A sum that does not overflow, or that is checked. -/
theorem addUsize_exact {checks : Bool} {a b r : Nat} (h : addUsize checks a b = some r)
    (hfit : checks = true ∨ a + b < 2 ^ 64) : r = a + b := by
  unfold addUsize at h
  split at h
  · exact (Option.some.inj h).symm
  · rename_i hover
    rcases hfit with hc | hfit
    · rw [if_pos hc] at h
      cases h
    · exact absurd hfit hover

/-- The three ranges of `size_class`. -/
theorem sizeClass_cases {checks : Bool} {total cls : Nat} (h : Sized checks total cls) :
    (total ≤ 512 ∧ cls = (max total 16 + 15) / 16 * 16) ∨
    (512 < total ∧ total ≤ largeMax ∧ cls = 2 ^ Nat.clog 2 total) ∨
    (largeMax < total ∧ cls = (total + 15) / 16 * 16) := by
  obtain ⟨hcls, hprom⟩ := h
  have halign : align = 16 := rfl
  simp only [sizeClass] at hcls
  by_cases hle : max total align ≤ 512
  · rw [if_pos hle, Option.map_eq_some_iff] at hcls
    obtain ⟨sum, hsum, rfl⟩ := hcls
    have hexact := addUsize_exact hsum (Or.inr (by omega))
    refine Or.inl ⟨by omega, ?_⟩
    unfold alignDown
    rw [hexact, halign]
  · have hmax : max total align = total := by omega
    rw [if_neg hle, hmax] at hcls
    by_cases hlarge : total ≤ largeMax
    · rw [if_pos hlarge, Option.some.injEq] at hcls
      exact Or.inr (Or.inl ⟨by omega, hlarge, hcls.symm⟩)
    · rw [if_neg hlarge] at hcls
      simp only [Option.bind_eq_bind, Option.bind_eq_some_iff, Option.some.injEq] at hcls
      obtain ⟨sum, hsum, low, hlow, rfl⟩ := hcls
      have hexact : sum = total + align := by
        refine addUsize_exact hsum (hprom.imp_right fun hp => ?_)
        unfold isizeMax at hp
        omega
      unfold subUsize at hlow
      rw [if_pos (by omega), Option.some.injEq] at hlow
      refine Or.inr (Or.inr ⟨by omega, ?_⟩)
      unfold alignDown
      rw [← hlow, hexact]
      omega

theorem clog_range {total : Nat} (hlo : 512 < total) (hhi : total ≤ largeMax) :
    10 ≤ Nat.clog 2 total ∧ Nat.clog 2 total ≤ 20 := by
  constructor
  · by_contra hlt
    have hle : total ≤ 2 ^ Nat.clog 2 total := Nat.le_pow_clog (by omega) total
    have hpow : 2 ^ Nat.clog 2 total ≤ 2 ^ 9 := Nat.pow_le_pow_right (by omega) (by omega)
    omega
  · exact Nat.clog_le_of_le_pow hhi

/-- A class is large enough, a multiple of the alignment, and no larger than half the
addresses, unless overflows are checked. -/
theorem sizeClass_spec {checks : Bool} {total cls : Nat} (h : Sized checks total cls) :
    total ≤ cls ∧ 0 < cls ∧ 16 ∣ cls ∧ (checks = true ∨ cls ≤ 2 ^ 63) := by
  rcases sizeClass_cases h with ⟨hle, rfl⟩ | ⟨hlo, hhi, rfl⟩ | ⟨hlo, rfl⟩
  · exact ⟨by omega, by omega, Nat.dvd_mul_left 16 _, Or.inr (by omega)⟩
  · obtain ⟨h10, h20⟩ := clog_range hlo hhi
    have hpow : 2 ^ Nat.clog 2 total ≤ 2 ^ 20 := Nat.pow_le_pow_right (by omega) h20
    refine ⟨Nat.le_pow_clog (by omega) total, Nat.pos_of_ne_zero (by simp), ?_, Or.inr (by omega)⟩
    have h4 : 2 ^ 4 ∣ 2 ^ Nat.clog 2 total := Nat.pow_dvd_pow 2 (by omega)
    exact h4
  · refine ⟨by omega, by omega, Nat.dvd_mul_left 16 _, h.promised.imp_right fun hp => ?_⟩
    unfold isizeMax at hp
    omega

theorem trailingZeros_two_pow {k width : Nat} (h : k < width) :
    trailingZeros width (2 ^ k) = k := by
  induction k generalizing width with
  | zero =>
    obtain ⟨w, rfl⟩ : ∃ w, width = w + 1 := ⟨width - 1, by omega⟩
    rfl
  | succ k ih =>
    obtain ⟨w, rfl⟩ : ∃ w, width = w + 1 := ⟨width - 1, by omega⟩
    have hodd : ¬ 2 ^ (k + 1) % 2 = 1 := by
      rw [Nat.pow_succ]
      omega
    have hhalf : 2 ^ (k + 1) / 2 = 2 ^ k := by
      rw [Nat.pow_succ]
      omega
    unfold trailingZeros
    rw [if_neg hodd, hhalf, ih (by omega)]

/-- `class_size_of_index` inverts `class_index`, so one list holds blocks of one size. -/
theorem classIndex_spec {checks : Bool} {total cls idx : Nat} (h : Sized checks total cls)
    (hidx : classIndex checks cls = some (some idx)) : classSizeOfIndex idx = cls := by
  unfold classIndex at hidx
  unfold classSizeOfIndex
  rcases sizeClass_cases h with ⟨hle, hcls⟩ | ⟨hlo, hhi, hcls⟩ | ⟨hlo, hcls⟩
  · have hsmall : cls ≤ 512 := by omega
    rw [if_pos hsmall, Option.map_eq_some_iff] at hidx
    obtain ⟨i, hi, he⟩ := hidx
    unfold subUsize at hi
    rw [if_pos (by omega), Option.some.injEq] at hi
    rw [Option.some.injEq] at he
    rw [if_pos (by omega)]
    omega
  · obtain ⟨h10, h20⟩ := clog_range hlo hhi
    have hle : total ≤ cls := (sizeClass_spec h).1
    have hpow : cls ≤ 2 ^ 20 := by
      rw [hcls]
      exact Nat.pow_le_pow_right (by omega) h20
    rw [if_neg (by omega), if_pos (show cls ≤ largeMax from hpow), Option.some.injEq,
      Option.some.injEq, hcls, trailingZeros_two_pow (by omega)] at hidx
    rw [if_neg (by omega), hcls]
    congr 1
    omega
  · have hgt : largeMax < cls := by omega
    have h512 : 512 < largeMax := by decide
    rw [if_neg (by omega), if_neg (by omega)] at hidx
    cases hidx

/-! ## Who owns what -/

/-- The owner of an address: a bump region, the entry of a free list, a thread that has a block
in hand, or the program. -/
inductive Owner
  | globBump
  | chunk (thread : Nat)
  | globFree (idx base : Nat)
  | localFree (thread idx base : Nat)
  | large (cls base : Nat)
  | inHand (thread : Nat)
  | live (base : Nat)
  deriving DecidableEq

/-- The owners of memory that was not handed out yet. -/
def Owner.isBump : Owner → Bool
  | .globBump | .chunk _ => true
  | _ => false

def InSlab (slabs : List (Nat × Nat)) (base size : Nat) : Prop :=
  ∃ slab ∈ slabs, slab.1 ≤ base ∧ base + size ≤ slab.1 + slab.2

/-- A block of an owner. -/
structure Block (own : Nat → Owner) (slabs : List (Nat × Nat)) (tag : Owner)
    (base size : Nat) : Prop where
  pos : 0 < size
  aligned : 16 ∣ base
  inSlab : InSlab slabs base size
  owns : Owns own tag base size

/-- A bump region of an owner. -/
structure Spare (own : Nat → Owner) (slabs : List (Nat × Nat)) (tag : Owner)
    (cursor limit : Nat) : Prop where
  le : cursor ≤ limit
  low : limit < 2 ^ 63
  aligned : 16 ∣ cursor
  inSlab : cursor < limit → InSlab slabs cursor (limit - cursor)
  owns : Owns own tag cursor (limit - cursor)

/-- The block that a thread at this point has in hand. -/
def Point.Has (checks : Bool) : Point → Nat → Nat → Prop
  | .zero _ cls base, b, n => b = base ∧ n = cls
  | .ret _ cls base, b, n => b = base ∧ n = cls
  | .free total base, b, n => b = base ∧ sizeClass checks total = some n
  | _, _, _ => False

/-- The blocks that the state tells of, each with its owner. -/
inductive Holds (checks : Bool) (s : Heap) : Owner → Nat → Nat → Prop
  | globFree {idx base : Nat} : base ∈ s.glob.free idx →
      Holds checks s (.globFree idx base) base (classSizeOfIndex idx)
  | localFree {th idx base : Nat} : base ∈ (s.caches th).free idx →
      Holds checks s (.localFree th idx base) base (classSizeOfIndex idx)
  | large {cls base : Nat} : base ∈ s.glob.largeFree cls →
      Holds checks s (.large cls base) base cls
  | inHand {th base size : Nat} : (s.points th).Has checks base size →
      Holds checks s (.inHand th) base size
  | live {base total cls : Nat} : (base, total) ∈ s.live →
      sizeClass checks total = some cls → Holds checks s (.live base) base cls

/-- The sizes that a thread has at hand. -/
def PointOk (checks : Bool) : Point → Prop
  | .idle => True
  | .small total cls idx | .refill total cls idx =>
    Sized checks total cls ∧ classIndex checks cls = some (some idx)
  | .large total cls | .zero total cls _ | .ret total cls _ => Sized checks total cls
  | .free total _ => ∃ cls, Sized checks total cls

/-- Each list holds a block once, and no two live blocks have one address. -/
structure Distinct (s : Heap) : Prop where
  globFree : ∀ idx, (s.glob.free idx).Nodup
  localFree : ∀ th idx, ((s.caches th).free idx).Nodup
  large : ∀ cls, (s.glob.largeFree cls).Nodup
  live : (s.live.map Prod.fst).Nodup

/-- What was not handed out yet is zero, and so is a block that is about to be returned. -/
structure Blank (own : Nat → Owner) (s : Heap) : Prop where
  spare : ∀ a, (own a).isBump = true → s.mem a = 0
  ret : ∀ th total cls base, s.points th = .ret total cls base →
    ∀ a, base ≤ a → a < base + cls → s.mem a = 0

structure Inv (checks : Bool) (own : Nat → Owner) (s : Heap) : Prop where
  glob : Spare own s.glob.slabs .globBump s.glob.cursor s.glob.limit
  chunk : ∀ th, Spare own s.glob.slabs (.chunk th) (s.caches th).cursor (s.caches th).limit
  blocks : ∀ tag base size, Holds checks s tag base size → Block own s.glob.slabs tag base size
  points : ∀ th, PointOk checks (s.points th)
  live : ∀ base total, (base, total) ∈ s.live → ∃ cls, Sized checks total cls
  distinct : Distinct s
  blank : Blank own s

/-! ## How blocks change their owners -/

section moves

variable {own : Nat → Owner} {slabs slabs' : List (Nat × Nat)} {tag old new : Owner}
  {base size base' size' cursor limit : Nat}

theorem InSlab.part (h : InSlab slabs base size) (hlo : base ≤ base')
    (hhi : base' + size' ≤ base + size) : InSlab slabs base' size' := by
  obtain ⟨slab, hmem, h1, h2⟩ := h
  exact ⟨slab, hmem, by omega, by omega⟩

theorem InSlab.mono (hsub : slabs ⊆ slabs') (h : InSlab slabs base size) :
    InSlab slabs' base size := by
  obtain ⟨slab, hmem, h12⟩ := h
  exact ⟨slab, hsub hmem, h12⟩

/-- A region that is in a slab is apart from one that is in none. -/
theorem InSlab.apart (h : InSlab slabs base' size')
    (hout : ∀ slab ∈ slabs, base + size ≤ slab.1 ∨ slab.1 + slab.2 ≤ base) :
    Apart base size base' size' := by
  obtain ⟨slab, hmem, h1, h2⟩ := h
  unfold Apart
  rcases hout slab hmem with hlo | hhi <;> omega

theorem Block.rename (f : Owner → Owner) (h : Block own slabs tag base size) :
    Block (fun a => f (own a)) slabs (f tag) base size :=
  ⟨h.pos, h.aligned, h.inSlab, h.owns.rename f⟩

theorem Spare.rename (f : Owner → Owner) (hf : f tag = tag) (h : Spare own slabs tag cursor limit) :
    Spare (fun a => f (own a)) slabs tag cursor limit := by
  refine ⟨h.le, h.low, h.aligned, h.inSlab, ?_⟩
  have howns := h.owns.rename f
  rwa [hf] at howns

theorem Block.give (h : Block own slabs tag base' size') (hold : Owns own old base size)
    (hne : tag ≠ old) : Block (retag own base size new) slabs tag base' size' :=
  ⟨h.pos, h.aligned, h.inSlab, h.owns.retag_other hold hne⟩

theorem Spare.give (h : Spare own slabs tag cursor limit) (hold : Owns own old base size)
    (hne : tag ≠ old) : Spare (retag own base size new) slabs tag cursor limit :=
  ⟨h.le, h.low, h.aligned, h.inSlab, h.owns.retag_other hold hne⟩

/-- A block is carved from the front of a bump region. -/
theorem Spare.carve (h : Spare own slabs old cursor limit) (hpos : 0 < size) (hdvd : 16 ∣ size)
    (hfit : cursor + size ≤ limit) :
    Block (retag own cursor size new) slabs new cursor size ∧
    Spare (retag own cursor size new) slabs old (cursor + size) limit := by
  have hslab := h.inSlab (by omega)
  refine ⟨⟨hpos, h.aligned, hslab.part (Nat.le_refl _) (by omega), owns_retag⟩,
    ⟨hfit, h.low, Nat.dvd_add h.aligned hdvd, fun _ => hslab.part (by omega) (by omega), ?_⟩⟩
  have hrest : Owns own old (cursor + size) (limit - (cursor + size)) :=
    h.owns.part (by omega) (by omega)
  exact hrest.retag_apart (Or.inl (Nat.le_refl _))

/-- A new slab leaves what is in the slabs before it. -/
theorem Block.grow (h : Block own slabs tag base' size') (hsub : slabs ⊆ slabs')
    (hout : ∀ slab ∈ slabs, base + size ≤ slab.1 ∨ slab.1 + slab.2 ≤ base) :
    Block (retag own base size new) slabs' tag base' size' :=
  ⟨h.pos, h.aligned, h.inSlab.mono hsub, h.owns.retag_apart (h.inSlab.apart hout)⟩

theorem Spare.grow (h : Spare own slabs tag cursor limit) (hsub : slabs ⊆ slabs')
    (hout : ∀ slab ∈ slabs, base + size ≤ slab.1 ∨ slab.1 + slab.2 ≤ base) :
    Spare (retag own base size new) slabs' tag cursor limit := by
  refine ⟨h.le, h.low, h.aligned, fun hlt => (h.inSlab hlt).mono hsub, ?_⟩
  rcases Nat.eq_or_lt_of_le h.le with heq | hlt
  · intro a hle hlt
    omega
  · exact h.owns.retag_apart ((h.inSlab hlt).apart hout)

/-- What is zero and in no hand stays so when a region goes to a new owner that may write, or
when it is zero. -/
theorem spare_retag {mem : Nat → UInt8} (h : ∀ a, (own a).isBump = true → mem a = 0)
    (hnew : new.isBump = true → ∀ a, base ≤ a → a < base + size → mem a = 0) (a : Nat)
    (ha : (retag own base size new a).isBump = true) : mem a = 0 := by
  by_cases hin : base ≤ a ∧ a < base + size
  · rw [retag_in hin.1 hin.2] at ha
    exact hnew ha a hin.1 hin.2
  · rw [retag_out hin] at ha
    exact h a ha

end moves

/-! ## Blocks that change their owner as a whole -/

/-- One owner gets another name. -/
def moved (old new : Owner) (tag : Owner) : Owner := if tag = old then new else tag

theorem moved_self (old new : Owner) : moved old new old = new := if_pos rfl

theorem moved_of_ne {old new tag : Owner} (h : tag ≠ old) : moved old new tag = tag := if_neg h

/-- Both states have the same bump regions, slabs and memory. -/
structure SameBumps (s s' : Heap) : Prop where
  slabs : s'.glob.slabs = s.glob.slabs
  cursor : s'.glob.cursor = s.glob.cursor
  limit : s'.glob.limit = s.glob.limit
  chunk : ∀ th, (s'.caches th).cursor = (s.caches th).cursor ∧
    (s'.caches th).limit = (s.caches th).limit
  mem : s'.mem = s.mem

/-- A step that renames owners, where none of a bump region, keeps the invariant. -/
theorem Inv.rename {checks : Bool} {own : Nat → Owner} {s s' : Heap} (f : Owner → Owner)
    (h : Inv checks own s) (hsame : SameBumps s s')
    (hbump : ∀ tag, tag.isBump = true → f tag = tag)
    (hfree : ∀ tag, (f tag).isBump = true → tag.isBump = true)
    (hholds : ∀ tag b n, Holds checks s' tag b n → ∃ tag', Holds checks s tag' b n ∧ f tag' = tag)
    (hpoints : ∀ th, PointOk checks (s'.points th))
    (hlive : ∀ b n, (b, n) ∈ s'.live → ∃ cls, Sized checks n cls) (hdistinct : Distinct s')
    (hret : ∀ th total cls b, s'.points th = .ret total cls b → s.points th = .ret total cls b) :
    Inv checks (fun a => f (own a)) s' := by
  refine ⟨?_, fun th => ?_, fun tag b n hh => ?_, hpoints, hlive, hdistinct,
    ⟨fun a ha => ?_, fun th total cls b hp => ?_⟩⟩
  · rw [hsame.slabs, hsame.cursor, hsame.limit]
    exact h.glob.rename f (hbump _ rfl)
  · rw [hsame.slabs, (hsame.chunk th).1, (hsame.chunk th).2]
    exact (h.chunk th).rename f (hbump _ rfl)
  · obtain ⟨tag', hold, rfl⟩ := hholds tag b n hh
    rw [hsame.slabs]
    exact (h.blocks tag' b n hold).rename f
  · rw [hsame.mem]
    exact h.blank.spare a (hfree _ ha)
  · rw [hsame.mem]
    exact h.blank.ret th total cls b (hret th total cls b hp)

section rename

variable {checks : Bool} {own : Nat → Owner} {s : Heap}

theorem moved_bump {old new tag : Owner} (hold : old.isBump = false) (h : tag.isBump = true) :
    moved old new tag = tag := by
  apply moved_of_ne
  rintro rfl
  rw [hold] at h
  cases h

theorem moved_isBump {old new tag : Owner} (hnew : new.isBump = false)
    (h : (moved old new tag).isBump = true) : tag.isBump = true := by
  unfold moved at h
  split at h
  · rw [hnew] at h
    cases h
  · exact h

/-- The renaming of one owner that is no bump region. -/
theorem Inv.move {s' : Heap} {old new : Owner} (h : Inv checks own s) (hsame : SameBumps s s')
    (hold : old.isBump = false) (hnew : new.isBump = false)
    (hholds : ∀ tag b n, Holds checks s' tag b n →
      (tag = new ∧ Holds checks s old b n) ∨ (tag ≠ old ∧ Holds checks s tag b n))
    (hpoints : ∀ th, PointOk checks (s'.points th))
    (hlive : ∀ b n, (b, n) ∈ s'.live → ∃ cls, Sized checks n cls) (hdistinct : Distinct s')
    (hret : ∀ th total cls b, s'.points th = .ret total cls b → s.points th = .ret total cls b) :
    Inv checks (fun a => moved old new (own a)) s' := by
  refine h.rename (moved old new) hsame (fun tag => moved_bump hold) (fun tag => moved_isBump hnew)
    (fun tag b n hh => ?_) hpoints hlive hdistinct hret
  rcases hholds tag b n hh with ⟨rfl, hbefore⟩ | ⟨hne, hbefore⟩
  · exact ⟨old, hbefore, moved_self old tag⟩
  · exact ⟨tag, hbefore, moved_of_ne hne⟩

theorem points_goto (th : Nat) (p : Point) (i : Nat) :
    (s.goto th p).points i = if i = th then p else s.points i := by
  by_cases h : i = th
  · subst h
    simp [Heap.goto]
  · simp [Heap.goto, h]

theorem mem_update {free : Nat → List Nat} {idx i b : Nat} {blocks : List Nat}
    (h : b ∈ Function.update free idx blocks i) :
    (i = idx ∧ b ∈ blocks) ∨ (i ≠ idx ∧ b ∈ free i) := by
  by_cases hi : i = idx
  · subst hi
    exact Or.inl ⟨rfl, by simpa using h⟩
  · exact Or.inr ⟨hi, by simpa [hi] using h⟩

theorem popBlock_eq {blocks rest : List Nat} {base : Nat}
    (h : popBlock blocks = some (base, rest)) : blocks = rest ++ [base] := by
  unfold popBlock at h
  rw [Option.map_eq_some_iff] at h
  obtain ⟨b, hb, he⟩ := h
  cases he
  obtain ⟨front, rfl⟩ := List.getLast?_eq_some_iff.mp hb
  rw [List.dropLast_concat]

theorem nodup_snoc {blocks : List Nat} {base : Nat} :
    (blocks ++ [base]).Nodup ↔ base ∉ blocks ∧ blocks.Nodup := by
  rw [← List.concat_eq_append]
  exact List.nodup_concat blocks base

/-- The points after a step of one thread. -/
theorem pointOk_goto (h : ∀ th, PointOk checks (s.points th)) {th : Nat} {p : Point}
    (hp : PointOk checks p) (i : Nat) : PointOk checks ((s.goto th p).points i) := by
  rw [points_goto]
  split
  · exact hp
  · exact h i

/-- A thread that goes to a point where it has no block in hand. -/
theorem Inv.goto (h : Inv checks own s) {th : Nat} {p : Point}
    (hhas : ∀ b n, ¬ p.Has checks b n) (hp : PointOk checks p) :
    Inv checks own (s.goto th p) := by
  have hret : ∀ i total cls b, (s.goto th p).points i = .ret total cls b →
      s.points i = .ret total cls b := by
    intro i total cls b hi
    rw [points_goto] at hi
    split at hi
    · subst hi
      exact absurd ⟨rfl, rfl⟩ (hhas b cls)
    · exact hi
  refine ⟨h.glob, h.chunk, fun tag b n hh => h.blocks tag b n ?_, pointOk_goto h.points hp, h.live,
    ⟨h.distinct.globFree, h.distinct.localFree, h.distinct.large, h.distinct.live⟩,
    ⟨h.blank.spare, fun i total cls b hi => h.blank.ret i total cls b (hret i total cls b hi)⟩⟩
  cases hh with
  | globFree hb => exact .globFree hb
  | localFree hb => exact .localFree hb
  | large hb => exact .large hb
  | live hb hc => exact .live hb hc
  | inHand hb =>
    rw [points_goto] at hb
    split at hb
    · exact absurd hb (hhas _ _)
    · exact .inHand hb

end rename

end runtime.alloc
