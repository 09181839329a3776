-- Semantic types (`ty.rs`). The interner numbers each type once, and only the order of these
-- numbers is ever seen, so a type is its structure and the numbering is a parameter.
import Mathlib.Data.List.Dedup
import Mathlib.Data.List.Sort
import Mathlib.Data.Nat.Pairing

namespace compiler.sema

/-- `DefId`, an index into the table of definitions. -/
abbrev DefId := Nat

/-- `ModId`, an index into the table of modules. -/
abbrev ModId := Nat

/-! ## Types -/

/-- `IntTy`. -/
inductive IntTy
  | i8 | i16 | i32 | i64 | u8 | u16 | u32 | u64 | isize | usize
  deriving DecidableEq, Repr

/-- `IntTy::from_name`. -/
def IntTy.fromName : String → Option IntTy
  | "i8" => some .i8
  | "i16" => some .i16
  | "i32" => some .i32
  | "i64" => some .i64
  | "u8" => some .u8
  | "u16" => some .u16
  | "u32" => some .u32
  | "u64" => some .u64
  | "isize" => some .isize
  | "usize" => some .usize
  | _ => none

/-- `FloatTy`. -/
inductive FloatTy
  | f32 | f64
  deriving DecidableEq, Repr

/-- `FloatTy::from_name`. -/
def FloatTy.fromName : String → Option FloatTy
  | "f32" => some .f32
  | "f64" => some .f64
  | _ => none

/-- `TyKind`. -/
inductive Ty
  | int (it : IntTy)
  | float (ft : FloatTy)
  | bool | char | str | null | dynamic | never
  | named (d : DefId) (args : List Ty)
  | tuple (elems : List Ty)
  | func (params : List Ty) (ret : Ty) (isExtern : Bool)
  | union (variants : List Ty)
  | ptr (inner : Ty)
  | array (elem : Ty) (len : Nat)
  | selfTy
  | param (d : DefId)
  | infer (v : Nat)
  | error

/-! ### Types are numbers -/

def IntTy.code : IntTy → Nat
  | .i8 => 0 | .i16 => 1 | .i32 => 2 | .i64 => 3 | .u8 => 4 | .u16 => 5 | .u32 => 6 | .u64 => 7
  | .isize => 8 | .usize => 9

mutual

/-- A number for each type. -/
def Ty.code : Ty → Nat
  | .int it => Nat.pair 0 it.code
  | .float ft => Nat.pair 1 (if ft = .f32 then 0 else 1)
  | .bool => Nat.pair 2 0
  | .char => Nat.pair 2 1
  | .str => Nat.pair 2 2
  | .null => Nat.pair 2 3
  | .dynamic => Nat.pair 2 4
  | .never => Nat.pair 2 5
  | .selfTy => Nat.pair 2 6
  | .error => Nat.pair 2 7
  | .named d args => Nat.pair 3 (Nat.pair d (codes args))
  | .tuple elems => Nat.pair 4 (codes elems)
  | .func params ret isExtern =>
    Nat.pair 5 (Nat.pair (codes params) (Nat.pair ret.code isExtern.toNat))
  | .union variants => Nat.pair 6 (codes variants)
  | .ptr inner => Nat.pair 7 inner.code
  | .array elem len => Nat.pair 8 (Nat.pair elem.code len)
  | .param d => Nat.pair 9 d
  | .infer v => Nat.pair 10 v

def Ty.codes : List Ty → Nat
  | [] => 0
  | t :: ts => Nat.pair t.code (codes ts) + 1

end

theorem IntTy.code_injective : Function.Injective IntTy.code := by
  intro a b h
  cases a <;> cases b <;> first | rfl | exact absurd h (by decide)

mutual

theorem Ty.code_inj (t u : Ty) (h : t.code = u.code) : t = u := by
  cases t <;> cases u <;> simp only [Ty.code, Nat.pair_eq_pair] at h <;> try omega
  case int.int a b => rw [IntTy.code_injective h.2]
  case float.float a b =>
    cases a <;> cases b <;> first | rfl | exact absurd h.2 (by decide)
  case bool.bool | char.char | str.str | null.null | dynamic.dynamic | never.never |
      selfTy.selfTy | error.error => rfl
  case named.named a as b bs => rw [h.2.1, codes_inj as bs h.2.2]
  case tuple.tuple as bs => rw [codes_inj as bs h.2]
  case func.func as a x bs b y =>
    have hx : x = y := by
      have := h.2.2.2
      cases x <;> cases y <;> first | rfl | exact absurd this (by decide)
    rw [codes_inj as bs h.2.1, code_inj a b h.2.2.1, hx]
  case union.union as bs => rw [codes_inj as bs h.2]
  case ptr.ptr a b => rw [code_inj a b h.2]
  case array.array a m b n => rw [code_inj a b h.2.1, h.2.2]
  case param.param => rw [h.2]
  case infer.infer => rw [h.2]

theorem Ty.codes_inj (ts us : List Ty) (h : Ty.codes ts = Ty.codes us) : ts = us := by
  cases ts with
  | nil =>
    cases us with
    | nil => rfl
    | cons u us =>
      simp only [Ty.codes] at h
      omega
  | cons t ts =>
    cases us with
    | nil =>
      simp only [Ty.codes] at h
      omega
    | cons u us =>
      simp only [Ty.codes, Nat.add_right_cancel_iff, Nat.pair_eq_pair] at h
      rw [code_inj t u h.1, codes_inj ts us h.2]

end

theorem Ty.code_injective : Function.Injective Ty.code := Ty.code_inj

instance : DecidableEq Ty := fun _ _ => decidable_of_iff _ Ty.code_injective.eq_iff

/-! ## The interner -/

/-- `TyCtxt`: the number that each type has. -/
structure TyCtxt where
  index : Ty → Nat
  injective : Function.Injective index

/-- An interner that numbers types by their codes. -/
def TyCtxt.standard : TyCtxt := ⟨Ty.code, Ty.code_injective⟩

mutual

/-- The variants that `mk_union` finds in a member: nested unions flatten, and `never` is
absorbed. -/
def Ty.flatten : Ty → List Ty
  | .union variants => flattenAll variants
  | .never => []
  | t => [t]

def Ty.flattenAll : List Ty → List Ty
  | [] => []
  | t :: ts => t.flatten ++ flattenAll ts

end

namespace TyCtxt

variable (cx : TyCtxt)

/-- The order in which the variants of a union are stored. -/
def Before (t u : Ty) : Prop := cx.index t ≤ cx.index u

instance : DecidableRel cx.Before :=
  fun t u => inferInstanceAs (Decidable (cx.index t ≤ cx.index u))

instance : Std.Total cx.Before := ⟨fun t u => Nat.le_total (cx.index t) (cx.index u)⟩

instance : IsTrans Ty cx.Before := ⟨fun _ _ _ h h' => Nat.le_trans h h'⟩

instance : Std.Antisymm cx.Before := ⟨fun _ _ h h' => cx.injective (Nat.le_antisymm h h')⟩

/-- Variants in the order of their numbers, each once. -/
def canonical (variants : List Ty) : List Ty := (variants.insertionSort cx.Before).dedup

/-- `mk_union`. -/
def mkUnion (members : List Ty) : Ty :=
  match cx.canonical (Ty.flattenAll members) with
  | [] => .never
  | [t] => t
  | variants => .union variants

/-- `mk_tuple`. -/
def mkTuple : List Ty → Ty
  | [] => .null
  | [t] => t
  | elems => .tuple elems

end TyCtxt

/-- `variants`. -/
def Ty.variants : Ty → List Ty
  | .union variants => variants
  | t => [t]

/-! ### Unions as sets -/

/-- A type that is a variant of its own. -/
def Ty.Atomic : Ty → Prop
  | .union _ | .never => False
  | _ => True

theorem Ty.Atomic.flatten_eq {t : Ty} (h : t.Atomic) : t.flatten = [t] := by
  cases t with
  | union | never => exact h.elim
  | _ => rfl

theorem Ty.Atomic.variants_eq {t : Ty} (h : t.Atomic) : t.variants = [t] := by
  cases t with
  | union => exact h.elim
  | _ => rfl

theorem Ty.mem_flattenAll {v : Ty} {ts : List Ty} :
    v ∈ flattenAll ts ↔ ∃ t ∈ ts, v ∈ t.flatten := by
  induction ts with
  | nil => simp [flattenAll]
  | cons t ts ih => simp [flattenAll, ih]

mutual

theorem Ty.flatten_atomic {t v : Ty} (h : v ∈ t.flatten) : v.Atomic := by
  cases t with
  | union variants => exact flattenAll_atomic h
  | never => cases h
  | _ =>
    rw [List.mem_singleton.mp h]
    trivial

theorem Ty.flattenAll_atomic {ts : List Ty} {v : Ty} (h : v ∈ flattenAll ts) : v.Atomic := by
  cases ts with
  | nil => cases h
  | cons t ts =>
    rcases List.mem_append.mp h with h | h
    · exact flatten_atomic h
    · exact flattenAll_atomic h

end

theorem Ty.flattenAll_of_atomic {ts : List Ty} (h : ∀ t ∈ ts, t.Atomic) :
    flattenAll ts = ts := by
  induction ts with
  | nil => rfl
  | cons t ts ih =>
    rw [flattenAll, (h t List.mem_cons_self).flatten_eq, ih fun u hu =>
      h u (List.mem_cons_of_mem _ hu)]
    rfl

namespace TyCtxt

variable (cx : TyCtxt)

theorem mem_canonical {v : Ty} {ts : List Ty} : v ∈ cx.canonical ts ↔ v ∈ ts := by
  unfold canonical
  rw [List.mem_dedup, List.mem_insertionSort]

/-- The stored variants depend on the set only. -/
theorem canonical_congr {ts us : List Ty} (h : ∀ v, v ∈ ts ↔ v ∈ us) :
    cx.canonical ts = cx.canonical us := by
  have hsorted : ∀ xs, (cx.canonical xs).Pairwise cx.Before := fun xs =>
    (List.pairwise_insertionSort cx.Before xs).sublist (List.dedup_sublist _)
  have hperm : (cx.canonical ts).Perm (cx.canonical us) :=
    (List.perm_ext_iff_of_nodup (List.nodup_dedup _) (List.nodup_dedup _)).mpr fun v =>
      (cx.mem_canonical.trans (h v)).trans cx.mem_canonical.symm
  exact List.Perm.eq_of_pairwise (fun _ _ _ _ => antisymm) (hsorted ts) (hsorted us) hperm

theorem mkUnion_congr {ts us : List Ty}
    (h : ∀ v, v ∈ Ty.flattenAll ts ↔ v ∈ Ty.flattenAll us) : cx.mkUnion ts = cx.mkUnion us := by
  unfold mkUnion
  rw [cx.canonical_congr h]

/-- A union has the variants of its members. -/
theorem mem_flatten_mkUnion {v : Ty} {ts : List Ty} :
    v ∈ (cx.mkUnion ts).flatten ↔ ∃ t ∈ ts, v ∈ t.flatten := by
  have hmem : v ∈ cx.canonical (Ty.flattenAll ts) ↔ ∃ t ∈ ts, v ∈ t.flatten :=
    cx.mem_canonical.trans Ty.mem_flattenAll
  refine Iff.trans ?_ hmem
  have hatomic : ∀ u ∈ cx.canonical (Ty.flattenAll ts), u.Atomic := fun u hu =>
    Ty.flattenAll_atomic (cx.mem_canonical.mp hu)
  unfold mkUnion
  split
  · rename_i h
    rw [h]
    rfl
  · rename_i t h
    rw [h] at hatomic ⊢
    rw [(hatomic t List.mem_cons_self).flatten_eq]
  · rw [Ty.flatten, Ty.flattenAll_of_atomic hatomic]

/-- A type as the interner stores it: a union has its variants in order. -/
def Canonical (t : Ty) : Prop := cx.mkUnion [t] = t

theorem mkUnion_canonical (ts : List Ty) : cx.Canonical (cx.mkUnion ts) := by
  apply cx.mkUnion_congr
  intro v
  have hmembers : v ∈ Ty.flattenAll ts ↔ v ∈ (cx.mkUnion ts).flatten :=
    Ty.mem_flattenAll.trans cx.mem_flatten_mkUnion.symm
  rw [hmembers]
  simp [Ty.flattenAll]

variable {cx}

theorem Canonical.atomic {t : Ty} (h : t.Atomic) : cx.Canonical t := by
  unfold Canonical mkUnion
  rw [Ty.flattenAll_of_atomic fun u hu => by rwa [List.mem_singleton.mp hu]]
  rfl

theorem Canonical.never : cx.Canonical .never := rfl

/-- Types with the same variants are the same. -/
theorem Canonical.ext {t u : Ty} (ht : cx.Canonical t) (hu : cx.Canonical u)
    (h : ∀ v, v ∈ t.flatten ↔ v ∈ u.flatten) : t = u := by
  rw [← ht, ← hu]
  apply cx.mkUnion_congr
  intro v
  simpa [Ty.flattenAll] using h v

/-- A type without variants is `never`. -/
theorem Canonical.eq_never {t : Ty} (h : cx.Canonical t) (hnone : ∀ v, v ∉ t.flatten) :
    t = .never :=
  h.ext .never fun v => ⟨fun hv => absurd hv (hnone v), fun hv => by cases hv⟩

theorem Canonical.mem_variants {t v : Ty} (h : cx.Canonical t) (hne : t ≠ .never) :
    v ∈ t.variants ↔ v ∈ t.flatten := by
  have hatomic : ∀ u ∈ cx.canonical (Ty.flattenAll [t]), u.Atomic := fun u hu =>
    Ty.flattenAll_atomic (cx.mem_canonical.mp hu)
  unfold Canonical mkUnion at h
  rw [← h] at hne ⊢
  split at hne
  · exact absurd rfl hne
  · rename_i u heq
    rw [heq] at hatomic
    have hu := hatomic u List.mem_cons_self
    rw [hu.variants_eq, hu.flatten_eq]
  · rename_i heq
    rw [Ty.variants, Ty.flatten, Ty.flattenAll_of_atomic hatomic]

/-! ### Interned types -/

variable (cx)

mutual

/-- A type that the interner built: its unions are normal and its tuples have two elements. -/
def Interned : Ty → Prop
  | .named _ args => InternedAll args
  | .tuple elems => 2 ≤ elems.length ∧ InternedAll elems
  | .func params ret _ => InternedAll params ∧ Interned ret
  | .union variants => cx.mkUnion variants = .union variants ∧ InternedAll variants
  | .ptr inner => Interned inner
  | .array elem _ => Interned elem
  | _ => True

def InternedAll : List Ty → Prop
  | [] => True
  | t :: ts => Interned t ∧ InternedAll ts

end

theorem internedAll_iff {ts : List Ty} : cx.InternedAll ts ↔ ∀ t ∈ ts, cx.Interned t := by
  induction ts with
  | nil => simp [InternedAll]
  | cons t ts ih => simp [InternedAll, ih]

mutual

theorem Interned.flatten {t v : Ty} (h : cx.Interned t) (hv : v ∈ t.flatten) : cx.Interned v := by
  cases t with
  | union variants => exact InternedAll.flattenAll h.2 hv
  | never => cases hv
  | _ =>
    rw [List.mem_singleton.mp hv]
    exact h

theorem InternedAll.flattenAll {ts : List Ty} {v : Ty} (h : cx.InternedAll ts)
    (hv : v ∈ Ty.flattenAll ts) : cx.Interned v := by
  cases ts with
  | nil => cases hv
  | cons t ts =>
    rcases List.mem_append.mp hv with hv | hv
    · exact Interned.flatten h.1 hv
    · exact InternedAll.flattenAll h.2 hv

end

theorem interned_mkUnion {ts : List Ty} (h : cx.InternedAll ts) : cx.Interned (cx.mkUnion ts) := by
  have hall : ∀ v ∈ cx.canonical (Ty.flattenAll ts), cx.Interned v := fun v hv =>
    InternedAll.flattenAll cx h (cx.mem_canonical.mp hv)
  have hatomic : ∀ v ∈ cx.canonical (Ty.flattenAll ts), v.Atomic := fun v hv =>
    Ty.flattenAll_atomic (cx.mem_canonical.mp hv)
  have hagain : cx.mkUnion (cx.canonical (Ty.flattenAll ts)) = cx.mkUnion ts := by
    apply cx.mkUnion_congr
    intro v
    rw [Ty.flattenAll_of_atomic hatomic]
    exact cx.mem_canonical
  unfold mkUnion
  split
  · trivial
  · rename_i t heq
    exact hall t (by rw [heq]; exact List.mem_cons_self)
  · rename_i hne hne'
    refine ⟨hagain.trans ?_, cx.internedAll_iff.mpr hall⟩
    unfold mkUnion
    split
    · rename_i heq
      exact absurd heq hne
    · rename_i t heq
      exact absurd heq (hne' t)
    · rfl

theorem interned_mkTuple {ts : List Ty} (h : cx.InternedAll ts) : cx.Interned (mkTuple ts) := by
  match ts with
  | [] => trivial
  | [t] => exact h.1
  | t :: u :: ts => exact ⟨by simp, h⟩

end TyCtxt

end compiler.sema
