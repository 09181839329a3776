-- Boxes of unions (`gen_expr.rs`, `gen_hir.rs`) and the tests on them (`gen_cast.rs`). A test
-- compares the id in a box with the ids of the target's variants, so it answers for whole groups
-- of types.
import OtterFusion.Backend.TypeIds

open compiler.sema

namespace backend

/-! ## Values -/

/-- A value: none of `null`, a word, the box of a union or of `dynamic`, or an interface object. -/
inductive Value
  | absent
  | word (w : Nat)
  | box (id : Int) (payload : Value)
  | object (id : Int) (data : Value)
  deriving DecidableEq

/-- The word of a raw pointer. The null pointer is the word 0. -/
def Value.orZero : Value → Value
  | .absent => .word 0
  | v => v

/-- The types whose values are boxes. -/
def isBoxed : Ty → Bool
  | .union _ | .dynamic => true
  | _ => false

def isPtr : Ty → Bool
  | .ptr _ => true
  | _ => false

/-- `npo_union`: a union of a raw pointer and `null` is a raw pointer. -/
def npoUnion : Ty → Option Ty
  | .union members =>
    if members.length = 2 ∧ .null ∈ members then members.find? isPtr else none
  | _ => none

/-- `apply_widen`, with `box_value`. -/
def applyWiden (subst : Subst) (v : Value) (source : Ty) : Value :=
  if isBoxed source then v else .box (typeIdOf subst source) v

/-- `h_adjust`, of `Adjust::Widen`. -/
def widen (subst : Subst) (target : Ty) (v : Value) (source : Ty) : Value :=
  if (npoUnion (resolveShallow subst target)).isSome then v.orZero else applyWiden subst v source

/-! ## Tests -/

/-- `tag_in_target`. -/
def tagInTarget (subst : Subst) (id : Int) (target : Ty) : Bool :=
  target.variants.any fun v => typeIdOf subst v = id

/-- The id in a box. A value that is no box has none. -/
def Value.boxId : Value → Option Int
  | .box id _ => some id
  | _ => none

/-- The id in an interface object. -/
def Value.objectId : Value → Option Int
  | .object id _ => some id
  | _ => none

/-- `is_interface_ty`. -/
def isInterfaceTy (isInterface : DefId → Bool) (subst : Subst) (t : Ty) : Bool :=
  match resolveShallow subst t with
  | .named d _ => isInterface d
  | _ => false

/-- `emit_is`. -/
def emitIs (isInterface : DefId → Bool) (subst : Subst) (v : Value) (source target : Ty) :
    Option Bool :=
  if (npoUnion source).isSome then
    if target = .null then some (v.orZero = .word 0) else some (v.orZero ≠ .word 0)
  else if isBoxed source then v.boxId.map fun id => tagInTarget subst id target
  else if isInterfaceTy isInterface subst source then
    v.objectId.map fun id => id = typeIdOf subst target
  else some (source ∈ target.variants)

/-- What a cast does. Where there is no box to read, it reads what it must not. -/
inductive Cast
  | value (v : Value)
  | panic
  | noBox
  deriving DecidableEq

/-- `gen_union_narrow`. -/
def genUnionNarrow (subst : Subst) (v : Value) (target : Ty) : Cast :=
  match v with
  | .box id payload =>
    if tagInTarget subst id target then .value (if isBoxed target then v else payload) else .panic
  | _ => .noBox

/-- `emit_cast`, of a union: a cast from or to a raw pointer with `null` does nothing. -/
def emitCast (subst : Subst) (v : Value) (source target : Ty) : Cast :=
  if (npoUnion source).isSome ∨ (npoUnion target).isSome then .value v.orZero
  else genUnionNarrow subst v target

/-- `h_match` over a union, with a pattern that tests for a type. -/
def matchTest (subst : Subst) (v : Value) (target : Ty) : Option Bool :=
  v.boxId.map fun id => tagInTarget subst id target

theorem tagInTarget_iff {cx : TyCtxt} {subst : Subst} {target t : Ty} (ht : cx.Interned target) :
    tagInTarget subst (typeId t) target = true ↔
      ∃ v ∈ target.variants, Alike (substTy cx subst v) t := by
  simp only [tagInTarget, List.any_eq_true, decide_eq_true_eq]
  constructor
  · rintro ⟨v, hv, hid⟩
    rw [typeIdOf_eq subst ht hv] at hid
    exact ⟨v, hv, typeId_eq_iff.mp hid⟩
  · rintro ⟨v, hv, halike⟩
    refine ⟨v, hv, ?_⟩
    rw [typeIdOf_eq subst ht hv]
    exact typeId_eq_iff.mpr halike

/-! ## Values of a union -/

/-- A value of a type, which holds a value of the type `inner`. -/
def held (t inner : Ty) (w : Nat) : Value :=
  if t = .null then .absent
  else if isBoxed t then
    if (npoUnion t).isSome then .word w else .box (typeId inner) (.word w)
  else .word w

/-- A value built from a variant of a union. -/
structure Built (cx : TyCtxt) (subst : Subst) (members : List Ty) where
  variant : Ty
  mem : variant ∈ members
  inner : Ty
  holds : substTy cx subst variant = .dynamic ∨ inner ∈ (substTy cx subst variant).variants
  word : Nat

namespace Built

variable {cx : TyCtxt} {subst : Subst} {members : List Ty} (b : Built cx subst members)

/-- The value, of the type of the union. -/
def value : Value :=
  widen subst (.union members) (held (substTy cx subst b.variant) b.inner b.word) b.variant

/-- The variant that it has. Where a parameter stands for a union, it is one of that union. -/
def variantTy : Ty := if substTy cx subst b.variant = .dynamic then .dynamic else b.inner

/-- The type whose id the box has: what is `dynamic` keeps its own box. -/
def taggedTy : Ty := if b.variant = .dynamic then b.inner else substTy cx subst b.variant

/-- The address of a raw pointer with `null`. -/
def address : Nat := if b.variant = .null then 0 else b.word

/-- Whether a target contains the variant. -/
def In (target : Ty) : Prop := b.variantTy ∈ (substTy cx subst target).variants

instance (target : Ty) : Decidable (b.In target) :=
  inferInstanceAs (Decidable (b.variantTy ∈ (substTy cx subst target).variants))

/-! ### What the claims about a test are -/

def IsRight (isInterface : DefId → Bool) (target : Ty) : Prop :=
  emitIs isInterface subst b.value (.union members) target = some (decide (b.In target))

def AsRight (target : Ty) : Prop :=
  (∃ v, emitCast subst b.value (.union members) target = .value v) ↔ b.In target

def MatchRight (target : Ty) : Prop :=
  matchTest subst b.value target = some (decide (b.In target))

/-! ### When a test is right -/

/-- The target lists a type that is alike the one in the box exactly if it contains the variant. -/
def Told (target : Ty) : Prop :=
  (∃ v ∈ target.variants, Alike (substTy cx subst v) b.taggedTy) ↔ b.In target

def IsTold (target : Ty) : Prop :=
  if (npoUnion (.union members)).isSome then (target = .null ↔ b.address = 0) ↔ b.In target
  else b.Told target

def AsTold (target : Ty) : Prop :=
  if (npoUnion (.union members)).isSome ∨ (npoUnion target).isSome then b.In target
  else b.Told target

def MatchTold (target : Ty) : Prop :=
  npoUnion (.union members) = none ∧ b.Told target

end Built

/-! ### Boxes -/

section

variable {cx : TyCtxt} {subst : Subst} {members : List Ty} (b : Built cx subst members)

theorem substTy_dynamic : substTy cx subst .dynamic = .dynamic := by
  unfold substTy
  split <;> rfl

/-- The box has the id of the tagged type. -/
theorem value_boxed (h : cx.Interned (.union members)) (hnpo : npoUnion (.union members) = none) :
    ∃ payload, b.value = .box (typeId b.taggedTy) payload := by
  have hres : resolveShallow subst (.union members) = .union members := rfl
  unfold Built.value widen applyWiden Built.taggedTy
  rw [hres, hnpo]
  by_cases hdyn : b.variant = .dynamic
  · rw [hdyn, substTy_dynamic]
    exact ⟨.word b.word, rfl⟩
  · have hbox : isBoxed b.variant = false := by
      have hunion := not_union_of_variants h b.mem
      cases hv : b.variant with
      | union variants => exact absurd hv (hunion variants)
      | dynamic => exact absurd hv hdyn
      | _ => rfl
    rw [hbox, if_neg hdyn, typeIdOf_eq subst h b.mem]
    exact ⟨_, rfl⟩

/-- A raw pointer with `null` is its address. -/
theorem value_raw (hnpo : (npoUnion (.union members)).isSome) :
    b.value = .word b.address := by
  have hres : resolveShallow subst (.union members) = .union members := rfl
  have hsplit : b.variant = .null ∨ ∃ t, b.variant = .ptr t := by
    unfold npoUnion at hnpo
    simp only at hnpo
    split at hnpo
    · rename_i hboth
      rcases hboth with ⟨hlen, hnull⟩
      obtain ⟨p, hp⟩ := Option.isSome_iff_exists.mp hnpo
      have hpmem := List.mem_of_find?_eq_some hp
      have hptr : isPtr p = true := List.find?_some hp
      obtain ⟨t, rfl⟩ : ∃ t, p = .ptr t := by
        cases p with
        | ptr t => exact ⟨t, rfl⟩
        | _ => cases hptr
      have hmem := b.mem
      match members, hlen with
      | [x, y], _ =>
        simp only [List.mem_cons, List.not_mem_nil, or_false] at hnull hpmem hmem
        grind
    · cases hnpo
  unfold Built.value widen Built.address
  rw [hres, if_pos hnpo]
  rcases hsplit with hnull | ⟨t, hptr⟩
  · have hsubst : substTy cx subst .null = .null := by
      unfold substTy
      split <;> rfl
    rw [hnull, hsubst]
    rfl
  · obtain ⟨t', ht'⟩ : ∃ t', substTy cx subst (.ptr t) = .ptr t' := by
      unfold substTy
      split
      · exact ⟨t, rfl⟩
      · exact ⟨_, rfl⟩
    rw [hptr, ht']
    simp [held, isBoxed, Value.orZero]

theorem tag_told {target : Ty} (ht : cx.Interned target) :
    tagInTarget subst (typeId b.taggedTy) target = decide (b.In target) ↔ b.Told target := by
  rw [Bool.eq_iff_iff, tagInTarget_iff ht, decide_eq_true_eq]
  rfl

theorem isRight_iff (h : cx.Interned (.union members)) {isInterface : DefId → Bool} {target : Ty}
    (ht : cx.Interned target) : b.IsRight isInterface target ↔ b.IsTold target := by
  unfold Built.IsRight Built.IsTold emitIs
  by_cases hnpo : (npoUnion (.union members)).isSome
  · rw [if_pos hnpo, if_pos hnpo, value_raw b hnpo]
    simp only [Value.orZero, Value.word.injEq]
    split
    · rename_i hnull
      simp [hnull]
    · rename_i hnull
      by_cases hin : b.In target <;> simp [hnull, hin]
  · rw [if_neg hnpo, if_neg hnpo]
    obtain ⟨payload, hvalue⟩ := value_boxed b h (Option.not_isSome_iff_eq_none.mp hnpo)
    have hbox : isBoxed (.union members) = true := rfl
    rw [hvalue, if_pos hbox, Value.boxId, Option.map_some, Option.some.injEq]
    exact tag_told b ht

theorem asRight_iff (h : cx.Interned (.union members)) {target : Ty} (ht : cx.Interned target) :
    b.AsRight target ↔ b.AsTold target := by
  unfold Built.AsRight Built.AsTold emitCast
  by_cases hnpo : (npoUnion (.union members)).isSome ∨ (npoUnion target).isSome
  · rw [if_pos hnpo, if_pos hnpo]
    exact iff_true_left ⟨_, rfl⟩
  · rw [if_neg hnpo, if_neg hnpo]
    have hsource : npoUnion (.union members) = none :=
      Option.not_isSome_iff_eq_none.mp fun hsome => hnpo (.inl hsome)
    obtain ⟨payload, hvalue⟩ := value_boxed b h hsource
    have hcast : (∃ v, genUnionNarrow subst b.value target = .value v) ↔
        tagInTarget subst (typeId b.taggedTy) target = true := by
      rw [hvalue, genUnionNarrow]
      split <;> simp_all
    rw [hcast, ← tag_told b ht]
    by_cases hin : b.In target <;> simp [hin]

theorem matchRight_iff (h : cx.Interned (.union members)) {target : Ty}
    (ht : cx.Interned target) : b.MatchRight target ↔ b.MatchTold target := by
  unfold Built.MatchRight Built.MatchTold matchTest
  by_cases hnpo : (npoUnion (.union members)).isSome
  · rw [value_raw b hnpo]
    constructor
    · intro hright
      cases hright
    · rintro ⟨hnone, _⟩
      rw [hnone] at hnpo
      cases hnpo
  · have hnone := Option.not_isSome_iff_eq_none.mp hnpo
    obtain ⟨payload, hvalue⟩ := value_boxed b h hnone
    rw [hvalue, Value.boxId, Option.map_some, Option.some.injEq, tag_told b ht]
    exact (and_iff_right hnone).symm

end

/-! ## What ids tell apart -/

/-- Ids, tests and symbols tell types apart exactly where these differ in more than an id drops:
two variants have ids of their own unless they are alike, a test of a value is right unless its
target takes or misses a type that is alike the boxed one, and two instances have symbols of their
own unless their arguments are alike. A raw pointer with `null` has no id: a cast always passes,
and a `match` finds no box. -/
theorem typeIds_separate (cx : TyCtxt) (subst : Subst) (members : List Ty)
    (h : cx.Interned (.union members)) :
    (∀ v ∈ members, ∀ w ∈ members,
      (substTy cx subst v ≠ substTy cx subst w → typeIdOf subst v ≠ typeIdOf subst w) ↔
        (Alike (substTy cx subst v) (substTy cx subst w) →
          substTy cx subst v = substTy cx subst w)) ∧
    (∀ (b : Built cx subst members) (isInterface : DefId → Bool) (target : Ty),
      cx.Interned target →
        (b.IsRight isInterface target ↔ b.IsTold target) ∧
        (b.AsRight target ↔ b.AsTold target) ∧
        (b.MatchRight target ↔ b.MatchTold target)) ∧
    ∀ (name : String) (d : DefId) (args args' : List Ty),
      (args ≠ args' → mangle name d args ≠ mangle name d args') ↔
        (List.Forall₂ Alike args args' → args = args') := by
  refine ⟨?_, ?_, ?_⟩
  · intro v hv w hw
    rw [typeIdOf_eq subst h hv, typeIdOf_eq subst h hw, ne_eq, ne_eq, typeId_eq_iff, not_imp_not]
  · intro b isInterface target ht
    exact ⟨isRight_iff b h ht, asRight_iff b h ht, matchRight_iff b h ht⟩
  · intro name d args args'
    rw [ne_eq, ne_eq, mangle_eq_iff, not_imp_not]

/-- The variants `List<int>` and `List<str>`. -/
def ints : Ty := .named 0 [.int .i64]

def strs : Ty := .named 0 [.str]

theorem interned_lists : TyCtxt.standard.Interned (.union [strs, ints]) := by
  refine ⟨?_, ⟨trivial, trivial⟩, ⟨trivial, trivial⟩, trivial⟩
  decide

/-- A `List<int>` of `List<int> | List<str>`. -/
def anInts : Built TyCtxt.standard [] [strs, ints] where
  variant := ints
  mem := List.mem_cons_of_mem _ List.mem_cons_self
  inner := ints
  holds := .inr (List.mem_singleton_self ints)
  word := 8

theorem typeIds_separate_lists :
    TyCtxt.standard.Interned (.union [strs, ints]) ∧
      ((ints ≠ strs → typeIdOf [] ints ≠ typeIdOf [] strs) ↔ (Alike ints strs → ints = strs)) :=
  ⟨interned_lists, (typeIds_separate TyCtxt.standard [] [strs, ints] interned_lists).1
    ints (List.mem_cons_of_mem _ List.mem_cons_self) strs List.mem_cons_self⟩

/-- `List<int>` and `List<str>` have one id: a `List<int>` of the union is taken for a `List<str>`
by every test, and instances of one function at these types share a symbol. -/
theorem lists_collide :
    TyCtxt.standard.Interned (.union [strs, ints]) ∧ ints ≠ strs ∧
      typeIdOf [] ints = typeIdOf [] strs ∧
      ¬anInts.In strs ∧
      emitIs (fun _ => false) [] anInts.value (.union [strs, ints]) strs = some true ∧
      emitCast [] anInts.value (.union [strs, ints]) strs = .value (.word 8) ∧
      matchTest [] anInts.value strs = some true ∧
      mangle "first" 7 [ints] = mangle "first" 7 [strs] := by
  refine ⟨interned_lists, ?_, rfl, ?_, ?_, ?_, ?_, rfl⟩ <;> decide +kernel

end backend
