-- The table of types (`ty.rs`): a type is a number, and what it is stands in the table under it.
-- Callers build unions by `mk_union` only.
import Mathlib.Algebra.Order.Ring.Nat
import OtterFusion.Base.HashCons
import OtterFusion.Compiler.Types

open base.hashCons
open compiler.sema (DefId IntTy FloatTy)

namespace compiler.ty

/-- `Ty`: the place of a type in the table, which a `u32` holds below 2^32 kinds (`intern_cast`). -/
abbrev Ty := Nat

/-- `TyKind`. -/
inductive TyKind
  | int (it : IntTy)
  | float (ft : FloatTy)
  | bool | char | str | null | dynamic | never
  | named (d : DefId) (args : List Ty)
  | tuple (elems : List Ty)
  | func (params : List Ty) (ret : Ty) (isExtern : Bool)
  | union (members : List Ty)
  | ptr (inner : Ty)
  | array (elem : Ty) (len : Nat)
  | selfTy
  | param (d : DefId)
  | infer (v : Nat)
  | error
  deriving DecidableEq

/-- `TyCtxt`: the kinds with the map of interned ones, and the cached primitives. -/
structure TyCtxt where
  table : Table TyKind
  bool : Ty
  char : Ty
  str : Ty
  null : Ty
  dynamic : Ty
  never : Ty
  error : Ty
  ints : List Ty
  floats : List Ty

namespace TyCtxt

/-- `new`. -/
def new : TyCtxt :=
  let bool := Table.empty.intern TyKind.bool
  let char := bool.1.intern .char
  let str := char.1.intern .str
  let null := str.1.intern .null
  let dynamic := null.1.intern .dynamic
  let never := dynamic.1.intern .never
  let error := never.1.intern .error
  let ints := error.1.internAll
    ([.i8, .i16, .i32, .i64, .u8, .u16, .u32, .u64, .isize, .usize].map .int)
  let floats := ints.1.internAll [.float .f32, .float .f64]
  { table := floats.1
    bool := bool.2
    char := char.2
    str := str.2
    null := null.2
    dynamic := dynamic.2
    never := never.2
    error := error.2
    ints := ints.2
    floats := floats.2 }

variable (cx : TyCtxt)

/-- `intern`. -/
def intern (kind : TyKind) : TyCtxt × Ty :=
  let r := cx.table.intern kind
  ({ cx with table := r.1 }, r.2)

/-- The cast to a `u32` changes no type as long as the table has fewer than 2^32 kinds. -/
theorem intern_cast (kind : TyKind) (h : cx.table.Agrees) (hroom : cx.table.keys.length < 2 ^ 32) :
    (cx.intern kind).2 % 2 ^ 32 = (cx.intern kind).2 := by
  apply Nat.mod_eq_of_lt
  rcases h.intern_cases kind with ⟨n, hn, heq⟩ | ⟨-, -, hnumber⟩
  · rw [intern, heq]
    exact Nat.lt_trans (List.getElem?_eq_some_iff.mp hn).1 hroom
  · rw [intern, hnumber]
    exact hroom

/-- `kind`, which panics where there is no such type. -/
def kind (t : Ty) : Option TyKind := cx.table.keys[t]?

def mkNamed (d : DefId) (args : List Ty) : TyCtxt × Ty := cx.intern (.named d args)

def mkPtr (inner : Ty) : TyCtxt × Ty := cx.intern (.ptr inner)

def mkParam (d : DefId) : TyCtxt × Ty := cx.intern (.param d)

def mkTuple : List Ty → TyCtxt × Ty
  | [] => (cx, cx.null)
  | [t] => (cx, t)
  | elems => cx.intern (.tuple elems)

def mkFunc (params : List Ty) (ret : Ty) (isExtern : Bool) : TyCtxt × Ty :=
  cx.intern (.func params ret isExtern)

/-- The loop of `mk_union`, with its turns: the stack with its top in front, and the variants so
far. There is no result after a panic, nor when there are not enough turns. -/
def flatten : Nat → List Ty → List Ty → Option (List Ty)
  | _, [], flat => some flat
  | 0, _ :: _, _ => none
  | n + 1, m :: stack, flat =>
    match cx.kind m with
    | none => none
    | some (.union inner) => flatten n (inner.reverse ++ stack) flat
    | some .never => flatten n stack flat
    | some _ => flatten n stack (flat ++ [m])

/-- `mk_union`, with the turns of its loop. -/
def mkUnion (turns : Nat) (members : List Ty) : Option (TyCtxt × Ty) :=
  (cx.flatten turns members.reverse []).map fun flat =>
    match sorted flat with
    | [] => (cx, cx.never)
    | [t] => (cx, t)
    | variants => cx.intern (.union variants)

/-- `is_never`. -/
def isNever (t : Ty) : Option Bool := (cx.kind t).map fun kind => kind = .never

/-- `variants`. -/
def variants (t : Ty) : Option (List Ty) :=
  (cx.kind t).map fun
    | .union members => members
    | _ => [t]

/-- `all` over the variants in `is_union_subtype`. -/
def allIn (supVs : List Ty) : List Ty → Option Bool
  | [] => some true
  | v :: vs => do
    if (← cx.isNever v) || supVs.contains v then allIn supVs vs else return false

/-- `is_union_subtype`. -/
def isUnionSubtype (sub sup : Ty) : Option Bool := do
  if sub = sup then return true
  if ← cx.isNever sub then return true
  let supVs ← cx.variants sup
  cx.allIn supVs (← cx.variants sub)

/-! ## Runs -/

/-- A type of the table. -/
def Valid (t : Ty) : Prop := t < cx.table.keys.length

/-- A call that builds a type. -/
inductive Call
  | intern (kind : TyKind)
  | named (d : DefId) (args : List Ty)
  | ptr (inner : Ty)
  | param (d : DefId)
  | tuple (elems : List Ty)
  | func (params : List Ty) (ret : Ty) (isExtern : Bool)
  | union (turns : Nat) (members : List Ty)

def Call.run : Call → Option (TyCtxt × Ty)
  | intern kind => some (cx.intern kind)
  | named d args => some (cx.mkNamed d args)
  | ptr inner => some (cx.mkPtr inner)
  | param d => some (cx.mkParam d)
  | tuple elems => some (cx.mkTuple elems)
  | func params ret isExtern => some (cx.mkFunc params ret isExtern)
  | union turns members => cx.mkUnion turns members

/-- What callers keep to: the members of a union are types of the table, and a union is interned by
`mk_union` only. -/
def Call.Allowed : Call → Prop
  | intern kind => ∀ members, kind ≠ .union members
  | union _ members => ∀ m ∈ members, cx.Valid m
  | _ => True

/-- A call has been made. -/
def Step (cx cx' : TyCtxt) : Prop := ∃ c : Call, c.Allowed cx ∧ ∃ t, c.run cx = some (cx', t)

/-- Calls have been made since. -/
abbrev Later : TyCtxt → TyCtxt → Prop := Relation.ReflTransGen Step

/-! ## What unions are for -/

/-- `a` widens to `b`. -/
def Widens (a b : Ty) : Prop := cx.isUnionSubtype a b = some true

/-- `mk_union` returns when it is given enough turns. -/
def Unites (members : List Ty) (cx' : TyCtxt) (t : Ty) : Prop :=
  ∃ n, ∀ turns, n ≤ turns → cx.mkUnion turns members = some (cx', t)

/-- Families are united one after the other. -/
inductive UniteEach : TyCtxt → List (List Ty) → TyCtxt → List Ty → Prop
  | nil (cx : TyCtxt) : UniteEach cx [] cx []
  | cons {cx cx' cx'' : TyCtxt} {members : List Ty} {families : List (List Ty)} {t : Ty}
      {ts : List Ty} :
    cx.Unites members cx' t → UniteEach cx' families cx'' ts →
      UniteEach cx (members :: families) cx'' (t :: ts)

/-- A member of a union: neither a union nor `never`. -/
def Atomic (t : Ty) : Prop := ∃ kind, cx.kind t = some kind ∧ kind ≠ .never ∧
    ∀ members, kind ≠ .union members

/-- The types of a table with `mk_union` are a join-semilattice, and widening is its order. -/
structure JoinSemilattice : Prop where
  normal : ∀ t members, cx.kind t = some (.union members) →
    2 ≤ members.length ∧ members.Pairwise (· < ·) ∧ ∀ m ∈ members, cx.Atomic m
  returns : ∀ members, (∀ m ∈ members, cx.Valid m) → ∃ cx' t, cx.Unites members cx' t ∧ cx'.Valid t
  decides : ∀ a b, cx.Valid a → cx.Valid b → (cx.isUnionSubtype a b).isSome
  refl : ∀ a, cx.Valid a → cx.Widens a a
  trans : ∀ a b c, cx.Valid a → cx.Valid b → cx.Valid c → cx.Widens a b → cx.Widens b c →
    cx.Widens a c
  antisymm : ∀ a b, cx.Valid a → cx.Valid b → cx.Widens a b → cx.Widens b a → a = b
  commutative : ∀ members members' cx' t, (∀ m ∈ members, cx.Valid m) → members.Perm members' →
    cx.Unites members cx' t → cx.Unites members' cx' t
  idempotent : ∀ members cx' t, (∀ m ∈ members, cx.Valid m) →
    cx.Unites members cx' t → cx.Unites (members ++ members) cx' t
  /-- A single survivor is the union. -/
  single : ∀ t, cx.Valid t → cx.Unites [t] cx t
  never : ∀ members cx' t, (∀ m ∈ members, cx.Valid m) →
    cx.Unites members cx' t → cx.Unites (cx.never :: members) cx' t
  /-- The union of unions is the union of all their members, now and whenever it is built. -/
  associative : ∀ families cx' ts cx'' t, (∀ members ∈ families, ∀ m ∈ members, cx.Valid m) →
    UniteEach cx families cx' ts → cx'.Unites ts cx'' t →
      ∀ later, Later cx'' later → later.Unites families.flatten later t
  upper : ∀ members cx' t, (∀ m ∈ members, cx.Valid m) → cx.Unites members cx' t →
    ∀ m ∈ members, cx'.Widens m t
  least : ∀ members cx' t, (∀ m ∈ members, cx.Valid m) → cx.Unites members cx' t →
    ∀ later u, Later cx' later → later.Valid u → (∀ m ∈ members, later.Widens m u) →
      later.Widens t u

end TyCtxt

end compiler.ty
