-- How the values of a type are represented (`support.rs`): the machine type of a value, and which
-- values the collector has to know.
import OtterFusion.Backend.UnionTests
import OtterFusion.Compiler.Symbols

open compiler.sema

namespace backend

/-- `ClType`, as far as values have one. A pointer is an `i64`. -/
inductive ClType
  | i8 | i16 | i32 | i64 | f32 | f64
  deriving DecidableEq, Repr

/-- `PTR`. -/
def ptrType : ClType := .i64

/-- `int_clty`. -/
def intClty : IntTy → ClType
  | .i8 | .u8 => .i8
  | .i16 | .u16 => .i16
  | .i32 | .u32 => .i32
  | .i64 | .u64 | .isize | .usize => .i64

/-- `float_clty`. -/
def floatClty : FloatTy → ClType
  | .f32 => .f32
  | .f64 => .f64

/-- What the representation asks of a definition: its kind, the names of its attributes, its
parameters, and the types of its fields, of a tuple or of a record. -/
structure TypeDef where
  kind : DefKind
  attrs : List String := []
  generics : List DefId := []
  fields : Option (List Ty) := none

/-- The definitions of a program. The checker lets `@RefCounted` stand on a struct only, and not
with `@Transparent`; the two ends of a channel are such structs too. -/
structure TypeDefs where
  count : Nat
  get : DefId → TypeDef
  listDef : DefId
  mapDef : DefId
  senderDef : DefId
  receiverDef : DefId
  refCounted_struct : ∀ d, "RefCounted" ∈ (get d).attrs →
    (get d).kind = .struct ∧ "Transparent" ∉ (get d).attrs
  endpoint_struct : ∀ d, d ≠ 0 → d = senderDef ∨ d = receiverDef →
    (get d).kind = .struct ∧ "Transparent" ∉ (get d).attrs

namespace TypeDefs

variable (defs : TypeDefs)

/-- `transparent_inner`: the type of the one field of a `@Transparent` struct. -/
def transparentInner : Ty → Option Ty
  | .named d args =>
    let data := defs.get d
    if (data.kind = .struct ∨ data.kind = .externStruct) ∧ "Transparent" ∈ data.attrs then
      match data.fields with
      | some [inner] => some (resolveShallow (data.generics.zip args) inner)
      | _ => none
    else none
  | _ => none

/-- The recursion of `clty_of`, which has no bound in the source. -/
def cltyWithin : Nat → Ty → Option ClType
  | _, .int it => some (intClty it)
  | _, .float ft => some (floatClty ft)
  | _, .bool => some .i8
  | _, .char => some .i32
  | _, .str | _, .tuple _ | _, .func .. | _, .union _ | _, .dynamic | _, .ptr _ => some ptrType
  | n, .named d args =>
    match defs.transparentInner (.named d args), n with
    | some inner, n + 1 => cltyWithin n inner
    | some _, 0 => none
    | none, _ =>
      if (defs.get d).kind = .struct ∨ (defs.get d).kind = .externStruct ∨
        (defs.get d).kind = .interface then some ptrType else none
  | _, _ => none

/-- `clty_of`. -/
def cltyOf (t : Ty) : Option ClType := defs.cltyWithin defs.count t

/-- The recursion of `is_managed_ptr`. -/
def managedWithin : Nat → Ty → Bool
  | _, .str | _, .tuple _ | _, .dynamic => true
  | _, .union members => (npoUnion (.union members)).isNone
  | _, .func _ _ isExtern => !isExtern
  | n, .named d args =>
    match defs.transparentInner (.named d args), n with
    | some inner, n + 1 => managedWithin n inner
    | some _, 0 => false
    | none, _ => d = defs.listDef ∨ d = defs.mapDef ∨ (defs.get d).kind = .struct ∨
        (defs.get d).kind = .interface
  | _, _ => false

/-- `is_managed_ptr`. -/
def isManagedPtr (t : Ty) : Bool := defs.managedWithin defs.count t

/-- `is_extern_struct_ty`. -/
def isExternStructTy : Ty → Bool
  | .named d _ => (defs.get d).kind = .externStruct
  | _ => false

/-- The definitions that are interfaces. -/
def isInterface (d : DefId) : Bool := (defs.get d).kind = .interface

/-- `is_refcounted_ty`. -/
def isRefcountedTy : Ty → Bool
  | .named d _ => "RefCounted" ∈ (defs.get d).attrs
  | _ => false

/-- `channel_endpoint_kind_ty`: whether a type is the sending or the receiving end of a channel. -/
def channelEndpointKindTy : Ty → Option Bool
  | .named d _ =>
    if d = defs.senderDef ∧ d ≠ 0 then some true
    else if d = defs.receiverDef ∧ d ≠ 0 then some false
    else none
  | _ => none

/-! ## What the collector does not know -/

variable {defs : TypeDefs}

/-- Without the attribute there is no inner type. -/
theorem transparentInner_none {d : DefId} {args : List Ty}
    (h : "Transparent" ∉ (defs.get d).attrs) : defs.transparentInner (.named d args) = none :=
  if_neg fun hboth => h hboth.2

/-- A struct that is not transparent is managed. -/
theorem managed_struct {d : DefId} {args : List Ty}
    (h : (defs.get d).kind = .struct ∧ "Transparent" ∉ (defs.get d).attrs) :
    defs.isManagedPtr (.named d args) = true := by
  unfold isManagedPtr managedWithin
  rw [transparentInner_none h.2]
  simp [h.1]

/-- No strong count is kept of a value that is not managed. -/
theorem not_refcounted {t : Ty} (h : defs.isManagedPtr t = false) :
    defs.isRefcountedTy t = false := by
  cases t with
  | named d args =>
    apply decide_eq_false
    intro hrc
    rw [managed_struct (defs.refCounted_struct d hrc)] at h
    cases h
  | _ => rfl

/-- A value that is not managed is no end of a channel. -/
theorem not_endpoint {t : Ty} (h : defs.isManagedPtr t = false) :
    defs.channelEndpointKindTy t = none := by
  cases t with
  | named d args =>
    have hnot : ∀ e, d = e ∧ d ≠ 0 → ¬ (e = defs.senderDef ∨ e = defs.receiverDef) := by
      rintro e ⟨rfl, hne⟩ hend
      rw [managed_struct (defs.endpoint_struct d hne hend)] at h
      cases h
    unfold channelEndpointKindTy
    dsimp only
    rw [if_neg fun hboth => hnot _ hboth (.inl rfl), if_neg fun hboth => hnot _ hboth (.inr rfl)]
  | _ => rfl

end TypeDefs

end backend
