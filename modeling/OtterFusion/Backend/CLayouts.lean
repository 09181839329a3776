-- The layouts of structs (`support.rs`): the field block of a managed struct with its trace map,
-- and the C layout of an `extern struct` with the decorators that it carries. The arithmetic is in
-- `u32`.
import OtterFusion.Backend.Representation
import OtterFusion.Base.CLayout
import OtterFusion.Base.Numerals
import OtterFusion.Base.Trapping

open compiler.sema compiler.lexer base.clayout base.trapping

namespace backend

/-! ## Declarations -/

/-- `AttrArg`: a positional integer literal, its digits without the prefix and its base, or another
argument. -/
inductive AttrArg
  | int (raw : String) (base : IntBase)
  | other
  deriving DecidableEq, Repr

/-- `Attribute`. -/
structure Attribute where
  name : String
  args : List AttrArg
  deriving DecidableEq, Repr

/-- `StructFields`. -/
inductive StructFields
  | unit
  | record (fields : List (String × Ty))
  | tuple (types : List Ty)

/-- The fields with their names; positions are named by numbers. -/
def StructFields.named : StructFields → List (String × Ty)
  | unit => []
  | record fields => fields
  | tuple types => types.zipIdx.map fun f => (toString f.2, f.1)

/-- The definitions, with the arguments of their attributes and with the names of their fields. -/
structure LayoutDefs extends TypeDefs where
  attributes : DefId → List Attribute
  structs : DefId → Option StructFields
  attrs_eq : ∀ d, (get d).attrs = (attributes d).map Attribute.name
  fields_eq : ∀ d, (get d).fields = (structs d).map fun s => s.named.map Prod.snd

/-! ## Decorators -/

/-- The digits of a literal, without underscores. -/
def literalDigits (raw : String) : List Char := raw.toList.filter (· != '_')

/-- `attr_int_arg`: the digits are read as a decimal number, as `parse::<u32>` does. -/
def attrIntArg (attr : Attribute) : Option Nat :=
  attr.args.findSome? fun
    | .int raw _ => base.numerals.parse (2 ^ 32) 10 (literalDigits raw)
    | .other => none

/-- `ExternRepr`, by what is read of the argument of a decorator. -/
def externReprWith (read : Attribute → Option Nat) (attrs : List Attribute) : Rule :=
  attrs.foldl (fun repr attr =>
    if attr.name = "Packed" then { repr with packed := some ((read attr).getD 1) }
    else if attr.name = "Align" then { repr with minAlign := read attr }
    else if attr.name = "Union" then { repr with isUnion := true }
    else repr) ⟨none, none, false⟩

/-! ## Arithmetic -/

/-- Why there is no layout: a result that is no `u32`, or a struct inside itself. -/
inductive Stop
  | overflow | endless
  deriving DecidableEq, Repr

/-- What a layout comes to. -/
abbrev Calc (A : Type) := Ending Stop Empty A

/-- A result in `u32`. -/
def u32 (n : Nat) : Calc Nat := if n < 2 ^ 32 then .value n else .trap .overflow

/-- `align_up`. -/
def alignUp (x align : Nat) : Calc Nat := u32 (divCeil x align * align)

/-! ## Layouts -/

/-- `ClType::bytes`. -/
def ClType.bytes : ClType → Nat
  | .i8 => 1
  | .i16 => 2
  | .i32 | .f32 => 4
  | .i64 | .f64 => 8

/-- `Layout`. -/
structure Layout where
  names : List String
  offsets : List Nat
  cltys : List (Option ClType)
  tys : List Ty
  size : Nat
  align : Nat
  ptrOffsets : List Nat
  rcOffsets : List Nat

/-- What a loop over the fields has found. -/
structure Scan where
  offset : Nat
  offsets : List Nat
  maxAlign : Nat
  unionSize : Nat
  ptrOffsets : List Nat
  rcOffsets : List Nat

/-- The type is a fixed array. -/
def isArrayTy : Ty → Bool
  | .array _ _ => true
  | _ => false

/-- `RC_HEADER`. -/
def rcHeader : Nat := 8

namespace LayoutDefs

variable (defs : LayoutDefs)

/-- The size and the alignment of a value of a type. -/
def scalarSizeAlign (t : Ty) : SizeAlign :=
  match defs.cltyOf t with
  | some c => ⟨c.bytes, max c.bytes 1⟩
  | none => ⟨0, 1⟩

/-- `is_refcounted_def`. -/
def isRefcountedDef (d : DefId) : Bool :=
  (defs.get d).kind = .struct ∧ "RefCounted" ∈ (defs.get d).attrs

/-- A turn of the loop of `layout_of_fields`. -/
def fieldTurn (s : Scan) (t : Ty) : Calc Scan := do
  let m := defs.scalarSizeAlign t
  let off ← alignUp s.offset m.align
  let offset ← u32 (off + m.size)
  .value {
    offset
    offsets := s.offsets ++ [off]
    maxAlign := max s.maxAlign m.align
    unionSize := s.unionSize
    ptrOffsets := if defs.isManagedPtr t then s.ptrOffsets ++ [off] else s.ptrOffsets
    rcOffsets :=
      if defs.isManagedPtr t ∧ defs.isRefcountedTy t then s.rcOffsets ++ [off] else s.rcOffsets }

/-- `layout_of_fields`. -/
def layoutOfFields (fields : List (String × Ty)) : Calc Layout := do
  let s ← (fields.map Prod.snd).foldlM defs.fieldTurn ⟨0, [], 1, 0, [], []⟩
  .value {
    names := fields.map Prod.fst
    offsets := s.offsets
    cltys := fields.map fun f => defs.cltyOf f.2
    tys := fields.map Prod.snd
    size := max (← alignUp s.offset s.maxAlign) 1
    align := s.maxAlign
    ptrOffsets := s.ptrOffsets
    rcOffsets := s.rcOffsets }

/-- `field_size_align`. The product of an array is saturated, and its length is cast to `u32`. -/
def fieldSizeAlign (layoutOf : DefId → List Ty → Calc Layout) : Ty → Calc SizeAlign
  | .array elem len => do
    let m ← fieldSizeAlign layoutOf elem
    .value ⟨min (m.size * (len % 2 ^ 32)) (2 ^ 32 - 1), m.align⟩
  | .named d args =>
    if (defs.get d).kind = .externStruct then do
      let l ← layoutOf d args
      .value ⟨l.size, l.align⟩
    else .value (defs.scalarSizeAlign (.named d args))
  | t => .value (defs.scalarSizeAlign t)

/-- A turn of the loop of `extern_layout_of_fields`. -/
def externTurn (sizeAlign : Ty → Calc SizeAlign) (repr : Rule) (s : Scan) (t : Ty) : Calc Scan := do
  let m ← sizeAlign t
  let align := capped repr.packed m.align
  let off ← (if repr.isUnion then .value 0 else alignUp s.offset align)
  let offset ← (if repr.isUnion then .value s.offset else u32 (off + m.size))
  .value {
    offset
    offsets := s.offsets ++ [off]
    maxAlign := max s.maxAlign align
    unionSize := if repr.isUnion then max s.unionSize m.size else s.unionSize
    ptrOffsets := s.ptrOffsets
    rcOffsets := s.rcOffsets }

/-- `extern_layout_of_fields`. -/
def externLayoutOfFields (sizeAlign : Ty → Calc SizeAlign) (fields : List (String × Ty))
    (repr : Rule) : Calc Layout := do
  let s ← (fields.map Prod.snd).foldlM (externTurn sizeAlign repr) ⟨0, [], 1, 0, [], []⟩
  let maxAlign := raised repr.minAlign s.maxAlign
  let raw := if repr.isUnion then s.unionSize else s.offset
  .value {
    names := fields.map Prod.fst
    offsets := s.offsets
    cltys := fields.map fun f =>
      if defs.isExternStructTy f.2 ∨ isArrayTy f.2 then none else defs.cltyOf f.2
    tys := fields.map Prod.snd
    size := max (← alignUp raw maxAlign) 1
    align := maxAlign
    ptrOffsets := []
    rcOffsets := [] }

/-- The fields of a struct at the arguments of an instance. -/
def layoutFields (d : DefId) (args : List Ty) : List (String × Ty) :=
  (((defs.structs d).map StructFields.named).getD []).map fun f =>
    (f.1, resolveShallow ((defs.get d).generics.zip args) f.2)

/-- Offsets behind the header. -/
def addHeader : List Nat → Calc (List Nat)
  | [] => .value []
  | o :: os => do
    let o ← u32 (o + rcHeader)
    let os ← addHeader os
    .value (o :: os)

/-- The header before the fields of a `@RefCounted` object. -/
def shiftHeader (l : Layout) : Calc Layout := do
  let offsets ← addHeader l.offsets
  let ptrOffsets ← addHeader l.ptrOffsets
  let rcOffsets ← addHeader l.rcOffsets
  let size ← u32 (l.size + rcHeader)
  .value { l with offsets, ptrOffsets, rcOffsets, size, align := max l.align rcHeader }

/-- `compute_layout`. Its recursion has no bound in the source: a struct inside itself has no
layout. -/
def computeLayout : Nat → DefId → List Ty → Calc Layout
  | 0, _, _ => .trap .endless
  | n + 1, d, args =>
    if (defs.get d).kind = .externStruct then
      defs.externLayoutOfFields (defs.fieldSizeAlign (computeLayout n)) (defs.layoutFields d args)
        (externReprWith attrIntArg (defs.attributes d))
    else do
      let l ← defs.layoutOfFields (defs.layoutFields d args)
      if defs.isRefcountedDef d then shiftHeader l else .value l

end LayoutDefs

end backend
