-- `@Derive` (`derive.rs`): the `extend` block that is synthesised for a struct. The nodes are built
-- with fresh spans; a type is the text that it is printed as.
import Mathlib.Algebra.Group.Nat.Defs
import OtterFusion.Compiler.Ast

namespace compiler.sema.derive

open compiler.ast

/-! ## Structs -/

/-- `StructKind`: the fields of a tuple struct have no names. -/
inductive StructKind
  | unit
  | tuple (fields : Nat)
  | record (fields : List String)
  deriving DecidableEq, Repr

/-- `StructItem`. -/
structure StructItem where
  name : String
  generics : Option (List String)
  kind : StructKind
  deriving DecidableEq, Repr

/-- `ExtendItem`, with the bounds of its parameters. -/
structure ExtendItem where
  generics : Option (List (String × List String))
  target : String
  interfaces : List String
  members : List FunctionItem

/-- The interfaces that can be derived. -/
inductive Derive
  | eq | ord | toStr | clone | hash
  deriving DecidableEq, Repr

/-- `known_derive`. -/
def knownDerive : String → Option Derive
  | "Eq" => some .eq
  | "Ord" => some .ord
  | "ToStr" => some .toStr
  | "Clone" => some .clone
  | "Hash" => some .hash
  | _ => none

/-- `derived_interfaces`: the names in `@Derive(..)` and `@derive(..)`. -/
def derivedInterfaces (attrs : List (String × List AttrArg)) : List Derive :=
  attrs.flatMap fun attr =>
    if attr.1 = "Derive" ∨ attr.1 = "derive" then
      attr.2.filterMap fun arg =>
        match arg with
        | .positional (.mk (.ident name) _) => knownDerive name
        | _ => none
    else []

/-- `field_count`. -/
def StructKind.fieldCount : StructKind → Nat
  | .unit => 0
  | .tuple fields => fields
  | .record fields => fields.length

/-! ## Nodes -/

/-- What builds nodes: the counter of the spans goes along. -/
abbrev Fresh := StateM Nat

/-- `nsp`, in the file `DERIVE_FILE`. -/
def nsp : Fresh Span := fun n => (⟨2 ^ 32 - 2, n, n + 1⟩, n + 1)

/-- A node of this kind. -/
def node (kind : ExprKind) : Fresh Expr := return .mk kind (← nsp)

/-- `ident`. -/
def ident (name : String) : Fresh String := do
  let _ ← nsp
  return name

/-- `ident_expr`. -/
def identExpr (name : String) : Fresh Expr := do node (.ident (← ident name))

/-- `self_expr`. -/
def selfExpr : Fresh Expr := node .selfExpr

/-- `bool_lit`. -/
def boolLit (b : Bool) : Fresh Expr := node (.lit (.bool b))

/-- `u64_lit`. -/
def u64Lit (n : Nat) : Fresh Expr := node (.lit (.int (toString n ++ "u64")))

/-- `field_access`. -/
def fieldAccess (receiver : Expr) (name : String) : Fresh Expr := do
  node (.field receiver (← ident name))

/-- `tuple_index`. -/
def tupleIndex (receiver : Expr) (index : Nat) : Fresh Expr := do
  let _ ← nsp
  node (.tupleIndex receiver index)

/-- `binary`. -/
def binary (op : BinaryOp) (left right : Expr) : Fresh Expr := do
  let _ ← nsp
  node (.binary op left right)

/-- `not`. -/
def not (operand : Expr) : Fresh Expr := do
  let _ ← nsp
  node (.unary .not operand)

/-- `method_call`, and with no argument `to_str_call`, `clone_call` and `hash_call`. -/
def methodCall (receiver : Expr) (name : String) (args : List Expr) : Fresh Expr := do
  let callee ← fieldAccess receiver name
  node (.call callee [] args none)

/-- `named_ty`. -/
def namedTy (name : String) : Fresh String := do
  let name ← ident name
  let _ ← nsp
  return name

/-- `str_lit`. -/
def strLit (text : String) : Fresh Expr := do
  let _ ← nsp
  node (.str [.text text])

/-- `cast_to_str`. -/
def castToStr (expr : Expr) : Fresh Expr := do
  let _ ← nsp
  node (.cast .as expr (← namedTy "str"))

/-- `conjoin`. -/
def conjoin : List (Fresh Expr) → Fresh Expr
  | [] => boolLit true
  | p :: ps => do ps.foldlM (fun acc p => do binary .and acc (← p)) (← p)

/-- `concat`. -/
def concat : List Expr → Fresh Expr
  | [] => strLit ""
  | p :: ps => ps.foldlM (fun acc p => binary .add acc p) p

/-- The name of a field of a record. -/
def StructKind.fieldName (kind : StructKind) (i : Nat) : String :=
  match kind with
  | .record fields => fields.getD i ""
  | _ => ""

/-- `field_at`. -/
def fieldAt (kind : StructKind) (base : Expr) (i : Nat) : Fresh Expr :=
  match kind with
  | .record _ => fieldAccess base (kind.fieldName i)
  | _ => tupleIndex base i

/-- `self_field`. -/
def selfField (s : StructItem) (i : Nat) : Fresh Expr := do fieldAt s.kind (← selfExpr) i

/-- `other_field`. -/
def otherField (s : StructItem) (i : Nat) : Fresh Expr := do fieldAt s.kind (← identExpr "other") i

/-! ## Methods -/

/-- A method without statements. -/
def methodItem (name : String) (params : List Param) (ret : String) (body : Expr) : FunctionItem :=
  .mk name none params (some ret) false (some (.mk [] (some body)))

/-- `cmp_method`. -/
def cmpMethod (name otherTy : String) (body : Expr) : Fresh FunctionItem := do
  let name ← ident name
  let _ ← nsp
  let other ← ident "other"
  let _ ← nsp
  let ret ← namedTy "bool"
  let _ ← nsp
  return methodItem name [.selfParam, .normal other otherTy] ret body

/-- A method that takes nothing but `self`. -/
def selfMethod (name : String) (ret : Fresh String) (body : Expr) : Fresh FunctionItem := do
  let name ← ident name
  let _ ← nsp
  let ret ← ret
  let _ ← nsp
  return methodItem name [.selfParam] ret body

/-- The comparison of a field of `self` with that of `other`, by an operator or by a method. -/
def fieldTest (op : BinaryOp) (method : String) (s : StructItem) (i : Nat) (generic : Bool) :
    Fresh Expr := do
  let left ← selfField s i
  let right ← otherField s i
  if generic then methodCall left method [right] else binary op left right

/-- `field_eq`. -/
def fieldEq (s : StructItem) (i : Nat) (generic : Bool) : Fresh Expr :=
  fieldTest .eq "eq" s i generic

/-- `field_lt`. -/
def fieldLt (s : StructItem) (i : Nat) (generic : Bool) : Fresh Expr :=
  fieldTest .lt "lt" s i generic

/-- `synth_eq`. -/
def synthEq (s : StructItem) (generic : Bool) (otherTy : String) : Fresh FunctionItem := do
  let body ← conjoin ((List.range s.kind.fieldCount).map fun i => fieldEq s i generic)
  cmpMethod "eq" otherTy body

/-- `lex_lt`. -/
def lexLt (s : StructItem) (i n : Nat) (generic : Bool) : Fresh Expr :=
  if h : i ≥ n then boolLit false
  else do
    let lt ← fieldLt s i generic
    if i + 1 = n then return lt
    else
      let eq ← fieldEq s i generic
      let rest ← lexLt s (i + 1) n generic
      binary .or lt (← binary .and eq rest)
termination_by n - i

/-- `synth_lt`. -/
def synthLt (s : StructItem) (generic : Bool) (otherTy : String) : Fresh FunctionItem := do
  cmpMethod "lt" otherTy (← lexLt s 0 s.kind.fieldCount generic)

/-- A call of one of the methods on `self` and `other`. -/
def selfCall (method : String) : Fresh Expr := do
  let self ← selfExpr
  methodCall self method [← identExpr "other"]

/-- `synth_le`. -/
def synthLe (otherTy : String) : Fresh FunctionItem := do
  let lt ← selfCall "lt"
  let eq ← selfCall "eq"
  cmpMethod "le" otherTy (← binary .or lt eq)

/-- `synth_gt`. -/
def synthGt (otherTy : String) : Fresh FunctionItem := do
  cmpMethod "gt" otherTy (← not (← selfCall "le"))

/-- `synth_ge`. -/
def synthGe (otherTy : String) : Fresh FunctionItem := do
  cmpMethod "ge" otherTy (← not (← selfCall "lt"))

/-- A call without arguments on a field of `self`. -/
def fieldCall (s : StructItem) (method : String) (i : Nat) : Fresh Expr := do
  methodCall (← selfField s i) method []

/-- The text of a field: `render`. -/
def render (s : StructItem) (generic : Bool) (i : Nat) : Fresh Expr :=
  if generic then fieldCall s "to_str" i else do castToStr (← selfField s i)

/-- The text of a struct. -/
def toStrBody (s : StructItem) (generic : Bool) : Fresh Expr :=
  match s.kind with
  | .unit => strLit s.name
  | .record fields => do
    let start ← strLit (s.name ++ " \x7b ")
    let pieces ← (List.range fields.length).mapM fun i => do
      let label ← strLit ((if i = 0 then "" else ", ") ++ fields.getD i "" ++ ": ")
      return [label, ← render s generic i]
    concat (start :: pieces.flatten ++ [← strLit " \x7d"])
  | .tuple fields => do
    let start ← strLit (s.name ++ "(")
    let pieces ← (List.range fields).mapM fun i => do
      let comma ← if i > 0 then do pure [← strLit ", "] else pure []
      return comma ++ [← render s generic i]
    concat (start :: pieces.flatten ++ [← strLit ")"])

/-- `synth_to_str`. -/
def synthToStr (s : StructItem) (generic : Bool) : Fresh FunctionItem := do
  selfMethod "to_str" (namedTy "str") (← toStrBody s generic)

/-- A struct of the clones of the fields. -/
def cloneBody (s : StructItem) : Fresh Expr :=
  match s.kind with
  | .unit => identExpr s.name
  | .record fields => do
    let inits ← (List.range fields.length).mapM fun i => do
      let name ← ident (fields.getD i "")
      let value ← fieldCall s "clone" i
      let _ ← nsp
      return FieldInit.mk name (some value)
    let path ← ident s.name
    let _ ← nsp
    node (.structLit path inits none)
  | .tuple fields => do
    let args ← (List.range fields).mapM fun i => fieldCall s "clone" i
    node (.call (← identExpr s.name) [] args none)

/-- `synth_clone`. -/
def synthClone (s : StructItem) (retTy : String) : Fresh FunctionItem := do
  selfMethod "clone" (pure retTy) (← cloneBody s)

/-- The hashes of fields, taken together. -/
def hashFields (s : StructItem) : List Nat → Fresh Expr
  | [] => u64Lit 0
  | i :: is => do
    is.foldlM (fun acc i => do binary .bitXor acc (← fieldCall s "hash" i)) (← fieldCall s "hash" i)

/-- `synth_hash`. -/
def synthHash (s : StructItem) : Fresh FunctionItem := do
  let body ← hashFields s (List.range s.kind.fieldCount)
  selfMethod "hash" (namedTy "u64") body

/-! ## The block -/

/-- The interfaces that the block implements. -/
def wanted (derives : List Derive) : List String :=
  (if .eq ∈ derives ∨ .ord ∈ derives then ["Eq"] else []) ++
  (if .ord ∈ derives then ["Ord"] else []) ++
  (if .toStr ∈ derives then ["ToStr"] else []) ++
  (if .clone ∈ derives then ["Clone"] else []) ++
  (if .hash ∈ derives then ["Hash"] else [])

/-- The parameters of the block, with their bounds, and the type that it extends. -/
def extendTarget (s : StructItem) (bounds : List String) :
    Fresh (Option (List (String × List String)) × String) :=
  match s.generics with
  | some params => do
    let bounds ← bounds.mapM namedTy
    let generics ← params.mapM fun p => do
      let p ← ident p
      let _ ← nsp
      return (p, bounds)
    let args ← params.mapM namedTy
    let name ← ident s.name
    let _ ← nsp
    let _ ← nsp
    return (some generics, name ++ "<" ++ ", ".intercalate args ++ ">")
  | none => return (none, ← namedTy s.name)

/-- What is synthesised where it is wanted. -/
def synthWhen (wanted : Bool) (fs : List (Fresh FunctionItem)) : Fresh (List FunctionItem) :=
  if wanted then fs.mapM id else pure []

/-- The methods of the block. -/
def synthMethods (s : StructItem) (derives : List Derive) (target : String) :
    Fresh (List FunctionItem) := do
  let generic := s.generics.isSome
  let eq ← synthWhen (.eq ∈ derives ∨ .ord ∈ derives) [synthEq s generic target]
  let ord ← synthWhen (.ord ∈ derives)
    [synthLt s generic target, synthLe target, synthGt target, synthGe target]
  let toStr ← synthWhen (.toStr ∈ derives) [synthToStr s generic]
  let clone ← synthWhen (.clone ∈ derives) [synthClone s target]
  let hash ← synthWhen (.hash ∈ derives) [synthHash s]
  return eq ++ ord ++ toStr ++ clone ++ hash

/-- `synth_impl`: none where nothing is derived. -/
def synthImpl (s : StructItem) (derives : List Derive) : Fresh (Option ExtendItem) := do
  let (generics, target) ← extendTarget s (wanted derives)
  let functions ← synthMethods s derives target
  if functions.isEmpty then return none
  let members ← functions.mapM fun function => do
    let _ ← nsp
    let _ ← nsp
    return function
  let interfaces ← (wanted derives).mapM namedTy
  let _ ← nsp
  return some { generics, target, interfaces, members }

end compiler.sema.derive
