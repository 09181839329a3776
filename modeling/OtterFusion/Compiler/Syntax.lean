-- The syntax tree (`ast.rs`) as the parser leaves it, with its types, its patterns, its attributes
-- and all its items. `Ast.lean` keeps of it what the checker types. The docs are left out, and of
-- the spans those are kept that an error of the expansion points at. A list of generic parameters
-- that is absent is the empty one.
import OtterFusion.Compiler.Ast

namespace compiler.syntax

open compiler.ast (Span UnaryOp BinaryOp CastOp Lit)

/-- `RestPattern`: the name after the two dots. -/
structure RestPattern where
  name : Option String
  deriving DecidableEq

/-- `ImportName`. -/
structure ImportName where
  name : String
  localName : Option String
  deriving DecidableEq

/-- `ImportKind`. -/
inductive ImportKind
  | ambient
  | namespaced (name : String)
  | named (names : List ImportName)
  deriving DecidableEq

/-- `StructKind`. -/
inductive StructKind
  | unit | tuple | record
  deriving DecidableEq

mutual

/-- `TypeKind`. -/
inductive Ty
  | named (name : String) (generics : List Ty)
  | tuple (elems : List Ty)
  | function (params : List Ty) (ret : Ty)
  | externFunction (params : List Ty) (ret : Ty)
  | union (elems : List Ty)
  | pointer (inner : Ty)
  | array (elem : Ty) (len : Expr)
  | selfType
  | paren (inner : Ty)

/-- `ExprKind`; the path of a structure is its name and its arguments. -/
inductive Expr
  | lit (l : Lit)
  | str (parts : List StringPart)
  | ident (name : String)
  | selfExpr
  | underscore
  | tuple (elems : List Expr)
  | paren (inner : Expr)
  | list (elems : List Expr)
  | mapLit (items : List MapItem)
  | structLit (path : String) (generics : List Ty) (fields : List FieldInit)
      (spread : Option Expr)
  | unary (op : UnaryOp) (operand : Expr)
  | binary (op : BinaryOp) (left right : Expr)
  | cast (op : CastOp) (expr : Expr) (ty : Ty)
  | field (receiver : Expr) (name : String)
  | tupleIndex (receiver : Expr) (index : Nat)
  | call (callee : Expr) (generics : List Ty) (args : List Expr) (trailingClosure : Option Expr)
  | index (receiver index : Expr)
  | tryExpr (expr : Expr)
  | ref (expr : Expr)
  | deref (expr : Expr)
  | await (expr : Expr)
  | spawn (expr : Expr)
  | ifExpr (cond : Expr) (thenBlock : Block) (elseBranch : Option Expr)
  | matchExpr (scrutinee : Expr) (arms : List MatchArm)
  | block (b : Block)
  | loop (b : Block)
  | whileLoop (cond : Expr) (body : Block)
  | forLoop (pattern : Pattern) (inAsync : Bool) (iter : Expr) (body : Block)
  | returnExpr (value : Option Expr)
  | breakExpr (value : Option Expr)
  | continueExpr
  | closure (params : List Param) (returnType : Option Ty) (isAsync : Bool) (body : Expr)
  | anonFn (f : FunctionItem)
  | asyncBlock (b : Block)
  | macroCall (name : String) (atSpan : Span) (args : List AttrArg) (block : Option Block)

/-- `StringPart`. -/
inductive StringPart
  | text (text : String)
  | ident (name : String)
  | expr (expr : Expr)

/-- `FieldInit`: without a value it is a shorthand. -/
inductive FieldInit
  | mk (name : String) (value : Option Expr)

/-- `MapItem`. -/
inductive MapItem
  | entry (key value : Expr)
  | spread (expr : Expr)

/-- `AttrArg`. -/
inductive AttrArg
  | positional (value : Expr)
  | named (name : String) (value : Expr)

/-- `Attribute`. -/
inductive Attribute
  | mk (name : String) (args : List AttrArg) (span : Span)

/-- `PatternKind`; the path of a structure is its name and its arguments. -/
inductive Pattern
  | wildcard
  | binding (name : String)
  | literal (expr : Expr)
  | typeBinding (ty : Ty) (binding : Option String)
  | unitPath (path : String) (generics : List Ty)
  | tupleStruct (path : String) (generics : List Ty) (fields : List Pattern)
      (rest : Option RestPattern)
  | recordStruct (path : String) (generics : List Ty) (fields : List FieldPattern)
      (hasRest : Bool)
  | tuple (elems : List Pattern) (rest : Option (Nat × RestPattern))
  | list (elems : List Pattern) (rest : Option (Nat × RestPattern))
  | or (patterns : List Pattern)

/-- `FieldPattern`: the name alone, or with a pattern. -/
inductive FieldPattern
  | shorthand (name : String)
  | full (name : String) (pattern : Pattern)

/-- `StmtKind`. -/
inductive Stmt
  | var (pattern : Pattern) (ty : Option Ty) (init : Expr)
  | assign (target value : Expr)
  | expr (expr : Expr)
  | item (item : Item)

/-- `Block`. -/
inductive Block
  | mk (stmts : List Stmt) (trailing : Option Expr)

/-- `MatchArm`. -/
inductive MatchArm
  | mk (pattern : Pattern) (guard : Option Expr) (body : Expr)

/-- `GenericParam`. -/
inductive GenericParam
  | mk (name : String) (bounds : List Ty) (default : Option Ty)

/-- `ParamKind`; and `ClosureParam`, which may have no type. -/
inductive Param
  | selfParam
  | normal (name : String) (ty : Ty)
  | untyped (name : String)

/-- `FunctionItem`; a `FunctionSig` is one without a body. -/
inductive FunctionItem
  | mk (name : String) (generics : List GenericParam) (params : List Param)
      (returnType : Option Ty) (isAsync : Bool) (body : Option Block)

/-- `StructField`; and `TupleField`, which has no name and no attributes. -/
inductive StructField
  | mk (attrs : List Attribute) (isPublic : Bool) (name : Option String) (ty : Ty)

/-- `ExtendMember`; and `InterfaceMember`, which has no visibility, and whose default body is the
body of its function. -/
inductive Member
  | mk (attrs : List Attribute) (isPublic : Bool) (function : FunctionItem)

/-- `ItemKind`. A module in a file of its own has no items here. -/
inductive ItemKind
  | var (name : String) (ty : Option Ty) (init : Expr)
  | function (f : FunctionItem)
  | struct (name : String) (generics : List GenericParam) (isExtern : Bool) (kind : StructKind)
      (fields : List StructField)
  | interface (name : String) (generics : List GenericParam) (supers : List Ty)
      (members : List Member)
  | typeAlias (name : String) (generics : List GenericParam) (aliased : Ty)
  | externalModule (name : String)
  | inlineModule (name : String) (items : List Item)
  | extend (generics : List GenericParam) (target : Ty) (interfaces : List Ty)
      (members : List Member)
  | externFunction (f : FunctionItem)
  | externType (name : String)
  | externVar (name : String) (ty : Ty)
  | importItem (kind : ImportKind) (path : List StringPart)
  | test (name : String) (isBench : Bool) (body : Block)

/-- `Item`. -/
inductive Item
  | mk (attrs : List Attribute) (isPublic : Bool) (kind : ItemKind)

end

def Attribute.name : Attribute → String
  | .mk name _ _ => name

def Attribute.args : Attribute → List AttrArg
  | .mk _ args _ => args

def Attribute.span : Attribute → Span
  | .mk _ _ span => span

def Item.attrs : Item → List Attribute
  | .mk attrs _ _ => attrs

def Item.kind : Item → ItemKind
  | .mk _ _ kind => kind

end compiler.syntax
