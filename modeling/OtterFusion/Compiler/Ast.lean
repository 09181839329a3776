-- The syntax tree (`ast.rs`), with the span of each expression; the checker keeps what it finds
-- out about an expression under its span. The spans of other nodes are left out. A type and the
-- path of a type are the texts that they are printed as: the length of an array in a type is a
-- constant, and no expression that the checker types.
import Mathlib.Logic.Basic

namespace compiler.ast

/-! ## Spans -/

/-- `Span`: a range of bytes in a file. -/
structure Span where
  file : Nat
  lo : Nat
  hi : Nat
  deriving DecidableEq, Repr

/-! ## Operators, literals and parameters -/

/-- `UnaryOp`. -/
inductive UnaryOp
  | neg | not | bitNot
  deriving DecidableEq

/-- `BinaryOp`. -/
inductive BinaryOp
  | add | sub | mul | div | rem | eq | ne | lt | le | gt | ge | and | or | bitAnd | bitOr | bitXor
  | shl | shr
  deriving DecidableEq

/-- `CastOp`. -/
inductive CastOp
  | as | is
  deriving DecidableEq

/-- The literals: `Int`, `Float`, `Bool`, `Null` and `Char`. -/
inductive Lit
  | int (raw : String)
  | float (raw : String)
  | bool (b : Bool)
  | null
  | char (raw : String)
  deriving DecidableEq

/-- `ParamKind`. -/
inductive Param
  | normal (name type : String)
  | selfParam
  deriving DecidableEq

/-- `ClosureParam`. -/
structure ClosureParam where
  name : String
  type : Option String
  deriving DecidableEq

/-! ## Expressions, statements and items -/

mutual

/-- `Expr`. -/
inductive Expr
  | mk (kind : ExprKind) (span : Span)

/-- `ExprKind`. -/
inductive ExprKind
  | lit (l : Lit)
  | str (parts : List StringPart)
  | ident (name : String)
  | selfExpr
  | underscore
  | tuple (elems : List Expr)
  | paren (inner : Expr)
  | list (elems : List Expr)
  | mapLit (items : List MapItem)
  | structLit (path : String) (fields : List FieldInit) (spread : Option Expr)
  | unary (op : UnaryOp) (operand : Expr)
  | binary (op : BinaryOp) (left right : Expr)
  | cast (op : CastOp) (expr : Expr) (type : String)
  | field (receiver : Expr) (name : String)
  | tupleIndex (receiver : Expr) (index : Nat)
  | call (callee : Expr) (generics : List String) (args : List Expr)
      (trailingClosure : Option Expr)
  | index (receiver index : Expr)
  | tryExpr (expr : Expr)
  | ref (expr : Expr)
  | deref (expr : Expr)
  | await (expr : Expr)
  | spawn (expr : Expr)
  | ifExpr (cond : Expr) (thenBlock : Block) (elseBranch : Option ElseBranch)
  | matchExpr (scrutinee : Expr) (arms : List MatchArm)
  | block (b : Block)
  | loop (b : Block)
  | whileLoop (cond : Expr) (body : Block)
  | forLoop (pattern : Pattern) (inAsync : Bool) (iter : Expr) (body : Block)
  | returnExpr (value : Option Expr)
  | breakExpr (value : Option Expr)
  | continueExpr
  | closure (params : List ClosureParam) (returnType : Option String) (isAsync : Bool)
      (body : Expr)
  | anonFn (f : FunctionItem)
  | asyncBlock (b : Block)
  | macroCall (name : String) (args : List AttrArg) (block : Option Block)

/-- `StringPart`. -/
inductive StringPart
  | text (text : String)
  | ident (name : String)
  | expr (expr : Expr)

/-- `FieldInit`: without a value it is a shorthand. -/
inductive FieldInit
  | mk (name : String) (value : Option Expr)

/-- `MapItem`. -/
inductive MapItem
  | entry (key value : Expr)
  | spread (expr : Expr)

/-- `AttrArg`. -/
inductive AttrArg
  | positional (value : Expr)
  | named (name : String) (value : Expr)

/-- `PatternKind`: a pattern that is no wildcard, no name and no literal is its text, with the
names that it binds itself and the patterns in it. -/
inductive Pattern
  | wildcard
  | binding (name : String)
  | literal (expr : Expr)
  | other (text : String) (names : List String) (parts : List Pattern)

/-- `StmtKind`. -/
inductive Stmt
  | var (pattern : Pattern) (type : Option String) (init : Expr)
  | assign (target value : Expr)
  | expr (expr : Expr)
  | item (item : Item)

/-- `Block`. -/
inductive Block
  | mk (stmts : List Stmt) (trailing : Option Expr)

/-- `ElseBranch`. -/
inductive ElseBranch
  | elseIf (expr : Expr)
  | block (b : Block)

/-- `MatchArm`. -/
inductive MatchArm
  | mk (pattern : Pattern) (guard : Option Expr) (body : Expr)

/-- `FunctionItem`; and `InterfaceMember`, whose default body is the body. -/
inductive FunctionItem
  | mk (name : String) (generics : Option (List String)) (params : List Param)
      (returnType : Option String) (isAsync : Bool) (body : Option Block)

/-- `ItemKind`, with the visibility of an interface. The interfaces of an `extend` are named types
with their arguments; another type there is none. -/
inductive Item
  | function (f : FunctionItem)
  | interface (isPublic : Bool) (name : String) (generics : List String)
      (members : List FunctionItem)
  | extend (interfaces : List (Option (String × List String))) (members : List FunctionItem)
  | module (items : List Item)
  | test (body : Block)
  | var (init : Expr)
  | other

end

def FunctionItem.name : FunctionItem → String
  | .mk name _ _ _ _ _ => name

def FunctionItem.returnType : FunctionItem → Option String
  | .mk _ _ _ returnType _ _ => returnType

def FunctionItem.body : FunctionItem → Option Block
  | .mk _ _ _ _ _ body => body

end compiler.ast
