-- The uses of macros in a program: the names after the `@` of every attribute and of every call,
-- in every place of the syntax tree.
import OtterFusion.Compiler.Syntax

namespace macros

open compiler.syntax

/-! ## The names at the uses of macros

With `reached` these are the names that stay where the expansion of a body comes to the node: it
looks at the values of a body and replaces the calls of the macros `user` that it finds. With no
`reached` they are all the names in the node. -/

variable (user : String → Bool)

mutual

def tyUses : Ty → List String
  | .named _ generics => tysUses generics
  | .tuple ts | .union ts => tysUses ts
  | .function ps t | .externFunction ps t => tysUses ps ++ tyUses t
  | .pointer t | .paren t => tyUses t
  | .array t len => tyUses t ++ exprUses false len
  | .selfType => []

def tysUses : List Ty → List String
  | [] => []
  | t :: ts => tyUses t ++ tysUses ts

def optTyUses : Option Ty → List String
  | none => []
  | some t => tyUses t

def exprUses (reached : Bool) : Expr → List String
  | .lit _ | .ident _ | .selfExpr | .underscore | .continueExpr => []
  | .str parts => partsUses parts
  | .tuple es | .list es => exprsUses reached es
  | .paren e | .unary _ e | .field e _ | .tupleIndex e _ | .tryExpr e | .ref e | .deref e
  | .await e | .spawn e => exprUses reached e
  | .mapLit items => mapItemsUses reached items
  | .structLit _ generics fields spread =>
    tysUses generics ++ fieldsUses reached fields ++ optUses reached spread
  | .binary _ l r | .index l r => exprUses reached l ++ exprUses reached r
  | .cast _ e t => exprUses reached e ++ tyUses t
  | .call callee generics args closure =>
    exprUses reached callee ++ tysUses generics ++ exprsUses reached args ++
      optUses reached closure
  | .ifExpr c t e => exprUses reached c ++ blockUses reached t ++ optUses reached e
  | .matchExpr s arms => exprUses reached s ++ armsUses reached arms
  | .block b | .loop b | .asyncBlock b => blockUses reached b
  | .whileLoop c b => exprUses reached c ++ blockUses reached b
  | .forLoop p _ i b => patternUses p ++ exprUses reached i ++ blockUses reached b
  | .returnExpr v | .breakExpr v => optUses reached v
  | .closure ps t _ body => paramsUses ps ++ optTyUses t ++ exprUses reached body
  | .anonFn f => functionUses reached f
  | .macroCall name _ args b =>
    if reached && user name then argsUses true args ++ optBlockUses true b
    else name :: (argsUses false args ++ optBlockUses false b)

def exprsUses (reached : Bool) : List Expr → List String
  | [] => []
  | e :: es => exprUses reached e ++ exprsUses reached es

def optUses (reached : Bool) : Option Expr → List String
  | none => []
  | some e => exprUses reached e

/-- The holes of a string are not reached. -/
def partsUses : List StringPart → List String
  | [] => []
  | .text _ :: parts | .ident _ :: parts => partsUses parts
  | .expr e :: parts => exprUses false e ++ partsUses parts

def mapItemsUses (reached : Bool) : List MapItem → List String
  | [] => []
  | .entry k v :: items => exprUses reached k ++ exprUses reached v ++ mapItemsUses reached items
  | .spread e :: items => exprUses reached e ++ mapItemsUses reached items

def fieldsUses (reached : Bool) : List FieldInit → List String
  | [] => []
  | .mk _ v :: fields => optUses reached v ++ fieldsUses reached fields

def argsUses (reached : Bool) : List AttrArg → List String
  | [] => []
  | .positional e :: args | .named _ e :: args => exprUses reached e ++ argsUses reached args

def attrsUses : List Attribute → List String
  | [] => []
  | .mk name args _ :: attrs => name :: (argsUses false args ++ attrsUses attrs)

def patternUses : Pattern → List String
  | .wildcard | .binding _ => []
  | .literal e => exprUses false e
  | .typeBinding t _ => tyUses t
  | .unitPath _ generics => tysUses generics
  | .tupleStruct _ generics ps _ => tysUses generics ++ patternsUses ps
  | .recordStruct _ generics fields _ => tysUses generics ++ fieldPatternsUses fields
  | .tuple ps _ | .list ps _ | .or ps => patternsUses ps

def patternsUses : List Pattern → List String
  | [] => []
  | p :: ps => patternUses p ++ patternsUses ps

def fieldPatternsUses : List FieldPattern → List String
  | [] => []
  | .shorthand _ :: fields => fieldPatternsUses fields
  | .full _ p :: fields => patternUses p ++ fieldPatternsUses fields

def stmtsUses (reached : Bool) : List Stmt → List String
  | [] => []
  | .var p t e :: stmts =>
    patternUses p ++ optTyUses t ++ exprUses reached e ++ stmtsUses reached stmts
  | .assign l r :: stmts => exprUses reached l ++ exprUses reached r ++ stmtsUses reached stmts
  | .expr e :: stmts => exprUses reached e ++ stmtsUses reached stmts
  | .item it :: stmts => itemUses reached it ++ stmtsUses reached stmts

def blockUses (reached : Bool) : Block → List String
  | .mk stmts e => stmtsUses reached stmts ++ optUses reached e

def optBlockUses (reached : Bool) : Option Block → List String
  | none => []
  | some b => blockUses reached b

def armsUses (reached : Bool) : List MatchArm → List String
  | [] => []
  | .mk p g e :: arms =>
    patternUses p ++ optUses reached g ++ exprUses reached e ++ armsUses reached arms

def genericsUses : List GenericParam → List String
  | [] => []
  | .mk _ bounds t :: generics => tysUses bounds ++ optTyUses t ++ genericsUses generics

def paramsUses : List Param → List String
  | [] => []
  | .selfParam :: ps | .untyped _ :: ps => paramsUses ps
  | .normal _ t :: ps => tyUses t ++ paramsUses ps

def functionUses (reached : Bool) : FunctionItem → List String
  | .mk _ generics ps t _ body =>
    genericsUses generics ++ paramsUses ps ++ optTyUses t ++ optBlockUses reached body

def structFieldsUses : List StructField → List String
  | [] => []
  | .mk attrs _ _ t :: fields => attrsUses attrs ++ tyUses t ++ structFieldsUses fields

def membersUses (reached : Bool) : List Member → List String
  | [] => []
  | .mk attrs _ f :: members =>
    attrsUses attrs ++ functionUses reached f ++ membersUses reached members

def kindUses (reached : Bool) : ItemKind → List String
  | .var _ t e => optTyUses t ++ exprUses reached e
  | .function f => functionUses reached f
  | .struct _ generics _ _ fields => genericsUses generics ++ structFieldsUses fields
  | .interface _ generics supers members =>
    genericsUses generics ++ tysUses supers ++ membersUses reached members
  | .typeAlias _ generics t => genericsUses generics ++ tyUses t
  | .inlineModule _ items => itemsUses reached items
  | .extend generics target interfaces members =>
    genericsUses generics ++ tyUses target ++ tysUses interfaces ++ membersUses reached members
  | .externFunction f => functionUses false f
  | .externVar _ t => tyUses t
  | .importItem _ path => partsUses path
  | .test _ _ b => blockUses reached b
  | .externalModule _ | .externType _ => []

def itemUses (reached : Bool) : Item → List String
  | .mk attrs _ kind => attrsUses attrs ++ kindUses reached kind

def itemsUses (reached : Bool) : List Item → List String
  | [] => []
  | it :: items => itemUses reached it ++ itemsUses reached items

end

section Calls

variable {name : String} {span : compiler.ast.Span} {args : List AttrArg} {b : Option Block}

theorem exprUses_call_reached (h : user name = true) :
    exprUses user true (.macroCall name span args b) =
      argsUses user true args ++ optBlockUses user true b :=
  if_pos h

theorem exprUses_other_call (h : user name = false) :
    exprUses user true (.macroCall name span args b) =
      exprUses user false (.macroCall name span args b) :=
  if_neg (by simp [h])

end Calls

end macros
