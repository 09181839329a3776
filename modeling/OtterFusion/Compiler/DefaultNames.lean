-- What the names in a method denote, as the checker looks them up: a local before a value of the
-- module, a primitive type before a generic parameter and that before a type of the module, and at
-- the receiver of a call a namespace before a type and that before a value. Before a field that is
-- no method stands a value, unless the two name a number or, inside a receiver, a namespace. An
-- item in a block binds no name. The names of fields and methods are looked up in a type and are
-- left out, and so are those in a module in a block, which has a scope of its own.
import OtterFusion.Compiler.Defaults
import OtterFusion.Compiler.Lower

namespace compiler.defaults

open compiler.ast (Lit)
open compiler.syntax

/-! ## The uses of names -/

/-- Where a name in an expression stands: before a field, `nested` is that of a receiver. -/
inductive Place
  | value | callee | receiver
  | object (nested : Bool) (field : String)
  deriving DecidableEq

/-- Where the receiver of a field stands. -/
def Place.inner (field : String) : Place → Place
  | .callee => .receiver
  | .receiver | .object true _ => .object true field
  | _ => .object false field

/-- What is looked up at a place: a whole type, the name of a structure, or a name. -/
inductive Atom
  | type (t : Ty)
  | path (name : String)
  | name (place : Place) (name : String)

/-- The names that are bound around a place, the innermost first. -/
structure Ctx where
  generics : List String
  locals : List String

def Ctx.bind (c : Ctx) (names : List String) : Ctx := { c with locals := names ++ c.locals }

def Ctx.generic (c : Ctx) (names : List String) : Ctx := { c with generics := names ++ c.generics }

/-- A use of names, and whether the substitution comes to it. -/
structure Use where
  visited : Bool
  ctx : Ctx
  atom : Atom

def Use.unvisit (u : Use) : Use := { u with visited := false }

def typeUse (c : Ctx) (t : Ty) : Use := ⟨true, c, .type t⟩

def nameUse (c : Ctx) (place : Place) (name : String) : Use := ⟨true, c, .name place name⟩

def pathUse (c : Ctx) (name : String) : Use := ⟨true, c, .path name⟩

/-- The name after the dots of a pattern. -/
def restNames : Option RestPattern → List String
  | some ⟨some name⟩ => [name]
  | _ => []

mutual

/-- The names that a pattern binds. -/
def patternNames : Pattern → List String
  | .wildcard | .literal _ | .unitPath _ _ => []
  | .binding name => [name]
  | .typeBinding _ name => name.toList
  | .tupleStruct _ _ ps rest => patternsNames ps ++ restNames rest
  | .recordStruct _ _ fields _ => fieldPatternsNames fields
  | .tuple ps rest | .list ps rest => patternsNames ps ++ restNames (rest.map (·.2))
  | .or ps => patternsNames ps

def patternsNames : List Pattern → List String
  | [] => []
  | p :: ps => patternNames p ++ patternsNames ps

def fieldPatternsNames : List FieldPattern → List String
  | [] => []
  | .shorthand name :: fields => name :: fieldPatternsNames fields
  | .full _ p :: fields => patternNames p ++ fieldPatternsNames fields

end

/-- The names that parameters bind. -/
def paramNames : List Param → List String
  | [] => []
  | .selfParam :: ps => paramNames ps
  | .normal name _ :: ps | .untyped name :: ps => name :: paramNames ps

/-- The names that the parameters of a closure bind: with none, the name `it`. -/
def closureNames : List Param → List String
  | [] => ["it"]
  | ps => paramNames ps

/-- The names that the statements of a block bind for what follows them. -/
def stmtsNames : List Stmt → List String
  | [] => []
  | .var p _ _ :: stmts => stmtsNames stmts ++ patternNames p
  | _ :: stmts => stmtsNames stmts

mutual

/-- The uses in an expression. -/
def exprUses (c : Ctx) (place : Place) : Expr → List Use
  | .lit _ | .selfExpr | .underscore | .continueExpr => []
  | .ident name => [nameUse c place name]
  | .str parts => partsUses c parts
  | .tuple es | .list es => exprsUses c es
  | .paren e | .unary _ e | .tupleIndex e _ | .tryExpr e | .ref e | .deref e | .await e
  | .spawn e => exprUses c .value e
  | .field e name => exprUses c (place.inner name) e
  | .mapLit items => mapItemsUses c items
  | .structLit path generics fields spread =>
    pathUse c path :: (generics.map (typeUse c) ++ fieldsUses c fields ++ optUses c spread)
  | .binary _ l r | .index l r => exprUses c .value l ++ exprUses c .value r
  | .cast _ e t => exprUses c .value e ++ [typeUse c t]
  | .call callee generics args closure =>
    exprUses c .callee callee ++ generics.map (typeUse c) ++ exprsUses c args ++ optUses c closure
  | .ifExpr i t e => exprUses c .value i ++ blockUses c t ++ optUses c e
  | .matchExpr s arms => exprUses c .value s ++ armsUses c arms
  | .block b | .loop b | .asyncBlock b => blockUses c b
  | .whileLoop i b => exprUses c .value i ++ blockUses c b
  | .forLoop p _ i b =>
    exprUses c .value i ++ patternUses c p ++ blockUses (c.bind (patternNames p)) b
  | .returnExpr v | .breakExpr v => optUses c v
  | .closure ps t _ body =>
    paramsUses c ps ++ t.toList.map (typeUse c) ++ exprUses (c.bind (closureNames ps)) .value body
  | .anonFn f => functionUses c f
  | .macroCall _ _ args b => argsUses c args ++ optBlockUses c b

def exprsUses (c : Ctx) : List Expr → List Use
  | [] => []
  | e :: es => exprUses c .value e ++ exprsUses c es

def optUses (c : Ctx) : Option Expr → List Use
  | none => []
  | some e => exprUses c .value e

def partsUses (c : Ctx) : List StringPart → List Use
  | [] => []
  | .text _ :: parts => partsUses c parts
  | .ident name :: parts => nameUse c .value name :: partsUses c parts
  | .expr e :: parts => exprUses c .value e ++ partsUses c parts

def mapItemsUses (c : Ctx) : List MapItem → List Use
  | [] => []
  | .entry k v :: items => exprUses c .value k ++ exprUses c .value v ++ mapItemsUses c items
  | .spread e :: items => exprUses c .value e ++ mapItemsUses c items

/-- A field without a value is the value of its name. -/
def fieldsUses (c : Ctx) : List FieldInit → List Use
  | [] => []
  | .mk name none :: fields => nameUse c .value name :: fieldsUses c fields
  | .mk _ (some e) :: fields => exprUses c .value e ++ fieldsUses c fields

def argsUses (c : Ctx) : List AttrArg → List Use
  | [] => []
  | .positional e :: args | .named _ e :: args => exprUses c .value e ++ argsUses c args

def patternUses (c : Ctx) : Pattern → List Use
  | .wildcard | .binding _ => []
  | .literal e => exprUses c .value e
  | .typeBinding t _ => [typeUse c t]
  | .unitPath path generics => pathUse c path :: generics.map (typeUse c)
  | .tupleStruct path generics ps _ =>
    pathUse c path :: (generics.map (typeUse c) ++ patternsUses c ps)
  | .recordStruct path generics fields _ =>
    pathUse c path :: (generics.map (typeUse c) ++ fieldPatternsUses c fields)
  | .tuple ps _ | .list ps _ | .or ps => patternsUses c ps

def patternsUses (c : Ctx) : List Pattern → List Use
  | [] => []
  | p :: ps => patternUses c p ++ patternsUses c ps

def fieldPatternsUses (c : Ctx) : List FieldPattern → List Use
  | [] => []
  | .shorthand _ :: fields => fieldPatternsUses c fields
  | .full _ p :: fields => patternUses c p ++ fieldPatternsUses c fields

/-- The uses in statements: a variable is bound in what follows it. -/
def stmtsUses (c : Ctx) : List Stmt → List Use
  | [] => []
  | .var p t e :: stmts =>
    t.toList.map (typeUse c) ++ exprUses c .value e ++ patternUses c p ++
      stmtsUses (c.bind (patternNames p)) stmts
  | .assign l r :: stmts => exprUses c .value l ++ exprUses c .value r ++ stmtsUses c stmts
  | .expr e :: stmts => exprUses c .value e ++ stmtsUses c stmts
  | .item it :: stmts => itemUses c it ++ stmtsUses c stmts

def blockUses (c : Ctx) : Block → List Use
  | .mk stmts e => stmtsUses c stmts ++ optUses (c.bind (stmtsNames stmts)) e

def optBlockUses (c : Ctx) : Option Block → List Use
  | none => []
  | some b => blockUses c b

def armsUses (c : Ctx) : List MatchArm → List Use
  | [] => []
  | .mk p g e :: arms =>
    patternUses c p ++ optUses (c.bind (patternNames p)) g ++
      exprUses (c.bind (patternNames p)) .value e ++ armsUses c arms

/-- The bounds and defaults of generic parameters: no substitution comes there. -/
def genericsUses (c : Ctx) : List GenericParam → List Use
  | [] => []
  | .mk _ bounds t :: generics =>
    (bounds ++ t.toList).map (Use.unvisit ∘ typeUse c) ++ genericsUses c generics

def paramsUses (c : Ctx) : List Param → List Use
  | [] => []
  | .selfParam :: ps | .untyped _ :: ps => paramsUses c ps
  | .normal _ t :: ps => typeUse c t :: paramsUses c ps

/-- The uses in a function, which binds its generic parameters and its parameters. -/
def functionUses (c : Ctx) : FunctionItem → List Use
  | .mk _ generics ps t _ body =>
    genericsUses (c.generic (generics.map genericName)) generics ++
      paramsUses (c.generic (generics.map genericName)) ps ++
      t.toList.map (typeUse (c.generic (generics.map genericName))) ++
      optBlockUses ((c.generic (generics.map genericName)).bind (paramNames ps)) body

def structFieldsUses (c : Ctx) : List StructField → List Use
  | [] => []
  | .mk _ _ _ t :: fields => typeUse c t :: structFieldsUses c fields

def membersUses (c : Ctx) : List Member → List Use
  | [] => []
  | .mk _ _ f :: members => functionUses c f ++ membersUses c members

def kindUses (c : Ctx) : ItemKind → List Use
  | .var _ t e => t.toList.map (typeUse c) ++ exprUses c .value e
  | .function f | .externFunction f => functionUses c f
  | .struct _ generics _ _ fields =>
    genericsUses (c.generic (generics.map genericName)) generics ++
      structFieldsUses (c.generic (generics.map genericName)) fields
  | .interface _ generics supers members =>
    genericsUses (c.generic (generics.map genericName)) generics ++
      supers.map (typeUse (c.generic (generics.map genericName))) ++
      membersUses (c.generic (generics.map genericName)) members
  | .typeAlias _ generics t =>
    genericsUses (c.generic (generics.map genericName)) generics ++
      [typeUse (c.generic (generics.map genericName)) t]
  | .extend generics target interfaces members =>
    genericsUses (c.generic (generics.map genericName)) generics ++
      (target :: interfaces).map (typeUse (c.generic (generics.map genericName))) ++
      membersUses (c.generic (generics.map genericName)) members
  | .externVar _ t => [typeUse c t]
  | .test _ _ b => blockUses c b
  | .externalModule _ | .inlineModule _ _ | .externType _ | .importItem _ _ => []

/-- The uses in an item of a block: no substitution comes there. -/
def itemUses (c : Ctx) : Item → List Use
  | .mk _ _ kind => (kindUses c kind).map Use.unvisit

end

/-- The uses in a method. -/
def methodUses : Member → List Use
  | .mk _ _ f => functionUses ⟨[], []⟩ f

/-! ## What they denote -/

/-- What a type denotes; the length of an array is a literal or wrong. -/
inductive Meaning (E : Type)
  | unknown
  | primitive (t : sema.Ty)
  | generic (i : Nat)
  | outer (name : String)
  | unbound (name : String)
  | named (e : E) (args : List (Meaning E))
  | tuple (elems : List (Meaning E))
  | function (params : List (Meaning E)) (ret : Meaning E) (isExtern : Bool)
  | union (elems : List (Meaning E))
  | pointer (inner : Meaning E)
  | array (elem : Meaning E) (len : Option Lit)
  | selfType

/-- What the name of a type stands for: a type, or a declaration that takes arguments. -/
inductive Sense (E : Type)
  | type (m : Meaning E)
  | decl (e : E)

variable {E : Type}

def Sense.apply : Sense E → List (Meaning E) → Meaning E
  | .type m, _ => m
  | .decl e, args => .named e args

/-- The length of an array, where it is a literal. -/
def lenMeaning : Expr → Option Lit
  | .lit l => some l
  | _ => none

section Types

variable (look : String → Sense E)

mutual

def meanType : Ty → Meaning E
  | .named name generics => (look name).apply (meanTypes generics)
  | .tuple ts => .tuple (meanTypes ts)
  | .function ps t => .function (meanTypes ps) (meanType t) false
  | .externFunction ps t => .function (meanTypes ps) (meanType t) true
  | .union ts => .union (meanTypes ts)
  | .pointer t => .pointer (meanType t)
  | .array t len => .array (meanType t) (lenMeaning len)
  | .selfType => .selfType
  | .paren t => meanType t

def meanTypes : List Ty → List (Meaning E)
  | [] => []
  | t :: ts => meanType t :: meanTypes ts

end

end Types

/-- What a module binds: its types, its values and its namespaces, declared or imported. -/
structure Scope (E : Type) where
  types : String → Option E
  values : String → Option E
  spaces : String → Option E

/-- A scope with the generic parameters around a method. -/
structure Env (E : Type) where
  scope : Scope E
  bound : String → Option (Meaning E)

/-- What the name of a type stands for below the generic parameters of the method. -/
def Env.look (v : Env E) (generics : List String) (name : String) : Sense E :=
  match sema.primitive name with
  | some t => .type (.primitive t)
  | none =>
    if generics.contains name then .type (.generic (generics.idxOf name))
    else
      match v.bound name with
      | some m => .type m
      | none =>
        match v.scope.types name with
        | some e => .decl e
        | none => .type .unknown

/-- What a use denotes. -/
inductive Denotes (E : Type)
  | type (m : Meaning E)
  | path (e : Option E)
  | local (i : Nat)
  | value (e : Option E)
  | callee (type value : Option E)
  | space (e : E)
  | static (s : Sense E)
  | object (space value : Option E)

/-- What a receiver that is no local denotes. -/
def Env.receiver (v : Env E) (generics : List String) (name : String) : Denotes E :=
  match v.scope.spaces name with
  | some e => .space e
  | none =>
    match v.look generics name with
    | .type .unknown => .value (v.scope.values name)
    | s => .static s

/-- `num_constant_of`. -/
def numConstantOf (tyname name : String) : Bool :=
  if (sema.IntTy.fromName tyname).isSome then name ∈ ["MIN", "MAX"]
  else (sema.FloatTy.fromName tyname).isSome && name ∈ ["INFINITY", "NEG_INFINITY", "NAN"]

/-- What a name that is no local denotes. -/
def Env.global (v : Env E) (generics : List String) (name : String) : Place → Denotes E
  | .value => .value (v.scope.values name)
  | .callee => .callee (v.scope.types name) (v.scope.values name)
  | .receiver => v.receiver generics name
  | .object nested field => .object (if nested then v.scope.spaces name else none)
    (if numConstantOf name field then none else v.scope.values name)

def Env.denote (v : Env E) (u : Use) : Denotes E :=
  match u.atom with
  | .type t => .type (meanType (v.look u.ctx.generics) t)
  | .path name => .path (v.scope.types name)
  | .name place name =>
    if u.ctx.locals.contains name then .local (u.ctx.locals.idxOf name)
    else v.global u.ctx.generics name place

end compiler.defaults
