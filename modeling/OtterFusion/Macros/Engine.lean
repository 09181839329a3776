-- The expansion of the procedural macros of a program (`engine.rs`). The compiled macros are a
-- parameter: what a call of one makes of the handles of the process, and the node it returns. So
-- are the check that the macros use no `std:` name and the compiler of the macros, which come
-- before the expansion. What a macro prints as a warning or a note is left out.
import OtterFusion.Macros.Uses

namespace macros

open compiler.ast (Span)
open compiler.syntax

/-! ## Nodes, macros and errors -/

/-- `RESERVED_ATTRS`. -/
def reservedAttrs : List String :=
  ["Derive", "derive", "ProcMacro", "Transparent", "Packed", "Align", "Union", "RefCounted",
    "CallConv", "Link"]

/-- `DEFAULT_RECURSION_LIMIT`. -/
def defaultRecursionLimit : Nat := 128

/-- `SemaError` with a message. -/
structure SemaError where
  span : Span
  message : String
  deriving DecidableEq

/-- `Node`: what a macro gets and what it returns. -/
inductive Node
  | item (it : Item)
  | items (items : List Item)
  | expr (e : Expr)
  | args (es : List Expr)
  | block (b : Block)
  | ident (name : String)
  | errorMarker

/-- `item_kind`. -/
def itemKind : ItemKind → String
  | .var _ _ _ => "var"
  | .function _ => "function"
  | .struct _ _ _ _ _ => "struct"
  | .interface _ _ _ _ => "interface"
  | .typeAlias _ _ _ => "type"
  | .externalModule _ | .inlineModule _ _ => "mod"
  | .extend _ _ _ _ => "extend"
  | .externFunction _ | .externType _ | .externVar _ _ => "extern"
  | .importItem _ _ => "import"
  | .test _ _ _ => "test"

/-- `expr_kind`. -/
def exprKind : Expr → String
  | .lit (.int _) => "int"
  | .lit (.float _) => "float"
  | .lit (.bool _) => "bool"
  | .str _ => "str"
  | .lit (.char _) => "char"
  | .lit .null => "null"
  | .ident _ => "ident"
  | .selfExpr => "self"
  | .call _ _ _ _ => "call"
  | .field _ _ => "field"
  | .binary _ _ _ => "binary"
  | .unary _ _ => "unary"
  | _ => "expr"

/-- `node_kind`. -/
def Node.kind : Node → String
  | .item it => itemKind it.kind
  | .items _ => "items"
  | .args _ => "args"
  | .expr e => exprKind e
  | .block _ => "block"
  | .ident _ => "ident"
  | .errorMarker => "error"

/-- `DiagLevel`. -/
inductive DiagLevel
  | error | warn | note
  deriving DecidableEq

/-- `MacroDiag`. -/
structure MacroDiag where
  level : DiagLevel
  span : Span
  message : String
  deriving DecidableEq

/-- `MacroCtx`: the arguments by position and by name. -/
structure MacroCtx where
  invocationSpan : Span
  args : List Expr
  kwargs : List (String × Expr)

/-- A compiled entry: from the handles in use, the context and the input to the handles after it,
the diagnostics, and the node behind the handle that it returns. -/
abbrev Entry (W : Type) := W → MacroCtx → Node → W × List MacroDiag × Option Node

variable {W : Type}

/-- A part of an expansion: from the handles in use to its value, the handles after it, and the
errors that it adds behind those before it. -/
def M (W A : Type) := W → A × W × List SemaError

instance : Monad (M W) where
  pure a := fun w => (a, w, [])
  bind x f := fun w =>
    let r := x w
    let r' := f r.1 r.2.1
    (r'.1, r'.2.1, r.2.2 ++ r'.2.2)

instance : LawfulMonad (M W) :=
  LawfulMonad.mk' (M W)
    (fun x => funext fun w => by simp [Functor.map, Function.comp])
    (fun _ _ => rfl)
    (fun x f g => funext fun w => by simp [bind])

/-- One more error. -/
def report (e : SemaError) : M W Unit := fun w => ((), w, [e])

/-- `positional_exprs`. -/
def positionalExprs : List AttrArg → List Expr
  | [] => []
  | .positional e :: args => e :: positionalExprs args
  | .named _ _ :: args => positionalExprs args

/-- The arguments by name. -/
def namedExprs : List AttrArg → List (String × Expr)
  | [] => []
  | .positional _ :: args => namedExprs args
  | .named name e :: args => (name, e) :: namedExprs args

/-- The errors among the diagnostics. -/
def errorsOf (diags : List MacroDiag) : List SemaError :=
  (diags.filter fun d => d.level = .error).map fun d => ⟨d.span, d.message⟩

/-- `MacroOutcome`. -/
structure MacroOutcome where
  node : Option Node
  hadError : Bool

/-- Whether the node is an error marker. -/
def isMarker : Option Node → Bool
  | some .errorMarker => true
  | _ => false

/-- `invoke_macro`. -/
def invokeMacro (jit : String → Option (Entry W)) (name : String) (args : List AttrArg)
    (input : Node) (span : Span) : M W MacroOutcome := fun w =>
  let entry := "__macro_entry_" ++ name
  match jit entry with
  | none =>
    (⟨none, true⟩, w, [⟨span, "internal error: macro entry `" ++ entry ++ "` was not compiled"⟩])
  | some f =>
    let out := f w ⟨span, positionalExprs args, namedExprs args⟩ input
    let errors := errorsOf out.2.1
    (⟨out.2.2, !errors.isEmpty || isMarker out.2.2⟩, out.1, errors)

/-! ## The walk through a body -/

section Walk

variable (user : String → Bool) (expand : String → Span → List AttrArg → Option Block → M W Expr)

mutual

/-- `walk_expr`: the parts of an expression, and then the call itself with `expand`. -/
def walkExpr : Expr → M W Expr
  | .lit l => pure (.lit l)
  | .str parts => pure (.str parts)
  | .ident name => pure (.ident name)
  | .selfExpr => pure .selfExpr
  | .underscore => pure .underscore
  | .continueExpr => pure .continueExpr
  | .tuple es => do return .tuple (← walkExprs es)
  | .list es => do return .list (← walkExprs es)
  | .paren e => do return .paren (← walkExpr e)
  | .mapLit items => do return .mapLit (← walkMapItems items)
  | .structLit path generics fields spread => do
    let fields ← walkFields fields
    return .structLit path generics fields (← walkOpt spread)
  | .unary op e => do return .unary op (← walkExpr e)
  | .binary op l r => do
    let l ← walkExpr l
    return .binary op l (← walkExpr r)
  | .cast op e t => do return .cast op (← walkExpr e) t
  | .field e name => do return .field (← walkExpr e) name
  | .tupleIndex e n => do return .tupleIndex (← walkExpr e) n
  | .call callee generics args closure => do
    let callee ← walkExpr callee
    let args ← walkExprs args
    return .call callee generics args (← walkOpt closure)
  | .index e i => do
    let e ← walkExpr e
    return .index e (← walkExpr i)
  | .tryExpr e => do return .tryExpr (← walkExpr e)
  | .ref e => do return .ref (← walkExpr e)
  | .deref e => do return .deref (← walkExpr e)
  | .await e => do return .await (← walkExpr e)
  | .spawn e => do return .spawn (← walkExpr e)
  | .ifExpr c t e => do
    let c ← walkExpr c
    let t ← walkBlock t
    return .ifExpr c t (← walkOpt e)
  | .matchExpr s arms => do
    let s ← walkExpr s
    return .matchExpr s (← walkArms arms)
  | .block b => do return .block (← walkBlock b)
  | .loop b => do return .loop (← walkBlock b)
  | .whileLoop c b => do
    let c ← walkExpr c
    return .whileLoop c (← walkBlock b)
  | .forLoop p isAsync i b => do
    let i ← walkExpr i
    return .forLoop p isAsync i (← walkBlock b)
  | .returnExpr v => do return .returnExpr (← walkOpt v)
  | .breakExpr v => do return .breakExpr (← walkOpt v)
  | .closure ps t isAsync body => do return .closure ps t isAsync (← walkExpr body)
  | .anonFn f => do return .anonFn (← walkFunction f)
  | .asyncBlock b => do return .asyncBlock (← walkBlock b)
  | .macroCall name span args b =>
    if user name then do
      let args ← walkArgs args
      let b ← walkOptBlock b
      expand name span args b
    else pure (.macroCall name span args b)

def walkExprs : List Expr → M W (List Expr)
  | [] => pure []
  | e :: es => do
    let e ← walkExpr e
    return e :: (← walkExprs es)

def walkOpt : Option Expr → M W (Option Expr)
  | none => pure none
  | some e => do return some (← walkExpr e)

def walkMapItems : List MapItem → M W (List MapItem)
  | [] => pure []
  | .entry k v :: items => do
    let k ← walkExpr k
    let v ← walkExpr v
    return .entry k v :: (← walkMapItems items)
  | .spread e :: items => do
    let e ← walkExpr e
    return .spread e :: (← walkMapItems items)

def walkFields : List FieldInit → M W (List FieldInit)
  | [] => pure []
  | .mk name v :: fields => do
    let v ← walkOpt v
    return .mk name v :: (← walkFields fields)

def walkArgs : List AttrArg → M W (List AttrArg)
  | [] => pure []
  | .positional e :: args => do
    let e ← walkExpr e
    return .positional e :: (← walkArgs args)
  | .named name e :: args => do
    let e ← walkExpr e
    return .named name e :: (← walkArgs args)

/-- `walk_stmt`, one statement after the other. -/
def walkStmts : List Stmt → M W (List Stmt)
  | [] => pure []
  | .var p t e :: stmts => do
    let e ← walkExpr e
    return .var p t e :: (← walkStmts stmts)
  | .assign l r :: stmts => do
    let l ← walkExpr l
    let r ← walkExpr r
    return .assign l r :: (← walkStmts stmts)
  | .expr e :: stmts => do
    let e ← walkExpr e
    return .expr e :: (← walkStmts stmts)
  | .item it :: stmts => do
    let it ← walkItem it
    return .item it :: (← walkStmts stmts)

/-- `walk_block`. -/
def walkBlock : Block → M W Block
  | .mk stmts e => do
    let stmts ← walkStmts stmts
    return .mk stmts (← walkOpt e)

def walkOptBlock : Option Block → M W (Option Block)
  | none => pure none
  | some b => do return some (← walkBlock b)

def walkArms : List MatchArm → M W (List MatchArm)
  | [] => pure []
  | .mk p g e :: arms => do
    let g ← walkOpt g
    let e ← walkExpr e
    return .mk p g e :: (← walkArms arms)

/-- The body of a function. -/
def walkFunction : FunctionItem → M W FunctionItem
  | .mk name generics ps t isAsync body => do
    return .mk name generics ps t isAsync (← walkOptBlock body)

def walkMembers : List Member → M W (List Member)
  | [] => pure []
  | .mk attrs isPublic f :: members => do
    let f ← walkFunction f
    return .mk attrs isPublic f :: (← walkMembers members)

/-- `walk_item`. -/
def walkItem : Item → M W Item
  | .mk attrs isPublic kind => do return .mk attrs isPublic (← walkKind kind)

def walkKind : ItemKind → M W ItemKind
  | .var name t e => do return .var name t (← walkExpr e)
  | .function f => do return .function (← walkFunction f)
  | .extend generics target interfaces members => do
    return .extend generics target interfaces (← walkMembers members)
  | .interface name generics supers members => do
    return .interface name generics supers (← walkMembers members)
  | .test name isBench b => do return .test name isBench (← walkBlock b)
  | .inlineModule name items => do return .inlineModule name (← walkItems items)
  | .struct name generics isExtern kind fields => pure (.struct name generics isExtern kind fields)
  | .typeAlias name generics t => pure (.typeAlias name generics t)
  | .externalModule name => pure (.externalModule name)
  | .externFunction f => pure (.externFunction f)
  | .externType name => pure (.externType name)
  | .externVar name t => pure (.externVar name t)
  | .importItem kind path => pure (.importItem kind path)

def walkItems : List Item → M W (List Item)
  | [] => pure []
  | it :: items => do
    let it ← walkItem it
    return it :: (← walkItems items)

end

variable {user expand} {name : String} {span : Span} {args : List AttrArg} {b : Option Block}

theorem walkExpr_call (h : user name = true) :
    walkExpr user expand (.macroCall name span args b) = (do
      let args ← walkArgs user expand args
      let b ← walkOptBlock user expand b
      expand name span args b) :=
  if_pos h

theorem walkExpr_other_call (h : user name = false) :
    walkExpr user expand (.macroCall name span args b) = pure (.macroCall name span args b) :=
  if_neg (by simp [h])

end Walk

/-! ## The items of a module -/

/-- The bottom-most attribute that names a macro, and the others. -/
def takeMacro (user : String → Bool) : List Attribute → Option (Attribute × List Attribute)
  | [] => none
  | a :: attrs =>
    match takeMacro user attrs with
    | some (b, rest) => some (b, a :: rest)
    | none => if user a.name then some (a, attrs) else none

section Items

variable (decorate : Item → M W (List Item))

mutual

/-- One turn of `expand_items`: the items of a module inside the other, or what `decorate` puts in
the place of an item. -/
def expandItem : Item → M W (List Item)
  | .mk attrs isPublic (.inlineModule name items) => do
    return [.mk attrs isPublic (.inlineModule name (← expandItems items))]
  | it => decorate it

/-- `expand_items`. -/
def expandItems : List Item → M W (List Item)
  | [] => pure []
  | it :: items => do
    let out ← expandItem it
    return out ++ (← expandItems items)

end

end Items

/-! ## The expansion of one use

The expander counts the macros in its chain against the limit; `left` is what the limit leaves
over, and so the chain has `limit - left` names. -/

/-- The chain of a macro over the limit, shortened in the middle. -/
def chainPath (chain : List String) : String :=
  let names (l : List String) := " → ".intercalate (l.map ("@" ++ ·))
  let total := chain.length
  if 10 < total then
    names (chain.take 5) ++ " → … (" ++ toString (total - 8) ++ " more) → " ++
      names (chain.drop (total - 3))
  else names chain

/-- The error of `limit_exceeded`. -/
def limitError (limit : Nat) (chain : List String) (name : String) (span : Span) : SemaError :=
  ⟨span, "macro expansion exceeded the recursion limit of " ++ toString limit ++
    " (a macro likely re-emits its own invocation); chain: " ++ chainPath (chain ++ [name]) ++
    " (`docs/22` §10)"⟩

section Expand

variable (jit : String → Option (Entry W)) (user : String → Bool) (limit : Nat)

/-- The items that an outcome gives for a decorated item: the second half of `run_decorator`. -/
def decorated (attr : Attribute) (o : MacroOutcome) : M W (Option (List Item)) :=
  if o.hadError then pure none
  else
    match o.node with
    | none | some .errorMarker => pure none
    | some (.item it) => pure (some [it])
    | some (.items items) => pure (some items)
    | some other => do
      report ⟨attr.span, "macro `@" ++ attr.name ++
        "` in decorator position must return an item " ++
        "or items, but returned a `" ++ other.kind ++ "` node"⟩
      return none

/-- `run_decorator`. -/
def runDecorator (attr : Attribute) (it : Item) : M W (Option (List Item)) := do
  let o ← invokeMacro jit attr.name attr.args (.item it) attr.span
  decorated attr o

/-- The turn of `expand_items` at an item that is no module: its bottom-most macro goes first, and
the output is expanded one level deeper. -/
def decorate : Nat → List String → Item → M W (List Item)
  | left, chain, .mk attrs isPublic kind =>
    match takeMacro user attrs with
    | none => pure [.mk attrs isPublic kind]
    | some (attr, rest) =>
      match left with
      | 0 => do
        report (limitError limit chain attr.name attr.span)
        return [.mk rest isPublic kind]
      | left + 1 => do
        match ← runDecorator jit attr (.mk rest isPublic kind) with
        | some items => expandItems (decorate left (chain ++ [attr.name])) items
        | none => return [.mk rest isPublic kind]

/-- The input of a macro in a body. -/
def callInput (args : List AttrArg) : Option Block → Node
  | some b => .block b
  | none => .args (positionalExprs args)

/-- The expression that an outcome gives for a call; with none the call becomes `null`. -/
def replaced (name : String) (span : Span) (o : MacroOutcome) : M W (Option Expr) :=
  if o.hadError then pure none
  else
    match o.node with
    | some (.expr e) => pure (some e)
    | some (.block b) => pure (some (.block b))
    | none | some .errorMarker => pure none
    | some other => do
      report ⟨span, "macro `@" ++ name ++ "` in expression position must return an expression " ++
        "or block, but returned a `" ++ other.kind ++ "` node"⟩
      return none

/-- The end of `walk_expr` at a call of a macro: its output is walked one level deeper. -/
def expandCall : Nat → List String → String → Span → List AttrArg → Option Block → M W Expr
  | 0, chain, name, span, _, _ => do
    report (limitError limit chain name span)
    return .lit .null
  | left + 1, chain, name, span, args, b => do
    let o ← invokeMacro jit name args (callInput args b) span
    match ← replaced name span o with
    | some e => walkExpr user (expandCall left (chain ++ [name])) e
    | none => return .lit .null

end Expand

/-! ## A whole program -/

/-- A program: the items of its root and of its other modules, in the order of the map that keeps
these. -/
structure Program where
  root : List Item
  externals : List (List String × List Item)

/-- The items of all the modules. -/
def Program.items (p : Program) : List Item := p.root ++ p.externals.flatMap (·.2)

/-- The same function on the items of every module. -/
def Program.mapItems (f : List Item → M W (List Item)) (p : Program) : M W Program := do
  let root ← f p.root
  let externals ← p.externals.mapM fun m => do return (m.1, ← f m.2)
  return ⟨root, externals⟩

/-- `is_proc_macro`. -/
def isProcMacro : Item → Bool
  | .mk attrs _ (.function _) => attrs.any fun a => a.name = "ProcMacro"
  | _ => false

/-- `import_path`. -/
def importPath (path : List StringPart) : String :=
  String.join (path.map fun
    | .text text => text
    | _ => "")

/-- `imports_compiler_surface`, at an item. -/
def importsCompilerSurface : Item → Bool
  | .mk _ _ (.importItem _ path) => importPath path = "core:compiler"
  | _ => false

/-- What `strip_macro_definitions` takes out of a module. -/
def stripped (it : Item) : Bool := isProcMacro it || importsCompilerSurface it

mutual

/-- `strip_macro_definitions`. -/
def stripItems : List Item → List Item
  | [] => []
  | .mk attrs isPublic kind :: items =>
    if stripped (.mk attrs isPublic kind) then stripItems items
    else .mk attrs isPublic (stripKind kind) :: stripItems items

def stripKind : ItemKind → ItemKind
  | .inlineModule name items => .inlineModule name (stripItems items)
  | kind => kind

end

/-- The definitions of the macros out of every module. -/
def Program.strip (p : Program) : Program :=
  ⟨stripItems p.root, p.externals.map fun m => (m.1, stripItems m.2)⟩

mutual

/-- `collect_macro_names`. -/
def collectMacroNames : List Item → List String
  | [] => []
  | .mk attrs isPublic kind :: items =>
    collectFrom (isProcMacro (.mk attrs isPublic kind)) kind ++ collectMacroNames items

def collectFrom (isMacro : Bool) : ItemKind → List String
  | .function (.mk name _ _ _ _ _) => if isMacro then [name] else []
  | .inlineModule _ items => collectMacroNames items
  | _ => []

end

/-- The macros that a program defines. -/
def Program.macroNames (p : Program) : List String := collectMacroNames p.items

/-- `is_user_macro`. -/
def isUserMacro (names : List String) (name : String) : Bool :=
  names.contains name && !reservedAttrs.contains name

/-- What the expansion is given besides the program: the check of the macros, their compiler, which
fails with one error at least, and the handles of a fresh process. -/
structure Host (W : Type) where
  sandboxViolations : Program → List SemaError
  buildMacroJit : Program → Except (SemaError × List SemaError) (String → Option (Entry W))
  start : W

/-- The passes of an expansion: the items of all modules, and then their bodies. -/
def expandProgram (jit : String → Option (Entry W)) (user : String → Bool) (limit : Nat)
    (p : Program) : M W Program := do
  let p ← p.mapItems (expandItems (decorate jit user limit limit []))
  p.mapItems (walkItems user (expandCall jit user limit limit []))

/-- `expand_user_macros`: the program that it leaves, and the errors. -/
def expandUserMacros (host : Host W) (recursionLimit : Option Nat) (p : Program) :
    Program × List SemaError :=
  if p.macroNames.isEmpty then (p, [])
  else if !(host.sandboxViolations p).isEmpty then (p, host.sandboxViolations p)
  else
    match host.buildMacroJit p with
    | .error (e, errors) => (p, e :: errors)
    | .ok jit =>
      let limit := recursionLimit.getD defaultRecursionLimit
      let (out, _, errors) := expandProgram jit (isUserMacro p.macroNames) limit p host.start
      (out.strip, errors)

variable {host : Host W} {p : Program}

/-- With macros that pass their check and compile, the expansion ends after both passes. -/
theorem expandUserMacros_ok {jit : String → Option (Entry W)} (recursionLimit : Option Nat)
    (hn : p.macroNames ≠ []) (hs : host.sandboxViolations p = [])
    (hj : host.buildMacroJit p = .ok jit) :
    expandUserMacros host recursionLimit p =
      let r := expandProgram jit (isUserMacro p.macroNames)
        (recursionLimit.getD defaultRecursionLimit) p host.start
      (r.1.strip, r.2.2) := by
  unfold expandUserMacros
  rw [if_neg (by simpa using hn), if_neg (by simp [hs]), hj]

/-- An expansion with macros that adds no error comes to its end. -/
theorem of_expandUserMacros_errors {recursionLimit : Option Nat} (hn : p.macroNames ≠ [])
    (he : (expandUserMacros host recursionLimit p).2 = []) :
    host.sandboxViolations p = [] ∧ ∃ jit, host.buildMacroJit p = .ok jit := by
  unfold expandUserMacros at he
  rw [if_neg (by simpa using hn)] at he
  split at he
  · rename_i hs
    have he' : host.sandboxViolations p = [] := he
    rw [he'] at hs
    cases hs
  · rename_i hs
    refine ⟨by simpa using hs, ?_⟩
    cases hj : host.buildMacroJit p with
    | error e =>
      rw [hj] at he
      cases he
    | ok jit => exact ⟨jit, rfl⟩

end macros
