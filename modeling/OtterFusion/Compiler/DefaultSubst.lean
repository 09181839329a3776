-- What the substitution does to the uses of names in a body: each use stays where it is, below the
-- same bound names, and only a whole type that the substitution comes to is another. The proof
-- follows the syntax once.
import OtterFusion.Compiler.DefaultNames

namespace compiler.defaults

open compiler.syntax

section Subst

variable (subst : List (String × Ty)) (shadow : List String)

/-- A use in the copy. -/
def Use.copied (u : Use) : Use :=
  match u.visited, u.atom with
  | true, .type t => { u with atom := .type (substType subst shadow t) }
  | _, _ => u

/-- The uses of the copy are those of the original, each in its place. -/
def Follows (l l' : List Use) : Prop := l' = l.map (Use.copied subst shadow)

variable {subst shadow} {c : Ctx}

theorem follows_nil : Follows subst shadow [] [] := rfl

theorem Follows.append {a a' b b' : List Use} (h : Follows subst shadow a a')
    (h' : Follows subst shadow b b') : Follows subst shadow (a ++ b) (a' ++ b') := by
  unfold Follows at *
  rw [List.map_append, h, h']

theorem follows_name (place : Place) (name : String) :
    Follows subst shadow [nameUse c place name] [nameUse c place name] :=
  rfl

theorem follows_path (name : String) : Follows subst shadow [pathUse c name] [pathUse c name] :=
  rfl

theorem follows_type (t : Ty) :
    Follows subst shadow [typeUse c t] [typeUse c (substType subst shadow t)] :=
  rfl

theorem follows_types : ∀ ts : List Ty,
    Follows subst shadow (ts.map (typeUse c)) ((substTypes subst shadow ts).map (typeUse c))
  | [] => follows_nil
  | t :: ts => (follows_type t).append (follows_types ts)

theorem follows_optType : ∀ t : Option Ty, Follows subst shadow (t.toList.map (typeUse c))
    ((substOptType subst shadow t).toList.map (typeUse c))
  | none => follows_nil
  | some t => follows_type t

theorem follows_unvisited (l : List Use) :
    Follows subst shadow (l.map Use.unvisit) (l.map Use.unvisit) := by
  unfold Follows
  rw [List.map_map]
  apply List.map_congr_left
  intro u _
  rfl

theorem follows_generics : ∀ generics : List GenericParam,
    Follows subst shadow (genericsUses c generics) (genericsUses c generics)
  | [] => follows_nil
  | .mk _ bounds t :: generics => by
    refine Follows.append ?_ (follows_generics generics)
    rw [← List.map_map]
    exact follows_unvisited _

/-! ## The bound names -/

mutual

theorem patternNames_subst : ∀ p : Pattern,
    patternNames (substPattern subst shadow p) = patternNames p
  | .wildcard | .literal _ | .unitPath _ _ | .binding _ | .typeBinding _ _ => rfl
  | .tupleStruct _ _ ps _ | .tuple ps _ | .list ps _ =>
    congrArg (· ++ _) (patternsNames_subst ps)
  | .recordStruct _ _ fields _ => fieldPatternsNames_subst fields
  | .or ps => patternsNames_subst ps

theorem patternsNames_subst : ∀ ps : List Pattern,
    patternsNames (substPatterns subst shadow ps) = patternsNames ps
  | [] => rfl
  | p :: ps => congrArg₂ (· ++ ·) (patternNames_subst p) (patternsNames_subst ps)

theorem fieldPatternsNames_subst : ∀ fields : List FieldPattern,
    fieldPatternsNames (substFieldPatterns subst shadow fields) = fieldPatternsNames fields
  | [] => rfl
  | .shorthand name :: fields => congrArg (name :: ·) (fieldPatternsNames_subst fields)
  | .full _ p :: fields =>
    congrArg₂ (· ++ ·) (patternNames_subst p) (fieldPatternsNames_subst fields)

end

theorem paramNames_subst : ∀ ps : List Param,
    paramNames (substParams subst shadow ps) = paramNames ps
  | [] => rfl
  | .selfParam :: ps => paramNames_subst ps
  | .normal name _ :: ps | .untyped name :: ps => congrArg (name :: ·) (paramNames_subst ps)

theorem closureNames_subst (ps : List Param) :
    closureNames (substParams subst shadow ps) = closureNames ps := by
  cases ps with
  | nil => rfl
  | cons p ps =>
    have h : paramNames (substParams subst shadow (p :: ps)) = paramNames (p :: ps) :=
      paramNames_subst (p :: ps)
    cases p <;> exact h

theorem stmtsNames_subst : ∀ stmts : List Stmt,
    stmtsNames (substStmts subst shadow stmts) = stmtsNames stmts
  | [] => rfl
  | .var p _ _ :: stmts => congrArg₂ (· ++ ·) (stmtsNames_subst stmts) (patternNames_subst p)
  | .assign _ _ :: stmts | .expr _ :: stmts | .item _ :: stmts => stmtsNames_subst stmts

/-! ## The walk -/

mutual

theorem exprUses_subst (c : Ctx) (place : Place) : ∀ e : Expr,
    Follows subst shadow (exprUses c place e) (exprUses c place (substExpr subst shadow e))
  | .lit _ | .selfExpr | .underscore | .continueExpr => follows_nil
  | .ident name => follows_name place name
  | .str parts => partsUses_subst c parts
  | .tuple es | .list es => exprsUses_subst c es
  | .paren e | .unary _ e | .tupleIndex e _ | .tryExpr e | .ref e | .deref e | .await e
  | .spawn e => exprUses_subst c .value e
  | .field e name => exprUses_subst c (place.inner name) e
  | .mapLit items => mapItemsUses_subst c items
  | .structLit path generics fields spread =>
    (follows_path path).append
      (((follows_types generics).append (fieldsUses_subst c fields)).append
        (optUses_subst c spread))
  | .binary _ l r | .index l r => (exprUses_subst c .value l).append (exprUses_subst c .value r)
  | .cast _ e t => (exprUses_subst c .value e).append (follows_type t)
  | .call callee generics args closure =>
    (((exprUses_subst c .callee callee).append (follows_types generics)).append
      (exprsUses_subst c args)).append (optUses_subst c closure)
  | .ifExpr i t e =>
    ((exprUses_subst c .value i).append (blockUses_subst c t)).append (optUses_subst c e)
  | .matchExpr s arms => (exprUses_subst c .value s).append (armsUses_subst c arms)
  | .block b | .loop b | .asyncBlock b => blockUses_subst c b
  | .whileLoop i b => (exprUses_subst c .value i).append (blockUses_subst c b)
  | .forLoop p _ i b => by
    refine ((exprUses_subst c .value i).append (patternUses_subst c p)).append ?_
    rw [patternNames_subst]
    exact blockUses_subst _ b
  | .returnExpr v | .breakExpr v => optUses_subst c v
  | .closure ps t _ body => by
    refine ((paramsUses_subst c ps).append (follows_optType t)).append ?_
    rw [closureNames_subst]
    exact exprUses_subst _ .value body
  | .anonFn f => functionUses_subst c f
  | .macroCall _ _ args b => (argsUses_subst c args).append (optBlockUses_subst c b)

theorem exprsUses_subst (c : Ctx) : ∀ es : List Expr,
    Follows subst shadow (exprsUses c es) (exprsUses c (substExprs subst shadow es))
  | [] => follows_nil
  | e :: es => (exprUses_subst c .value e).append (exprsUses_subst c es)

theorem optUses_subst (c : Ctx) : ∀ e : Option Expr,
    Follows subst shadow (optUses c e) (optUses c (substOpt subst shadow e))
  | none => follows_nil
  | some e => exprUses_subst c .value e

theorem partsUses_subst (c : Ctx) : ∀ parts : List StringPart,
    Follows subst shadow (partsUses c parts) (partsUses c (substParts subst shadow parts))
  | [] => follows_nil
  | .text _ :: parts => partsUses_subst c parts
  | .ident name :: parts => (follows_name .value name).append (partsUses_subst c parts)
  | .expr e :: parts => (exprUses_subst c .value e).append (partsUses_subst c parts)

theorem mapItemsUses_subst (c : Ctx) : ∀ items : List MapItem,
    Follows subst shadow (mapItemsUses c items) (mapItemsUses c (substMapItems subst shadow items))
  | [] => follows_nil
  | .entry k v :: items =>
    ((exprUses_subst c .value k).append (exprUses_subst c .value v)).append
      (mapItemsUses_subst c items)
  | .spread e :: items => (exprUses_subst c .value e).append (mapItemsUses_subst c items)

theorem fieldsUses_subst (c : Ctx) : ∀ fields : List FieldInit,
    Follows subst shadow (fieldsUses c fields) (fieldsUses c (substFields subst shadow fields))
  | [] => follows_nil
  | .mk name none :: fields => (follows_name .value name).append (fieldsUses_subst c fields)
  | .mk _ (some e) :: fields => (exprUses_subst c .value e).append (fieldsUses_subst c fields)

theorem argsUses_subst (c : Ctx) : ∀ args : List AttrArg,
    Follows subst shadow (argsUses c args) (argsUses c (substArgs subst shadow args))
  | [] => follows_nil
  | .positional e :: args | .named _ e :: args =>
    (exprUses_subst c .value e).append (argsUses_subst c args)

theorem patternUses_subst (c : Ctx) : ∀ p : Pattern,
    Follows subst shadow (patternUses c p) (patternUses c (substPattern subst shadow p))
  | .wildcard | .binding _ => follows_nil
  | .literal e => exprUses_subst c .value e
  | .typeBinding t _ => follows_type t
  | .unitPath path generics => (follows_path path).append (follows_types generics)
  | .tupleStruct path generics ps _ =>
    (follows_path path).append ((follows_types generics).append (patternsUses_subst c ps))
  | .recordStruct path generics fields _ =>
    (follows_path path).append ((follows_types generics).append (fieldPatternsUses_subst c fields))
  | .tuple ps _ | .list ps _ | .or ps => patternsUses_subst c ps

theorem patternsUses_subst (c : Ctx) : ∀ ps : List Pattern,
    Follows subst shadow (patternsUses c ps) (patternsUses c (substPatterns subst shadow ps))
  | [] => follows_nil
  | p :: ps => (patternUses_subst c p).append (patternsUses_subst c ps)

theorem fieldPatternsUses_subst (c : Ctx) : ∀ fields : List FieldPattern,
    Follows subst shadow (fieldPatternsUses c fields)
      (fieldPatternsUses c (substFieldPatterns subst shadow fields))
  | [] => follows_nil
  | .shorthand _ :: fields => fieldPatternsUses_subst c fields
  | .full _ p :: fields => (patternUses_subst c p).append (fieldPatternsUses_subst c fields)

theorem stmtsUses_subst (c : Ctx) : ∀ stmts : List Stmt,
    Follows subst shadow (stmtsUses c stmts) (stmtsUses c (substStmts subst shadow stmts))
  | [] => follows_nil
  | .var p t e :: stmts => by
    refine (((follows_optType t).append (exprUses_subst c .value e)).append
      (patternUses_subst c p)).append ?_
    rw [patternNames_subst]
    exact stmtsUses_subst _ stmts
  | .assign l r :: stmts =>
    ((exprUses_subst c .value l).append (exprUses_subst c .value r)).append
      (stmtsUses_subst c stmts)
  | .expr e :: stmts => (exprUses_subst c .value e).append (stmtsUses_subst c stmts)
  | .item (.mk _ _ _) :: stmts => (follows_unvisited _).append (stmtsUses_subst c stmts)

theorem blockUses_subst (c : Ctx) : ∀ b : Block,
    Follows subst shadow (blockUses c b) (blockUses c (substBlock subst shadow b))
  | .mk stmts e => by
    refine (stmtsUses_subst c stmts).append ?_
    rw [stmtsNames_subst]
    exact optUses_subst _ e

theorem optBlockUses_subst (c : Ctx) : ∀ b : Option Block,
    Follows subst shadow (optBlockUses c b) (optBlockUses c (substOptBlock subst shadow b))
  | none => follows_nil
  | some b => blockUses_subst c b

theorem armsUses_subst (c : Ctx) : ∀ arms : List MatchArm,
    Follows subst shadow (armsUses c arms) (armsUses c (substArms subst shadow arms))
  | [] => follows_nil
  | .mk p g e :: arms => by
    refine Follows.append ?_ (armsUses_subst c arms)
    rw [patternNames_subst]
    exact ((patternUses_subst c p).append (optUses_subst _ g)).append (exprUses_subst _ .value e)

theorem paramsUses_subst (c : Ctx) : ∀ ps : List Param,
    Follows subst shadow (paramsUses c ps) (paramsUses c (substParams subst shadow ps))
  | [] => follows_nil
  | .selfParam :: ps | .untyped _ :: ps => paramsUses_subst c ps
  | .normal _ t :: ps => (follows_type t).append (paramsUses_subst c ps)

theorem functionUses_subst (c : Ctx) : ∀ f : FunctionItem,
    Follows subst shadow (functionUses c f) (functionUses c (substFunctionTypes subst shadow f))
  | .mk _ generics ps t _ body => by
    refine (((follows_generics generics).append (paramsUses_subst _ ps)).append
      (follows_optType t)).append ?_
    rw [paramNames_subst]
    exact optBlockUses_subst _ body

end

end Subst

end compiler.defaults
