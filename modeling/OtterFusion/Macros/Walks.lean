-- What the walk through a body does to the uses of macros, for any rules about its computations
-- and any relation between the uses before and after that reads them place by place. The proof
-- follows the syntax once; what a call becomes is left to its hypothesis.
import OtterFusion.Base.Rules
import OtterFusion.Macros.Engine

namespace macros

open base.rules
open compiler.ast (Span)
open compiler.syntax

/-- A relation between the uses before and after that holds of equal ones, and of two places
together when it holds of each. -/
structure Placewise (S : List String → List String → Prop) : Prop where
  same : ∀ l, S l l
  append : ∀ {a a' b b'}, S a a' → S b b' → S (a ++ b) (a' ++ b')

variable {W : Type} {user : String → Bool}
  {expand : String → Span → List AttrArg → Option Block → M W Expr}
  {R : Rules (M W)} {S : List String → List String → Prop}

/-- What is asked of a call: its output, walked, against the arguments and the block before their
walk. -/
def CallsAgree (R : Rules (M W)) (S : List String → List String → Prop) (user : String → Bool)
    (expand : String → Span → List AttrArg → Option Block → M W Expr) : Prop :=
  ∀ name span args b args' b', user name = true →
    S (argsUses user true args) (argsUses user false args') →
    S (optBlockUses user true b) (optBlockUses user false b') →
    R.Holds (expand name span args' b') fun e =>
      S (argsUses user true args ++ optBlockUses user true b) (exprUses user false e)

/-- What the proof about a walk takes: the relation reads place by place, and a call is as asked. -/
structure WalkAgrees (R : Rules (M W)) (S : List String → List String → Prop)
    (user : String → Bool) (expand : String → Span → List AttrArg → Option Block → M W Expr) :
    Prop extends Placewise S where
  calls : CallsAgree R S user expand

section Walk

variable (hS : WalkAgrees R S user expand)

include hS

mutual

theorem walkExpr_agrees : ∀ e : Expr, R.Holds (walkExpr user expand e) fun e' =>
    S (exprUses user true e) (exprUses user false e')
  | .lit _ | .ident _ | .selfExpr | .underscore | .continueExpr | .str _ => by
    exact R.value (hS.same _)
  | .tuple es | .list es => by
    exact R.one (walkExprs_agrees es) fun _ h => h
  | .paren e | .unary _ e | .field e _ | .tupleIndex e _ | .tryExpr e | .ref e | .deref e
  | .await e | .spawn e => by
    exact R.one (walkExpr_agrees e) fun _ h => h
  | .mapLit items => by
    exact R.one (walkMapItems_agrees items) fun _ h => h
  | .structLit path generics fields spread => by
    apply R.two (walkFields_agrees fields) (walkOpt_agrees spread)
    intro fields' spread' hf hs
    exact hS.append (hS.append (hS.same _) hf) hs
  | .binary _ l r | .index l r => by
    exact R.two (walkExpr_agrees l) (walkExpr_agrees r) fun _ _ hl hr => hS.append hl hr
  | .cast _ e t => by
    exact R.one (walkExpr_agrees e) fun _ h => hS.append h (hS.same _)
  | .call callee generics args closure => by
    apply R.three (walkExpr_agrees callee) (walkExprs_agrees args) (walkOpt_agrees closure)
    intro callee' args' closure' h ha hcl
    exact hS.append (hS.append (hS.append h (hS.same _)) ha) hcl
  | .ifExpr c t e => by
    apply R.three (walkExpr_agrees c) (walkBlock_agrees t) (walkOpt_agrees e)
    intro c' t' e' hc' ht he
    exact hS.append (hS.append hc' ht) he
  | .matchExpr s arms => by
    exact R.two (walkExpr_agrees s) (walkArms_agrees arms) fun _ _ hs ha => hS.append hs ha
  | .block b | .loop b | .asyncBlock b => by
    exact R.one (walkBlock_agrees b) fun _ h => h
  | .whileLoop c b => by
    exact R.two (walkExpr_agrees c) (walkBlock_agrees b) fun _ _ h hb => hS.append h hb
  | .forLoop p isAsync i b => by
    apply R.two (walkExpr_agrees i) (walkBlock_agrees b)
    intro i' b' hi hb
    exact hS.append (hS.append (hS.same _) hi) hb
  | .returnExpr v | .breakExpr v => by
    exact R.one (walkOpt_agrees v) fun _ h => h
  | .closure ps t _ body => by
    exact R.one (walkExpr_agrees body) fun _ h => hS.append (hS.same _) h
  | .anonFn f => by
    exact R.one (walkFunction_agrees f) fun _ h => h
  | .macroCall name span args b => by
    cases hu : user name with
    | true =>
      rw [walkExpr_call hu, exprUses_call_reached user hu]
      apply R.seq (walkArgs_agrees args)
      intro args' ha
      apply R.seq (walkOptBlock_agrees b)
      intro b' hb
      exact hS.calls name span args b args' b' hu ha hb
    | false =>
      rw [walkExpr_other_call hu]
      apply R.value
      rw [exprUses_other_call user hu]
      exact hS.same _

theorem walkExprs_agrees : ∀ es : List Expr, R.Holds (walkExprs user expand es) fun es' =>
    S (exprsUses user true es) (exprsUses user false es')
  | [] => by
    exact R.value (hS.same _)
  | e :: es => by
    exact R.two (walkExpr_agrees e) (walkExprs_agrees es) fun _ _ h hs => hS.append h hs

theorem walkOpt_agrees : ∀ e : Option Expr, R.Holds (walkOpt user expand e) fun e' =>
    S (optUses user true e) (optUses user false e')
  | none => by
    exact R.value (hS.same _)
  | some e => by
    exact R.one (walkExpr_agrees e) fun _ h => h

theorem walkMapItems_agrees : ∀ items : List MapItem,
    R.Holds (walkMapItems user expand items) fun items' =>
      S (mapItemsUses user true items) (mapItemsUses user false items')
  | [] => by
    exact R.value (hS.same _)
  | .entry k v :: items => by
    apply R.three (walkExpr_agrees k) (walkExpr_agrees v) (walkMapItems_agrees items)
    intro k' v' items' hk hv hi
    exact hS.append (hS.append hk hv) hi
  | .spread e :: items => by
    exact R.two (walkExpr_agrees e) (walkMapItems_agrees items) fun _ _ h hi => hS.append h hi

theorem walkFields_agrees : ∀ fields : List FieldInit,
    R.Holds (walkFields user expand fields) fun fields' =>
      S (fieldsUses user true fields) (fieldsUses user false fields')
  | [] => by
    exact R.value (hS.same _)
  | .mk name v :: fields => by
    exact R.two (walkOpt_agrees v) (walkFields_agrees fields) fun _ _ h hf => hS.append h hf

theorem walkArgs_agrees : ∀ args : List AttrArg, R.Holds (walkArgs user expand args) fun args' =>
    S (argsUses user true args) (argsUses user false args')
  | [] => by
    exact R.value (hS.same _)
  | .positional e :: args | .named _ e :: args => by
    exact R.two (walkExpr_agrees e) (walkArgs_agrees args) fun _ _ h ha => hS.append h ha

theorem walkStmts_agrees : ∀ stmts : List Stmt, R.Holds (walkStmts user expand stmts) fun stmts' =>
    S (stmtsUses user true stmts) (stmtsUses user false stmts')
  | [] => by
    exact R.value (hS.same _)
  | .var p t e :: stmts => by
    apply R.two (walkExpr_agrees e) (walkStmts_agrees stmts)
    intro e' stmts' he hs
    exact hS.append (hS.append (hS.same _) he) hs
  | .assign l r :: stmts => by
    apply R.three (walkExpr_agrees l) (walkExpr_agrees r) (walkStmts_agrees stmts)
    intro l' r' stmts' hl hr hs
    exact hS.append (hS.append hl hr) hs
  | .expr e :: stmts => by
    exact R.two (walkExpr_agrees e) (walkStmts_agrees stmts) fun _ _ h hs => hS.append h hs
  | .item it :: stmts => by
    exact R.two (walkItem_agrees it) (walkStmts_agrees stmts) fun _ _ h hs => hS.append h hs

theorem walkBlock_agrees : ∀ b : Block, R.Holds (walkBlock user expand b) fun b' =>
    S (blockUses user true b) (blockUses user false b')
  | .mk stmts e => by
    exact R.two (walkStmts_agrees stmts) (walkOpt_agrees e) fun _ _ hs h => hS.append hs h

theorem walkOptBlock_agrees : ∀ b : Option Block, R.Holds (walkOptBlock user expand b) fun b' =>
    S (optBlockUses user true b) (optBlockUses user false b')
  | none => by
    exact R.value (hS.same _)
  | some b => by
    exact R.one (walkBlock_agrees b) fun _ h => h

theorem walkArms_agrees : ∀ arms : List MatchArm, R.Holds (walkArms user expand arms) fun arms' =>
    S (armsUses user true arms) (armsUses user false arms')
  | [] => by
    exact R.value (hS.same _)
  | .mk p g e :: arms => by
    apply R.three (walkOpt_agrees g) (walkExpr_agrees e) (walkArms_agrees arms)
    intro g' e' arms' hg he ha
    exact hS.append (hS.append (hS.append (hS.same _) hg) he) ha

theorem walkFunction_agrees : ∀ f : FunctionItem,
    R.Holds (walkFunction user expand f) fun f' =>
      S (functionUses user true f) (functionUses user false f')
  | .mk name generics ps t isAsync body => by
    exact R.one (walkOptBlock_agrees body) fun _ h => hS.append (hS.same _) h

theorem walkMembers_agrees : ∀ members : List Member,
    R.Holds (walkMembers user expand members) fun members' =>
      S (membersUses user true members) (membersUses user false members')
  | [] => by
    exact R.value (hS.same _)
  | .mk attrs isPublic f :: members => by
    apply R.two (walkFunction_agrees f) (walkMembers_agrees members)
    intro f' members' hf hm
    exact hS.append (hS.append (hS.same _) hf) hm

theorem walkItem_agrees : ∀ it : Item, R.Holds (walkItem user expand it) fun it' =>
    S (itemUses user true it) (itemUses user false it')
  | .mk attrs isPublic kind => by
    exact R.one (walkKind_agrees kind) fun _ h => hS.append (hS.same _) h

theorem walkKind_agrees : ∀ kind : ItemKind, R.Holds (walkKind user expand kind) fun kind' =>
    S (kindUses user true kind) (kindUses user false kind')
  | .var name t e => by
    exact R.one (walkExpr_agrees e) fun _ h => hS.append (hS.same _) h
  | .function f => by
    exact R.one (walkFunction_agrees f) fun _ h => h
  | .extend generics target interfaces members => by
    exact R.one (walkMembers_agrees members) fun _ h => hS.append (hS.same _) h
  | .interface name generics supers members => by
    exact R.one (walkMembers_agrees members) fun _ h => hS.append (hS.same _) h
  | .test name isBench b => by
    exact R.one (walkBlock_agrees b) fun _ h => h
  | .inlineModule name items => by
    exact R.one (walkItems_agrees items) fun _ h => h
  | .struct _ _ _ _ _ | .typeAlias _ _ _ | .externalModule _ | .externFunction _ | .externType _
  | .externVar _ _ | .importItem _ _ => by
    exact R.value (hS.same _)

theorem walkItems_agrees : ∀ items : List Item, R.Holds (walkItems user expand items) fun items' =>
    S (itemsUses user true items) (itemsUses user false items')
  | [] => by
    exact R.value (hS.same _)
  | it :: items => by
    exact R.two (walkItem_agrees it) (walkItems_agrees items) fun _ _ h hs => hS.append h hs

end

end Walk

end macros
