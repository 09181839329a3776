-- Direct calls that the backend replaces by the body of the callee (`try_inline_direct_call` and
-- `inline_expr_cost` of `gen_hir.rs`), and the walk over the forms that such a body has.
import OtterFusion.Backend.Representation
import OtterFusion.Base.StraightLine

open compiler.sema base.straightline

namespace backend.inline

/-- `LocalId`. Each function of a program has locals of its own. -/
abbrev LocalId := Nat

/-- `Value` of the function builder, written once. -/
abbrev ValueId := Nat

/-! ## Typed expressions -/

/-- `UnaryOp`. -/
inductive UnaryOp
  | neg | not
  deriving DecidableEq, Repr

/-- `BinaryOp`. -/
inductive BinaryOp
  | add | sub | mul | div | rem | eq | ne | lt | le | gt | ge | and | or
  | bitAnd | bitOr | bitXor | shl | shr
  deriving DecidableEq, Repr

/-- `CastOp`: `as` and `is`. -/
inductive CastOp
  | asOp | isOp
  deriving DecidableEq, Repr

/-- `NumIntrinsic`. -/
inductive NumIntrinsic
  | intBound (ty : Ty) (max : Bool)
  | floatConst (ty : Ty) (kind : Nat)
  | floatPred (ty : Ty) (kind : Nat)
  | intArith (ty : Ty) (family op : Nat)

/-- `Expr`, with its type. The forms that no inlined body has are one form, with a number for what
it is and the locals that closures inside it capture. -/
inductive Expr
  | int (ty : Ty) (v : Nat)
  | float (ty : Ty) (bits : Nat)
  | bool (ty : Ty) (b : Bool)
  | char (ty : Ty) (c : Nat)
  | null (ty : Ty)
  | name (ty : Ty) (l : LocalId)
  | unary (ty : Ty) (op : UnaryOp) (operand : Expr) (overloaded : Bool)
  | binary (ty : Ty) (op : BinaryOp) (left right : Expr) (overloaded : Bool)
  | cast (ty : Ty) (op : CastOp) (expr : Expr) (target : Ty)
  | num (ty : Ty) (intr : NumIntrinsic) (args : List Expr)
  | call (ty : Ty) (d : DefId) (typeArgs : List Ty) (args : List Expr)
  | other (ty : Ty) (form : Nat) (captures : List LocalId)

def Expr.ty : Expr → Ty
  | .int ty _ | .float ty _ | .bool ty _ | .char ty _ | .null ty | .name ty _ | .unary ty _ _ _
  | .binary ty _ _ _ _ | .cast ty _ _ _ | .num ty _ _ | .call ty _ _ _ | .other ty _ _ => ty

/-- `StmtKind`: a `let` that binds one local, not to a slot of the stack, or another statement. -/
inductive Stmt
  | bind (l : LocalId) (init : Expr)
  | other (form : Nat) (captures : List LocalId)

/-- A block: its statements and its trailing expression. -/
structure Body where
  stmts : List Stmt
  trailing : Option Expr

structure FnSig where
  params : List (LocalId × Ty)
  ret : Ty
  asyncOutput : Option Ty := none

mutual

/-- The locals that closures in an expression capture. -/
def Expr.captures : Expr → List LocalId
  | .unary _ _ e _ | .cast _ _ e _ => e.captures
  | .binary _ _ l r _ => l.captures ++ r.captures
  | .num _ _ args | .call _ _ _ args => capturesAll args
  | .other _ _ ls => ls
  | _ => []

def Expr.capturesAll : List Expr → List LocalId
  | [] => []
  | e :: es => e.captures ++ capturesAll es

end

def Stmt.captures : Stmt → List LocalId
  | .bind _ init => init.captures
  | .other _ ls => ls

def Body.captures (body : Body) : List LocalId :=
  body.stmts.flatMap Stmt.captures ++ (body.trailing.map Expr.captures).getD []

/-! ## The cost of a body -/

/-- `usize::MAX`: no cost at all. -/
def noCost : Nat := 18446744073709551615

/-- `saturating_add`. -/
def satAdd (a b : Nat) : Nat := min (a + b) noCost

mutual

/-- `inline_expr_cost_inner`. -/
def inlineExprCost (allowed : List LocalId) : Expr → Nat
  | .int .. | .float .. | .bool .. | .char .. | .null _ => 1
  | .name _ l => if l ∈ allowed then 1 else noCost
  | .unary _ _ e overloaded =>
    if overloaded then noCost else satAdd (inlineExprCost allowed e) 1
  | .binary _ op l r overloaded =>
    if overloaded ∨ op = .and ∨ op = .or then noCost
    else
      let l := inlineExprCost allowed l
      let r := inlineExprCost allowed r
      if l = noCost ∨ r = noCost then noCost else satAdd (satAdd l r) 1
  | .cast _ .asOp e _ => satAdd (inlineExprCost allowed e) 1
  | .num _ _ args => inlineArgsCost allowed 1 args
  | _ => noCost

/-- The loop over the arguments of a numeric intrinsic. -/
def inlineArgsCost (allowed : List LocalId) (cost : Nat) : List Expr → Nat
  | [] => cost
  | e :: es =>
    let c := inlineExprCost allowed e
    if c = noCost then noCost else inlineArgsCost allowed (satAdd cost c) es

end

/-! ## Emitted code -/

/-- The operations of the value-level helpers, which every walk shares. -/
inductive Prim
  | intConst (ct : ClType) (v : Nat)
  | floatConst (single : Bool) (bits : Nat)
  | unary (op : UnaryOp) (isFloat isBool : Bool)
  | binop (op : BinaryOp) (lty : Ty)
  | narrow (ids : List Int) (unboxed : Option ClType)
  | downcast (id : Int)
  | widenDyn (source iface : Ty)
  | stringify (source : Ty)
  | convert (source target : Ty)
  | num (intr : NumIntrinsic)

/-- What an instruction does: an operation of a helper, a cell of a captured local, a copy of an
extern struct into the heap, a call, or the end of the code. -/
inductive Op
  | prim (p : Prim)
  | alloc (managed : Bool)
  | store
  | load (ct : ClType)
  | heapCopy (ty : Ty)
  | call (d : DefId) (typeArgs : List Ty)
  | panic (msg : String)
  | ret
  | trap

abbrev Code := List (Instr Op)

/-- The builder of a function, with the tables of the walk. Only captured locals have cells. -/
structure Builder (captured : List LocalId) where
  code : Code
  nextValue : ValueId
  nextVar : Nat
  vars : LocalId → Option Nat
  cells : LocalId → Option ClType
  cells_captured : ∀ l, cells l ≠ none → l ∈ captured
  ifaceConcretes : LocalId → Option Ty
  owned : List LocalId
  term : Bool

/-- No code: an error of the walk, an instruction behind the end of a block, or no end of inlining.
-/
inductive Halt
  | error (msg : String)
  | filled
  | endless
  deriving DecidableEq

/-- A step of the walk. -/
abbrev Emit (captured : List LocalId) := StateT (Builder captured) (Except Halt)

namespace Builder

variable {captured : List LocalId}

/-- A builder at the start of a function with `n` parameters. -/
def entry (captured : List LocalId) (n : Nat) : Builder captured where
  code := []
  nextValue := n
  nextVar := 0
  vars := fun _ => none
  cells := fun _ => none
  cells_captured := fun _ h => absurd rfl h
  ifaceConcretes := fun _ => none
  owned := []
  term := false

/-- The builder with another instruction, which writes the next value. -/
def push (b : Builder captured) (i : ValueId → Instr Op) : Builder captured :=
  { b with code := b.code ++ [i b.nextValue], nextValue := b.nextValue + 1 }

/-- The tables of the walk as they are in another builder. -/
def restore (b saved : Builder captured) : Builder captured :=
  { b with
    vars := saved.vars
    cells := saved.cells
    cells_captured := saved.cells_captured
    ifaceConcretes := saved.ifaceConcretes }

end Builder

section Emit

variable {captured : List LocalId} {A : Type}

def fail (h : Halt) : Emit captured A := fun _ => .error h

/-- An instruction, in a block that has not ended. -/
def emit (o : Op) (args : List ValueId) : Emit captured ValueId := fun b =>
  if b.term then .error .filled else .ok (b.nextValue, b.push fun dst => .op dst o args)

/-- An instruction that ends the block. -/
def terminate (o : Op) (args : List ValueId) : Emit captured Unit := fun b =>
  if b.term then .error .filled
  else .ok ((), { b.push fun dst => .op dst o args with term := true })

/-- `use_var`. -/
def useVar (x : Nat) : Emit captured ValueId := fun b =>
  .ok (b.nextValue, b.push fun dst => .use dst x)

/-- `def_var`. -/
def defVar (x : Nat) (v : ValueId) : Emit captured Unit := fun b =>
  .ok ((), { b with code := b.code ++ [.define x v] })

/-- The value of an operand, which must have one. -/
def operand (msg : String) (x : Emit captured (Option ValueId)) : Emit captured ValueId := do
  match ← x with
  | some v => pure v
  | none => fail (.error msg)

/-- Another value for one local. -/
def setAt (f : LocalId → Option A) (l : LocalId) (a : Option A) : LocalId → Option A :=
  fun l' => if l' = l then a else f l'

/-- `fresh_var`: a captured local gets a variable for its cell. -/
def freshVar (valueCaptures : List LocalId) (l : LocalId) (ct : ClType) :
    Emit captured Nat := fun b =>
  if h : l ∈ captured ∧ l ∉ valueCaptures then
    .ok (b.nextVar, { b with
      nextVar := b.nextVar + 1
      vars := setAt b.vars l (some b.nextVar)
      cells := setAt b.cells l (some ct)
      cells_captured := fun l' hl' => by
        by_cases hl : l' = l
        · exact hl ▸ h.1
        · refine b.cells_captured l' ?_
          rwa [setAt, if_neg hl] at hl' })
  else
    .ok (b.nextVar, { b with nextVar := b.nextVar + 1, vars := setAt b.vars l (some b.nextVar) })

end Emit

/-! ## Programs -/

structure Program where
  types : TypeDefs
  parent : DefId → Option DefId
  fnSigs : DefId → Option FnSig
  bodies : DefId → Option Body
  localTy : LocalId → Option Ty
  capturedLocals : List LocalId
  directCallCounts : DefId → Nat

/-- What the walk of one function knows: its substitution, whether it is the `poll` of a future, the
locals that it captured by value, and its result. -/
structure FnCtx where
  subst : Subst
  asyncOut : Bool
  valueCaptures : List LocalId
  retTy : Ty

/-- The rest of the walk: the other forms, the counts of `@RefCounted` values and of channels, and
which operations and calls the helpers lower. -/
structure Walk (captured : List LocalId) where
  expr : FnCtx → Expr → Emit captured (Option ValueId)
  stmt : FnCtx → Stmt → Emit captured Unit
  concrete : FnCtx → Expr → Option Ty
  manageBind : FnCtx → LocalId → Expr → ValueId → Emit captured Unit
  manageReturn : FnCtx → Expr → ValueId → Emit captured Unit
  releaseOwned : FnCtx → Emit captured Unit
  lowers : Prim → Bool
  declares : DefId → List Ty → Option Bool

end backend.inline
