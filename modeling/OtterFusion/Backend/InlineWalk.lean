-- The walk of `gen_hir.rs` over the forms of inlined bodies, the replacement of a call by a body,
-- and the code of a function.
import OtterFusion.Backend.Inline

open compiler.sema base.straightline

namespace backend.inline

/-! ## Casts -/

/-- The value of a cast: its operand, what the operation yields, or none. -/
inductive CastResult
  | operand | fresh | absent
  deriving DecidableEq

/-- The branches of `emit_cast`, with the error for an operand without a value. -/
inductive CastForm
  | pointer
  | same (missing : String)
  | prim (p : Prim) (result : CastResult) (missing : String)

/-- The numeric conversions of `emit_cast`. -/
def isConversion : Ty → Ty → Bool
  | .int _, .int _ | .int _, .char | .char, .int _ | .int _, .float _ | .float _, .int _
  | .float _, .float _ => true
  | _, _ => false

namespace Program

variable (P : Program)

def isInterfaceTy (subst : Subst) (t : Ty) : Bool :=
  backend.isInterfaceTy P.types.isInterface subst t

/-- The case analysis of `emit_cast`, with `gen_union_narrow` and `gen_dyn_downcast`. -/
def castForm (subst : Subst) (source target : Ty) : CastForm :=
  if (npoUnion source).isSome ∨ (npoUnion target).isSome then .pointer
  else if isBoxed source then
    let ids := target.variants.map (typeIdOf subst)
    .prim (.narrow ids (P.types.cltyOf target))
      (if isBoxed target then .operand
        else if (P.types.cltyOf target).isSome then .fresh else .absent)
      "union operand has no value"
  else if P.isInterfaceTy subst source ∧ ¬ P.isInterfaceTy subst target then
    .prim (.downcast (typeIdOf subst target)) .fresh "interface operand has no value"
  else if ¬ P.isInterfaceTy subst source ∧ P.isInterfaceTy subst target then
    .prim (.widenDyn (resolveShallow subst source) (resolveShallow subst target)) .fresh
      "interface value has no data"
  else if target = .str then
    if source = .str then .same "cast operand has no value"
    else .prim (.stringify source) .fresh "cast operand has no value"
  else if isConversion source target then
    .prim (.convert source target) .fresh "cast operand has no value"
  else .same "cast operand has no value"

/-- `static_iface_cast_source_ty_allowed`. -/
def staticSourceAllowed (subst : Subst) (t : Ty) : Bool :=
  let t := resolveShallow subst t
  !P.isInterfaceTy subst t && !P.types.isRefcountedTy t &&
    (P.types.channelEndpointKindTy t).isNone &&
    match t with
    | .named d _ => (P.types.get d).kind = .struct
    | _ => false

/-- `static_iface_cast_target_allowed`. -/
def staticTargetAllowed (subst : Subst) (t : Ty) : Bool :=
  let t := resolveShallow subst t
  !P.isInterfaceTy subst t &&
    match t with
    | .named d _ => (P.types.get d).kind = .struct
    | _ => false

/-- Whether `h_static_iface_direct_cast` takes a cast of `source as iface`, which has the type
`mid`. -/
def staticDirect (subst : Subst) (source iface mid target : Ty) : Bool :=
  P.isInterfaceTy subst mid && P.isInterfaceTy subst iface && P.staticSourceAllowed subst source &&
    P.staticTargetAllowed subst target

/-- `scalar_inline_ty`. -/
def scalarInlineTy (subst : Subst) (t : Ty) : Bool :=
  let t := resolveShallow subst t
  (P.types.cltyOf t).isSome && !P.types.isManagedPtr t

/-- `int_ty_of`, for the types of a numeric intrinsic. -/
def resolveIntr (subst : Subst) : NumIntrinsic → NumIntrinsic
  | .intBound ty max => .intBound (resolveShallow subst ty) max
  | .floatConst ty kind => .floatConst ty kind
  | .floatPred ty kind => .floatPred ty kind
  | .intArith ty family op => .intArith (resolveShallow subst ty) family op

end Program

def isFloat : Ty → Bool
  | .float _ => true
  | _ => false

section Walk

variable (P : Program) (walk : Walk P.capturedLocals) (cx : FnCtx)

/-! ## Expressions -/

/-- An operation that a helper lowers. -/
def emitPrim (p : Prim) (args : List ValueId) : Emit P.capturedLocals ValueId :=
  if walk.lowers p then emit (.prim p) args else fail (.error "not lowerable")

/-- `emit_cast`. -/
def emitCast (v : Option ValueId) (source target : Ty) : Emit P.capturedLocals (Option ValueId) :=
  match P.castForm cx.subst source target, v with
  | .pointer, some v => pure (some v)
  | .pointer, none => do return some (← emit (.prim (.intConst ptrType 0)) [])
  | .same _, some v => pure (some v)
  | .same missing, none => fail (.error missing)
  | .prim p result _, some v => do
    let dst ← emitPrim P walk p [v]
    match result with
    | .operand => pure (some v)
    | .fresh => pure (some dst)
    | .absent => pure none
  | .prim _ _ missing, none => fail (.error missing)

/-- `finish_static_iface_cast_branch` of `as`, behind the source. -/
def finishStaticCast (v : Option ValueId) (source target : Ty) :
    Emit P.capturedLocals (Option ValueId) := do
  if (← get).term then pure none
  else if resolveShallow cx.subst source = resolveShallow cx.subst target then pure v
  else
    terminate (.panic "cast failed: interface object is not the requested type") []
    pure none

/-- `read_local`. -/
def readLocal (l : LocalId) : Emit P.capturedLocals ValueId := fun b =>
  match b.vars l with
  | none => .error (.error "use of unbound local")
  | some x =>
    match b.cells l with
    | none => useVar x b
    | some ct => (do let cell ← useVar x; emit (.load ct) [cell]) b

/-- `emit_call`. -/
def emitCall (d : DefId) (typeArgs : List Ty) (args : List ValueId) :
    Emit P.capturedLocals (Option ValueId) :=
  match walk.declares d typeArgs with
  | none => fail (.error "callee is not lowerable")
  | some hasResult => do
    let dst ← emit (.call d typeArgs) args
    pure (if hasResult then some dst else none)

/-- How a call of a function is replaced: `try_inline_direct_call`, which calls the walk again. -/
abbrev Inliner := DefId → List Ty → List ValueId → Emit P.capturedLocals (Option ValueId)

mutual

/-- `h_expr`. -/
def hExpr (inline : Inliner P) : Expr → Emit P.capturedLocals (Option ValueId)
  | .int ty v => do
    let ct := (P.types.cltyOf (resolveShallow cx.subst ty)).getD .i64
    return some (← emit (.prim (.intConst ct v)) [])
  | .float ty bits => do return some (← emit (.prim (.floatConst (ty = .float .f32) bits)) [])
  | .bool _ v => do return some (← emit (.prim (.intConst .i8 v.toNat)) [])
  | .char _ c => do return some (← emit (.prim (.intConst .i32 c)) [])
  | .null _ => pure none
  | .name _ l => do return some (← readLocal P l)
  | .unary ty op e _ => do
    let v ← operand "operand has no value" (hExpr inline e)
    return some (← emit (.prim (.unary op (isFloat ty) (ty = .bool))) [v])
  | .binary ty op l r overloaded =>
    if overloaded ∨ op = .and ∨ op = .or then walk.expr cx (.binary ty op l r overloaded)
    else do
      let a ← operand "operand has no value" (hExpr inline l)
      let b ← operand "operand has no value" (hExpr inline r)
      return some (← emit (.prim (.binop op l.ty)) [a, b])
  | .cast ty .isOp e target => walk.expr cx (.cast ty .isOp e target)
  | .cast ty .asOp (.other ty' form captures) target =>
    walk.expr cx (.cast ty .asOp (.other ty' form captures) target)
  | .cast ty .asOp e target => do
    let general := do emitCast P walk cx (← hExpr inline e) e.ty target
    match e with
    | .other ty' form captures => walk.expr cx (.cast ty .asOp (.other ty' form captures) target)
    | .cast mid .asOp source iface =>
      if P.staticDirect cx.subst source.ty iface mid target then
        finishStaticCast P cx (← hExpr inline source) source.ty target
      else general
    | _ => general
  | .num _ intr args => do
    let args ← hArgs inline "numeric intrinsic argument has no value" args
    return some (← emitPrim P walk (.num (Program.resolveIntr cx.subst intr)) args)
  | .call _ d typeArgs args => do
    let typeArgs := typeArgs.map (resolveShallow cx.subst)
    let args ← hArgs inline "argument has no value" args
    match ← inline d typeArgs args with
    | some v => pure (some v)
    | none => emitCall P walk d typeArgs args
  | .other ty form captures => walk.expr cx (.other ty form captures)

/-- The arguments in their order. -/
def hArgs (inline : Inliner P) (msg : String) : List Expr → Emit P.capturedLocals (List ValueId)
  | [] => pure []
  | e :: es => do
    let v ← operand msg (hExpr inline e)
    let vs ← hArgs inline msg es
    return v :: vs

end

/-! ## Statements -/

/-- `bind_local`. -/
def bindLocal (l : LocalId) (ct : ClType) (init : ValueId) : Emit P.capturedLocals Unit := do
  let x ← freshVar cx.valueCaptures l ct
  match (← get).cells l with
  | some _ =>
    let managed := (P.localTy l).any fun ty => P.types.isManagedPtr (resolveShallow cx.subst ty)
    let cell ← emit (.alloc managed) []
    let _ ← emit .store [init, cell]
    defVar x cell
  | none => defVar x init

/-- `iface_concrete_ty`. -/
def ifaceConcreteTy : Expr → Option Ty
  | .cast ty .asOp e target =>
    if P.isInterfaceTy cx.subst target then
      let concrete := resolveShallow cx.subst e.ty
      if P.isInterfaceTy cx.subst concrete then none else some concrete
    else walk.concrete cx (.cast ty .asOp e target)
  | e => walk.concrete cx e

/-- `note_iface_local_value`. -/
def noteIfaceLocalValue (l : LocalId) (value : Expr) : Emit P.capturedLocals Unit := fun b =>
  let concrete := do
    let ty ← P.localTy l
    if l ∉ P.capturedLocals ∧ P.isInterfaceTy cx.subst ty then ifaceConcreteTy P walk cx value
    else none
  .ok ((), { b with ifaceConcretes := setAt b.ifaceConcretes l concrete })

/-- Whether a binding is counted: `is_rc_local` and `channel_endpoint_kind`. -/
def isCounted (l : LocalId) (initTy : Ty) : Bool :=
  (l ∉ P.capturedLocals ∧
    (P.localTy l).any fun ty => P.types.isRefcountedTy (resolveShallow cx.subst ty)) ||
    (P.types.channelEndpointKindTy (resolveShallow cx.subst initTy)).isSome

/-- `h_stmt`, with `h_bind_pattern` of a local. -/
def hStmt (inline : Inliner P) : Stmt → Emit P.capturedLocals Unit
  | .bind l init => do
    match ← hExpr P walk cx inline init with
    | some v =>
      if isCounted P cx l init.ty then walk.manageBind cx l init v
      bindLocal P cx l ((P.types.cltyOf (resolveShallow cx.subst init.ty)).getD ptrType) v
    | none => pure ()
    noteIfaceLocalValue P walk cx l init
  | .other form captures => walk.stmt cx (.other form captures)

/-- `h_block`. -/
def hBlock (inline : Inliner P) (trailing : Option Expr) :
    List Stmt → Emit P.capturedLocals (Option ValueId)
  | [] => match trailing with
    | some e => hExpr P walk cx inline e
    | none => pure none
  | stmt :: stmts => do
    hStmt P walk cx inline stmt
    if (← get).term then pure none else hBlock inline trailing stmts

/-- `emit_return`. The value of an extern struct is the address of a block that may end with the
frame, so the block is copied into the heap. -/
def emitReturn (v : Option ValueId) : Emit P.capturedLocals Unit := do
  if (← get).term then pure ()
  else
    if (← get).owned ≠ [] then walk.releaseOwned cx
    let ret := resolveShallow cx.subst cx.retTy
    match v, P.types.cltyOf ret with
    | some v, ct =>
      if P.types.isExternStructTy ret then
        let copy ← emit (.heapCopy ret) [v]
        terminate .ret [copy]
      else terminate .ret (if ct.isSome then [v] else [])
    | none, some _ => terminate .trap []
    | none, none => terminate .ret []

/-- The parameters, bound to the first values. -/
def bindParams : List (LocalId × Ty) → ValueId → Emit P.capturedLocals Unit
  | [], _ => pure ()
  | (l, _) :: params, v =>
    match (P.localTy l).bind fun ty => P.types.cltyOf (resolveShallow cx.subst ty) with
    | some ct => do
      bindLocal P cx l ct v
      bindParams params (v + 1)
    | none => fail (.error "param clty")

/-- The function that `define_instance` builds, as far as it is not a future. -/
def hBody (inline : Inliner P) (sig : FnSig) (body : Body) : Emit P.capturedLocals Unit := do
  bindParams P cx sig.params 0
  let v ← hBlock P walk cx inline body.trailing body.stmts
  match body.trailing, v with
  | some e, some v =>
    let counted := P.types.isRefcountedTy (resolveShallow cx.subst e.ty)
    if counted ∨ (← get).owned ≠ [] then walk.manageReturn cx e v
  | _, _ => pure ()
  emitReturn P walk cx v

end Walk

/-! ## Inlining -/

section Inlining

variable (P : Program) (walk : Walk P.capturedLocals) (cx : FnCtx)

/-- The statements of a body that may be inlined: the cost, and the locals that are bound. -/
def stmtsCost (allowed : List LocalId) (cost : Nat) : List Stmt → Option (Nat × List LocalId)
  | [] => some (cost, allowed)
  | .bind l init :: stmts =>
    match P.localTy l with
    | none => none
    | some ty =>
      if !P.scalarInlineTy cx.subst ty || !P.scalarInlineTy cx.subst init.ty then none
      else
        let initCost := inlineExprCost allowed init
        if initCost = noCost then none
        else stmtsCost (l :: allowed) (satAdd (satAdd cost initCost) 1) stmts
  | .other .. :: _ => none

/-- A check that has to hold. -/
def require (p : Prop) [Decidable p] : Option Unit := if p then some () else none

/-- The body of a call that `try_inline_direct_call` replaces, with its trailing expression. -/
def inlinable (d : DefId) (typeArgs : List Ty) (args : List ValueId) :
    Option (FnSig × List Stmt × Expr) := do
  require (typeArgs = [] ∧ cx.asyncOut = false)
  let data := P.types.get d
  require (data.kind = .function ∧ P.parent d = none ∧ data.generics = [])
  let sig ← P.fnSigs d
  require (sig.asyncOutput = none ∧ sig.params.length = args.length)
  let body ← P.bodies d
  let e ← body.trailing
  require (P.scalarInlineTy cx.subst sig.ret = true)
  require (∀ param ∈ sig.params, P.scalarInlineTy cx.subst param.2 = true)
  let (cost, allowed) ← stmtsCost P cx (sig.params.map Prod.fst) 0 body.stmts
  let exprCost := inlineExprCost allowed e
  require (exprCost ≠ noCost)
  let cost := satAdd cost exprCost
  require (P.directCallCounts d = 1 ∧ cost ≤ 20 ∨ cost ≤ 3)
  return (sig, body.stmts, e)

/-- The parameters, bound to the values of the arguments. -/
def bindArgs : List (LocalId × Ty) → List ValueId → Emit P.capturedLocals Unit
  | (l, ty) :: params, v :: args =>
    match P.types.cltyOf ty with
    | some ct => do
      bindLocal P cx l ct v
      bindArgs params args
    | none => fail (.error "inline parameter is not lowerable")
  | _, _ => pure ()

/-- The statements of an inlined body. -/
def inlineStmts (inline : Inliner P) : List Stmt → Emit P.capturedLocals Unit
  | [] => pure ()
  | .bind l init :: stmts => do
    let v ← operand "inline local initializer has no value" (hExpr P walk cx inline init)
    match P.localTy l with
    | none => fail (.error "inline local has no type")
    | some ty =>
      match P.types.cltyOf ty with
      | none => fail (.error "inline local is not lowerable")
      | some ct => do
        bindLocal P cx l ct v
        inlineStmts inline stmts
  | .other .. :: stmts => inlineStmts inline stmts

/-- `try_inline_direct_call`, as far as inlining goes `n` calls deep. -/
def tryInlineDirectCall : Nat → Inliner P
  | 0, _, _, _ => fail .endless
  | n + 1, d, typeArgs, args =>
    match inlinable P cx d typeArgs args with
    | none => pure none
    | some (sig, stmts, e) => do
      let saved ← get
      bindArgs P cx sig.params args
      inlineStmts P walk cx (tryInlineDirectCall n) stmts
      let result ← hExpr P walk cx (tryInlineDirectCall n) e
      modify fun b => b.restore saved
      pure result

/-- The code of an instance of a function. -/
def compileFn (n : Nat) (d : DefId) (typeArgs : List Ty) : Except Halt Code :=
  match P.fnSigs d, P.bodies d with
  | some sig, some body =>
    let cx : FnCtx := ⟨(P.types.get d).generics.zip typeArgs, false, [], sig.ret⟩
    match hBody P walk cx (tryInlineDirectCall P walk cx n) sig body
        (Builder.entry _ sig.params.length) with
    | .ok (_, b) => .ok b.code
    | .error h => .error h
  | _, _ => .error (.error "function has no HIR body")

end Inlining

/-! ## Runs -/

/-- The heap, up to the next free address, and the rest of the world. -/
structure World (R : Type) where
  next : Nat
  mem : Nat → Nat
  rest : R

/-- How code stops. -/
inductive Stop
  | panic (msg : String)
  | returned (v : Option Nat)
  | trap
  | noCode
  | endless
  deriving DecidableEq

/-- The size of the block of an extern struct on the heap. -/
def blockSize (size : Nat) : Nat := max ((size + 7) / 8 * 8) 8

/-- `heap_copy_extern`. -/
def heapCopy {R : Type} (size : Nat) (v : Nat) (w : World R) : Nat × World R :=
  (w.next, { w with
    next := w.next + blockSize size
    mem := fun a =>
      if a < w.next ∨ w.next + blockSize size ≤ a then w.mem a
      else if a < w.next + size then w.mem (v + (a - w.next)) else 0 })

section Machine

variable {R : Type} (P : Program) (walk : Walk P.capturedLocals)
  (prim : Prim → List Nat → World R → Except String Nat × World R) (sizeof : Ty → Nat)

/-- An operation of a helper: it has a value, or panics. -/
def runPrim (p : Prim) (args : List Nat) (w : World R) : Outcome Stop Nat (World R) :=
  match prim p args w with
  | (.ok v, w') => .done v w'
  | (.error msg, w') => .stopped (.panic msg) w'

/-- One operation, of a machine with the operations `prim` of the helpers. -/
def sem (callee : DefId → List Ty → List Nat → World R → Outcome Stop Nat (World R)) :
    Op → List Nat → World R → Outcome Stop Nat (World R)
  | .prim p, args, w => runPrim prim p args w
  | .alloc _, _, w => .done w.next { w with next := w.next + 8 }
  | .store, args, w => .done 0 { w with mem := put w.mem (args.getD 1 0) (args.getD 0 0) }
  | .load _, args, w => .done (w.mem (args.getD 0 0)) w
  | .heapCopy ty, args, w =>
    let (v, w') := heapCopy (sizeof ty) (args.getD 0 0) w
    .done v w'
  | .call d typeArgs, args, w => callee d typeArgs args w
  | .panic msg, _, w => .stopped (.panic msg) w
  | .ret, args, w => .stopped (.returned args.head?) w
  | .trap, _, w => .stopped .trap w

/-- A call, of functions compiled with inlining `n` deep, as far as calls go `m` deep. -/
def callFn (n : Nat) : Nat → DefId → List Ty → List Nat → World R → Outcome Stop Nat (World R)
  | 0, _, _, _, w => .stopped .endless w
  | m + 1, d, typeArgs, args, w =>
    match compileFn P walk n d typeArgs with
    | .error _ => .stopped .noCode w
    | .ok code =>
      match run (sem prim sizeof (callFn n m)) code ⟨fun v => args.getD v 0, fun _ => 0⟩ w with
      | .stopped (.returned v) w' => .done (v.getD 0) w'
      | .stopped s w' => .stopped s w'
      | .done _ w' => .stopped .trap w'

end Machine

end backend.inline
