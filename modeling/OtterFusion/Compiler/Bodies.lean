-- Bodies of functions, closures and `async` blocks in the type checker (`check/functions.rs`,
-- `check/stmt.rs`, `check/control.rs`, and the control forms of `check/expr.rs`): the result type,
-- the stack of loops and the flag of `async`, as each form saves them and restores them.
import OtterFusion.Compiler.Methods

namespace compiler.sema

/-! ## Types that the checker accepts -/

/-- `is_union_subtype`. -/
def Ty.isUnionSubtype (sub sup : Ty) : Bool :=
  sub == sup || sub == .never || sub.variants.all fun v => v == .never || sup.variants.contains v

/-- `is_npo_union`: a nullable raw pointer. -/
def Ty.isNpoUnion : Ty → Bool
  | .union members =>
    members.length == 2 && members.contains .null && members.any fun m =>
      match m with
      | .ptr _ => true
      | _ => false
  | _ => false

/-- `assignable`. -/
def Checker.assignable (ck : Checker) (found expected : Ty) : Bool :=
  found == expected || found == .error || expected == .error || found == .never ||
    expected == .dynamic || ck.implementsDyn found expected || found.isUnionSubtype expected

/-- The checker, with the definitions that futures and `?` rest on. -/
structure BodyChecker extends Checker where
  futureDef : DefId
  readyDef : DefId
  tryDef : DefId
  fromResidualDef : DefId
  /-- The return type that a function or a method declares. -/
  returnTypes : DefId → Option TypeNode

/-- `TryBranch`. -/
structure TryBranch where
  method : DefId
  targs : List Ty
  unionTy : Ty
  output : Ty
  residual : Ty

namespace BodyChecker

variable (ck : BodyChecker)

/-- `fn_env`: a method sees the parameters of its `extend` block and `Self`, then its own. -/
def fnEnv (data : Def) : TypeEnv :=
  let own (names : Names Ty) : Names Ty := data.generics.foldl (fun names g =>
    match ck.prog.defs[g]? with
    | some p => names.insert p.name (.param g)
    | none => names) names
  match data.parent.bind fun p => (ck.prog.defs[p]?).map fun block => (p, block) with
  | some (p, block) =>
    match ck.extendBlock p with
    | some (target, _) =>
      let env := ck.defEnv block none
      { module := block.module, generics := own env.generics, selfTy := some target }
    | none => ck.defEnv data none
  | none => ck.defEnv data none

/-- `extend_method`. -/
def extendMethod (ext : DefId) (name : String) : Option DefId :=
  (List.range ck.prog.defs.length).find? fun d =>
    match ck.prog.defs[d]? with
    | some data => data.kind == .extendMethod && data.parent == some ext && data.name == name
    | none => false

/-- `future_output`. -/
def futureOutput (ty : Ty) : Option Ty :=
  match ty with
  | .error => none
  | .named d [out] => if d = ck.futureDef then some out else polled
  | _ => polled
where
  /-- What a future of its own yields, by the type that its `poll` declares. -/
  polled : Option Ty :=
    match ck.resolveMethod ty "poll" with
    | none => none
    | some (poll, subst) =>
      match ck.prog.defs[poll]?, ck.returnTypes poll with
      | some data, some node =>
        let ret := substTy ck.tcx subst (ck.lowerTy node (ck.fnEnv data))
        ret.variants.findSome? fun m =>
          match m with
          | .named d [out] => if d = ck.readyDef then some out else none
          | _ => none
      | _, _ => none

/-- `find_residual_conversion`: the method that converts a residual into one of some variants,
with that variant. -/
def findResidualConversion (residual : Ty) (variants : List Ty) : Option (DefId × Ty) :=
  (List.range ck.prog.defs.length).findSome? fun ext =>
    match ck.prog.defs[ext]?, ck.extendBlock ext with
    | some data, some (target, interfaces) =>
      if data.kind = .extend ∧ data.generics = [] ∧ target ∈ variants then
        interfaces.findSome? fun itf =>
          match itf with
          | .named name [arg] _ =>
            if ck.prog.resolveTypeIn data.module name = some ck.fromResidualDef ∧
                ck.lowerTy arg (ck.defEnv data none) = residual then
              (ck.extendMethod ext "from_residual").map fun m => (m, target)
            else none
          | _ => none
      else none
    | _, _ => none

/-- `find_try_impl`. -/
def findTryImpl (operand : Ty) : Option TryBranch :=
  if ck.tryDef = 0 then none
  else (List.range ck.prog.defs.length).findSome? fun ext =>
    match ck.prog.defs[ext]?, ck.extendBlock ext with
    | some data, some (target, interfaces) =>
      let subst := unify ck.accepts target operand []
      if data.kind = .extend ∧ (data.generics.all fun g => (subst.lookup g).isSome) ∧
          substTy ck.tcx subst target = operand then
        let args := interfaces.findSome? fun itf =>
          match itf with
          | .named name [output, residual] _ =>
            if ck.prog.resolveTypeIn data.module name = some ck.tryDef then
              some (substTy ck.tcx subst (ck.lowerTy output (ck.defEnv data none)),
                substTy ck.tcx subst (ck.lowerTy residual (ck.defEnv data none)))
            else none
          | _ => none
        match args, ck.extendMethod ext "branch" with
        | some (output, residual), some method =>
          some { method, targs := data.generics.map subst.at,
                 unionTy := ck.tcx.mkUnion [output, residual], output, residual }
        | _, _ => none
      else none
    | _, _ => none

end BodyChecker

/-! ## Expressions -/

/-- Expressions, as far as control passes through them. A `form` is any other form of expression
or statement, with the expressions that it holds. -/
inductive Expr (ι : Type)
  | form (f : ι) (parts : List (Expr ι))
  | block (stmts : List (Expr ι))
  | blockOf (stmts : List (Expr ι)) (trailing : Expr ι)
  | «return»
  | returnOf (value : Expr ι)
  | «try» (operand : Expr ι)
  | «while» (cond body : Expr ι)
  | «for» (header : ι) (inAsync : Bool) (iter body : Expr ι)
  | loop (body : Expr ι)
  | «break»
  | breakOf (value : Expr ι)
  | «continue»
  | closure (params : ι) (returnType : Option TypeNode) (isAsync : Bool) (body : Expr ι)
  | asyncBlock (body : Expr ι)

/-- What a form asks of the checker: to check some of its parts, in its own order, each as often
as it wants and with an expected type of its choice. -/
inductive Script (σ : Type)
  | done (ty : Ty) (errors : List SemaError) (rest : σ)
  | check (part : Nat) (expected : Option Ty) (rest : σ) (next : Ty → σ → Script σ)

/-- The rest of the checker, over a state `σ` of its own (scopes, narrowings, captures, nodes of
the output). None of it writes the result type, the loops or the flag of `async`. -/
structure Forms (ι σ : Type) where
  script : ι → Bool → Option Ty → σ → Script σ
  pushScope : σ → σ
  popScope : σ → σ
  /-- The driver and the pattern of a `for` loop over a value of some type. -/
  openFor : ι → Ty → σ → List SemaError × σ
  closeFor : σ → σ
  /-- The frame, the scope and the parameters of a closure. -/
  openClosure : ι → Option Ty → σ → List Ty × List SemaError × σ
  openAsync : σ → σ
  closeBody : σ → σ
  /-- The scope, the parameters and the signature of a function. -/
  openFunction : DefId → σ → List SemaError × σ

/-! ## The state -/

/-- Errors of the checker, without their spans. -/
inductive BodyError
  | reported (e : SemaError)
  | loopControlOutsideLoop (kw : String)
  | nonBoolCondition (found : String)
  | typeMismatch (expected found : String)
  | message (text : String)
  deriving DecidableEq

/-- `LoopFrame`. -/
structure LoopFrame where
  isLoop : Bool
  breakTypes : List Ty

/-- A transfer that ends up in a body of another function. -/
inductive Misplaced
  | loopControl (kw : String)
  | passed (ty result : Ty)
  deriving DecidableEq

/-- The fields of the checker that the control forms use. The last three are no fields of the
source: they follow the body at hand, for the laws. -/
structure Control (σ : Type) where
  retTy : Ty
  /-- The innermost loop first. -/
  loops : List LoopFrame
  inAsync : Bool
  errors : List BodyError
  rest : σ
  /-- How many loops are open in the body at hand. -/
  ownLoops : Nat
  /-- The types that `return` and `?` have passed on from the body at hand. -/
  passed : List Ty
  misplaced : List Misplaced

namespace Control

variable {σ : Type}

/-- `emit`. -/
def emit (st : Control σ) (e : BodyError) : Control σ := { st with errors := st.errors ++ [e] }

def emitAll (st : Control σ) (es : List SemaError) : Control σ :=
  { st with errors := st.errors ++ es.map .reported }

def pushLoop (st : Control σ) (isLoop : Bool) : Control σ :=
  { st with loops := ⟨isLoop, []⟩ :: st.loops, ownLoops := st.ownLoops + 1 }

def popLoop (st : Control σ) : Control σ :=
  { st with loops := st.loops.tail, ownLoops := st.ownLoops - 1 }

/-- A body opens: it has no loop and has passed nothing on. -/
def openBody (st : Control σ) (inAsync : Bool) : Control σ :=
  { st with inAsync, ownLoops := 0, passed := [] }

/-- A body with a result type closes within another. -/
def closeBody (st outer : Control σ) (assignable : Ty → Ty → Bool) (result : Ty) : Control σ :=
  { st with
    inAsync := outer.inAsync
    ownLoops := outer.ownLoops
    passed := outer.passed
    misplaced := st.misplaced ++
      (st.passed.filter fun t => !assignable t result).map (.passed · result) }

/-- A `break` or a `continue` is met. -/
def transfer (st : Control σ) (kw : String) : Control σ :=
  { st with
    misplaced := if st.ownLoops = 0 then st.misplaced ++ [.loopControl kw] else st.misplaced }

/-- `break`, with the type of its value. -/
def breakLoop (st : Control σ) (value : Option Ty) : Control σ :=
  let st := st.transfer "break"
  match st.loops with
  | [] => st.emit (.loopControlOutsideLoop "break")
  | frame :: outer =>
    if value.isSome && !frame.isLoop then
      st.emit (.message "only `loop` can `break` with a value")
    else
      { st with
        loops := { frame with breakTypes := frame.breakTypes ++ [value.getD .null] } :: outer }

end Control

/-- How an expression is checked. -/
abbrev Check (σ : Type) := Option Ty → Control σ → Ty × Control σ

/-- A form runs its script over the checks of its parts. -/
def Script.run {σ : Type} : Script σ → List (Check σ) → Control σ → Ty × Control σ
  | .done ty errors rest, _, st => (ty, { st.emitAll errors with rest })
  | .check part expected rest next, parts, st =>
    match parts[part]? with
    | some checkPart =>
      let r := checkPart expected { st with rest }
      (next r.1 r.2.rest).run parts r.2
    | none => (next .error rest).run parts { st with rest }

/-! ## Checking -/

section check

variable {ι σ : Type} (ck : BodyChecker) (F : Forms ι σ)

/-- `expect`. -/
def expect (found expected : Ty) (st : Control σ) : Control σ :=
  if ck.assignable found expected then st
  else st.emit (.typeMismatch (ck.display expected) (ck.display found))

/-- What `?` finds of the variants that may fail: the types that it passes on, the types that it
keeps, and the variants that a `Try` operand cannot pass on. -/
def classify (variants : List Ty) (isTry : Bool) : List Ty → List Ty × List Ty × List Ty
  | [] => ([], [], [])
  | v :: vs =>
    let r := classify variants isTry vs
    if v ∈ variants then (v :: r.1, r.2)
    else match ck.findResidualConversion v variants with
      | some (_, target) => (target :: r.1, r.2)
      | none => if isTry then (r.1, r.2.1, v :: r.2.2) else (r.1, v :: r.2.1, r.2.2)

/-- `check_try`, once the operand is checked. -/
def checkTry (operand : Ty) (st : Control σ) : Ty × Control σ :=
  if operand = .error then (.error, st)
  else if operand.isNpoUnion then
    (.error, st.emit (.message ("`?` on a nullable pointer `*T | null` is not supported; " ++
      "check it explicitly with `if p is null \x7b … \x7d` (`docs/19` §2)")))
  else
    let found : Option (List Ty × List Ty × Bool) :=
      match operand with
      | .union variants => some ([], variants, false)
      | .dynamic => some ([], [.dynamic], false)
      | _ => (ck.findTryImpl operand).map fun branch =>
        (branch.output.variants, branch.residual.variants, true)
    match found with
    | none =>
      (.error, st.emit (.message ("nothing to propagate here: `" ++ ck.display operand ++
        "` is not a union and has no `Try` impl; remove the `?`")))
    | some (successes, candidates, isTry) =>
      let r := classify ck st.retTy.variants isTry candidates
      let st := r.2.2.foldl (fun st v => st.emit (.message ("residual variant `" ++
        ck.display v ++ "` from `branch` cannot propagate into `" ++ ck.display st.retTy ++
        "`; add a `FromResidual<" ++ ck.display v ++ ">` impl on a variant of the return type")))
        st
      if r.1 = [] then
        (operand, st.emit (.message "nothing to propagate here; remove the `?`"))
      else
        let st := { st with passed := st.passed ++ r.1 }
        if successes ++ r.2.1 = [] then
          (.error, st.emit (.message "this expression always returns; use a `match` instead"))
        else (ck.tcx.mkUnion (successes ++ r.2.1), st)

/-- The result type that a closure declares for its body. -/
def declaredResult (returnType : Option TypeNode) : Option Ty :=
  returnType.map fun node => ck.lowerTy node ck.localEnv

/-- The type that the body of a closure yields, by the type that the closure has to return. -/
def bodyExpected (isAsync : Bool) (wantRet : Option Ty) : Option Ty :=
  if isAsync then wantRet.bind ck.futureOutput else wantRet

/-- The result of a function type that is expected, unless it is yet to be inferred. -/
def expectedResult (expected : Option Ty) : Option Ty :=
  match expected with
  | some (.func _ ret _) => if ret = .error then none else some ret
  | _ => none

mutual

/-- `check_expr`, with `check_block`, `check_closure` and `check_async_block`. -/
def check : Expr ι → Check σ
  | .form f parts => fun expected st =>
    (F.script f st.inAsync expected st.rest).run (checkParts parts) st
  | .block stmts => fun _ st =>
    let st := checkStmts stmts { st with rest := F.pushScope st.rest }
    (.null, { st with rest := F.popScope st.rest })
  | .blockOf stmts trailing => fun expected st =>
    let st := checkStmts stmts { st with rest := F.pushScope st.rest }
    let r := check trailing expected st
    match expected with
    | none => (r.1, { r.2 with rest := F.popScope r.2.rest })
    | some want =>
      let st := expect ck r.1 want r.2
      let widened := ck.assignable r.1 want && r.1 != want &&
        match want with
        | .union _ | .dynamic => true
        | _ => false
      (if widened then want else r.1, { st with rest := F.popScope st.rest })
  | .return => fun _ st =>
    let st := expect ck .null st.retTy st
    (.never, { st with passed := st.passed ++ [.null] })
  | .returnOf value => fun _ st =>
    let retTy := st.retTy
    let r := check value (some retTy) st
    let st := expect ck r.1 retTy r.2
    (.never, { st with passed := st.passed ++ [r.1] })
  | .try operand => fun _ st =>
    let r := check operand none st
    checkTry ck r.1 r.2
  | .while cond body => fun _ st =>
    let r := check cond (some .bool) st
    let st := if r.1 != .error && r.1 != .bool then r.2.emit (.nonBoolCondition (ck.display r.1))
      else r.2
    (.null, (check body none (st.pushLoop false)).2.popLoop)
  | .for header inAsync iter body => fun _ st =>
    let st := if inAsync && !st.inAsync then
      st.emit (.message "`for await` is only allowed inside an async body") else st
    let r := check iter none st
    let driver := F.openFor header r.1 r.2.rest
    let st := { r.2.emitAll driver.1 with rest := driver.2 }
    let st := (check body none (st.pushLoop false)).2.popLoop
    (.null, { st with rest := F.closeFor st.rest })
  | .loop body => fun _ st =>
    let st := (check body none (st.pushLoop true)).2
    let breakTypes := (st.loops.head?.map LoopFrame.breakTypes).getD []
    (if breakTypes = [] then .never else ck.tcx.mkUnion breakTypes, st.popLoop)
  | .break => fun _ st => (.never, st.breakLoop none)
  | .breakOf value => fun _ st =>
    let r := check value none st
    (.never, r.2.breakLoop (some r.1))
  | .continue => fun _ st =>
    let st := st.transfer "continue"
    (.never, if st.loops = [] then st.emit (.loopControlOutsideLoop "continue") else st)
  | .closure params returnType isAsync body => fun expected st =>
    let opened := F.openClosure params expected st.rest
    let wantRet := (declaredResult ck returnType).or (expectedResult expected)
    let want := bodyExpected ck isAsync wantRet
    let inner := { (st.emitAll opened.2.1).openBody isAsync with rest := opened.2.2 }
    let r := check body want inner
    let st' := match want with
      | some result => expect ck r.1 result r.2
      | none => r.2
    let result := want.getD r.1
    let st' := { st'.closeBody st ck.assignable result with rest := F.closeBody st'.rest }
    (.func opened.1 (if isAsync then .named ck.futureDef [result] else result) false, st')
  | .asyncBlock body => fun expected st =>
    let r := check body (expected.bind ck.futureOutput)
      { st.openBody true with rest := F.openAsync st.rest }
    (.named ck.futureDef [r.1],
      { r.2.closeBody st ck.assignable r.1 with rest := F.closeBody r.2.rest })

def checkParts : List (Expr ι) → List (Check σ)
  | [] => []
  | e :: es => check e :: checkParts es

/-- `check_stmt`, one after another. -/
def checkStmts : List (Expr ι) → Control σ → Control σ
  | [], st => st
  | e :: es, st => checkStmts es (check e none st).2

end

/-! ### Functions and programs -/

/-- A function or a method, or a test. -/
inductive BodyItem (ι : Type)
  | function (d : DefId) (isAsync : Bool) (body : Option (Expr ι))
  | test (d : DefId) (body : Expr ι)

/-- The checker in a definition. -/
def BodyChecker.enter (module : ModId) (generics : Names Ty) (selfTy : Option Ty) : BodyChecker :=
  { ck with curModule := module, curGenerics := generics, curSelfTy := selfTy }

/-- The checker in a function. -/
def BodyChecker.inFunction (data : Def) : BodyChecker :=
  ck.enter data.module (ck.fnEnv data).generics (ck.fnEnv data).selfTy

/-- The return type of a function. -/
def BodyChecker.returnType (d : DefId) (data : Def) : Ty :=
  match ck.returnTypes d with
  | some node => ck.lowerTy node (ck.fnEnv data)
  | none => .null

/-- The result type of the body of a function. -/
def BodyChecker.bodyResult (d : DefId) (data : Def) (isAsync : Bool) : Ty :=
  if isAsync then
    ((ck.inFunction data).futureOutput (ck.returnType d data)).getD (ck.returnType d data)
  else ck.returnType d data

/-- `check_function`. -/
def checkFunction (d : DefId) (data : Def) (isAsync : Bool) (body : Option (Expr ι))
    (st : Control σ) : Control σ :=
  let inside := ck.inFunction data
  let result := ck.bodyResult d data isAsync
  let st := if isAsync && (inside.futureOutput (ck.returnType d data)).isNone then
    st.emit (.message "an `async` function must declare its return type as `Future<Output>`")
    else st
  let opened := F.openFunction d st.rest
  let inner :=
    { (st.emitAll opened.1).openBody (isAsync || st.inAsync) with
      retTy := result
      rest := opened.2 }
  match body with
  | some body =>
    let r := check inside F body (some result) inner
    let st' := expect inside r.1 result r.2
    { st'.closeBody st inside.assignable result with rest := F.closeBody st'.rest }
  | none => { inner.closeBody st inside.assignable result with rest := F.closeBody inner.rest }

/-- `check_test`. -/
def checkTest (d : DefId) (data : Def) (body : Expr ι) (st : Control σ) : Control σ :=
  let inside := ck.enter data.module [] none
  let opened := F.openFunction d st.rest
  let inner :=
    { (st.emitAll opened.1).openBody false with
      retTy := .null
      rest := opened.2 }
  let r := check inside F body none inner
  let st' := r.2.closeBody { st with inAsync := false } inside.assignable .null
  { st' with rest := F.closeBody st'.rest }

def checkItem (st : Control σ) : BodyItem ι → Control σ
  | .function d isAsync body =>
    match ck.prog.defs[d]? with
    | some data => checkFunction ck F d data isAsync body st
    | none => st
  | .test d body =>
    match ck.prog.defs[d]? with
    | some data => checkTest ck F d data body st
    | none => st

/-- The checker before the first body. -/
def Control.start (rest : σ) : Control σ where
  retTy := .null
  loops := []
  inAsync := false
  errors := []
  rest := rest
  ownLoops := 0
  passed := []
  misplaced := []

/-- `check_program`, over the functions, methods and tests in the order of their definitions. -/
def checkProgram (items : List (BodyItem ι)) (rest : σ) : Control σ :=
  let ck := { ck with ifaceImpls := ck.collectImpls.ifaceImpls }
  items.foldl (checkItem ck F) (.start rest)

end check

end compiler.sema
