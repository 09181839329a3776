-- What an inlined body means, apart from any builder, and that the walk emits code for it in every
-- place (`h_expr` of `gen_hir.rs`).
import OtterFusion.Backend.InlineWalk

open compiler.sema base.straightline

namespace backend.inline

/-! ## Forms that are inlined -/

mutual

/-- The forms that have a cost. -/
def Expr.admitted (allowed : List LocalId) : Expr → Bool
  | .int .. | .float .. | .bool .. | .char .. | .null _ => true
  | .name _ l => l ∈ allowed
  | .unary _ _ e overloaded => !overloaded && e.admitted allowed
  | .binary _ op l r overloaded =>
    !(overloaded || op = .and || op = .or) && l.admitted allowed && r.admitted allowed
  | .cast _ .asOp e _ => e.admitted allowed
  | .num _ _ args => admittedAll allowed args
  | _ => false

def Expr.admittedAll (allowed : List LocalId) : List Expr → Bool
  | [] => true
  | e :: es => e.admitted allowed && admittedAll allowed es

end

theorem satAdd_noCost (n : Nat) : satAdd noCost n = noCost := by
  unfold satAdd
  omega

mutual

/-- What has a cost is admitted. -/
theorem admitted_of_cost {allowed : List LocalId} :
    ∀ e : Expr, inlineExprCost allowed e ≠ noCost → e.admitted allowed = true
  | .int .., _ | .float .., _ | .bool .., _ | .char .., _ | .null _, _ => by simp [Expr.admitted]
  | .name _ l, h => by
    by_cases hl : l ∈ allowed
    · simp [Expr.admitted, hl]
    · simp [inlineExprCost, hl] at h
  | .unary _ _ e overloaded, h => by
    cases overloaded with
    | true => simp [inlineExprCost] at h
    | false =>
      have he : inlineExprCost allowed e ≠ noCost := fun hno =>
        h (by simp [inlineExprCost, hno, satAdd_noCost])
      simp [Expr.admitted, admitted_of_cost e he]
  | .binary _ op l r overloaded, h => by
    rw [inlineExprCost] at h
    split at h
    · exact absurd rfl h
    · rename_i hop
      dsimp only at h
      split at h
      · exact absurd rfl h
      · rename_i hcosts
        rw [not_or] at hcosts
        simp only [not_or, Bool.not_eq_true] at hop
        simp [Expr.admitted, hop, admitted_of_cost l hcosts.1, admitted_of_cost r hcosts.2]
  | .cast _ .asOp e _, h => by
    have he : inlineExprCost allowed e ≠ noCost := fun hno =>
      h (by simp [inlineExprCost, hno, satAdd_noCost])
    simp [Expr.admitted, admitted_of_cost e he]
  | .num _ _ args, h => by
    rw [inlineExprCost] at h
    rw [Expr.admitted]
    exact admittedAll_of_cost args 1 h
  | .cast _ .isOp _ _, h | .call .., h | .other .., h => by simp [inlineExprCost] at h

theorem admittedAll_of_cost {allowed : List LocalId} :
    ∀ (es : List Expr) (cost : Nat), inlineArgsCost allowed cost es ≠ noCost →
      Expr.admittedAll allowed es = true
  | [], _, _ => by simp [Expr.admittedAll]
  | e :: es, cost, h => by
    rw [inlineArgsCost] at h
    split at h
    · exact absurd rfl h
    · rename_i he
      rw [Expr.admittedAll, admitted_of_cost e he, admittedAll_of_cost es _ h]
      rfl

end

mutual

/-- There is no closure in what is admitted. -/
theorem captures_of_admitted {allowed : List LocalId} :
    ∀ e : Expr, e.admitted allowed = true → e.captures = []
  | .int .., _ | .float .., _ | .bool .., _ | .char .., _ | .null _, _ | .name .., _ => by
    simp [Expr.captures]
  | .unary _ _ e _, h => by
    simp only [Expr.admitted, Bool.and_eq_true] at h
    rw [Expr.captures, captures_of_admitted e h.2]
  | .binary _ _ l r _, h => by
    simp only [Expr.admitted, Bool.and_eq_true] at h
    rw [Expr.captures, captures_of_admitted l h.1.2, captures_of_admitted r h.2]
    rfl
  | .cast _ .asOp e _, h => by
    rw [Expr.admitted] at h
    rw [Expr.captures, captures_of_admitted e h]
  | .num _ _ args, h => by
    rw [Expr.admitted] at h
    rw [Expr.captures, capturesAll_of_admitted args h]
  | .cast _ .isOp _ _, h | .call .., h | .other .., h => by simp [Expr.admitted] at h

theorem capturesAll_of_admitted {allowed : List LocalId} :
    ∀ es : List Expr, Expr.admittedAll allowed es = true → Expr.capturesAll es = []
  | [], _ => by simp [Expr.capturesAll]
  | e :: es, h => by
    simp only [Expr.admittedAll, Bool.and_eq_true] at h
    rw [Expr.capturesAll, captures_of_admitted e h.1, capturesAll_of_admitted es h.2]
    rfl

end

/-! ## Closed types -/

/-- A type that no substitution changes, nor its variants. -/
def isClosed (t : Ty) : Bool :=
  (t :: t.variants).all fun
    | .param _ => false
    | _ => true

def NumIntrinsic.closed : NumIntrinsic → Bool
  | .intBound ty _ | .floatConst ty _ | .floatPred ty _ | .intArith ty _ _ => isClosed ty

mutual

/-- The types in an expression are closed. -/
def Expr.closed : Expr → Bool
  | .unary ty _ e _ => isClosed ty && e.closed
  | .binary ty _ l r _ => isClosed ty && l.closed && r.closed
  | .cast ty _ e target => isClosed ty && isClosed target && e.closed
  | .num ty intr args => isClosed ty && intr.closed && closedAll args
  | .call ty _ _ args => isClosed ty && closedAll args
  | e => isClosed e.ty

def Expr.closedAll : List Expr → Bool
  | [] => true
  | e :: es => e.closed && closedAll es

end

variable {subst : Subst}

theorem resolveShallow_closed {t : Ty} (h : isClosed t = true) : resolveShallow subst t = t := by
  cases t <;> first | rfl | cases h

theorem typeIdOf_closed {t : Ty} (h : isClosed t = true) : typeIdOf subst t = typeIdOf [] t := by
  rw [typeIdOf, typeIdOf, resolveShallow_closed h, resolveShallow_closed h]

theorem variants_closed {t : Ty} (h : isClosed t = true) :
    t.variants.map (typeIdOf subst) = t.variants.map (typeIdOf []) := by
  refine List.map_congr_left fun v hv => ?_
  have hall := List.all_eq_true.mp h v (List.mem_cons_of_mem t hv)
  cases v <;> first | rfl | cases hall

theorem Expr.closed_ty {e : Expr} (h : e.closed = true) : isClosed e.ty = true := by
  cases e <;> simp_all [Expr.closed, Expr.ty]

section Closed

variable {P : Program} {source target t : Ty}

theorem isInterfaceTy_closed (h : isClosed t = true) :
    P.isInterfaceTy subst t = P.isInterfaceTy [] t := by
  unfold Program.isInterfaceTy backend.isInterfaceTy
  rw [resolveShallow_closed h, resolveShallow_closed h]

theorem castForm_closed (hs : isClosed source = true) (ht : isClosed target = true) :
    P.castForm subst source target = P.castForm [] source target := by
  unfold Program.castForm
  rw [isInterfaceTy_closed hs, isInterfaceTy_closed ht, typeIdOf_closed ht, variants_closed ht,
    resolveShallow_closed hs, resolveShallow_closed ht, resolveShallow_closed hs,
    resolveShallow_closed ht]

theorem staticDirect_closed {iface mid : Ty} (hs : isClosed source = true)
    (hi : isClosed iface = true) (hm : isClosed mid = true) (ht : isClosed target = true) :
    P.staticDirect subst source iface mid target = P.staticDirect [] source iface mid target := by
  unfold Program.staticDirect Program.staticSourceAllowed Program.staticTargetAllowed
  simp only [resolveShallow_closed hs, resolveShallow_closed ht, isInterfaceTy_closed hm,
    isInterfaceTy_closed hi, isInterfaceTy_closed hs, isInterfaceTy_closed ht]

theorem resolveIntr_closed {intr : NumIntrinsic} (h : intr.closed = true) :
    Program.resolveIntr subst intr = intr := by
  cases intr with
  | intBound ty max => rw [Program.resolveIntr, resolveShallow_closed h]
  | intArith ty family op => rw [Program.resolveIntr, resolveShallow_closed h]
  | floatConst ty kind => rfl
  | floatPred ty kind => rfl

theorem scalarInlineTy_closed (h : isClosed t = true) :
    P.scalarInlineTy subst t = true ↔
      (P.types.cltyOf t).isSome = true ∧ P.types.isManagedPtr t = false := by
  unfold Program.scalarInlineTy
  rw [resolveShallow_closed h, Bool.and_eq_true, Bool.not_eq_true']

end Closed

/-! ## Meanings -/

/-- What the walk has at the end of a form: a value, none, or a block that has ended. -/
inductive Shape
  | value | absent | ended
  deriving DecidableEq

/-- The values of locals. -/
abbrev Env := LocalId → Nat

/-- The meaning of a form: its shape, and what its evaluation comes to. -/
structure Meaning (R : Type) where
  shape : Shape
  eval : Env → World R → Outcome Stop Nat (World R)

section Meaning

variable {R : Type} (P : Program) (lowers : Prim → Bool)
  (prim : Prim → List Nat → World R → Except String Nat × World R)

/-- A form with a value. -/
def Meaning.ofValue (eval : Env → World R → Outcome Stop Nat (World R)) : Meaning R :=
  ⟨.value, eval⟩

/-- A constant. -/
def constMeaning (p : Prim) : Meaning R := .ofValue fun _ w => runPrim prim p [] w

/-- An operation behind its operand. -/
def Meaning.andThen (m : Meaning R) (shape : Shape)
    (next : Nat → World R → Outcome Stop Nat (World R)) : Meaning R :=
  ⟨shape, fun env w => (m.eval env w).bind next⟩

/-- The meaning of `emit_cast`. -/
def castMeaning (m : Meaning R) (source target : Ty) : Option (Meaning R) :=
  match P.castForm [] source target, m.shape with
  | .pointer, .value => some m
  | .pointer, .absent => some (m.andThen .value fun _ w => runPrim prim (.intConst ptrType 0) [] w)
  | .same _, .value => some m
  | .prim p result _, .value =>
    if lowers p then
      some (m.andThen (if result = .absent then .absent else .value) fun x w =>
        (runPrim prim p [x] w).bind fun y w' => .done (if result = .operand then x else y) w')
    else none
  | _, _ => none

/-- The meaning of `finish_static_iface_cast_branch`. -/
def staticCastMeaning (m : Meaning R) (source target : Ty) : Meaning R :=
  if m.shape = .ended ∨ source = target then m
  else m.andThen .ended fun _ w =>
    .stopped (.panic "cast failed: interface object is not the requested type") w

mutual

/-- The meaning of a form that is inlined. A form without code has none. -/
def meaning : Expr → Option (Meaning R)
  | .int ty v => some (constMeaning prim (.intConst ((P.types.cltyOf ty).getD .i64) v))
  | .float ty bits => some (constMeaning prim (.floatConst (ty = .float .f32) bits))
  | .bool _ v => some (constMeaning prim (.intConst .i8 v.toNat))
  | .char _ c => some (constMeaning prim (.intConst .i32 c))
  | .null _ => some ⟨.absent, fun _ w => .done 0 w⟩
  | .name _ l => some (.ofValue fun env w => .done (env l) w)
  | .unary ty op e _ => do
    let m ← meaning e
    if m.shape = .value then
      some (m.andThen .value fun x w => runPrim prim (.unary op (isFloat ty) (ty = .bool)) [x] w)
    else none
  | .binary _ op l r _ => do
    let m ← meaning l
    let m' ← meaning r
    if m.shape = .value ∧ m'.shape = .value then
      some (.ofValue fun env w => (m.eval env w).bind fun x w => (m'.eval env w).bind fun y w =>
        runPrim prim (.binop op l.ty) [x, y] w)
    else none
  | .cast _ _ e target =>
    let general := do castMeaning P lowers prim (← meaning e) e.ty target
    match e with
    | .cast mid .asOp source iface =>
      if P.staticDirect [] source.ty iface mid target then do
        return staticCastMeaning (← meaning source) source.ty target
      else general
    | _ => general
  | .num _ intr args => do
    let evals ← meanings args
    if lowers (.num intr) then
      some (.ofValue fun env w => (evals env w).bind fun xs w => runPrim prim (.num intr) xs w)
    else none
  | .call .. | .other .. => none

/-- The values of arguments, in their order. -/
def meanings : List Expr → Option (Env → World R → Outcome Stop (List Nat) (World R))
  | [] => some fun _ w => .done [] w
  | e :: es => do
    let m ← meaning e
    let rest ← meanings es
    if m.shape = .value then
      some fun env w => (m.eval env w).bind fun x w => (rest env w).bind fun xs w =>
        .done (x :: xs) w
    else none

end

/-- The meaning of the statements of an inlined body: the locals behind them. -/
def stmtsMeaning : List Stmt → Option (Env → World R → Outcome Stop Env (World R))
  | [] => some fun env w => .done env w
  | .bind l init :: stmts => do
    let m ← meaning P lowers prim init
    let rest ← stmtsMeaning stmts
    if m.shape = .value then
      some fun env w => (m.eval env w).bind fun x w => rest (put env l x) w
    else none
  | .other .. :: _ => none

/-- The parameters with the arguments. -/
def bindEnv : List (LocalId × Ty) → List Nat → Env → Env
  | (l, _) :: params, x :: xs, env => bindEnv params xs (put env l x)
  | _, _, env => env

/-- The meaning of a body that is inlined. -/
def bodyMeaning (sig : FnSig) (stmts : List Stmt) (e : Expr) :
    Option (Shape × (List Nat → World R → Outcome Stop Nat (World R))) := do
  let rest ← stmtsMeaning P lowers prim stmts
  let m ← meaning P lowers prim e
  return (m.shape, fun args w => (rest (bindEnv sig.params args fun _ => 0) w).bind m.eval)

end Meaning

/-! ## The walk emits the meaning -/

section Emits

variable {captured : List LocalId}

/-- A builder behind another one, with the same tables. -/
structure Builder.Extends (b b' : Builder captured) : Prop where
  nextValue : b.nextValue ≤ b'.nextValue
  nextVar : b.nextVar ≤ b'.nextVar
  vars : b'.vars = b.vars
  cells : b'.cells = b.cells
  ifaceConcretes : b'.ifaceConcretes = b.ifaceConcretes
  owned : b'.owned = b.owned

namespace Builder.Extends

variable {b b' b'' : Builder captured}

theorem refl (b : Builder captured) : b.Extends b := ⟨le_rfl, le_rfl, rfl, rfl, rfl, rfl⟩

theorem trans (h : b.Extends b') (h' : b'.Extends b'') : b.Extends b'' :=
  ⟨h.nextValue.trans h'.nextValue, h.nextVar.trans h'.nextVar, h'.vars.trans h.vars,
    h'.cells.trans h.cells, h'.ifaceConcretes.trans h.ifaceConcretes, h'.owned.trans h.owned⟩

theorem push (b : Builder captured) (i : ValueId → Instr Op) : b.Extends (b.push i) :=
  ⟨Nat.le_succ _, le_rfl, rfl, rfl, rfl, rfl⟩

end Builder.Extends

/-- The locals have variables, and no cells. -/
def Bound (allowed : List LocalId) (b : Builder captured) : Prop :=
  ∀ l ∈ allowed, b.cells l = none ∧ ∃ x, b.vars l = some x ∧ x < b.nextVar

/-- The variables hold what the locals do. -/
def Holds (allowed : List LocalId) (b : Builder captured) (env : Env) (f : Frame) : Prop :=
  ∀ l ∈ allowed, ∀ x, b.vars l = some x → f.vars x = env l

theorem Bound.of_extends {allowed : List LocalId} {b b' : Builder captured} (h : Bound allowed b)
    (hext : b.Extends b') : Bound allowed b' := by
  intro l hl
  obtain ⟨hcell, x, hx, hlt⟩ := h l hl
  rw [hext.cells, hext.vars]
  exact ⟨hcell, x, hx, Nat.lt_of_lt_of_le hlt hext.nextVar⟩

theorem Holds.of_agree {allowed : List LocalId} {b b' : Builder captured} {env : Env} {f f' : Frame}
    {n : Nat} (h : Holds allowed b env f) (hbound : Bound allowed b) (hext : b.Extends b')
    (hagree : Agree n b.nextVar f f') : Holds allowed b' env f' := by
  intro l hl x hx
  rw [hext.vars] at hx
  obtain ⟨-, y, hy, hlt⟩ := hbound l hl
  rw [hx] at hy
  cases hy
  rw [hagree.vars x hlt]
  exact h l hl x hx

section Code

variable {R A B : Type} (prim : Prim → List Nat → World R → Except String Nat × World R)
  (sizeof : Ty → Nat) (callee : DefId → List Ty → List Nat → World R → Outcome Stop Nat (World R))
  (allowed : List LocalId)

/-- The code between two builders does what a computation with the locals does, and leaves what was
there before it. -/
structure Emits (b b' : Builder captured) (Q : A → Frame → Prop)
    (eval : Env → World R → Outcome Stop A (World R)) : Prop where
  within : b.Extends b'
  code : ∃ c, b'.code = b.code ++ c ∧ ∀ f env w, Holds allowed b env f →
    Refines (fun a f' => Agree b.nextValue b.nextVar f f' ∧ Q a f') (eval env w)
      (run (sem prim sizeof callee) c f w)

variable {prim sizeof callee allowed} {b b₁ b₂ : Builder captured} {Q : A → Frame → Prop}
  {Q' : B → Frame → Prop} {eval : Env → World R → Outcome Stop A (World R)}

/-- No code. -/
theorem Emits.nothing (b : Builder captured) {a : Env → A}
    (h : ∀ env f, Holds allowed b env f → Q (a env) f) :
    Emits prim sizeof callee allowed b b Q fun env w => .done (a env) w := by
  refine ⟨.refl b, [], (List.append_nil _).symm, fun f env w hholds => ?_⟩
  exact .done w ⟨.refl _ _ f, h env f hholds⟩

/-- Code behind code. -/
theorem Emits.bind {next : Env → A → World R → Outcome Stop B (World R)}
    (h : Emits prim sizeof callee allowed b b₁ Q eval) (hbound : Bound allowed b)
    (hext : b₁.Extends b₂)
    (hnext : ∃ c, b₂.code = b₁.code ++ c ∧ ∀ a f env w, Holds allowed b₁ env f → Q a f →
      Refines (fun a' f' => Agree b₁.nextValue b₁.nextVar f f' ∧ Q' a' f') (next env a w)
        (run (sem prim sizeof callee) c f w)) :
    Emits prim sizeof callee allowed b b₂ Q' fun env w => (eval env w).bind (next env) := by
  obtain ⟨c, hc, hrun⟩ := h.code
  obtain ⟨c', hc', hrun'⟩ := hnext
  refine ⟨h.within.trans hext,
    c ++ c', by rw [hc', hc, List.append_assoc], fun f env w hholds => ?_⟩
  rw [run_append]
  refine (hrun f env w hholds).bind fun a f₁ w₁ ⟨hagree, hQ⟩ => ?_
  refine (hrun' a f₁ env w₁ (hholds.of_agree hbound h.within hagree) hQ).imp
    fun a' f₂ ⟨hagree', hQ'⟩ => ?_
  exact ⟨hagree.trans hagree' h.within.nextValue h.within.nextVar, hQ'⟩

/-- An operation behind code that has computed its operands. -/
theorem Emits.op (xs : A → List Nat) (args : List ValueId) (o : Op)
    (h : Emits prim sizeof callee allowed b b₁ Q eval) (hbound : Bound allowed b)
    (hargs : ∀ a f, Q a f → args.map f.vals = xs a) :
    Emits prim sizeof callee allowed b (b₁.push fun dst => .op dst o args)
      (fun y f => f.vals b₁.nextValue = y)
      fun env w => (eval env w).bind fun a w => sem prim sizeof callee o (xs a) w := by
  refine h.bind hbound (.push b₁ _) ⟨[.op b₁.nextValue o args], rfl, fun a f env w _ hQ => ?_⟩
  rw [run_single, step, hargs a f hQ]
  cases sem prim sizeof callee o (xs a) w with
  | done y w' => exact .done w' ⟨.put_val f y le_rfl, put_self _ _ _⟩
  | stopped s w' => exact ⟨rfl, rfl⟩

/-- An operation that leaves its operand. -/
theorem Emits.opBeside {i : ValueId} {eval : Env → World R → Outcome Stop Nat (World R)} (o : Op)
    (h : Emits prim sizeof callee allowed b b₁ (fun x f => f.vals i = x) eval)
    (hbound : Bound allowed b)
    (hi : i < b₁.nextValue) :
    Emits prim sizeof callee allowed b (b₁.push fun dst => .op dst o [i])
      (fun (p : Nat × Nat) f => f.vals i = p.1 ∧ f.vals b₁.nextValue = p.2)
      fun env w => (eval env w).bind fun x w =>
        (sem prim sizeof callee o [x] w).bind fun y w => .done (x, y) w := by
  refine h.bind hbound (.push b₁ _) ⟨[.op b₁.nextValue o [i]], rfl, fun x f env w _ hx => ?_⟩
  rw [run_single, step, List.map_singleton, hx]
  cases sem prim sizeof callee o [x] w with
  | done y w' =>
    have hne : i ≠ b₁.nextValue := Nat.ne_of_lt hi
    exact .done w' ⟨.put_val f y le_rfl, (put_of_ne hne).trans hx, put_self _ _ _⟩
  | stopped s w' => exact ⟨rfl, rfl⟩

/-- The result in another form. -/
theorem Emits.map (g : A → B) (Q' : B → Frame → Prop)
    (h : Emits prim sizeof callee allowed b b₁ Q eval) (hg : ∀ a f, Q a f → Q' (g a) f) :
    Emits prim sizeof callee allowed b b₁ Q' fun env w => (eval env w).bind fun a w =>
      .done (g a) w := by
  obtain ⟨hext, c, hc, hrun⟩ := h
  refine ⟨hext, c, hc, fun f env w hholds => ?_⟩
  rw [← Outcome.bind_pure (run (sem prim sizeof callee) c f w)]
  exact (hrun f env w hholds).bind fun a f' w' ⟨hagree, hQ⟩ => .done w' ⟨hagree, hg a f' hQ⟩

/-- Two parts, of which the second leaves the value of the first. -/
theorem Emits.pair {i : ValueId} {eval' : Env → World R → Outcome Stop B (World R)}
    {eval : Env → World R → Outcome Stop Nat (World R)}
    (h : Emits prim sizeof callee allowed b b₁ (fun x f => f.vals i = x) eval)
    (hbound : Bound allowed b) (hi : i < b₁.nextValue)
    (h' : Emits prim sizeof callee allowed b₁ b₂ Q' eval') :
    Emits prim sizeof callee allowed b b₂ (fun (p : Nat × B) f => f.vals i = p.1 ∧ Q' p.2 f)
      fun env w => (eval env w).bind fun x w => (eval' env w).bind fun y w => .done (x, y) w := by
  obtain ⟨c, hc, hrun⟩ := h'.code
  refine h.bind hbound h'.within ⟨c, hc, fun x f env w hholds hx => ?_⟩
  rw [← Outcome.bind_pure (run (sem prim sizeof callee) c f w)]
  refine (hrun f env w hholds).bind fun y f' w' ⟨hagree, hQ'⟩ => ?_
  exact .done w' ⟨hagree, (hagree.vals i hi).trans hx, hQ'⟩

end Code

section Steps

variable {A B : Type} {x : Emit captured A} {g : A → Emit captured B} {b b' : Builder captured}

theorem bind_ok {a : A} (h : x b = .ok (a, b')) : (x >>= g) b = g a b' := by
  change (x b >>= fun p => g p.1 p.2) = _
  rw [h]
  rfl

theorem bind_error {halt : Halt} (h : x b = .error halt) : (x >>= g) b = .error halt := by
  change (x b >>= fun p => g p.1 p.2) = _
  rw [h]
  rfl

theorem emit_ok {o : Op} {args : List ValueId} (h : b.term = false) :
    emit o args b = .ok (b.nextValue, b.push fun dst => .op dst o args) :=
  if_neg (by simp [h])

end Steps

section Walks

variable {R : Type} (prim : Prim → List Nat → World R → Except String Nat × World R)
  (sizeof : Ty → Nat) (callee : DefId → List Ty → List Nat → World R → Outcome Stop Nat (World R))
  (allowed : List LocalId)

/-- What a step of the walk reaches with a meaning. -/
structure Reached (b b' : Builder captured) (v : Option ValueId) (m : Meaning R) : Prop where
  emits : Emits prim sizeof callee allowed b b' (fun a f => ∀ i ∈ v, f.vals i = a) m.eval
  lt : ∀ i ∈ v, i < b'.nextValue
  isSome : v.isSome = true ↔ m.shape = .value
  term : b'.term = true ↔ m.shape = .ended

/-- A step of the walk emits a meaning, or fails where there is none. -/
def Walks (x : Emit captured (Option ValueId)) (b b₀ : Builder captured) : Option (Meaning R) → Prop
  | none => ∃ h, x b = .error h
  | some m => ∃ v b', x b = .ok (v, b') ∧ Reached prim sizeof callee allowed b₀ b' v m

/-- A step of the walk that has values. -/
def Yields {A B : Type} (x : Emit captured A) (b : Builder captured) (Q : A → B → Frame → Prop)
    (fits : A → ValueId → Prop) :
    Option (Env → World R → Outcome Stop B (World R)) → Prop
  | none => ∃ h, x b = .error h
  | some eval => ∃ v b', x b = .ok (v, b') ∧ Emits prim sizeof callee allowed b b' (Q v) eval ∧
      fits v b'.nextValue ∧ b'.term = false

variable {prim sizeof callee allowed} {b b₀ : Builder captured}

/-- A value that has been computed. -/
theorem Reached.ofValue {b' : Builder captured} {i : ValueId}
    {eval : Env → World R → Outcome Stop Nat (World R)}
    (h : Emits prim sizeof callee allowed b b' (fun a f => f.vals i = a) eval)
    (hi : i < b'.nextValue)
    (hterm : b'.term = false) :
    Reached prim sizeof callee allowed b b' (some i) (.ofValue eval) := by
  obtain ⟨hext, c, hc, hrun⟩ := h
  refine ⟨⟨hext, c, hc, fun f env w hholds => ?_⟩, ?_, iff_of_true rfl rfl, ?_⟩
  · refine (hrun f env w hholds).imp fun a f' ⟨hagree, hv⟩ => ⟨hagree, ?_⟩
    rintro _ ⟨⟩
    exact hv
  · rintro _ ⟨⟩
    exact hi
  · rw [hterm]
    exact iff_of_false Bool.noConfusion Shape.noConfusion

/-- Code without a value. -/
theorem Reached.noValue (Q : Nat → Frame → Prop) {b' : Builder captured} (shape : Shape)
    {eval : Env → World R → Outcome Stop Nat (World R)}
    (h : Emits prim sizeof callee allowed b b' Q eval) (hshape : shape ≠ .value)
    (hterm : b'.term = true ↔ shape = .ended) :
    Reached prim sizeof callee allowed b b' none ⟨shape, eval⟩ := by
  obtain ⟨hext, c, hc, hrun⟩ := h
  refine ⟨⟨hext, c, hc, fun f env w hholds => ?_⟩, ?_, ?_, hterm⟩
  · refine (hrun f env w hholds).imp fun a f' ⟨hagree, _⟩ => ⟨hagree, ?_⟩
    rintro _ ⟨⟩
  · rintro _ ⟨⟩
  · exact iff_of_false Bool.noConfusion hshape

/-- The three ways in which a step ends. -/
theorem Reached.cases {b' : Builder captured} {v : Option ValueId} {m : Meaning R}
    (h : Reached prim sizeof callee allowed b b' v m) :
    (∃ i, v = some i ∧ m.shape = .value ∧ b'.term = false ∧ i < b'.nextValue ∧
      Emits prim sizeof callee allowed b b' (fun a f => f.vals i = a) m.eval) ∨
    (v = none ∧ m.shape = .absent ∧ b'.term = false) ∨
      (v = none ∧ m.shape = .ended ∧ b'.term = true) := by
  have hopen : m.shape ≠ .ended → b'.term = false := fun hne =>
    Bool.eq_false_iff.mpr fun hterm => hne (h.term.mp hterm)
  cases hm : m.shape with
  | value =>
    obtain ⟨i, rfl⟩ := Option.isSome_iff_exists.mp (h.isSome.mpr hm)
    obtain ⟨hext, c, hc, hrun⟩ := h.emits
    refine .inl ⟨i, rfl, rfl, hopen (by simp [hm]), h.lt i rfl, hext, c, hc,
      fun f env w hholds => ?_⟩
    exact (hrun f env w hholds).imp fun a f' ⟨hagree, hv⟩ => ⟨hagree, hv i rfl⟩
  | absent =>
    have hnone : v = none := by
      cases v with
      | none => rfl
      | some i => exact absurd (h.isSome.mp rfl) (by simp [hm])
    exact .inr (.inl ⟨hnone, rfl, hopen (by simp [hm])⟩)
  | ended =>
    have hnone : v = none := by
      cases v with
      | none => rfl
      | some i => exact absurd (h.isSome.mp rfl) (by simp [hm])
    exact .inr (.inr ⟨hnone, rfl, h.term.mpr hm⟩)

/-- A step with one value. -/
abbrev YieldsValue (prim : Prim → List Nat → World R → Except String Nat × World R)
    (sizeof : Ty → Nat)
    (callee : DefId → List Ty → List Nat → World R → Outcome Stop Nat (World R))
    (allowed : List LocalId) (x : Emit captured ValueId) (b : Builder captured)
    (eval : Option (Env → World R → Outcome Stop Nat (World R))) : Prop :=
  Yields prim sizeof callee allowed x b (fun i a f => f.vals i = a) (fun i n => i < n) eval

theorem Walks.of_eq {x : Emit captured (Option ValueId)} {m m' : Option (Meaning R)}
    (h : Walks prim sizeof callee allowed x b b₀ m) (heq : m = m') :
    Walks prim sizeof callee allowed x b b₀ m' := heq ▸ h

/-- The value of an operand. -/
theorem Walks.operand (msg : String) {x : Emit captured (Option ValueId)} {m : Option (Meaning R)}
    (h : Walks prim sizeof callee allowed x b b m) :
    YieldsValue prim sizeof callee allowed (operand msg x) b
      (m.bind fun m => if m.shape = .value then some m.eval else none) := by
  cases m with
  | none =>
    obtain ⟨halt, hx⟩ := h
    exact ⟨halt, bind_error hx⟩
  | some m =>
    obtain ⟨v, b', hx, hreached⟩ := h
    rw [Option.bind_some]
    rcases hreached.cases with ⟨i, rfl, hshape, hterm, hlt, hemits⟩ | ⟨rfl, hshape, -⟩
      | ⟨rfl, hshape, -⟩
    · rw [if_pos hshape]
      exact ⟨i, b', bind_ok hx, hemits, hlt, hterm⟩
    · rw [if_neg (by simp [hshape])]
      exact ⟨.error msg, bind_ok hx⟩
    · rw [if_neg (by simp [hshape])]
      exact ⟨.error msg, bind_ok hx⟩

/-- An operation behind its operand. -/
theorem YieldsValue.thenOp (o : Op) {x : Emit captured ValueId}
    {eval : Option (Env → World R → Outcome Stop Nat (World R))}
    (h : YieldsValue prim sizeof callee allowed x b eval) (hbound : Bound allowed b) :
    YieldsValue prim sizeof callee allowed (do let v ← x; emit o [v]) b
      (eval.map fun eval env w => (eval env w).bind fun a w => sem prim sizeof callee o [a] w) := by
  cases eval with
  | none =>
    obtain ⟨halt, hx⟩ := h
    exact ⟨halt, bind_error hx⟩
  | some eval =>
    obtain ⟨v, b', hx, hemits, hlt, hterm⟩ := h
    refine ⟨b'.nextValue, _, (bind_ok hx).trans (emit_ok hterm), ?_, Nat.lt_succ_self _, hterm⟩
    exact hemits.op (fun a => [a]) [v] o hbound fun a f hv => by rw [List.map_singleton, hv]

/-- A step with a value, as a step of the walk. -/
theorem YieldsValue.walks {x : Emit captured ValueId}
    {eval : Option (Env → World R → Outcome Stop Nat (World R))}
    (h : YieldsValue prim sizeof callee allowed x b eval) :
    Walks prim sizeof callee allowed (do return some (← x)) b b (eval.map .ofValue) := by
  cases eval with
  | none =>
    obtain ⟨halt, hx⟩ := h
    exact ⟨halt, bind_error hx⟩
  | some eval =>
    obtain ⟨i, b', hx, hemits, hlt, hterm⟩ := h
    exact ⟨some i, b', bind_ok hx, .ofValue hemits hlt hterm⟩

/-- An operation without operands. -/
theorem yieldsValue_const {o : Op} (hbound : Bound allowed b) (hterm : b.term = false) :
    YieldsValue prim sizeof callee allowed (emit o []) b
      (some fun _ w => sem prim sizeof callee o [] w) := by
  refine ⟨b.nextValue, _, emit_ok hterm, ?_, Nat.lt_succ_self _, hterm⟩
  have hstart : Emits prim sizeof callee allowed b b (fun (_ : Nat) _ => True)
      fun _ w => .done 0 w := Emits.nothing b fun _ _ _ => trivial
  exact hstart.op (fun _ => []) [] o hbound fun _ _ _ => rfl

/-- An operation behind two operands. -/
theorem YieldsValue.thenOp₂ (o : Op) {x y : Emit captured ValueId}
    {eval eval' : Option (Env → World R → Outcome Stop Nat (World R))}
    (h : YieldsValue prim sizeof callee allowed x b eval) (hbound : Bound allowed b)
    (h' : ∀ b' : Builder captured, Bound allowed b' → b'.term = false →
      YieldsValue prim sizeof callee allowed y b' eval') :
    YieldsValue prim sizeof callee allowed (do let v ← x; let u ← y; emit o [v, u]) b
      (eval.bind fun eval => eval'.map fun eval' env w => (eval env w).bind fun a w =>
        (eval' env w).bind fun c w => sem prim sizeof callee o [a, c] w) := by
  cases eval with
  | none =>
    obtain ⟨halt, hx⟩ := h
    exact ⟨halt, bind_error hx⟩
  | some eval =>
    obtain ⟨v, b₁, hx, hemits, hlt, hterm⟩ := h
    have hy := h' b₁ (hbound.of_extends hemits.within) hterm
    rw [Option.bind_some]
    cases eval' with
    | none =>
      obtain ⟨halt, hy⟩ := hy
      exact ⟨halt, (bind_ok hx).trans (bind_error hy)⟩
    | some eval' =>
      obtain ⟨u, b₂, hy, hemits', hlt', hterm'⟩ := hy
      refine ⟨b₂.nextValue, _, (bind_ok hx).trans ((bind_ok hy).trans (emit_ok hterm')), ?_,
        Nat.lt_succ_self _, hterm'⟩
      have hop := (hemits.pair hbound hlt hemits').op (fun p => [p.1, p.2]) [v, u] o hbound
        fun p f ⟨hv, hu⟩ => by rw [List.map_cons, List.map_singleton, hv, hu]
      simpa [Outcome.bind_assoc] using hop

/-- The values of arguments. -/
abbrev YieldsValues (prim : Prim → List Nat → World R → Except String Nat × World R)
    (sizeof : Ty → Nat)
    (callee : DefId → List Ty → List Nat → World R → Outcome Stop Nat (World R))
    (allowed : List LocalId) (x : Emit captured (List ValueId)) (b : Builder captured)
    (eval : Option (Env → World R → Outcome Stop (List Nat) (World R))) : Prop :=
  Yields prim sizeof callee allowed x b (fun is as f => is.map f.vals = as)
    (fun is n => ∀ i ∈ is, i < n) eval

theorem YieldsValue.cons {x : Emit captured ValueId} {xs : Emit captured (List ValueId)}
    {eval : Option (Env → World R → Outcome Stop Nat (World R))}
    {evals : Option (Env → World R → Outcome Stop (List Nat) (World R))}
    (h : YieldsValue prim sizeof callee allowed x b eval) (hbound : Bound allowed b)
    (h' : ∀ b' : Builder captured, Bound allowed b' → b'.term = false →
      YieldsValues prim sizeof callee allowed xs b' evals) :
    YieldsValues prim sizeof callee allowed (do let v ← x; let vs ← xs; return v :: vs) b
      (eval.bind fun eval => evals.map fun evals env w => (eval env w).bind fun a w =>
        (evals env w).bind fun as w => .done (a :: as) w) := by
  cases eval with
  | none =>
    obtain ⟨halt, hx⟩ := h
    exact ⟨halt, bind_error hx⟩
  | some eval =>
    obtain ⟨v, b₁, hx, hemits, hlt, hterm⟩ := h
    have hxs := h' b₁ (hbound.of_extends hemits.within) hterm
    rw [Option.bind_some]
    cases evals with
    | none =>
      obtain ⟨halt, hxs⟩ := hxs
      exact ⟨halt, (bind_ok hx).trans (bind_error hxs)⟩
    | some evals =>
      obtain ⟨vs, b₂, hxs, hemits', hlts, hterm'⟩ := hxs
      refine ⟨v :: vs, b₂, (bind_ok hx).trans (bind_ok hxs), ?_, ?_, hterm'⟩
      · obtain ⟨hext, c, hc, hrun⟩ := hemits.pair hbound hlt hemits'
        refine ⟨hext, c, hc, fun f env w hholds => ?_⟩
        have hpair := hrun f env w hholds
        rw [← Outcome.bind_pure (run (sem prim sizeof callee) c f w)]
        have hmap : ((eval env w).bind fun a w => (evals env w).bind fun as w =>
            (.done (a :: as) w : Outcome Stop (List Nat) (World R))) =
            ((eval env w).bind fun a w => (evals env w).bind fun as w =>
              .done (a, as) w).bind fun p w => .done (p.1 :: p.2) w := by
          simp [Outcome.bind_assoc]
        dsimp only
        rw [hmap]
        refine hpair.bind fun p f' w' ⟨hagree, hv, hvs⟩ => .done w' ⟨hagree, ?_⟩
        rw [List.map_cons, hv, hvs]
      · intro i hi
        rcases List.mem_cons.mp hi with rfl | hi
        · exact Nat.lt_of_lt_of_le hlt hemits'.within.nextValue
        · exact hlts i hi

end Walks

/-! ## Casts and expressions -/

section Expressions

variable {P : Program} {walk : Walk P.capturedLocals} {cx : FnCtx} {R : Type}
  {prim : Prim → List Nat → World R → Except String Nat × World R} {sizeof : Ty → Nat}
  {callee : DefId → List Ty → List Nat → World R → Outcome Stop Nat (World R)}
  {allowed : List LocalId} {b : Builder P.capturedLocals}

theorem emitPrim_lowers {p : Prim} {args : List ValueId} (h : walk.lowers p = true) :
    emitPrim P walk p args = emit (.prim p) args := if_pos h

theorem emitPrim_not {p : Prim} {args : List ValueId} (h : ¬ walk.lowers p = true) :
    emitPrim P walk p args = fail (.error "not lowerable") := if_neg h

/-- A cast, behind its operand. -/
theorem Reached.cast {m : Meaning R} {v : Option ValueId} {b' : Builder P.capturedLocals}
    {source target : Ty} (h : Reached prim sizeof callee allowed b b' v m)
    (hbound : Bound allowed b)
    (hsource : isClosed source = true) (htarget : isClosed target = true) :
    Walks prim sizeof callee allowed (emitCast P walk cx v source target) b' b
      (castMeaning P walk.lowers prim m source target) := by
  unfold emitCast castMeaning
  rw [castForm_closed hsource htarget]
  generalize P.castForm [] source target = form
  rcases h.cases with ⟨i, rfl, hshape, hterm, hlt, hemits⟩ | ⟨rfl, hshape, hterm⟩
    | ⟨rfl, hshape, hterm⟩ <;>
    rw [hshape]
  · cases form with
    | pointer => exact ⟨some i, b', rfl, h⟩
    | same missing => exact ⟨some i, b', rfl, h⟩
    | prim p result missing =>
      by_cases hp : walk.lowers p = true
      · dsimp only
        rw [if_pos hp, emitPrim_lowers hp]
        have hboth := hemits.opBeside (.prim p) hbound hlt
        have hnext : i < b'.nextValue + 1 := Nat.lt_succ_of_lt hlt
        cases result with
        | operand =>
          have hvalue := hboth.map Prod.fst (fun x f => f.vals i = x) fun p f hp => hp.1
          refine ⟨some i, _, bind_ok (emit_ok hterm), ?_⟩
          simpa [Outcome.bind_assoc, sem, Meaning.ofValue, Meaning.andThen] using
            Reached.ofValue hvalue hnext hterm
        | fresh =>
          have hvalue := hboth.map Prod.snd (fun y f => f.vals b'.nextValue = y) fun p f hp => hp.2
          refine ⟨some b'.nextValue, _, bind_ok (emit_ok hterm), ?_⟩
          simpa [Outcome.bind_assoc, sem, Meaning.ofValue, Meaning.andThen] using
            Reached.ofValue hvalue (Nat.lt_succ_self _) hterm
        | absent =>
          have hvalue := hboth.map Prod.snd (fun y f => f.vals b'.nextValue = y) fun p f hp => hp.2
          refine ⟨none, _, bind_ok (emit_ok hterm), ?_⟩
          refine .noValue (fun y f => f.vals b'.nextValue = y) .absent ?_ Shape.noConfusion ?_
          · simpa [Outcome.bind_assoc, sem] using hvalue
          · simp [Builder.push, hterm]
      · dsimp only
        rw [if_neg hp, emitPrim_not hp]
        exact ⟨_, rfl⟩
  · cases form with
    | pointer =>
      refine ⟨some b'.nextValue, _, bind_ok (emit_ok hterm), ?_⟩
      exact .ofValue (h.emits.op (fun _ => []) [] _ hbound fun _ _ _ => rfl)
        (Nat.lt_succ_self _) hterm
    | same missing => exact ⟨_, rfl⟩
    | prim p result missing => exact ⟨_, rfl⟩
  · cases form with
    | pointer => exact ⟨.filled, bind_error (if_pos hterm)⟩
    | same missing => exact ⟨_, rfl⟩
    | prim p result missing => exact ⟨_, rfl⟩

/-- The panic of a cast that cannot succeed. -/
def castPanic : Op := .panic "cast failed: interface object is not the requested type"

theorem finishStaticCast_eq {v : Option ValueId} {b' : Builder P.capturedLocals}
    {source target : Ty}
    (hsource : isClosed source = true) (htarget : isClosed target = true) :
    finishStaticCast P cx v source target b' =
      if b'.term = true then .ok (none, b')
      else if source = target then .ok (v, b')
      else .ok (none, { b'.push fun dst => .op dst castPanic [] with term := true }) := by
  unfold finishStaticCast
  refine (bind_ok rfl).trans ?_
  rw [resolveShallow_closed hsource, resolveShallow_closed htarget]
  by_cases hterm : b'.term = true
  · rw [if_pos hterm, if_pos hterm]
    rfl
  · rw [if_neg hterm, if_neg hterm]
    by_cases hsame : source = target
    · rw [if_pos hsame, if_pos hsame]
      rfl
    · rw [if_neg hsame, if_neg hsame]
      exact bind_ok (if_neg hterm)

/-- A cast that needs no object of an interface, behind its source. -/
theorem Reached.staticCast {m : Meaning R} {v : Option ValueId} {b' : Builder P.capturedLocals}
    {source target : Ty} (h : Reached prim sizeof callee allowed b b' v m)
    (hbound : Bound allowed b)
    (hsource : isClosed source = true) (htarget : isClosed target = true) :
    Walks prim sizeof callee allowed (finishStaticCast P cx v source target) b' b
      (some (staticCastMeaning m source target)) := by
  unfold Walks staticCastMeaning
  rw [finishStaticCast_eq hsource htarget]
  by_cases hended : m.shape = .ended
  · have hnone : v = none := by
      rcases h.cases with ⟨i, -, hshape, -⟩ | ⟨rfl, -⟩ | ⟨rfl, -⟩
      · rw [hended] at hshape
        cases hshape
      · rfl
      · rfl
    rw [if_pos (.inl hended), if_pos (h.term.mpr hended)]
    exact ⟨none, b', rfl, hnone ▸ h⟩
  · have hopen : ¬ b'.term = true := fun hterm => hended (h.term.mp hterm)
    rw [if_neg hopen]
    by_cases hsame : source = target
    · rw [if_pos (.inr hsame), if_pos hsame]
      exact ⟨v, b', rfl, h⟩
    · rw [if_neg (not_or.mpr ⟨hended, hsame⟩), if_neg hsame]
      refine ⟨none, _, rfl,
        .noValue (fun _ _ => True) .ended ?_ Shape.noConfusion (iff_of_true rfl rfl)⟩
      obtain ⟨hext, c, hc, hrun⟩ := h.emits.op (fun _ => []) [] castPanic hbound fun _ _ _ => rfl
      refine ⟨⟨hext.nextValue, hext.nextVar, hext.vars, hext.cells, hext.ifaceConcretes,
        hext.owned⟩, c, hc, ?_⟩
      exact fun f env w hholds => (hrun f env w hholds).imp fun _ _ ⟨hagree, _⟩ => ⟨hagree, trivial⟩

variable (walk cx)

/-- A name that is bound. -/
theorem walks_name {ty : Ty} {l : LocalId} (inline : Inliner P) (hl : l ∈ allowed)
    (hbound : Bound allowed b) (hterm : b.term = false) :
    Walks prim sizeof callee allowed (hExpr P walk cx inline (.name ty l)) b b
      (meaning P walk.lowers prim (.name ty l)) := by
  obtain ⟨hcell, x, hx, hlt⟩ := hbound l hl
  have hread : readLocal P l b = .ok (b.nextValue, b.push fun dst => .use dst x) := by
    unfold readLocal
    rw [hx, hcell]
    rfl
  rw [hExpr, meaning]
  have hyields : YieldsValue prim sizeof callee allowed (readLocal P l) b
      (some fun env w => .done (env l) w) := by
    refine ⟨b.nextValue, _, hread, ⟨.push b _, [.use b.nextValue x], rfl, fun f env w hholds => ?_⟩,
      Nat.lt_succ_self _, hterm⟩
    rw [run_single, step]
    exact .done w ⟨.put_val f _ le_rfl, (put_self _ _ _).trans (hholds l hl x hx)⟩
  exact hyields.walks

/-- A step whose meaning comes from the one before it. -/
theorem Walks.bind {x : Emit P.capturedLocals (Option ValueId)} {m : Option (Meaning R)}
    {g : Option ValueId → Emit P.capturedLocals (Option ValueId)}
    (next : Meaning R → Option (Meaning R))
    (h : Walks prim sizeof callee allowed x b b m)
    (hnext : ∀ m v b', Reached prim sizeof callee allowed b b' v m →
      Walks prim sizeof callee allowed (g v) b' b (next m)) :
    Walks prim sizeof callee allowed (x >>= g) b b (m.bind next) := by
  cases m with
  | none =>
    obtain ⟨halt, hx⟩ := h
    exact ⟨halt, bind_error hx⟩
  | some m =>
    obtain ⟨v, b', hx, hreached⟩ := h
    have hwalks := hnext m v b' hreached
    rw [Option.bind_some]
    unfold Walks at hwalks ⊢
    rwa [bind_ok hx]

/-- A general cast. -/
theorem Walks.cast {x : Emit P.capturedLocals (Option ValueId)} {m : Option (Meaning R)}
    {source target : Ty} (h : Walks prim sizeof callee allowed x b b m) (hbound : Bound allowed b)
    (hsource : isClosed source = true) (htarget : isClosed target = true) :
    Walks prim sizeof callee allowed (do emitCast P walk cx (← x) source target) b b
      (do castMeaning P walk.lowers prim (← m) source target) :=
  h.bind _ fun _ _ _ hreached => hreached.cast hbound hsource htarget

/-- A cast of what is no cast itself goes the general way. -/
theorem hExpr_cast (inline : Inliner P) (ty target : Ty) {e : Expr}
    (hcast : ∀ mid source iface, e = .cast mid .asOp source iface → False)
    (hother : ∀ ty' form captures, e = .other ty' form captures → False) :
    hExpr P walk cx inline (.cast ty .asOp e target) =
      (do emitCast P walk cx (← hExpr P walk cx inline e) e.ty target) := by
  rw [hExpr]
  · exact hother
  · exact hcast

variable (prim sizeof callee)

mutual

/-- The walk emits the meaning of a form, in every place where its locals are bound. -/
theorem hExpr_walks (inline : Inliner P) :
    ∀ (e : Expr) (b : Builder P.capturedLocals), e.admitted allowed = true → e.closed = true →
      Bound allowed b → b.term = false →
      Walks prim sizeof callee allowed (hExpr P walk cx inline e) b b (meaning P walk.lowers prim e)
  | .int ty v, b, _, hclosed, hbound, hterm => by
    have hty : resolveShallow cx.subst ty = ty := resolveShallow_closed hclosed
    rw [hExpr, meaning, hty]
    exact (yieldsValue_const hbound hterm).walks
  | .float ty bits, b, _, _, hbound, hterm => by
    rw [hExpr, meaning]
    exact (yieldsValue_const hbound hterm).walks
  | .bool _ v, b, _, _, hbound, hterm => by
    rw [hExpr, meaning]
    exact (yieldsValue_const hbound hterm).walks
  | .char _ c, b, _, _, hbound, hterm => by
    rw [hExpr, meaning]
    exact (yieldsValue_const hbound hterm).walks
  | .null _, b, _, _, hbound, hterm => by
    rw [hExpr, meaning]
    refine ⟨none, b, rfl, .noValue (fun _ _ => True) .absent ?_ Shape.noConfusion ?_⟩
    · exact .nothing b fun _ _ _ => trivial
    · simp [hterm]
  | .name ty l, b, hadmitted, _, hbound, hterm =>
    walks_name walk cx inline (of_decide_eq_true hadmitted) hbound hterm
  | .unary ty op e _, b, hadmitted, hclosed, hbound, hterm => by
    simp only [Expr.admitted, Bool.and_eq_true] at hadmitted
    simp only [Expr.closed, Bool.and_eq_true] at hclosed
    have he := hExpr_walks inline e b hadmitted.2 hclosed.2 hbound hterm
    rw [hExpr, meaning]
    have hop := ((he.operand "operand has no value").thenOp
      (.prim (.unary op (isFloat ty) (ty = .bool))) hbound).walks
    rw [bind_assoc] at hop
    refine hop.of_eq ?_
    cases meaning P walk.lowers prim e with
    | none => rfl
    | some m =>
      by_cases hshape : m.shape = .value
      · simp only [Option.bind_some, if_pos hshape]
        exact (if_pos hshape).symm
      · simp only [Option.bind_some, if_neg hshape]
        exact (if_neg hshape).symm
  | .binary ty op l r overloaded, b, hadmitted, hclosed, hbound, hterm => by
    simp only [Expr.admitted, Bool.and_eq_true, Bool.not_eq_true'] at hadmitted
    simp only [Expr.closed, Bool.and_eq_true] at hclosed
    obtain ⟨⟨hplain, hl⟩, hr⟩ := hadmitted
    have hleft := hExpr_walks inline l b hl hclosed.1.2 hbound hterm
    have hright := fun b' hb' ht' => hExpr_walks inline r b' hr hclosed.2 hb' ht'
    have hop := ((hleft.operand "operand has no value").thenOp₂ (.prim (.binop op l.ty)) hbound
      fun b' hb' ht' => (hright b' hb' ht').operand "operand has no value").walks
    rw [hExpr, meaning, if_neg (by simpa [and_assoc] using hplain)]
    simp only [bind_assoc] at hop
    refine hop.of_eq ?_
    cases meaning P walk.lowers prim l with
    | none => rfl
    | some m =>
      cases meaning P walk.lowers prim r with
      | none => by_cases hshape : m.shape = .value <;> simp [hshape]
      | some m' =>
        by_cases hshape : m.shape = .value
        · by_cases hshape' : m'.shape = .value
          · simp only [Option.bind_some, if_pos hshape, if_pos hshape']
            exact (if_pos ⟨hshape, hshape'⟩).symm
          · simp [hshape, hshape']
        · simp [hshape]
  | .cast ty .asOp e target, b, hadmitted, hclosed, hbound, hterm => by
    have hparts : e.admitted allowed = true := by simpa only [Expr.admitted] using hadmitted
    simp only [Expr.closed, Bool.and_eq_true] at hclosed
    have he := hExpr_walks inline e b hparts hclosed.2 hbound hterm
    have hgeneral : Walks prim sizeof callee allowed
        (do emitCast P walk cx (← hExpr P walk cx inline e) e.ty target) b b
        (do castMeaning P walk.lowers prim (← meaning P walk.lowers prim e) e.ty target) :=
      he.cast walk cx hbound (Expr.closed_ty hclosed.2) hclosed.1.2
    cases e with
    | cast mid op source iface =>
      cases op with
      | asOp =>
        rw [Expr.admitted] at hparts
        have hclosed' := hclosed.2
        simp only [Expr.closed, Bool.and_eq_true] at hclosed'
        have hsource := hExpr_walks inline source b hparts hclosed'.2 hbound hterm
        rw [hExpr, meaning,
          staticDirect_closed (Expr.closed_ty hclosed'.2) hclosed'.1.2 hclosed'.1.1
          hclosed.1.2]
        split
        · refine hsource.bind (fun m => some (staticCastMeaning m source.ty target)) ?_
          exact fun m v b' hreached =>
            hreached.staticCast hbound (Expr.closed_ty hclosed'.2) hclosed.1.2
        · exact hgeneral
      | isOp => simp [Expr.admitted] at hparts
    | other ty form captures => simp [Expr.admitted] at hparts
    | _ =>
      rw [hExpr_cast walk cx inline ty target, meaning]
      · exact hgeneral
      all_goals nofun
  | .num ty intr args, b, hadmitted, hclosed, hbound, hterm => by
    rw [Expr.admitted] at hadmitted
    simp only [Expr.closed, Bool.and_eq_true] at hclosed
    have hargs := hArgs_yields inline "numeric intrinsic argument has no value" args b hadmitted
      hclosed.2 hbound hterm
    rw [hExpr, meaning, resolveIntr_closed hclosed.1.2]
    cases hevals : meanings P walk.lowers prim args with
    | none =>
      rw [hevals] at hargs
      obtain ⟨halt, hx⟩ := hargs
      exact ⟨halt, bind_error hx⟩
    | some evals =>
      rw [hevals] at hargs
      obtain ⟨vs, b', hx, hemits, -, hterm'⟩ := hargs
      by_cases hlowers : walk.lowers (.num intr) = true
      · have hop := hemits.op (fun as => as) vs (.prim (.num intr)) hbound fun _ _ has => has
        simp only [Option.bind_eq_bind, Option.bind_some, if_pos hlowers]
        refine ⟨some b'.nextValue, _, (bind_ok hx).trans (bind_ok ?_),
          .ofValue hop (Nat.lt_succ_self _) hterm'⟩
        rw [emitPrim_lowers hlowers]
        exact emit_ok hterm'
      · simp only [Option.bind_eq_bind, Option.bind_some, if_neg hlowers]
        refine ⟨.error "not lowerable", (bind_ok hx).trans (bind_error ?_)⟩
        rw [emitPrim_not hlowers]
        rfl
  | .cast _ .isOp _ _, _, hadmitted, _, _, _ | .call .., _, hadmitted, _, _, _
  | .other .., _, hadmitted, _, _, _ => by simp [Expr.admitted] at hadmitted

theorem hArgs_yields (inline : Inliner P) (msg : String) :
    ∀ (es : List Expr) (b : Builder P.capturedLocals), Expr.admittedAll allowed es = true →
      Expr.closedAll es = true → Bound allowed b → b.term = false →
      YieldsValues prim sizeof callee allowed (hArgs P walk cx inline msg es) b
        (meanings P walk.lowers prim es)
  | [], b, _, _, _, hterm => by
    rw [hArgs, meanings]
    exact ⟨[], b, rfl, .nothing b fun _ _ _ => rfl, List.forall_mem_nil _, hterm⟩
  | e :: es, b, hadmitted, hclosed, hbound, hterm => by
    simp only [Expr.admittedAll, Bool.and_eq_true] at hadmitted
    simp only [Expr.closedAll, Bool.and_eq_true] at hclosed
    have he := hExpr_walks inline e b hadmitted.1 hclosed.1 hbound hterm
    have hes := fun b' hb' ht' => hArgs_yields inline msg es b' hadmitted.2 hclosed.2 hb' ht'
    rw [hArgs, meanings]
    have hcons := (he.operand msg).cons hbound hes
    cases hm : meaning P walk.lowers prim e with
    | none =>
      rw [hm] at hcons
      exact hcons
    | some m =>
      rw [hm] at hcons
      cases hevals : meanings P walk.lowers prim es with
      | none =>
        rw [hevals] at hcons
        by_cases hshape : m.shape = .value <;> simpa [hshape] using hcons
      | some evals =>
        rw [hevals] at hcons
        by_cases hshape : m.shape = .value <;> simpa [hshape] using hcons

end

end Expressions

end Emits

end backend.inline
