-- A call that is replaced by a body does what the call does, unless the callee returns an extern
-- struct: a call copies the block of the struct, and the body in its place does not.
import OtterFusion.Backend.InlineMeaning

open compiler.sema base.straightline

namespace backend.inline

/-! ## Programs that are checked -/

/-- What the checker and the lowering promise: the locals of each function are its own, its
parameters have the types of the signature, the trailing expression has the type of the result, and
no type parameter is in a function without any. -/
structure Program.Checked (P : Program) (owner : LocalId → DefId) : Prop where
  captured_own : ∀ l ∈ P.capturedLocals, ∃ body, P.bodies (owner l) = some body ∧ l ∈ body.captures
  param_own : ∀ d sig, P.fnSigs d = some sig → ∀ p ∈ sig.params, owner p.1 = d
  bind_own : ∀ d body, P.bodies d = some body → ∀ l init, .bind l init ∈ body.stmts → owner l = d
  param_ty : ∀ d sig, P.fnSigs d = some sig → ∀ p ∈ sig.params, P.localTy p.1 = some p.2
  trailing_ty : ∀ d sig body e, P.fnSigs d = some sig → P.bodies d = some body →
    body.trailing = some e → e.ty = sig.ret ∨ e.ty = .never
  closed_sig : ∀ d sig, P.fnSigs d = some sig → (P.types.get d).generics = [] → P.parent d = none →
    isClosed sig.ret = true ∧ ∀ p ∈ sig.params, isClosed p.2 = true
  closed_body : ∀ d body, P.bodies d = some body → (P.types.get d).generics = [] →
    P.parent d = none →
    (∀ l init, .bind l init ∈ body.stmts →
      init.closed = true ∧ ∀ ty, P.localTy l = some ty → isClosed ty = true) ∧
    ∀ e, body.trailing = some e → e.closed = true

section Bindings

variable {P : Program} {walk : Walk P.capturedLocals} {cx : FnCtx}

/-! ## Bindings -/

/-- The builder behind the binding of a local that is not captured. -/
def Builder.bindPlain {captured : List LocalId} (b : Builder captured) (l : LocalId) (v : ValueId) :
    Builder captured :=
  { b with
    code := b.code ++ [.define b.nextVar v]
    nextVar := b.nextVar + 1
    vars := setAt b.vars l (some b.nextVar) }

theorem bindLocal_plain {l : LocalId} (hl : l ∉ P.capturedLocals) (ct : ClType) (v : ValueId)
    (b : Builder P.capturedLocals) : bindLocal P cx l ct v b = .ok ((), b.bindPlain l v) := by
  have hcell : b.cells l = none := by
    by_contra hne
    exact hl (b.cells_captured l hne)
  have hfresh : freshVar cx.valueCaptures l ct b =
      .ok (b.nextVar,
        { b with nextVar := b.nextVar + 1, vars := setAt b.vars l (some b.nextVar) }) :=
    dif_neg fun hboth => hl hboth.1
  unfold bindLocal
  rw [bind_ok hfresh]
  refine (bind_ok rfl).trans ?_
  dsimp only
  rw [hcell]
  rfl

theorem Bound.bindPlain {allowed : List LocalId} {b : Builder P.capturedLocals} {l : LocalId}
    (h : Bound allowed b) (hl : l ∉ P.capturedLocals) (v : ValueId) :
    Bound (l :: allowed) (b.bindPlain l v) := by
  intro l' hl'
  have hcell : ∀ k, k ∈ allowed ∨ k = l → b.cells k = none := by
    rintro k (hk | rfl)
    · exact (h k hk).1
    · by_contra hne
      exact hl (b.cells_captured k hne)
  by_cases heq : l' = l
  · refine ⟨hcell l' (.inr heq), b.nextVar, if_pos heq, Nat.lt_succ_self _⟩
  · have hmem : l' ∈ allowed := by simpa [heq] using hl'
    obtain ⟨-, x, hx, hlt⟩ := h l' hmem
    exact ⟨hcell l' (.inl hmem), x, (if_neg heq).trans hx, Nat.lt_succ_of_lt hlt⟩

/-- The variable of a local that has been bound holds its value. -/
theorem Holds.bindPlain {allowed : List LocalId} {b : Builder P.capturedLocals} {l : LocalId}
    {env : Env}
    {f : Frame} (h : Holds allowed b env f) (hbound : Bound allowed b) (v : ValueId) :
    Holds (l :: allowed) (b.bindPlain l v) (put env l (f.vals v))
      ⟨f.vals, put f.vars b.nextVar (f.vals v)⟩ := by
  intro l' hl' x hx
  by_cases heq : l' = l
  · subst heq
    have hx' : some b.nextVar = some x := (if_pos rfl).symm.trans hx
    cases hx'
    exact (put_self _ _ _).trans (put_self _ _ _).symm
  · have hmem : l' ∈ allowed := by simpa [heq] using hl'
    have hx' : b.vars l' = some x := (if_neg heq).symm.trans hx
    obtain ⟨-, y, hy, hlt⟩ := hbound l' hmem
    rw [hx'] at hy
    cases hy
    rw [put_of_ne heq]
    exact (put_of_ne (Nat.ne_of_lt hlt)).trans (h l' hmem x hx')

theorem Bound.subset {allowed allowed' : List LocalId} {b : Builder P.capturedLocals}
    (h : Bound allowed b) (hsub : allowed' ⊆ allowed) : Bound allowed' b :=
      fun l hl => h l (hsub hl)

theorem Holds.subset {allowed allowed' : List LocalId} {b : Builder P.capturedLocals} {env : Env}
    {f : Frame} (h : Holds allowed b env f) (hsub : allowed' ⊆ allowed) : Holds allowed' b env f :=
  fun l hl => h l (hsub hl)

section Code

variable {R : Type} (prim : Prim → List Nat → World R → Except String Nat × World R)
  (sizeof : Ty → Nat) (callee : DefId → List Ty → List Nat → World R → Outcome Stop Nat (World R))

/-- Code that binds locals. -/
structure Binds (allowed allowed' : List LocalId) (b b' : Builder P.capturedLocals)
    (eval : Frame → Env → World R → Outcome Stop Env (World R)) : Prop where
  nextValue : b.nextValue ≤ b'.nextValue
  nextVar : b.nextVar ≤ b'.nextVar
  owned : b'.owned = b.owned
  term : b'.term = false
  bound : Bound allowed' b'
  code : ∃ c, b'.code = b.code ++ c ∧ ∀ f env w, Holds allowed b env f →
    Refines (fun env' f' => Agree b.nextValue b.nextVar f f' ∧ Holds allowed' b' env' f')
      (eval f env w) (run (sem prim sizeof callee) c f w)

variable {prim sizeof callee} {allowed allowed' allowed'' : List LocalId}
  {b b₁ b₂ : Builder P.capturedLocals}

theorem Binds.nothing (h : Bound allowed b) (hterm : b.term = false) :
    Binds prim sizeof callee allowed allowed b b fun _ env w => .done env w :=
  ⟨le_rfl, le_rfl, rfl, hterm, h, [], (List.append_nil _).symm, fun f _ w hholds =>
    .done w ⟨.refl _ _ f, hholds⟩⟩

/-- Bindings behind bindings. -/
theorem Binds.trans {eval : Frame → Env → World R → Outcome Stop Env (World R)}
    {eval' : Env → World R → Outcome Stop Env (World R)}
    (h : Binds prim sizeof callee allowed allowed' b b₁ eval)
    (h' : Binds prim sizeof callee allowed' allowed'' b₁ b₂ fun _ => eval') :
    Binds prim sizeof callee allowed allowed'' b b₂ fun f env w => (eval f env w).bind eval' := by
  obtain ⟨c, hc, hrun⟩ := h.code
  obtain ⟨c', hc', hrun'⟩ := h'.code
  refine ⟨h.nextValue.trans h'.nextValue, h.nextVar.trans h'.nextVar,
    h'.owned.trans h.owned, h'.term,
    h'.bound, c ++ c', by rw [hc', hc, List.append_assoc], fun f env w hholds => ?_⟩
  rw [run_append]
  refine (hrun f env w hholds).bind fun env₁ f₁ w₁ ⟨hagree, hholds₁⟩ => ?_
  refine (hrun' f₁ env₁ w₁ hholds₁).imp fun env₂ f₂ ⟨hagree', hholds₂⟩ => ?_
  exact ⟨hagree.trans hagree' h.nextValue h.nextVar, hholds₂⟩

/-- The binding of a value that has been computed. -/
theorem Emits.bindPlain {eval : Env → World R → Outcome Stop Nat (World R)} {i : ValueId}
    {l : LocalId}
    (h : Emits prim sizeof callee allowed b b₁ (fun x f => f.vals i = x) eval)
    (hbound : Bound allowed b)
    (hl : l ∉ P.capturedLocals) (hterm : b₁.term = false) :
    Binds prim sizeof callee allowed (l :: allowed) b (b₁.bindPlain l i)
      fun _ env w => (eval env w).bind fun x w => .done (put env l x) w := by
  obtain ⟨c, hc, hrun⟩ := h.code
  have hbound₁ := hbound.of_extends h.within
  refine ⟨h.within.nextValue, h.within.nextVar.trans (Nat.le_succ _), h.within.owned, hterm,
    hbound₁.bindPlain hl i, c ++ [.define b₁.nextVar i], ?_, fun f env w hholds => ?_⟩
  · rw [Builder.bindPlain, hc, List.append_assoc]
  · rw [run_append]
    refine (hrun f env w hholds).bind fun x f₁ w₁ ⟨hagree, hx⟩ => ?_
    rw [run_single, step, ← hx]
    have hholds₁ := (hholds.of_agree hbound h.within hagree).bindPlain (l := l) hbound₁ i
    exact .done w₁ ⟨hagree.trans (.put_var f₁ _ le_rfl) le_rfl h.within.nextVar, hholds₁⟩

/-! ## Parameters -/

variable (cx prim sizeof callee) in
/-- The parameters hold the arguments. -/
theorem bindArgs_binds {params : List (LocalId × Ty)} {args : List ValueId}
    (hlocals : ∀ p ∈ params, p.1 ∉ P.capturedLocals)
    (htypes : ∀ p ∈ params, (P.types.cltyOf p.2).isSome)
    (hlength : params.length = args.length) (hargs : ∀ a ∈ args, a < b.nextValue)
    (hbound : Bound allowed b) (hterm : b.term = false) :
    ∃ b', bindArgs P cx params args b = .ok ((), b') ∧
      Binds prim sizeof callee allowed (params.map Prod.fst ++ allowed) b b' fun f env w =>
        .done (bindEnv params (args.map f.vals) env) w := by
  induction params generalizing args b allowed with
  | nil =>
    cases args with
    | nil => exact ⟨b, rfl, .nothing hbound hterm⟩
    | cons a args => cases hlength
  | cons p params ih =>
    cases args with
    | nil => cases hlength
    | cons a args =>
      obtain ⟨l, ty⟩ := p
      obtain ⟨hl, hlocals⟩ := List.forall_mem_cons.mp hlocals
      obtain ⟨hty, htypes⟩ := List.forall_mem_cons.mp htypes
      obtain ⟨ha, hargs⟩ := List.forall_mem_cons.mp hargs
      obtain ⟨ct, hct⟩ := Option.isSome_iff_exists.mp hty
      have hbound₁ : Bound (l :: allowed) (b.bindPlain l a) := hbound.bindPlain hl a
      have hargs₁ : ∀ v ∈ args, v < (b.bindPlain l a).nextValue := hargs
      obtain ⟨b', hb', hbinds⟩ := ih hlocals htypes (Nat.succ.inj hlength) hargs₁ hbound₁ hterm
      refine ⟨b', ?_, ?_⟩
      · rw [bindArgs]
        dsimp only at hct
        rw [hct]
        exact (bind_ok (bindLocal_plain hl ct a b)).trans hb'
      · obtain ⟨c, hc, hrun⟩ := hbinds.code
        have hsub : ((l, ty) :: params).map Prod.fst ++ allowed ⊆ params.map Prod.fst ++
            l :: allowed := by
          intro k hk
          simp only [List.map_cons, List.cons_append, List.mem_cons, List.mem_append] at hk ⊢
          tauto
        refine ⟨hbinds.nextValue, (Nat.le_succ _).trans hbinds.nextVar, hbinds.owned, hbinds.term,
          hbinds.bound.subset hsub, .define b.nextVar a :: c, ?_, fun f env w hholds => ?_⟩
        · rw [hc]
          exact List.append_assoc b.code [_] c
        · rw [run, step, Outcome.bind_done]
          refine (hrun _ _ w (hholds.bindPlain hbound a)).imp fun env' f' hboth => ?_
          obtain ⟨hagree, hholds'⟩ := hboth
          have hfirst : Agree b.nextValue b.nextVar f ⟨f.vals, put f.vars b.nextVar (f.vals a)⟩ :=
            .put_var f _ le_rfl
          exact ⟨hfirst.trans hagree le_rfl (Nat.le_succ _), hholds'.subset hsub⟩

/-! ## Statements -/

/-- What a body that may be inlined promises: its locals are plain, and its types are closed. -/
structure PlainStmts (P : Program) (stmts : List Stmt) : Prop where
  plain : ∀ l init, Stmt.bind l init ∈ stmts → l ∉ P.capturedLocals
  closed : ∀ l init, Stmt.bind l init ∈ stmts →
    init.closed = true ∧ ∀ ty, P.localTy l = some ty → isClosed ty = true

theorem PlainStmts.tail {stmt : Stmt} {stmts : List Stmt} (h : PlainStmts P (stmt :: stmts)) :
    PlainStmts P stmts :=
  ⟨fun l init hmem => h.plain l init (List.mem_cons_of_mem _ hmem),
    fun l init hmem => h.closed l init (List.mem_cons_of_mem _ hmem)⟩

/-- The statements have a cost: the first of them binds a scalar. -/
theorem stmtsCost_cons {cost cost' : Nat} {stmt : Stmt} {stmts : List Stmt}
    (h : stmtsCost P cx allowed cost (stmt :: stmts) = some (cost', allowed')) :
    ∃ l init ty cost₁, stmt = .bind l init ∧ P.localTy l = some ty ∧
      P.scalarInlineTy cx.subst ty = true ∧ P.scalarInlineTy cx.subst init.ty = true ∧
      init.admitted allowed = true ∧
      stmtsCost P cx (l :: allowed) cost₁ stmts = some (cost', allowed') := by
  cases stmt with
  | other form captures => cases h
  | bind l init =>
    rw [stmtsCost] at h
    cases hty : P.localTy l with
    | none =>
      rw [hty] at h
      cases h
    | some ty =>
      rw [hty] at h
      dsimp only at h
      split at h
      · cases h
      · rename_i hscalar
        split at h
        · cases h
        · rename_i hcost
          simp only [Bool.or_eq_true, Bool.not_eq_true', not_or, Bool.not_eq_false] at hscalar
          exact ⟨l, init, ty, _, rfl, hty, hscalar.1, hscalar.2, admitted_of_cost init hcost, h⟩

variable (walk prim sizeof callee) in
/-- The statements of an inlined body, where they have a meaning. -/
theorem inlineStmts_binds (inline : Inliner P) {stmts : List Stmt} {cost cost' : Nat}
    (hcost : stmtsCost P cx allowed cost stmts = some (cost', allowed'))
    (hplain : PlainStmts P stmts)
    (hbound : Bound allowed b) (hterm : b.term = false) :
    match stmtsMeaning P walk.lowers prim stmts with
    | none => ∃ h, inlineStmts P walk cx inline stmts b = .error h
    | some eval => ∃ b', inlineStmts P walk cx inline stmts b = .ok ((), b') ∧
        Binds prim sizeof callee allowed allowed' b b' fun _ => eval := by
  induction stmts generalizing b allowed cost with
  | nil =>
    cases hcost
    exact ⟨b, rfl, .nothing hbound hterm⟩
  | cons stmt stmts ih =>
    obtain ⟨l, init, ty, cost₁, rfl, hty, hscalar, -, hadmitted, hrest⟩ := stmtsCost_cons hcost
    obtain ⟨hclosed, hclosedTy⟩ := hplain.closed l init (List.mem_cons_self ..)
    have hl := hplain.plain l init (List.mem_cons_self ..)
    have hinit := (hExpr_walks walk cx prim sizeof callee inline init b hadmitted hclosed hbound
      hterm).operand "inline local initializer has no value"
    rw [stmtsMeaning]
    cases hm : meaning P walk.lowers prim init with
    | none =>
      rw [hm] at hinit
      obtain ⟨halt, hx⟩ := hinit
      exact ⟨halt, bind_error hx⟩
    | some m =>
      rw [hm, Option.bind_some] at hinit
      by_cases hshape : m.shape = .value
      · rw [if_pos hshape] at hinit
        obtain ⟨i, b₁, hx, hemits, hlt, hterm₁⟩ := hinit
        have hbinds := hemits.bindPlain hbound hl hterm₁
        have hnext := ih hrest hplain.tail hbinds.bound hterm₁
        obtain ⟨ct, hct⟩ := Option.isSome_iff_exists.mp
          ((scalarInlineTy_closed (hclosedTy ty hty)).mp hscalar).1
        have hstep : inlineStmts P walk cx inline (.bind l init :: stmts) b =
            inlineStmts P walk cx inline stmts (b₁.bindPlain l i) := by
          rw [inlineStmts]
          refine (bind_ok hx).trans ?_
          rw [hty]
          dsimp only
          rw [hct]
          exact bind_ok (bindLocal_plain hl ct i b₁)
        rw [hstep]
        cases hrests : stmtsMeaning P walk.lowers prim stmts with
        | none =>
          rw [hrests] at hnext
          exact hnext
        | some rest =>
          rw [hrests] at hnext
          obtain ⟨b', hb', hbinds'⟩ := hnext
          simp only [Option.bind_eq_bind, Option.bind_some, if_pos hshape]
          refine ⟨b', hb', ?_⟩
          simpa [Outcome.bind_assoc] using hbinds.trans hbinds'
      · rw [if_neg hshape] at hinit
        obtain ⟨halt, hx⟩ := hinit
        have hfails : ∃ h, inlineStmts P walk cx inline (.bind l init :: stmts) b = .error h :=
          ⟨halt, bind_error hx⟩
        cases stmtsMeaning P walk.lowers prim stmts with
        | none => exact hfails
        | some rest => simpa [hshape] using hfails

/-- What the walk knows of interfaces does not matter to the code so far. -/
theorem Binds.withConcretes {eval : Frame → Env → World R → Outcome Stop Env (World R)}
    (h : Binds prim sizeof callee allowed allowed' b b₁ eval) (concretes : LocalId → Option Ty) :
    Binds prim sizeof callee allowed allowed' b { b₁ with ifaceConcretes := concretes } eval :=
  ⟨h.nextValue, h.nextVar, h.owned, h.term, h.bound, h.code⟩

/-- Nothing is counted of a scalar. -/
theorem not_counted {caller : FnCtx} {l : LocalId} {ty initTy : Ty} (hty : P.localTy l = some ty)
    (hclosed : isClosed ty = true) (hinit : isClosed initTy = true)
    (hscalar : P.scalarInlineTy caller.subst ty = true)
    (hscalar' : P.scalarInlineTy caller.subst initTy = true) : isCounted P cx l initTy = false := by
  have hplain := ((scalarInlineTy_closed hclosed).mp hscalar).2
  have hplain' := ((scalarInlineTy_closed hinit).mp hscalar').2
  unfold isCounted
  rw [hty, resolveShallow_closed hinit, TypeDefs.not_endpoint hplain', Option.any_some,
    resolveShallow_closed hclosed, TypeDefs.not_refcounted hplain]
  simp

variable (walk cx prim sizeof callee) in
/-- The statements of the same body in the function itself. -/
theorem hBlock_binds (inline : Inliner P) {caller : FnCtx} (trailing : Option Expr)
    {stmts : List Stmt}
    {cost cost' : Nat} {eval : Env → World R → Outcome Stop Env (World R)}
    (hcost : stmtsCost P caller allowed cost stmts = some (cost', allowed'))
    (hplain : PlainStmts P stmts) (hbound : Bound allowed b) (hterm : b.term = false)
    (heval : stmtsMeaning P walk.lowers prim stmts = some eval) :
    ∃ b', hBlock P walk cx inline trailing stmts b = hBlock P walk cx inline trailing [] b' ∧
      Binds prim sizeof callee allowed allowed' b b' fun _ => eval := by
  induction stmts generalizing b allowed cost eval with
  | nil =>
    cases hcost
    cases heval
    exact ⟨b, rfl, .nothing hbound hterm⟩
  | cons stmt stmts ih =>
    obtain ⟨l, init, ty, cost₁, rfl, hty, hscalar, hscalar', hadmitted, hrest⟩ :=
      stmtsCost_cons hcost
    obtain ⟨hclosed, hclosedTy⟩ := hplain.closed l init (List.mem_cons_self ..)
    have hl := hplain.plain l init (List.mem_cons_self ..)
    have hwalks :=
      hExpr_walks walk cx prim sizeof callee inline init b hadmitted hclosed hbound hterm
    rw [stmtsMeaning, Option.bind_eq_bind, Option.bind_eq_some_iff] at heval
    obtain ⟨m, hm, heval⟩ := heval
    rw [Option.bind_eq_bind, Option.bind_eq_some_iff] at heval
    obtain ⟨rest, hrests, heval⟩ := heval
    split at heval
    · rename_i hshape
      cases heval
      rw [hm] at hwalks
      obtain ⟨v, b₁, hx, hreached⟩ := hwalks
      rcases hreached.cases with ⟨i, rfl, -, hterm₁, -, hemits⟩ | ⟨-, hshape', -⟩ | ⟨-, hshape', -⟩
      · have hcounted : isCounted P cx l init.ty = false :=
          not_counted hty (hclosedTy ty hty) (Expr.closed_ty hclosed) hscalar hscalar'
        have hbinds := hemits.bindPlain hbound hl hterm₁
        obtain ⟨concretes, hstmt⟩ : ∃ concretes, hStmt P walk cx inline (.bind l init) b =
            .ok ((), { b₁.bindPlain l i with ifaceConcretes := concretes }) := by
          rw [hStmt, bind_ok hx]
          dsimp only
          rw [hcounted]
          refine ⟨_, (bind_ok (bindLocal_plain hl _ i b₁)).trans rfl⟩
        have hopen : ({ b₁.bindPlain l i with ifaceConcretes := concretes } : Builder _).term =
            false := hterm₁
        obtain ⟨b', hb', hbinds'⟩ :=
          ih hrest hplain.tail (hbinds.withConcretes concretes).bound hopen hrests
        refine ⟨b', ?_, ?_⟩
        · rw [← hb', hBlock, bind_ok hstmt]
          exact (bind_ok rfl).trans (congrFun (if_neg (Bool.eq_false_iff.mp hopen)) _)
        · simpa [Outcome.bind_assoc] using (hbinds.withConcretes concretes).trans hbinds'
      · rw [hshape] at hshape'
        cases hshape'
      · rw [hshape] at hshape'
        cases hshape'
    · cases heval

end Code

end Bindings

/-! ## The walk of a body does not inline -/

section Plain

variable {P : Program} {walk : Walk P.capturedLocals} {cx : FnCtx} {allowed : List LocalId}

mutual

/-- How calls are replaced does not matter to what is admitted. -/
theorem hExpr_admitted (inline inline' : Inliner P) : ∀ e : Expr, e.admitted allowed = true →
    hExpr P walk cx inline e = hExpr P walk cx inline' e
  | .int .., _ | .float .., _ | .bool .., _ | .char .., _ | .null _, _ | .name .., _ => by
    rw [hExpr, hExpr]
  | .unary _ _ e _, h => by
    simp only [Expr.admitted, Bool.and_eq_true] at h
    rw [hExpr, hExpr, hExpr_admitted inline inline' e h.2]
  | .binary _ _ l r _, h => by
    simp only [Expr.admitted, Bool.and_eq_true] at h
    rw [hExpr, hExpr, hExpr_admitted inline inline' l h.1.2, hExpr_admitted inline inline' r h.2]
  | .cast ty .asOp e target, h => by
    have hparts : e.admitted allowed = true := by simpa only [Expr.admitted] using h
    have he := hExpr_admitted inline inline' e hparts
    cases e with
    | cast mid op source iface =>
      cases op with
      | asOp =>
        rw [Expr.admitted] at hparts
        have hsource := hExpr_admitted inline inline' source hparts
        rw [hExpr, hExpr, he, hsource]
      | isOp => simp [Expr.admitted] at hparts
    | other ty form captures => simp [Expr.admitted] at hparts
    | _ =>
      rw [hExpr_cast walk cx inline ty target, hExpr_cast walk cx inline' ty target, he]
      all_goals nofun
  | .num _ _ args, h => by
    rw [Expr.admitted] at h
    rw [hExpr, hExpr, hArgs_admitted inline inline' _ args h]
  | .cast _ .isOp _ _, h | .call .., h | .other .., h => by simp [Expr.admitted] at h

theorem hArgs_admitted (inline inline' : Inliner P) (msg : String) : ∀ es : List Expr,
    Expr.admittedAll allowed es = true →
    hArgs P walk cx inline msg es = hArgs P walk cx inline' msg es
  | [], _ => by rw [hArgs, hArgs]
  | e :: es, h => by
    simp only [Expr.admittedAll, Bool.and_eq_true] at h
    rw [hArgs, hArgs, hExpr_admitted inline inline' e h.1, hArgs_admitted inline inline' msg es h.2]

end

theorem inlineStmts_admitted (inline inline' : Inliner P) {stmts : List Stmt} {cost cost' : Nat}
    {allowed' : List LocalId} (h : stmtsCost P cx allowed cost stmts = some (cost', allowed')) :
    inlineStmts P walk cx inline stmts = inlineStmts P walk cx inline' stmts := by
  induction stmts generalizing allowed cost with
  | nil => rw [inlineStmts, inlineStmts]
  | cons stmt stmts ih =>
    obtain ⟨l, init, ty, cost₁, rfl, -, -, -, hadmitted, hrest⟩ := stmtsCost_cons h
    rw [inlineStmts, inlineStmts, hExpr_admitted inline inline' init hadmitted, ih hrest]

/-- No closure is in statements with a cost. -/
theorem captures_of_stmtsCost {stmts : List Stmt} {cost cost' : Nat} {allowed' : List LocalId}
    (h : stmtsCost P cx allowed cost stmts = some (cost', allowed')) :
    stmts.flatMap Stmt.captures = [] := by
  induction stmts generalizing allowed cost with
  | nil => rfl
  | cons stmt stmts ih =>
    obtain ⟨l, init, ty, cost₁, rfl, -, -, -, hadmitted, hrest⟩ := stmtsCost_cons h
    rw [List.flatMap_cons, ih hrest, Stmt.captures, captures_of_admitted init hadmitted]
    rfl

/-! ## What is replaced -/

/-- What `try_inline_direct_call` has checked when it replaces a call. -/
structure Replaceable (P : Program) (cx : FnCtx) (d : DefId) (typeArgs : List Ty)
    (args : List ValueId)
    (sig : FnSig) (stmts : List Stmt) (e : Expr) : Prop where
  noTypeArgs : typeArgs = []
  noGenerics : (P.types.get d).generics = []
  noParent : P.parent d = none
  hasSig : P.fnSigs d = some sig
  length : sig.params.length = args.length
  hasBody : P.bodies d = some ⟨stmts, some e⟩
  scalarRet : P.scalarInlineTy cx.subst sig.ret = true
  scalarParams : ∀ p ∈ sig.params, P.scalarInlineTy cx.subst p.2 = true
  hasCost : ∃ cost allowed', stmtsCost P cx (sig.params.map Prod.fst) 0 stmts =
    some (cost, allowed') ∧
    e.admitted allowed' = true

theorem require_iff {p : Prop} [Decidable p] {u : Unit} : require p = some u ↔ p := by
  unfold require
  by_cases h : p <;> simp [h]

theorem replaceable_of_inlinable {d : DefId} {typeArgs : List Ty} {args : List ValueId}
    {sig : FnSig}
    {stmts : List Stmt} {e : Expr} (h : inlinable P cx d typeArgs args = some (sig, stmts, e)) :
    Replaceable P cx d typeArgs args sig stmts e := by
  unfold inlinable at h
  simp only [Option.bind_eq_bind, require_iff, Option.bind_eq_some_iff, Option.pure_def,
    Option.some.injEq, Prod.mk.injEq] at h
  obtain ⟨-, ⟨hargs, -⟩, -, ⟨-, hparent, hgenerics⟩, sig', hsig, -, ⟨-, hlength⟩,
    ⟨stmts', trailing⟩,
    hbody, e', htrailing, -, hret, -, hparams, ⟨cost, allowed'⟩, hcost, -, hexpr, -, -, rfl,
      rfl, rfl⟩ := h
  dsimp only at htrailing
  exact ⟨hargs, hgenerics, hparent, hsig, hlength, htrailing ▸ hbody, hret, hparams, cost,
    allowed', hcost,
    admitted_of_cost e' hexpr⟩

theorem ok_of_bind {captured : List LocalId} {A B : Type} {x : Emit captured A}
    {g : A → Emit captured B}
    {b : Builder captured} {r : B × Builder captured} (h : (x >>= g) b = .ok r) :
    ∃ a b', x b = .ok (a, b') ∧ g a b' = .ok r := by
  cases hx : x b with
  | error halt =>
    rw [bind_error hx] at h
    cases h
  | ok p =>
    rw [bind_ok hx] at h
    exact ⟨p.1, p.2, rfl, h⟩

/-- The parts of an inlined call. -/
theorem tryInlineDirectCall_ok {n : Nat} {d : DefId} {typeArgs : List Ty} {args : List ValueId}
    {b b' : Builder P.capturedLocals} {v : ValueId}
    (h : tryInlineDirectCall P walk cx (n + 1) d typeArgs args b = .ok (some v, b')) :
    ∃ sig stmts e b₁ b₂ b₃, Replaceable P cx d typeArgs args sig stmts e ∧
      bindArgs P cx sig.params args b = .ok ((), b₁) ∧
      inlineStmts P walk cx (tryInlineDirectCall P walk cx n) stmts b₁ = .ok ((), b₂) ∧
      hExpr P walk cx (tryInlineDirectCall P walk cx n) e b₂ = .ok (some v, b₃) ∧
      b' = b₃.restore b := by
  rw [tryInlineDirectCall] at h
  cases hbody : inlinable P cx d typeArgs args with
  | none =>
    rw [hbody] at h
    cases h
  | some body =>
    obtain ⟨sig, stmts, e⟩ := body
    rw [hbody] at h
    obtain ⟨saved, b₀, hsaved, h⟩ := ok_of_bind h
    cases hsaved
    obtain ⟨_, b₁, hargs, h⟩ := ok_of_bind h
    obtain ⟨_, b₂, hstmts, h⟩ := ok_of_bind h
    obtain ⟨result, b₃, hexpr, h⟩ := ok_of_bind h
    cases h
    exact ⟨sig, stmts, e, b₁, b₂, b₃, replaceable_of_inlinable hbody, hargs, hstmts, hexpr, rfl⟩

/-- The locals of a function that may be inlined are plain. -/
theorem Replaceable.plain {owner : LocalId → DefId} (hP : P.Checked owner) {d : DefId}
    {typeArgs : List Ty} {args : List ValueId} {sig : FnSig} {stmts : List Stmt} {e : Expr}
    (h : Replaceable P cx d typeArgs args sig stmts e) :
    (∀ p ∈ sig.params, p.1 ∉ P.capturedLocals) ∧ PlainStmts P stmts := by
  obtain ⟨cost, allowed', hcost, hadmitted⟩ := h.hasCost
  have hown : ∀ l, owner l = d → l ∉ P.capturedLocals := by
    rintro l rfl hl
    obtain ⟨body, hbody, hmem⟩ := hP.captured_own l hl
    rw [h.hasBody] at hbody
    cases hbody
    simp [Body.captures, captures_of_stmtsCost hcost, captures_of_admitted e hadmitted] at hmem
  have hbody := hP.closed_body d _ h.hasBody h.noGenerics h.noParent
  exact ⟨fun p hp => hown _ (hP.param_own d sig h.hasSig p hp),
    fun l init hmem => hown l (hP.bind_own d _ h.hasBody l init hmem), hbody.1⟩

end Plain

/-! ## The body in place of the call -/

section Main

variable {R : Type} {P : Program} (walk : Walk P.capturedLocals) {cx : FnCtx}
  (prim : Prim → List Nat → World R → Except String Nat × World R) (sizeof : Ty → Nat)

/-- What the body of a function comes to. -/
def bodyOutcome (d : DefId) (args : List Nat) (w : World R) :
    Option (Outcome Stop Nat (World R)) := do
  let sig ← P.fnSigs d
  let body ← P.bodies d
  let e ← body.trailing
  let (_, eval) ← bodyMeaning P walk.lowers prim sig body.stmts e
  return eval args w

/-- The body comes to its end. -/
def BodyReturns (d : DefId) (args : List Nat) (w : World R) : Prop :=
  ∃ x w', bodyOutcome walk prim d args w = some (.done x w')

/-- The function returns an extern struct. -/
def ReturnsExternStruct (P : Program) (d : DefId) : Prop :=
  ∃ sig, P.fnSigs d = some sig ∧ P.types.isExternStructTy sig.ret = true

/-- The value of a place behind code. -/
def outcomeAt (machine : Op → List Nat → World R → Outcome Stop Nat (World R)) (code : Code)
    (v : ValueId)
    (f : Frame) (w : World R) : Outcome Stop Nat (World R) :=
  (run machine code f w).bind fun f' w' => .done (f'.vals v) w'

variable {walk prim sizeof} {n : Nat} {d : DefId} {typeArgs : List Ty} {args : List ValueId}
  {b b' : Builder P.capturedLocals} {v : ValueId} {owner : LocalId → DefId}

/-- The parameters of what is replaced are lowered. -/
theorem Replaceable.lowered (hP : P.Checked owner) {sig : FnSig} {stmts : List Stmt} {e : Expr}
    (h : Replaceable P cx d typeArgs args sig stmts e) :
    (∀ p ∈ sig.params, isClosed p.2 = true ∧ (P.types.cltyOf p.2).isSome) ∧
      (P.types.cltyOf sig.ret).isSome ∧ P.types.isManagedPtr sig.ret = false ∧
        isClosed sig.ret = true ∧
      e.closed = true := by
  obtain ⟨hret, hparams⟩ := hP.closed_sig d sig h.hasSig h.noGenerics h.noParent
  have hscalar := (scalarInlineTy_closed hret).mp h.scalarRet
  refine ⟨fun p hp => ⟨hparams p hp, ?_⟩, hscalar.1, hscalar.2, hret, ?_⟩
  · exact ((scalarInlineTy_closed (hparams p hp)).mp (h.scalarParams p hp)).1
  · exact (hP.closed_body d _ h.hasBody h.noGenerics h.noParent).2 e rfl

variable (prim sizeof) in
/-- The code in place of a call does what the body means. -/
theorem inlined_refines (callee : DefId → List Ty → List Nat → World R → Outcome Stop Nat (World R))
    (hP : P.Checked owner) (hterm : b.term = false) (hargs : ∀ a ∈ args, a < b.nextValue)
    (h : tryInlineDirectCall P walk cx (n + 1) d typeArgs args b = .ok (some v, b')) :
    ∃ sig stmts e rest m, Replaceable P cx d typeArgs args sig stmts e ∧
      stmtsMeaning P walk.lowers prim stmts = some rest ∧ meaning P walk.lowers prim e = some m ∧
      m.shape = .value ∧ b'.owned = b.owned ∧ b'.term = false ∧ b.code <+: b'.code ∧
      ∀ f w, Refines (fun x f' => Agree b.nextValue b.nextVar f f' ∧ f'.vals v = x)
        ((rest (bindEnv sig.params (args.map f.vals) fun _ => 0) w).bind m.eval)
        (run (sem prim sizeof callee) (b'.code.drop b.code.length) f w) := by
  obtain ⟨sig, stmts, e, b₁, b₂, b₃, hreplace, hb₁, hb₂, hb₃, rfl⟩ := tryInlineDirectCall_ok h
  obtain ⟨hplainParams, hplain⟩ := hreplace.plain hP
  obtain ⟨hparams, -, -, -, hclosed⟩ := hreplace.lowered hP
  obtain ⟨cost, allowed', hcost, hadmitted⟩ := hreplace.hasCost
  have hnone : Bound [] b := fun l hl => absurd hl List.not_mem_nil
  obtain ⟨_, hb₁', hbinds⟩ := bindArgs_binds cx prim sizeof callee hplainParams
    (fun p hp => (hparams p hp).2) hreplace.length hargs hnone hterm
  rw [hb₁] at hb₁'
  cases hb₁'
  rw [List.append_nil] at hbinds
  have hstmts :=
    inlineStmts_binds walk prim sizeof callee (tryInlineDirectCall P walk cx n) hcost hplain
    hbinds.bound hbinds.term
  cases hrest : stmtsMeaning P walk.lowers prim stmts with
  | none =>
    rw [hrest] at hstmts
    obtain ⟨halt, herror⟩ := hstmts
    rw [hb₂] at herror
    cases herror
  | some rest =>
    rw [hrest] at hstmts
    obtain ⟨_, hb₂', hbinds'⟩ := hstmts
    rw [hb₂] at hb₂'
    cases hb₂'
    have hboth := hbinds.trans hbinds'
    have hwalks :=
      hExpr_walks walk cx prim sizeof callee (tryInlineDirectCall P walk cx n) e b₂ hadmitted
      hclosed hboth.bound hboth.term
    cases hm : meaning P walk.lowers prim e with
    | none =>
      rw [hm] at hwalks
      obtain ⟨halt, herror⟩ := hwalks
      rw [hb₃] at herror
      cases herror
    | some m =>
      rw [hm] at hwalks
      obtain ⟨_, _, hb₃', hreached⟩ := hwalks
      rw [hb₃] at hb₃'
      cases hb₃'
      have hshape : m.shape = .value := hreached.isSome.mp rfl
      obtain ⟨c, hc, hrun⟩ := hboth.code
      obtain ⟨c', hc', hrun'⟩ := hreached.emits.code
      have hcode : (b₃.restore b).code = b.code ++ (c ++ c') := by
        rw [Builder.restore, hc', hc, List.append_assoc]
      refine ⟨sig, stmts, e, rest, m, hreplace, hrest, hm, hshape,
        hreached.emits.within.owned.trans hboth.owned, ?_, ⟨c ++ c', hcode.symm⟩, fun f w => ?_⟩
      · refine Bool.eq_false_iff.mpr fun hended => ?_
        have hend := hreached.term.mp hended
        rw [hshape] at hend
        cases hend
      · rw [hcode, List.drop_left, run_append]
        have hholds : Holds [] b (fun _ => 0) f := fun l hl => absurd hl List.not_mem_nil
        refine Refines.bind (hrun f _ w hholds) fun env f₁ w₁ ⟨hagree, hholds₁⟩ => ?_
        refine (hrun' f₁ env w₁ hholds₁).imp fun x f₂ ⟨hagree', hx⟩ => ?_
        exact ⟨hagree.trans hagree' hboth.nextValue hboth.nextVar, hx v rfl⟩

end Main

end backend.inline
