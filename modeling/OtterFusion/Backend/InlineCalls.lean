-- What a call does whose callee may be inlined, and where the body in its place does the same:
-- where no block of an extern struct is returned.
import OtterFusion.Backend.InlineExact

open compiler.sema base.straightline

namespace backend.inline

/-! ## Bodies stop with panics only -/

section Panics

variable {R A B : Type} {P : Program} {lowers : Prim → Bool}
  {prim : Prim → List Nat → World R → Except String Nat × World R}

/-- A computation that stops only with a panic. -/
def Panics (o : Outcome Stop A (World R)) : Prop := ∀ s w, o = .stopped s w → ∃ msg, s = .panic msg

theorem Panics.done (a : A) (w : World R) : Panics (.done a w) := nofun

theorem Panics.bind {o : Outcome Stop A (World R)} {g : A → World R → Outcome Stop B (World R)}
    (h : Panics o) (hnext : ∀ a w, Panics (g a w)) : Panics (o.bind g) := by
  cases o with
  | done a w => exact hnext a w
  | stopped s w =>
    intro s' w' heq
    cases heq
    exact h s w rfl

theorem panics_runPrim (p : Prim) (args : List Nat) (w : World R) :
    Panics (runPrim prim p args w) := by
  intro s w' h
  unfold runPrim at h
  split at h
  · cases h
  · cases h
    exact ⟨_, rfl⟩

/-- A meaning that stops only with a panic. -/
def Meaning.Panics (m : Meaning R) : Prop := ∀ env w, inline.Panics (m.eval env w)

theorem Meaning.Panics.andThen {m : Meaning R} (h : m.Panics) (shape : Shape)
    {next : Nat → World R → Outcome Stop Nat (World R)} (hnext : ∀ x w, inline.Panics (next x w)) :
    (m.andThen shape next).Panics := fun env w => (h env w).bind hnext

theorem castMeaning_panics {m m' : Meaning R} {source target : Ty} (hm : m.Panics)
    (h : castMeaning P lowers prim m source target = some m') : m'.Panics := by
  unfold castMeaning at h
  split at h
  · cases h
    exact hm
  · cases h
    exact hm.andThen _ fun _ w => panics_runPrim _ _ w
  · cases h
    exact hm
  · split at h
    · cases h
      exact hm.andThen _ fun _ w => (panics_runPrim _ _ w).bind fun _ w' => .done _ w'
    · cases h
  · cases h

theorem staticCastMeaning_panics {m : Meaning R} (hm : m.Panics) (source target : Ty) :
    (staticCastMeaning m source target).Panics := by
  unfold staticCastMeaning
  split
  · exact hm
  · refine hm.andThen _ fun _ w s w' heq => ?_
    cases heq
    exact ⟨_, rfl⟩

mutual

theorem meaning_panics : ∀ (e : Expr) (m : Meaning R), meaning P lowers prim e = some m → m.Panics
  | .int .., m, h | .float .., m, h | .bool .., m, h | .char .., m, h => by
    rw [meaning] at h
    cases h
    exact fun _ w => panics_runPrim _ _ w
  | .null _, m, h | .name .., m, h => by
    rw [meaning] at h
    cases h
    exact fun _ w => .done _ w
  | .unary _ _ e _, m, h => by
    rw [meaning, Option.bind_eq_bind, Option.bind_eq_some_iff] at h
    obtain ⟨me, he, h⟩ := h
    split at h
    · cases h
      exact (meaning_panics e me he).andThen _ fun _ w => panics_runPrim _ _ w
    · cases h
  | .binary _ _ l r _, m, h => by
    rw [meaning, Option.bind_eq_bind, Option.bind_eq_some_iff] at h
    obtain ⟨ml, hl, h⟩ := h
    rw [Option.bind_eq_some_iff] at h
    obtain ⟨mr, hr, h⟩ := h
    split at h
    · cases h
      have hleft := meaning_panics l ml hl
      have hright := meaning_panics r mr hr
      exact fun env w => (hleft env w).bind fun _ w => (hright env w).bind fun _ w =>
        panics_runPrim _ _ w
    · cases h
  | .cast _ _ e target, m, h => by
    have hgeneral : ∀ m,
        (do castMeaning P lowers prim (← meaning P lowers prim e) e.ty target) = some m →
        m.Panics := by
      intro m h
      rw [Option.bind_eq_bind, Option.bind_eq_some_iff] at h
      obtain ⟨me, he, h⟩ := h
      exact castMeaning_panics (meaning_panics e me he) h
    have hcast : (∀ mid source iface, e = .cast mid .asOp source iface → False) → m.Panics := by
      intro hnot
      rw [meaning] at h
      · exact hgeneral m h
      · exact hnot
    cases e with
    | cast mid op source iface =>
      cases op with
      | asOp =>
        rw [meaning] at h
        split at h
        · rw [Option.bind_eq_bind, Option.bind_eq_some_iff] at h
          obtain ⟨ms, hs, h⟩ := h
          cases h
          exact staticCastMeaning_panics (meaning_panics source ms hs) _ _
        · exact hgeneral m h
      | isOp => exact hcast nofun
    | _ => exact hcast nofun
  | .num _ _ args, m, h => by
    rw [meaning, Option.bind_eq_bind, Option.bind_eq_some_iff] at h
    obtain ⟨evals, hargs, h⟩ := h
    split at h
    · cases h
      exact fun env w => (meanings_panics args evals hargs env w).bind fun _ w =>
        panics_runPrim _ _ w
    · cases h
  | .call .., _, h | .other .., _, h => by
    rw [meaning] at h
    cases h

theorem meanings_panics :
    ∀ (es : List Expr) (evals : Env → World R → Outcome Stop (List Nat) (World R)),
    meanings P lowers prim es = some evals → ∀ env w, Panics (evals env w)
  | [], evals, h => by
    rw [meanings] at h
    cases h
    exact fun _ w => .done _ w
  | e :: es, evals, h => by
    rw [meanings, Option.bind_eq_bind, Option.bind_eq_some_iff] at h
    obtain ⟨m, hm, h⟩ := h
    rw [Option.bind_eq_bind, Option.bind_eq_some_iff] at h
    obtain ⟨rest, hrest, h⟩ := h
    split at h
    · cases h
      have hfirst := meaning_panics e m hm
      have hothers := meanings_panics es rest hrest
      exact fun env w => (hfirst env w).bind fun _ w => (hothers env w).bind fun _ w => .done _ w
    · cases h

end

theorem stmtsMeaning_panics {stmts : List Stmt} {rest : Env → World R → Outcome Stop Env (World R)}
    (h : stmtsMeaning P lowers prim stmts = some rest) (env : Env) (w : World R) :
    Panics (rest env w) := by
  induction stmts generalizing rest env w with
  | nil =>
    cases h
    exact .done _ w
  | cons stmt stmts ih =>
    cases stmt with
    | other form captures => cases h
    | bind l init =>
      rw [stmtsMeaning, Option.bind_eq_bind, Option.bind_eq_some_iff] at h
      obtain ⟨m, hm, h⟩ := h
      rw [Option.bind_eq_bind, Option.bind_eq_some_iff] at h
      obtain ⟨rest', hrest, h⟩ := h
      split at h
      · cases h
        exact (meaning_panics init m hm env w).bind fun x w => ih hrest _ w
      · cases h

end Panics

/-! ## The function itself -/

section Callee

variable {R : Type} {P : Program} {walk : Walk P.capturedLocals} {cx : FnCtx}
  {owner : LocalId → DefId}
  (prim : Prim → List Nat → World R → Except String Nat × World R) (sizeof : Ty → Nat)

/-- The parameters of a function, bound to its first values. -/
theorem bindParams_eq {params : List (LocalId × Ty)} (v : ValueId)
    (hty : ∀ p ∈ params, P.localTy p.1 = some p.2)
    (hlowered : ∀ p ∈ params, isClosed p.2 = true ∧ (P.types.cltyOf p.2).isSome) :
    bindParams P cx params v = bindArgs P cx params (List.range' v params.length) := by
  induction params generalizing v with
  | nil => rfl
  | cons p params ih =>
    obtain ⟨l, ty⟩ := p
    obtain ⟨hlocal, hty⟩ := List.forall_mem_cons.mp hty
    obtain ⟨⟨hclosed, hsome⟩, hlowered⟩ := List.forall_mem_cons.mp hlowered
    obtain ⟨ct, hct⟩ := Option.isSome_iff_exists.mp hsome
    dsimp only at hlocal hclosed hct
    rw [bindParams, List.length_cons, List.range'_succ, bindArgs, hlocal, Option.bind_some,
      resolveShallow_closed hclosed, hct]
    simp only [ih (v + 1) hty hlowered]

/-- What `emit_return` does with a value: the end of the code. -/
def returnCode (P : Program) (ret : Ty) (v next : ValueId) : Code :=
  if P.types.isExternStructTy ret then [.op next (.heapCopy ret) [v], .op (next + 1) .ret [next]]
  else [.op next .ret [v]]

/-- What the caller gets. -/
def returned (P : Program) (ret : Ty) (x : Nat) (w : World R) : Outcome Stop Nat (World R) :=
  if P.types.isExternStructTy ret then
    let (v, w') := heapCopy (sizeof ret) x w
    .done v w'
  else .done x w

variable (walk cx) in
theorem emitReturn_code {v : ValueId} {b : Builder P.capturedLocals} (hterm : b.term = false)
    (howned : b.owned = []) (hclosed : isClosed cx.retTy = true)
    (hclty : (P.types.cltyOf cx.retTy).isSome) :
    ∃ b', emitReturn P walk cx (some v) b = .ok ((), b') ∧
      b'.code = b.code ++ returnCode P cx.retTy v b.nextValue := by
  have hopen : ¬ b.term = true := by simp [hterm]
  have hstart : emitReturn P walk cx (some v) b =
      (if P.types.isExternStructTy cx.retTy then do
        let copy ← emit (.heapCopy cx.retTy) [v]
        terminate .ret [copy]
      else terminate .ret [v]) b := by
    unfold emitReturn
    rw [resolveShallow_closed hclosed]
    refine (bind_ok rfl).trans ?_
    rw [if_neg hopen]
    refine (bind_ok rfl).trans ?_
    rw [if_neg (not_not_intro howned)]
    dsimp only
    rw [if_pos hclty]
  rw [hstart, returnCode]
  by_cases hforeign : P.types.isExternStructTy cx.retTy = true
  · rw [if_pos hforeign, if_pos hforeign, bind_ok (emit_ok hterm)]
    refine ⟨_, if_neg hopen, ?_⟩
    simp [Builder.push]
  · rw [if_neg hforeign, if_neg hforeign]
    exact ⟨_, if_neg hopen, rfl⟩

/-- The first values of a function are its arguments. -/
theorem map_getD_range (xs : List Nat) :
    (List.range' 0 xs.length).map (fun v => xs.getD v 0) = xs := by
  rw [← List.range_eq_range']
  apply List.ext_getElem
  · simp
  · intro i h₁ h₂
    simp [h₂]

variable {d : DefId} {typeArgs : List Ty} {args : List ValueId} {sig : FnSig} {stmts : List Stmt}
  {e : Expr} {rest : Env → World R → Outcome Stop Env (World R)} {m : Meaning R}

variable (walk) in
/-- The code of a function that may be inlined: what the body means, and the return. -/
theorem compileFn_code (callee : DefId → List Ty → List Nat → World R → Outcome Stop Nat (World R))
    (hP : P.Checked owner) (hreplace : Replaceable P cx d typeArgs args sig stmts e)
    (hrest : stmtsMeaning P walk.lowers prim stmts = some rest)
    (hm : meaning P walk.lowers prim e = some m) (hshape : m.shape = .value) (n : Nat) :
    ∃ c i next, compileFn P walk n d [] = .ok (c ++ returnCode P sig.ret i next) ∧
      ∀ f w, Refines (fun x f' => f'.vals i = x)
        ((rest (bindEnv sig.params ((List.range' 0 sig.params.length).map f.vals) fun _ => 0)
          w).bind m.eval)
        (run (sem prim sizeof callee) c f w) := by
  obtain ⟨hplainParams, hplain⟩ := hreplace.plain hP
  obtain ⟨hparams, hclty, hmanaged, hret, hclosed⟩ := hreplace.lowered hP
  obtain ⟨cost, allowed', hcost, hadmitted⟩ := hreplace.hasCost
  let own : FnCtx := ⟨[], false, [], sig.ret⟩
  let b : Builder P.capturedLocals := .entry _ sig.params.length
  have hnone : Bound [] b := fun l hl => absurd hl List.not_mem_nil
  have hfirst : ∀ a ∈ List.range' 0 sig.params.length, a < b.nextValue := by
    intro a ha
    have hlt := (List.mem_range'_1.mp ha).2
    rwa [Nat.zero_add] at hlt
  obtain ⟨b₁, hb₁, hbinds⟩ := bindArgs_binds own prim sizeof callee hplainParams
    (fun p hp => (hparams p hp).2) List.length_range'.symm hfirst hnone rfl
  rw [List.append_nil] at hbinds
  rw [← bindParams_eq 0 (hP.param_ty d sig hreplace.hasSig) hparams] at hb₁
  obtain ⟨b₂, hb₂, hbinds'⟩ :=
    hBlock_binds walk own prim sizeof callee (tryInlineDirectCall P walk own n)
    (some e) hcost hplain hbinds.bound hbinds.term hrest
  have hboth := hbinds.trans hbinds'
  have hwalks :=
    hExpr_walks walk own prim sizeof callee (tryInlineDirectCall P walk own n) e b₂ hadmitted
    hclosed hboth.bound hboth.term
  rw [hm] at hwalks
  obtain ⟨v, b₃, hb₃, hreached⟩ := hwalks
  obtain ⟨i, rfl⟩ := Option.isSome_iff_exists.mp (hreached.isSome.mpr hshape)
  have howned : b₃.owned = [] := hreached.emits.within.owned.trans hboth.owned
  have hterm : b₃.term = false := Bool.eq_false_iff.mpr fun hended => by
    have hend := hreached.term.mp hended
    rw [hshape] at hend
    cases hend
  have hcounted : P.types.isRefcountedTy (resolveShallow own.subst e.ty) = false := by
    rw [resolveShallow_closed (Expr.closed_ty hclosed)]
    rcases hP.trailing_ty d sig _ e hreplace.hasSig hreplace.hasBody rfl with hty | hty
    · rw [hty]
      exact TypeDefs.not_refcounted hmanaged
    · rw [hty]
      rfl
  obtain ⟨b₄, hb₄, hcode⟩ := emitReturn_code walk own (v := i) hterm howned hret hclty
  obtain ⟨c, hc, hrun⟩ := hboth.code
  obtain ⟨c', hc', hrun'⟩ := hreached.emits.code
  refine ⟨c ++ c', i, b₃.nextValue, ?_, fun f w => ?_⟩
  · have hbody : hBody P walk own (tryInlineDirectCall P walk own n) sig ⟨stmts, some e⟩ b =
        .ok ((), b₄) := by
      unfold hBody
      rw [bind_ok hb₁, bind_ok (hb₂.trans hb₃)]
      have hplainEnd :
          ¬ (P.types.isRefcountedTy (resolveShallow own.subst e.ty) = true ∨ b₃.owned ≠ []) := by
        simp [hcounted, howned]
      refine (bind_ok rfl).trans ?_
      rw [if_neg hplainEnd]
      exact hb₄
    unfold compileFn
    rw [hreplace.hasSig, hreplace.hasBody, hreplace.noGenerics]
    dsimp only [List.zip_nil_left]
    rw [hbody]
    dsimp only
    rw [hcode, hc', hc]
    rfl
  · rw [run_append]
    have hholds : Holds [] b (fun _ => 0) f := fun l hl => absurd hl List.not_mem_nil
    refine (hrun f _ w hholds).bind fun env f₁ w₁ ⟨_, hholds₁⟩ => ?_
    exact (hrun' f₁ env w₁ hholds₁).imp fun x f₂ ⟨_, hx⟩ => hx i rfl

/-- The return, behind the value. -/
theorem run_returnCode (callee : DefId → List Ty → List Nat → World R → Outcome Stop Nat (World R))
    (ret : Ty) (i next : ValueId) (f : Frame) (w : World R) :
    ∃ v w', returned sizeof P ret (f.vals i) w = .done v w' ∧
      run (sem prim sizeof callee) (returnCode P ret i next) f w =
        .stopped (.returned (some v)) w' := by
  unfold returned returnCode
  by_cases hforeign : P.types.isExternStructTy ret = true
  · rw [if_pos hforeign, if_pos hforeign]
    refine ⟨_, _, rfl, ?_⟩
    simp [run, step, sem, heapCopy]
  · rw [if_neg hforeign, if_neg hforeign]
    exact ⟨_, _, rfl, rfl⟩

variable {prim sizeof}

variable (prim sizeof) in
/-- A call of a function that may be inlined: what its body means, and what the caller gets. -/
theorem callFn_eq (hP : P.Checked owner) (hreplace : Replaceable P cx d typeArgs args sig stmts e)
    (hrest : stmtsMeaning P walk.lowers prim stmts = some rest)
    (hm : meaning P walk.lowers prim e = some m) (hshape : m.shape = .value) (n k : Nat)
    {xs : List Nat} (hxs : xs.length = sig.params.length) (w : World R) :
    callFn P walk prim sizeof n (k + 1) d [] xs w =
      ((rest (bindEnv sig.params xs fun _ => 0) w).bind m.eval).bind
        (returned sizeof P sig.ret) := by
  obtain ⟨c, i, next, hcode, hrun⟩ :=
    compileFn_code walk prim sizeof (callFn P walk prim sizeof n k) hP
    hreplace hrest hm hshape n
  have hbody := hrun ⟨fun v => xs.getD v 0, fun _ => 0⟩ w
  rw [← hxs] at hbody
  dsimp only at hbody
  rw [map_getD_range] at hbody
  have hpanics : Panics ((rest (bindEnv sig.params xs fun _ => 0) w).bind m.eval) :=
    (stmtsMeaning_panics hrest _ w).bind fun env w => meaning_panics e m hm env w
  rw [callFn, hcode]
  dsimp only
  rw [run_append]
  generalize (rest (bindEnv sig.params xs fun _ => 0) w).bind m.eval = body at hbody hpanics ⊢
  generalize run (sem prim sizeof (callFn P walk prim sizeof n k)) c ⟨fun v =>
    xs.getD v 0, fun _ => 0⟩ w =
    reached at hbody ⊢
  cases body with
  | done x w₁ =>
    cases reached with
    | done f w₂ =>
      obtain ⟨rfl, hx⟩ := hbody
      obtain ⟨v, w', hreturned, hstop⟩ :=
        run_returnCode prim sizeof (callFn P walk prim sizeof n k) sig.ret i
        next f w₂
      rw [hx] at hreturned
      rw [Outcome.bind_done, Outcome.bind_done, hreturned, hstop]
      rfl
    | stopped s w₂ => cases hbody
  | stopped s w₁ =>
    cases reached with
    | done f w₂ => cases hbody
    | stopped s' w₂ =>
      obtain ⟨rfl, rfl⟩ := hbody
      obtain ⟨msg, rfl⟩ := hpanics s' w₂ rfl
      rfl

end Callee

/-! ## The body in place of the call -/

section Main

variable {R : Type} {P : Program} {walk : Walk P.capturedLocals} {cx : FnCtx}
  {owner : LocalId → DefId}
  {d : DefId} {typeArgs : List Ty} {args : List ValueId}

/-- Inlining goes one call deep: no call is in what is inlined. -/
theorem tryInlineDirectCall_succ (n : Nat) :
    tryInlineDirectCall P walk cx (n + 1) = tryInlineDirectCall P walk cx 1 := by
  funext d typeArgs args
  rw [tryInlineDirectCall, tryInlineDirectCall]
  cases hbody : inlinable P cx d typeArgs args with
  | none => rfl
  | some body =>
    obtain ⟨sig, stmts, e⟩ := body
    obtain ⟨cost, allowed', hcost, hadmitted⟩ := (replaceable_of_inlinable hbody).hasCost
    dsimp only
    rw [inlineStmts_admitted (tryInlineDirectCall P walk cx n)
      (tryInlineDirectCall P walk cx 0) hcost,
      hExpr_admitted (tryInlineDirectCall P walk cx n) (tryInlineDirectCall P walk cx 0)
        e hadmitted]

variable (walk cx) (prim : Prim → List Nat → World R → Except String Nat × World R)
  (sizeof : Ty → Nat)

/-- A call that has been replaced means what it meant: inlining ends at any depth with the same
code, the tables of the caller are as they were, and so are its values and variables when the code
has run; and the value, the world and the panic are those of the call, of functions compiled with
any depth of inlining, and as far as calls go. -/
structure Preserves (d : DefId) (typeArgs : List Ty) (args : List ValueId) (v : ValueId)
    (b b' : Builder P.capturedLocals) (f : Frame) (w : World R) : Prop where
  bounded : ∀ n, tryInlineDirectCall P walk cx (n + 1) d typeArgs args b = .ok (some v, b')
  code : b.code <+: b'.code
  vars : b'.vars = b.vars
  cells : b'.cells = b.cells
  ifaceConcretes : b'.ifaceConcretes = b.ifaceConcretes
  owned : b'.owned = b.owned
  term : b'.term = b.term
  frame : ∀ callee f' w', run (sem prim sizeof callee) (b'.code.drop b.code.length) f w =
    .done f' w' →
    Agree b.nextValue b.nextVar f f'
  outcome : ∀ n m,
    outcomeAt (sem prim sizeof (callFn P walk prim sizeof n (m + 1)))
      (b'.code.drop b.code.length) v f w =
      outcomeAt (sem prim sizeof (callFn P walk prim sizeof n (m + 1)))
        [.op b.nextValue (.call d typeArgs) args] b.nextValue f w

variable {walk cx prim sizeof} {n : Nat} {b b' : Builder P.capturedLocals} {v : ValueId}

/-- The value of a call. -/
theorem outcomeAt_call (callee : DefId → List Ty → List Nat → World R → Outcome Stop Nat (World R))
    (f : Frame) (w : World R) :
    outcomeAt (sem prim sizeof callee) [.op v (.call d typeArgs) args] v f w =
      callee d typeArgs (args.map f.vals) w := by
  rw [outcomeAt, run_single, step, sem, Outcome.bind_assoc]
  refine Eq.trans ?_ (Outcome.bind_pure _)
  congr 1
  funext x w'
  rw [Outcome.bind_done]
  exact congrArg (Outcome.done · w') (put_self ..)

theorem bodyOutcome_eq {sig : FnSig} {stmts : List Stmt} {e : Expr}
    {rest : Env → World R → Outcome Stop Env (World R)} {m : Meaning R}
    (hreplace : Replaceable P cx d typeArgs args sig stmts e)
    (hrest : stmtsMeaning P walk.lowers prim stmts = some rest)
    (hm : meaning P walk.lowers prim e = some m) (xs : List Nat) (w : World R) :
    bodyOutcome walk prim d xs w =
      some ((rest (bindEnv sig.params xs fun _ => 0) w).bind m.eval) := by
  unfold bodyOutcome bodyMeaning
  simp [hreplace.hasSig, hreplace.hasBody, hrest, hm]

/-- What the caller gets is the value itself, or a block that has been allocated for it. -/
theorem returned_iff {ret : Ty} {o : Outcome Stop Nat (World R)} :
    o.bind (returned sizeof P ret) = o ↔
      ¬ (P.types.isExternStructTy ret = true ∧ ∃ x w, o = .done x w) := by
  by_cases hforeign : P.types.isExternStructTy ret = true
  · cases o with
    | done x w =>
      refine iff_of_false (fun h => ?_) fun hnot => hnot ⟨hforeign, x, w, rfl⟩
      rw [Outcome.bind_done, returned, if_pos hforeign] at h
      injection h with hv hw
      have hnext : w.next + blockSize (sizeof ret) = w.next := congrArg World.next hw
      unfold blockSize at hnext
      omega
    | stopped s w =>
      refine iff_of_true rfl ?_
      rintro ⟨-, x, w', h⟩
      cases h
  · refine iff_of_true ?_ fun h => hforeign h.1
    refine Eq.trans ?_ (Outcome.bind_pure o)
    congr 1
    funext x w
    exact if_neg hforeign

/-- A call that is replaced by the body of its callee keeps its meaning, unless the body comes to
its end with an extern struct, of which a call returns a copy. -/
theorem inline_preserves_iff (hP : P.Checked owner) (hterm : b.term = false)
    (hargs : ∀ a ∈ args, a < b.nextValue)
    (h : tryInlineDirectCall P walk cx (n + 1) d typeArgs args b = .ok (some v, b')) (f : Frame)
    (w : World R) :
    Preserves walk cx prim sizeof d typeArgs args v b b' f w ↔
      ¬ (ReturnsExternStruct P d ∧ BodyReturns walk prim d (args.map f.vals) w) := by
  obtain ⟨sig, stmts, e, rest, m, hreplace, hrest, hm, hshape, howned, hterm', hcode, -⟩ :=
    inlined_refines prim sizeof (fun _ _ _ w => .stopped .noCode w) hP hterm hargs h
  have hbody := bodyOutcome_eq hreplace hrest hm (args.map f.vals) w
  have hlength : (args.map f.vals).length = sig.params.length := by
    rw [List.length_map]
    exact hreplace.length.symm
  have hcall := fun n k => callFn_eq prim sizeof hP hreplace hrest hm hshape n k hlength w
  generalize (rest (bindEnv sig.params (args.map f.vals) fun _ => 0) w).bind m.eval = body
    at hbody hcall
  have hinlined : ∀ callee,
      Refines (fun x f' => Agree b.nextValue b.nextVar f f' ∧ f'.vals v = x) body
      (run (sem prim sizeof callee) (b'.code.drop b.code.length) f w) := by
    intro callee
    obtain ⟨sig', stmts', e', rest', m', hreplace', hrest', hm', -, -, -, -, hrun⟩ :=
      inlined_refines prim sizeof callee hP hterm hargs h
    have hsame := (bodyOutcome_eq hreplace' hrest' hm' (args.map f.vals) w).symm.trans hbody
    exact Option.some.inj hsame ▸ hrun f w
  have houtcome : ∀ callee, outcomeAt (sem prim sizeof callee) (b'.code.drop b.code.length) v f w =
      body := by
    intro callee
    refine ((hinlined callee).bind_eq fun x f' w' hx => ?_).trans (Outcome.bind_pure body)
    rw [hx.2]
  have hreturns : ReturnsExternStruct P d ∧ BodyReturns walk prim d (args.map f.vals) w ↔
      P.types.isExternStructTy sig.ret = true ∧ ∃ x w', body = .done x w' := by
    unfold ReturnsExternStruct BodyReturns
    rw [hreplace.hasSig, hbody]
    simp
  rw [hreturns, ← @returned_iff _ _ sizeof]
  constructor
  · intro hpreserves
    have hsame := hpreserves.outcome 0 0
    rw [houtcome, outcomeAt_call, hreplace.noTypeArgs, hcall] at hsame
    exact hsame.symm
  · intro hsame
    obtain ⟨_, _, _, _, _, b₃, -, -, -, -, hrestored⟩ := tryInlineDirectCall_ok h
    refine ⟨fun k => ?_, hcode, ?_, ?_, ?_, howned, hterm'.trans hterm.symm, ?_, fun k j => ?_⟩
    · rw [tryInlineDirectCall_succ, ← tryInlineDirectCall_succ n, h]
    · simp [hrestored, Builder.restore]
    · simp [hrestored, Builder.restore]
    · simp [hrestored, Builder.restore]
    · intro callee f' w' hrun
      have hrefines := hinlined callee
      rw [hrun] at hrefines
      cases body with
      | done x w₁ => exact hrefines.2.1
      | stopped s w₁ => cases hrefines
    · rw [houtcome, outcomeAt_call, hreplace.noTypeArgs, hcall, hsame]

end Main

/-! ## Two functions -/

namespace sample

/-- `extern struct Pt { x: i64, y: i64 }`, and two functions. -/
def types : TypeDefs where
  count := 2
  get := fun d =>
    if d = 1 then { kind := .externStruct, fields := some [.int .i64, .int .i64] }
    else { kind := .function }
  listDef := 0
  mapDef := 0
  senderDef := 0
  receiverDef := 0
  refCounted_struct := by
    intro d h
    by_cases hd : d = 1 <;> simp [hd] at h
  endpoint_struct := by
    rintro d hne (h | h) <;> exact absurd h hne

/-- `function double(x: i64): i64 { x + x }` and `function same(p: Pt): Pt { p }`. -/
def program : Program where
  types := types
  parent := fun _ => none
  fnSigs := fun d =>
    if d = 2 then some { params := [(0, .int .i64)], ret := .int .i64 }
    else if d = 3 then some { params := [(1, .named 1 [])], ret := .named 1 [] }
    else none
  bodies := fun d =>
    if d = 2 then
      some ⟨[], some (.binary (.int .i64) .add (.name (.int .i64) 0) (.name (.int .i64) 0) false)⟩
    else if d = 3 then some ⟨[], some (.name (.named 1 []) 1)⟩
    else none
  localTy := fun l => if l = 0 then some (.int .i64) else some (.named 1 [])
  capturedLocals := []
  directCallCounts := fun _ => 2

def walk : Walk program.capturedLocals where
  expr := fun _ _ => fail (.error "")
  stmt := fun _ _ => fail (.error "")
  concrete := fun _ _ => none
  manageBind := fun _ _ _ _ => pure ()
  manageReturn := fun _ _ _ => pure ()
  releaseOwned := fun _ => pure ()
  lowers := fun _ => true
  declares := fun _ _ => some true

def cx : FnCtx := ⟨[], false, [], .bool⟩

/-- The operations on integers that the two functions have. -/
def prim : Prim → List Nat → World Unit → Except String Nat × World Unit
  | .binop .add _, [x, y], w => (.ok (x + y), w)
  | _, _, w => (.error "", w)

theorem sig_cases {d : DefId} {sig : FnSig} (h : program.fnSigs d = some sig) :
    d = 2 ∧ sig = { params := [(0, .int .i64)], ret := .int .i64 } ∨
      d = 3 ∧ sig = { params := [(1, .named 1 [])], ret := .named 1 [] } := by
  dsimp only [program] at h
  split at h
  · exact .inl ⟨‹_›, (Option.some.inj h).symm⟩
  · split at h
    · exact .inr ⟨‹_›, (Option.some.inj h).symm⟩
    · cases h

theorem body_cases {d : DefId} {body : Body} (h : program.bodies d = some body) :
    d = 2 ∧ body =
      ⟨[], some (.binary (.int .i64) .add (.name (.int .i64) 0) (.name (.int .i64) 0) false)⟩ ∨
      d = 3 ∧ body = ⟨[], some (.name (.named 1 []) 1)⟩ := by
  dsimp only [program] at h
  split at h
  · exact .inl ⟨‹_›, (Option.some.inj h).symm⟩
  · split at h
    · exact .inr ⟨‹_›, (Option.some.inj h).symm⟩
    · cases h

theorem checked : program.Checked fun l => if l = 0 then 2 else 3 where
  captured_own := fun l hl => absurd hl List.not_mem_nil
  param_own := by
    intro d sig hsig p hp
    obtain ⟨rfl, rfl⟩ | ⟨rfl, rfl⟩ := sig_cases hsig <;> cases List.mem_singleton.mp hp <;> rfl
  bind_own := by
    intro d body hbody l init hmem
    obtain ⟨rfl, rfl⟩ | ⟨rfl, rfl⟩ := body_cases hbody <;> cases hmem
  param_ty := by
    intro d sig hsig p hp
    obtain ⟨rfl, rfl⟩ | ⟨rfl, rfl⟩ := sig_cases hsig <;> cases List.mem_singleton.mp hp <;> rfl
  trailing_ty := by
    intro d sig body e hsig hbody he
    obtain ⟨rfl, rfl⟩ | ⟨rfl, rfl⟩ := sig_cases hsig <;>
      obtain ⟨hd, rfl⟩ | ⟨hd, rfl⟩ := body_cases hbody <;> cases hd <;> cases he <;> exact .inl rfl
  closed_sig := by
    intro d sig hsig _ _
    obtain ⟨rfl, rfl⟩ | ⟨rfl, rfl⟩ :=
      sig_cases hsig <;> exact ⟨rfl, by simp [isClosed, Ty.variants]⟩
  closed_body := by
    intro d body hbody _ _
    obtain ⟨rfl, rfl⟩ | ⟨rfl, rfl⟩ := body_cases hbody <;>
      refine ⟨fun l init hmem => absurd hmem List.not_mem_nil, fun e he => ?_⟩ <;> cases he <;> rfl

/-- A function with one value, which holds `x`, over a heap with a one at 100. -/
def frame (x : Nat) : Frame := ⟨fun _ => x, fun _ => 0⟩

def world : World Unit := ⟨1000, fun a => if a = 100 then 1 else 0, ()⟩

end sample

open sample in
/-- `double(21)`, whose parameter is used twice. -/
theorem double_preserved : ∃ v b',
    tryInlineDirectCall program walk cx 1 2 [] [0] (.entry _ 1) = .ok (some v, b') ∧
      Preserves walk cx prim (fun _ => 16) 2 [] [0] v (.entry _ 1) b' (frame 21) world := by
  refine ⟨_, _, rfl, (inline_preserves_iff (n := 0) checked rfl ?_ rfl (frame 21) world).mpr ?_⟩
  · intro a ha
    cases List.mem_singleton.mp ha
    exact Nat.one_pos
  · rintro ⟨⟨sig, hsig, hforeign⟩, -⟩
    cases hsig
    cases hforeign

/-- What `p.x` reads when 5 has been written to `q.x`, for a `p` at 100. -/
def readAfterWrite (o : Outcome Stop Nat (World Unit)) : Option Nat :=
  match o with
  | .done q w => some (put w.mem q 5 100)
  | .stopped _ _ => none

open sample in
/-- `var p = Pt { x: 1, y: 2 }; var q = same(p); q.x = 5; p.x` is 1 where `same` is called, and 5
where it is inlined. -/
theorem same_aliases : ∃ v b',
    tryInlineDirectCall program walk cx 1 3 [] [0] (.entry _ 1) = .ok (some v, b') ∧
      readAfterWrite
        (outcomeAt (sem prim (fun _ => 16) (callFn program walk prim (fun _ => 16) 1 1))
        b'.code v (frame 100) world) = some 5 ∧
      readAfterWrite
        (outcomeAt (sem prim (fun _ => 16) (callFn program walk prim (fun _ => 16) 1 1))
        [.op 1 (.call 3 []) [0]] 1 (frame 100) world) = some 1 ∧
      ¬ Preserves walk cx prim (fun _ => 16) 3 [] [0] v (.entry _ 1) b' (frame 100) world := by
  refine ⟨_, _, rfl, rfl, rfl, fun h => ?_⟩
  have hsame := congrArg readAfterWrite (h.outcome 1 0)
  cases hsame

end backend.inline
