-- Where control goes from an accepted body. The result type and the loops are those of the
-- function around it, also in the body of a closure and of an `async` block.
import OtterFusion.Compiler.Bodies
import OtterFusion.Compiler.MethodResolution

namespace compiler.sema

/-! ## What each check leaves as it was -/

section keeps

variable {ι σ : Type} {ck : BodyChecker} {F : Forms ι σ}

/-- The fields that an expression leaves as it found them, and the errors, which only grow. -/
structure Keeps (st st' : Control σ) : Prop where
  retTy : st'.retTy = st.retTy
  loops : st'.loops.length = st.loops.length
  inAsync : st'.inAsync = st.inAsync
  ownLoops : st'.ownLoops = st.ownLoops
  errors : st.errors <+: st'.errors

namespace Keeps

variable {a b c : Control σ}

theorem refl (st : Control σ) : Keeps st st := ⟨rfl, rfl, rfl, rfl, List.prefix_refl _⟩

theorem trans (h : Keeps a b) (h' : Keeps b c) : Keeps a c where
  retTy := h'.retTy.trans h.retTy
  loops := h'.loops.trans h.loops
  inAsync := h'.inAsync.trans h.inAsync
  ownLoops := h'.ownLoops.trans h.ownLoops
  errors := h.errors.trans h'.errors

/-- Without errors at the end there were none before. -/
theorem errors_nil (h : Keeps a b) (hb : b.errors = []) : a.errors = [] := by
  have := h.errors
  rw [hb] at this
  exact List.prefix_nil.mp this

theorem rest (h : Keeps a b) (r : σ) : Keeps a { b with rest := r } :=
  ⟨h.retTy, h.loops, h.inAsync, h.ownLoops, h.errors⟩

theorem passed (h : Keeps a b) (ts : List Ty) : Keeps a { b with passed := ts } :=
  ⟨h.retTy, h.loops, h.inAsync, h.ownLoops, h.errors⟩

theorem emit (h : Keeps a b) (e : BodyError) : Keeps a (b.emit e) :=
  ⟨h.retTy, h.loops, h.inAsync, h.ownLoops, h.errors.trans (List.prefix_append _ _)⟩

theorem emitAll (h : Keeps a b) (es : List SemaError) : Keeps a (b.emitAll es) :=
  ⟨h.retTy, h.loops, h.inAsync, h.ownLoops, h.errors.trans (List.prefix_append _ _)⟩

theorem expect (h : Keeps a b) (found expected : Ty) :
    Keeps a (sema.expect ck found expected b) := by
  unfold sema.expect
  split
  · exact h
  · exact h.emit _

theorem transfer (h : Keeps a b) (kw : String) : Keeps a (b.transfer kw) :=
  ⟨h.retTy, h.loops, h.inAsync, h.ownLoops, h.errors⟩

theorem breakLoop (h : Keeps a b) (value : Option Ty) : Keeps a (b.breakLoop value) := by
  have h := h.transfer "break"
  unfold Control.breakLoop
  dsimp only
  split
  · exact h.emit _
  · rename_i frame outer hloops
    split
    · exact h.emit _
    · exact ⟨h.retTy, by rw [← h.loops, hloops]; rfl, h.inAsync, h.ownLoops, h.errors⟩

/-- A loop that is pushed and popped around a body. -/
theorem loop {isLoop : Bool} (h : Keeps (a.pushLoop isLoop) b) : Keeps a b.popLoop where
  retTy := h.retTy
  loops := by
    have := h.loops
    unfold Control.pushLoop at this
    unfold Control.popLoop
    rw [List.length_tail, this]
    rfl
  inAsync := h.inAsync
  ownLoops := by
    unfold Control.popLoop
    rw [h.ownLoops]
    rfl
  errors := h.errors

/-- A body that opens and closes within another. -/
theorem body {inner : Control σ} {assignable : Ty → Ty → Bool} {result : Ty} (h : Keeps inner b)
    (hret : inner.retTy = a.retTy) (hloops : inner.loops = a.loops)
    (herrors : a.errors <+: inner.errors) : Keeps a (b.closeBody a assignable result) where
  retTy := h.retTy.trans hret
  loops := h.loops.trans (congrArg List.length hloops)
  inAsync := rfl
  ownLoops := rfl
  errors := herrors.trans h.errors

end Keeps

theorem keeps_run (script : Script σ) {parts : List (Check σ)}
    (hparts : ∀ c ∈ parts, ∀ expected st, Keeps st (c expected st).2) (st : Control σ) :
    Keeps st (script.run parts st).2 := by
  induction script generalizing st with
  | done ty errors rest => exact ((Keeps.refl st).emitAll errors).rest rest
  | check part expected rest next ih =>
    unfold Script.run
    split
    · rename_i c hc
      have hstep := hparts c (List.mem_of_getElem? hc) expected { st with rest }
      exact (((Keeps.refl st).rest rest).trans hstep).trans (ih _ _ _)
    · exact ((Keeps.refl st).rest rest).trans (ih _ _ _)

theorem keeps_messages {α : Type} (text : Control σ → α → BodyError) (vs : List α)
    (st : Control σ) : Keeps st (vs.foldl (fun st v => st.emit (text st v)) st) := by
  induction vs generalizing st with
  | nil => exact .refl st
  | cons v vs ih => exact ((Keeps.refl st).emit _).trans (ih _)

theorem keeps_checkTry (operand : Ty) (st : Control σ) : Keeps st (checkTry ck operand st).2 := by
  unfold checkTry
  split
  · exact .refl st
  · split
    · exact (Keeps.refl st).emit _
    · dsimp only
      split
      · exact (Keeps.refl st).emit _
      · split
        · exact (keeps_messages _ _ st).emit _
        · split
          · exact ((keeps_messages _ _ st).passed _).emit _
          · exact (keeps_messages _ _ st).passed _

mutual

theorem keeps_check (e : Expr ι) (expected : Option Ty) (st : Control σ) :
    Keeps st (check ck F e expected st).2 := by
  cases e with
  | form f parts => exact keeps_run _ (keeps_checkParts parts) st
  | block stmts =>
    exact (((Keeps.refl st).rest _).trans (keeps_checkStmts stmts _)).rest _
  | blockOf stmts trailing =>
    have htrailing := (((Keeps.refl st).rest (F.pushScope st.rest)).trans
      (keeps_checkStmts stmts _)).trans (keeps_check trailing expected _)
    cases expected with
    | none => exact htrailing.rest _
    | some want => exact (htrailing.expect _ _).rest _
  | «return» => exact ((Keeps.refl st).expect _ _).passed _
  | returnOf value => exact ((keeps_check value _ st).expect _ _).passed _
  | «try» operand => exact (keeps_check operand none st).trans (keeps_checkTry _ _)
  | «while» cond body =>
    have hcond := keeps_check cond (some .bool) st
    refine Keeps.trans ?_ (Keeps.loop (keeps_check body none _))
    split
    · exact hcond.emit _
    · exact hcond
  | «for» header inAsync iter body =>
    refine Keeps.rest (Keeps.trans ?_ (Keeps.loop (keeps_check body none _))) _
    refine Keeps.rest (Keeps.emitAll (Keeps.trans ?_ (keeps_check iter none _)) _) _
    split
    · exact (Keeps.refl st).emit _
    · exact .refl st
  | loop body => exact Keeps.loop (keeps_check body none _)
  | «break» => exact (Keeps.refl st).breakLoop none
  | breakOf value => exact (keeps_check value none st).breakLoop _
  | «continue» =>
    have h := (Keeps.refl st).transfer "continue"
    unfold check
    dsimp only
    split
    · exact h.emit _
    · exact h
  | closure params returnType isAsync body =>
    have hbody := keeps_check body
      (bodyExpected ck isAsync ((declaredResult ck returnType).or (expectedResult expected)))
      { (st.emitAll (F.openClosure params expected st.rest).2.1).openBody isAsync with
        rest := (F.openClosure params expected st.rest).2.2 }
    unfold check
    dsimp only
    refine Keeps.rest ?_ _
    split
    · exact (hbody.expect _ _).body rfl rfl (List.prefix_append _ _)
    · exact hbody.body rfl rfl (List.prefix_append _ _)
  | asyncBlock body =>
    have hbody := keeps_check body (expected.bind ck.futureOutput)
      { st.openBody true with rest := F.openAsync st.rest }
    exact (Keeps.body (a := st) hbody rfl rfl (List.prefix_refl _)).rest _

theorem keeps_checkParts (parts : List (Expr ι)) :
    ∀ c ∈ checkParts ck F parts, ∀ expected st, Keeps st (c expected st).2 := by
  cases parts with
  | nil => intro c hc; cases hc
  | cons e es =>
    have hhead := keeps_check e
    have htail := keeps_checkParts es
    intro c hc expected st
    rcases List.mem_cons.mp hc with rfl | hc
    · exact hhead expected st
    · exact htail c hc expected st

theorem keeps_checkStmts (stmts : List (Expr ι)) (st : Control σ) :
    Keeps st (checkStmts ck F stmts st) := by
  cases stmts with
  | nil => exact .refl st
  | cons e es => exact (keeps_check e none st).trans (keeps_checkStmts es _)

end

end keeps

/-! ## Bodies that control does not leave -/

section stays

variable {ι σ : Type}

mutual

/-- No `break` or `continue` stands in a closure or an `async` block outside its own loops, and
`return` and `?` stand in the body of the function, or in closures that declare its result. The
flags say whether they may stand here. -/
def Expr.staysInside (ck : BodyChecker) (result : Ty) (mayPass mayBreak : Bool) : Expr ι → Bool
  | .form _ parts => staysInsideAll ck result mayPass mayBreak parts
  | .block stmts => staysInsideAll ck result mayPass mayBreak stmts
  | .blockOf stmts trailing =>
    staysInsideAll ck result mayPass mayBreak stmts &&
      trailing.staysInside ck result mayPass mayBreak
  | .return => mayPass
  | .returnOf value => mayPass && value.staysInside ck result mayPass mayBreak
  | .try operand => mayPass && operand.staysInside ck result mayPass mayBreak
  | .while cond body =>
    cond.staysInside ck result mayPass mayBreak && body.staysInside ck result mayPass true
  | .for _ _ iter body =>
    iter.staysInside ck result mayPass mayBreak && body.staysInside ck result mayPass true
  | .loop body => body.staysInside ck result mayPass true
  | .break | .continue => mayBreak
  | .breakOf value => mayBreak && value.staysInside ck result mayPass mayBreak
  | .closure _ returnType isAsync body =>
    let declared := (declaredResult ck returnType).bind fun t => bodyExpected ck isAsync (some t)
    body.staysInside ck result (declared == some result) false
  | .asyncBlock body => body.staysInside ck result false false

def Expr.staysInsideAll (ck : BodyChecker) (result : Ty) (mayPass mayBreak : Bool) :
    List (Expr ι) → Bool
  | [] => true
  | e :: es =>
    e.staysInside ck result mayPass mayBreak && staysInsideAll ck result mayPass mayBreak es

end

/-! ### The types that `?` passes on -/

/-- A type whose variants are no unions. -/
def Ty.Flat (t : Ty) : Prop := ∀ v ∈ t.variants, v.variants = [v]

theorem Ty.flat_of_interned {cx : TyCtxt} {t : Ty} (h : cx.Interned t) : t.Flat := by
  intro v hv
  cases t with
  | union variants =>
    have hcanonical : cx.Canonical (.union variants) := by
      have hagain := cx.mkUnion_canonical variants
      rwa [h.1] at hagain
    rw [hcanonical.mem_variants (fun h => by cases h)] at hv
    exact (Ty.flatten_atomic hv).variants_eq
  | _ =>
    rw [List.mem_singleton.mp hv]
    rfl

theorem Ty.interned_variant {cx : TyCtxt} {t v : Ty} (h : cx.Interned t) (hv : v ∈ t.variants) :
    cx.Interned v := by
  cases t with
  | union variants => exact cx.internedAll_iff.mp h.2 v hv
  | _ =>
    rw [List.mem_singleton.mp hv]
    exact h

variable {ck : BodyChecker}

/-- A variant of the result type may be returned. -/
theorem assignable_of_mem_variants {result v : Ty} (hflat : result.Flat)
    (hv : v ∈ result.variants) :
    ck.assignable v result = true := by
  have hsub : v.isUnionSubtype result = true := by
    unfold Ty.isUnionSubtype
    rw [hflat v hv]
    simp [hv]
  unfold Checker.assignable
  rw [hsub, Bool.or_true]

theorem conversion_mem_variants {residual target : Ty} {variants : List Ty} {m : DefId}
    (h : ck.findResidualConversion residual variants = some (m, target)) : target ∈ variants := by
  unfold BodyChecker.findResidualConversion at h
  obtain ⟨ext, _, h⟩ := List.exists_of_findSome?_eq_some h
  split at h
  · rename_i data block interfaces hdata hblock
    split at h
    · rename_i hcond
      obtain ⟨itf, _, h⟩ := List.exists_of_findSome?_eq_some h
      split at h
      · split at h
        · obtain ⟨_, _, heq⟩ := Option.map_eq_some_iff.mp h
          rw [← (Prod.mk.inj heq).2]
          exact hcond.2.2
        · cases h
      · cases h
    · cases h
  · cases h

theorem classify_passes {variants : List Ty} {isTry : Bool} {candidates : List Ty} :
    ∀ t ∈ (classify ck variants isTry candidates).1, t ∈ variants := by
  induction candidates with
  | nil => intro t ht; cases ht
  | cons v vs ih =>
    intro t ht
    unfold classify at ht
    dsimp only at ht
    split at ht
    · rename_i hv
      rcases List.mem_cons.mp ht with rfl | ht
      · exact hv
      · exact ih t ht
    · split at ht
      · rename_i m target hconv
        rcases List.mem_cons.mp ht with rfl | ht
        · exact conversion_mem_variants hconv
        · exact ih t ht
      · split at ht
        · exact ih t ht
        · exact ih t ht

/-! ### Within a body -/

variable {F : Forms ι σ} {result : Ty} {mayPass mayBreak : Bool}

/-- In a body of a function: control has stayed inside, what was passed on is assignable to the
result of the function, and `break` may stand where each open loop is of the body itself. -/
structure Within (ck : BodyChecker) (result : Ty) (mayPass mayBreak : Bool) (st : Control σ) :
    Prop where
  retTy : st.retTy = result
  loops : mayBreak = true → 0 < st.ownLoops ∨ st.loops.length = st.ownLoops
  misplaced : st.misplaced = []
  passed : ∀ t ∈ st.passed, mayPass = true ∧ ck.assignable t result = true

namespace Within

variable {st : Control σ}

theorem rest (h : Within ck result mayPass mayBreak st) (r : σ) :
    Within ck result mayPass mayBreak { st with rest := r } :=
  ⟨h.retTy, h.loops, h.misplaced, h.passed⟩

theorem emit (h : Within ck result mayPass mayBreak st) (e : BodyError) :
    Within ck result mayPass mayBreak (st.emit e) :=
  ⟨h.retTy, h.loops, h.misplaced, h.passed⟩

theorem emitAll (h : Within ck result mayPass mayBreak st) (es : List SemaError) :
    Within ck result mayPass mayBreak (st.emitAll es) :=
  ⟨h.retTy, h.loops, h.misplaced, h.passed⟩

theorem expect (h : Within ck result mayPass mayBreak st) (found expected : Ty) :
    Within ck result mayPass mayBreak (sema.expect ck found expected st) := by
  unfold sema.expect
  split
  · exact h
  · exact h.emit _

theorem messages {α : Type} (text : Control σ → α → BodyError) (vs : List α)
    (h : Within ck result mayPass mayBreak st) :
    Within ck result mayPass mayBreak (vs.foldl (fun st v => st.emit (text st v)) st) := by
  induction vs generalizing st with
  | nil => exact h
  | cons v vs ih => exact ih (h.emit _)

/-- More is passed on, where that may be. -/
theorem pass (h : Within ck result true mayBreak st) {ts : List Ty}
    (hts : ∀ t ∈ ts, ck.assignable t result = true) :
    Within ck result true mayBreak { st with passed := st.passed ++ ts } where
  retTy := h.retTy
  loops := h.loops
  misplaced := h.misplaced
  passed := by
    intro t ht
    rcases List.mem_append.mp ht with ht | ht
    · exact h.passed t ht
    · exact ⟨rfl, hts t ht⟩

/-- A `break` or a `continue` that finds a loop finds one of its own body. -/
theorem transfer (h : Within ck result mayPass true st) (hloops : st.loops ≠ []) (kw : String) :
    Within ck result mayPass true (st.transfer kw) where
  retTy := h.retTy
  loops := h.loops
  misplaced := by
    have hown : st.ownLoops ≠ 0 := by
      intro hzero
      rcases h.loops rfl with hpos | hlen
      · omega
      · exact hloops (List.length_eq_zero_iff.mp (hlen.trans hzero))
    unfold Control.transfer
    rw [if_neg hown]
    exact h.misplaced
  passed := h.passed

theorem frame (h : Within ck result mayPass mayBreak st) {frames : List LoopFrame}
    (hlen : frames.length = st.loops.length) :
    Within ck result mayPass mayBreak { st with loops := frames } :=
  ⟨h.retTy, fun hb => (h.loops hb).imp id fun hown => hlen.trans hown, h.misplaced, h.passed⟩

theorem breakLoop (h : Within ck result mayPass true st) (value : Option Ty)
    (hdone : (st.breakLoop value).errors = []) :
    Within ck result mayPass true (st.breakLoop value) := by
  unfold Control.breakLoop at hdone ⊢
  dsimp only at hdone ⊢
  split at hdone
  · exact absurd hdone (by simp [Control.emit])
  · rename_i frame outer hloops
    have hne : st.loops ≠ [] := by
      intro hnil
      rw [show (st.transfer "break").loops = st.loops from rfl, hnil] at hloops
      cases hloops
    split at hdone
    · exact absurd hdone (by simp [Control.emit])
    · rename_i hvalue
      rw [if_neg hvalue]
      exact (h.transfer hne "break").frame (by rw [hloops]; rfl)

theorem pushLoop (h : Within ck result mayPass mayBreak st) (isLoop : Bool) :
    Within ck result mayPass true (st.pushLoop isLoop) :=
  ⟨h.retTy, fun _ => .inl (Nat.succ_pos _), h.misplaced, h.passed⟩

/-- After a loop, `break` may stand where it could before. -/
theorem popLoop {st' : Control σ} {isLoop : Bool} (h : Within ck result mayPass mayBreak st)
    (hkeeps : Keeps (st.pushLoop isLoop) st') (h' : Within ck result mayPass true st') :
    Within ck result mayPass mayBreak st'.popLoop where
  retTy := h'.retTy
  loops := by
    intro hb
    rw [hkeeps.loop.loops, hkeeps.loop.ownLoops]
    exact h.loops hb
  misplaced := h'.misplaced
  passed := h'.passed

/-- A closure or an `async` block opens. -/
theorem openBody (h : Within ck result mayPass mayBreak st) (inAsync inner : Bool) :
    Within ck result inner false (st.openBody inAsync) :=
  ⟨h.retTy, fun hb => (by cases hb), h.misplaced, fun t ht => (by cases ht)⟩

/-- Nothing is misplaced where only a body with the result of the function has passed something
on. -/
theorem closed {own : Ty} {inner : Bool} {outer : Control σ}
    (h : Within ck result inner mayBreak st) (hown : inner = true → own = result) :
    (st.closeBody outer ck.assignable own).misplaced = [] := by
  have hnone : (st.passed.filter fun t => !ck.assignable t own) = [] := by
    apply List.filter_eq_nil_iff.mpr
    intro t ht
    obtain ⟨hinner, ht⟩ := h.passed t ht
    rw [hown hinner, ht]
    decide
  unfold Control.closeBody
  rw [hnone, h.misplaced]
  rfl

/-- It closes, where only a body with the result of the function has passed something on. -/
theorem closeBody {st' : Control σ} {inner : Bool} {own : Ty}
    (h : Within ck result mayPass mayBreak st) (h' : Within ck result inner false st')
    (hown : inner = true → own = result) (hloops : st'.loops.length = st.loops.length) :
    Within ck result mayPass mayBreak (st'.closeBody st ck.assignable own) where
  retTy := h'.retTy
  loops := by
    intro hb
    exact (h.loops hb).imp id hloops.trans
  misplaced := h'.closed hown
  passed := h.passed

/-- A message that ends the check, or none. -/
theorem emitIf {c : Prop} [Decidable c] {e : BodyError}
    (h : st.errors = [] → Within ck result mayPass mayBreak st)
    (hdone : (if c then st.emit e else st).errors = []) :
    Within ck result mayPass mayBreak (if c then st.emit e else st) := by
  by_cases hc : c
  · rw [if_pos hc] at hdone
    exact absurd hdone (by simp [Control.emit])
  · rw [if_neg hc] at hdone ⊢
    exact h hdone

end Within

theorem assignable_of_expect {found expected : Ty} {st : Control σ}
    (h : (expect ck found expected st).errors = []) : ck.assignable found expected = true := by
  unfold expect at h
  split at h
  · assumption
  · exact absurd h (by simp [Control.emit])

theorem within_run (script : Script σ) {parts : List (Check σ)}
    (hkeeps : ∀ c ∈ parts, ∀ expected st, Keeps st (c expected st).2)
    (hparts : ∀ c ∈ parts, ∀ expected st, Within ck result mayPass mayBreak st →
      (c expected st).2.errors = [] → Within ck result mayPass mayBreak (c expected st).2)
    {st : Control σ} (h : Within ck result mayPass mayBreak st)
    (hdone : (script.run parts st).2.errors = []) :
    Within ck result mayPass mayBreak (script.run parts st).2 := by
  induction script generalizing st with
  | done ty errors rest => exact (h.emitAll errors).rest rest
  | check part expected rest next ih =>
    unfold Script.run at hdone ⊢
    split at hdone
    · rename_i c hc
      have hmem := List.mem_of_getElem? hc
      refine ih _ _ (hparts c hmem expected _ (h.rest rest) ?_) hdone
      exact (keeps_run _ hkeeps _).errors_nil hdone
    · exact ih _ _ (h.rest rest) hdone

theorem within_checkTry (hflat : result.Flat) {operand : Ty} {st : Control σ}
    (h : Within ck result true mayBreak st) :
    Within ck result true mayBreak (checkTry ck operand st).2 := by
  unfold checkTry
  split
  · exact h
  · split
    · exact h.emit _
    · dsimp only
      split
      · exact h.emit _
      · split
        · exact (h.messages _ _).emit _
        · have hpass : ∀ {isTry : Bool} {candidates : List Ty},
              ∀ t ∈ (classify ck st.retTy.variants isTry candidates).1,
                ck.assignable t result = true := by
            intro isTry candidates t ht
            refine assignable_of_mem_variants hflat ?_
            rw [← h.retTy]
            exact classify_passes t ht
          split
          · exact ((h.messages _ _).pass hpass).emit _
          · exact (h.messages _ _).pass hpass

/-- A closure that declares its result is checked against it. -/
theorem bodyExpected_of_declared {returnType : Option TypeNode} {isAsync : Bool}
    {expected : Option Ty}
    (h : (((declaredResult ck returnType).bind fun t => bodyExpected ck isAsync (some t)) ==
      some result) = true) :
    bodyExpected ck isAsync ((declaredResult ck returnType).or expected) = some result := by
  cases hdeclared : declaredResult ck returnType with
  | none =>
    rw [hdeclared] at h
    cases h
  | some t =>
    rw [hdeclared] at h
    exact beq_iff_eq.mp h

mutual

/-- What stays inside by its syntax stays inside when it is checked without an error. -/
theorem within_check (hflat : result.Flat) (e : Expr ι) {mayPass mayBreak : Bool}
    (hstays : e.staysInside ck result mayPass mayBreak = true) (expected : Option Ty)
    {st : Control σ} (h : Within ck result mayPass mayBreak st)
    (hdone : (check ck F e expected st).2.errors = []) :
    Within ck result mayPass mayBreak (check ck F e expected st).2 := by
  cases e with
  | form f parts =>
    exact within_run _ (keeps_checkParts parts) (within_checkParts hflat parts hstays) h hdone
  | block stmts =>
    exact (within_checkStmts hflat stmts hstays (h.rest _) hdone).rest _
  | blockOf stmts trailing =>
    obtain ⟨hstmts, htrailing⟩ := Bool.and_eq_true_iff.mp hstays
    have hlast : (check ck F trailing expected
        (checkStmts ck F stmts { st with rest := F.pushScope st.rest })).2.errors = [] := by
      cases expected with
      | none => exact hdone
      | some want => exact ((Keeps.refl _).expect _ _).errors_nil hdone
    have hinner := within_check hflat trailing htrailing expected
      (within_checkStmts hflat stmts hstmts (h.rest _)
        ((keeps_check trailing expected _).errors_nil hlast)) hlast
    cases expected with
    | none => exact hinner.rest _
    | some want => exact (hinner.expect _ _).rest _
  | «return» =>
    obtain rfl : mayPass = true := hstays
    refine (h.expect _ _).pass fun t ht => ?_
    rw [List.mem_singleton.mp ht, ← h.retTy]
    exact assignable_of_expect hdone
  | returnOf value =>
    obtain ⟨hpass, hvalue⟩ := Bool.and_eq_true_iff.mp hstays
    obtain rfl := hpass
    have hinner := within_check hflat value hvalue (some st.retTy) h
      (((Keeps.refl _).expect _ _).errors_nil hdone)
    refine (hinner.expect _ _).pass fun t ht => ?_
    rw [List.mem_singleton.mp ht, ← h.retTy]
    exact assignable_of_expect hdone
  | «try» operand =>
    obtain ⟨hpass, hoperand⟩ := Bool.and_eq_true_iff.mp hstays
    obtain rfl := hpass
    exact within_checkTry hflat (within_check hflat operand hoperand none h
      ((keeps_checkTry _ _).errors_nil hdone))
  | «while» cond body =>
    obtain ⟨hcond, hbody⟩ := Bool.and_eq_true_iff.mp hstays
    have hhead := Within.emitIf (fun hnil => within_check hflat cond hcond (some .bool) h hnil)
      ((@keeps_check _ _ ck F body none (Control.pushLoop _ false)).errors_nil hdone)
    exact hhead.popLoop (keeps_check body none _)
      (within_check hflat body hbody none (hhead.pushLoop false) hdone)
  | «for» header inAsync iter body =>
    obtain ⟨hiter, hbody⟩ := Bool.and_eq_true_iff.mp hstays
    have hafter := (keeps_check body none _).errors_nil hdone
    have hopened := ((Keeps.refl _).emitAll _).errors_nil hafter
    have hhead := Within.emitIf (fun _ => h) ((keeps_check iter none _).errors_nil hopened)
    have hinner := within_check hflat iter hiter none hhead hopened
    have hdriver := fun (es : List SemaError) (rest : σ) => (hinner.emitAll es).rest rest
    exact ((hdriver _ _).popLoop (keeps_check body none _)
      (within_check hflat body hbody none ((hdriver _ _).pushLoop false) hdone)).rest _
  | loop body =>
    exact h.popLoop (keeps_check body none _)
      (within_check hflat body hstays none (h.pushLoop true) hdone)
  | «break» =>
    obtain rfl : mayBreak = true := hstays
    exact h.breakLoop none hdone
  | breakOf value =>
    obtain ⟨hbreak, hvalue⟩ := Bool.and_eq_true_iff.mp hstays
    obtain rfl := hbreak
    have hinner := within_check hflat value hvalue none h
      (((Keeps.refl _).breakLoop _).errors_nil hdone)
    exact hinner.breakLoop _ hdone
  | «continue» =>
    obtain rfl : mayBreak = true := hstays
    unfold check at hdone ⊢
    dsimp only at hdone ⊢
    split at hdone
    · exact absurd hdone (by simp [Control.emit])
    · rename_i hloops
      rw [if_neg hloops]
      exact h.transfer hloops "continue"
  | closure params returnType isAsync body =>
    have hkeeps := @keeps_check _ _ ck F body
      (bodyExpected ck isAsync ((declaredResult ck returnType).or (expectedResult expected)))
      { (st.emitAll (F.openClosure params expected st.rest).2.1).openBody isAsync with
        rest := (F.openClosure params expected st.rest).2.2 }
    have hinner := @within_check hflat body _ _ hstays
      (bodyExpected ck isAsync ((declaredResult ck returnType).or (expectedResult expected)))
      _ (((h.emitAll (F.openClosure params expected st.rest).2.1).openBody isAsync _).rest
        (F.openClosure params expected st.rest).2.2)
    unfold check at hdone ⊢
    dsimp only at hdone ⊢
    refine Within.rest ?_ _
    split at hdone
    · rename_i own hwant
      rw [hwant] at hdone hinner hkeeps ⊢
      refine h.closeBody ((hinner (((Keeps.refl _).expect _ _).errors_nil hdone)).expect _ _)
        (fun hdeclared => ?_) (hkeeps.expect _ _).loops
      exact Option.some.inj (hwant.symm.trans (bodyExpected_of_declared hdeclared))
    · rename_i hwant
      rw [hwant] at hdone hinner hkeeps ⊢
      refine h.closeBody (hinner hdone) (fun hdeclared => ?_) hkeeps.loops
      exact absurd (hwant.symm.trans (bodyExpected_of_declared hdeclared)) (by simp)
  | asyncBlock body =>
    have hinner := within_check hflat body hstays (expected.bind ck.futureOutput)
      ((h.openBody true false).rest (F.openAsync st.rest)) hdone
    have hkeeps := @keeps_check _ _ ck F body (expected.bind ck.futureOutput)
      { st.openBody true with rest := F.openAsync st.rest }
    exact (h.closeBody hinner (fun hfalse => (by cases hfalse)) hkeeps.loops).rest _

theorem within_checkParts (hflat : result.Flat) (parts : List (Expr ι)) {mayPass mayBreak : Bool}
    (hstays : Expr.staysInsideAll ck result mayPass mayBreak parts = true) :
    ∀ c ∈ checkParts ck F parts, ∀ expected st, Within ck result mayPass mayBreak st →
      (c expected st).2.errors = [] → Within ck result mayPass mayBreak (c expected st).2 := by
  cases parts with
  | nil => intro c hc; cases hc
  | cons e es =>
    obtain ⟨he, hes⟩ := Bool.and_eq_true_iff.mp hstays
    have hhead := fun expected st => @within_check hflat e mayPass mayBreak he expected st
    have htail := within_checkParts hflat es hes
    intro c hc expected st h hdone
    rcases List.mem_cons.mp hc with rfl | hc
    · exact hhead expected st h hdone
    · exact htail c hc expected st h hdone

theorem within_checkStmts (hflat : result.Flat) (stmts : List (Expr ι)) {mayPass mayBreak : Bool}
    (hstays : Expr.staysInsideAll ck result mayPass mayBreak stmts = true) {st : Control σ}
    (h : Within ck result mayPass mayBreak st)
    (hdone : (checkStmts ck F stmts st).errors = []) :
    Within ck result mayPass mayBreak (checkStmts ck F stmts st) := by
  cases stmts with
  | nil => exact h
  | cons e es =>
    obtain ⟨he, hes⟩ := Bool.and_eq_true_iff.mp hstays
    exact within_checkStmts hflat es hes
      (within_check hflat e he none h ((keeps_checkStmts es _).errors_nil hdone)) hdone

end

end stays

/-! ## Result types -/

section results

variable {ck : BodyChecker}

theorem interned_fnEnv (data : Def) : (ck.fnEnv data).All ck.tcx.Interned := by
  unfold BodyChecker.fnEnv
  dsimp only
  split
  · split
    · rename_i target interfaces hblock
      refine ⟨?_, fun t ht => ?_⟩
      · exact ck.interned_params data.generics (ck.interned_defEnv _).generics
      · obtain rfl := Option.some.inj ht
        exact ck.interned_target hblock
    · exact ck.interned_defEnv data
  · exact ck.interned_defEnv data

theorem interned_returnType (d : DefId) (data : Def) : ck.tcx.Interned (ck.returnType d data) := by
  unfold BodyChecker.returnType
  split
  · exact lower_keeps (formsKeep_interned _) (interned_fnEnv data) _
  · trivial

theorem interned_resolveMethod {recv : Ty} {name : String} {m : DefId} {s : Subst}
    (hrecv : ck.tcx.Interned recv) (h : ck.resolveMethod recv name = some (m, s)) :
    s.Interned ck.tcx := by
  obtain ⟨ext, target, _, rfl, _⟩ := ck.resolveMethodFrom_spec h
  exact interned_unify target recv [] hrecv fun b hb => (by cases hb)

theorem interned_futureOutput {ty out : Ty} (hty : ck.tcx.Interned ty)
    (h : ck.futureOutput ty = some out) : ck.tcx.Interned out := by
  have hpolled : BodyChecker.futureOutput.polled ck ty = some out → ck.tcx.Interned out := by
    intro h
    unfold BodyChecker.futureOutput.polled at h
    split at h
    · cases h
    · rename_i poll subst hpoll
      split at h
      · rename_i data node hdata hnode
        obtain ⟨m, hm, hout⟩ := List.exists_of_findSome?_eq_some h
        have hnode : ck.tcx.Interned (ck.lowerTy node (ck.fnEnv data)) :=
          lower_keeps (formsKeep_interned _) (interned_fnEnv data) node
        have hret := interned_substTy (interned_resolveMethod hty hpoll) hnode
        have hmember := Ty.interned_variant hret hm
        split at hout
        · split at hout
          · obtain rfl := Option.some.inj hout
            exact hmember.1
          · cases hout
        · cases hout
      · cases h
  unfold BodyChecker.futureOutput at h
  split at h
  · cases h
  · split at h
    · obtain rfl := Option.some.inj h
      exact hty.1
    · exact hpolled h
  · exact hpolled h

theorem flat_bodyResult (d : DefId) (data : Def) (isAsync : Bool) :
    (ck.bodyResult d data isAsync).Flat := by
  unfold BodyChecker.bodyResult
  split
  · cases hout : (ck.inFunction data).futureOutput (ck.returnType d data) with
    | none => exact Ty.flat_of_interned (interned_returnType d data)
    | some out =>
      have hret : (ck.inFunction data).tcx.Interned (ck.returnType d data) :=
        interned_returnType d data
      exact Ty.flat_of_interned (interned_futureOutput hret hout)
  · exact Ty.flat_of_interned (interned_returnType d data)

end results

/-! ## The law of accepted programs -/

section programs

variable {ι σ : Type} {ck : BodyChecker} {F : Forms ι σ}

/-- The body of a function or a test stays inside. -/
def BodyItem.staysInside (ck : BodyChecker) : BodyItem ι → Bool
  | .function d isAsync body =>
    match ck.prog.defs[d]?, body with
    | some data, some body =>
      body.staysInside (ck.inFunction data) (ck.bodyResult d data isAsync) true true
    | _, _ => true
  | .test d body =>
    match ck.prog.defs[d]? with
    | some data => body.staysInside (ck.enter data.module [] none) .null true true
    | none => true

/-- Between two bodies. -/
structure Between (st : Control σ) : Prop where
  loops : st.loops = []
  misplaced : st.misplaced = []

/-- The body of a function opens. -/
theorem Between.opens {st : Control σ} (h : Between st) (inAsync : Bool) (result : Ty) (rest : σ) :
    Within ck result true true { st.openBody inAsync with retTy := result, rest } :=
  ⟨rfl, fun _ => .inr (congrArg List.length h.loops), h.misplaced, fun t ht => (by cases ht)⟩

/-- A body that is checked within its definition, from the state between two definitions. -/
theorem Between.checks (outer : Control σ) {result : Ty} {body : Expr ι} {expected : Option Ty}
    (hflat : result.Flat) (hbody : body.staysInside ck result true true = true)
    {inner st' : Control σ} (hinner : Within ck result true true inner) (hloops : inner.loops = [])
    (hafter : Keeps (check ck F body expected inner).2 st')
    (hwithin : Within ck result true true (check ck F body expected inner).2 →
      Within ck result true true st') (hdone : st'.errors = []) :
    Between (st'.closeBody outer ck.assignable result) where
  loops := by
    have hlen := hafter.loops.trans (keeps_check body expected inner).loops
    rw [hloops] at hlen
    exact List.length_eq_zero_iff.mp hlen
  misplaced :=
    (hwithin (within_check hflat body hbody expected hinner (hafter.errors_nil hdone))).closed
      fun _ => rfl

theorem between_checkItem (item : BodyItem ι) (hstays : item.staysInside ck = true)
    {st : Control σ} (h : Between st) (hdone : (checkItem ck F st item).errors = []) :
    Between (checkItem ck F st item) := by
  cases item with
  | function d isAsync body =>
    unfold checkItem at hdone ⊢
    unfold BodyItem.staysInside at hstays
    dsimp only at hdone hstays ⊢
    cases hdata : ck.prog.defs[d]? with
    | none => exact h
    | some data =>
      rw [hdata] at hdone hstays
      have hstart : ∀ (c : Bool) (e : BodyError) (es : List SemaError),
          Between ((if c then st.emit e else st).emitAll es) := by
        intro c e es
        cases c <;> exact ⟨h.loops, h.misplaced⟩
      dsimp only at hdone ⊢
      unfold checkFunction at hdone ⊢
      cases body with
      | none => exact ⟨(hstart _ _ []).loops, ((hstart _ _ _).opens _ _ _).closed fun _ => rfl⟩
      | some body =>
        have hchecked := Between.checks st (flat_bodyResult d data isAsync) hstays
          ((hstart _ _ _).opens _ _ _) (hstart _ _ []).loops ((Keeps.refl _).expect _ _)
          (fun hw => hw.expect _ _) hdone
        exact ⟨hchecked.loops, hchecked.misplaced⟩
  | test d body =>
    unfold checkItem at hdone ⊢
    unfold BodyItem.staysInside at hstays
    dsimp only at hdone hstays ⊢
    cases hdata : ck.prog.defs[d]? with
    | none => exact h
    | some data =>
      rw [hdata] at hdone hstays
      have hstart : ∀ es : List SemaError, Between (st.emitAll es) := fun es =>
        ⟨h.loops, h.misplaced⟩
      have hflat : Ty.Flat .null := @Ty.flat_of_interned ck.tcx _ trivial
      have hchecked := Between.checks st hflat hstays ((hstart _).opens _ _ _) (hstart []).loops
        (.refl _) id hdone
      exact ⟨hchecked.loops, hchecked.misplaced⟩

theorem errors_checkItem (st : Control σ) (item : BodyItem ι) :
    st.errors <+: (checkItem ck F st item).errors := by
  have hstart : ∀ (c : Bool) (e : BodyError) (es : List SemaError),
      st.errors <+: ((if c then st.emit e else st).emitAll es).errors := by
    intro c e es
    cases c with
    | true => exact (((Keeps.refl st).emit e).emitAll es).errors
    | false => exact ((Keeps.refl st).emitAll es).errors
  cases item with
  | function d isAsync body =>
    unfold checkItem
    dsimp only
    split
    · unfold checkFunction
      cases body with
      | none => exact hstart _ _ _
      | some body =>
        refine List.IsPrefix.trans ?_ ((keeps_check body _ _).expect _ _).errors
        exact hstart _ _ _
    · exact List.prefix_refl _
  | test d body =>
    unfold checkItem
    dsimp only
    split
    · unfold checkTest
      refine List.IsPrefix.trans ?_ (keeps_check body none _).errors
      exact ((Keeps.refl st).emitAll _).errors
    · exact List.prefix_refl _

theorem errors_checkItems (items : List (BodyItem ι)) (st : Control σ) :
    st.errors <+: (items.foldl (checkItem ck F) st).errors := by
  induction items generalizing st with
  | nil => exact List.prefix_refl _
  | cons item items ih => exact (errors_checkItem st item).trans (ih _)

theorem between_checkItems (items : List (BodyItem ι))
    (hstays : ∀ item ∈ items, item.staysInside ck = true) {st : Control σ} (h : Between st)
    (hdone : (items.foldl (checkItem ck F) st).errors = []) :
    Between (items.foldl (checkItem ck F) st) := by
  induction items generalizing st with
  | nil => exact h
  | cons item items ih =>
    have hprefix := @errors_checkItems _ _ ck F items (checkItem ck F st item)
    rw [List.foldl_cons] at hdone ⊢
    rw [hdone] at hprefix
    refine ih (fun i hi => hstays i (List.mem_cons_of_mem _ hi)) ?_ hdone
    exact between_checkItem item (hstays item List.mem_cons_self) h (List.prefix_nil.mp hprefix)

/-- In an accepted program whose bodies stay inside by their syntax, control stays inside: each
`break` and `continue` has a loop in its own body, and what `return` and `?` pass on is assignable
to the result type of its own body. -/
theorem transfers_inside (ck : BodyChecker) (F : Forms ι σ) (items : List (BodyItem ι)) (rest : σ)
    (hstays : ∀ item ∈ items,
      item.staysInside { ck with ifaceImpls := ck.collectImpls.ifaceImpls } = true)
    (haccepted : (checkProgram ck F items rest).errors = []) :
    (checkProgram ck F items rest).misplaced = [] :=
  (between_checkItems items hstays ⟨rfl, rfl⟩ haccepted).misplaced

end programs

/-! ### A program that control leaves -/

/-- A script that checks some parts, from one on, and yields a type. -/
def Script.inOrder (ty : Ty) (part : Nat) : Nat → Script Unit
  | 0 => .done ty [] ()
  | n + 1 => .check part none () fun _ _ => inOrder ty (part + 1) n

/-- Forms of some number of parts and some type. -/
def orderedForms : Forms (Nat × Ty) Unit where
  script := fun f _ _ _ => .inOrder f.2 0 f.1
  pushScope := id
  popScope := id
  openFor := fun _ _ _ => ([], ())
  closeFor := id
  openClosure := fun _ _ _ => ([], [], ())
  openAsync := id
  closeBody := id
  openFunction := fun _ _ => ([], ())

/-- `function poll_all()` and `function size(): i64`. -/
def twoFunctions : BodyChecker where
  prog :=
    { defs := [
        { kind := .function, name := "poll_all", module := 0, parent := none, item := some .other,
          generics := [], paramBounds := [] },
        { kind := .function, name := "size", module := 0, parent := none, item := some .other,
          generics := [], paramBounds := [] }]
      modules := []
      preludeTypes := []
      builtinModule := 0
      builtinSourceModules := [] }
  tcx := .standard
  curModule := 0
  curGenerics := []
  curSelfTy := none
  ifaceImpls := []
  display := fun _ => ""
  futureDef := 0
  readyDef := 0
  tryDef := 0
  fromResidualDef := 0
  returnTypes := fun d => if d = 1 then some (.named "i64" [] ⟨0, 0⟩) else none

/-- `i64` and `str`, as they are written. -/
def i64Node : TypeNode := .named "i64" [] ⟨0, 0⟩

def strNode : TypeNode := .named "str" [] ⟨0, 0⟩

/-- `var g = (): ty => body;`. -/
def bindClosure (ty : Option TypeNode) (body : Expr (Nat × Ty)) : Expr (Nat × Ty) :=
  .form (1, .null) [.closure (0, .null) ty false body]

/-- An integer literal. -/
def intLiteral : Expr (Nat × Ty) := .form (0, .int .i64) []

/-- `var g = (): ty => { return 1 }; 1`. -/
def returningClosure (ty : TypeNode) : Expr (Nat × Ty) :=
  .blockOf [bindClosure (some ty) (.blockOf [] (.returnOf intLiteral))] intLiteral

/-- A function whose loop breaks, and a closure that returns what its function returns. -/
theorem loop_and_closure_stay_inside :
    (checkProgram twoFunctions orderedForms
      [.function 0 false (some (.block [.loop (.block [.break])])),
        .function 1 false (some (returningClosure i64Node))] ()).misplaced = [] :=
  transfers_inside twoFunctions orderedForms _ () (by decide) (by decide +kernel)

/-- `loop { var g = () => { break }; }`, and `var g = (): str => { return 1 };` in a function of
integers. -/
def leavingItems : List (BodyItem (Nat × Ty)) :=
  [.function 0 false (some (.block [.loop (.block [bindClosure none (.blockOf [] .break)])])),
    .function 1 false (some (returningClosure strNode))]

/-- They are accepted: the `break` is for a loop of another body, and the integer is returned from
a closure of strings. -/
theorem accepted_transfers_leave :
    (checkProgram twoFunctions orderedForms leavingItems ()).errors = [] ∧
      (checkProgram twoFunctions orderedForms leavingItems ()).misplaced =
        [.loopControl "break", .passed (.int .i64) .str] := by
  decide +kernel

end compiler.sema
