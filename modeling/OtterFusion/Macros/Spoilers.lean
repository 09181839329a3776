-- The expansion of a program is complete for all tidy macros if and only if the program has no use
-- of a macro that is passed over. For the one direction an expansion without an error is followed;
-- for the other a macro that spoils its output when its input is spoiled brings such a use to the
-- end.
import OtterFusion.Macros.Complete

namespace macros

open base.rules
open compiler.ast (Span)
open compiler.syntax

variable {user : String → Bool} {names : List String} {m : String}

/-! ## A macro that spoils its output -/

/-- A call of the macro `m` in the hole of a string when there are uses, and else `null`. -/
def spoil (names : List String) (m : String) (uses : List String) : Expr :=
  if uses.any names.contains then .str [.expr (.macroCall m ⟨0, 0, 0⟩ [] none)] else .lit .null

/-- The item with such a value. -/
def spoiledItem (names : List String) (m : String) (uses : List String) : Item :=
  .mk [] false (.var "spoiled" none (spoil names m uses))

/-- A macro that returns such an expression, and as an item when it is given an item. -/
def spoiler (user : String → Bool) (names : List String) (m : String) : Entry Unit :=
  fun w c input =>
    let uses := c.uses user input.reached ++ input.given user
    (w, [], some (if input.reached then .item (spoiledItem names m uses)
      else .expr (spoil names m uses)))

theorem any_contains (uses : List String) :
    uses.any names.contains = false ↔ uses.Disjoint names := by
  simp [List.any_eq_false, List.Disjoint]

/-- The output is spoiled if and only if the input was. -/
theorem spoil_disjoint (hm : m ∈ names) (reached : Bool) (uses : List String) :
    (exprUses user reached (spoil names m uses)).Disjoint names ↔ uses.Disjoint names := by
  rw [← any_contains uses, spoil]
  cases uses.any names.contains with
  | true => simp [exprUses, partsUses, argsUses, optBlockUses, hm]
  | false => simp [exprUses]

theorem walkExpr_spoil {W : Type} (expand : String → Span → List AttrArg → Option Block → M W Expr)
    (uses : List String) :
    walkExpr user expand (spoil names m uses) = pure (spoil names m uses) := by
  unfold spoil
  split <;> rfl

theorem spoiledItem_uses (uses : List String) :
    moduleUses user [spoiledItem names m uses] = exprUses user true (spoil names m uses) ∧
      keptUses user true [spoiledItem names m uses] = exprUses user true (spoil names m uses) := by
  constructor
  · exact List.append_nil _
  · exact List.append_nil _

theorem spoiler_tidy (hm : m ∈ names) : Tidy user names (spoiler user names m) := by
  intro w c input hc hi _
  have hu : (c.uses user input.reached ++ input.given user).Disjoint names :=
    List.disjoint_append_left.mpr ⟨hc, hi⟩
  simp only [spoiler]
  revert hu
  cases input.reached with
  | true =>
    intro hu
    refine ⟨_, rfl, rfl, ?_⟩
    rw [if_pos rfl, Node.left, (spoiledItem_uses _).1]
    exact (spoil_disjoint hm true _).mpr hu
  | false =>
    intro hu
    refine ⟨_, rfl, rfl, ?_⟩
    exact (spoil_disjoint hm true _).mpr hu

/-! ## An expansion with it -/

/-- The rules for a part of an expansion that never adds an error. -/
def silent {W : Type} : Rules (M W) where
  Holds x P := ∀ w, (x w).2.2 = [] ∧ P (x w).1
  value h _ := ⟨rfl, h⟩
  seq hx hf w := by
    obtain ⟨h1, h2⟩ := hx w
    obtain ⟨h3, h4⟩ := hf _ h2 _
    exact ⟨List.append_eq_nil_iff.mpr ⟨h1, h3⟩, h4⟩

/-- A use of a macro does not go away. -/
def Exposes (names : List String) (a b : List String) : Prop := b.Disjoint names → a.Disjoint names

theorem exposes_placewise : Placewise (Exposes names) where
  same _ h := h
  append h h' hab := by
    rw [List.disjoint_append_left] at hab ⊢
    exact ⟨h hab.1, h' hab.2⟩

section Spoiled

variable {limit left : Nat} {chain : List String}

/-- The compiler of a program whose macros are all the spoiler. -/
def spoilers (user : String → Bool) (names : List String) (m : String) :
    String → Option (Entry Unit) :=
  fun _ => some (spoiler user names m)

/-- The uses in the input of a macro with these arguments. -/
def inputUses (user : String → Bool) (args : List AttrArg) (input : Node) : List String :=
  MacroCtx.uses user input.reached ⟨⟨0, 0, 0⟩, positionalExprs args, namedExprs args⟩ ++
    input.given user

theorem inputUses_disjoint (args : List AttrArg) (input : Node) :
    (inputUses user args input).Disjoint names ↔
      (argsUses user input.reached args).Disjoint names ∧ (input.given user).Disjoint names := by
  rw [inputUses, List.disjoint_append_left, MacroCtx.uses, List.disjoint_append_left,
    argsUses_disjoint]

theorem invokeMacro_spoilers (name : String) (args : List AttrArg) (input : Node) (span : Span) :
    invokeMacro (spoilers user names m) name args input span = pure ⟨some
      (if input.reached then .item (spoiledItem names m (inputUses user args input))
        else .expr (spoil names m (inputUses user args input))), false⟩ := by
  funext w
  simp only [invokeMacro, spoilers, spoiler, inputUses, MacroCtx.uses]
  cases input.reached <;> rfl

theorem expandCall_spoilers (name : String) (span : Span) (args : List AttrArg)
    (b : Option Block) :
    expandCall (spoilers user names m) user limit (left + 1) chain name span args b =
      pure (spoil names m (inputUses user args (callInput args b))) := by
  simp only [expandCall, invokeMacro_spoilers, callInput_reached, Bool.false_eq_true, if_false,
    pure_bind, replaced, walkExpr_spoil]

theorem calls_spoilers (hm : m ∈ names) :
    CallsAgree silent (Exposes names) user
      (expandCall (spoilers user names m) user limit (left + 1) chain) := by
  intro name span args b args' b' _ ha hb
  rw [expandCall_spoilers]
  refine silent.value ?_
  intro h
  rw [spoil_disjoint hm, inputUses_disjoint, callInput_reached, callInput_given] at h
  exact List.disjoint_append_left.mpr ⟨ha h.1, hb h.2⟩

theorem decorate_spoiled (uses : List String) (left : Nat) (chain : List String) :
    expandItems (decorate (spoilers user names m) user limit left chain)
      [spoiledItem names m uses] = pure [spoiledItem names m uses] := by
  cases left <;> rfl

theorem decorate_spoilers (limit left : Nat) (chain : List String) (hp : user "ProcMacro" = false)
    (hm : m ∈ names) (it : Item) (hk : isModule it.kind = false) :
    silent.Holds (decorate (spoilers user names m) user limit (left + 1) chain it) fun out =>
      Exposes names (plainUses user it) (keptUses user true out) := by
  obtain ⟨attrs, isPublic, kind⟩ := it
  cases ht : takeMacro user attrs with
  | none =>
    simp only [decorate, ht]
    refine silent.value ?_
    rw [plainUses_kept kind hk ht]
    exact id
  | some a =>
    obtain ⟨attr, rest⟩ := a
    simp only [decorate, ht, runDecorator, invokeMacro_spoilers, Node.reached, if_true, pure_bind,
      decorated, Bool.false_eq_true, if_false, decorate_spoiled]
    refine silent.value ?_
    intro h
    rw [(spoiledItem_uses _).2, spoil_disjoint hm, inputUses_disjoint] at h
    exact (plainUses_take hp ht).mpr h

end Spoiled

/-! ## When the expansion of a program is complete -/

theorem isUserMacro_procMacro (names : List String) : isUserMacro names "ProcMacro" = false := by
  simp [isUserMacro, reservedAttrs]

/-- A program with no use passed over: what tidy macros make of it is complete. -/
theorem complete_of_passedOver {W : Type} {host : Host W} {recursionLimit : Option Nat}
    {p : Program} (ht : host.Tidy p) (h : p.passedOver.Disjoint p.macroNames) :
    Complete host recursionLimit p := by
  intro he
  by_cases hn : p.macroNames = []
  · rw [hn]
    exact List.disjoint_nil_right _
  · obtain ⟨hs, jit, hj⟩ := of_expandUserMacros_errors hn he
    rw [expandUserMacros_ok recursionLimit hn hs hj] at he ⊢
    have hm := isUserMacro_procMacro p.macroNames
    have hd := decorate_noError (recursionLimit.getD defaultRecursionLimit) hm (ht jit hj)
      (recursionLimit.getD defaultRecursionLimit) []
    have hc := expandCall_noError (recursionLimit.getD defaultRecursionLimit) (ht jit hj)
      (recursionLimit.getD defaultRecursionLimit) []
    exact expandProgram_agrees settles_placewise (fun _ _ _ h h' hab => h' (h hab)) hd hc p
      host.start he h

/-- With the spoiler for every macro, a use that is passed over stays to the end. -/
theorem passedOver_of_complete {p : Program}
    (h : ∀ (W : Type) (host : Host W) recursionLimit, host.Tidy p →
      Complete host recursionLimit p) :
    p.passedOver.Disjoint p.macroNames := by
  by_contra hd
  obtain ⟨m, _, hm⟩ : ∃ m ∈ p.passedOver, m ∈ p.macroNames := by
    simpa [List.Disjoint] using hd
  let host : Host Unit :=
    ⟨fun _ => [], fun _ => .ok (spoilers (isUserMacro p.macroNames) p.macroNames m), ()⟩
  have ht : host.Tidy p := by
    rintro jit hj entry f hf
    cases hj
    cases hf
    exact spoiler_tidy hm
  have hc := h Unit host none ht
  rw [Complete, expandUserMacros_ok none (List.ne_nil_of_mem hm) rfl rfl] at hc
  have hdec := decorate_spoilers 128 127 [] (isUserMacro_procMacro p.macroNames) hm
  obtain ⟨he, hs⟩ := expandProgram_agrees exposes_placewise (fun _ _ _ h h' hab => h (h' hab))
    hdec (calls_spoilers hm) p ()
  exact absurd (hs (hc he)) hd

/-- The expansion of a program is complete, whatever its tidy macros, if and only if no use of a
macro of it is passed over. -/
theorem expansion_complete_iff (p : Program) :
    (∀ (W : Type) (host : Host W) (recursionLimit : Option Nat),
      host.Tidy p → Complete host recursionLimit p) ↔
      p.passedOver.Disjoint p.macroNames := by
  constructor
  · exact passedOver_of_complete
  · intro h W host recursionLimit ht
    exact complete_of_passedOver ht h

/-- A program that calls its macro `answer` in the hole of a string, in `main`. -/
def holeProgram : Program where
  root :=
    [.mk [.mk "ProcMacro" [] ⟨0, 0, 10⟩] false (.function (.mk "answer" []
        [.normal "ctx" (.named "MacroContext" []), .normal "input" (.named "ASTNode" [])]
        (some (.named "ASTNode" [])) false
        (some (.mk [] (some (.call (.field (.ident "ctx") "parse_expr") [] [.str [.text "42"]]
          none)))))),
      .mk [] false (.function (.mk "main" [] [] none false
        (some (.mk [.expr (.call (.ident "println") []
          [.str [.text "the answer is ", .expr (.macroCall "answer" ⟨0, 120, 121⟩ [] none)]]
          none)] none))))]
  externals := []

/-- A host for it: the macro returns the literal `42`. -/
def answerHost : Host Unit :=
  ⟨fun _ => [], fun _ => .ok fun _ => some fun w _ _ =>
    (w, [], some (.expr (.lit (.int "42")))), ()⟩

/-- Its expansion reports no error and leaves the call. -/
theorem a_call_in_a_string_stays : ¬ Complete answerHost none holeProgram := by
  intro h
  have he : (expandUserMacros answerHost none holeProgram).2 = [] := by decide
  have hu : "answer" ∈ itemsUses (isUserMacro holeProgram.macroNames) false
      (expandUserMacros answerHost none holeProgram).1.items := by decide
  exact h he hu (by decide)

end macros
