-- Whether the expansion of the macros is complete: whether an expansion without an error leaves no
-- use of a macro of the program. The walk passes over some places: the holes of a string, the
-- types and patterns, the arguments of attributes and of calls of no macro, the attributes below
-- the top of a module and those of a module inside another. It is complete for all macros that
-- return code without a use there when they are given such code, if and only if the program has no
-- use there.
import OtterFusion.Macros.Passes

namespace macros

open base.rules
open compiler.ast (Span)
open compiler.syntax

/-! ## Completeness -/

/-- The uses of a program that the expansion passes over. -/
def Program.passedOver (p : Program) : List String :=
  moduleUses (isUserMacro p.macroNames) p.items

/-- An expansion without an error leaves no use of a macro that the program defines. -/
def Complete {W : Type} (host : Host W) (recursionLimit : Option Nat) (p : Program) : Prop :=
  (expandUserMacros host recursionLimit p).2 = [] →
    (itemsUses (isUserMacro p.macroNames) false
      (expandUserMacros host recursionLimit p).1.items).Disjoint p.macroNames

section Given

variable (user : String → Bool)

/-- Whether a macro gets its input before the walk has come to it: an item, but no call. -/
def Node.reached : Node → Bool
  | .item _ => true
  | _ => false

/-- The uses in the context of a macro. -/
def MacroCtx.uses (reached : Bool) (c : MacroCtx) : List String :=
  exprsUses user reached c.args ++ exprsUses user reached (c.kwargs.map (·.2))

/-- The uses that stay in an input: those passed over in an item, and all those in a block. -/
def Node.given : Node → List String
  | .item it => plainUses user it
  | .block b => blockUses user false b
  | _ => []

/-- The uses in an output that the expansion of it passes over. -/
def Node.left : Node → List String
  | .item it => moduleUses user [it]
  | .items its => moduleUses user its
  | .expr e => exprUses user true e
  | .args es => exprsUses user true es
  | .block b => blockUses user true b
  | .ident _ | .errorMarker => []

/-- A macro that, given code with no use passed over, returns such code or reports an error. -/
def Tidy {W : Type} (names : List String) (f : Entry W) : Prop :=
  ∀ w c input, (c.uses user input.reached).Disjoint names → (input.given user).Disjoint names →
    errorsOf (f w c input).2.1 = [] →
      ∃ node, (f w c input).2.2 = some node ∧ isMarker (some node) = false ∧
        (node.left user).Disjoint names

end Given

/-- All the macros that the host compiles for the program are tidy. -/
def Host.Tidy {W : Type} (host : Host W) (p : Program) : Prop :=
  ∀ jit, host.buildMacroJit p = .ok jit → ∀ entry f, jit entry = some f →
    macros.Tidy (isUserMacro p.macroNames) p.macroNames f

variable {W : Type} {user : String → Bool} {names : List String}

/-! ## Attributes and arguments -/

theorem argsUses_disjoint (reached : Bool) (args : List AttrArg) :
    (argsUses user reached args).Disjoint names ↔
      (exprsUses user reached (positionalExprs args)).Disjoint names ∧
        (exprsUses user reached ((namedExprs args).map (·.2))).Disjoint names := by
  induction args with
  | nil => simp [argsUses, positionalExprs, namedExprs, exprsUses]
  | cons a args ih =>
    cases a <;> simp [argsUses, positionalExprs, namedExprs, exprsUses, ih] <;> tauto

/-- With no macro among the attributes, none is taken. -/
theorem takeMacro_none {attrs : List Attribute} (h : takeMacro user attrs = none) :
    takenUses user attrs = [] ∧ untakenUses user attrs = attrsUses user attrs := by
  induction attrs with
  | nil => exact ⟨rfl, rfl⟩
  | cons a attrs ih =>
    obtain ⟨name, args, span⟩ := a
    simp only [takeMacro] at h
    split at h
    · cases h
    · rename_i h'
      obtain ⟨h1, h2⟩ := ih h'
      have hu : user name = false := by
        cases hu : user name with
        | false => rfl
        | true =>
          rw [Attribute.name, if_pos hu] at h
          cases h
      simp [takenUses, untakenUses, attrsUses, hu, h1, h2]

/-- The attribute that is taken names a macro, and the others stay. -/
theorem takeMacro_some (names : List String) {attrs rest : List Attribute} {a : Attribute}
    (h : takeMacro user attrs = some (a, rest)) :
    user a.name = true ∧ untakenUses user attrs = untakenUses user rest ∧
      ((takenUses user attrs).Disjoint names ↔
        (argsUses user true a.args).Disjoint names ∧ (takenUses user rest).Disjoint names) ∧
      ∀ p : Attribute → Bool, p a = false → attrs.any p = rest.any p := by
  induction attrs generalizing rest with
  | nil => cases h
  | cons b attrs ih =>
    obtain ⟨name, args, span⟩ := b
    simp only [takeMacro] at h
    split at h
    · rename_i c rest' h'
      obtain ⟨rfl, rfl⟩ : c = a ∧ .mk name args span :: rest' = rest := by simpa using h
      obtain ⟨hu, h1, h2, h3⟩ := ih h'
      refine ⟨hu, ?_, ?_, fun p hp => ?_⟩
      · simp only [untakenUses, h1]
      · simp only [takenUses, List.disjoint_append_left, h2]
        tauto
      · simp only [List.any_cons, h3 p hp]
    · rename_i h'
      obtain ⟨h1, h2⟩ := takeMacro_none h'
      by_cases hu : user name = true
      · obtain ⟨rfl, rfl⟩ : Attribute.mk name args span = a ∧ attrs = rest := by
          simpa [Attribute.name, hu] using h
        refine ⟨hu, ?_, ?_, fun p hp => ?_⟩
        · simp [untakenUses, hu]
        · simp [takenUses, hu, Attribute.args]
        · simp [hp]
      · simp [Attribute.name, hu] at h

/-- What stays at an item, with the attribute that is taken apart. -/
theorem plainUses_take {attrs rest : List Attribute} {a : Attribute} {isPublic : Bool}
    {kind : ItemKind} (hm : user "ProcMacro" = false)
    (h : takeMacro user attrs = some (a, rest)) :
    (plainUses user (.mk attrs isPublic kind)).Disjoint names ↔
      (argsUses user true a.args).Disjoint names ∧
        (plainUses user (.mk rest isPublic kind)).Disjoint names := by
  obtain ⟨hu, h1, h2, h3⟩ := takeMacro_some names h
  have ha : (a.name = "ProcMacro") = False := by
    rw [eq_iff_iff, iff_false]
    intro ha
    rw [ha, hm] at hu
    cases hu
  have hs : stripped (.mk attrs isPublic kind) = stripped (.mk rest isPublic kind) := by
    cases kind <;> simp only [stripped, isProcMacro, importsCompilerSurface]
    rw [h3 (fun a => a.name = "ProcMacro") (by simp [ha])]
  simp only [plainUses, hs, h1, List.disjoint_append_left, h2]
  tauto

/-- What stays at an item with no macro among its attributes, as the walk finds it. -/
theorem plainUses_kept {attrs : List Attribute} {isPublic : Bool} (kind : ItemKind)
    (hk : isModule kind = false) (h : takeMacro user attrs = none) :
    plainUses user (.mk attrs isPublic kind) = keptUses user true [.mk attrs isPublic kind] := by
  obtain ⟨h1, h2⟩ := takeMacro_none h
  have hkind : keptKindUses user true kind = kindUses user true kind := by
    cases kind with
    | inlineModule => cases hk
    | _ => rfl
  simp only [plainUses, keptUses, h1, h2, hkind, List.nil_append, List.append_nil]

/-! ## An expansion without an error -/

/-- The rules for a part of an expansion that adds no error. -/
def noError : Rules (M W) where
  Holds x P := ∀ w, (x w).2.2 = [] → P (x w).1
  value h _ _ := h
  seq hx hf w he := by
    obtain ⟨h1, h2⟩ := List.append_eq_nil_iff.mp he
    exact hf _ (hx w h1) _ h2

theorem noError_report {e : SemaError} {P : Unit → Prop} :
    (noError (W := W)).Holds (report e) P := by
  intro w he
  cases he

/-- No use of a macro comes to be. -/
def Settles (names : List String) (a b : List String) : Prop :=
  a.Disjoint names → b.Disjoint names

theorem settles_placewise : Placewise (Settles names) where
  same _ h := h
  append h h' hab := by
    rw [List.disjoint_append_left] at hab ⊢
    exact ⟨h hab.1, h' hab.2⟩

section NoError

variable {jit : String → Option (Entry W)} {limit : Nat}

/-- A tidy macro that reports no error returns a node. -/
theorem invokeMacro_noError (hj : ∀ entry f, jit entry = some f → Tidy user names f)
    (name : String) (args : List AttrArg) (input : Node) (span : Span) :
    noError.Holds (invokeMacro jit name args input span) fun o =>
      (argsUses user input.reached args).Disjoint names → (input.given user).Disjoint names →
        ∃ node, o = ⟨some node, false⟩ ∧ isMarker (some node) = false ∧
          (node.left user).Disjoint names := by
  intro w he hargs hgiven
  simp only [invokeMacro] at he ⊢
  cases hf : jit ("__macro_entry_" ++ name) with
  | none =>
    rw [hf] at he
    cases he
  | some f =>
    simp only [hf] at he ⊢
    have hc := List.disjoint_append_left.mpr ((argsUses_disjoint _ _).mp hargs)
    obtain ⟨node, hn, hm, hu⟩ := hj _ f hf w ⟨span, positionalExprs args, namedExprs args⟩ input hc
      hgiven he
    refine ⟨node, ?_, hm, hu⟩
    simp only [he, hn, hm, List.isEmpty_nil, Bool.not_true, Bool.or_self]

theorem decorated_noError (user : String → Bool) (attr : Attribute) {node : Node}
    (hm : isMarker (some node) = false) :
    (noError (W := W)).Holds (decorated attr ⟨some node, false⟩) fun r =>
      ∃ items, r = some items ∧ moduleUses user items = node.left user := by
  cases node with
  | item it => exact noError.value ⟨[it], rfl, rfl⟩
  | items its => exact noError.value ⟨its, rfl, rfl⟩
  | errorMarker => cases hm
  | _ => exact noError.seq (noError_report (P := fun _ => False)) fun _ h => h.elim

theorem replaced_noError (user : String → Bool) (name : String) (span : Span) {node : Node}
    (hm : isMarker (some node) = false) :
    (noError (W := W)).Holds (replaced name span ⟨some node, false⟩) fun r =>
      ∃ e, r = some e ∧ exprUses user true e = node.left user := by
  cases node with
  | expr e => exact noError.value ⟨e, rfl, rfl⟩
  | block b => exact noError.value ⟨.block b, rfl, rfl⟩
  | errorMarker => cases hm
  | _ => exact noError.seq (noError_report (P := fun _ => False)) fun _ h => h.elim

theorem callInput_reached (args : List AttrArg) (b : Option Block) :
    (callInput args b).reached = false := by
  cases b <;> rfl

theorem callInput_given (args : List AttrArg) (b : Option Block) :
    (callInput args b).given user = optBlockUses user false b := by
  cases b <;> rfl

/-- Whatever the levels left over, a call without an error becomes code without a use. -/
theorem expandCall_noError (limit : Nat) (hj : ∀ entry f, jit entry = some f → Tidy user names f)
    (left : Nat) :
    ∀ chain, CallsAgree noError (Settles names) user (expandCall jit user limit left chain) := by
  induction left with
  | zero =>
    intro chain name span args b args' b' _ _ _
    exact noError.seq (noError_report (P := fun _ => False)) fun _ h => h.elim
  | succ left ih =>
    intro chain name span args b args' b' _ ha hb
    refine noError.seq (invokeMacro_noError hj name args' (callInput args' b') span) ?_
    intro o ho w he hd
    obtain ⟨hda, hdb⟩ := List.disjoint_append_left.mp hd
    rw [callInput_reached, callInput_given] at ho
    obtain ⟨node, rfl, hm, hn⟩ := ho (ha hda) (hb hdb)
    refine (noError.seq (replaced_noError user name span hm) (Q := fun e' =>
      (exprUses user false e').Disjoint names) ?_) w he
    rintro r ⟨e, rfl, hu⟩
    refine noError.weaken (walkExpr_agrees ⟨settles_placewise, ih (chain ++ [name])⟩ e) ?_
    intro e' h
    exact h (hu ▸ hn)

/-- Whatever the levels left over, an item whose pass has no error keeps no attribute that names a
macro. -/
theorem decorate_noError (limit : Nat) (hm : user "ProcMacro" = false)
    (hj : ∀ entry f, jit entry = some f → Tidy user names f) (left : Nat) :
    ∀ chain it, isModule it.kind = false →
      noError.Holds (decorate jit user limit left chain it) fun out =>
        Settles names (plainUses user it) (keptUses user true out) := by
  induction left with
  | zero =>
    rintro chain ⟨attrs, isPublic, kind⟩ hk
    cases ht : takeMacro user attrs with
    | none =>
      simp only [decorate, ht]
      refine noError.value ?_
      rw [plainUses_kept kind hk ht]
      exact id
    | some a =>
      simp only [decorate, ht]
      exact noError.seq (noError_report (P := fun _ => False)) fun _ h => h.elim
  | succ left ih =>
    rintro chain ⟨attrs, isPublic, kind⟩ hk
    cases ht : takeMacro user attrs with
    | none =>
      simp only [decorate, ht]
      refine noError.value ?_
      rw [plainUses_kept kind hk ht]
      exact id
    | some a =>
      obtain ⟨attr, rest⟩ := a
      simp only [decorate, ht, runDecorator, bind_assoc]
      refine noError.seq (invokeMacro_noError hj attr.name attr.args _ attr.span) ?_
      intro o ho w he hd
      obtain ⟨hda, hdr⟩ := (plainUses_take hm ht).mp hd
      obtain ⟨node, rfl, hmk, hn⟩ := ho hda hdr
      refine (noError.seq (decorated_noError user attr hmk) (Q := fun out =>
        (keptUses user true out).Disjoint names) ?_) w he
      rintro r ⟨items, rfl, hu⟩
      refine noError.weaken
        (expandItems_agrees settles_placewise (ih (chain ++ [attr.name])) items) ?_
      intro out h
      exact h (hu ▸ hn)

end NoError

end macros
