-- When a copied default method means what the default means. In the copy each name should denote
-- what it denotes in the interface, with the arguments of the block for the parameters of the
-- interface. The substitution is by name and the copy is looked up in the module of the block; so
-- it does if and only if each use is of one of a few kinds that this file spells out.
import OtterFusion.Compiler.DefaultSubst

namespace compiler.defaults

open compiler.syntax

variable {E : Type}

/-! ## The two scopes of a copy -/

/-- Where an interface is implemented: the scope of its own module, and the scope and the generic
parameters of the block. -/
structure Setting (E : Type) where
  iface : Scope E
  impl : Scope E
  outer : List String

/-- The scope that a copy is looked up in. -/
def Setting.here (s : Setting E) : Env E :=
  ⟨s.impl, fun name => if s.outer.contains name then some (.outer name) else none⟩

/-- The names of the parameters of the interface. -/
def Copy.params (c : Copy) : List String := c.iface.generics.map genericName

/-- The arguments for them. -/
def Copy.subst (c : Copy) : List (String × Ty) := ifaceParamSubst c.iface c.args

/-- The names of the generic parameters of the method. -/
def Copy.shadow (c : Copy) : List String :=
  match c.member with
  | .mk _ _ (.mk _ generics _ _ _ _) => generics.map genericName

/-- What an argument of the block denotes. -/
def Setting.argument (s : Setting E) (t : Ty) : Meaning E := meanType (s.here.look []) t

/-- The scope of the interface, with the arguments of the block for its parameters. -/
def Setting.there (s : Setting E) (c : Copy) : Env E :=
  ⟨s.iface, fun name =>
    if c.params.contains name then
      some (match c.subst.lookup name with
        | some t => s.argument t
        | none => .unbound name)
    else none⟩

/-- The copy means what the default means: place by place its names denote the same. -/
def Faithful (s : Setting E) (c : Copy) : Prop :=
  (methodUses c.synth).map s.here.denote = (methodUses c.member).map (s.there c).denote

/-! ## The uses that keep their meaning -/

/-- Whether a name is that of a primitive type or of a generic parameter inside the method. -/
def Near (generics : List String) (name : String) : Prop :=
  (sema.primitive name).isSome ∨ name ∈ generics

section LookedUp

variable (s : Setting E)

mutual

/-- The names in an argument of the block that are looked up there. -/
def lookedUp : Ty → List String
  | .named name generics =>
    if (sema.primitive name).isSome then []
    else
      match s.here.look [] name with
      | .type _ => [name]
      | .decl _ => name :: lookedUps generics
  | .tuple ts | .union ts => lookedUps ts
  | .function ps t | .externFunction ps t => lookedUps ps ++ lookedUp t
  | .pointer t | .paren t | .array t _ => lookedUp t
  | .selfType => []

def lookedUps : List Ty → List String
  | [] => []
  | t :: ts => lookedUp t ++ lookedUps ts

end

end LookedUp

section Conditions

variable (s : Setting E) (c : Copy) (sub : String → Option Ty) (generics : List String)

/-- The argument for a name, where the name stands alone and the substitution comes to it. -/
def replacement (name : String) (args : List Ty) : Option Ty :=
  if args.isEmpty then sub name else none

mutual

/-- What the copy has in the place of a type. -/
def copyMeaning : Ty → Meaning E
  | .named name args =>
    match replacement sub name args with
    | some t => meanType (s.here.look generics) t
    | none => (s.here.look generics name).apply (copyMeanings args)
  | .tuple ts => .tuple (copyMeanings ts)
  | .function ps t => .function (copyMeanings ps) (copyMeaning t) false
  | .externFunction ps t => .function (copyMeanings ps) (copyMeaning t) true
  | .union ts => .union (copyMeanings ts)
  | .pointer t => .pointer (copyMeaning t)
  | .array t len => .array (copyMeaning t) (lenMeaning len)
  | .selfType => .selfType
  | .paren t => copyMeaning t

def copyMeanings : List Ty → List (Meaning E)
  | [] => []
  | t :: ts => copyMeaning t :: copyMeanings ts

end

/-- A name that is replaced with an argument: no name that is looked up in the argument is bound
inside the method. Where the name itself is bound again, or is that of a primitive type, the
argument has to denote just that. -/
def ReplacedOk (name : String) (t : Ty) : Prop :=
  (Near generics name → meanType (s.here.look generics) t = (s.here.look generics name).apply []) ∧
    (¬ Near generics name → ∀ k ∈ lookedUp s t, k ∉ generics)

/-- A name that stays as it is: bound inside the method or primitive; or a parameter of the
interface whose argument is what the block means by the name; or a name that the block does not
bind and that both modules give the same type, with arguments that keep their meaning. -/
def KeptOk (name : String) (args : List Ty) (argsOk : Prop) : Prop :=
  Near generics name ∨
    (name ∈ c.params ∧ ∃ t, c.subst.lookup name = some t ∧
      (s.here.look generics name).apply (copyMeanings s sub generics args) = s.argument t) ∨
    (name ∉ c.params ∧ name ∉ s.outer ∧ s.impl.types name = s.iface.types name ∧
      (s.iface.types name = none ∨ argsOk))

mutual

def TypeOk : Ty → Prop
  | .named name args =>
    match replacement sub name args with
    | some t => ReplacedOk s generics name t
    | none => KeptOk s c sub generics name args (TypesOk args)
  | .tuple ts | .union ts => TypesOk ts
  | .function ps t | .externFunction ps t => TypesOk ps ∧ TypeOk t
  | .pointer t | .paren t | .array t _ => TypeOk t
  | .selfType => True

def TypesOk : List Ty → Prop
  | [] => True
  | t :: ts => TypeOk t ∧ TypesOk ts

end

end Conditions

/-- The arguments that the substitution puts in at a use: none where it does not come, and none for
a generic parameter of the method. -/
def Copy.sub (c : Copy) (visited : Bool) (name : String) : Option Ty :=
  if visited && !c.shadow.contains name then c.subst.lookup name else none

/-- A name that both modules mean alike, as far as the place looks. -/
def SameName (s : Setting E) (c : Copy) (generics : List String) (name : String) : Place → Prop
  | .value => s.impl.values name = s.iface.values name
  | .callee => s.impl.types name = s.iface.types name ∧ s.impl.values name = s.iface.values name
  | .receiver => s.here.receiver generics name = (s.there c).receiver generics name
  | .object nested field => (nested = true → s.impl.spaces name = s.iface.spaces name) ∧
    (numConstantOf name field = false → s.impl.values name = s.iface.values name)

/-- A use that keeps its meaning. -/
def UseOk (s : Setting E) (c : Copy) (u : Use) : Prop :=
  match u.atom with
  | .type t => TypeOk s c (c.sub u.visited) u.ctx.generics t
  | .path name => s.impl.types name = s.iface.types name
  | .name place name => name ∈ u.ctx.locals ∨ SameName s c u.ctx.generics name place

/-! ## Looking a name up -/

section Look

variable {s : Setting E} {c : Copy} {generics : List String} {name : String}

/-- A name that is bound near means the same in both scopes. -/
theorem look_near (v w : Env E) (h : Near generics name) :
    v.look generics name = w.look generics name := by
  unfold Env.look
  cases hp : sema.primitive name with
  | some t => rfl
  | none =>
    have hg : name ∈ generics := by simpa [Near, hp] using h
    simp only [List.contains_iff_mem.mpr hg, if_true]

/-- A name that is not bound near is looked up as outside the method. -/
theorem look_far (v : Env E) (h : ¬ Near generics name) :
    v.look generics name = v.look [] name := by
  unfold Env.look
  cases hp : sema.primitive name with
  | some t => exact absurd (Or.inl (by simp [hp])) h
  | none =>
    have hg : generics.contains name = false := by
      rw [← Bool.not_eq_true, List.contains_iff_mem]
      exact fun hg => h (Or.inr hg)
    simp only [hg, List.contains_nil, Bool.false_eq_true, if_false]

/-- A name that is not primitive and is bound near is a generic parameter inside the method. -/
theorem look_generic (v : Env E) (hp : sema.primitive name = none) (hg : name ∈ generics) :
    v.look generics name = .type (.generic (generics.idxOf name)) := by
  unfold Env.look
  simp only [hp, List.contains_iff_mem.mpr hg, if_true]

/-- What a name of the block stands for outside the method. -/
theorem look_here (hp : sema.primitive name = none) :
    s.here.look [] name =
      if s.outer.contains name then .type (.outer name)
      else
        match s.impl.types name with
        | some e => .decl e
        | none => .type .unknown := by
  unfold Env.look Setting.here
  simp only [hp, List.contains_nil, Bool.false_eq_true, if_false]
  cases s.outer.contains name <;> rfl

/-- What a name of the interface stands for outside the method. -/
theorem look_there (hp : sema.primitive name = none) :
    (s.there c).look [] name =
      if c.params.contains name then
        .type (match c.subst.lookup name with
          | some t => s.argument t
          | none => .unbound name)
      else
        match s.iface.types name with
        | some e => .decl e
        | none => .type .unknown := by
  unfold Env.look Setting.there
  simp only [hp, List.contains_nil, Bool.false_eq_true, if_false]
  cases c.params.contains name <;> rfl

/-- A name that has an argument is a parameter of the interface. -/
theorem mem_params {t : Ty} (h : c.subst.lookup name = some t) : name ∈ c.params := by
  obtain ⟨l₁, l₂, hl, _⟩ := List.lookup_eq_some_iff.mp h
  have hm : (name, t) ∈ ((c.iface.generics.map genericName).zip c.args).reverse := by
    rw [show ((c.iface.generics.map genericName).zip c.args).reverse = l₁ ++
      (name, t) :: l₂ from hl]
    simp
  exact (List.of_mem_zip (List.mem_reverse.mp hm)).1

theorem not_near (h : ¬ Near generics name) : sema.primitive name = none ∧ name ∉ generics := by
  simpa [Near] using h

end Look

/-! ## An argument inside the method -/

section Argument

variable {s : Setting E} {generics : List String}

mutual

/-- An argument of the block means inside the method what it means outside if and only if none of
its names is bound there. -/
theorem argument_iff : ∀ t : Ty,
    meanType (s.here.look generics) t = s.argument t ↔ ∀ k ∈ lookedUp s t, k ∉ generics
  | .named name args => by
    simp only [Setting.argument, meanType, lookedUp]
    cases hp : sema.primitive name with
    | some p =>
      simp [Env.look, hp, Sense.apply]
    | none =>
      by_cases hg : name ∈ generics
      · rw [look_generic _ hp hg, look_here hp]
        simp only [Option.isSome_none, Bool.false_eq_true, if_false]
        constructor
        · intro h
          split at h
          · cases h
          · split at h <;> cases h
        · intro h
          refine absurd hg (h name ?_)
          split <;> simp
      · have hn : ¬ Near generics name := by simp [Near, hp, hg]
        rw [look_far _ hn]
        simp only [Option.isSome_none, Bool.false_eq_true, if_false]
        cases s.here.look [] name with
        | type m => simp [Sense.apply, hg]
        | decl e =>
          simp only [Sense.apply, Meaning.named.injEq, true_and, List.forall_mem_cons, hg,
            not_false_eq_true]
          exact arguments_iff args
  | .tuple ts => by
    simp only [Setting.argument, meanType, lookedUp, Meaning.tuple.injEq]
    exact arguments_iff ts
  | .union ts => by
    simp only [Setting.argument, meanType, lookedUp, Meaning.union.injEq]
    exact arguments_iff ts
  | .function ps t | .externFunction ps t => by
    simp only [Setting.argument, meanType, lookedUp, Meaning.function.injEq, and_true,
      List.forall_mem_append]
    exact and_congr (arguments_iff ps) (argument_iff t)
  | .pointer t => by
    simp only [Setting.argument, meanType, lookedUp, Meaning.pointer.injEq]
    exact argument_iff t
  | .array t len => by
    simp only [Setting.argument, meanType, lookedUp, Meaning.array.injEq, and_true]
    exact argument_iff t
  | .paren t => by
    simp only [Setting.argument, meanType, lookedUp]
    exact argument_iff t
  | .selfType => by simp [Setting.argument, meanType, lookedUp]

theorem arguments_iff : ∀ ts : List Ty,
    meanTypes (s.here.look generics) ts = meanTypes (s.here.look []) ts ↔
      ∀ k ∈ lookedUps s ts, k ∉ generics
  | [] => by simp [meanTypes, lookedUps]
  | t :: ts => by
    simp only [meanTypes, lookedUps, List.cons.injEq, List.forall_mem_append]
    exact and_congr (argument_iff t) (arguments_iff ts)

end

end Argument

/-! ## A type in the copy -/

section Types

variable {s : Setting E} {c : Copy} {sub : String → Option Ty} {generics : List String}
  {name : String}

theorem replaced_iff {t : Ty} (h : c.subst.lookup name = some t) :
    meanType (s.here.look generics) t = ((s.there c).look generics name).apply [] ↔
      ReplacedOk s generics name t := by
  by_cases hn : Near generics name
  · rw [look_near (s.there c) s.here hn]
    simp [ReplacedOk, hn]
  · obtain ⟨hp, _⟩ := not_near hn
    rw [look_far _ hn, look_there hp, if_pos (List.contains_iff_mem.mpr (mem_params h)), h]
    simp only [ReplacedOk, hn, false_implies, not_false_eq_true, true_implies, true_and]
    exact argument_iff t

/-- A declaration with arguments is no parameter without an argument. -/
theorem here_apply_ne_unbound (hp : sema.primitive name = none) (args : List (Meaning E))
    (other : String) : (s.here.look [] name).apply args ≠ .unbound other := by
  rw [look_here hp]
  split
  · intro h
    cases h
  · split <;>
    · intro h
      cases h

theorem kept_iff {args : List Ty} {argsOk : Prop}
    (ih : copyMeanings s sub generics args = meanTypes ((s.there c).look generics) args ↔ argsOk) :
    (s.here.look generics name).apply (copyMeanings s sub generics args) =
        ((s.there c).look generics name).apply (meanTypes ((s.there c).look generics) args) ↔
      KeptOk s c sub generics name args argsOk := by
  by_cases hn : Near generics name
  · have ht : ∃ m, s.here.look generics name = .type m := by
      unfold Env.look
      cases hp : sema.primitive name with
      | some t => exact ⟨_, rfl⟩
      | none =>
        have hg : name ∈ generics := by simpa [Near, hp] using hn
        exact ⟨_, if_pos (List.contains_iff_mem.mpr hg)⟩
    obtain ⟨m, ht⟩ := ht
    rw [← look_near s.here (s.there c) hn, ht]
    exact iff_of_true rfl (.inl hn)
  · obtain ⟨hp, _⟩ := not_near hn
    simp only [KeptOk, hn, false_or]
    rw [look_far s.here hn, look_far (s.there c) hn, look_there hp]
    by_cases hc : name ∈ c.params
    · rw [if_pos (List.contains_iff_mem.mpr hc)]
      simp only [hc, true_and, not_true_eq_false, false_and, or_false]
      cases c.subst.lookup name with
      | some t => simp [Sense.apply]
      | none => simpa [Sense.apply] using here_apply_ne_unbound hp _ _
    · rw [if_neg (by simpa using hc), look_here hp]
      simp only [hc, false_and, not_false_eq_true, true_and, false_or]
      by_cases ho : name ∈ s.outer
      · rw [if_pos (List.contains_iff_mem.mpr ho)]
        simp only [ho, not_true_eq_false, false_and, iff_false]
        split <;>
        · intro h
          cases h
      · rw [if_neg (by simpa using ho)]
        simp only [ho, not_false_eq_true, true_and]
        cases s.impl.types name <;> cases s.iface.types name <;>
          simp [Sense.apply, ih]

mutual

/-- A type of the copy means what it means in the interface if and only if it is of the good
kinds. -/
theorem copyMeaning_iff (hsub : ∀ n t, sub n = some t → c.subst.lookup n = some t) : ∀ t : Ty,
    copyMeaning s sub generics t = meanType ((s.there c).look generics) t ↔
      TypeOk s c sub generics t
  | .named name args => by
    simp only [copyMeaning, meanType, TypeOk]
    cases hr : replacement sub name args with
    | some t =>
      unfold replacement at hr
      split at hr
      · rename_i ha
        rw [List.isEmpty_iff.mp ha]
        exact replaced_iff (hsub _ _ hr)
      · cases hr
    | none => exact kept_iff (copyMeanings_iff hsub args)
  | .tuple ts => by
    simp only [copyMeaning, meanType, TypeOk, Meaning.tuple.injEq]
    exact copyMeanings_iff hsub ts
  | .union ts => by
    simp only [copyMeaning, meanType, TypeOk, Meaning.union.injEq]
    exact copyMeanings_iff hsub ts
  | .function ps t | .externFunction ps t => by
    simp only [copyMeaning, meanType, TypeOk, Meaning.function.injEq, and_true]
    exact and_congr (copyMeanings_iff hsub ps) (copyMeaning_iff hsub t)
  | .pointer t => by
    simp only [copyMeaning, meanType, TypeOk, Meaning.pointer.injEq]
    exact copyMeaning_iff hsub t
  | .array t len => by
    simp only [copyMeaning, meanType, TypeOk, Meaning.array.injEq, and_true]
    exact copyMeaning_iff hsub t
  | .paren t => by
    simp only [copyMeaning, meanType, TypeOk]
    exact copyMeaning_iff hsub t
  | .selfType => by simp [copyMeaning, meanType, TypeOk]

theorem copyMeanings_iff (hsub : ∀ n t, sub n = some t → c.subst.lookup n = some t) :
    ∀ ts : List Ty, copyMeanings s sub generics ts = meanTypes ((s.there c).look generics) ts ↔
      TypesOk s c sub generics ts
  | [] => by simp [copyMeanings, meanTypes, TypesOk]
  | t :: ts => by
    simp only [copyMeanings, meanTypes, TypesOk, List.cons.injEq]
    exact and_congr (copyMeaning_iff hsub t) (copyMeanings_iff hsub ts)

end

end Types

/-! ## The uses of the copy -/

section Uses

variable {s : Setting E} {c : Copy}

theorem lenMeaning_subst (subst : List (String × Ty)) (shadow : List String) (len : Expr) :
    lenMeaning (substExpr subst shadow len) = lenMeaning len := by
  cases len <;> rfl

section Substituted

variable (s) (subst : List (String × Ty)) (shadow generics : List String)

mutual

/-- What the substitution makes of a type, as the block reads it. -/
theorem meanType_substType : ∀ t : Ty,
    meanType (s.here.look generics) (substType subst shadow t) =
      copyMeaning s (fun n => if !shadow.contains n then subst.lookup n else none) generics t
  | .named name args => by
    have ih := meanTypes_substTypes args
    simp only [substType, copyMeaning, replacement]
    cases ha : args.isEmpty with
    | false =>
      simp only [Bool.false_and, Bool.false_eq_true, if_false, meanType, ih]
    | true =>
      have hn := List.isEmpty_iff.mp ha
      subst hn
      cases hs : shadow.contains name with
      | true => rfl
      | false =>
        simp only [Bool.not_false, Bool.and_self, if_true]
        cases subst.lookup name <;> rfl
  | .tuple ts => congrArg Meaning.tuple (meanTypes_substTypes ts)
  | .union ts => congrArg Meaning.union (meanTypes_substTypes ts)
  | .function ps t =>
    congrArg₂ (Meaning.function · · false) (meanTypes_substTypes ps) (meanType_substType t)
  | .externFunction ps t =>
    congrArg₂ (Meaning.function · · true) (meanTypes_substTypes ps) (meanType_substType t)
  | .pointer t => congrArg Meaning.pointer (meanType_substType t)
  | .paren t => meanType_substType t
  | .array t len =>
    congrArg₂ Meaning.array (meanType_substType t) (lenMeaning_subst subst shadow len)
  | .selfType => rfl

theorem meanTypes_substTypes : ∀ ts : List Ty,
    meanTypes (s.here.look generics) (substTypes subst shadow ts) =
      copyMeanings s (fun n => if !shadow.contains n then subst.lookup n else none) generics ts
  | [] => rfl
  | t :: ts => congrArg₂ List.cons (meanType_substType t) (meanTypes_substTypes ts)

end

mutual

/-- A type that stays as it is. -/
theorem meanType_kept : ∀ t : Ty,
    meanType (s.here.look generics) t = copyMeaning s (fun _ => none) generics t
  | .named name args => by
    have hr : replacement (fun _ => none) name args = none := by
      simp [replacement]
    simp only [meanType, copyMeaning, hr, meanTypes_kept args]
  | .tuple ts => congrArg Meaning.tuple (meanTypes_kept ts)
  | .union ts => congrArg Meaning.union (meanTypes_kept ts)
  | .function ps t =>
    congrArg₂ (Meaning.function · · false) (meanTypes_kept ps) (meanType_kept t)
  | .externFunction ps t =>
    congrArg₂ (Meaning.function · · true) (meanTypes_kept ps) (meanType_kept t)
  | .pointer t => congrArg Meaning.pointer (meanType_kept t)
  | .paren t => meanType_kept t
  | .array t len => congrArg (Meaning.array · (lenMeaning len)) (meanType_kept t)
  | .selfType => rfl

theorem meanTypes_kept : ∀ ts : List Ty,
    meanTypes (s.here.look generics) ts = copyMeanings s (fun _ => none) generics ts
  | [] => rfl
  | t :: ts => congrArg₂ List.cons (meanType_kept t) (meanTypes_kept ts)

end

end Substituted

/-- What the copy denotes at a use of the default. -/
def copyDenote (s : Setting E) (c : Copy) (u : Use) : Denotes E :=
  match u.atom with
  | .type t => .type (copyMeaning s (c.sub u.visited) u.ctx.generics t)
  | _ => s.here.denote u

theorem denote_copied (u : Use) :
    s.here.denote (Use.copied c.subst c.shadow u) = copyDenote s c u := by
  obtain ⟨visited, ctx, atom⟩ := u
  cases atom with
  | type t =>
    cases visited with
    | true => exact congrArg Denotes.type (meanType_substType s c.subst c.shadow ctx.generics t)
    | false => exact congrArg Denotes.type (meanType_kept s ctx.generics t)
  | path name => cases visited <;> rfl
  | name place name => cases visited <;> rfl

theorem denote_same (h : c.subst = []) (u : Use) : s.here.denote u = copyDenote s c u := by
  obtain ⟨visited, ctx, atom⟩ := u
  cases atom with
  | type t =>
    have hs : c.sub visited = fun _ => none := by
      funext name
      simp [Copy.sub, h]
    simp only [copyDenote, hs]
    exact congrArg Denotes.type (meanType_kept s ctx.generics t)
  | path name => rfl
  | name place name => rfl

/-- The copy, use by use. -/
theorem denote_synth :
    (methodUses c.synth).map s.here.denote = (methodUses c.member).map (copyDenote s c) := by
  obtain ⟨iface, args, ⟨attrs, isPublic, ⟨name, generics, ps, t, isAsync, body⟩⟩⟩ := c
  simp only [Copy.synth, synthMember, synthFunction, methodUses]
  split
  · rename_i h
    apply List.map_congr_left
    intro u _
    exact denote_same (c := ⟨iface, args, _⟩) (List.isEmpty_iff.mp h) u
  · rw [functionUses_subst, List.map_map]
    apply List.map_congr_left
    intro u _
    exact denote_copied (c :=
      ⟨iface, args, .mk attrs isPublic (.mk name generics ps t isAsync body)⟩)
      u

theorem useOk_iff (u : Use) : copyDenote s c u = (s.there c).denote u ↔ UseOk s c u := by
  obtain ⟨visited, ctx, atom⟩ := u
  cases atom with
  | type t =>
    simp only [copyDenote, Env.denote, UseOk, Denotes.type.injEq]
    apply copyMeaning_iff
    intro n t h
    simp only [Copy.sub] at h
    split at h
    · exact h
    · cases h
  | path name => simp [copyDenote, Env.denote, UseOk, Setting.here, Setting.there]
  | name place name =>
    simp only [copyDenote, Env.denote, UseOk]
    by_cases hl : name ∈ ctx.locals
    · simp [hl]
    · rw [if_neg (by simpa using hl), if_neg (by simpa using hl)]
      cases place with
      | object nested field =>
        simp only [hl, SameName, Env.global, Setting.here, Setting.there, Denotes.object.injEq]
        cases nested <;> cases numConstantOf name field <;> simp
      | _ => simp [hl, SameName, Env.global, Setting.here, Setting.there]

end Uses

/-! ## When a copy is faithful -/

/-- A copied default means what the default means, with the arguments of the block for the
parameters of the interface, if and only if every use in the default is of a good kind. -/
theorem faithful_iff (s : Setting E) (c : Copy) :
    Faithful s c ↔ ∀ u ∈ methodUses c.member, UseOk s c u := by
  unfold Faithful
  rw [denote_synth, List.map_inj_left]
  constructor
  · intro h u hu
    exact (useOk_iff u).mp (h u hu)
  · intro h u hu
    exact (useOk_iff u).mpr (h u hu)

/-- `interface Pairs<T> { function first<U>(self, x: T, y: U): T { x } }`, and a block
`extend<U> Cell<U>: Pairs<U> { }`. -/
def captureModule : List Item :=
  [.mk [] false (.interface "Pairs" [.mk "T" [] none] []
      [.mk [] false (.mk "first" [.mk "U" [] none]
        [.selfParam, .normal "x" (.named "T" []), .normal "y" (.named "U" [])]
        (some (.named "T" [])) false (some (.mk [] (some (.ident "x")))))]),
    .mk [] false (.extend [.mk "U" [] none] (.named "Cell" [.named "U" []])
      [.named "Pairs" [.named "U" []]] [])]

/-- The scope of that module: the two types of it. -/
def captureScope : Scope String where
  types name := if name = "Cell" ∨ name = "Pairs" then some name else none
  values _ := none
  spaces _ := none

/-- The copy is `first<U>(self, x: U, y: U): U`: the parameter of the method captures the argument
of the block. -/
theorem a_generic_captures_the_argument :
    ∃ c ∈ copiesOf (findInterface (fun _ => none) captureModule)
      [.named "Pairs" [.named "U" []]] [],
      ¬ Faithful ⟨captureScope, captureScope, ["U"]⟩ c := by
  refine ⟨_, .head _, ?_⟩
  intro h
  have h0 : Denotes.type (Meaning.generic (E := String) 0) = .type (.outer "U") :=
    (List.cons.inj h).1
  cases h0

end compiler.defaults
