-- What it takes for a type to satisfy an interface. Besides the built-in rules an `extend` block
-- must stand behind it; its target is matched parameter by parameter, and neither the arguments
-- of the interface nor the bounds of the block are looked at.
import OtterFusion.Compiler.MethodResolution

namespace compiler.sema

/-! ## What acceptance means -/

namespace Checker

variable (ck : Checker)

/-- An interface is another or inherits from it. -/
def Inherits (iface target : DefId) : Prop :=
  Relation.ReflTransGen (fun i sup => sup ∈ ck.ifaceSupers i) iface target

theorem inherits_of_reachesWithin {fuel : Nat} {iface target : DefId}
    (h : ck.ifaceReachesWithin fuel iface target = true) : ck.Inherits iface target := by
  induction fuel generalizing iface with
  | zero =>
    have heq : iface = target := by simpa [ifaceReachesWithin] using h
    rw [heq]
    exact .refl
  | succ fuel ih =>
    have hor : iface = target ∨
        ∃ sup ∈ ck.ifaceSupers iface, ck.ifaceReachesWithin fuel sup target = true := by
      simpa [ifaceReachesWithin] using h
    rcases hor with heq | ⟨sup, hsup, hreach⟩
    · rw [heq]
      exact .refl
    · exact .head hsup (ih hreach)

/-- The clause of an `extend` block names an interface that is this one or inherits from it. -/
def ClauseGives (ext : DefId) (interfaces : List TypeNode) (iface : DefId) : Prop :=
  ∃ data, ck.prog.defs[ext]? = some data ∧ ∃ name generics span,
    .named name generics span ∈ interfaces ∧
      ∃ impl, ck.prog.resolveTypeIn data.module name = some impl ∧ ck.Inherits impl iface

theorem clauseGives_of_reaches {ext iface : DefId} {interfaces : List TypeNode}
    (h : ck.clauseReaches ext interfaces iface = true) : ck.ClauseGives ext interfaces iface := by
  unfold clauseReaches at h
  split at h
  · rename_i data hdata
    obtain ⟨itf, hitf, h⟩ := List.any_eq_true.mp h
    split at h
    · rename_i name generics span
      split at h
      · rename_i impl himpl
        exact ⟨data, hdata, name, generics, span, hitf, impl, himpl,
          ck.inherits_of_reachesWithin h⟩
      · cases h
    · cases h
  · cases h

/-- A bound of a parameter names an interface that is this one or inherits from it. -/
def Bounded (param iface : DefId) : Prop :=
  ∃ b ∈ ck.boundIfaces param, ck.Inherits b.1 iface

/-- The test of a visible `extend` block for a type and an interface: the type is its target with
some type at each occurrence of a parameter, and its clause names the interface. -/
def ExtendGives (module : ModId) (ty : Ty) (iface : DefId) : Prop :=
  ∃ ext ∈ ck.prog.visibleExtends module, ∃ target interfaces,
    ck.extendBlock ext = some (target, interfaces) ∧ (∀ p ∈ wholes target ty, p.1 = p.2) ∧
      ck.ClauseGives ext interfaces iface

/-- What stands behind a type that `type_implements` accepts for an interface. -/
inductive Satisfies (ty : Ty) (iface : DefId) : Prop
  | object (args : List Ty) : ty = .named iface args → Satisfies ty iface
  | bound (param : DefId) : ty = .param param → ck.Bounded param iface → Satisfies ty iface
  | intrinsic : ck.intrinsic ty iface = some true → Satisfies ty iface
  | extended : ck.ExtendGives ck.curModule ty iface → Satisfies ty iface

theorem satisfies_of_typeImplements {ty : Ty} {iface : DefId}
    (h : ck.typeImplements ty iface = true) : ck.Satisfies ty iface := by
  have hrest : typeImplements.rest ck iface ty = true → ck.Satisfies ty iface := by
    intro h
    unfold typeImplements.rest at h
    split at h
    · rename_i hanswer
      exact .intrinsic (by rw [hanswer, h])
    · obtain ⟨ext, hvisible, h⟩ := List.any_eq_true.mp h
      unfold extendImplements at h
      split at h
      · rename_i target interfaces hblock
        rw [Bool.and_eq_true] at h
        exact .extended ⟨ext, hvisible, target, interfaces, hblock, (tyMatches_iff _ _).mp h.1,
          ck.clauseGives_of_reaches h.2⟩
      · cases h
  unfold typeImplements at h
  split at h
  · rename_i d args
    rw [Bool.or_eq_true, beq_iff_eq] at h
    rcases h with rfl | h
    · exact .object args rfl
    · exact hrest h
  · rename_i p
    rw [Bool.or_eq_true] at h
    rcases h with h | h
    · obtain ⟨b, hb, hreach⟩ := List.any_eq_true.mp h
      exact .bound p rfl ⟨b, hb, ck.inherits_of_reachesWithin hreach⟩
    · exact hrest h
  · exact hrest h

/-- Arguments of which `check_bounds` reports nothing satisfy the bounds of their parameters. -/
theorem satisfies_of_checkBounds {gens : List DefId} {args : List Ty}
    {span : compiler.lexer.Span} (h : ck.checkBounds gens args span = []) {g : DefId} {arg : Ty}
    (hmem : (g, arg) ∈ gens.zip args) (herror : arg ≠ .error) :
    ∀ b ∈ ck.boundIfaces g, ck.Satisfies arg b.1 := by
  intro b hb
  apply ck.satisfies_of_typeImplements
  by_contra hno
  have hnone := List.flatMap_eq_nil_iff.mp h (g, arg) hmem
  dsimp only at hnone
  rw [if_neg herror, List.filterMap_eq_nil_iff] at hnone
  have hb' := hnone b hb
  rw [if_neg hno] at hb'
  cases hb'

/-! ### Interface objects -/

/-- What the interfaces above keep holds of all that the loop collects. -/
theorem supersFrom_all {P : DefId → Prop} (hup : ∀ i, P i → ∀ s ∈ ck.ifaceSupers i, P s)
    {out stack : List DefId} (hout : ∀ s ∈ out, P s) (hstack : ∀ s ∈ stack, P s) :
    ∀ s ∈ ck.supersFrom out stack, P s := by
  fun_induction ck.supersFrom out stack with
  | case1 => exact hout
  | case2 out next stack hnext ih =>
    exact ih hout fun s hs => hstack s (List.mem_cons_of_mem _ hs)
  | case3 out next stack hnext hdata ih =>
    exact ih hout fun s hs => hstack s (List.mem_cons_of_mem _ hs)
  | case4 out next stack hnext data hdata ih =>
    have hhead := hstack next List.mem_cons_self
    refine ih (fun s hs => ?_) (fun s hs => ?_)
    · rcases List.mem_cons.mp hs with rfl | hs
      · exact hhead
      · exact hout s hs
    · rcases List.mem_append.mp hs with hs | hs
      · exact hup next hhead s (List.mem_reverse.mp hs)
      · exact hstack s (List.mem_cons_of_mem _ hs)

theorem inherits_of_supersFrom {iface : DefId} {out stack : List DefId}
    (hout : ∀ s ∈ out, ck.Inherits iface s) (hstack : ∀ s ∈ stack, ck.Inherits iface s) :
    ∀ s ∈ ck.supersFrom out stack, ck.Inherits iface s :=
  ck.supersFrom_all (fun _ hi _ hs => hi.tail hs) hout hstack

/-- What stands behind a row of the table of interface objects. -/
def RowGiven (module : ModId) (tdef idef : DefId) : Prop :=
  ∃ ext ∈ ck.prog.visibleExtends module, ∃ args interfaces,
    ck.extendBlock ext = some (.named tdef args, interfaces) ∧ ck.ClauseGives ext interfaces idef

theorem clauseGives_of_row {ext : DefId} {row : (DefId × DefId) × DefId}
    (h : row ∈ ck.implRows ext) : row.2 = ext ∧ ∃ args interfaces,
      ck.extendBlock ext = some (.named row.1.1 args, interfaces) ∧
        ck.ClauseGives ext interfaces row.1.2 := by
  unfold implRows at h
  split at h
  · rename_i tdef args interfaces data hblock hdata
    obtain ⟨idef, hidef, hrow⟩ := List.mem_flatMap.mp h
    obtain ⟨sup, hsup, rfl⟩ := List.mem_map.mp hrow
    obtain ⟨node, hnode, hnamed⟩ := List.mem_filterMap.mp hidef
    refine ⟨rfl, args, interfaces, hblock, data, hdata, ?_⟩
    have hinherits : ck.Inherits idef sup := by
      rcases List.mem_cons.mp hsup with rfl | hsup
      · exact .refl
      · refine ck.inherits_of_supersFrom (fun s hs => by cases hs) (fun s hs => ?_) sup hsup
        exact .single (List.mem_reverse.mp hs)
    unfold interfaceNamed at hnamed
    split at hnamed
    · rename_i name generics span
      split at hnamed
      · rename_i impl himpl
        split at hnamed
        · obtain rfl := Option.some.inj hnamed
          exact ⟨name, generics, span, hnode, impl, himpl, hinherits⟩
        · cases hnamed
      · cases hnamed
    · cases hnamed
  · cases h

/-- The checker while it checks a definition of some module: the table of interface objects was
made in the root module. -/
def during (prog : Program) (tcx : TyCtxt) (display : Ty → String) (module : ModId)
    (generics : Names Ty) (selfTy : Option Ty) : Checker :=
  let start : Checker :=
    { prog, tcx, curModule := 0, curGenerics := [], curSelfTy := none, ifaceImpls := [], display }
  { start.collectImpls with curModule := module, curGenerics := generics, curSelfTy := selfTy }

/-- What stands behind a type that `implements_dyn` accepts for an interface. -/
inductive SatisfiesDyn (found : Ty) (iface : DefId) : Prop
  | intrinsic : iface = ck.prog.debugDef → found.isHashable = true → SatisfiesDyn found iface
  | bound (param : DefId) : found = .param param → ck.Bounded param iface →
      SatisfiesDyn found iface
  | extended (d : DefId) (args : List Ty) : found = .named d args → ck.RowGiven 0 d iface →
      SatisfiesDyn found iface

theorem satisfies_of_implementsDyn {prog : Program} {tcx : TyCtxt} {display : Ty → String}
    {module : ModId} {generics : Names Ty} {selfTy : Option Ty} {found expected : Ty}
    (h : (during prog tcx display module generics selfTy).implementsDyn found expected = true) :
    ∃ iface args, expected = .named iface args ∧
      (prog.defs[iface]?).map Def.kind = some .interface ∧
        (during prog tcx display module generics selfTy).SatisfiesDyn found iface := by
  unfold implementsDyn at h
  split at h
  · rename_i iface args
    rw [Bool.and_eq_true, beq_iff_eq, Bool.or_eq_true, Bool.and_eq_true, beq_iff_eq] at h
    obtain ⟨hkind, hsome⟩ := h
    refine ⟨iface, args, rfl, hkind, ?_⟩
    clear hkind
    rcases hsome with ⟨hdebug, hhash⟩ | hfound
    · exact .intrinsic hdebug hhash
    · split at hfound
      · rename_i param
        obtain ⟨b, hb, hreach⟩ := List.any_eq_true.mp hfound
        exact .bound param rfl ⟨b, hb, inherits_of_reachesWithin _ hreach⟩
      · rename_i cdef cargs
        obtain ⟨ext, hext⟩ := Option.isSome_iff_exists.mp hfound
        obtain ⟨l, l', hl, _⟩ := List.lookup_eq_some_iff.mp hext
        have hrow : ((cdef, iface), ext) ∈
            (during prog tcx display module generics selfTy).ifaceImpls := by
          rw [hl]
          simp
        unfold during collectImpls at hrow
        dsimp only at hrow
        rw [List.append_nil, List.mem_reverse] at hrow
        obtain ⟨ext', hvisible, hrow⟩ := List.mem_flatMap.mp hrow
        obtain ⟨heq, args', interfaces, hblock, hclause⟩ := clauseGives_of_row _ hrow
        exact .extended cdef cargs rfl ⟨ext', hvisible, args', interfaces, hblock, hclause⟩
      · cases hfound
  · cases h

/-! ### What has to stand behind it -/

/-- An interface at some arguments inherits from another at others. -/
inductive InheritsWith : DefId → List Ty → DefId → List Ty → Prop
  | refl (iface : DefId) (args : List Ty) : InheritsWith iface args iface args
  | super {iface sup target : DefId} {args targetArgs : List Ty} {data : Def}
      {supers generics : List TypeNode} {name : String} {span : compiler.lexer.Span} :
      ck.prog.defs[iface]? = some data → data.item = some (.interface supers) →
      .named name generics span ∈ supers →
      ck.interfaceNamed data.module (.named name generics span) = some sup →
      InheritsWith sup (generics.map fun t =>
        substTy ck.tcx (data.generics.zip args) (ck.lowerTy t (ck.defEnv data none)))
        target targetArgs →
      InheritsWith iface args target targetArgs

/-- The clause of an `extend` block gives an interface at its arguments, where the parameters of the
block stand for the types of a map. -/
def ClauseGivesAt (data : Def) (interfaces : List TypeNode) (map : Subst) (iface : DefId)
    (args : List Ty) : Prop :=
  ∃ name generics span, .named name generics span ∈ interfaces ∧
    ∃ impl, ck.prog.resolveTypeIn data.module name = some impl ∧
      ck.InheritsWith impl (generics.map fun t =>
        substTy ck.tcx map (ck.lowerTy t (ck.defEnv data none))) iface args

mutual

/-- A type has an interface at its arguments: as an object of it, by a bound, by a built-in rule or
by an `extend` block. -/
inductive Has : Ty → DefId → List Ty → Prop
  | object (iface : DefId) (args : List Ty) : Has (.named iface args) iface args
  | bound {param iface : DefId} {args : List Ty} {b : DefId × List Ty} :
      b ∈ ck.boundIfaces param → ck.InheritsWith b.1 b.2 iface args → Has (.param param) iface args
  | intrinsic {ty : Ty} {iface : DefId} : ck.intrinsic ty iface = some true → Has ty iface []
  | extended {ty : Ty} {iface : DefId} {args : List Ty} :
      FullyImplements ty iface args → Has ty iface args

/-- A visible `extend` block gives a type an interface at its arguments: the type is an instance
of the target, by a map that satisfies the bounds of the block. -/
inductive FullyImplements : Ty → DefId → List Ty → Prop
  | extended {ty target : Ty} {iface ext : DefId} {args : List Ty} {data : Def}
      {interfaces : List TypeNode} (map : Subst) :
      ext ∈ ck.prog.visibleExtends ck.curModule → ck.prog.defs[ext]? = some data →
      ck.extendBlock ext = some (target, interfaces) → substTy ck.tcx map target = ty →
      (∀ g ∈ data.generics, ∀ b ∈ ck.boundIfaces g,
        Has (map.at g) b.1 (b.2.map (substTy ck.tcx map))) →
      ck.ClauseGivesAt data interfaces map iface args → FullyImplements ty iface args

end

/-- What the test of a block leaves out, for one of the visible blocks: each parameter of the
target stands for all that it stands against in the type, the unions, the function types and the
arrays of the target become what stands in their places, and at these types the bounds of the
parameters are met and the clause gives the interface at its arguments. -/
def Backed (ty : Ty) (iface : DefId) (args : List Ty) : Prop :=
  ∃ ext ∈ ck.prog.visibleExtends ck.curModule, ∃ data target interfaces,
    ck.prog.defs[ext]? = some data ∧ ck.extendBlock ext = some (target, interfaces) ∧
      ∃ map : Subst, (∀ b ∈ against target ty, map.at b.1 = b.2) ∧
        (∀ p ∈ wholes target ty, substWith ck.tcx map p.1 = p.2) ∧
        (∀ g ∈ data.generics, ∀ b ∈ ck.boundIfaces g,
          ck.Has (map.at g) b.1 (b.2.map (substTy ck.tcx map))) ∧
        ck.ClauseGivesAt data interfaces map iface args

theorem fullyImplements_iff {ty : Ty} {iface : DefId} {args : List Ty} :
    ck.FullyImplements ty iface args ↔ ck.Backed ty iface args := by
  constructor
  · intro h
    cases h with
    | extended map hvisible hdef hblock hty hbounds hclause =>
      rw [substTy_eq (ck.interned_target hblock)] at hty
      obtain ⟨hfaced, hwhole⟩ :=
        (substWith_eq_iff ck.tcx map _ ty (ck.interned_target hblock)).mp hty
      exact ⟨_, hvisible, _, _, _, hdef, hblock, map, hfaced, hwhole, hbounds, hclause⟩
  · rintro ⟨ext, hvisible, data, target, interfaces, hdef, hblock, map, hfaced, hwhole, hbounds,
      hclause⟩
    have hty := (substWith_eq_iff ck.tcx map target ty (ck.interned_target hblock)).mpr
      ⟨hfaced, hwhole⟩
    rw [← substTy_eq (ck.interned_target hblock)] at hty
    exact .extended map hvisible hdef hblock hty hbounds hclause

/-- `struct Pair<A, B>`, `interface Mirror` and `extend<T> Pair<T, T>: Mirror`, with
`struct Box<T>`, `interface Show` and `extend Box<i64>: Show`. -/
def mirrorProgram : Program where
  defs := [
    { kind := .struct, name := "Pair", module := 0, parent := none, item := some .other,
      generics := [1, 2], paramBounds := [] },
    { kind := .genericParam, name := "A", module := 0, parent := some 0, item := none,
      generics := [], paramBounds := [] },
    { kind := .genericParam, name := "B", module := 0, parent := some 0, item := none,
      generics := [], paramBounds := [] },
    { kind := .extend, name := "", module := 0, parent := none, generics := [4],
      item := some (.extend (.named "Pair" [.named "T" [] ⟨0, 0⟩, .named "T" [] ⟨0, 0⟩] ⟨0, 0⟩)
        [.named "Mirror" [] ⟨0, 0⟩]),
      paramBounds := [] },
    { kind := .genericParam, name := "T", module := 0, parent := some 3, item := none,
      generics := [], paramBounds := [] },
    { kind := .interface, name := "Mirror", module := 0, parent := none,
      item := some (.interface []), generics := [], paramBounds := [] },
    { kind := .struct, name := "Box", module := 0, parent := none, item := some .other,
      generics := [7], paramBounds := [] },
    { kind := .genericParam, name := "T", module := 0, parent := some 6, item := none,
      generics := [], paramBounds := [] },
    { kind := .extend, name := "", module := 0, parent := none, generics := [],
      item := some (.extend (.named "Box" [.named "i64" [] ⟨0, 0⟩] ⟨0, 0⟩)
        [.named "Show" [] ⟨0, 0⟩]),
      paramBounds := [] },
    { kind := .interface, name := "Show", module := 0, parent := none,
      item := some (.interface []), generics := [], paramBounds := [] }]
  modules := [
    { types := [("Pair", 0), ("Mirror", 5), ("Box", 6), ("Show", 9)], importedTypes := [],
      extends_ := [3, 8], extensionImports := [], publicExtensionImports := [] },
    { types := [], importedTypes := [], extends_ := [], extensionImports := [],
      publicExtensionImports := [] }]
  preludeTypes := []
  builtinModule := 1
  builtinSourceModules := []

/-- The checker in the root module. -/
def mirrorChecker : Checker := during mirrorProgram .standard (fun _ => "") 0 [] none

theorem mirrorProgram_visible : mirrorProgram.visibleExtends 0 = [3, 8] := by
  change mirrorProgram.pushExtensionModules [] [0, 1] = [3, 8]
  rw [Program.pushExtensionModules_new List.not_mem_nil rfl]
  change 3 :: 8 :: mirrorProgram.pushExtensionModules [0] [1] = [3, 8]
  rw [Program.pushExtensionModules_new (by decide) rfl]
  change 3 :: 8 :: mirrorProgram.pushExtensionModules [1, 0] [] = [3, 8]
  rw [Program.pushExtensionModules]

/-- The table has a row for each of the two blocks. -/
theorem mirrorChecker_ifaceImpls :
    mirrorChecker.ifaceImpls = [((6, 9), 8), ((0, 5), 3)] := by
  let start : Checker :=
    { prog := mirrorProgram, tcx := .standard, curModule := 0, curGenerics := [],
      curSelfTy := none, ifaceImpls := [], display := fun _ => "" }
  have hnone : ∀ iface, start.ifaceSupers iface = [] → start.ifaceSupersTransitive iface = [] := by
    intro iface h
    rw [ifaceSupersTransitive, h, List.reverse_nil, supersFrom]
  have hmirror : start.implRows 3 = [((0, 5), 3)] := by
    change ([5].flatMap fun idef =>
      (idef :: start.ifaceSupersTransitive idef).map fun sup => ((0, sup), 3)) = _
    simp only [List.flatMap_singleton, hnone 5 rfl, List.map_cons, List.map_nil]
  have hshow : start.implRows 8 = [((6, 9), 8)] := by
    change ([9].flatMap fun idef =>
      (idef :: start.ifaceSupersTransitive idef).map fun sup => ((6, sup), 8)) = _
    simp only [List.flatMap_singleton, hnone 9 rfl, List.map_cons, List.map_nil]
  change ((mirrorProgram.visibleExtends 0).flatMap start.implRows).reverse ++ [] = _
  rw [mirrorProgram_visible, List.flatMap_cons, List.flatMap_singleton, hmirror, hshow]
  rfl

theorem mirrorChecker_typeImplements {ty : Ty} {iface : DefId}
    (hrest : mirrorChecker.typeImplements ty iface = typeImplements.rest mirrorChecker iface ty)
    (h : mirrorChecker.intrinsic ty iface = none) :
    mirrorChecker.typeImplements ty iface =
      (mirrorChecker.extendImplements ty iface 3 || mirrorChecker.extendImplements ty iface 8) := by
  rw [hrest, typeImplements.rest, h,
    show mirrorChecker.prog.visibleExtends mirrorChecker.curModule = [3, 8] from
      mirrorProgram_visible]
  simp

end Checker

end compiler.sema
