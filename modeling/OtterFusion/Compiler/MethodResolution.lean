-- Which method a call resolves to. The scan takes the first `extend` block of the program whose
-- target matches, visible or not, and a target matches with each occurrence of a parameter on
-- its own.
import OtterFusion.Compiler.Methods

namespace compiler.sema

/-! ## Lowered types are interned -/

theorem interned_primitive {cx : TyCtxt} {name : String} {t : Ty} (h : primitive name = some t) :
    cx.Interned t := by
  unfold primitive at h
  simp only [Option.or_eq_some_iff, Option.map_eq_some_iff] at h
  rcases h with ⟨it, _, rfl⟩ | ⟨_, ⟨ft, _, rfl⟩ | ⟨_, h⟩⟩
  · trivial
  · trivial
  · split at h
    all_goals first | (obtain rfl := Option.some.inj h; trivial) | cases h

theorem formsKeep_interned (cx : TyCtxt) : FormsKeep cx cx.Interned where
  error := trivial
  never := trivial
  primitive _ _ h := interned_primitive h
  named _ _ h := cx.internedAll_iff.mpr h
  tuple _ h := cx.interned_mkTuple (cx.internedAll_iff.mpr h)
  func _ _ _ hparams hret := ⟨cx.internedAll_iff.mpr hparams, hret⟩
  union _ h := cx.interned_mkUnion (cx.internedAll_iff.mpr h)
  ptr _ h := h
  array _ _ h := h

/-! ## The law of method resolution -/

namespace Checker

variable (ck : Checker)

/-- Parameters that stand for themselves are interned. -/
theorem interned_params (gens : List DefId) {names : Names Ty}
    (h : ∀ p ∈ names, ck.tcx.Interned p.2) :
    ∀ p ∈ gens.foldl (fun names g =>
      match ck.prog.defs[g]? with
      | some p => names.insert p.name (.param g)
      | none => names) names, ck.tcx.Interned p.2 := by
  induction gens generalizing names with
  | nil => exact h
  | cons g gs ih =>
    refine ih fun p hp => ?_
    dsimp only at hp
    split at hp
    · rcases List.mem_cons.mp hp with rfl | hp
      · trivial
      · exact h p hp
    · exact h p hp

theorem interned_defEnv (data : Def) : (ck.defEnv data none).All ck.tcx.Interned :=
  ⟨ck.interned_params data.generics fun p hp => (by cases hp), fun t h => (by cases h)⟩

theorem interned_target {ext : DefId} {target : Ty} {interfaces : List TypeNode}
    (h : ck.extendBlock ext = some (target, interfaces)) : ck.tcx.Interned target := by
  unfold extendBlock at h
  split at h
  · split at h
    · obtain ⟨rfl, _⟩ := Prod.mk.inj (Option.some.inj h)
      exact lower_keeps (formsKeep_interned ck.tcx) (ck.interned_defEnv _) _
    · cases h
  · cases h

/-- A method of an `extend` block whose target matches a receiver. -/
structure Candidate (recv : Ty) (name : String) (d ext : DefId) (target : Ty) : Prop where
  method : ∃ data, ck.prog.defs[d]? = some data ∧ data.kind = .extendMethod ∧
    data.name = name ∧ data.parent = some ext
  block : ∃ interfaces, ck.extendBlock ext = some (target, interfaces)
  fits : tyMatches target recv = true

/-- The definition at an index is passed over by the scan for a method. -/
def PassedOver (recv : Ty) (name : String) (d : DefId) : Prop :=
  ∀ data, ck.prog.defs[d]? = some data → data.kind = .extendMethod → data.name = name →
    ∃ ext, data.parent = some ext ∧ ∀ target interfaces,
      ck.extendBlock ext = some (target, interfaces) → tyMatches target recv = false

theorem resolveMethodFrom_spec {recv : Ty} {name : String} {ds : List DefId} {m : DefId}
    {s : Subst} (h : ck.resolveMethodFrom recv name ds = some (m, s)) :
    ∃ ext target, ck.Candidate recv name m ext target ∧ s = unify ck.accepts target recv [] ∧
      ∃ before after, ds = before ++ m :: after ∧ ∀ d ∈ before, ck.PassedOver recv name d := by
  induction ds with
  | nil => cases h
  | cons d ds ih =>
    have hskip : ck.PassedOver recv name d → ck.resolveMethodFrom recv name ds = some (m, s) →
        ∃ ext target, ck.Candidate recv name m ext target ∧ s = unify ck.accepts target recv [] ∧
          ∃ before after, d :: ds = before ++ m :: after ∧
            ∀ d ∈ before, ck.PassedOver recv name d := by
      intro hpassed hrest
      obtain ⟨ext, target, hcand, hs, before, after, hds, hbefore⟩ := ih hrest
      refine ⟨ext, target, hcand, hs, d :: before, after, by rw [hds]; rfl, fun e he => ?_⟩
      rcases List.mem_cons.mp he with rfl | he
      · exact hpassed
      · exact hbefore e he
    unfold resolveMethodFrom at h
    split at h
    · cases h
    · rename_i data hdata
      have hsame : ∀ {data'}, ck.prog.defs[d]? = some data' → data' = data := fun h' =>
        Option.some.inj (h'.symm.trans hdata)
      split at h
      · rename_i hother
        refine hskip (fun data' hdata' hkind hname => ?_) h
        obtain rfl := hsame hdata'
        rcases hother with hother | hother
        · exact absurd hkind hother
        · exact absurd hname hother
      · rename_i hmethod
        have hkind : data.kind = .extendMethod ∧ data.name = name := by
          simpa [not_or] using hmethod
        split at h
        · cases h
        · rename_i ext hparent
          split at h
          · rename_i hnone
            refine hskip (fun data' hdata' _ _ => ?_) h
            obtain rfl := hsame hdata'
            exact ⟨ext, hparent,
              fun target interfaces hblock => by rw [hnone] at hblock; cases hblock⟩
          · rename_i target interfaces hblock
            split at h
            · rename_i hfits
              obtain ⟨rfl, rfl⟩ := Prod.mk.inj (Option.some.inj h)
              exact ⟨ext, target, ⟨⟨data, hdata, hkind.1, hkind.2, hparent⟩, ⟨interfaces, hblock⟩,
                hfits⟩, rfl, [], ds, rfl, fun e he => by cases he⟩
            · rename_i hfits
              refine hskip (fun data' hdata' _ _ => ?_) h
              obtain rfl := hsame hdata'
              refine ⟨ext, hparent, fun target' interfaces' hblock' => ?_⟩
              rw [hblock] at hblock'
              obtain ⟨rfl, _⟩ := Prod.mk.inj (Option.some.inj hblock')
              simpa using hfits

/-- What resolution promises of a method and a map: the map makes the target of the method's
`extend` block the receiver and binds its parameters, and the block is visible. -/
structure Sound (recv : Ty) (m : DefId) (s : Subst) : Prop where
  receiver : ∀ data ext target interfaces, ck.prog.defs[m]? = some data → data.parent = some ext →
    ck.extendBlock ext = some (target, interfaces) → substTy ck.tcx s target = recv
  bound : ∀ data ext block, ck.prog.defs[m]? = some data → data.parent = some ext →
    ck.prog.defs[ext]? = some block → ∀ g ∈ block.generics, (s.lookup g).isSome
  visible : ∀ data ext, ck.prog.defs[m]? = some data → data.parent = some ext →
    ext ∈ ck.prog.visibleExtends ck.curModule

/-- The bounds of a parameter accept the parameter itself. -/
theorem accepts_self (d : DefId) : ck.accepts d (.param d) = true := by
  have hreaches : ∀ i, ck.ifaceReaches i i = true := by
    intro i
    unfold ifaceReaches
    generalize ck.prog.defs.length = fuel
    cases fuel <;> simp [ifaceReachesWithin]
  unfold accepts
  rw [List.all_eq_true]
  intro b hb
  unfold typeImplements
  rw [Bool.or_eq_true]
  exact .inl (List.any_eq_true.mpr ⟨b, hb, hreaches b.1⟩)

/-- What a parameter of a target takes when the target is unified with itself: it takes itself,
save in a union where one that was met before stands in front of it and its bounds accept
that one. -/
def own (target : Ty) (d : DefId) : Ty := (unify ck.accepts target target []).at d

/-- The block of the first method that matches is visible, unification meets all its parameters,
and the receiver is an instance of its target, by a map that gives the parameters which are not
first met outside of unions and function types what they take in the target itself. -/
structure Applies (recv : Ty) (ext : DefId) (target : Ty) : Prop where
  visible : ext ∈ ck.prog.visibleExtends ck.curModule
  instance_ : ∃ map, substTy ck.tcx map target = recv ∧
    ∀ d, (target.meets false).lookup d ≠ some false → map.at d = ck.own target d
  mentions : ∀ block, ck.prog.defs[ext]? = some block →
    ∀ g ∈ block.generics, g ∈ (target.meets false).map Prod.fst

/-- What stands before an index in the list of all indices. -/
theorem mem_of_range {n m d : Nat} {before after : List Nat}
    (h : List.range n = before ++ m :: after) (hd : d < m) : d ∈ before := by
  have hlen : n = before.length + (after.length + 1) := by
    simpa using congrArg List.length h
  have hm : before.length = m := by
    have hat : (List.range n)[before.length]? = some m := by
      rw [h, List.getElem?_append_right (Nat.le_refl _), Nat.sub_self]
      rfl
    rw [List.getElem?_range (by omega)] at hat
    exact Option.some.inj hat
  have hat : (List.range n)[d]? = some d := List.getElem?_range (by omega)
  rw [h, List.getElem?_append_left (by omega)] at hat
  exact List.mem_of_getElem? hat

/-- A resolved method is the first that matches, and it is sound just when its block applies. -/
theorem resolve_method_sound_iff {recv : Ty} {name : String} {m : DefId} {s : Subst}
    (h : ck.resolveMethod recv name = some (m, s)) :
    ∃ ext target, ck.Candidate recv name m ext target ∧
      (∀ d < m, ck.PassedOver recv name d) ∧
      (ck.Sound recv m s ↔ ck.Applies recv ext target) := by
  obtain ⟨ext, target, hcand, hs, before, after, hds, hbefore⟩ := ck.resolveMethodFrom_spec h
  obtain ⟨data, hdata, hkind, hname, hparent⟩ := hcand.method
  obtain ⟨interfaces, hblock⟩ := hcand.block
  have hin := ck.interned_target hblock
  have hinstance := unify_instance ck.accepts_self hin hcand.fits
  have hbinds := unify_binds ck.accepts_self hcand.fits
  subst hs
  refine ⟨ext, target, hcand, fun d hd => hbefore d (mem_of_range hds hd), ?_, ?_⟩
  · intro hsound
    refine ⟨hsound.visible data ext hdata hparent, hinstance.mp ?_, fun block hdef g hg => ?_⟩
    · exact hsound.receiver data ext target interfaces hdata hparent hblock
    · exact (hbinds g).mp (hsound.bound data ext block hdata hparent hdef g hg)
  · intro happlies
    have hsame : ∀ {data' ext'}, ck.prog.defs[m]? = some data' → data'.parent = some ext' →
        ext' = ext := by
      intro data' ext' hdata' hparent'
      obtain rfl := Option.some.inj (hdata.symm.trans hdata')
      exact Option.some.inj (hparent'.symm.trans hparent)
    constructor
    · intro data' ext' target' interfaces' hdata' hparent' hblock'
      obtain rfl := hsame hdata' hparent'
      rw [hblock] at hblock'
      obtain ⟨rfl, _⟩ := Prod.mk.inj (Option.some.inj hblock')
      exact hinstance.mpr happlies.instance_
    · intro data' ext' block hdata' hparent' hdef g hg
      obtain rfl := hsame hdata' hparent'
      exact (hbinds g).mpr (happlies.mentions block hdef g hg)
    · intro data' ext' hdata' hparent'
      obtain rfl := hsame hdata' hparent'
      exact happlies.visible

/-! ### A program with a hidden block -/

/-- Two modules, neither of which imports the other. The first has `struct Pair<A, B>` and
`extend<T> Pair<T, T> { function same(self) }`, the second has
`extend i64 { function hidden(self) }`. -/
def pairProgram : Program where
  defs := [
    { kind := .struct, name := "Pair", module := 0, parent := none, item := some .other,
      generics := [1, 2], paramBounds := [] },
    { kind := .genericParam, name := "A", module := 0, parent := some 0, item := none,
      generics := [], paramBounds := [] },
    { kind := .genericParam, name := "B", module := 0, parent := some 0, item := none,
      generics := [], paramBounds := [] },
    { kind := .extend, name := "", module := 0, parent := none, generics := [4],
      item := some (.extend (.named "Pair" [.named "T" [] ⟨0, 0⟩, .named "T" [] ⟨0, 0⟩] ⟨0, 0⟩) []),
      paramBounds := [] },
    { kind := .genericParam, name := "T", module := 0, parent := some 3, item := none,
      generics := [], paramBounds := [] },
    { kind := .extendMethod, name := "same", module := 0, parent := some 3, item := some .other,
      generics := [], paramBounds := [] },
    { kind := .extend, name := "", module := 1, parent := none, generics := [],
      item := some (.extend (.named "i64" [] ⟨0, 0⟩) []), paramBounds := [] },
    { kind := .extendMethod, name := "hidden", module := 1, parent := some 6, item := some .other,
      generics := [], paramBounds := [] }]
  modules := [
    { types := [("Pair", 0)], importedTypes := [], extends_ := [3], extensionImports := [],
      publicExtensionImports := [] },
    { types := [], importedTypes := [], extends_ := [6], extensionImports := [],
      publicExtensionImports := [] },
    { types := [], importedTypes := [], extends_ := [], extensionImports := [],
      publicExtensionImports := [] }]
  preludeTypes := []
  builtinModule := 2
  builtinSourceModules := []

/-- The checker in the first module. -/
def pairChecker : Checker where
  prog := pairProgram
  tcx := .standard
  curModule := 0
  curGenerics := []
  curSelfTy := none
  ifaceImpls := []
  display _ := ""

/-- The first module sees its own block. -/
theorem pairChecker_visible : pairChecker.prog.visibleExtends pairChecker.curModule = [3] := by
  unfold Program.visibleExtends
  rw [show pairChecker.prog.modules[pairChecker.curModule]? = some
    { types := [("Pair", 0)], importedTypes := [], extends_ := [3], extensionImports := [],
      publicExtensionImports := [] } from rfl]
  change pairProgram.pushExtensionModules [] [0, 2] = [3]
  rw [Program.pushExtensionModules_new List.not_mem_nil rfl]
  change 3 :: pairProgram.pushExtensionModules [0] [2] = [3]
  rw [Program.pushExtensionModules_new (by decide) rfl]
  change 3 :: pairProgram.pushExtensionModules [2, 0] [] = [3]
  rw [Program.pushExtensionModules]

/-- `same` is sound for a pair of two integers. -/
theorem same_on_a_pair_of_integers :
    pairChecker.Sound (.named 0 [.int .i64, .int .i64]) 5 [(4, .int .i64)] := by
  obtain ⟨ext, target, hcand, _, hiff⟩ := pairChecker.resolve_method_sound_iff
    (show pairChecker.resolveMethod (.named 0 [.int .i64, .int .i64]) "same" =
      some (5, [(4, .int .i64)]) by decide)
  obtain ⟨data, hdata, _, _, hparent⟩ := hcand.method
  obtain rfl := Option.some.inj hdata
  obtain rfl : 3 = ext := Option.some.inj hparent
  obtain ⟨interfaces, hblock⟩ := hcand.block
  obtain ⟨rfl, _⟩ := Prod.mk.inj (Option.some.inj hblock)
  refine hiff.mpr ⟨?_, ?_, ?_⟩
  · rw [pairChecker_visible]
    exact List.mem_cons_self
  · refine ⟨[(4, .int .i64)], by decide, fun d hd => ?_⟩
    change List.lookup d [(4, false), (4, false)] ≠ some false at hd
    change _ = (unify pairChecker.accepts (.named 0 [.param 4, .param 4])
      (.named 0 [.param 4, .param 4]) []).at d
    have hown : unify pairChecker.accepts (.named 0 [.param 4, .param 4])
        (.named 0 [.param 4, .param 4]) [] = [(4, .param 4)] := by decide
    rw [hown]
    by_cases hd4 : d = 4
    · rw [hd4] at hd
      exact absurd rfl hd
    · have hbeq : (d == 4) = false := by simpa using hd4
      rw [Subst.at, Subst.at, List.lookup_cons, List.lookup_cons, hbeq]
  · intro block hdef g hg
    obtain rfl := Option.some.inj hdef
    obtain rfl := List.mem_singleton.mp hg
    exact List.mem_cons_self

/-- `same` is found for a pair of an integer and a string, with `T` the integer, and `hidden` is
found in the module that does not see it. -/
theorem unsound_methods_found :
    (pairChecker.resolveMethod (.named 0 [.int .i64, .str]) "same" = some (5, [(4, .int .i64)]) ∧
      ¬pairChecker.Sound (.named 0 [.int .i64, .str]) 5 [(4, .int .i64)]) ∧
    (pairChecker.resolveMethod (.int .i64) "hidden" = some (7, []) ∧
      ¬pairChecker.Sound (.int .i64) 7 []) := by
  refine ⟨⟨by decide, fun h => ?_⟩, by decide +kernel, fun h => ?_⟩
  · have hrecv := h.receiver _ 3 _ _ rfl rfl rfl
    exact absurd hrecv (by decide)
  · have hvisible := h.visible _ 6 rfl rfl
    rw [pairChecker_visible] at hvisible
    exact absurd hvisible (by decide)

end Checker

end compiler.sema
