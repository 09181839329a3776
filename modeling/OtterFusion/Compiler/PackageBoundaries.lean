-- Imports and the boundaries of packages: what each scheme of an import may reach, and that
-- `self:` in a dependency is walked from the root of the program.
import OtterFusion.Compiler.BoundNames

namespace compiler.sema

open compiler.imports (Scheme ImportPath Path classify)

/-! ## The collected table -/

/-- `collect_multi_ctx` before imports are resolved. -/
def collectTable (tool : Toolchain) (root : List ModuleItem) (externals : Externals)
    (ctx : ResolveContext) : ModuleTable :=
  let T := collect externals [] 0 root (.start tool)
  let T := ctx.packageKeys.foldl (ModuleTable.collectPackage externals) T
  (ctx.fileTargets.insertionSort fun f g => f.2 ≤ g.2).foldl
    (ModuleTable.collectFileTarget externals) T

theorem collectMultiCtx_eq (tool : Toolchain) (root : List ModuleItem) (externals : Externals)
    (ctx : ResolveContext) :
    collectMultiCtx tool root externals ctx =
      ((collectTable tool root externals ctx).resolveTargets ctx).bindNames := rfl

namespace ModuleTable

theorem tree_start (tool : Toolchain) : Tree (start tool) where
  root := ⟨_, rfl, rfl, rfl⟩
  child := by
    intro m e he p hp
    have hchildren : e.children = [] := by
      rcases List.mem_cons.mp (List.mem_of_getElem? he) with rfl | hmem
      · rfl
      · exact tool.noChildren e hmem
    rw [hchildren] at hp
    cases hp
  package := fun p hp => (by cases hp)

theorem fresh_start (tool : Toolchain) : Fresh tool (start tool) := by
  intro m e he
  have himports : e.imports = [] ∧ e.publicImportedTypes = [] ∧ e.publicImportedValues = [] := by
    rcases List.mem_cons.mp (List.mem_of_getElem? he) with rfl | hmem
    · exact ⟨rfl, rfl, rfl⟩
    · exact ⟨tool.noImports e hmem, tool.noReexports e hmem⟩
  refine ⟨fun i hi => ?_, himports.2.1, himports.2.2, fun typeNs p hp => ⟨e, he, hp⟩⟩
  rw [himports.1] at hi
  cases hi

/-- A table that is collected from some toolchain. -/
structure Collected (tool : Toolchain) (T : ModuleTable) : Prop where
  tree : Tree T
  fresh : Fresh tool T

theorem Collected.step {tool : Toolchain} {T T' : ModuleTable} (h : Collected tool T)
    (hstep : Step T T') : Collected tool T' := ⟨hstep.tree h.tree, hstep.fresh tool h.fresh⟩

/-- A file that is a module of its own is collected below the root module. -/
theorem step_collectRoot {externals : Externals} {T T' : ModuleTable} {key : List String}
    {m : ModId} (h : T.collectRoot externals key = some (m, T')) :
    Step T T' ∧ ∃ e, T'.modules[m]? = some e ∧ e.parent = some 0 ∧ e.path = key := by
  obtain ⟨items, _, heq⟩ := Option.map_eq_some_iff.mp h
  obtain ⟨rfl, rfl⟩ := Prod.mk.inj heq
  have hnew := T.newModule_get 0 true key
  have hcollect := step_collect externals items ⟨_, hnew, rfl⟩
  obtain ⟨e, he, hparent, hpath⟩ := hcollect.grows.kept _ _ hnew
  exact ⟨(Step.newModule T 0 true key).trans hcollect, e, he, hparent, hpath⟩

theorem Collected.package {tool : Toolchain} {externals : Externals} {T : ModuleTable}
    (h : Collected tool T) {p : String × List String} (hp : packageInstanceId p.2 = some p.1) :
    Collected tool (T.collectPackage externals p) := by
  unfold collectPackage
  cases hroot : T.collectRoot externals p.2 with
  | none => exact h
  | some r =>
    obtain ⟨m, T'⟩ := r
    obtain ⟨hstep, e, he, hparent, hpath⟩ := step_collectRoot hroot
    have h' := h.step hstep
    refine ⟨⟨h'.tree.root, h'.tree.child, fun q hq => ?_⟩, h'.fresh⟩
    rcases List.mem_cons.mp hq with rfl | hq
    · exact ⟨e, he, hparent, by rw [hpath, hp]⟩
    · exact h'.tree.package q hq

theorem Collected.fileTarget {tool : Toolchain} {externals : Externals} {T : ModuleTable}
    (h : Collected tool T) (f : Path × List String) :
    Collected tool (T.collectFileTarget externals f) := by
  unfold collectFileTarget
  cases hroot : T.collectRoot externals f.2 with
  | none => exact h
  | some r =>
    obtain ⟨m, T'⟩ := r
    have h' := h.step (step_collectRoot hroot).1
    exact ⟨⟨h'.tree.root, h'.tree.child, h'.tree.package⟩, h'.fresh⟩

end ModuleTable

/-- Each package instance is collected from a key of its own. -/
theorem packageInstanceId_of_mem_packageKeys {ctx : ResolveContext} {p : String × List String}
    (hp : p ∈ ctx.packageKeys) : packageInstanceId p.2 = some p.1 := by
  unfold ResolveContext.packageKeys at hp
  dsimp only at hp
  rw [List.mem_insertionSort] at hp
  refine List.foldlRecOn (motive := fun known => ∀ q : String × List String, q ∈ known →
    packageInstanceId q.2 = some q.1) _ _ (fun q hq => by cases hq) ?_ p hp
  intro known hknown key _ q hq
  split at hq
  · rename_i id hid
    rcases List.mem_cons.mp hq with rfl | hq
    · exact hid
    · exact hknown q (List.mem_filter.mp hq).1
  · exact hknown q hq

theorem collected_collectTable (tool : Toolchain) (root : List ModuleItem) (externals : Externals)
    (ctx : ResolveContext) : ModuleTable.Collected tool (collectTable tool root externals ctx) := by
  have hstart : ModuleTable.Collected tool (.start tool) :=
    ⟨ModuleTable.tree_start tool, ModuleTable.fresh_start tool⟩
  unfold collectTable
  dsimp only
  apply List.foldlRecOn
  · apply List.foldlRecOn
    · exact hstart.step (step_collect externals root ⟨_, rfl, rfl⟩)
    · intro T h p hp
      exact h.package (packageInstanceId_of_mem_packageKeys hp)
  · intro T h f _
    exact h.fileTarget f

/-! ## Boundaries -/

/-- The path that a `self:` import walks, which is one from the program's root module. -/
def selfPath (ctx : ResolveContext) (modPath : List String) (parsed : ImportPath) :
    Option (List String) :=
  match parsed.scheme with
  | .selfRoot => some parsed.segments
  | .selfRel =>
    (ModuleTable.selfRelFile modPath parsed ctx).toOption.bind fun file =>
      ctx.fileToModule.lookup file
  | _ => none

/-- The key that is recorded for a dependency of a package, or of the project itself. -/
def RecordedKey (ctx : ResolveContext) (name : String) (key : List String) : Option String → Prop
  | some owner => ∃ deps, ctx.packageDependencies.get owner = some deps ∧ deps.get name = some key
  | none => name ∈ ctx.dependencies ∧ ctx.packages.get name = some key

namespace ModuleTable

/-- The modules of a package, or of the program's own tree. -/
def OwnSubtree (T : ModuleTable) (owner : Option String) (t : ModId) : Prop :=
  match owner with
  | some id => ∃ root, T.packageRoots.get id = some root ∧ ∃ segs, T.walk root segs = some t
  | none => ∃ segs, T.walk 0 segs = some t

/-- A walk through modules that are each `pub mod`. -/
def PublicWalk (T : ModuleTable) : ModId → List String → ModId → Prop
  | m, [], t => m = t
  | m, seg :: segs, t =>
    ∃ c, T.child m seg = some c ∧ (T.modules[c]?).any ModuleEntry.isPublic = true ∧
      PublicWalk T c segs t

theorem SameReads.publicWalk {T T' : ModuleTable} (h : SameReads T T') (segs : List String) :
    ∀ {m t : ModId}, T.PublicWalk m segs t → T'.PublicWalk m segs t := by
  induction segs with
  | nil => exact fun ht => ht
  | cons seg segs ih =>
    rintro m t ⟨c, hchild, hpublic, hrest⟩
    refine ⟨c, by rwa [h.child_eq], ?_, ih hrest⟩
    rwa [h.any_eq ModuleEntry.isPublic fun _ => rfl]

/-- Imports stay within the boundaries of packages. -/
structure KeepsBoundaries (tool : Toolchain) (ctx : ResolveContext) (T : ModuleTable) : Prop where
  self : ∀ (m : ModId) (e : ModuleEntry), T.modules[m]? = some e → ∀ i ∈ e.imports, ∀ parsed,
    classify i.item.path = .ok parsed → (parsed.scheme = .selfRoot ∨ parsed.scheme = .selfRel) →
      ∀ t, i.target = some t → T.OwnSubtree (packageInstanceId e.path) t ∧
        ∀ id, packageInstanceId e.path ≠ some id → ¬ T.OwnSubtree (some id) t
  pkg : ∀ (m : ModId) (e : ModuleEntry), T.modules[m]? = some e → ∀ i ∈ e.imports, ∀ parsed,
    classify i.item.path = .ok parsed → parsed.scheme = .pkg → ∀ t, i.target = some t →
      ∃ key id root r, RecordedKey ctx (parsed.packageName.getD "") key (packageInstanceId e.path) ∧
        packageInstanceId key = some id ∧ T.packageRoots.get id = some root ∧
        T.modules[root]? = some r ∧ packageInstanceId r.path = some id ∧
        T.PublicWalk root parsed.packageSubpath t
  names : ∀ (m : ModId) (e : ModuleEntry), T.modules[m]? = some e →
    ∀ typeNs, ∀ p ∈ e.importedNames typeNs,
      (∃ e₀, (start tool).modules[m]? = some e₀ ∧ p ∈ e₀.importedNames typeNs) ∨
        T.Takes typeNs e p.1 p.2

/-- A `self:` import names a module of the program's own tree: its path walks there from the root
module, and the root form wants the module loaded. -/
def NamesProgramModule (T : ModuleTable) (ctx : ResolveContext) (modPath : List String)
    (parsed : ImportPath) (t : ModId) : Prop :=
  ctx.project = true ∧ ∃ segs, selfPath ctx modPath parsed = some segs ∧
    T.moduleByPath segs = some t ∧
      (parsed.scheme = .selfRoot → (T.modules[t]?).any ModuleEntry.externalUnloaded = false)

/-! ### What each scheme reaches -/

section targets

variable {T : ModuleTable} {ctx : ResolveContext} {modPath : List String}

theorem resolveSelfRoot_ok {segs : List String} {t : ModId} :
    T.resolveSelfRoot segs = .ok t ↔ T.moduleByPath segs = some t ∧
      (T.modules[t]?).any ModuleEntry.externalUnloaded = false := by
  unfold resolveSelfRoot
  cases T.moduleByPath segs with
  | none => simp
  | some target =>
    dsimp only
    split
    · rename_i hunloaded
      refine ⟨fun h => (by cases h), fun ⟨heq, hloaded⟩ => ?_⟩
      obtain rfl := Option.some.inj heq
      rw [hunloaded] at hloaded
      cases hloaded
    · rename_i hloaded
      rw [Except.ok.injEq, Option.some.injEq]
      exact ⟨fun h => ⟨h, h ▸ Bool.eq_false_iff.mpr hloaded⟩, fun h => h.1⟩

theorem resolveSelfRel_ok {parsed : ImportPath} (hscheme : parsed.scheme = .selfRel) {t : ModId} :
    T.resolveSelfRel modPath parsed ctx = .ok t ↔
      ∃ segs, selfPath ctx modPath parsed = some segs ∧ T.moduleByPath segs = some t := by
  unfold resolveSelfRel selfPath
  rw [hscheme]
  cases selfRelFile modPath parsed ctx with
  | error text => simp [Except.toOption]
  | ok file =>
    dsimp only [Except.toOption, Option.bind_some]
    cases ctx.fileToModule.lookup file with
    | none => simp
    | some segs =>
      have hroot : ∀ t', T.resolveSelfRoot segs = .ok t' → T.moduleByPath segs = some t' :=
        fun t' h => (resolveSelfRoot_ok.mp h).1
      dsimp only
      cases hself : T.resolveSelfRoot segs with
      | ok t' => simp [hroot t' hself]
      | error text => cases hpath : T.moduleByPath segs <;> simp [hpath]

theorem resolvePkgSubpath_ok (name : String) (subpath segs : List String) :
    ∀ {m t : ModId}, T.resolvePkgSubpath name subpath m segs = .ok t → T.PublicWalk m segs t := by
  induction segs with
  | nil => exact fun h => Except.ok.inj h
  | cons seg segs ih =>
    intro m t h
    unfold resolvePkgSubpath at h
    cases hchild : T.child m seg with
    | none => rw [hchild] at h; cases h
    | some c =>
      rw [hchild] at h
      dsimp only at h
      split at h
      · rename_i hpublic
        exact ⟨c, hchild, hpublic, ih h⟩
      · cases h

theorem packageKey_ok {name : String} {key : List String}
    (h : packageKey modPath name ctx = .ok key) :
    RecordedKey ctx name key (packageInstanceId modPath) := by
  unfold packageKey at h
  dsimp only at h
  cases howner : packageInstanceId modPath with
  | some owner =>
    rw [howner] at h
    dsimp only at h
    split at h
    · rename_i key' hkey
      obtain rfl := Except.ok.inj h
      obtain ⟨deps, hdeps, hkey⟩ := Option.bind_eq_some_iff.mp hkey
      exact ⟨deps, hdeps, hkey⟩
    · cases h
  | none =>
    rw [howner] at h
    dsimp only at h
    split at h
    · rename_i hdeclared
      split at h
      · rename_i key' hkey
        obtain rfl := Except.ok.inj h
        exact ⟨hdeclared, hkey⟩
      · cases h
    · cases h

theorem resolvePkg_ok {parsed : ImportPath} {t : ModId}
    (h : T.resolvePkg modPath parsed ctx = .ok t) :
    ∃ key id root, RecordedKey ctx (parsed.packageName.getD "") key (packageInstanceId modPath) ∧
      packageInstanceId key = some id ∧ T.packageRoots.get id = some root ∧
        T.PublicWalk root parsed.packageSubpath t := by
  unfold resolvePkg at h
  dsimp only at h
  cases hkey : packageKey modPath (parsed.packageName.getD "") ctx with
  | error text => rw [hkey] at h; cases h
  | ok key =>
    rw [hkey] at h
    dsimp only at h
    cases hid : packageInstanceId key with
    | none => rw [hid] at h; cases h
    | some id =>
      rw [hid] at h
      dsimp only at h
      cases hroot : T.packageRoots.get id with
      | none => rw [hroot] at h; cases h
      | some root =>
        rw [hroot] at h
        exact ⟨key, id, root, packageKey_ok hkey, hid, hroot, resolvePkgSubpath_ok _ _ _ h⟩

/-- The target of a `self:` import. -/
theorem importTarget_self {item : ImportItem} {parsed : ImportPath}
    (hparsed : classify item.path = .ok parsed)
    (hscheme : parsed.scheme = .selfRoot ∨ parsed.scheme = .selfRel) {r : ModId × Bool} :
    T.importTarget ctx modPath item = .ok r ↔
      T.NamesProgramModule ctx modPath parsed r.1 ∧ r.2 = false := by
  obtain ⟨t, toolchain⟩ := r
  have hproject : parsed.scheme.requiresProjectContext = true := by
    rcases hscheme with h | h <;> rw [h] <;> rfl
  have hstd : ¬ (parsed.scheme = .std ∧ ctx.noStd = true) := by
    rcases hscheme with h | h <;> simp [h]
  have hmap : ∀ x : Except String ModId,
      x.map (·, false) = .ok (t, toolchain) ↔ x = .ok t ∧ toolchain = false := by
    intro x
    cases x <;> simp [Except.map, eq_comm]
  unfold importTarget NamesProgramModule
  rw [hparsed]
  dsimp only
  rw [hproject, if_neg hstd]
  cases ctx.project with
  | false => simp
  | true =>
    simp only [Bool.not_true, Bool.and_false, Bool.false_eq_true, if_false, true_and]
    rcases hscheme with h | h
    · have hpath : selfPath ctx modPath parsed = some parsed.segments := by
        unfold selfPath
        rw [h]
      rw [h]
      dsimp only
      rw [hmap, resolveSelfRoot_ok, hpath]
      simp
    · rw [h]
      dsimp only
      rw [hmap, resolveSelfRel_ok h]
      simp

/-- The target of a `pkg:` import. -/
theorem importTarget_pkg {item : ImportItem} {parsed : ImportPath}
    (hparsed : classify item.path = .ok parsed) (hscheme : parsed.scheme = .pkg) {r : ModId × Bool}
    (h : T.importTarget ctx modPath item = .ok r) : T.resolvePkg modPath parsed ctx = .ok r.1 := by
  unfold importTarget at h
  rw [hparsed] at h
  dsimp only at h
  rw [hscheme] at h
  split at h
  · cases h
  · split at h
    · cases h
    · dsimp only at h
      cases hpkg : T.resolvePkg modPath parsed ctx with
      | error text => rw [hpkg] at h; cases h
      | ok t => rw [hpkg] at h; rw [← Except.ok.inj h]

/-- A target of the toolchain is one of its views. -/
theorem importTarget_toolchain {item : ImportItem} {t : ModId}
    (h : T.importTarget ctx modPath item = .ok (t, true)) : T.isBuiltinViewModule t = true := by
  have hmap : ∀ (x : Except String ModId) (b : Bool), x.map (·, b) = .ok (t, true) →
      x = .ok t ∧ b = true := by
    intro x b hx
    cases x with
    | error text => cases hx
    | ok t' =>
      obtain ⟨rfl, hb⟩ := Prod.mk.inj (Except.ok.inj hx)
      exact ⟨rfl, hb⟩
  have hview : ∀ parsed, T.resolveToolchain parsed = .ok t → T.isBuiltinViewModule t = true := by
    intro parsed hparsed
    unfold resolveToolchain at hparsed
    dsimp only at hparsed
    split at hparsed
    · rename_i target hlookup
      obtain rfl := Except.ok.inj hparsed
      obtain ⟨l, l', hviews, _⟩ := List.lookup_eq_some_iff.mp hlookup
      unfold isBuiltinViewModule
      rw [hviews]
      simp
    · split at hparsed <;> cases hparsed
  unfold importTarget at h
  split at h
  · cases h
  · split at h
    · cases h
    · split at h
      · cases h
      · split at h
        · exact hview _ (hmap _ _ h).1
        · exact hview _ (hmap _ _ h).1
        all_goals cases (hmap _ _ h).2

end targets

end ModuleTable

/-! ### Whole programs -/

namespace ModuleTable

section resolution

variable {tool : Toolchain} {T : ModuleTable} (h : Collected tool T) (ctx : ResolveContext)
include h

theorem Collected.binding :
    Binding (T.resolveTargets ctx) (T.resolveTargets ctx).bindNames := by
  apply binding_bindNames
  · intro m e he typeNs
    obtain ⟨e₀, he₀, hresolved⟩ := resolveTargets_resolved he
    rw [hresolved.publicImported]
    cases typeNs
    · exact (h.fresh m e₀ he₀).publicValues
    · exact (h.fresh m e₀ he₀).publicTypes
  · intro m e he i hi htoolchain t ht
    obtain ⟨e₀, he₀, hresolved⟩ := resolveTargets_resolved he
    rw [hresolved.imports] at hi
    obtain ⟨i₀, hi₀, rfl⟩ := List.mem_map.mp hi
    have htarget := (resolved_target ((h.fresh m e₀ he₀).unresolved i₀ hi₀) t).mp ht
    rw [htoolchain] at htarget
    unfold isBuiltinViewModule
    rw [(resolveTargets_reads T ctx).builtin]
    exact importTarget_toolchain htarget

theorem Collected.reads : SameReads T (T.resolveTargets ctx).bindNames :=
  (resolveTargets_reads T ctx).trans (h.binding ctx).reads

/-- A module at the end, with the module that it was before its imports were resolved. -/
theorem Collected.entry {m : ModId} {e : ModuleEntry}
    (he : (T.resolveTargets ctx).bindNames.modules[m]? = some e) :
    ∃ e₀, T.modules[m]? = some e₀ ∧ e.path = e₀.path ∧
      e.imports = e₀.imports.map (T.resolved ctx e₀.path) := by
  obtain ⟨e₁, he₁, hbound⟩ := (h.binding ctx).bound m e he
  obtain ⟨e₀, he₀, hresolved⟩ := resolveTargets_resolved he₁
  have hcollected : e.collected.path = e₀.collected.path := by
    rw [hbound.collected, hresolved.collected]
  exact ⟨e₀, he₀, hcollected, hbound.imports.trans hresolved.imports⟩

theorem Collected.entry_of {m : ModId} {e₀ : ModuleEntry} (he₀ : T.modules[m]? = some e₀) :
    ∃ e, (T.resolveTargets ctx).bindNames.modules[m]? = some e ∧ e.path = e₀.path ∧
      e.imports = e₀.imports.map (T.resolved ctx e₀.path) := by
  have hm := (h.reads ctx).entries m
  rw [he₀, Option.map_some] at hm
  obtain ⟨e, he, _⟩ := Option.map_eq_some_iff.mp hm
  obtain ⟨e₁, he₁, hplace⟩ := h.entry ctx he
  obtain rfl := Option.some.inj (he₀.symm.trans he₁)
  exact ⟨e, he, hplace⟩

/-- A target is the one that the path of the import has in the collected table. -/
theorem Collected.target {m : ModId} {e : ModuleEntry}
    (he : (T.resolveTargets ctx).bindNames.modules[m]? = some e) {i : ModuleImport}
    (hi : i ∈ e.imports) {t : ModId} (ht : i.target = some t) :
    T.importTarget ctx e.path i.item = .ok (t, i.toolchain) := by
  obtain ⟨e₀, he₀, hpath, himports⟩ := h.entry ctx he
  rw [himports] at hi
  obtain ⟨i₀, hi₀, rfl⟩ := List.mem_map.mp hi
  rw [hpath, resolved_item]
  exact (resolved_target ((h.fresh m e₀ he₀).unresolved i₀ hi₀) t).mp ht

/-- `self:` imports reach modules of the program's own tree alone. -/
theorem Collected.target_self {m : ModId} {e : ModuleEntry}
    (he : (T.resolveTargets ctx).bindNames.modules[m]? = some e) {i : ModuleImport}
    (hi : i ∈ e.imports) {parsed : ImportPath} (hparsed : classify i.item.path = .ok parsed)
    (hscheme : parsed.scheme = .selfRoot ∨ parsed.scheme = .selfRel) {t : ModId}
    (ht : i.target = some t) :
    T.NamesProgramModule ctx e.path parsed t ∧
      (T.resolveTargets ctx).bindNames.OwnSubtree none t := by
  have hnames := ((importTarget_self hparsed hscheme).mp (h.target ctx he hi ht)).1
  obtain ⟨hproject, segs, hpath, hwalk, hloaded⟩ := hnames
  refine ⟨⟨hproject, segs, hpath, hwalk, hloaded⟩, segs, ?_⟩
  rw [(h.reads ctx).walk_eq]
  exact hwalk

/-- `pkg:` imports reach the instance that is recorded for the dependency, through public
modules. -/
theorem Collected.target_pkg {m : ModId} {e : ModuleEntry}
    (he : (T.resolveTargets ctx).bindNames.modules[m]? = some e) {i : ModuleImport}
    (hi : i ∈ e.imports) {parsed : ImportPath} (hparsed : classify i.item.path = .ok parsed)
    (hscheme : parsed.scheme = .pkg) {t : ModId} (ht : i.target = some t) :
    ∃ key id root r, RecordedKey ctx (parsed.packageName.getD "") key (packageInstanceId e.path) ∧
      packageInstanceId key = some id ∧
        (T.resolveTargets ctx).bindNames.packageRoots.get id = some root ∧
          (T.resolveTargets ctx).bindNames.modules[root]? = some r ∧
            packageInstanceId r.path = some id ∧
              (T.resolveTargets ctx).bindNames.PublicWalk root parsed.packageSubpath t := by
  have htarget := importTarget_pkg hparsed hscheme (h.target ctx he hi ht)
  obtain ⟨key, id, root, hkey, hid, hroot, hwalk⟩ := resolvePkg_ok htarget
  have hroot' : (T.resolveTargets ctx).bindNames.packageRoots.get id = some root := by
    rw [(h.reads ctx).packages]
    exact hroot
  obtain ⟨r, hr, _, hrid⟩ := ((h.reads ctx).tree h.tree).packageRoot hroot'
  exact ⟨key, id, root, r, hkey, hid, hroot', hr, hrid, (h.reads ctx).publicWalk _ hwalk⟩

/-- A name that is bound is the toolchain's own, or is taken from what the target exports. -/
theorem Collected.importedNames {m : ModId} {e : ModuleEntry}
    (he : (T.resolveTargets ctx).bindNames.modules[m]? = some e) {typeNs : Bool}
    {p : String × DefId} (hp : p ∈ e.importedNames typeNs) :
    (∃ e₀, (start tool).modules[m]? = some e₀ ∧ p ∈ e₀.importedNames typeNs) ∨
      (T.resolveTargets ctx).bindNames.Takes typeNs e p.1 p.2 := by
  have hbinding := h.binding ctx
  obtain ⟨e₁, he₁, hbound⟩ := hbinding.bound m e he
  obtain ⟨e₀, he₀, hresolved⟩ := resolveTargets_resolved he₁
  rcases hbound.imported typeNs p hp with hp | htakes
  · rw [hresolved.imported] at hp
    exact .inl ((h.fresh m e₀ he₀).imported typeNs p hp)
  · exact .inr (hbinding.takes hbound htakes)

/-- No package has a module of the program's own tree. -/
theorem Collected.not_ownSubtree {t : ModId}
    (ht : (T.resolveTargets ctx).bindNames.OwnSubtree none t) (id : String) :
    ¬ (T.resolveTargets ctx).bindNames.OwnSubtree (some id) t := by
  rintro ⟨r, hr, segs', hwalk'⟩
  obtain ⟨segs, hwalk⟩ := ht
  have htree := (h.reads ctx).tree h.tree
  obtain rfl := htree.disjoint htree.top_root (htree.top_package hr) segs segs' t hwalk hwalk'
  obtain ⟨e, he, hparent, _⟩ := htree.packageRoot hr
  obtain ⟨e', he', hnone, _⟩ := htree.root
  obtain rfl := Option.some.inj (he.symm.trans he')
  rw [hnone] at hparent
  cases hparent

end resolution

end ModuleTable

/-- Imports keep to the boundaries of packages exactly when no `self:` import of a dependency's
module names a module of the program's own tree, which is where `self:` is walked from. -/
theorem imports_keep_boundaries_iff (tool : Toolchain) (root : List ModuleItem)
    (externals : Externals) (ctx : ResolveContext) :
    (collectMultiCtx tool root externals ctx).KeepsBoundaries tool ctx ↔
      ∀ (m : ModId) (e : ModuleEntry),
        (collectTable tool root externals ctx).modules[m]? = some e →
          packageInstanceId e.path ≠ none → ∀ i ∈ e.imports, ∀ parsed,
            classify i.item.path = .ok parsed →
              (parsed.scheme = .selfRoot ∨ parsed.scheme = .selfRel) →
                ∀ t, ¬ (collectTable tool root externals ctx).NamesProgramModule ctx e.path
                  parsed t := by
  have hcollected := collected_collectTable tool root externals ctx
  rw [collectMultiCtx_eq]
  generalize collectTable tool root externals ctx = T at hcollected
  constructor
  · intro hkeeps m e₀ he₀ howner i₀ hi₀ parsed hparsed hscheme t hnames
    obtain ⟨e, he, hpath, himports⟩ := hcollected.entry_of ctx he₀
    have hi : T.resolved ctx e₀.path i₀ ∈ e.imports := by
      rw [himports]
      exact List.mem_map_of_mem hi₀
    have htarget : (T.resolved ctx e₀.path i₀).target = some t := by
      unfold ModuleTable.resolved
      rw [(ModuleTable.importTarget_self hparsed hscheme (r := (t, false))).mpr ⟨hnames, rfl⟩]
    have hparsed' : classify (T.resolved ctx e₀.path i₀).item.path = .ok parsed := by
      rwa [ModuleTable.resolved_item]
    have hprogram := (hcollected.target_self ctx he hi hparsed' hscheme htarget).2
    obtain ⟨id, hid⟩ := Option.ne_none_iff_exists'.mp howner
    have hown := (hkeeps.self m e he _ hi parsed hparsed' hscheme t htarget).1
    rw [hpath, hid] at hown
    exact hcollected.not_ownSubtree ctx hprogram id hown
  · intro hinner
    refine ⟨?_, ?_, ?_⟩
    · intro m e he i hi parsed hparsed hscheme t ht
      obtain ⟨hnames, hprogram⟩ := hcollected.target_self ctx he hi hparsed hscheme ht
      obtain ⟨e₀, he₀, hpath, himports⟩ := hcollected.entry ctx he
      rw [himports] at hi
      obtain ⟨i₀, hi₀, rfl⟩ := List.mem_map.mp hi
      rw [ModuleTable.resolved_item] at hparsed
      have howner : packageInstanceId e.path = none := by
        by_contra howner
        rw [hpath] at hnames howner
        exact hinner m e₀ he₀ howner i₀ hi₀ parsed hparsed hscheme t hnames
      rw [howner]
      exact ⟨hprogram, fun id _ => hcollected.not_ownSubtree ctx hprogram id⟩
    · intro m e he i hi parsed hparsed hscheme t ht
      exact hcollected.target_pkg ctx he hi hparsed hscheme ht
    · intro m e he typeNs p hp
      exact hcollected.importedNames ctx he hp

/-! ### A dependency that reads the program -/

/-- A toolchain without modules. -/
def bareToolchain : Toolchain where
  modules := []
  isPublic := []
  views := []
  providerName := "default"
  paths := []
  noChildren := fun _ h => (by cases h)
  noImports := fun _ h => (by cases h)
  noReexports := fun _ h => (by cases h)

/-- The key of the package `greeter`. -/
def greeterKey : List String := ["__pkg__", "registry:public:greeter:1.0.0"]

/-- The files of a program with a module `util`, and of `greeter`, which imports `self:util`. -/
def greeterExternals : Externals :=
  [(["util"], [.definition true "secret" .function]),
    (greeterKey, [.importItem false
      { path := "self:util", kind := .named [{ name := "secret", bind := "secret" }] }])]

/-- A project that depends on `greeter`. -/
def greeterContext : ResolveContext where
  project := true
  packageName := some "app"
  noStd := false
  sourceRoot := some ["/", "app", "src"]
  packageRoot := some ["/", "app"]
  fileOf := [([], ["/", "app", "src", "main.otter"]), (["util"], ["/", "app", "src", "util.otter"]),
    (greeterKey, ["/", "cache", "greeter", "src", "lib.otter"])]
  fileImportAllow := []
  dependencies := ["greeter"]
  packages := [("greeter", greeterKey)]
  packageDependencies := []
  fileTargets := []

/-- The module `util` of the program is bound in the package, which has none. -/
theorem a_dependency_reads_the_program :
    ¬ ∀ (tool : Toolchain) (root : List ModuleItem) (externals : Externals) (ctx : ResolveContext),
      (collectMultiCtx tool root externals ctx).KeepsBoundaries tool ctx := by
  intro h
  have hkeeps := h bareToolchain [.external false "util"] greeterExternals greeterContext
  have hcollected := collected_collectTable bareToolchain [.external false "util"]
    greeterExternals greeterContext
  have hmodule : ((collectMultiCtx bareToolchain [.external false "util"] greeterExternals
      greeterContext).modules[2]?).any (fun e =>
        decide (packageInstanceId e.path = some "registry:public:greeter:1.0.0") &&
          e.imports.any fun i => decide (i.item.path = "self:util" ∧ i.target = some 1)) =
            true := by
    decide +kernel
  have hparsed : (classify "self:util").toOption =
      some { scheme := .selfRoot, segments := ["util"], up := 0, body := "util" } := by
    decide +kernel
  obtain ⟨e, he, hmodule⟩ := (Option.any_eq_true _ _).mp hmodule
  rw [Bool.and_eq_true, decide_eq_true_eq] at hmodule
  obtain ⟨howner, himport⟩ := hmodule
  obtain ⟨i, hi, himport⟩ := List.any_eq_true.mp himport
  obtain ⟨hpath, htarget⟩ := of_decide_eq_true himport
  obtain ⟨parsed, hclassify⟩ : ∃ parsed, classify "self:util" = .ok parsed := by
    cases hclassify : classify "self:util" with
    | error e => rw [hclassify] at hparsed; cases hparsed
    | ok parsed => exact ⟨parsed, rfl⟩
  have hscheme : parsed.scheme = .selfRoot := by
    rw [hclassify] at hparsed
    rw [Option.some.inj hparsed]
  rw [← hpath] at hclassify
  have hprogram := (hcollected.target_self greeterContext he hi hclassify (.inl hscheme) htarget).2
  have hown := (hkeeps.self 2 e he i hi parsed hclassify (.inl hscheme) 1 htarget).1
  rw [howner] at hown
  exact hcollected.not_ownSubtree greeterContext hprogram _ hown

end compiler.sema
