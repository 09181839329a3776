-- Resolving imports (`symbols.rs`): the target of each import by its scheme, then the names that
-- each import binds.
import Mathlib.Data.String.Basic
import OtterFusion.Compiler.Modules

namespace compiler.sema

open compiler.imports (Scheme ImportPath Path classify)

/-! ## The context -/

/-- `ResolveContext`, as far as imports are concerned. -/
structure ResolveContext where
  project : Bool
  packageName : Option String
  noStd : Bool
  sourceRoot : Option Path
  packageRoot : Option Path
  fileOf : List (List String × Path)
  fileImportAllow : List String
  dependencies : List String
  packages : Names (List String)
  packageDependencies : Names (Names (List String))
  fileTargets : List (Path × List String)

/-- `file_to_module`. -/
def ResolveContext.fileToModule (ctx : ResolveContext) : List (Path × List String) :=
  ctx.fileOf.map fun f => (f.2.normalize, f.1)

/-- `package_instance_id`: the package instance that a module path belongs to. -/
def packageInstanceId : List String → Option String
  | "__pkg__" :: id :: _ => some id
  | _ => none

/-- `no_project_message`. -/
def noProjectMessage : Scheme → String
  | .pkg => "`pkg:` import requires a project manifest (global package resolution " ++
      "is not yet available)"
  | _ => "`self:` import requires a project: run inside a package, or add a project.toml"

/-- `escape_message`. -/
def escapeMessage (parsed : ImportPath) (ctx : ResolveContext) : String :=
  "`" ++ parsed.displaySource ++ "` escapes package `" ++
    ctx.packageName.getD "this package" ++ "`"

/-- `path_matches_allow`. -/
def pathMatchesAllow (root : Path) (entry : String) (target : Path) : Bool :=
  let literal := (compiler.imports.parts entry.toList).takeWhile fun seg => '*' ∉ seg.toList
  Path.startsWith target (Path.normalize (root ++ literal.filter (· ≠ "")))

/-! ## Targets -/

namespace ModuleTable

variable (T : ModuleTable)

/-- The child of a module. -/
def child (m : ModId) (seg : String) : Option ModId :=
  (T.modules[m]?).bind fun e => e.children.get seg

/-- The loop of `module_by_path`. -/
def walk (m : ModId) : List String → Option ModId
  | [] => some m
  | seg :: segs => (T.child m seg).bind fun c => walk c segs

/-- `module_by_path`: the walk starts at the root module. -/
def moduleByPath (segments : List String) : Option ModId := T.walk 0 segments

/-- `resolve_self_root`. -/
def resolveSelfRoot (segments : List String) : Except String ModId :=
  match T.moduleByPath segments with
  | none => .error ("cannot find module `self:" ++ "/".intercalate segments ++ "`")
  | some target =>
    if (T.modules[target]?).any ModuleEntry.externalUnloaded then
      .error ("module `self:" ++ "/".intercalate segments ++ "` was not loaded")
    else .ok target

/-- `resolve_pkg_subpath`. -/
def resolvePkgSubpath (name : String) (subpath : List String) :
    ModId → List String → Except String ModId
  | cur, [] => .ok cur
  | cur, seg :: segs =>
    match T.child cur seg with
    | none => .error ("`pkg:" ++ name ++ "/" ++ "/".intercalate subpath ++
        "` is not a module in `" ++ name ++ "`")
    | some child =>
      if (T.modules[child]?).any ModuleEntry.isPublic then
        resolvePkgSubpath name subpath child segs
      else .error ("`pkg:" ++ name ++ "/" ++ "/".intercalate subpath ++
        "` is not publicly exported (its module is not `pub mod`)")

/-- The directory some hops above another. -/
def hopUp : Nat → Path → Option Path
  | 0, dir => some dir
  | n + 1, dir => (Path.parent dir).bind (hopUp n)

/-- The file that a relative `self:` path names, within the source root. -/
def selfRelFile (modPath : List String) (parsed : ImportPath) (ctx : ResolveContext) :
    Except String Path :=
  match ctx.fileOf.lookup modPath with
  | none => .error "relative `self:` import has no source location"
  | some importing =>
    match hopUp parsed.up (Path.directory importing) with
    | none => .error (escapeMessage parsed ctx)
    | some dir =>
      let file : Path := match parsed.segments.getLast? with
        | none => dir
        | some last => dir ++ parsed.segments.dropLast ++ [last ++ ".otter"]
      let target := file.normalize
      match ctx.sourceRoot with
      | some root => if target.startsWith root.normalize then .ok target
        else .error (escapeMessage parsed ctx)
      | none => .ok target

/-- `resolve_self_rel`. -/
def resolveSelfRel (modPath : List String) (parsed : ImportPath) (ctx : ResolveContext) :
    Except String ModId :=
  match selfRelFile modPath parsed ctx with
  | .error e => .error e
  | .ok target =>
    match ctx.fileToModule.lookup target with
    | none => .error ("`" ++ parsed.displaySource ++
        "` does not resolve to a declared module (it is not in the `mod` tree)")
    | some path =>
      match T.resolveSelfRoot path with
      | .ok t => .ok t
      | .error _ =>
        match T.moduleByPath path with
        | some t => .ok t
        | none => .error ("`" ++ parsed.displaySource ++ "` does not resolve to a declared module")

/-- The target of a `file:` import: hops that leave the file system stay where they are. -/
def fileImportTarget (importing : Path) (parsed : ImportPath) : Path :=
  let dir := parsed.up.repeat (fun dir => (Path.parent dir).getD dir) (Path.directory importing)
  (Path.withOtter (dir ++ parsed.segments)).normalize

/-- `check_file_import`. -/
def checkFileImport (modPath : List String) (parsed : ImportPath) (ctx : ResolveContext) :
    Except String Path :=
  match ctx.fileOf.lookup modPath with
  | none => .error "`file:` import has no source location"
  | some importing =>
    let target := fileImportTarget importing parsed
    match ctx.sourceRoot with
    | none => .ok target
    | some root =>
      let root := root.normalize
      if target.startsWith root then .ok target
      else if ctx.fileImportAllow.any fun entry =>
          pathMatchesAllow (ctx.packageRoot.getD root) entry target then .ok target
      else .error ("`" ++ parsed.displaySource ++
        "` resolves outside the package and is not authorized by `[file-imports] allow`")

/-- The key of the package that a `pkg:` import names, by the dependencies of the package that
imports. -/
def packageKey (modPath : List String) (name : String) (ctx : ResolveContext) :
    Except String (List String) :=
  let undeclared := "no dependency named `" ++ name ++ "` in the manifest " ++
    "(add it under `[dependencies]`)"
  match packageInstanceId modPath with
  | some owner =>
    match (ctx.packageDependencies.get owner).bind fun deps => deps.get name with
    | some key => .ok key
    | none => .error undeclared
  | none =>
    if name ∈ ctx.dependencies then
      match ctx.packages.get name with
      | some key => .ok key
      | none => .error ("dependency `" ++ name ++ "` is declared but could not be loaded " ++
          "(run `otter_fusion lock` to resolve it)")
    else .error undeclared

/-- A `pkg:` import. -/
def resolvePkg (modPath : List String) (parsed : ImportPath) (ctx : ResolveContext) :
    Except String ModId :=
  let name := parsed.packageName.getD ""
  match packageKey modPath name ctx with
  | .error e => .error e
  | .ok key =>
    match packageInstanceId key with
    | none => .error ("dependency `" ++ name ++ "` has an invalid package instance key")
    | some id =>
      match T.packageRoots.get id with
      | none => .error ("dependency `" ++ name ++ "` is declared but could not be loaded " ++
          "(run `otter_fusion lock` to resolve it)")
      | some root => T.resolvePkgSubpath name parsed.packageSubpath root parsed.packageSubpath

/-- A `core:` or `std:` import. -/
def resolveToolchain (parsed : ImportPath) : Except String ModId :=
  let key := parsed.scheme.keyword :: parsed.segments
  match T.builtinModules.lookup key with
  | some target => .ok target
  | none =>
    if key ∈ T.toolchainPaths then
      .error ("stdlib provider `" ++ T.stdProviderName ++ "` does not provide module `" ++
        parsed.displaySource ++ "`")
    else .error ("no built-in module `" ++ parsed.displaySource ++ "`")

/-- A `file:` import. -/
def resolveFile (modPath : List String) (parsed : ImportPath) (ctx : ResolveContext) :
    Except String ModId :=
  match checkFileImport modPath parsed ctx with
  | .error e => .error e
  | .ok target =>
    match T.fileModules.lookup target with
    | some m => .ok m
    | none => .error ("`" ++ parsed.displaySource ++ "` could not be loaded (expected file `" ++
        target.display ++ "`)")

/-- The target of an import in a module at some path, with whether it is of the toolchain. -/
def importTarget (ctx : ResolveContext) (modPath : List String) (item : ImportItem) :
    Except String (ModId × Bool) :=
  match classify item.path with
  | .error e => .error e.text
  | .ok parsed =>
    if parsed.scheme.requiresProjectContext && !ctx.project then
      .error (noProjectMessage parsed.scheme)
    else if parsed.scheme = .std ∧ ctx.noStd = true then
      .error ("`" ++ parsed.displaySource ++
        "` import: this package is `no-std`, so `std:` is unavailable")
    else match parsed.scheme with
      | .core | .std => (T.resolveToolchain parsed).map (·, true)
      | .selfRoot => (T.resolveSelfRoot parsed.segments).map (·, false)
      | .selfRel => (T.resolveSelfRel modPath parsed ctx).map (·, false)
      | .pkg => (T.resolvePkg modPath parsed ctx).map (·, false)
      | .file => (T.resolveFile modPath parsed ctx).map (·, false)

/-! ## Recording -/

/-- `record_resolved_import`. -/
def recordResolvedImport (m index : Nat) (target : ModId) (toolchain isPublic : Bool) :
    ModuleTable :=
  T.modify m fun e =>
    { e with
      imports := e.imports.modify index fun i => { i with target := some target, toolchain }
      extensionImports :=
        if target ∈ e.extensionImports then e.extensionImports else e.extensionImports ++ [target]
      publicExtensionImports :=
        if isPublic && target ∉ e.publicExtensionImports then e.publicExtensionImports ++ [target]
        else e.publicExtensionImports }

/-- The first loop of `resolve_imports`, for one import. -/
def resolveImport (ctx : ResolveContext) (m : ModId) (modPath : List String)
    (T : ModuleTable) (i : ModuleImport × Nat) : ModuleTable :=
  match T.importTarget ctx modPath i.1.item with
  | .ok (target, toolchain) => T.recordResolvedImport m i.2 target toolchain i.1.isPublic
  | .error text => T.emit (.message text)

/-- The imports of one module. -/
def resolveModule (ctx : ResolveContext) (T : ModuleTable) (m : ModId) : ModuleTable :=
  match T.modules[m]? with
  | some e => e.imports.zipIdx.foldl (resolveImport ctx m e.path) T
  | none => T

/-! ## Names -/

/-- `is_builtin_view_module`. -/
def isBuiltinViewModule (m : ModId) : Bool := T.builtinModules.any fun v => v.2 = m

end ModuleTable

namespace ModuleEntry

/-- The names of types, or of values. -/
def names (e : ModuleEntry) (typeNs : Bool) : Names DefId := if typeNs then e.types else e.values

def importedNames (e : ModuleEntry) (typeNs : Bool) : Names DefId :=
  if typeNs then e.importedTypes else e.importedValues

def publicImportedNames (e : ModuleEntry) (typeNs : Bool) : Names DefId :=
  if typeNs then e.publicImportedTypes else e.publicImportedValues

/-- What a public named import gives a name from: the first that binds the name. -/
def reexport (e : ModuleEntry) (name : String) : Option (ModId × String) :=
  e.imports.findSome? fun i =>
    if i.isPublic then
      match i.target, i.item.kind with
      | some t, .named names => (names.find? fun n => n.bind = name).map fun n => (t, n.name)
      | _, _ => none
    else none

/-- `named_import_collides`. -/
def namedImportCollides (e : ModuleEntry) (bind : String) : Bool :=
  (e.types.get bind).isSome || (e.values.get bind).isSome || (e.importedTypes.get bind).isSome ||
    (e.importedValues.get bind).isSome || (e.namespaceImports.get bind).isSome

/-- `namespace_import_collides`. -/
def namespaceImportCollides (e : ModuleEntry) (bind : String) : Bool :=
  (e.types.get bind).isSome || (e.values.get bind).isSome || (e.children.get bind).isSome ||
    (e.importedTypes.get bind).isSome || (e.importedValues.get bind).isSome ||
      (e.namespaceImports.get bind).isSome

end ModuleEntry

namespace ModuleTable

variable (T : ModuleTable)

/-- The names that imports take from modules. -/
def takenNames : List (ModId × String) :=
  T.modules.flatMap fun e => e.imports.flatMap fun i =>
    match i.target, i.item.kind with
    | some t, .named names => names.map fun n => (t, n.name)
    | _, _ => []

theorem mem_takenNames {m : ModId} {e : ModuleEntry} {name : String} {next : ModId × String}
    (he : T.modules[m]? = some e) (h : e.reexport name = some next) : next ∈ T.takenNames := by
  obtain ⟨i, hi, h⟩ := List.exists_of_findSome?_eq_some h
  refine List.mem_flatMap.mpr ⟨e, List.mem_of_getElem? he, List.mem_flatMap.mpr ⟨i, hi, ?_⟩⟩
  split at h
  · split at h
    · rename_i t names ht hkind
      obtain ⟨n, hn, rfl⟩ := Option.map_eq_some_iff.mp h
      exact List.mem_map.mpr ⟨n, List.mem_of_find?_eq_some hn, rfl⟩
    · cases h
  · cases h

/-- `resolve_pub_type_in_inner` and `resolve_pub_value_in_inner`. -/
def resolvePubFrom (typeNs : Bool) (seen : List (ModId × String)) (m : ModId) (name : String) :
    Option DefId :=
  if _hseen : (m, name) ∈ seen then none
  else match _he : T.modules[m]? with
    | none => none
    | some e =>
      match (e.names typeNs).get name with
      | some d => if T.isBuiltinViewModule m || T.isPublic[d]? = some true then some d else none
      | none =>
        match (e.publicImportedNames typeNs).get name with
        | some d => some d
        | none =>
          match _hnext : e.reexport name with
          | some next => resolvePubFrom typeNs ((m, name) :: seen) next.1 next.2
          | none => none
termination_by Unseen.unseen T.takenNames seen + if (m, name) ∈ T.takenNames then 0 else 1
decreasing_by
  rw [if_pos (T.mem_takenNames _he _hnext)]
  split
  · rename_i hmem
    exact Unseen.unseen_lt hmem _hseen
  · exact Nat.lt_succ_of_le (Unseen.unseen_le _ _ _)

/-- `resolve_pub_type_in`. -/
def resolvePubTypeIn (m : ModId) (name : String) : Option DefId := T.resolvePubFrom true [] m name

/-- `resolve_pub_value_in`. -/
def resolvePubValueIn (m : ModId) (name : String) : Option DefId :=
  T.resolvePubFrom false [] m name

/-- What a name of a module stands for in an import, among types or values. -/
def importedDefinition (typeNs toolchain : Bool) (target : ModId) (name : String) : Option DefId :=
  if toolchain then (T.modules[target]?).bind fun e => (e.names typeNs).get name
  else if typeNs then T.resolvePubTypeIn target name else T.resolvePubValueIn target name

/-- A name that an import binds, among types or values. -/
def bindImported (m : ModId) (typeNs isPublic : Bool) (name : String) (d : Option DefId) :
    ModuleTable :=
  match d with
  | none => T
  | some d => T.modify m fun e =>
    if typeNs then
      { e with
        importedTypes := e.importedTypes.insert name d
        publicImportedTypes :=
          if isPublic then e.publicImportedTypes.insert name d else e.publicImportedTypes }
    else
      { e with
        importedValues := e.importedValues.insert name d
        publicImportedValues :=
          if isPublic then e.publicImportedValues.insert name d else e.publicImportedValues }

/-- `resolve_named_import`. -/
def resolveNamedImport (m target : ModId) (toolchain isPublic : Bool) (T : ModuleTable)
    (n : ImportName) : ModuleTable :=
  let asType := T.importedDefinition true toolchain target n.name
  let asValue := T.importedDefinition false toolchain target n.name
  if asType.isNone && asValue.isNone then
    let own := (T.modules[target]?).bind fun e => (e.types.get n.name).or (e.values.get n.name)
    if !toolchain && own.any fun d => T.isPublic[d]? = some false then
      T.emit (.message ("`" ++ n.name ++ "` is private"))
    else T.emit (.message ("no `" ++ n.name ++ "` in the imported module"))
  else if (T.modules[m]?).any fun e => e.namedImportCollides n.bind then
    T.emit (.message ("imported name `" ++ n.bind ++
      "` collides with another import; alias one with `as`"))
  else (T.bindImported m true isPublic n.bind asType).bindImported m false isPublic n.bind asValue

/-- `bind_import`. -/
def bindImport (m target : ModId) (item : ImportItem) (toolchain isPublic : Bool) :
    ModuleTable :=
  let T := T.modify m fun e =>
    { e with
      extensionImports :=
        if target ∈ e.extensionImports then e.extensionImports else e.extensionImports ++ [target]
      publicExtensionImports :=
        if isPublic && target ∉ e.publicExtensionImports then e.publicExtensionImports ++ [target]
        else e.publicExtensionImports }
  match item.kind with
  | .named names => names.foldl (resolveNamedImport m target toolchain isPublic) T
  | .namespace bind =>
    if (T.modules[m]?).any fun e => e.namespaceImportCollides bind then
      T.emit (.message ("namespace import `" ++ bind ++
        "` collides with an existing binding; alias it with a different name"))
    else T.modify m fun e =>
      { e with
        namespaceImports := e.namespaceImports.insert bind target
        publicNamespaceImports :=
          if isPublic then e.publicNamespaceImports.insert bind target
          else e.publicNamespaceImports }
  | .ambient => T

/-- The second loop of `resolve_imports`, for one module. -/
def bindModule (T : ModuleTable) (m : ModId) : ModuleTable :=
  match T.modules[m]? with
  | some e => e.imports.foldl (fun T i =>
      match i.target with
      | some target => T.bindImport m target i.item i.toolchain i.isPublic
      | none => T) T
  | none => T

/-- `resolve_imports`. -/
def resolveImports (ctx : ResolveContext) : ModuleTable :=
  let T := (List.range T.modules.length).foldl (resolveModule ctx) T
  (List.range T.modules.length).foldl bindModule T

/-! ## Programs -/

/-- The program before the files of the project: the root module and the toolchain. -/
def start (tool : Toolchain) : ModuleTable where
  modules := ModuleEntry.new none true [] :: tool.modules
  isPublic := tool.isPublic
  builtinModules := tool.views
  packageRoots := []
  fileModules := []
  stdProviderName := tool.providerName
  toolchainPaths := tool.paths
  errors := []

/-- A file that is collected as a module of its own. -/
def collectRoot (externals : Externals) (T : ModuleTable) (key : List String) :
    Option (ModId × ModuleTable) :=
  (externals.lookup key).map fun items =>
    let r := T.newModule 0 true key
    (r.1, collect externals key r.1 items r.2)

/-- A package instance that is collected. -/
def collectPackage (externals : Externals) (T : ModuleTable) (p : String × List String) :
    ModuleTable :=
  match T.collectRoot externals p.2 with
  | some (m, T) => { T with packageRoots := T.packageRoots.insert p.1 m }
  | none => T

/-- A target of `file:` imports that is collected. -/
def collectFileTarget (externals : Externals) (T : ModuleTable) (f : Path × List String) :
    ModuleTable :=
  match T.collectRoot externals f.2 with
  | some (m, T) => { T with fileModules := (f.1, m) :: T.fileModules }
  | none => T

end ModuleTable

/-- The package instances that some package depends on, each with its key, by id. -/
def ResolveContext.packageKeys (ctx : ResolveContext) : List (String × List String) :=
  let keys := (ctx.packages ++ ctx.packageDependencies.flatMap fun o => o.2).map Prod.snd
  let byId := keys.foldl (fun known key =>
    match packageInstanceId key with
    | some id => (id, key) :: known.filter fun p => p.1 ≠ id
    | none => known) []
  byId.insertionSort fun p q => p.1 ≤ q.1

/-- `collect_multi_ctx`. -/
def collectMultiCtx (tool : Toolchain) (root : List ModuleItem) (externals : Externals)
    (ctx : ResolveContext) : ModuleTable :=
  let T := collect externals [] 0 root (.start tool)
  let T := ctx.packageKeys.foldl (ModuleTable.collectPackage externals) T
  let T := (ctx.fileTargets.insertionSort fun f g => f.2 ≤ g.2).foldl
    (ModuleTable.collectFileTarget externals) T
  T.resolveImports ctx

end compiler.sema
