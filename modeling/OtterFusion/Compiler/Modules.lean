-- The tree of modules and how it is collected from the parsed files (`symbols.rs`), as far as
-- imports are resolved in it. The toolchain, which is collected first from sources of its own, is
-- a parameter.
import OtterFusion.Compiler.ImportPaths
import OtterFusion.Compiler.Symbols

namespace compiler.sema

open compiler.imports (Path)

/-! ## Items -/

/-- `ImportName`: a name and what it is bound as. -/
structure ImportName where
  name : String
  bind : String

/-- `ImportKind`. -/
inductive ImportKind
  | named (names : List ImportName)
  | «namespace» (bind : String)
  | ambient

/-- `ImportItem`, with the text of its path. -/
structure ImportItem where
  path : String
  kind : ImportKind

/-- `Item`: a definition that is named, a module with its items or in a file of its own, or an
import. -/
inductive ModuleItem
  | definition (isPublic : Bool) (name : String) (kind : DefKind)
  | inline (isPublic : Bool) (name : String) (items : List ModuleItem)
  | external (isPublic : Bool) (name : String)
  | importItem (isPublic : Bool) (item : ImportItem)

/-- `Externals`: the parsed files, by the path of the module that each is the body of. -/
abbrev Externals := List (List String × List ModuleItem)

/-! ## The table -/

/-- `ModuleImport`. -/
structure ModuleImport where
  item : ImportItem
  isPublic : Bool
  target : Option ModId
  toolchain : Bool

/-- `ModuleInfo`, as far as imports are concerned. -/
structure ModuleEntry where
  parent : Option ModId
  isPublic : Bool
  path : List String
  externalUnloaded : Bool
  children : Names ModId
  types : Names DefId
  values : Names DefId
  imports : List ModuleImport
  importedTypes : Names DefId
  importedValues : Names DefId
  publicImportedTypes : Names DefId
  publicImportedValues : Names DefId
  namespaceImports : Names ModId
  publicNamespaceImports : Names ModId
  extensionImports : List ModId
  publicExtensionImports : List ModId

/-- `ModuleInfo::new`, with the path that the module is given. -/
def ModuleEntry.new (parent : Option ModId) (isPublic : Bool) (path : List String) :
    ModuleEntry where
  parent := parent
  isPublic := isPublic
  path := path
  externalUnloaded := false
  children := []
  types := []
  values := []
  imports := []
  importedTypes := []
  importedValues := []
  publicImportedTypes := []
  publicImportedValues := []
  namespaceImports := []
  publicNamespaceImports := []
  extensionImports := []
  publicExtensionImports := []

/-- Errors of the resolver, without their spans. -/
inductive ResolveError
  | duplicateDefinition (name kind : String)
  | message (text : String)
  deriving DecidableEq

/-- `Program`, as far as imports are concerned. -/
structure ModuleTable where
  modules : List ModuleEntry
  /-- `Def::public`, of each definition. -/
  isPublic : List Bool
  builtinModules : List (List String × ModId)
  packageRoots : Names ModId
  fileModules : List (Path × ModId)
  stdProviderName : String
  /-- `TOOLCHAIN_MODULES`: the paths that some provider may give. -/
  toolchainPaths : List (List String)
  errors : List ResolveError

/-- The modules of the toolchain behind the root module, with the views that can be imported. -/
structure Toolchain where
  modules : List ModuleEntry
  isPublic : List Bool
  views : List (List String × ModId)
  providerName : String
  paths : List (List String)
  noChildren : ∀ m ∈ modules, m.children = []
  noImports : ∀ m ∈ modules, m.imports = []
  noReexports : ∀ m ∈ modules, m.publicImportedTypes = [] ∧ m.publicImportedValues = []

namespace ModuleTable

variable (T : ModuleTable)

def emit (e : ResolveError) : ModuleTable := { T with errors := T.errors ++ [e] }

/-- A module changes. -/
def modify (m : ModId) (f : ModuleEntry → ModuleEntry) : ModuleTable :=
  { T with modules := T.modules.modify m f }

/-- `new_module`. -/
def newModule (parent : ModId) (isPublic : Bool) (path : List String) : ModId × ModuleTable :=
  (T.modules.length,
    { T with modules := T.modules ++ [ModuleEntry.new (some parent) isPublic path] })

/-- `bind`. -/
def bind (m : ModId) (name : String) (d : DefId) (kind : DefKind) (typeNs : Bool) : ModuleTable :=
  let names := match T.modules[m]? with
    | some e => if typeNs then e.types else e.values
    | none => []
  let T := T.modify m fun e =>
    if typeNs then { e with types := e.types.insert name d }
    else { e with values := e.values.insert name d }
  if (names.get name).isSome then T.emit (.duplicateDefinition name kind.describe) else T

end ModuleTable

/-- `in_type_ns`. -/
def DefKind.inTypeNs : DefKind → Bool
  | .struct | .interface | .typeAlias | .externStruct | .externType => true
  | _ => false

/-- `in_value_ns`. -/
def DefKind.inValueNs : DefKind → Bool
  | .function | .moduleVar | .externFunction | .externVar => true
  | _ => false

namespace ModuleTable

variable (T : ModuleTable)

/-- `add_def`, with `register_name`. A struct is a value constructor also. -/
def addDefinition (m : ModId) (isPublic : Bool) (name : String) (kind : DefKind) : ModuleTable :=
  let d := T.isPublic.length
  let T := { T with isPublic := T.isPublic ++ [isPublic] }
  let T := if kind.inTypeNs then T.bind m name d kind true else T
  let T := if kind.inValueNs then T.bind m name d kind false else T
  if kind = .struct then T.bind m name d kind false else T

/-- A module that is declared in another: a child link, and no name. -/
def addChild (m : ModId) (isPublic : Bool) (name : String) (path : List String) :
    ModId × ModuleTable :=
  let (child, T) := T.newModule m isPublic path
  let T := { T with isPublic := T.isPublic ++ [isPublic] }
  let known := match T.modules[m]? with
    | some e => (e.children.get name).isSome
    | none => false
  let T := T.modify m fun e => { e with children := e.children.insert name child }
  (child, if known then T.emit (.duplicateDefinition name "module") else T)

/-- An import that is written in a module. -/
def addImport (m : ModId) (isPublic : Bool) (item : ImportItem) : ModuleTable :=
  T.modify m fun e =>
    { e with imports := e.imports ++ [{ item, isPublic, target := none, toolchain := false }] }

end ModuleTable

/-! ## Collecting -/

/-- What collecting the file of a module does, by the path of the module below a base. -/
abbrev CollectFile := (rel : List String) → rel ≠ [] → ModId → ModuleTable → ModuleTable

mutual

/-- `collect_item`, of a module at some path below a base. -/
def collectItem (file : CollectFile) (base rel : List String) (m : ModId) :
    ModuleItem → ModuleTable → ModuleTable
  | .definition isPublic name kind, T => T.addDefinition m isPublic name kind
  | .inline isPublic name items, T =>
    let r := T.addChild m isPublic name (base ++ (rel ++ [name]))
    collectItems file base (rel ++ [name]) r.1 items r.2
  | .external isPublic name, T =>
    let r := T.addChild m isPublic name (base ++ (rel ++ [name]))
    file (rel ++ [name]) (by simp) r.1 r.2
  | .importItem isPublic item, T => T.addImport m isPublic item

/-- `collect_items`. -/
def collectItems (file : CollectFile) (base rel : List String) (m : ModId) :
    List ModuleItem → ModuleTable → ModuleTable
  | [], T => T
  | item :: items, T =>
    collectItems file base rel m items (collectItem file base rel m item T)

end

/-- How many files have a module path strictly below another. -/
def deeper (externals : Externals) (base : List String) : Nat :=
  externals.countP fun e => base.isPrefixOf e.1 && e.1 != base

theorem deeper_lt {externals : Externals} {base rel : List String} {items : List ModuleItem}
    (hfound : externals.lookup (base ++ rel) = some items) (hrel : rel ≠ []) :
    deeper externals (base ++ rel) < deeper externals base := by
  obtain ⟨l, l', hsplit, _⟩ := List.lookup_eq_some_iff.mp hfound
  have hle : ∀ es : Externals, deeper es (base ++ rel) ≤ deeper es base := by
    intro es
    apply List.countP_mono_left
    intro e _ he
    simp only [Bool.and_eq_true, List.isPrefixOf_iff_prefix, bne_iff_ne] at he ⊢
    obtain ⟨⟨more, hmore⟩, hne⟩ := he
    refine ⟨⟨rel ++ more, by rw [← hmore, List.append_assoc]⟩, fun heq => ?_⟩
    rw [heq] at hmore
    have hlen := congrArg List.length hmore
    simp only [List.length_append] at hlen
    exact hrel (List.length_eq_zero_iff.mp (by omega))
  have hhere : deeper [(base ++ rel, items)] (base ++ rel) = 0 ∧
      deeper [(base ++ rel, items)] base = 1 := by
    constructor
    · simp [deeper]
    · simp [deeper, hrel]
  have happend : ∀ (xs ys : Externals) (p : List String),
      deeper (xs ++ ys) p = deeper xs p + deeper ys p := fun xs ys p => List.countP_append
  have hcons : externals = l ++ ([(base ++ rel, items)] ++ l') := hsplit
  rw [hcons, happend, happend, happend, happend, hhere.1, hhere.2]
  have := hle l
  have := hle l'
  omega

/-- The body of a file-backed module at some path: its items, and those of the files below it. A
module whose file was not loaded is marked. -/
def collectFile (externals : Externals) (base rel : List String) (_hrel : rel ≠ []) (child : ModId)
    (T : ModuleTable) : ModuleTable :=
  match _hfound : externals.lookup (base ++ rel) with
  | some items =>
    let file : CollectFile := fun below hbelow => collectFile externals (base ++ rel) below hbelow
    collectItems file (base ++ rel) [] child items T
  | none => T.modify child fun e => { e with externalUnloaded := true }
termination_by deeper externals base
decreasing_by exact deeper_lt _hfound _hrel

/-- `collect_items`, of a module at a path. -/
def collect (externals : Externals) (path : List String) (m : ModId) (items : List ModuleItem)
    (T : ModuleTable) : ModuleTable :=
  collectItems (collectFile externals path) path [] m items T

end compiler.sema
