-- `Manifest::parse` (`manifest.rs`): the raw shape of the tables of a `project.toml`, and its
-- normalization. A map is a list of entries with different keys.
import OtterFusion.Base.TomlDocuments
import OtterFusion.Compiler.Lexer
import OtterFusion.Pkg.Package

open base.tomlDoc

namespace pkg.manifest

/-! ## Manifests -/

/-- `PackageKind`. -/
inductive PackageKind
  | binary | library | libraryBins
  deriving DecidableEq, Repr

/-- `Package`. -/
structure Package where
  name : String
  version : String
  kind : PackageKind
  entry : Option String
  src : String
  bins : List String
  edition : Option String
  noStd : Bool
  defaultFeatures : List String

/-- `Registry`. -/
structure Registry where
  index : String
  auth : Bool

/-- `Manifest`. A map is what each name stands for. -/
structure Manifest where
  package : Package
  dependencies : String → Option Dependency
  features : String → Option (List String)
  defaultRegistry : Option String
  registries : String → Option Registry
  fileImportAllow : List String
  macroRecursionLimit : Option Nat

/-- `ManifestError`. The message of a `Toml` error is one of the library. -/
inductive ManifestError
  | toml
  | missing (field : String)
  | invalid (message : String)
  deriving DecidableEq, Repr

/-! ## Fields -/

variable {A : Type}

def string : Data → Option String
  | .string s => some s
  | _ => none

def boolean : Data → Option Bool
  | .boolean b => some b
  | _ => none

/-- `usize`. -/
def usize : Data → Option Nat
  | .integer n => if 0 ≤ n ∧ n < 2 ^ 64 then some n.toNat else none
  | _ => none

/-- `Vec<String>`. -/
def strings : Data → Option (List String)
  | .array items => items.mapM string
  | _ => none

/-- The entries of a struct or of a map. -/
def entries : Data → Option (Entries Data)
  | .table es => some es
  | _ => none

/-- `BTreeMap<String, A>`. -/
def mapOf (read : Data → Option A) (d : Data) : Option (Entries A) := do
  (← entries d).mapM fun e => (read e.2).map fun a => (e.1, a)

/-- A field of type `Option`: nothing is read where the key is absent. -/
def optional (read : Data → Option A) (key : String) (es : Entries Data) : Option (Option A) :=
  match get key es with
  | none => some none
  | some d => (read d).map some

/-- A field without a default. -/
def required (read : Data → Option A) (key : String) (es : Entries Data) : Option A :=
  (get key es).bind read

/-- A field with `#[serde(default)]`. -/
def defaulted (a : A) (read : Data → Option A) (key : String) (es : Entries Data) : Option A :=
  (optional read key es).map fun v => v.getD a

/-! ## Raw shapes -/

/-- `RawPackage`. -/
structure RawPackage where
  name : String
  version : Option String
  kind : Option String
  entry : Option String
  src : Option String
  bins : List String
  edition : Option String
  noStd : Bool
  defaultFeatures : List String

/-- `RawDetailedDep`. -/
structure RawDetailedDep where
  version : Option String
  path : Option String
  git : Option String
  rev : Option String
  branch : Option String
  tag : Option String
  registry : Option String
  features : List String
  defaultFeatures : Option Bool
  optional : Bool

/-- `RawDep`. -/
inductive RawDep
  | version (version : String)
  | detailed (d : RawDetailedDep)

/-- `RawManifest`. -/
structure RawManifest where
  package : RawPackage
  dependencies : Entries RawDep
  features : Entries (List String)
  registry : Option (Option String)
  registries : Entries Registry
  fileImports : Option (List String)
  macros : Option (Option Nat)

def rawPackage (d : Data) : Option RawPackage := do
  let es ← entries d
  return {
    name := ← required string "name" es
    version := ← optional string "version" es
    kind := ← optional string "kind" es
    entry := ← optional string "entry" es
    src := ← optional string "src" es
    bins := ← defaulted [] strings "bins" es
    edition := ← optional string "edition" es
    noStd := ← defaulted false boolean "no-std" es
    defaultFeatures := ← defaulted [] strings "default-features" es }

def rawDetailedDep (d : Data) : Option RawDetailedDep := do
  let es ← entries d
  return {
    version := ← optional string "version" es
    path := ← optional string "path" es
    git := ← optional string "git" es
    rev := ← optional string "rev" es
    branch := ← optional string "branch" es
    tag := ← optional string "tag" es
    registry := ← optional string "registry" es
    features := ← defaulted [] strings "features" es
    defaultFeatures := ← optional boolean "default-features" es
    optional := ← defaulted false boolean "optional" es }

/-- The enum is untagged: the first variant that can be read. -/
def rawDep (d : Data) : Option RawDep :=
  ((string d).map .version).or ((rawDetailedDep d).map .detailed)

def rawRegistry (d : Data) : Option Registry := do
  let es ← entries d
  return { index := ← required string "index" es, auth := ← defaulted false boolean "auth" es }

/-- `RawMacros`: the limit has an alias, and not both names may stand. -/
def rawMacros (d : Data) : Option (Option Nat) := do
  let es ← entries d
  let limit ← optional usize "recursion_limit" es
  let other ← optional usize "recursion-limit" es
  if limit.isSome ∧ other.isSome then none else return limit.or other

def rawManifest (es : Entries Data) : Option RawManifest := do
  return {
    package := ← required rawPackage "package" es
    dependencies := ← defaulted [] (mapOf rawDep) "dependencies" es
    features := ← defaulted [] (mapOf strings) "features" es
    registry := ← optional (fun d => entries d >>= optional string "default") "registry" es
    registries := ← defaulted [] (mapOf rawRegistry) "registries" es
    fileImports :=
      ← optional (fun d => entries d >>= defaulted [] strings "allow") "file-imports" es
    macros := ← optional rawMacros "macros" es }

/-! ## Normalization -/

/-- `RawDep::normalize`. -/
def RawDep.normalize (name : String) : RawDep → Except ManifestError Dependency
  | version v => .ok ⟨.registry v none, [], true, false⟩
  | detailed d => do
    let source ← (match d.path, d.git with
      | some _, some _ =>
        .error (.invalid s!"dependency `{name}` sets both `path` and `git`")
      | some path, none =>
        if d.version.isSome ∨ d.registry.isSome then
          .error (.invalid s!"path dependency `{name}` may not also set `version`/`registry`")
        else .ok (.path path)
      | none, some url =>
        match d.rev, d.branch, d.tag with
        | some r, none, none => .ok (.git url (.rev r))
        | none, some b, none => .ok (.git url (.branch b))
        | none, none, some t => .ok (.git url (.tag t))
        | none, none, none => .ok (.git url .default)
        | _, _, _ => .error
          (.invalid s!"git dependency `{name}` sets more than one of `rev`/`branch`/`tag`")
      | none, none =>
        match d.version with
        | some v => .ok (.registry v d.registry)
        | none => .error (.invalid
          s!"dependency `{name}` needs a `version`, `path`, or `git` source"))
    return ⟨source, d.features, d.defaultFeatures.getD true, d.optional⟩

/-- The dependencies one by one, in the order of the text. The source takes them in the order of
their names, which tells only which of two errors it reports. -/
def normalizeAll : Entries RawDep → Except ManifestError (Entries Dependency)
  | [] => .ok []
  | e :: es => do
    let dep ← e.2.normalize e.1
    let deps ← normalizeAll es
    return (e.1, dep) :: deps

/-- The kind of a package. -/
def packageKind : Option String → Except ManifestError PackageKind
  | none => .ok .binary
  | some "binary" => .ok .binary
  | some "library" => .ok .library
  | some "library+bins" => .ok .libraryBins
  | some other => .error (.invalid
    s!"unknown package kind `{other}` (expected `binary`, `library`, or `library+bins`)")

/-- `RawManifest::into_manifest`. -/
def RawManifest.intoManifest (raw : RawManifest) : Except ManifestError Manifest := do
  let src := raw.package.src.getD "src"
  let kind ← packageKind raw.package.kind
  if raw.package.name.toList.all compiler.lexer.isWhitespace then
    .error (.missing "package.name")
  else
    let dependencies ← normalizeAll raw.dependencies
    return {
      package := {
        name := raw.package.name
        version := raw.package.version.getD "0.0.0"
        kind
        entry := raw.package.entry
        src
        bins := raw.package.bins
        edition := raw.package.edition
        noStd := raw.package.noStd
        defaultFeatures := raw.package.defaultFeatures }
      dependencies := fun name => get name dependencies
      features := fun name => get name raw.features
      defaultRegistry := raw.registry.join
      registries := fun name => get name raw.registries
      fileImportAllow := raw.fileImports.getD []
      macroRecursionLimit := raw.macros.join }

/-- The manifest of the tables of a document. -/
def ofTables (es : Entries Data) : Except ManifestError Manifest :=
  match rawManifest es with
  | none => .error .toml
  | some raw => raw.intoManifest

/-- `Manifest::parse`. -/
def Manifest.parse (ed : Editor) (text : String) : Except ManifestError Manifest :=
  match ed.parse text with
  | .error _ => .error .toml
  | .ok doc => ofTables (doc.data ed.meaning)

end pkg.manifest
