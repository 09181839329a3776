-- Index files as text (`registry.rs`, `server.rs`): the JSON line of an entry, `parse_index`, and
-- the metadata before the tarball of a publish request. `serde_json` is a parameter: it writes a
-- value as text and reads a text into the `serde` shape of a line.
import OtterFusion.Base.JsonText
import OtterFusion.Compiler.Lexer
import OtterFusion.Pkg.Package
import OtterFusion.Runtime.IoResults

open Std (TreeMap)
open base.json (Value Denotes)

namespace pkg

abbrev Bytes := List UInt8

/-! ## Errors -/

/-- `RegistryError`. -/
inductive RegistryError
  | transport (message : String)
  | protocol (message : String)
  | notFound (message : String)
  deriving DecidableEq

/-- The `Display` of `RegistryError`. -/
def RegistryError.show : RegistryError → String
  | .transport m => "registry transport error: " ++ m
  | .protocol m => "registry protocol error: " ++ m
  | .notFound m => "package `" ++ m ++ "` not found in the registry"

/-! ## Shapes -/

/-- `RawIndexDep`. -/
structure RawIndexDep where
  name : String
  req : String
  optional : Bool
  defaultFeatures : Bool
  features : List String
  registry : Option String

/-- `RawIndexLine`. -/
structure RawIndexLine where
  name : String
  vers : String
  deps : List RawIndexDep
  features : TreeMap String (List String)
  cksum : String
  yanked : Bool

/-- `RawPublishMetadata`. -/
structure RawPublishMetadata where
  name : String
  vers : String
  deps : List RawIndexDep
  features : TreeMap String (List String)

/-- `PublishMetadata`. -/
structure PublishMetadata (R : Type) where
  name : String
  vers : String
  deps : List (IndexDep R)
  features : TreeMap String (List String)

/-- What the registry uses of other packages and of the tables of Unicode: versions, the text of a
JSON value whose members are written in their order, the readers of a line and of a publish
request's metadata, `sha256_hex`, `str::to_lowercase`, and the text of a `Utf8Error`. -/
structure Library (V R : Type) where
  sem : Semver V R
  toJson : Value Unit → String
  fromStr : String → Except String RawIndexLine
  fromSlice : Bytes → Except String RawPublishMetadata
  sha256Hex : Bytes → String
  lower : String → String
  utf8Error : Bytes → String

variable {V R : Type} (lib : Library V R)

/-- `into_dep`. -/
def RawIndexDep.intoDep (d : RawIndexDep) : Except RegistryError (IndexDep R) := do
  let req ← (lib.sem.parseReq d.req).mapError fun e =>
    .protocol ("bad dep req `" ++ d.req ++ "`: " ++ e)
  return { name := d.name, req := req, optional := d.optional,
           defaultFeatures := d.defaultFeatures, features := d.features, registry := d.registry }

/-- `into_entry`. -/
def RawIndexLine.intoEntry (line : RawIndexLine) : Except RegistryError (IndexEntry V R) := do
  let vers ← (lib.sem.parseVersion line.vers).mapError fun e =>
    .protocol ("bad version `" ++ line.vers ++ "`: " ++ e)
  let deps ← line.deps.mapM fun d => d.intoDep lib
  return { name := line.name, vers := vers, deps := deps, features := line.features,
           cksum := line.cksum, yanked := line.yanked }

/-- `into_metadata`. -/
def RawPublishMetadata.intoMetadata (m : RawPublishMetadata) :
    Except RegistryError (PublishMetadata R) := do
  let deps ← m.deps.mapM fun d => d.intoDep lib
  return { name := m.name, vers := m.vers, deps := deps, features := m.features }

/-! ## Lines -/

/-- A string as JSON. -/
def string (s : String) : Value Unit := .str s.toList

/-- A list of strings as JSON. -/
def strings (l : List String) : Value Unit := .array (l.map string)

/-- The JSON of a dependency. The map of `serde_json` is sorted by key. -/
def IndexDep.toValue (d : IndexDep R) : Value Unit :=
  .object [("default_features".toList, .bool d.defaultFeatures),
    ("features".toList, strings d.features), ("name".toList, string d.name),
    ("optional".toList, .bool d.optional),
    ("registry".toList, match d.registry with
      | some r => string r
      | none => .null),
    ("req".toList, string (lib.sem.showReq d.req))]

/-- The members of the JSON of an entry. -/
def IndexEntry.members (e : IndexEntry V R) : List (base.json.Text × Value Unit) :=
  [("cksum".toList, string e.cksum), ("deps".toList, .array (e.deps.map fun d => d.toValue lib)),
    ("features".toList, .object (e.features.toList.map fun p => (p.1.toList, strings p.2))),
    ("name".toList, string e.name), ("vers".toList, string (lib.sem.showVersion e.vers)),
    ("yanked".toList, .bool e.yanked)]

/-- `index_line`. -/
def indexLine (e : IndexEntry V R) : String := lib.toJson (.object (e.members lib))

/-- The text that `write_entries` writes. -/
def indexText (entries : List (IndexEntry V R)) : String :=
  entries.foldl (fun text e => text ++ indexLine lib e ++ "\n") ""

/-- `str::lines`: a line ends at a line feed, with a carriage return before it or without. -/
def lines : List Char → List (List Char)
  | [] => []
  | '\n' :: s => [] :: lines s
  | '\r' :: '\n' :: s => [] :: lines s
  | c :: s => match lines s with
    | [] => [[c]]
    | line :: more => (c :: line) :: more

/-- `str::trim`. -/
def trim (s : List Char) : List Char :=
  ((s.dropWhile compiler.lexer.isWhitespace).reverse.dropWhile compiler.lexer.isWhitespace).reverse

/-- A turn of `parse_index`. -/
def parseLine (out : List (IndexEntry V R)) (line : List Char) :
    Except RegistryError (List (IndexEntry V R)) :=
  if trim line = [] then .ok out
  else do
    let raw ← (lib.fromStr (String.ofList (trim line))).mapError fun e =>
      .protocol ("bad index line: " ++ e)
    return out ++ [← raw.intoEntry lib]

/-- `parse_index`. -/
def parseIndex (text : String) : Except RegistryError (List (IndexEntry V R)) :=
  (lines text.toList).foldlM (parseLine lib) []

/-! ## Publish requests -/

/-- `PUBLISH_PAYLOAD_MAGIC`. -/
def publishPayloadMagic : Bytes :=
  "otter-fusion-publish-v1\n".toList.map fun c => UInt8.ofNat c.toNat

/-- `decode_publish_body`. -/
def decodePublishBody (pathName pathVersion : String) (body : Bytes) :
    Except RegistryError (PublishMetadata R × Bytes) :=
  match publishPayloadMagic.isPrefixOf? body with
  | none => .ok ({ name := pathName, vers := pathVersion, deps := [], features := ∅ }, body)
  | some rest => do
    let some lenEnd := rest.findIdx? (· = 10)
      | .error (.protocol "publish metadata sidecar is missing its length")
    let lenBytes := rest.take lenEnd
    let some lenText := String.fromUTF8? ⟨lenBytes.toArray⟩
      | .error (.protocol ("publish metadata length is not UTF-8: " ++ lib.utf8Error lenBytes))
    let some jsonLen := runtime.io.parseUsize lenText.toList
      | .error (.protocol ("invalid publish metadata length `" ++ lenText ++ "`"))
    let afterLen := rest.drop (lenEnd + 1)
    if afterLen.length < jsonLen then
      .error (.protocol "publish metadata sidecar is truncated")
    let raw ← (lib.fromSlice (afterLen.take jsonLen)).mapError fun e =>
      .protocol ("bad publish metadata sidecar: " ++ e)
    let metadata ← raw.intoMetadata lib
    if metadata.name ≠ pathName ∨ metadata.vers ≠ pathVersion then
      .error (.protocol ("publish metadata names `" ++ metadata.name ++ "` v" ++ metadata.vers ++
        " but URL names `" ++ pathName ++ "` v" ++ pathVersion))
    return (metadata, afterLen.drop jsonLen)

/-! ## The shape of a line -/

section shape

variable {A : Type} (members : List (base.json.Text × Value Unit))

/-- The value of a field, if there is one. A field does not stand twice. -/
def field (key : String) : Option (Option (Value Unit)) :=
  match members.filter fun m => m.1 = key.toList with
  | [] => some none
  | [m] => some (some m.2)
  | _ => none

/-- A field that must be there. -/
def required (read : Value Unit → Option A) (key : String) : Option A :=
  match field members key with
  | some (some v) => read v
  | _ => none

/-- A field with a default. -/
def orDefault (default : A) (read : Value Unit → Option A) (key : String) : Option A :=
  match field members key with
  | some (some v) => read v
  | some none => some default
  | none => none

end shape

/-- A `String`. -/
def asString : Value Unit → Option String
  | .str s => some (String.ofList s)
  | _ => none

/-- A `bool`. -/
def asBool : Value Unit → Option Bool
  | .bool b => some b
  | _ => none

/-- An `Option<String>`. -/
def asNullable : Value Unit → Option (Option String)
  | .null => some none
  | v => (asString v).map some

/-- A `Vec`. -/
def asVec {A : Type} (read : Value Unit → Option A) : Value Unit → Option (List A)
  | .array items => items.mapM read
  | _ => none

/-- A member of a `BTreeMap`: of two with one key, the later one stays. -/
def readMember (m : TreeMap String (List String)) (p : base.json.Text × Value Unit) :
    Option (TreeMap String (List String)) := do
  return m.insert (String.ofList p.1) (← asVec asString p.2)

/-- A `BTreeMap<String, Vec<String>>`. -/
def asMap : Value Unit → Option (TreeMap String (List String))
  | .object members => members.foldlM readMember ∅
  | _ => none

/-- An object as a `RawIndexDep`. -/
def RawIndexDep.ofValue : Value Unit → Option RawIndexDep
  | .object members => do
    return { name := ← required members asString "name", req := ← required members asString "req",
             optional := ← orDefault members false asBool "optional",
             defaultFeatures := ← orDefault members true asBool "default_features",
             features := ← orDefault members [] (asVec asString) "features",
             registry := ← orDefault members none asNullable "registry" }
  | _ => none

/-- The members of an object as a `RawIndexLine`. -/
def RawIndexLine.ofMembers (members : List (base.json.Text × Value Unit)) :
    Option RawIndexLine := do
  return { name := ← required members asString "name", vers := ← required members asString "vers",
           deps := ← orDefault members [] (asVec RawIndexDep.ofValue) "deps",
           features := ← orDefault members ∅ asMap "features",
           cksum := ← required members asString "cksum",
           yanked := ← orDefault members false asBool "yanked" }

/-- `serde_json` and `semver` as documented. A JSON text is compact: on one line, without white
space around it. An object of the shape of a line is read as that, down to a depth of 127. Each
version and requirement is what its text is parsed as. -/
structure Library.Documented (lib : Library V R) : Prop where
  denotes : ∀ v, Denotes (fun _ => ()) (lib.toJson v).toList v
  line : ∀ v, ∀ c ∈ (lib.toJson v).toList, 0x20 ≤ c.toNat
  braces : ∀ members, ∃ inner, (lib.toJson (.object members)).toList = '{' :: (inner ++ ['}'])
  reads : ∀ text members raw, Denotes (fun _ => ()) text.toList (.object members) →
    (Value.object members).depth < 128 → RawIndexLine.ofMembers members = some raw →
    lib.fromStr text = .ok raw
  version : ∀ s v, lib.sem.parseVersion s = .ok v ↔ lib.sem.showVersion v = s
  requirement : ∀ r, lib.sem.parseReq (lib.sem.showReq r) = .ok r

end pkg
