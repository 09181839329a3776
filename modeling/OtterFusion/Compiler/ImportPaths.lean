-- Paths of imports (`imports.rs`) and of files (`resolve_ctx.rs`, with the operations of
-- `std::path` that it uses). A file path is the list of its components.
import Mathlib.Logic.Basic

namespace compiler.imports

/-! ## Schemes -/

/-- `Scheme`. -/
inductive Scheme
  | core | std | pkg | selfRoot | selfRel | file
  deriving DecidableEq, Repr

namespace Scheme

/-- `keyword`. -/
def keyword : Scheme → String
  | core => "core"
  | std => "std"
  | pkg => "pkg"
  | selfRoot | selfRel => "self"
  | file => "file"

/-- `requires_project_context`. -/
def requiresProjectContext : Scheme → Bool
  | pkg | selfRoot | selfRel => true
  | _ => false

end Scheme

/-- `ImportPath`. -/
structure ImportPath where
  scheme : Scheme
  segments : List String
  up : Nat
  body : String
  deriving DecidableEq, Repr

namespace ImportPath

/-- `display_source`. -/
def displaySource (p : ImportPath) : String := p.scheme.keyword ++ ":" ++ p.body

/-- `package_name`. -/
def packageName (p : ImportPath) : Option String :=
  if p.scheme = .pkg then p.segments.head? else none

/-- `package_subpath`. -/
def packageSubpath (p : ImportPath) : List String :=
  if p.scheme = .pkg then p.segments.tail else []

end ImportPath

/-- `ImportPathError`. -/
inductive ImportPathError
  | missingScheme (path : String)
  | reservedScheme (scheme : String)
  | unknownScheme (scheme : String)
  | emptyPath (scheme : String)
  | fileNotRelative (body : String)
  | interiorParent (path : String)
  deriving DecidableEq, Repr

/-- `Display`. -/
def ImportPathError.text : ImportPathError → String
  | .missingScheme path =>
    "import path `" ++ path ++ "` has no scheme prefix; every import must name its origin " ++
      "(`core:`, `std:`, `pkg:`, `self:`, or `file:`)"
  | .reservedScheme scheme =>
    "`" ++ scheme ++ ":` imports are reserved but not implemented; a registry package is " ++
      "imported as `pkg:<name>` (its location lives in the manifest), and there is no " ++
      "`pkg+https://…` form (`docs/17` §17.14)"
  | .unknownScheme scheme =>
    "unknown import scheme `" ++ scheme ++ ":`; expected one of `core:`, `std:`, `pkg:`, " ++
      "`self:`, or `file:`"
  | .emptyPath scheme => "import path `" ++ scheme ++ ":` is empty"
  | .fileNotRelative body =>
    "`file:` path `" ++ body ++ "` must be relative to the importing file (start with `./` " ++
      "or `../`)"
  | .interiorParent path =>
    "import path `" ++ path ++ "` has a `..` after a path segment; parent (`..`) hops must " ++
      "lead the path"

/-! ## Classification -/

/-- The parts of a body between slashes. -/
def parts (body : List Char) : List String := (body.splitOn '/').map String.ofList

/-- `absolute`. -/
def absolute (scheme : Scheme) (body : List Char) : Except ImportPathError ImportPath :=
  let segments := (parts body).filter (· ≠ "")
  if segments.any fun seg => seg = "." ∨ seg = ".." then
    .error (.interiorParent (scheme.keyword ++ ":" ++ String.ofList body))
  else if segments = [] then .error (.emptyPath scheme.keyword)
  else .ok { scheme, segments, up := 0, body := String.ofList body }

/-- The loop of `split_relative`. -/
def splitRelative (body : List Char) (up : Nat) (segments : List String) :
    List String → Except ImportPathError (Nat × List String)
  | [] => .ok (up, segments)
  | "." :: ps => splitRelative body up segments ps
  | ".." :: ps =>
    if segments = [] then splitRelative body (up + 1) segments ps
    else .error (.interiorParent ("file/self:" ++ String.ofList body))
  | seg :: ps => splitRelative body up (segments ++ [seg]) ps

/-- The relative form of `self:` and `file:`. -/
def relative (scheme : Scheme) (body : List Char) (ps : List String) :
    Except ImportPathError ImportPath :=
  (splitRelative body 0 [] ps).map fun r =>
    { scheme, segments := r.2, up := r.1, body := String.ofList body }

/-- Whether a relative path begins with `.` or `..`. -/
def leadsRelative (ps : List String) : Bool := ps.head? == some "." || ps.head? == some ".."

/-- `classify_self`. -/
def classifySelf (body : List Char) : Except ImportPathError ImportPath :=
  let ps := (parts body).filter (· ≠ "")
  if leadsRelative ps then relative .selfRel body ps else absolute .selfRoot body

/-- `classify_file`. -/
def classifyFile (body : List Char) : Except ImportPathError ImportPath :=
  let ps := (parts body).filter (· ≠ "")
  if leadsRelative ps then relative .file body ps
  else .error (.fileNotRelative (String.ofList body))

/-- `classify`. -/
def classify (raw : String) : Except ImportPathError ImportPath :=
  match raw.toList.span (· ≠ ':') with
  | (_, []) => .error (.missingScheme raw)
  | (scheme, _ :: body) =>
    let keyword := String.ofList scheme
    if '+' ∈ scheme ∨ keyword ∈ ["url", "http", "https", "blob"] then
      .error (.reservedScheme keyword)
    else if body = [] then .error (.emptyPath keyword)
    else match keyword with
      | "core" => absolute .core body
      | "std" => absolute .std body
      | "pkg" => absolute .pkg body
      | "self" => classifySelf body
      | "file" => classifyFile body
      | _ => .error (.unknownScheme keyword)

example : (classify "self:../util/log").toOption =
    some { scheme := .selfRel, segments := ["util", "log"], up := 1, body := "../util/log" } := by
  decide

/-! ## File paths -/

/-- A path, as its components. A leading `/` is a component. -/
abbrev Path := List String

namespace Path

/-- `parent`. -/
def parent : Path → Option Path
  | [] => none
  | ["/"] => none
  | p => some p.dropLast

/-- The directory of a file. -/
def directory (p : Path) : Path := p.parent.getD ["."]

/-- The place of the last dot of a name that does not lead it. -/
def splitExtension (name : String) : Option (String × String) :=
  match name.toList.reverse.span (· ≠ '.') with
  | (_, []) => none
  | (_, [_]) => none
  | (ext, _ :: stem) => some (String.ofList stem.reverse, String.ofList ext.reverse)

/-- `file_name`. -/
def fileName (p : Path) : Option String :=
  p.getLast?.filter fun name => name ≠ "/" ∧ name ≠ ".." ∧ name ≠ "."

/-- `set_extension("otter")` where there is no extension. -/
def withOtter (p : Path) : Path :=
  match p.fileName with
  | none => p
  | some name =>
    if (splitExtension name).isSome then p else p.dropLast ++ [name ++ ".otter"]

/-- `normalize`. -/
def normalize (p : Path) : Path :=
  p.foldl (fun out comp =>
    match comp with
    | ".." => match parent out with
      | some up => up
      | none => out ++ [".."]
    | "." => out
    | other => out ++ [other]) []

/-- `display`. -/
def display : Path → String
  | "/" :: rest => "/" ++ "/".intercalate rest
  | p => "/".intercalate p

/-- `starts_with`. -/
def startsWith (p base : Path) : Bool := base.isPrefixOf p

end Path

end compiler.imports
