-- The lockfile as text (`lockfile.rs`): `to_toml`, `parse`, and the `source` strings. The `toml`
-- crate is a parameter: it reads a text into the `serde` shape of a lockfile.
import Mathlib.Data.Prod.Lex
import Mathlib.Data.String.Basic
import OtterFusion.Base.Toml
import OtterFusion.Pkg.Package

open base.trapping base.toml

namespace pkg

/-! ## Sources -/

/-- `LockError`. -/
inductive LockError
  | toml (message : String)
  | parse (message : String)
  deriving DecidableEq

/-- `str::strip_prefix`. -/
def stripPrefix (s front : String) : Option String :=
  (front.toList.isPrefixOf? s.toList).map String.ofList

/-- `str::split_once` at a hash. -/
def splitHash (s : String) : Option (String × String) :=
  match s.toList.dropWhile (· ≠ '#') with
  | [] => none
  | _ :: next => some (String.ofList (s.toList.takeWhile (· ≠ '#')), String.ofList next)

/-- `LockSource::decode`. -/
def LockSource.decode (s : String) : Except LockError LockSource :=
  match stripPrefix s "registry+" with
  | some rest => .ok (.registry rest)
  | none => match stripPrefix s "path+" with
    | some rest => .ok (.path rest)
    | none => match stripPrefix s "git+" with
      | some rest => match splitHash rest with
        | some (url, rev) => .ok (.git url rev)
        | none => .error (.parse ("git source `" ++ rest ++ "` is missing a `#<rev>` pin"))
      | none => .error (.parse ("unknown source form `" ++ s ++ "`"))

/-! ## Writing -/

/-- `str::replace` of a character. -/
def replace (s : String) (c : Char) (new : String) : String :=
  String.ofList (s.toList.flatMap fun d => if d = c then new.toList else [d])

/-- `toml_str`. -/
def tomlStr (s : String) : String :=
  let escaped := replace (replace s '\\' "\\\\") '"' "\\\""
  "\"" ++ escaped ++ "\""

/-- What packages are sorted by. -/
def LockedPackage.key (p : LockedPackage) : String ×ₗ String ×ₗ String :=
  toLex (p.name, toLex (p.version, p.source.encode))

/-- `sort`. -/
def Lockfile.sort (l : Lockfile) : Lockfile :=
  { l with packages := l.packages.mergeSort fun a b => a.key ≤ b.key }

/-- The text of one package. -/
def LockedPackage.toToml (p : LockedPackage) : String :=
  "\n[[package]]\n" ++ ("name     = " ++ tomlStr p.name ++ "\n") ++
    ("version  = " ++ tomlStr p.version ++ "\n") ++
    ("source   = " ++ tomlStr p.source.encode ++ "\n") ++
    match p.checksum with
    | some c => "checksum = " ++ tomlStr c ++ "\n"
    | none => ""

/-- `to_toml`. -/
def Lockfile.toToml (l : Lockfile) : String :=
  l.sort.packages.foldl (fun out p => out ++ p.toToml)
    ("# This file is generated by otter_fusion; do not edit.\n" ++
      ("version = " ++ toString l.version ++ "\n"))

/-! ## Reading -/

/-- `LOCKFILE_VERSION`. -/
def lockfileVersion : Nat := 4

/-- `RawLockPackage`. -/
structure RawLockPackage where
  name : String
  version : String
  source : String
  checksum : Option String
  deriving DecidableEq

/-- `RawLock`. -/
structure RawLock where
  version : Nat
  package : List RawLockPackage
  deriving DecidableEq

/-- A package that `parse` reads. -/
def RawLockPackage.locked (p : RawLockPackage) : Except LockError LockedPackage := do
  return { name := p.name, version := p.version, source := ← LockSource.decode p.source,
           checksum := p.checksum }

/-- `parse`. -/
def Lockfile.parse (fromStr : String → Except String RawLock) (text : String) :
    Except LockError Lockfile := do
  let raw ← (fromStr text).mapError LockError.toml
  let packages ← raw.package.mapM RawLockPackage.locked
  return ({ version := raw.version, packages := packages } : Lockfile).sort

/-! ## The shape of a lockfile -/

/-- A `String` of a table. -/
def stringField (t : Table) (key : String) : Option String :=
  match t.lookup key.toList with
  | some (.string s) => some (String.ofList s)
  | _ => none

/-- A table as a `RawLockPackage`. -/
def RawLockPackage.ofTable (t : Table) : Option RawLockPackage := do
  let checksum ← match t.lookup "checksum".toList with
    | none => some none
    | some (.string s) => some (some (String.ofList s))
    | some (.integer _) => none
  return { name := ← stringField t "name", version := ← stringField t "version",
           source := ← stringField t "source", checksum := checksum }

/-- A document as a `RawLock`: a `u32`, and an array of packages, either of which may be missing. -/
def RawLock.ofDocument (d : Document) : Option RawLock := do
  let version ← match d.root.lookup "version".toList with
    | none => some lockfileVersion
    | some (.integer n) => if n < 2 ^ 32 then some n else none
    | some (.string _) => none
  if d.root.lookup "package".toList ≠ none ∨ d.tables.any fun t => t.1 = "version".toList then none
  let tables := (d.tables.filter fun t => t.1 = "package".toList).reverse
  return { version := version, package := ← tables.mapM fun t => RawLockPackage.ofTable t.2 }

/-- `toml::from_str` reads TOML as specified: the documents that the reader decides have their
shape, and what is no TOML is no lockfile. Nothing is said of the texts that the reader leaves open.
-/
structure ReadsToml (fromStr : String → Except String RawLock) : Prop where
  document : ∀ text d, base.toml.read text.toList = .value d →
    ∀ raw, fromStr text = .ok raw ↔ RawLock.ofDocument d = some raw
  malformed : ∀ text e, base.toml.read text.toList = .error e → ∀ raw, fromStr text ≠ .ok raw

end pkg
