-- Packages as the resolver sees them: versions and requirements (`version.rs`), manifests
-- (`manifest.rs`), index entries and registries (`registry.rs`), and lockfiles (`lockfile.rs`).
import Mathlib.Data.List.Basic
import Mathlib.Tactic.Linarith

namespace pkg

open Std (TreeMap)

/-! ## Versions -/

/-- What the resolver uses of the `semver` package: whether a requirement matches a version, the
comparators of a requirement (major and minor), the order of versions, and their texts. -/
structure Semver (V R : Type) where
  matchesReq : R → V → Bool
  comparators : R → List (Nat × Option Nat)
  le : V → V → Bool
  showReq : R → String
  showVersion : V → String
  parseReq : String → Except String R
  parseVersion : String → Except String V

variable {V R : Type}

/-- The greatest version, the last one of equals. -/
def newest (le : V → V → Bool) : List V → Option V
  | [] => none
  | v :: vs => some (vs.foldl (fun best v => if le best v then v else best) v)

/-- `pick_version`. -/
def pickVersion (sem : Semver V R) (reqs : List R) (available : List V) : Option V :=
  newest sem.le (available.filter fun v => reqs.all fun r => sem.matchesReq r v)

/-- `compat_key`: the major version, and for 0 the minor one, of the first comparator. -/
def compatKey (sem : Semver V R) (req : R) : Option (Nat × Nat) :=
  (sem.comparators req).head?.map fun c => if c.1 = 0 then (0, c.2.getD 0) else (c.1, 0)

theorem newest_mem {le : V → V → Bool} {vs : List V} {v : V} (h : newest le vs = some v) :
    v ∈ vs := by
  cases vs with
  | nil => cases h
  | cons first rest =>
    obtain rfl := Option.some.inj h
    clear h
    induction rest generalizing first with
    | nil => exact List.mem_cons_self
    | cons w rest ih =>
      rw [List.foldl_cons]
      split
      · exact List.mem_cons_of_mem first (ih w)
      · rcases List.mem_cons.mp (ih first) with h | h
        · rw [h]
          exact List.mem_cons_self
        · exact List.mem_cons_of_mem first (List.mem_cons_of_mem w h)

/-- The picked version is available, and each requirement matches it. -/
theorem pickVersion_spec {sem : Semver V R} {reqs : List R} {available : List V} {v : V}
    (h : pickVersion sem reqs available = some v) :
    v ∈ available ∧ ∀ r ∈ reqs, sem.matchesReq r v = true := by
  obtain ⟨hmem, hall⟩ := List.mem_filter.mp (newest_mem h)
  exact ⟨hmem, List.all_eq_true.mp hall⟩

/-! ## Manifests -/

/-- `GitRef`. -/
inductive GitRef
  | rev (rev : String)
  | branch (branch : String)
  | tag (tag : String)
  | default

/-- `DepSource`. -/
inductive DepSource
  | registry (version : String) (registry : Option String)
  | path (path : String)
  | git (url : String) (reference : GitRef)

/-- `Dependency`. -/
structure Dependency where
  source : DepSource
  features : List String
  defaultFeatures : Bool
  optional : Bool

/-- What the resolver reads of a manifest. -/
structure Manifest where
  name : String
  version : String
  defaultFeatures : List String
  dependencies : TreeMap String Dependency
  features : TreeMap String (List String)

/-! ## Registries -/

/-- `IndexDep`. -/
structure IndexDep (R : Type) where
  name : String
  req : R
  optional : Bool
  defaultFeatures : Bool
  features : List String
  registry : Option String

/-- `IndexEntry`. -/
structure IndexEntry (V R : Type) where
  name : String
  vers : V
  deps : List (IndexDep R)
  features : TreeMap String (List String)
  cksum : String
  yanked : Bool

/-- The `Registry` trait. -/
structure Registry (V R : Type) where
  name : String
  index : String → Except String (List (IndexEntry V R))
  download : IndexEntry V R → Except String (List UInt8)

/-! ## Lockfiles -/

/-- `LockSource`. -/
inductive LockSource
  | registry (index : String)
  | path (path : String)
  | git (url rev : String)
  deriving DecidableEq

/-- `LockSource::encode`. -/
def LockSource.encode : LockSource → String
  | .registry index => "registry+" ++ index
  | .path p => "path+" ++ p
  | .git url rev => "git+" ++ url ++ "#" ++ rev

/-- `LockedPackage`. -/
structure LockedPackage where
  name : String
  version : String
  source : LockSource
  checksum : Option String

/-- `Lockfile`. -/
structure Lockfile where
  version : Nat
  packages : List LockedPackage

end pkg
