-- The dependency resolver (`resolve.rs`): the requirements of the root manifest go on a worklist,
-- a package instance is pinned to one version, and the requirements of what is pinned are folded
-- in, until nothing is left to pin.
import Mathlib.Data.List.Sort
import OtterFusion.Base.Outcome
import OtterFusion.Pkg.Package

namespace pkg

open Std (TreeMap)

variable {V R : Type}

/-! ## Errors -/

/-- `ResolveError`. -/
inductive ResolveError
  | noMatch (name : String) (reqs : List String)
  | unknownRegistry (name registry : String)
  | path (name message : String)
  | git (name message : String)
  | feature (package message : String)
  | backend (message : String)
  deriving DecidableEq

/-- Why a resolution stops without a result: an error, a panic, or the fuel of the model is used
up. -/
inductive Stop
  | failed (e : ResolveError)
  | panicked (message : String)
  | outOfFuel
  deriving DecidableEq

/-- A part of a resolution. -/
abbrev Res (A : Type) := Except Stop A

/-- The error `e`. -/
def fail {A : Type} (e : ResolveError) : Res A := .error (.failed e)

/-! ## Features -/

/-- `BTreeSet::insert`: a set of names is the sorted list of them. -/
def addName (names : List String) (name : String) : List String :=
  if name ∈ names then names else names.orderedInsert (· ≤ ·) name

/-- `BTreeSet::extend`. -/
def addNames (names more : List String) : List String := more.foldl addName names

/-- `str::split_once` at a slash. -/
def splitOnce (item : String) : Option (String × String) :=
  match item.splitOn "/" with
  | before :: next :: more => some (before, "/".intercalate (next :: more))
  | _ => none

/-- `FeaturePlan`. -/
structure FeaturePlan where
  optionalDeps : List String
  depFeatures : TreeMap String (List String)

/-- What one item of a feature adds to the plan and to the stack. -/
def planItem (package feature item : String) (deps : TreeMap String Bool)
    (features : TreeMap String (List String)) (plan : FeaturePlan) (stack : List String) :
    Res (FeaturePlan × List String) :=
  match item.dropPrefix? "dep:" with
  | some rest =>
    let dep := rest.toString
    if dep.isEmpty || dep.toList.contains '/' then
      fail (.feature package ("invalid dependency feature entry `" ++ item ++ "`"))
    else
      match deps[dep]? with
      | some true => .ok ({ plan with optionalDeps := addName plan.optionalDeps dep }, stack)
      | some false => .ok (plan, stack)
      | none => fail (.feature package
          ("feature `" ++ feature ++ "` references unknown dependency `" ++ dep ++ "`"))
  | none =>
    match splitOnce item with
    | some (dep, depFeature) =>
      if dep.isEmpty || depFeature.isEmpty then
        fail (.feature package ("invalid dependency feature entry `" ++ item ++ "`"))
      else
        match deps[dep]? with
        | some optional =>
          .ok ({ optionalDeps :=
                  if optional then addName plan.optionalDeps dep else plan.optionalDeps
                 depFeatures := plan.depFeatures.insert dep
                  (addName (plan.depFeatures.getD dep []) depFeature) }, stack)
        | none => fail (.feature package
            ("feature `" ++ feature ++ "` references unknown dependency `" ++ dep ++ "`"))
    | none =>
      if features.contains item then .ok (plan, item :: stack)
      else fail (.feature package
        ("feature `" ++ feature ++ "` references unknown feature `" ++ item ++ "`"))

/-- The loop of `from_dependency_flags`. The head of the list is the top of the stack. -/
def planLoop (package : String) (deps : TreeMap String Bool)
    (features : TreeMap String (List String)) :
    Nat → FeaturePlan → List String → List String → Res FeaturePlan
  | _, plan, _, [] => .ok plan
  | 0, _, _, _ :: _ => .error .outOfFuel
  | n + 1, plan, seen, feature :: stack =>
    if feature ∈ seen then planLoop package deps features n plan seen stack
    else
      match features[feature]? with
      | none =>
        if feature = "default" then
          planLoop package deps features n plan (feature :: seen) stack
        else fail (.feature package ("unknown feature `" ++ feature ++ "`"))
      | some items => do
        let (plan, stack) ← items.foldlM
          (fun s item => planItem package feature item deps features s.1 s.2) (plan, stack)
        planLoop package deps features n plan (feature :: seen) stack

/-- `from_dependency_flags`: the last requested feature is on top of the stack. -/
def fromDependencyFlags (fuel : Nat) (package : String) (deps : TreeMap String Bool)
    (features : TreeMap String (List String)) (requested : List String) : Res FeaturePlan :=
  planLoop package deps features fuel ⟨[], {}⟩ [] requested.reverse

/-- `from_manifest`. -/
def fromManifest (fuel : Nat) (m : Manifest) (requested : List String) : Res FeaturePlan :=
  let flags := m.dependencies.foldl (fun flags name dep => flags.insert name dep.optional) {}
  let features := if m.defaultFeatures.isEmpty then m.features
    else m.features.insert "default" (m.features.getD "default" [] ++ m.defaultFeatures)
  fromDependencyFlags fuel m.name flags features requested

/-- `from_index`. -/
def fromIndex (fuel : Nat) (e : IndexEntry V R) (requested : List String) : Res FeaturePlan :=
  let flags := e.deps.foldl (fun flags d => flags.insert d.name d.optional) {}
  fromDependencyFlags fuel e.name flags e.features requested

/-! ## The run -/

/-- What a checkout of a git dependency gives. -/
structure Checkout where
  root : String
  rev : String
  checksum : String

/-- All that a resolution reads: the versions, the registries and the default one, the store, the
existing lockfile, the hash, the paths and files, the parser of manifests, and git. -/
structure Env (V R : Type) where
  sem : Semver V R
  registries : String → Option (Registry V R)
  defaultRegistry : String
  extract : List UInt8 → String → Except String String
  existing : Option Lockfile
  sha256Hex : String → String
  join : String → String → String
  normalize : String → String
  readToString : String → Except String String
  parseManifest : String → Except String Manifest
  gitFetch : String → GitRef → Except String Checkout

/-- `ReqKey`. -/
structure ReqKey where
  id : String
  name : String
  registry : String
  compat : String

/-- `ReqKey::new`. -/
def ReqKey.new (sem : Semver V R) (name registry : String) (req : R) : ReqKey :=
  let compat := match compatKey sem req with
    | some (major, minor) => toString major ++ "." ++ toString minor
    | none => "req:" ++ sem.showReq req
  ⟨"registry:" ++ registry ++ ":" ++ name ++ ":" ++ compat, name, registry, compat⟩

/-- `root_id`. -/
def rootId (name : String) : String := "root:" ++ name

/-- `path_id`. -/
def pathId (sha256Hex : String → String) (name path : String) : String :=
  "path:" ++ name ++ ":" ++ ((sha256Hex path).take 16).toString

/-- `git_id`. -/
def gitId (sha256Hex : String → String) (name url : String) : String :=
  "git:" ++ name ++ ":" ++ ((sha256Hex url).take 16).toString

/-- `ResolvedInternal`. A registry package has the index entry that it is pinned to, whose
version is `version` as a text. -/
structure ResolvedInternal (V R : Type) where
  id : String
  name : String
  version : String
  source : LockSource
  root : String
  direct : Bool
  checksumHint : Option String
  entry : Option (IndexEntry V R)

/-- A dependency of a package instance on a registry package, with the requirement that the
manifest or the index entry of the parent declares for it. -/
structure Edge (R : Type) where
  parent : String
  name : String
  req : R
  target : String

/-- `Run`, without what a resolution only reads. The last field is not in the source: `declared`
are the edges that the manifests and the pinned index entries declare. -/
structure Run (V R : Type) where
  rootId : String
  reqs : TreeMap String (List R)
  reqKeys : TreeMap String ReqKey
  featuresOf : TreeMap String (List String)
  processedFeatures : TreeMap String (List String)
  resolved : TreeMap String (ResolvedInternal V R)
  direct : List String
  edges : TreeMap String (List String)
  dependencyEdges : TreeMap String (TreeMap String String)
  declared : List (Edge R)

/-- `record_dependency`. -/
def Run.recordDependency (r : Run V R) (parent name target : String) : Run V R :=
  { r with
    edges := r.edges.insert parent (r.edges.getD parent [] ++ [target])
    dependencyEdges := r.dependencyEdges.insert parent
      ((r.dependencyEdges.getD parent {}).insert name target) }

/-- `requested_features`. -/
def Run.requestedFeatures (r : Run V R) (id : String) : List String := r.featuresOf.getD id []

/-- `request_default_features`. -/
def Run.requestDefaultFeatures (r : Run V R) (id : String) : Run V R :=
  { r with featuresOf := r.featuresOf.insert id (addName (r.requestedFeatures id) "default") }

/-- `request_dependency_features`. -/
def Run.requestDependencyFeatures (r : Run V R) (id : String) (defaultFeatures : Bool)
    (features : List String) (fromParent : Option (List String)) : Run V R :=
  let names := r.requestedFeatures id
  let names := if defaultFeatures then addName names "default" else names
  let names := addNames names features
  let names := addNames names (fromParent.getD [])
  { r with featuresOf := r.featuresOf.insert id names }

/-- A requirement is folded in: it joins the requirements of its target, and the edge is
recorded. -/
def Run.require (r : Run V R) (parent name : String) (key : ReqKey) (req : R) : Run V R :=
  { r.recordDependency parent name key.id with
    reqs := r.reqs.insert key.id (r.reqs.getD key.id [] ++ [req])
    reqKeys := r.reqKeys.insertIfNew key.id key
    declared := r.declared ++ [⟨parent, name, req, key.id⟩] }

/-- `self.direct.insert`. -/
def Run.markDirect (r : Run V R) (direct : Bool) (id : String) : Run V R :=
  if direct then { r with direct := r.direct ++ [id] } else r

/-! ## Manifests on disk -/

/-- How a manifest is folded in (`seed`): the run, the manifest, its directory, whether it is the
root manifest, and the instance that it belongs to. -/
abbrev Seed (V R : Type) := Run V R → Manifest → String → Bool → String → Res (Run V R)

/-- The manifest in a directory, with the error of this kind of dependency. -/
def loadManifest (env : Env V R) (dir : String) (error : String → ResolveError) : Res Manifest := do
  let path := env.join dir "project.toml"
  let text ← (env.readToString path).mapError fun e =>
    .failed (error ("cannot read " ++ path ++ ": " ++ e))
  (env.parseManifest text).mapError fun e => .failed (error e)

/-- `resolve_path_dep`. -/
def resolvePathDep (env : Env V R) (again : Seed V R) (r : Run V R) (id name path depDir : String)
    (direct : Bool) : Res (Run V R) :=
  if r.resolved.contains id then .ok r
  else do
    let manifest ← loadManifest env depDir (.path name)
    let package : ResolvedInternal V R :=
      ⟨id, name, manifest.version, .path path, depDir, direct, none, none⟩
    again { r with resolved := r.resolved.insert id package } manifest depDir false id

/-- The locked package of a git dependency. -/
def lockedGit (env : Env V R) (name url : String) : Option LockedPackage :=
  env.existing.bind fun lock => lock.packages.find? fun p =>
    p.name == name && match p.source with
      | .git lockedUrl _ => lockedUrl == url
      | _ => false

/-- The checksum in the lock is the one of the checkout. -/
def checkChecksum (name : String) (expected : Option String) (checksum : String) : Res Unit :=
  match expected with
  | some expected =>
    if expected ≠ checksum then
      fail (.git name ("checksum mismatch: expected " ++ expected ++ ", got " ++ checksum))
    else .ok ()
  | none => .ok ()

/-- `resolve_git_dep`. -/
def resolveGitDep (env : Env V R) (again : Seed V R) (r : Run V R) (id name url : String)
    (reference : GitRef) (direct : Bool) : Res (Run V R) :=
  if r.resolved.contains id then .ok r
  else do
    let locked := lockedGit env name url
    let lockedRef := match locked.map LockedPackage.source with
      | some (.git _ rev) => some (GitRef.rev rev)
      | _ => none
    let checkout ← (env.gitFetch url (lockedRef.getD reference)).mapError fun e =>
      .failed (.git name e)
    checkChecksum name (locked.bind LockedPackage.checksum) checkout.checksum
    let manifest ← loadManifest env checkout.root (.git name)
    let package : ResolvedInternal V R :=
      ⟨id, name, manifest.version, .git url checkout.rev, checkout.root, direct,
        some checkout.checksum, none⟩
    again { r with resolved := r.resolved.insert id package } manifest checkout.root false id

/-- One dependency of a manifest. -/
def seedDep (env : Env V R) (again : Seed V R) (plan : FeaturePlan) (baseDir : String)
    (direct : Bool) (parent : String) (r : Run V R) (name : String) (dep : Dependency) :
    Res (Run V R) :=
  if dep.optional && !plan.optionalDeps.contains name then .ok r
  else
    let fromParent := plan.depFeatures[name]?
    match dep.source with
    | .registry version registry => do
      let req ← (env.sem.parseReq version).mapError fun e => .failed (.backend e)
      let key := ReqKey.new env.sem name (registry.getD env.defaultRegistry) req
      let r := r.require parent name key req
      let r := r.requestDependencyFeatures key.id dep.defaultFeatures dep.features fromParent
      .ok (r.markDirect direct key.id)
    | .path path =>
      let depDir := env.normalize (env.join baseDir path)
      let id := pathId env.sha256Hex name depDir
      let r := (r.recordDependency parent name id).markDirect direct id
      let r := r.requestDependencyFeatures id dep.defaultFeatures dep.features fromParent
      resolvePathDep env again r id name path depDir direct
    | .git url reference =>
      let id := gitId env.sha256Hex name url
      let r := (r.recordDependency parent name id).markDirect direct id
      let r := r.requestDependencyFeatures id dep.defaultFeatures dep.features fromParent
      resolveGitDep env again r id name url reference direct

/-- `seed`, with fuel for the manifests that lead to others. -/
def seed (env : Env V R) : Nat → Seed V R
  | 0, _, _, _, _, _ => .error .outOfFuel
  | n + 1, r, manifest, baseDir, direct, parent => do
    let plan ← fromManifest n manifest (r.requestedFeatures parent)
    manifest.dependencies.toList.foldlM
      (fun r d => seedDep env (seed env n) plan baseDir direct parent r d.1 d.2) r

/-! ## Registry packages -/

/-- One dependency of a pinned index entry. -/
def foldDep (env : Env V R) (plan : FeaturePlan) (id registry : String) (r : Run V R)
    (d : IndexDep R) : Run V R :=
  if d.optional && !plan.optionalDeps.contains d.name then r
  else
    let key := ReqKey.new env.sem d.name (d.registry.getD registry) d.req
    (r.require id d.name key d.req).requestDependencyFeatures key.id d.defaultFeatures d.features
      plan.depFeatures[d.name]?

/-- The instance is pinned to an entry: what its earlier entry declared is forgotten. -/
def Run.pin (r : Run V R) (id : String) (p : ResolvedInternal V R) : Run V R :=
  { r with
    resolved := r.resolved.insert id p
    declared := r.declared.filter fun e => e.parent != id }

/-- `pin_registry`. -/
def pinRegistry (env : Env V R) (fuel : Nat) (r : Run V R) (id : String) (key : ReqKey)
    (entry : IndexEntry V R) (registry : Registry V R) : Res (Run V R) := do
  let tarball ← (registry.download entry).mapError fun e => .failed (.backend e)
  let checksum := "sha256:" ++ entry.cksum
  let root ← (env.extract tarball checksum).mapError fun e => .failed (.backend e)
  let r := r.pin id ⟨id, key.name, env.sem.showVersion entry.vers, .registry registry.name, root,
    r.direct.contains id, some checksum, some entry⟩
  let requested := r.requestedFeatures id
  let plan ← fromIndex fuel entry requested
  let r := { r with processedFeatures := r.processedFeatures.insert id requested }
  .ok (entry.deps.foldl (foldDep env plan id key.registry) r)

variable [DecidableEq V]

/-- The entry that an existing lock holds the instance to, when it meets all requirements. -/
def lockedEntry (env : Env V R) (key : ReqKey) (registry : Registry V R)
    (entries : List (IndexEntry V R)) (reqs : List R) : Option (IndexEntry V R) := do
  let lock ← env.existing.bind fun lock => lock.packages.find? fun p =>
    p.name == key.name && decide (p.source = .registry registry.name)
  let v ← (env.sem.parseVersion lock.version).toOption
  if reqs.all fun r => env.sem.matchesReq r v then
    entries.find? fun e => decide (e.vers = v) && !e.yanked
  else none

/-- The entry to pin: the one that the lock holds the instance to, or else the newest version that
meets all requirements. -/
def chooseEntry (env : Env V R) (key : ReqKey) (registry : Registry V R)
    (entries : List (IndexEntry V R)) (reqs : List R) : Res (IndexEntry V R) :=
  match lockedEntry env key registry entries reqs with
  | some entry => .ok entry
  | none =>
    match pickVersion env.sem reqs ((entries.filter fun e => !e.yanked).map IndexEntry.vers) with
    | none => fail (.noMatch key.name (reqs.map env.sem.showReq))
    | some picked =>
      match entries.find? fun e => decide (e.vers = picked) with
      | some entry => .ok entry
      | none => .error (.panicked "picked version is in the index")

/-- The registry of a request. -/
def findRegistry (env : Env V R) (key : ReqKey) : Res (Registry V R) :=
  match env.registries key.registry with
  | some registry => .ok registry
  | none => fail (.unknownRegistry key.name key.registry)

/-- `resolve_registry_dep`. -/
def resolveRegistryDep (env : Env V R) (fuel : Nat) (r : Run V R) (id : String) :
    Res (Run V R) :=
  match r.reqKeys[id]? with
  | none => fail (.backend ("missing request key for `" ++ id ++ "`"))
  | some key => do
    let registry ← findRegistry env key
    let entries ← (registry.index key.name).mapError fun e => .failed (.backend e)
    if entries.isEmpty then fail (.noMatch key.name ((r.reqs.getD id []).map env.sem.showReq))
    else do
      let entry ← chooseEntry env key registry entries (r.reqs.getD id [])
      pinRegistry env fuel r id key entry registry

/-- The instances that are not pinned yet, or whose requested features have changed. -/
def Run.pending (r : Run V R) : List String :=
  r.reqs.keys.filter fun id =>
    !r.resolved.contains id ||
      decide (r.processedFeatures[id]? ≠ some (r.requestedFeatures id))

/-- `run`, with fuel for its rounds. -/
def runLoop (env : Env V R) : Nat → Run V R → Res (Run V R)
  | 0, _ => .error .outOfFuel
  | n + 1, r =>
    let pending := r.pending
    if pending.isEmpty then .ok r
    else do
      let r ← pending.foldlM (resolveRegistryDep env n) r
      runLoop env n r

/-! ## The result -/

/-- `Resolved`, with the edges that the manifests and index entries declare. -/
structure Resolved (V R : Type) where
  lockfile : Lockfile
  packages : List (ResolvedInternal V R)
  edges : TreeMap String (List String)
  dependencyEdges : TreeMap String (TreeMap String String)
  rootName : String
  rootId : String
  declared : List (Edge R)

/-- `get_by_id`. -/
def Resolved.getById (r : Resolved V R) (id : String) : Option (ResolvedInternal V R) :=
  r.packages.find? fun p => p.id == id

/-- The order of packages in the result: by name, version and source. -/
def packageLe (a b : ResolvedInternal V R) : Bool :=
  decide (a.name < b.name) || (a.name == b.name &&
    (decide (a.version < b.version) || (a.version == b.version &&
      decide (a.source.encode ≤ b.source.encode))))

/-- The locked form of a package. -/
def lockedPackage (p : ResolvedInternal V R) : LockedPackage :=
  ⟨p.name, p.version, p.source, match p.source with
    | .path _ => none
    | _ => p.checksumHint⟩

/-- A run before anything is seeded. -/
def Run.start (V R : Type) (root : String) : Run V R :=
  ⟨root, {}, {}, {}, {}, {}, [], {}, {}, []⟩

/-- `resolve`, with fuel. -/
def resolve (env : Env V R) (fuel : Nat) (root : Manifest) (rootDir : String) :
    Res (Resolved V R) := do
  let id := rootId root.name
  let r := (Run.start V R id).requestDefaultFeatures id
  let r ← seed env fuel r root rootDir true id
  let r ← runLoop env fuel r
  let packages := (r.resolved.toList.map Prod.snd).insertionSort fun a b => packageLe a b = true
  .ok {
    lockfile := ⟨4, packages.map lockedPackage⟩
    packages := packages
    edges := r.edges.map fun _ targets => (targets.insertionSort (· ≤ ·)).dedup
    dependencyEdges := r.dependencyEdges
    rootName := root.name
    rootId := id
    declared := r.declared }

end pkg
