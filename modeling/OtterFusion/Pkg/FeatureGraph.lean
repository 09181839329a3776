-- When the optional dependencies of a resolution are right (`resolve.rs`): what each package
-- instance declares, the features that the graph requests of it, and where a request comes too
-- late, because a path or git package is expanded once.
import OtterFusion.Pkg.Features

namespace pkg

open base.outcome
open Std (TreeMap)

variable {V R : Type}

/-! ## What an instance declares -/

/-- A dependency that an instance declares, and the instance that it is on. -/
structure Decl where
  optional : Bool
  defaultFeatures : Bool
  features : List String
  target : String

/-- The dependencies and the feature table of an instance. -/
structure Info where
  deps : List (String × Decl)
  table : TreeMap String (List String)

/-- The instance that a dependency of a manifest is on. -/
def Dependency.target (env : Env V R) (baseDir name : String) (dep : Dependency) : String :=
  match dep.source with
  | .registry version registry =>
    match env.sem.parseReq version with
    | .ok req => (ReqKey.new env.sem name (registry.getD env.defaultRegistry) req).id
    | .error _ => ""
  | .path path => pathId env.sha256Hex name (env.normalize (env.join baseDir path))
  | .git url _ => gitId env.sha256Hex name url

def Dependency.decl (env : Env V R) (baseDir name : String) (dep : Dependency) : Decl :=
  ⟨dep.optional, dep.defaultFeatures, dep.features, dep.target env baseDir name⟩

/-- The features of a manifest, with the default ones of the package. -/
def Manifest.table (m : Manifest) : TreeMap String (List String) :=
  if m.defaultFeatures.isEmpty then m.features
  else m.features.insert "default" (m.features.getD "default" [] ++ m.defaultFeatures)

def manifestInfo (env : Env V R) (m : Manifest) (dir : String) : Info :=
  ⟨m.dependencies.toList.map fun d => (d.1, d.2.decl env dir d.1), m.table⟩

def IndexDep.decl (env : Env V R) (registry : String) (d : IndexDep R) : Decl :=
  ⟨d.optional, d.defaultFeatures, d.features,
    (ReqKey.new env.sem d.name (d.registry.getD registry) d.req).id⟩

def entryInfo (env : Env V R) (registry : String) (e : IndexEntry V R) : Info :=
  ⟨e.deps.map fun d => (d.name, d.decl env registry), e.features⟩

/-- What a package declares: the index entry that it is pinned to, or its manifest on disk. -/
def packageInfo (env : Env V R) (p : ResolvedInternal V R) : Option Info :=
  match p.entry with
  | some e =>
    match p.source with
    | .registry registry => some (entryInfo env registry e)
    | _ => none
  | none =>
    match loadManifest env p.root (.path p.name) with
    | .ok m => some (manifestInfo env m p.root)
    | .error _ => none

/-- What an instance declares, when the packages are found by their ids like this. -/
def infoOf (env : Env V R) (root : Manifest) (rootDir : String)
    (find : String → Option (ResolvedInternal V R)) (id : String) : Option Info :=
  if id = rootId root.name then some (manifestInfo env root rootDir)
  else (find id).bind (packageInfo env)

/-! ## The fixpoint -/

/-- An instance depends on another one under a name. -/
def EdgeIn (edges : TreeMap String (TreeMap String String)) (parent name id : String) : Prop :=
  (edges.getD parent {})[name]? = some id

/-- A feature is active for an instance: the closure of what its dependents request of it. -/
inductive ActiveIn (info : String → Option Info) (edges : TreeMap String (TreeMap String String))
    (root : String) : String → String → Prop
  | root : ActiveIn info edges root root "default"
  | declared {parent name id f : String} {i : Info} {d : Decl} : EdgeIn edges parent name id →
      info parent = some i → (name, d) ∈ i.deps →
      f ∈ d.features ∨ (d.defaultFeatures = true ∧ f = "default") →
      ActiveIn info edges root id f
  | passed {parent name id g f item : String} {i : Info} {items : List String} :
      EdgeIn edges parent name id → info parent = some i → ActiveIn info edges root parent g →
      i.table[g]? = some items → item ∈ items → parseItem item = .depFeature name f →
      ActiveIn info edges root id f
  | item {id g f item : String} {i : Info} {items : List String} : info id = some i →
      ActiveIn info edges root id g → i.table[g]? = some items → item ∈ items →
      parseItem item = .feature f → ActiveIn info edges root id f

/-- The instances of an answer: the root and the packages. -/
def Resolved.Has (res : Resolved V R) (id : String) : Prop :=
  id = res.rootId ∨ ∃ p ∈ res.packages, p.id = id

/-- Each instance of an answer declares its dependencies somewhere, and an optional one is in the
graph exactly when an active feature of the instance turns it on. -/
def FeaturesAtFixpoint (env : Env V R) (root : Manifest) (rootDir : String)
    (res : Resolved V R) : Prop :=
  ∀ id, res.Has id → ∃ i, infoOf env root rootDir res.getById id = some i ∧
    ∀ name d, (name, d) ∈ i.deps → d.optional = true →
      (EdgeIn res.dependencyEdges id name d.target ↔
        Enables i.table (ActiveIn (infoOf env root rootDir res.getById) res.dependencyEdges
          res.rootId id) name)

/-! ## The condition -/

/-- The features requested of an instance in `t` turn on no more of its optional dependencies, and
no more features of its dependencies, than those requested in `r`. -/
structure SameEffect (i : Info) (r t : List String) : Prop where
  grows : ∀ f ∈ r, f ∈ t
  optional : ∀ name d, (name, d) ∈ i.deps → d.optional = true →
    Enables i.table (· ∈ t) name → Enables i.table (· ∈ r) name
  passed : ∀ name d, (name, d) ∈ i.deps → ∀ f, TurnsOn i.table (· ∈ t) (.depFeature name f) →
    TurnsOn i.table (· ∈ r) (.depFeature name f)

/-- The run when a dependency on a path or git package has been recorded and its features
requested. -/
def Run.enter (r : Run V R) (plan : FeaturePlan) (direct : Bool) (parent name id : String)
    (dep : Dependency) : Run V R :=
  ((r.recordDependency parent name id).markDirect direct id).requestDependencyFeatures id
    dep.defaultFeatures dep.features plan.depFeatures[name]?

/-- The revision that is fetched for a git dependency: the locked one, or the one asked for. -/
def fetchedRef (env : Env V R) (name url : String) (reference : GitRef) : GitRef :=
  let lockedRef := match (lockedGit env name url).map LockedPackage.source with
    | some (.git _ rev) => some (GitRef.rev rev)
    | _ => none
  lockedRef.getD reference

/-- A path or git dependency leads to the package `p`, whose manifest in `dir` is `m`. -/
def Opens (env : Env V R) (baseDir : String) (direct : Bool) (name : String) (dep : Dependency)
    (p : ResolvedInternal V R) (m : Manifest) (dir : String) : Prop :=
  (∃ path, dep.source = .path path ∧ dir = env.normalize (env.join baseDir path) ∧
    loadManifest env dir (.path name) = .ok m ∧
    p = ⟨pathId env.sha256Hex name dir, name, m.version, .path path, dir, direct, none, none⟩) ∨
  ∃ url reference checkout, dep.source = .git url reference ∧
    env.gitFetch url (fetchedRef env name url reference) = .ok checkout ∧ dir = checkout.root ∧
    loadManifest env dir (.git name) = .ok m ∧
    p = ⟨gitId env.sha256Hex name url, name, m.version, .git url checkout.rev, dir, direct,
      some checkout.checksum, none⟩

/-- The condition on one dependency of a manifest: a request to a path or git package that was
expanded before comes with no feature that would turn on more, and the condition holds of the
manifests that a new one leads to. -/
def DepCondition (env : Env V R) (cond : Run V R → Manifest → String → Bool → String → Prop)
    (plan : FeaturePlan) (dir : String) (direct : Bool) (parent : String) (r : Run V R)
    (d : String × Dependency) : Prop :=
  (d.2.optional && !plan.optionalDeps.contains d.1) = false → (∀ v g, d.2.source ≠ .registry v g) →
    let id := d.2.target env dir d.1
    let s := r.enter plan direct parent d.1 id d.2
    (∀ p i, r.resolved[id]? = some p → packageInfo env p = some i →
      SameEffect i (r.requestedFeatures id) (s.requestedFeatures id)) ∧
    ∀ p m' dir', r.resolved.contains id = false → Opens env dir direct d.1 d.2 p m' dir' →
      cond { s with resolved := s.resolved.insert id p } m' dir' false id

/-- The condition on the dependencies of a manifest, and of those it leads to. -/
def NoLateFeatures (env : Env V R) : Nat → Run V R → Manifest → String → Bool → String → Prop
  | 0, _, _, _, _, _ => True
  | n + 1, r, m, dir, direct, parent =>
    ∀ plan, fromManifest n m (r.requestedFeatures parent) = .ok plan →
      EachTurn (DepCondition env (NoLateFeatures env n) plan dir direct parent)
        (fun r d => seedDep env (seed env n) plan dir direct parent r d.1 d.2) r
        m.dependencies.toList

end pkg
