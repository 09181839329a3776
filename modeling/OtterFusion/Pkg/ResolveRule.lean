-- The rule for the invariants of a resolution (`resolve.rs`): what each way to change a run
-- keeps, a whole resolution keeps.
import OtterFusion.Pkg.Resolve

namespace pkg

open base.outcome
open Std (TreeMap)

variable {V R : Type}

theorem getElem?_insert_eq {B : Type} (m : TreeMap String B) (k a : String) (v : B) :
    (m.insert k v)[a]? = if k = a then some v else m[a]? := by
  rw [TreeMap.getElem?_insert]
  simp only [Std.compare_eq_iff_eq]

theorem getD_insert_eq {B : Type} (m : TreeMap String B) (k a : String) (v d : B) :
    (m.insert k v).getD a d = if k = a then v else m.getD a d := by
  rw [TreeMap.getD_insert]
  simp only [Std.compare_eq_iff_eq]

theorem mem_insert_eq {B : Type} (m : TreeMap String B) (k a : String) (v : B) :
    a ∈ m.insert k v ↔ k = a ∨ a ∈ m := by
  rw [TreeMap.mem_insert]
  simp only [Std.compare_eq_iff_eq]

/-- The values of a map, in some order. -/
theorem mem_sorted_values {B : Type} {m : TreeMap String B} {le : B → B → Prop} [DecidableRel le]
    {b : B} : b ∈ (m.toList.map Prod.snd).insertionSort le ↔ ∃ k : String, m[k]? = some b := by
  rw [List.mem_insertionSort, List.mem_map]
  constructor
  · rintro ⟨⟨k, c⟩, hmem, rfl⟩
    exact ⟨k, TreeMap.mem_toList_iff_getElem?_eq_some.mp hmem⟩
  · rintro ⟨k, hk⟩
    exact ⟨(k, b), TreeMap.mem_toList_iff_getElem?_eq_some.mpr hk, rfl⟩

/-- A package is found by its id. -/
theorem find_by_id {m : TreeMap String (ResolvedInternal V R)} {l : List (ResolvedInternal V R)}
    (hids : ∀ (id : String) (p : ResolvedInternal V R), m[id]? = some p → p.id = id)
    (hmem : ∀ p, p ∈ l ↔ ∃ id : String, m[id]? = some p) {id : String}
    {p : ResolvedInternal V R} (hp : m[id]? = some p) :
    l.find? (fun q => q.id == id) = some p := by
  have hfound : (l.find? fun q => q.id == id).isSome = true := by
    rw [List.find?_isSome]
    exact ⟨p, (hmem p).mpr ⟨id, hp⟩, beq_iff_eq.mpr (hids id p hp)⟩
  obtain ⟨q, hq⟩ := Option.isSome_iff_exists.mp hfound
  obtain ⟨k, hk⟩ := (hmem q).mp (List.mem_of_find?_eq_some hq)
  have hqid := List.find?_some hq
  have hkid : k = id := (hids k q hk).symm.trans (beq_iff_eq.mp hqid)
  subst hkid
  rw [hq, ← hk, hp]

/-- The packages are found by their ids, and no others are. -/
theorem find_by_id_eq {m : TreeMap String (ResolvedInternal V R)}
    {l : List (ResolvedInternal V R)}
    (hids : ∀ (id : String) (p : ResolvedInternal V R), m[id]? = some p → p.id = id)
    (hmem : ∀ p, p ∈ l ↔ ∃ id : String, m[id]? = some p) (id : String) :
    l.find? (fun q => q.id == id) = m[id]? := by
  cases hm : m[id]? with
  | some p => exact find_by_id hids hmem hm
  | none =>
    rw [List.find?_eq_none]
    intro q hq hid
    obtain ⟨k, hk⟩ := (hmem q).mp hq
    have hkid : k = id := (hids k q hk).symm.trans (beq_iff_eq.mp hid)
    rw [hkid, hm] at hk
    cases hk

/-! ## The choice of an entry -/

/-- A registry has the name that it is declared with. -/
def Named (env : Env V R) : Prop :=
  ∀ k registry, env.registries k = some registry → registry.name = k

theorem findRegistry_ok {env : Env V R} {key : ReqKey} {registry : Registry V R}
    (h : findRegistry env key = .ok registry) :
    env.registries key.registry = some registry := by
  unfold findRegistry at h
  split at h
  · rename_i found hfound
    cases h
    exact hfound
  · cases h


section choice

variable [DecidableEq V] {env : Env V R} {key : ReqKey} {registry : Registry V R}
  {entries : List (IndexEntry V R)} {reqs : List R} {entry : IndexEntry V R}

/-- The entry from the lock meets all requirements. -/
theorem lockedEntry_meets (h : lockedEntry env key registry entries reqs = some entry) :
    ∀ q ∈ reqs, env.sem.matchesReq q entry.vers = true := by
  unfold lockedEntry at h
  obtain ⟨lock, _, h⟩ := Option.bind_eq_some_iff.mp h
  obtain ⟨v, _, h⟩ := Option.bind_eq_some_iff.mp h
  split at h
  · rename_i hall
    have hvers : entry.vers = v := by
      have hfound := List.find?_some h
      rw [Bool.and_eq_true] at hfound
      exact of_decide_eq_true hfound.1
    rw [hvers]
    exact List.all_eq_true.mp hall
  · cases h

/-- The entry that is pinned meets all requirements. -/
theorem chooseEntry_meets (h : chooseEntry env key registry entries reqs = .ok entry) :
    ∀ q ∈ reqs, env.sem.matchesReq q entry.vers = true := by
  unfold chooseEntry at h
  cases hlocked : lockedEntry env key registry entries reqs with
  | some locked =>
    rw [hlocked] at h
    cases h
    exact lockedEntry_meets hlocked
  | none =>
    rw [hlocked] at h
    dsimp only at h
    split at h
    · cases h
    · rename_i picked hpicked
      split at h
      · rename_i found hfound
        cases h
        have hvers := List.find?_some hfound
        rw [of_decide_eq_true hvers]
        exact (pickVersion_spec hpicked).2
      · cases h

/-- The entry that is pinned is in the index. -/
theorem chooseEntry_mem (h : chooseEntry env key registry entries reqs = .ok entry) :
    entry ∈ entries := by
  unfold chooseEntry at h
  cases hlocked : lockedEntry env key registry entries reqs with
  | some locked =>
    rw [hlocked] at h
    cases h
    unfold lockedEntry at hlocked
    obtain ⟨_, _, hlocked⟩ := Option.bind_eq_some_iff.mp hlocked
    obtain ⟨v, _, hlocked⟩ := Option.bind_eq_some_iff.mp hlocked
    split at hlocked
    · exact List.mem_of_find?_eq_some hlocked
    · cases hlocked
  | none =>
    rw [hlocked] at h
    dsimp only at h
    split at h
    · cases h
    · split at h
      · rename_i found hfound
        cases h
        exact List.mem_of_find?_eq_some hfound
      · cases h

end choice

/-! ## The changes of a run -/

/-- A manifest that a resolution can read: the one of the root, or a parsed one. -/
def Known (env : Env V R) (root m : Manifest) : Prop :=
  m = root ∨ ∃ text, env.parseManifest text = .ok m

/-- `req` is what the manifest says about the registry package `name` in the registry `reg`. -/
def Manifest.Requires (env : Env V R) (m : Manifest) (reg name : String) (req : R) : Prop :=
  ∃ dep version registry, m.dependencies[name]? = some dep ∧
    dep.source = .registry version registry ∧ env.sem.parseReq version = .ok req ∧
    reg = registry.getD env.defaultRegistry

/-- The id of a path or git package comes from its name and its source. -/
def LocalId (env : Env V R) (id : String) (p : ResolvedInternal V R) : Prop :=
  (∃ path dir, p.source = .path path ∧ id = pathId env.sha256Hex p.name dir) ∨
    ∃ url rev, p.source = .git url rev ∧ id = gitId env.sha256Hex p.name url

theorem ReqKey.new_id (sem : Semver V R) (name registry : String) (req : R) :
    ∃ s, (ReqKey.new sem name registry req).id = "registry:" ++ s := by
  refine ⟨registry ++ (":" ++ (name ++ (":" ++ (ReqKey.new sem name registry req).compat))), ?_⟩
  unfold ReqKey.new
  simp only [String.append_assoc]

theorem pathId_local (sha256Hex : String → String) (name path : String) :
    ∃ s, pathId sha256Hex name path = "path:" ++ s :=
  ⟨name ++ (":" ++ ((sha256Hex path).take 16).toString), by
    unfold pathId
    simp only [String.append_assoc]⟩

theorem gitId_local (sha256Hex : String → String) (name url : String) :
    ∃ s, gitId sha256Hex name url = "git:" ++ s :=
  ⟨name ++ (":" ++ ((sha256Hex url).take 16).toString), by
    unfold gitId
    simp only [String.append_assoc]⟩

theorem LocalId.kind {env : Env V R} {id : String} {p : ResolvedInternal V R}
    (h : LocalId env id p) : (∃ s, id = "path:" ++ s) ∨ ∃ s, id = "git:" ++ s := by
  obtain ⟨_, dir, _, rfl⟩ | ⟨url, _, _, rfl⟩ := h
  · exact .inl (pathId_local env.sha256Hex p.name dir)
  · exact .inr (gitId_local env.sha256Hex p.name url)

/-- A registry id is no id of a path or a git dependency. -/
theorem registry_ne_local {id : String} (hr : ∃ s, id = "registry:" ++ s) :
    ¬((∃ s, id = "path:" ++ s) ∨ ∃ s, id = "git:" ++ s) := by
  obtain ⟨s, rfl⟩ := hr
  rintro (⟨t, ht⟩ | ⟨t, ht⟩)
  · have hlist := congrArg String.toList ht
    simp at hlist
  · have hlist := congrArg String.toList ht
    simp at hlist

/-- The package that an instance is when it is pinned to an entry. -/
def pinnedPackage (env : Env V R) (r : Run V R) (id : String) (key : ReqKey)
    (registry : Registry V R) (entry : IndexEntry V R) (dir : String) : ResolvedInternal V R :=
  ⟨id, key.name, env.sem.showVersion entry.vers, .registry registry.name, dir,
    r.direct.contains id, some ("sha256:" ++ entry.cksum), some entry⟩

/-- A property of runs that each change of a run keeps. -/
structure Kept [DecidableEq V] (env : Env V R) (root : Manifest) (I : Run V R → Prop) : Prop where
  record : ∀ (r : Run V R) (parent name target : String), I r →
    I (r.recordDependency parent name target)
  mark : ∀ (r : Run V R) (direct : Bool) (id : String), I r → I (r.markDirect direct id)
  request : ∀ (r : Run V R) (id : String) (defaults : Bool) (features : List String)
    (more : Option (List String)), I r → I (r.requestDependencyFeatures id defaults features more)
  require : ∀ (r : Run V R) (m : Manifest) (parent name reg : String) (req : R),
    Known env root m → m.Requires env reg name req → I r →
      I (r.require parent name (ReqKey.new env.sem name reg req) req)
  expand : ∀ (r : Run V R) (id : String) (p : ResolvedInternal V R),
    r.resolved.contains id = false → p.id = id → p.entry = none → LocalId env id p → I r →
      I { r with resolved := r.resolved.insert id p }
  pin : ∀ (r : Run V R) (id : String) (key : ReqKey) (registry : Registry V R)
    (entries : List (IndexEntry V R)) (entry : IndexEntry V R) (dir : String),
    r.reqKeys[id]? = some key → env.registries key.registry = some registry →
    registry.index key.name = .ok entries →
    chooseEntry env key registry entries (r.reqs.getD id []) = .ok entry → I r →
      I (r.pin id (pinnedPackage env r id key registry entry dir))
  process : ∀ (r : Run V R) (features : TreeMap String (List String)), I r →
    I { r with processedFeatures := features }
  fold : ∀ (r : Run V R) (parent reg name : String) (registry : Registry V R)
    (entries : List (IndexEntry V R)) (e : IndexEntry V R) (d : IndexDep R),
    env.registries reg = some registry → registry.index name = .ok entries → e ∈ entries →
    d ∈ e.deps → I r →
      I (r.require parent d.name (ReqKey.new env.sem d.name (d.registry.getD reg) d.req) d.req)

theorem loadManifest_known {env : Env V R} {root m : Manifest} {dir : String}
    {error : String → ResolveError}
    (h : loadManifest env dir error = .ok m) : Known env root m := by
  unfold loadManifest at h
  obtain ⟨text, _, h⟩ := bind_ok.mp h
  exact .inr ⟨text, mapError_ok.mp h⟩

section kept

variable [DecidableEq V] {env : Env V R} {root : Manifest} {I : Run V R → Prop}

/-- A way to fold manifests in that keeps the property. -/
def KeptBy (env : Env V R) (root : Manifest) (I : Run V R → Prop) (again : Seed V R) : Prop :=
  ∀ r m dir direct id t, Known env root m → I r → again r m dir direct id = .ok t → I t

theorem Kept.path (hk : Kept env root I) {again : Seed V R} (hagain : KeptBy env root I again)
    {r t : Run V R} {id name path depDir : String} {direct : Bool} (hr : I r)
    (hid : id = pathId env.sha256Hex name depDir)
    (ht : resolvePathDep env again r id name path depDir direct = .ok t) : I t := by
  unfold resolvePathDep at ht
  split at ht
  · cases ht
    exact hr
  · rename_i hnew
    obtain ⟨m, hm, ht⟩ := bind_ok.mp ht
    refine hagain _ _ _ _ _ _ (loadManifest_known hm) ?_ ht
    exact hk.expand r id _ (eq_false_of_ne_true hnew) rfl rfl (.inl ⟨path, depDir, rfl, hid⟩) hr

theorem Kept.git (hk : Kept env root I) {again : Seed V R} (hagain : KeptBy env root I again)
    {r t : Run V R} {id name url : String} {reference : GitRef} {direct : Bool} (hr : I r)
    (hid : id = gitId env.sha256Hex name url)
    (ht : resolveGitDep env again r id name url reference direct = .ok t) : I t := by
  unfold resolveGitDep at ht
  split at ht
  · cases ht
    exact hr
  · rename_i hnew
    obtain ⟨checkout, _, ht⟩ := bind_ok.mp ht
    obtain ⟨_, _, ht⟩ := bind_ok.mp ht
    obtain ⟨m, hm, ht⟩ := bind_ok.mp ht
    refine hagain _ _ _ _ _ _ (loadManifest_known hm) ?_ ht
    exact hk.expand r id _ (eq_false_of_ne_true hnew) rfl rfl (.inr ⟨url, _, rfl, hid⟩) hr

/-- One dependency of a manifest. -/
theorem Kept.dep (hk : Kept env root I) {again : Seed V R} (hagain : KeptBy env root I again)
    {m : Manifest} (hm : Known env root m) {plan : FeaturePlan} {baseDir : String}
    {direct : Bool} {parent : String} {r t : Run V R} {name : String} {dep : Dependency}
    (hdep : m.dependencies[name]? = some dep) (hr : I r)
    (ht : seedDep env again plan baseDir direct parent r name dep = .ok t) : I t := by
  unfold seedDep at ht
  split at ht
  · cases ht
    exact hr
  · split at ht
    · rename_i version registry hsource
      obtain ⟨req, hreq, ht⟩ := bind_ok.mp ht
      cases ht
      apply hk.mark
      apply hk.request
      exact hk.require r m _ _ _ _ hm ⟨dep, version, registry, hdep, hsource,
        mapError_ok.mp hreq, rfl⟩ hr
    · refine hk.path hagain ?_ rfl ht
      apply hk.request
      apply hk.mark
      exact hk.record r _ _ _ hr
    · refine hk.git hagain ?_ rfl ht
      apply hk.request
      apply hk.mark
      exact hk.record r _ _ _ hr

/-- A manifest is folded in, with the manifests that it leads to: induction on the fuel. -/
theorem Kept.seed (hk : Kept env root I) (n : Nat) : KeptBy env root I (seed env n) := by
  induction n with
  | zero =>
    intro r m dir direct id t _ _ ht
    cases ht
  | succ n ih =>
    intro r m dir direct id t hm hr ht
    unfold pkg.seed at ht
    obtain ⟨plan, _, ht⟩ := bind_ok.mp ht
    refine foldlM_keeps (I := I) ?_ hr ht
    intro s d hd u hs hu
    exact hk.dep ih hm (TreeMap.mem_toList_iff_getElem?_eq_some.mp hd) hs hu

/-- The dependencies of a pinned entry. -/
theorem Kept.folds (hk : Kept env root I) {reg name : String} {registry : Registry V R}
    {entries : List (IndexEntry V R)} {e : IndexEntry V R} {plan : FeaturePlan} {id : String}
    (hregistry : env.registries reg = some registry) (hindex : registry.index name = .ok entries)
    (he : e ∈ entries) {deps : List (IndexDep R)} (hdeps : ∀ d ∈ deps, d ∈ e.deps)
    {r : Run V R} (hr : I r) : I (deps.foldl (foldDep env plan id reg) r) := by
  induction deps generalizing r with
  | nil => exact hr
  | cons d deps ih =>
    apply ih (fun x hx => hdeps x (List.mem_cons_of_mem d hx))
    unfold foldDep
    split
    · exact hr
    · apply hk.request
      exact hk.fold r id reg name registry entries e d hregistry hindex he
        (hdeps d List.mem_cons_self) hr

/-- One instance is pinned. -/
theorem Kept.settle (hk : Kept env root I) {r t : Run V R} {id : String} {fuel : Nat} (hr : I r)
    (ht : resolveRegistryDep env fuel r id = .ok t) : I t := by
  unfold resolveRegistryDep at ht
  split at ht
  · cases ht
  · rename_i key hkey
    obtain ⟨registry, hregistry, ht⟩ := bind_ok.mp ht
    obtain ⟨entries, hentries, ht⟩ := bind_ok.mp ht
    split at ht
    · cases ht
    · obtain ⟨entry, hentry, ht⟩ := bind_ok.mp ht
      have hfound := findRegistry_ok hregistry
      have hindex := mapError_ok.mp hentries
      unfold pinRegistry at ht
      obtain ⟨tarball, _, ht⟩ := bind_ok.mp ht
      obtain ⟨dir, _, ht⟩ := bind_ok.mp ht
      obtain ⟨plan, _, ht⟩ := bind_ok.mp ht
      cases ht
      apply hk.folds hfound hindex (chooseEntry_mem hentry) fun d hd => hd
      apply hk.process
      exact hk.pin r id key registry entries entry dir hkey hfound hindex hentry hr

/-- The rounds end when nothing is pending. -/
theorem Kept.rounds (hk : Kept env root I) {n : Nat} {r t : Run V R} (hr : I r)
    (ht : runLoop env n r = .ok t) : I t ∧ t.pending = [] := by
  induction n generalizing r with
  | zero => cases ht
  | succ n ih =>
    unfold runLoop at ht
    dsimp only at ht
    split at ht
    · rename_i hempty
      cases ht
      exact ⟨hr, List.isEmpty_iff.mp hempty⟩
    · obtain ⟨u, hu, ht⟩ := bind_ok.mp ht
      refine ih ?_ ht
      exact foldlM_keeps (fun s id _ u hs => hk.settle hs) hr hu

/-- The run behind an answer has each property that the changes keep and that holds before the
first manifest is folded in. -/
theorem Kept.resolve (hk : Kept env root I) {fuel : Nat} {rootDir : String} {res : Resolved V R}
    (hstart : I ((Run.start V R (rootId root.name)).requestDefaultFeatures (rootId root.name)))
    (h : resolve env fuel root rootDir = .ok res) :
    ∃ r : Run V R, I r ∧ r.pending = [] ∧ res.declared = r.declared ∧
      res.dependencyEdges = r.dependencyEdges ∧
      ∀ p, p ∈ res.packages ↔ ∃ id : String, r.resolved[id]? = some p := by
  unfold pkg.resolve at h
  obtain ⟨seeded, hseed, h⟩ := bind_ok.mp h
  obtain ⟨r, hrun, h⟩ := bind_ok.mp h
  cases h
  have hseeded := hk.seed fuel _ _ _ _ _ _ (.inl rfl) hstart hseed
  obtain ⟨hr, hdone⟩ := hk.rounds hseeded hrun
  refine ⟨r, hr, hdone, rfl, rfl, fun p => ?_⟩
  exact mem_sorted_values

end kept

/-! ## A condition on each pinning -/

section pinnings

variable [DecidableEq V]

/-- A condition on each pinning of the rounds. -/
def EachPin (env : Env V R) (P : Run V R → String → Prop) : Nat → Run V R → Prop
  | 0, _ => True
  | n + 1, r => EachTurn P (resolveRegistryDep env n) r r.pending ∧
    ∀ t, r.pending.foldlM (resolveRegistryDep env n) r = .ok t → EachPin env P n t

/-- The condition on a resolution: on each of its pinnings. -/
def EachPinned (env : Env V R) (P : Run V R → String → Prop) (fuel : Nat) (root : Manifest)
    (rootDir : String) : Prop :=
  ∀ r, seed env fuel ((Run.start V R (rootId root.name)).requestDefaultFeatures
    (rootId root.name)) root rootDir true (rootId root.name) = .ok r → EachPin env P fuel r

theorem EachPin.of_keeps {env : Env V R} {P : Run V R → String → Prop} {I : Run V R → Prop}
    (hP : ∀ r id, I r → P r id)
    (hI : ∀ n r id t, I r → resolveRegistryDep env n r id = .ok t → I t) {n : Nat} {r : Run V R}
    (h : I r) : EachPin env P n r := by
  induction n generalizing r with
  | zero => trivial
  | succ n ih =>
    refine ⟨EachTurn.of_keeps hP (hI n) h, fun t ht => ih ?_⟩
    exact foldlM_keeps (fun s id _ u => hI n s id u) h ht

end pinnings

end pkg
