-- One version for each compatible range (`resolve.rs`, `version.rs`). An instance has a key that
-- comes from one requirement and a version that meets it. Two instances of a package share a
-- range only when two of the requirements reach one range under two keys.
import OtterFusion.Pkg.ResolveRule

namespace pkg

open base.outcome
open Std (TreeMap)

variable {V R : Type}

/-! ## Ranges and requirements -/

/-- Two versions of one compatible range: equal major versions, and equal minor ones when the
major version is 0. -/
def SameRange (major minor : V → Nat) (v w : V) : Prop :=
  major v = major w ∧ (major v = 0 → minor v = minor w)

/-- No two instances have one name, one registry and versions of one range. -/
def OneVersionPerRange (major minor : V → Nat) (res : Resolved V R) : Prop :=
  ∀ p ∈ res.packages, ∀ q ∈ res.packages, ∀ e f, p.entry = some e → q.entry = some f →
    p.name = q.name → p.source = q.source → SameRange major minor e.vers f.vers → p = q

/-- The requirements of all manifests and index entries that a resolution can read are in `S`,
for each registry and package name. -/
structure UsesOnly (S : String → String → R → Prop) (env : Env V R) (root : Manifest) : Prop where
  manifest : ∀ m, Known env root m → ∀ reg name req, m.Requires env reg name req → S reg name req
  index : ∀ reg registry name entries, env.registries reg = some registry →
    registry.index name = .ok entries → ∀ e ∈ entries, ∀ d ∈ e.deps,
      S (d.registry.getD reg) d.name d.req

/-- Two requirements for a package that match versions of one range have one key. -/
def KeysSeparate (sem : Semver V R) (major minor : V → Nat)
    (S : String → String → R → Prop) : Prop :=
  ∀ reg name q r v w, S reg name q → S reg name r → sem.matchesReq q v = true →
    sem.matchesReq r w = true → SameRange major minor v w →
      (ReqKey.new sem name reg q).compat = (ReqKey.new sem name reg r).compat

/-! ## The invariant of a run -/

/-- Each key comes from a requirement that is in use and was gathered for it, and each pinned
version meets the requirement of a key. -/
structure Keyed (S : String → String → R → Prop) (env : Env V R) (r : Run V R) : Prop where
  ids : ∀ (id : String) (p : ResolvedInternal V R), r.resolved[id]? = some p → p.id = id
  keys : ∀ (id : String) (key : ReqKey), r.reqKeys[id]? = some key →
    ∃ q ∈ r.reqs.getD id [], S key.registry key.name q ∧ key.id = id ∧
      key = ReqKey.new env.sem key.name key.registry q
  pinned : ∀ (id : String) (p : ResolvedInternal V R) (e : IndexEntry V R),
    r.resolved[id]? = some p → p.entry = some e → ∃ reg q, S reg p.name q ∧
      id = (ReqKey.new env.sem p.name reg q).id ∧ p.source = .registry reg ∧
      env.sem.matchesReq q e.vers = true

theorem Keyed.start (S : String → String → R → Prop) (env : Env V R) (root : String)
    (id : String) : Keyed S env ((Run.start V R root).requestDefaultFeatures id) := by
  refine ⟨fun k p h => ?_, fun k key h => ?_, fun k p e h => ?_⟩
  · rw [show ((Run.start V R root).requestDefaultFeatures id).resolved[k]? = none from
      TreeMap.getElem?_emptyc] at h
    cases h
  · rw [show ((Run.start V R root).requestDefaultFeatures id).reqKeys[k]? = none from
      TreeMap.getElem?_emptyc] at h
    cases h
  · rw [show ((Run.start V R root).requestDefaultFeatures id).resolved[k]? = none from
      TreeMap.getElem?_emptyc] at h
    cases h

section keyed

variable {S : String → String → R → Prop} {env : Env V R} {r : Run V R}

theorem Keyed.record (h : Keyed S env r) (parent name target : String) :
    Keyed S env (r.recordDependency parent name target) :=
  { h with }

theorem Keyed.request (h : Keyed S env r) (id : String) (defaults : Bool)
    (features : List String) (more : Option (List String)) :
    Keyed S env (r.requestDependencyFeatures id defaults features more) :=
  { h with }

theorem Keyed.mark (h : Keyed S env r) (direct : Bool) (id : String) :
    Keyed S env (r.markDirect direct id) := by
  unfold Run.markDirect
  split <;> exact { h with }

/-- A requirement that is in use joins those of its instance. -/
theorem Keyed.require (h : Keyed S env r) (parent name reg : String) {req : R}
    (hreq : S reg name req) :
    Keyed S env (r.require parent name (ReqKey.new env.sem name reg req) req) := by
  have hgather : ∀ id, ∀ q ∈ r.reqs.getD id [],
      q ∈ (r.require parent name (ReqKey.new env.sem name reg req) req).reqs.getD id [] := by
    intro id q hq
    unfold Run.require
    rw [getD_insert_eq]
    split
    · rename_i hid
      subst hid
      exact List.mem_append_left _ hq
    · exact hq
  refine ⟨h.ids, fun id key hkey => ?_, h.pinned⟩
  unfold Run.require at hkey
  rw [TreeMap.getElem?_insertIfNew] at hkey
  split at hkey
  · rename_i hnew
    obtain rfl := Option.some.inj hkey
    obtain rfl := Std.compare_eq_iff_eq.mp hnew.1
    refine ⟨req, ?_, hreq, rfl, rfl⟩
    unfold Run.require
    rw [getD_insert_eq, if_pos rfl]
    exact List.mem_append_right _ (List.mem_singleton_self req)
  · obtain ⟨q, hq, hrest⟩ := h.keys id key hkey
    exact ⟨q, hgather id q hq, hrest⟩

/-- A path or git package is resolved. -/
theorem Keyed.expand (h : Keyed S env r) {id : String} {p : ResolvedInternal V R}
    (hid : p.id = id) (hentry : p.entry = none) :
    Keyed S env { r with resolved := r.resolved.insert id p } := by
  refine ⟨fun k q hq => ?_, h.keys, fun k q e hq he => ?_⟩
  · rw [getElem?_insert_eq] at hq
    split at hq
    · rename_i hk
      obtain rfl := Option.some.inj hq
      rw [hid, hk]
    · exact h.ids k q hq
  · rw [getElem?_insert_eq] at hq
    split at hq
    · obtain rfl := Option.some.inj hq
      rw [hentry] at he
      cases he
    · exact h.pinned k q e hq he

/-- A registry package is pinned to an entry that meets all requirements gathered for it. -/
theorem Keyed.pin (h : Keyed S env r) {id : String} {key : ReqKey} {p : ResolvedInternal V R}
    {entry : IndexEntry V R} (hkey : r.reqKeys[id]? = some key) (hid : p.id = id)
    (hname : p.name = key.name) (hsource : p.source = .registry key.registry)
    (hentry : p.entry = some entry)
    (hmeets : ∀ q ∈ r.reqs.getD id [], env.sem.matchesReq q entry.vers = true) :
    Keyed S env (r.pin id p) := by
  refine ⟨fun k q hq => ?_, h.keys, fun k q e hq he => ?_⟩
  · unfold Run.pin at hq
    rw [getElem?_insert_eq] at hq
    split at hq
    · rename_i hk
      obtain rfl := Option.some.inj hq
      rw [hid, hk]
    · exact h.ids k q hq
  · unfold Run.pin at hq
    rw [getElem?_insert_eq] at hq
    split at hq
    · rename_i hk
      subst hk
      obtain rfl := Option.some.inj hq
      obtain rfl := Option.some.inj (hentry.symm.trans he)
      obtain ⟨q, hq, hin, hkid, hnew⟩ := h.keys id key hkey
      refine ⟨key.registry, q, ?_, ?_, hsource, hmeets q hq⟩
      · rw [hname]
        exact hin
      · rw [hname, ← hnew, hkid]
    · exact h.pinned k q e hq he

variable [DecidableEq V] {root : Manifest}

theorem keyed_kept (huse : UsesOnly S env root) (hnamed : Named env) :
    Kept env root (Keyed S env) where
  record := fun _ parent name target h => h.record parent name target
  mark := fun _ direct id h => h.mark direct id
  request := fun _ id defaults features more h => h.request id defaults features more
  require := fun _ m parent name reg _ hm hreq h =>
    h.require parent name reg (huse.manifest m hm reg name _ hreq)
  expand := fun _ _ _ _ hid hentry _ h => h.expand hid hentry
  pin := fun _ _ _ _ _ _ _ hkey hfound _ hentry h =>
    h.pin hkey rfl rfl (congrArg LockSource.registry (hnamed _ _ hfound)) rfl
      (chooseEntry_meets hentry)
  process := fun _ _ h => { h with }
  fold := fun _ parent reg _ _ _ _ d hfound hindex he hd h =>
    h.require parent d.name _ (huse.index reg _ _ _ hfound hindex _ he d hd)

/-- Separate keys keep the instances of a package in separate ranges. -/
theorem one_version_of_separate_keys {major minor : V → Nat} (huse : UsesOnly S env root)
    (hnamed : Named env) (hsep : KeysSeparate env.sem major minor S) {fuel : Nat}
    {rootDir : String} {res : Resolved V R} (h : resolve env fuel root rootDir = .ok res) :
    OneVersionPerRange major minor res := by
  obtain ⟨r, hr, _, _, _, hmem⟩ :=
    (keyed_kept huse hnamed).resolve (Keyed.start S env _ _) h
  intro p hp q hq e f he hf hname hsource hrange
  obtain ⟨i, hi⟩ := (hmem p).mp hp
  obtain ⟨j, hj⟩ := (hmem q).mp hq
  obtain ⟨reg, a, ha, hia, hsa, hma⟩ := hr.pinned i p e hi he
  obtain ⟨reg', b, hb, hjb, hsb, hmb⟩ := hr.pinned j q f hj hf
  have hreg : reg' = reg := by
    rw [hsa, hsb] at hsource
    exact (LockSource.registry.inj hsource).symm
  subst hreg
  rw [← hname] at hb hjb
  have hcompat := hsep reg' p.name a b e.vers f.vers ha hb hma hmb hrange
  have hid : i = j := by
    rw [hia, hjb]
    unfold ReqKey.new at hcompat ⊢
    dsimp only at hcompat ⊢
    rw [hcompat]
  subst hid
  exact Option.some.inj (hi.symm.trans hj)

end keyed


/-! ## What is pending -/

/-- An instance is pinned and has no new features: it is not pending. -/
theorem not_pending {r : Run V R} {id : String} (hres : r.resolved.contains id = true)
    (hfeat : r.processedFeatures[id]? = some (r.requestedFeatures id)) : id ∉ r.pending := by
  intro h
  have hcond := (List.mem_filter.mp h).2
  rw [hres, hfeat] at hcond
  simp at hcond

theorem mem_reqs_of_pending {r : Run V R} {id : String} (h : id ∈ r.pending) : id ∈ r.reqs :=
  TreeMap.mem_keys.mp (List.mem_filter.mp h).1

theorem pending_new {r : Run V R} {id : String} (hid : id ∈ r.reqs)
    (hres : r.resolved.contains id = false) : id ∈ r.pending := by
  refine List.mem_filter.mpr ⟨TreeMap.mem_keys.mpr hid, ?_⟩
  rw [hres]
  rfl

/-- One instance alone is pending. -/
theorem pending_eq {r : Run V R} {id : String} (hid : id ∈ r.pending)
    (honly : ∀ k ∈ r.pending, k = id) : r.pending = [id] := by
  have hnodup : r.pending.Nodup := TreeMap.nodup_keys.filter _
  match hp : r.pending with
  | [] => rw [hp] at hid; cases hid
  | [k] => rw [hp] at honly; rw [honly k List.mem_cons_self]
  | k :: l :: rest =>
    rw [hp] at honly hnodup
    have hk := honly k List.mem_cons_self
    have hl := honly l (List.mem_cons_of_mem k List.mem_cons_self)
    rw [hk, hl] at hnodup
    exact absurd List.mem_cons_self (List.nodup_cons.mp hnodup).1

/-- No features are requested. -/
theorem requested_nothing (r : Run V R) (id k : String) :
    (r.requestDependencyFeatures id false [] none).requestedFeatures k = r.requestedFeatures k := by
  show (r.featuresOf.insert id (r.requestedFeatures id)).getD k [] = _
  rw [getD_insert_eq]
  split
  · rename_i hk
    rw [hk]
  · rfl

/-! ## A registry for two keys that are not separate -/

section twoKeys

/-- Two versions of a package, and each asks for the package `other` by the requirement `req`. -/
def twoKeysEntries (name other : String) (owner : Option String) (req : R) (v w : V) :
    List (IndexEntry V R) :=
  [v, w].map fun x => ⟨name, x, [⟨other, req, false, false, [], owner⟩], {}, "", false⟩

/-- A registry with that package only. -/
def twoKeysRegistry (reg name other : String) (owner : Option String) (req : R) (v w : V) :
    Registry V R :=
  ⟨reg, fun n => .ok (if n = name then twoKeysEntries name other owner req v w else []),
    fun _ => .ok []⟩

/-- That registry, no lock, no files and no git. -/
def twoKeysEnv (sem : Semver V R) (reg name other : String) (owner : Option String) (req : R)
    (v w : V) : Env V R where
  sem := sem
  registries k := if k = reg then some (twoKeysRegistry reg name other owner req v w) else none
  defaultRegistry := reg
  extract _ _ := .ok ""
  existing := none
  sha256Hex _ := ""
  join dir _ := dir
  normalize path := path
  readToString _ := .error "no file"
  parseManifest _ := .error "no manifest"
  gitFetch _ _ := .error "no repository"

/-- A manifest that asks for the package by the requirement `req`. -/
def twoKeysRoot (sem : Semver V R) (name : String) (req : R) : Manifest where
  name := "app"
  version := "0.1.0"
  defaultFeatures := []
  dependencies := ({} : TreeMap String Dependency).insert name
    ⟨.registry (sem.showReq req) none, [], false, false⟩
  features := {}

variable {sem : Semver V R} {reg name other : String} {owner : Option String} {q req : R} {v w : V}

theorem twoKeys_named : Named (twoKeysEnv sem reg name other owner req v w) := by
  intro k registry h
  unfold twoKeysEnv at h
  dsimp only at h
  split at h
  · rename_i hk
    obtain rfl := Option.some.inj h
    exact hk.symm
  · cases h

theorem twoKeys_root_dep {dep : Dependency} {n : String}
    (h : (twoKeysRoot sem name q).dependencies[n]? = some dep) :
    n = name ∧ dep = ⟨.registry (sem.showReq q) none, [], false, false⟩ := by
  unfold twoKeysRoot at h
  rw [getElem?_insert_eq] at h
  split at h
  · rename_i hn
    exact ⟨hn.symm, (Option.some.inj h).symm⟩
  · rw [TreeMap.getElem?_emptyc] at h
    cases h

variable (owner) in
theorem twoKeys_uses {S : String → String → R → Prop}
    (hround : sem.parseReq (sem.showReq q) = .ok q) (hq : S reg name q)
    (hreq : S (owner.getD reg) other req) :
    UsesOnly S (twoKeysEnv sem reg name other owner req v w) (twoKeysRoot sem name q) := by
  refine ⟨fun m hm k n r hr => ?_, fun k registry n entries hk hn e he d hd => ?_⟩
  · obtain rfl | ⟨text, htext⟩ := hm
    · obtain ⟨dep, version, registry, hdep, hsource, hparse, rfl⟩ := hr
      obtain ⟨rfl, rfl⟩ := twoKeys_root_dep hdep
      obtain ⟨rfl, rfl⟩ := DepSource.registry.inj hsource
      have hsame : (Except.ok r : Except String R) = .ok q := hparse.symm.trans hround
      cases hsame
      exact hq
    · cases htext
  · have hkreg := twoKeys_named k registry hk
    unfold twoKeysEnv at hk
    dsimp only at hk
    split at hk
    · rename_i hkr
      subst hkr
      obtain rfl := Option.some.inj hk
      cases hn
      split at he
      · rename_i hname
        subst hname
        obtain ⟨x, _, rfl⟩ := List.mem_map.mp he
        obtain rfl := List.mem_singleton.mp hd
        exact hreq
      · cases he
    · cases hk

/-- Ids under two keys are different. -/
theorem ReqKey.id_ne
    (h : (ReqKey.new sem name reg q).compat ≠ (ReqKey.new sem name reg req).compat) :
    (ReqKey.new sem name reg q).id ≠ (ReqKey.new sem name reg req).id := by
  intro he
  apply h
  unfold ReqKey.new at he ⊢
  have hlist := congrArg String.toList he
  simp only [String.toList_append, List.append_assoc, List.append_cancel_left_eq] at hlist
  exact String.toList_injective hlist

theorem registry_ne_root (n : String) : (ReqKey.new sem name reg q).id ≠ rootId n := by
  intro he
  have hlist := congrArg String.toList he
  unfold ReqKey.new rootId at hlist
  simp at hlist

/-- What the pinning of one instance does there. -/
structure TwoKeysPin (sem : Semver V R) (reg name other : String) (owner : Option String) (req : R)
    (v w : V) (r t : Run V R) (id : String) : Prop where
  resolved : ∃ p e, t.resolved = r.resolved.insert id p ∧ p.id = id ∧ p.name = name ∧
    p.source = .registry reg ∧ p.entry = some e ∧ (e.vers = v ∨ e.vers = w)
  reqs : t.reqs = r.reqs.insert (ReqKey.new sem other (owner.getD reg) req).id
    (r.reqs.getD (ReqKey.new sem other (owner.getD reg) req).id [] ++ [req])
  reqKeys : t.reqKeys = r.reqKeys.insertIfNew (ReqKey.new sem other (owner.getD reg) req).id
    (ReqKey.new sem other (owner.getD reg) req)
  processed : t.processedFeatures = r.processedFeatures.insert id []
  requested : ∀ k, t.requestedFeatures k = r.requestedFeatures k
  declared : ⟨id, other, req, (ReqKey.new sem other (owner.getD reg) req).id⟩ ∈ t.declared

theorem newest_isSome {le : V → V → Bool} {vs : List V} (h : vs ≠ []) :
    ∃ x, newest le vs = some x := by
  cases vs with
  | nil => exact absurd rfl h
  | cons x xs => exact ⟨_, rfl⟩

variable (reg name other owner req v w) in
theorem twoKeys_seed (hround : sem.parseReq (sem.showReq q) = .ok q) (n : Nat) :
    ∃ r, seed (twoKeysEnv sem reg name other owner req v w) (n + 2)
      ((Run.start V R (rootId "app")).requestDefaultFeatures (rootId "app"))
      (twoKeysRoot sem name q) "/app" true (rootId "app") = .ok r ∧ r.resolved = {} ∧
      r.reqs = ({} : TreeMap String (List R)).insert (ReqKey.new sem name reg q).id [q] ∧
      r.reqKeys[(ReqKey.new sem name reg q).id]? = some (ReqKey.new sem name reg q) ∧
      (∀ k, k ≠ (ReqKey.new sem name reg q).id → r.reqKeys[k]? = none) ∧
      r.processedFeatures = {} ∧ ∀ k, k ≠ rootId "app" → r.requestedFeatures k = [] := by
  have hdeps : (twoKeysRoot sem name q).dependencies.toList
      = [(name, ⟨.registry (sem.showReq q) none, [], false, false⟩)] := by
    apply List.perm_singleton.mp
    refine TreeMap.toList_insert_perm.trans ?_
    exact List.Perm.refl _
  have hdefault : ((Run.start V R (rootId "app")).requestDefaultFeatures
      (rootId "app")).requestedFeatures (rootId "app") = ["default"] := by
    unfold Run.requestDefaultFeatures Run.requestedFeatures
    rw [getD_insert_eq, if_pos rfl]
    rfl
  have hplan : fromManifest (n + 1) (twoKeysRoot sem name q) ["default"] = .ok ⟨[], {}⟩ := by
    unfold fromManifest fromDependencyFlags twoKeysRoot
    simp [planLoop]
  refine ⟨((((Run.start V R (rootId "app")).requestDefaultFeatures (rootId "app")).require
    (rootId "app") name (ReqKey.new sem name reg q) q).requestDependencyFeatures
      (ReqKey.new sem name reg q).id false [] none).markDirect true (ReqKey.new sem name reg q).id,
    ?_, rfl, rfl, ?_, fun k hk => ?_, rfl, fun k hk => ?_⟩
  · unfold seed
    rw [hdefault]
    refine bind_ok.mpr ⟨_, hplan, ?_⟩
    rw [hdeps]
    refine bind_ok.mpr ⟨_, ?_, rfl⟩
    exact bind_ok.mpr ⟨q, mapError_ok.mpr hround, rfl⟩
  · show (({} : TreeMap String ReqKey).insertIfNew _ _)[_]? = _
    rw [TreeMap.getElem?_insertIfNew, if_pos ⟨Std.compare_self, TreeMap.not_mem_emptyc⟩]
  · show (({} : TreeMap String ReqKey).insertIfNew _ _)[_]? = _
    rw [TreeMap.getElem?_insertIfNew, if_neg, TreeMap.getElem?_emptyc]
    rintro ⟨heq, _⟩
    exact hk (Std.compare_eq_iff_eq.mp heq).symm
  · have hmark : ∀ (s : Run V R) (id : String),
        (s.markDirect true id).requestedFeatures k = s.requestedFeatures k := fun _ _ => rfl
    rw [hmark, requested_nothing]
    show (({} : TreeMap String (List String)).insert (rootId "app") _).getD k [] = []
    rw [getD_insert_eq, if_neg hk.symm]
    exact TreeMap.getD_emptyc

/-- The instance of the root's requirement is pending. -/
theorem twoKeys_pending {r : Run V R} {id : String} (hresolved : r.resolved = {})
    (hreqs : r.reqs = ({} : TreeMap String (List R)).insert id [q]) : r.pending = [id] := by
  apply pending_eq
  · apply pending_new
    · rw [hreqs, mem_insert_eq]
      exact .inl rfl
    · rw [hresolved]
      rfl
  · intro k hk
    have hmem := mem_reqs_of_pending hk
    rw [hreqs, mem_insert_eq] at hmem
    exact (hmem.resolve_right TreeMap.not_mem_emptyc).symm

variable [DecidableEq V]

theorem twoKeys_choose {reqs : List R} {key : ReqKey} {registry : Registry V R} {x : V}
    (hx : x = v ∨ x = w) (hmatch : ∀ r ∈ reqs, sem.matchesReq r x = true) :
    ∃ e ∈ twoKeysEntries name other owner req v w,
      chooseEntry (twoKeysEnv sem reg name other owner req v w) key registry
      (twoKeysEntries name other owner req v w) reqs = .ok e := by
  have hvers :
      ((twoKeysEntries name other owner req v w).filter fun e => !e.yanked).map IndexEntry.vers
      = [v, w] := rfl
  obtain ⟨picked, hpicked⟩ : ∃ y, pickVersion sem reqs [v, w] = some y := by
    apply newest_isSome
    apply List.ne_nil_of_mem (a := x)
    refine List.mem_filter.mpr ⟨by simpa using hx, ?_⟩
    exact List.all_eq_true.mpr hmatch
  have hmem := (pickVersion_spec hpicked).1
  obtain ⟨e, he⟩ : ∃ e, (twoKeysEntries name other owner req v w).find?
      (fun e => decide (e.vers = picked)) = some e := by
    rw [← Option.isSome_iff_exists, List.find?_isSome]
    obtain ⟨e, he, hev⟩ := List.mem_map.mp (hvers ▸ hmem)
    exact ⟨e, (List.mem_filter.mp he).1, decide_eq_true hev⟩
  refine ⟨e, List.mem_of_find?_eq_some he, ?_⟩
  unfold chooseEntry
  rw [show lockedEntry (twoKeysEnv sem reg name other owner req v w) key registry
    (twoKeysEntries name other owner req v w) reqs = none from rfl, hvers]
  dsimp only
  rw [show (twoKeysEnv sem reg name other owner req v w).sem = sem from rfl, hpicked]
  dsimp only
  rw [he]

variable (sem reg name other owner req v w) in
theorem twoKeys_pin {r : Run V R} {id : String} {key : ReqKey} {n : Nat} {x : V}
    (hkey : r.reqKeys[id]? = some key) (hreg : key.registry = reg) (hname : key.name = name)
    (hx : x = v ∨ x = w) (hmatch : ∀ a ∈ r.reqs.getD id [], sem.matchesReq a x = true)
    (hfeatures : r.requestedFeatures id = []) :
    ∃ t, resolveRegistryDep (twoKeysEnv sem reg name other owner req v w) n r id = .ok t ∧
      TwoKeysPin sem reg name other owner req v w r t id := by
  subst hreg hname
  obtain ⟨e, he, hchoose⟩ : ∃ e ∈ twoKeysEntries key.name other owner req v w,
      chooseEntry (twoKeysEnv sem key.registry key.name other owner req v w) key
        (twoKeysRegistry key.registry key.name other owner req v w)
        (twoKeysEntries key.name other owner req v w)
        (r.reqs.getD id []) = .ok e := twoKeys_choose hx hmatch
  have hfound : findRegistry (twoKeysEnv sem key.registry key.name other owner req v w) key
      = .ok (twoKeysRegistry key.registry key.name other owner req v w) := by
    unfold findRegistry twoKeysEnv
    dsimp only
    rw [if_pos rfl]
  have hindex : (twoKeysRegistry key.registry key.name other owner req v w).index key.name
      = .ok (twoKeysEntries key.name other owner req v w) := by
    unfold twoKeysRegistry
    dsimp only
    rw [if_pos rfl]
  obtain ⟨y, hy, rfl⟩ := List.mem_map.mp he
  unfold resolveRegistryDep
  rw [hkey]
  dsimp only
  have hpin : ∃ t, pinRegistry (twoKeysEnv sem key.registry key.name other owner req v w) n r id key
      ⟨key.name, y, [⟨other, req, false, false, [], owner⟩], {}, "", false⟩
      (twoKeysRegistry key.registry key.name other owner req v w) = .ok t ∧
        TwoKeysPin sem key.registry key.name other owner req v w r t id := by
    have hplan : fromIndex n (⟨key.name, y, [⟨other, req, false, false, [], owner⟩], {}, "",
        false⟩ : IndexEntry V R) (r.requestedFeatures id) = .ok ⟨[], {}⟩ := by
      rw [hfeatures]
      unfold fromIndex fromDependencyFlags planLoop
      rfl
    refine ⟨_, bind_ok.mpr ⟨[], rfl, bind_ok.mpr ⟨"", rfl, bind_ok.mpr ⟨_, hplan, rfl⟩⟩⟩, ?_⟩
    constructor
    · refine ⟨_, _, rfl, rfl, rfl, rfl, rfl, ?_⟩
      simpa using hy
    · rfl
    · rfl
    · show r.processedFeatures.insert id (r.requestedFeatures id) = _
      rw [hfeatures]
    · exact requested_nothing _ _
    · exact List.mem_append_right _ (List.mem_singleton_self _)
  obtain ⟨t, ht, hspec⟩ := hpin
  refine ⟨t, bind_ok.mpr ⟨_, hfound, bind_ok.mpr ⟨_, mapError_ok.mpr hindex, ?_⟩⟩, hspec⟩
  exact bind_ok.mpr ⟨_, hchoose, ht⟩

/-- Two requirements whose keys are not separate: the resolution gives two instances of one
range. -/
theorem twoKeys_resolve {major minor : V → Nat}
    (hround : sem.parseReq (sem.showReq q) = .ok q) (hq : sem.matchesReq q v = true)
    (hreq : sem.matchesReq req w = true) (hrange : SameRange major minor v w)
    (hne : (ReqKey.new sem name reg q).compat ≠ (ReqKey.new sem name reg req).compat) :
    ∃ res, resolve (twoKeysEnv sem reg name name none req v w) 4 (twoKeysRoot sem name q)
      "/app" = .ok res ∧
      ¬OneVersionPerRange major minor res := by
  obtain ⟨r, hseed, hresolved, hreqs, hkey, hkeys, hprocessed, hrequested⟩ :=
    twoKeys_seed reg name name none req v w hround 2
  generalize ha : (ReqKey.new sem name reg q).id = a at *
  generalize hb : (ReqKey.new sem name reg req).id = b at *
  have hab : a ≠ b := ha ▸ hb ▸ ReqKey.id_ne hne
  have harequested : r.requestedFeatures a = [] := hrequested a (ha ▸ registry_ne_root "app")
  have hbrequested : r.requestedFeatures b = [] := hrequested b (hb ▸ registry_ne_root "app")
  have hgeta : r.reqs.getD a [] = [q] := by rw [hreqs, getD_insert_eq, if_pos rfl]
  have hgetb : r.reqs.getD b [] = [] := by
    rw [hreqs, getD_insert_eq, if_neg hab]
    exact TreeMap.getD_emptyc
  obtain ⟨s, hs, hspin⟩ := twoKeys_pin sem reg name name none req v w hkey rfl rfl (.inl rfl)
    (by simpa [hgeta] using hq) harequested
  obtain ⟨p, e, hsresolved, hpid, hpname, hpsource, hpe, hev⟩ := hspin.resolved
  have hsreqs := hspin.reqs
  rw [Option.getD_none, hb, hgetb, List.nil_append] at hsreqs
  have hsgetb : s.reqs.getD b [] = [req] := by rw [hsreqs, getD_insert_eq, if_pos rfl]
  have hskey : s.reqKeys[b]? = some (ReqKey.new sem name reg req) := by
    have hnew : b ∉ r.reqKeys := by
      rw [← TreeMap.isSome_getElem?_iff_mem, hkeys b hab.symm]
      exact Bool.false_ne_true
    rw [hspin.reqKeys, Option.getD_none, hb, TreeMap.getElem?_insertIfNew,
      if_pos ⟨Std.compare_self, hnew⟩]
  obtain ⟨t, ht, htpin⟩ := twoKeys_pin sem reg name name none req v w hskey rfl rfl (.inr rfl)
    (by simpa [hsgetb] using hreq) ((hspin.requested b).trans hbrequested)
  obtain ⟨p', e', htresolved, hpid', hpname', hpsource', hpe', hev'⟩ := htpin.resolved
  have hresa : t.resolved[a]? = some p := by
    rw [htresolved, getElem?_insert_eq, if_neg hab.symm, hsresolved, getElem?_insert_eq, if_pos rfl]
  have hresb : t.resolved[b]? = some p' := by
    rw [htresolved, getElem?_insert_eq, if_pos rfl]
  have hfirst : r.pending = [a] := twoKeys_pending hresolved hreqs
  have honly : ∀ k ∈ s.reqs, k = a ∨ k = b := by
    intro k hk
    rw [hsreqs, mem_insert_eq, hreqs, mem_insert_eq] at hk
    obtain rfl | rfl | hk := hk
    · exact .inr rfl
    · exact .inl rfl
    · exact absurd hk TreeMap.not_mem_emptyc
  have hsecond : s.pending = [b] := by
    apply pending_eq
    · apply pending_new
      · rw [hsreqs, mem_insert_eq]
        exact .inl rfl
      · rw [hsresolved, hresolved, TreeMap.contains_insert]
        simpa using hab
    · intro k hk
      obtain rfl | rfl := honly k (mem_reqs_of_pending hk)
      · refine absurd hk (not_pending ?_ ?_)
        · rw [hsresolved]
          exact TreeMap.contains_insert_self
        · rw [hspin.processed, getElem?_insert_eq, if_pos rfl, hspin.requested, harequested]
      · rfl
  have hlast : t.pending = [] := by
    apply List.eq_nil_iff_forall_not_mem.mpr
    intro k hk
    have hmem := mem_reqs_of_pending hk
    rw [htpin.reqs, Option.getD_none, hb, mem_insert_eq] at hmem
    have hor : k = a ∨ k = b := hmem.elim (fun h => .inr h.symm) (honly k)
    obtain rfl | rfl := hor
    · refine not_pending ?_ ?_ hk
      · rw [TreeMap.contains_eq_isSome_getElem?, hresa]
        rfl
      · rw [htpin.processed, getElem?_insert_eq, if_neg hab.symm, hspin.processed,
          getElem?_insert_eq, if_pos rfl, htpin.requested, hspin.requested, harequested]
    · refine not_pending ?_ ?_ hk
      · rw [TreeMap.contains_eq_isSome_getElem?, hresb]
        rfl
      · rw [htpin.processed, getElem?_insert_eq, if_pos rfl, htpin.requested, hspin.requested,
          hbrequested]
  have hrun : runLoop (twoKeysEnv sem reg name name none req v w) 4 r = .ok t := by
    unfold runLoop
    rw [hfirst]
    refine bind_ok.mpr ⟨s, bind_ok.mpr ⟨s, hs, rfl⟩, ?_⟩
    unfold runLoop
    rw [hsecond]
    refine bind_ok.mpr ⟨t, bind_ok.mpr ⟨t, ht, rfl⟩, ?_⟩
    unfold runLoop
    rw [hlast]
    rfl
  refine ⟨_, bind_ok.mpr ⟨r, hseed, bind_ok.mpr ⟨t, hrun, rfl⟩⟩, fun hone => ?_⟩
  have hsame : p = p' := by
    apply hone p (mem_sorted_values.mpr ⟨a, hresa⟩) p' (mem_sorted_values.mpr ⟨b, hresb⟩) e e'
      hpe hpe' (hpname.trans hpname'.symm) (hpsource.trans hpsource'.symm)
    obtain hv | hv := hev <;> obtain hw | hw := hev' <;> rw [hv, hw]
    · exact ⟨rfl, fun _ => rfl⟩
    · exact hrange
    · exact ⟨hrange.1.symm, fun h => (hrange.2 (hrange.1.trans h)).symm⟩
    · exact ⟨rfl, fun _ => rfl⟩
  rw [← hpid, ← hpid', hsame] at hab
  exact hab rfl

end twoKeys

/-! ## The law -/

/-- Requirements of the two forms that the runs use: `^` and `>=`, `<`. -/
inductive RangeReq
  | caret (major minor : Nat)
  | between (low high : Nat)

/-- Versions without patches, and those requirements, for major versions from 1 on. -/
def rangeSemver : Semver (Nat × Nat) RangeReq where
  matchesReq
    | .caret a b, v => v.1 == a && decide (b ≤ v.2)
    | .between low high, v => decide (low ≤ v.1) && decide (v.1 < high)
  comparators
    | .caret a b => [(a, some b)]
    | .between low high => [(low, none), (high, none)]
  le v w := decide (v.1 < w.1) || (v.1 == w.1 && decide (v.2 ≤ w.2))
  showReq
    | .caret a b => "^" ++ toString a ++ "." ++ toString b
    | .between low high => ">=" ++ toString low ++ ", <" ++ toString high
  showVersion v := toString v.1 ++ "." ++ toString v.2
  parseReq text :=
    if text = "^1.0" then .ok (.caret 1 0) else if text = "^2.0" then .ok (.caret 2 0)
    else if text = ">=1, <3" then .ok (.between 1 3) else .error "unexpected requirement"
  parseVersion _ := .error "unexpected version"

/-- An index entry without features. -/
def rangeEntry (name : String) (vers : Nat × Nat) (deps : List (IndexDep RangeReq)) :
    IndexEntry (Nat × Nat) RangeReq :=
  ⟨name, vers, deps, {}, "00", false⟩

/-- Two versions of `a`, and a package `b` with a requirement for `a`. -/
def rangeEnv (req : RangeReq) : Env (Nat × Nat) RangeReq where
  sem := rangeSemver
  registries k := if k = "main" then some ⟨"main", fun name => .ok (
    if name = "a" then [rangeEntry "a" (1, 0) [], rangeEntry "a" (2, 0) []]
    else if name = "b" then [rangeEntry "b" (1, 0) [⟨"a", req, false, true, [], none⟩]]
    else []), fun _ => .ok []⟩ else none
  defaultRegistry := "main"
  extract _ checksum := .ok checksum
  existing := none
  sha256Hex _ := ""
  join dir path := dir ++ "/" ++ path
  normalize path := path
  readToString _ := .error "no file"
  parseManifest _ := .error "no manifest"
  gitFetch _ _ := .error "no repository"

/-- A manifest that asks for `a` and `b`. -/
def rangeRoot (a : String) : Manifest where
  name := "app"
  version := "0.1.0"
  defaultFeatures := []
  dependencies := (({} : TreeMap String Dependency).insert "a"
    ⟨.registry a none, [], true, false⟩).insert "b" ⟨.registry "^1.0" none, [], true, false⟩
  features := {}

/-- The requirements `^1.0` and `^2.0`. -/
def CaretOnly (_ _ : String) (q : RangeReq) : Prop := q = .caret 1 0 ∨ q = .caret 2 0

theorem caretOnly_separate : KeysSeparate rangeSemver Prod.fst Prod.snd CaretOnly := by
  rintro reg name q r v w (rfl | rfl) (rfl | rfl) hv hw ⟨hmajor, _⟩
  · rfl
  · simp [rangeSemver] at hv hw
    omega
  · simp [rangeSemver] at hv hw
    omega
  · rfl

theorem caretOnly_uses : UsesOnly CaretOnly (rangeEnv (.caret 2 0)) (rangeRoot "^1.0") := by
  refine ⟨fun m hm reg name q hq => ?_, fun k registry name entries hk hn e he d hd => ?_⟩
  · obtain rfl | ⟨text, htext⟩ := hm
    · obtain ⟨dep, version, registry, hdep, hsource, hparse, _⟩ := hq
      have hversion : version = "^1.0" := by
        unfold rangeRoot at hdep
        rw [getElem?_insert_eq, getElem?_insert_eq, TreeMap.getElem?_emptyc] at hdep
        split_ifs at hdep
        all_goals
          cases hdep
          exact (DepSource.registry.inj hsource).1.symm
      subst hversion
      cases hparse
      exact .inl rfl
    · cases htext
  · unfold rangeEnv at hk
    dsimp only at hk
    split_ifs at hk
    cases hk
    cases hn
    split_ifs at he
    · simp only [List.mem_cons, List.not_mem_nil, or_false] at he
      obtain rfl | rfl := he
      · cases hd
      · cases hd
    · obtain rfl := List.mem_singleton.mp he
      obtain rfl := List.mem_singleton.mp hd
      exact .inr rfl
    · cases he

end pkg
