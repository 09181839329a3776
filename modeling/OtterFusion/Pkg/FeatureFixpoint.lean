-- The features of an answer are at the fixpoint (`resolve.rs`), when no request for features comes
-- too late and nothing is left over where an instance is pinned again: all instances are closed in
-- the end.
import OtterFusion.Pkg.FeatureManifests
import OtterFusion.Pkg.RangeKeys

namespace pkg

open base.outcome
open Std (TreeMap)

variable {V R : Type}

/-! ## Registry packages -/

section registry

variable {env : Env V R} {root : Manifest} {rootDir name : String}
  {isOpen : String → Prop} {r r0 s t : Run V R} {i : Info} {plan : FeaturePlan}
  {old : String → Decl → Prop} {taken : List String} {id : String} {key : ReqKey}
  {registry : Registry V R} {entry : IndexEntry V R} {dir : String}

/-- A registry package that is known has been processed. -/
theorem Inv.registry_processed (h : Inv env root rootDir isOpen r)
    (hid : ∃ s, id = "registry:" ++ s) {j : Info} (hj : r.info env root rootDir id = some j) :
    ∃ f p key e, r.processedFeatures[id]? = some f ∧ r.resolved[id]? = some p ∧
      r.reqKeys[id]? = some key ∧ p.entry = some e ∧ j = entryInfo env key.registry e := by
  rw [info_of_package (registry_ne_rootId hid _)] at hj
  obtain ⟨p, hp, hj⟩ := Option.bind_eq_some_iff.mp hj
  rcases (h.kinds _ p hp).2 with ⟨hlocal, _⟩ | ⟨key, e, hkey, he, hsource, f, hf⟩
  · exact absurd hlocal.kind (registry_ne_local hid)
  · refine ⟨f, p, key, e, hf, hp, hkey, he, ?_⟩
    unfold packageInfo at hj
    rw [he, hsource] at hj
    exact (Option.some.inj hj).symm

/-- The run when an instance has been pinned and its features are processed. -/
def Run.settled (env : Env V R) (r : Run V R) (id : String) (key : ReqKey)
    (registry : Registry V R) (entry : IndexEntry V R) (dir : String) : Run V R :=
  { r.pin id (pinnedPackage env r id key registry entry dir) with
    processedFeatures := r.processedFeatures.insert id (r.requestedFeatures id) }

variable (env root rootDir r id key registry entry) in
/-- Nothing is left over when an instance that is pinned already is pinned to an entry: the entry
declares and turns on the dependencies that are recorded for the instance, and the features that
have been requested are active by it, too. -/
def Carried : Prop :=
  let i := entryInfo env key.registry entry
  r.resolved.contains id = true →
    (∀ name x, EdgeIn r.dependencyEdges id name x → ∃ d, (name, d) ∈ i.deps ∧ x = d.target ∧
      On i (r.requestedFeatures id) name d) ∧
    ∀ k, ∀ f ∈ r.requestedFeatures k, ActiveIn
      (fun p => if p = id then some i else r.info env root rootDir p) r.dependencyEdges
      (rootId root.name) k f

theorem Run.settled_info (hid : ∃ s, id = "registry:" ++ s) (hname : registry.name = key.registry) :
    (r.settled env id key registry entry dir).info env root rootDir = fun p =>
      if p = id then some (entryInfo env key.registry entry) else r.info env root rootDir p := by
  funext p
  by_cases hp : p = id
  · subst hp
    rw [if_pos rfl, info_of_package (registry_ne_rootId hid root.name)]
    unfold Run.settled Run.pin pinnedPackage
    dsimp only
    rw [getElem?_insert_eq, if_pos rfl]
    unfold packageInfo
    dsimp only [Option.bind_some]
    rw [hname]
  · rw [if_neg hp]
    unfold Run.info infoOf Run.settled Run.pin
    dsimp only
    rw [getElem?_insert_eq, if_neg (Ne.symm hp)]

/-- A registry package that is not pinned declares nothing. -/
theorem info_of_new (hid : ∃ s, id = "registry:" ++ s) (hnew : ¬r.resolved.contains id = true) :
    r.info env root rootDir id = none := by
  rw [info_of_package (registry_ne_rootId hid root.name),
    TreeMap.getElem?_eq_none_of_contains_eq_false (eq_false_of_ne_true hnew)]
  rfl

/-- What is recorded for an instance is declared and turned on by the entry. -/
theorem Inv.carried_edge (h : Inv env root rootDir isOpen r) (hid : ∃ s, id = "registry:" ++ s)
    (hcarried : Carried env root rootDir r id key entry) {x : String}
    (he : EdgeIn r.dependencyEdges id name x) :
    ∃ d, (name, d) ∈ (entryInfo env key.registry entry).deps ∧ x = d.target ∧
      On (entryInfo env key.registry entry) (r.requestedFeatures id) name d := by
  by_cases hold : r.resolved.contains id = true
  · exact (hcarried hold).1 name x he
  · exact absurd he (h.fresh id (info_of_new hid hold) name x)

variable (plan dir) in
/-- An instance is pinned, and nothing is left over: it is open. -/
theorem Inv.settle (h : Inv env root rootDir (fun _ => False) r) (hkey : r.reqKeys[id]? = some key)
    (hname : registry.name = key.registry) (hunique : (entry.deps.map IndexDep.name).Nodup)
    (hcarried : Carried env root rootDir r id key entry) :
    Inv env root rootDir (fun k => k = id) (r.settled env id key registry entry dir) ∧
      (r.settled env id key registry entry dir).info env root rootDir id
        = some (entryInfo env key.registry entry) ∧
      Partial (entryInfo env key.registry entry) plan
        (fun n d => On (entryInfo env key.registry entry) (r.requestedFeatures id) n d ∧
          EdgeIn r.dependencyEdges id n d.target) []
        (r.settled env id key registry entry dir) id := by
  have hid := (h.keys id key hkey).1
  have hinfo : (r.settled env id key registry entry dir).info env root rootDir = _ :=
    Run.settled_info hid hname
  have hself : (r.settled env id key registry entry dir).info env root rootDir id
      = some (entryInfo env key.registry entry) := by
    rw [hinfo]
    exact if_pos rfl
  have hother : ∀ k, k ≠ id → (r.settled env id key registry entry dir).info env root rootDir k
      = r.info env root rootDir k := by
    intro k hk
    rw [hinfo]
    exact if_neg hk
  have hprocessed : ∀ k, k ≠ id →
      (r.settled env id key registry entry dir).processedFeatures[k]? =
        r.processedFeatures[k]? := by
    intro k hk
    unfold Run.settled
    dsimp only
    rw [getElem?_insert_eq, if_neg hk.symm]
  refine ⟨⟨fun k j hj => ?_, h.keys, fun k q hq => ?_, fun k f hf => ?_, fun k hk n x he => ?_,
    fun k j hj hnot => ?_, fun k f hf => ?_, h.root⟩, hself,
      ⟨fun n x => ?_, fun _ _ hd => by cases hd⟩⟩
  · by_cases hk : k = id
    · subst hk
      rw [hself] at hj
      cases hj
      exact entryInfo_unique hunique
    · rw [hother k hk] at hj
      exact h.unique k j hj
  · by_cases hk : k = id
    · subst hk
      unfold Run.settled Run.pin at hq
      dsimp only at hq
      rw [getElem?_insert_eq, if_pos rfl] at hq
      cases hq
      refine ⟨rfl, .inr ⟨key, entry, hkey, rfl, congrArg _ hname, r.requestedFeatures k, ?_⟩⟩
      unfold Run.settled
      dsimp only
      rw [getElem?_insert_eq, if_pos rfl]
    · rw [hprocessed k hk]
      unfold Run.settled Run.pin at hq
      dsimp only at hq
      rw [getElem?_insert_eq, if_neg (Ne.symm hk)] at hq
      exact h.kinds k q hq
  · by_cases hk : k = id
    · subst hk
      unfold Run.settled at hf
      dsimp only at hf
      rw [getElem?_insert_eq, if_pos rfl] at hf
      cases hf
      exact ⟨fun _ hx => hx, ⟨key, hkey⟩, _, hself⟩
    · rw [hprocessed k hk] at hf
      obtain ⟨hsub, hkeys, j, hj⟩ := h.processed k f hf
      exact ⟨hsub, hkeys, j, (hother k hk).trans hj⟩
  · have hkid : k ≠ id := by
      rintro rfl
      rw [hself] at hk
      cases hk
    rw [hother k hkid] at hk
    exact h.fresh k hk n x he
  · rw [hother k hnot] at hj
    refine (h.closed k j hj fun hf => hf).stays (fun _ _ => Iff.rfl) (fun _ _ hx => hx) ?_
    unfold Run.taken
    rw [hprocessed k hnot]
    exact SameEffect.refl _ _
  · by_cases hold : r.resolved.contains id = true
    · rw [hinfo]
      exact (hcarried hold).2 k f hf
    · refine (h.justified k f hf).mono (fun p j hj => ?_) fun _ _ _ he => he
      have hp : p ≠ id := by
        rintro rfl
        rw [info_of_new hid hold] at hj
        cases hj
      exact (hother p hp).trans hj
  · constructor
    · intro he
      obtain ⟨d, hd, rfl, hon⟩ := h.carried_edge hid hcarried he
      exact ⟨d, .inl ⟨hd, hon, he⟩, rfl⟩
    · rintro ⟨d, ⟨_, _, he⟩ | ⟨hd, _⟩, rfl⟩
      · exact he
      · cases hd

/-- The dependencies of a pinned entry, one after the other. -/
theorem Progress.folds {reg : String} {before rest : List (IndexDep R)}
    (hsplit : entry.deps = before ++ rest)
    (h : Progress env root rootDir isOpen (entryInfo env reg entry) plan old id r0
      (before.map fun d => (d.name, d.decl env reg)) r)
    (hopen : isOpen id) (hi : r0.info env root rootDir id = some (entryInfo env reg entry))
    (htaken : ∀ x ∈ taken, x ∈ r0.requestedFeatures id)
    (hplan : PlanFor (entryInfo env reg entry) plan taken) :
    Progress env root rootDir isOpen (entryInfo env reg entry) plan old id r0
      (entryInfo env reg entry).deps (rest.foldl (foldDep env plan id reg) r) := by
  induction rest generalizing r before with
  | nil =>
    have hall : (entryInfo env reg entry).deps = before.map fun d => (d.name, d.decl env reg) := by
      unfold entryInfo
      rw [hsplit, List.append_nil]
    rw [hall]
    exact h
  | cons d rest ih =>
    have hin : ∀ x ∈ before.map fun d => (d.name, d.decl env reg),
        x ∈ (entryInfo env reg entry).deps := by
      intro x hx
      unfold entryInfo
      rw [hsplit, List.map_append]
      exact List.mem_append_left _ hx
    have hd : (d.name, d.decl env reg) ∈ (entryInfo env reg entry).deps := by
      unfold entryInfo
      rw [hsplit]
      exact List.mem_map.mpr ⟨d, List.mem_append_right _ List.mem_cons_self, rfl⟩
    have hstep : Progress env root rootDir isOpen (entryInfo env reg entry) plan old id r0
        ((before.map fun d => (d.name, d.decl env reg)) ++ [(d.name, d.decl env reg)])
        (foldDep env plan id reg r d) := by
      unfold foldDep
      split
      · rename_i hskip
        refine ⟨h.inv, h.frame, h.carried.skip ?_⟩
        unfold OnPlan IndexDep.decl
        simpa using hskip
      · rename_i hon
        have hplanned : OnPlan plan d.name (d.decl env reg) := by
          unfold OnPlan IndexDep.decl
          dsimp only
          cases ho : d.optional with
          | false => exact .inl rfl
          | true =>
            rw [ho] at hon
            simpa using hon
        refine h.ask hopen hi htaken hplan hin hd hplanned
          (require_asked env r plan id d.name _ d.req (d.decl env reg) rfl) fun j hj hnone => ?_
        obtain ⟨f, _, _, _, hf, _⟩ := h.inv.registry_processed
          (ReqKey.new_id env.sem d.name (d.registry.getD reg) d.req) hj
        change r.processedFeatures[(ReqKey.new env.sem d.name (d.registry.getD reg) d.req).id]?
          = none at hnone
        rw [hf] at hnone
        cases hnone
    have hnext : entry.deps = (before ++ [d]) ++ rest := by
      rw [hsplit, List.append_assoc]
      rfl
    apply ih hnext
    rw [List.map_append]
    exact hstep

/-- The condition on a pinning: the entry names each dependency once, and nothing is left over. -/
def NothingLeft [DecidableEq V] (env : Env V R) (root : Manifest) (rootDir : String) (r : Run V R)
    (id : String) : Prop :=
  ∀ key, r.reqKeys[id]? = some key → ∀ registry, findRegistry env key = .ok registry →
    ∀ entries, registry.index key.name = .ok entries →
      ∀ entry, chooseEntry env key registry entries (r.reqs.getD id []) = .ok entry →
        (entry.deps.map IndexDep.name).Nodup ∧ Carried env root rootDir r id key entry

variable [DecidableEq V]

/-- A registry package is pinned, and its dependencies are folded in. -/
theorem Inv.resolve (h : Inv env root rootDir (fun _ => False) r) (hnamed : Named env)
    (hleft : NothingLeft env root rootDir r id) {n : Nat}
    (ht : resolveRegistryDep env n r id = .ok t) : Inv env root rootDir (fun _ => False) t := by
  unfold resolveRegistryDep at ht
  split at ht
  · cases ht
  · rename_i key hkey
    obtain ⟨registry, hregistry, ht⟩ := bind_ok.mp ht
    obtain ⟨entries, hentries, ht⟩ := bind_ok.mp ht
    split at ht
    · cases ht
    · obtain ⟨entry, hentry, ht⟩ := bind_ok.mp ht
      obtain ⟨hunique, hcarried⟩ := hleft key hkey registry hregistry entries
        (mapError_ok.mp hentries) entry hentry
      unfold pinRegistry at ht
      obtain ⟨tarball, _, ht⟩ := bind_ok.mp ht
      obtain ⟨dir, _, ht⟩ := bind_ok.mp ht
      obtain ⟨plan, hplan, ht⟩ := bind_ok.mp ht
      cases ht
      have hname := hnamed _ _ (findRegistry_ok hregistry)
      obtain ⟨hinv, hself, hpartial⟩ := h.settle plan dir hkey hname hunique hcarried
      have htaken : (r.settled env id key registry entry dir).taken id =
          r.requestedFeatures id := by
        unfold Run.taken Run.settled
        dsimp only
        rw [getElem?_insert_eq, if_pos rfl]
        rfl
      have hfor : PlanFor (entryInfo env key.registry entry) plan
          ((r.settled env id key registry entry dir).taken id) := by
        rw [htaken]
        exact fromIndex_planFor hunique hplan
      have hstart : Progress env root rootDir (fun k => k = id) (entryInfo env key.registry entry)
          plan _ id (r.settled env id key registry entry dir) []
          (r.settled env id key registry entry dir) :=
        ⟨hinv, Frame.refl id _, hpartial⟩
      have hdone := hstart.folds (List.nil_append _).symm rfl hself (fun x hx => htaken ▸ hx) hfor
      refine (hdone.finish hself hfor ?_).weaken fun k hk => hk.2 hk.1
      rintro n d ⟨hon, _⟩
      rw [htaken]
      exact hon

/-- The rounds keep the instances closed. -/
theorem Inv.rounds (hnamed : Named env) {n : Nat} (h : Inv env root rootDir (fun _ => False) r)
    (hleft : EachPin env (NothingLeft env root rootDir) n r) (ht : runLoop env n r = .ok t) :
    Inv env root rootDir (fun _ => False) t ∧ t.pending = [] := by
  induction n generalizing r with
  | zero => cases ht
  | succ n ih =>
    unfold runLoop at ht
    dsimp only at ht
    split at ht
    · rename_i hempty
      cases ht
      exact ⟨h, List.isEmpty_iff.mp hempty⟩
    · obtain ⟨u, hu, ht⟩ := bind_ok.mp ht
      refine ih ?_ (hleft.2 u hu) ht
      exact EachTurn.keeps (fun s a t hP hs hst => hs.resolve hnamed hP hst) hleft.1 h hu

/-! ## The law -/

omit [DecidableEq V] in
theorem Inv.taken_eq (h : Inv env root rootDir (fun _ => False) r) (hdone : r.pending = []) :
    r.taken id = r.requestedFeatures id := by
  unfold Run.taken
  cases hp : r.processedFeatures[id]? with
  | none => rfl
  | some f =>
    obtain ⟨_, ⟨key, hkey⟩, _⟩ := h.processed id f hp
    have hin : id ∈ r.reqs.keys := TreeMap.mem_keys.mpr (h.keys id key hkey).2
    have hnot := List.filter_eq_nil_iff.mp hdone id hin
    rw [hp] at hnot
    simp only [Bool.or_eq_true, decide_eq_true_iff, not_or, not_not] at hnot
    exact Option.some.inj hnot.2

omit [DecidableEq V] in
/-- What is active for an instance is so by the features requested of it. -/
theorem Inv.active (h : Inv env root rootDir (fun _ => False) r) (hdone : r.pending = [])
    {f : String}
    (ha : ActiveIn (r.info env root rootDir) r.dependencyEdges (rootId root.name) id f) :
    ∀ i, r.info env root rootDir id = some i → Active i.table (· ∈ r.requestedFeatures id) f := by
  have hedge : ∀ parent name id j, EdgeIn r.dependencyEdges parent name id →
      r.info env root rootDir parent = some j → ∃ d, (name, d) ∈ j.deps ∧ id = d.target ∧
        Passes j (r.requestedFeatures parent) name d r := by
    intro parent name id j he hj
    have hclosed := h.closed parent j hj fun hf => hf
    rw [h.taken_eq hdone] at hclosed
    obtain ⟨d, hd, hon, hid⟩ := (hclosed.edges name id).mp he
    exact ⟨d, hd, hid, hclosed.passes name d hd hon⟩
  induction ha with
  | root => exact fun _ _ => .requested h.root
  | declared he hj hd hf =>
    obtain ⟨e, he', rfl, hpasses⟩ := hedge _ _ _ _ he hj
    rw [unique_decl (h.unique _ _ hj) hd he'] at hf
    exact fun _ _ => .requested (hpasses.declared _ hf)
  | passed he hj _ hitems hitem hparse ih =>
    obtain ⟨e, he', rfl, hpasses⟩ := hedge _ _ _ _ he hj
    exact fun _ _ => .requested (hpasses.passed _ ⟨_, _, _, ih _ hj, hitems, hitem, hparse⟩)
  | item hi _ hitems hitem hparse ih =>
    intro i hi'
    rw [hi] at hi'
    cases hi'
    exact .item (ih _ hi) hitems hitem hparse

omit [DecidableEq V] in
/-- An optional dependency is in the graph exactly when an active feature turns it on. -/
theorem Inv.fixpoint (h : Inv env root rootDir (fun _ => False) r) (hdone : r.pending = [])
    {i : Info} (hi : r.info env root rootDir id = some i) {d : Decl} (hd : (name, d) ∈ i.deps)
    (ho : d.optional = true) : EdgeIn r.dependencyEdges id name d.target ↔
      Enables i.table (ActiveIn (r.info env root rootDir) r.dependencyEdges (rootId root.name) id)
        name := by
  have hclosed := h.closed id i hi fun hf => hf
  rw [h.taken_eq hdone] at hclosed
  rw [hclosed.edges]
  have hiff : Enables i.table (· ∈ r.requestedFeatures id) name ↔ Enables i.table
      (ActiveIn (r.info env root rootDir) r.dependencyEdges (rootId root.name) id) name := by
    constructor
    · exact Enables.mono fun f hf => .requested (h.justified id f hf)
    · exact Enables.mono fun f hf => h.active hdone hf i hi
  rw [← hiff]
  constructor
  · rintro ⟨e, he, hon, _⟩
    rw [← unique_decl (h.unique id i hi) hd he] at hon
    refine hon.resolve_left ?_
    simp [ho]
  · exact fun hon => ⟨d, hd, .inr hon, rfl⟩

omit [DecidableEq V] in
/-- Before the first manifest, the root is open. -/
theorem Inv.start (env : Env V R) (root : Manifest) (rootDir : String) :
    Inv env root rootDir (fun k => k = rootId root.name)
      ((Run.start V R (rootId root.name)).requestDefaultFeatures (rootId root.name)) := by
  generalize hr : (Run.start V R (rootId root.name)).requestDefaultFeatures (rootId root.name) = r
  have hnone : ∀ k : String, r.resolved[k]? = none := by
    rw [← hr]
    exact fun k => TreeMap.getElem?_emptyc
  have hprocessed : ∀ k : String, r.processedFeatures[k]? = none := by
    rw [← hr]
    exact fun k => TreeMap.getElem?_emptyc
  have hkeys : ∀ k : String, r.reqKeys[k]? = none := by
    rw [← hr]
    exact fun k => TreeMap.getElem?_emptyc
  have hedges : ∀ k n x, ¬EdgeIn r.dependencyEdges k n x := by
    rw [← hr]
    intro k n x he
    unfold EdgeIn at he
    rw [show (Run.requestDefaultFeatures (Run.start V R (rootId root.name))
      (rootId root.name)).dependencyEdges = {} from rfl, TreeMap.getD_emptyc,
      TreeMap.getElem?_emptyc] at he
    cases he
  have hrequested : ∀ k x, x ∈ r.requestedFeatures k ↔ k = rootId root.name ∧ x = "default" := by
    rw [← hr]
    intro k x
    show x ∈ (({} : TreeMap String (List String)).insert _ _).getD k [] ↔ _
    rw [getD_insert_eq]
    split
    · rename_i hk
      rw [mem_addName, show (Run.start V R (rootId root.name)).requestedFeatures (rootId root.name)
        = [] from TreeMap.getD_emptyc]
      simp [hk]
    · rename_i hk
      rw [TreeMap.getD_emptyc]
      constructor
      · intro hx
        cases hx
      · rintro ⟨rfl, _⟩
        exact absurd rfl hk
  have hinfo : ∀ k i, r.info env root rootDir k = some i → k = rootId root.name ∧
      i = manifestInfo env root rootDir := by
    intro k i hi
    by_cases hk : k = rootId root.name
    · unfold Run.info infoOf at hi
      rw [if_pos hk] at hi
      exact ⟨hk, (Option.some.inj hi).symm⟩
    · rw [info_of_package hk, hnone] at hi
      cases hi
  refine ⟨fun k i hi => ?_, fun k key hkey => ?_, fun k p hp => ?_, fun k f hf => ?_,
    fun k _ n x he => hedges k n x he, fun k i hi hnot => absurd (hinfo k i hi).1 hnot,
    fun k f hf => ?_, (hrequested _ _).mpr ⟨rfl, rfl⟩⟩
  · rw [(hinfo k i hi).2]
    exact manifestInfo_unique root rootDir
  · rw [hkeys] at hkey
    cases hkey
  · rw [hnone] at hp
    cases hp
  · rw [hprocessed] at hf
    cases hf
  · obtain ⟨rfl, rfl⟩ := (hrequested k f).mp hf
    exact .root

end registry

/-- A package that is resolved declares something. -/
theorem Inv.info_of_resolved {env : Env V R} {root : Manifest} {rootDir : String}
    {isOpen : String → Prop} {r : Run V R} (h : Inv env root rootDir isOpen r) {id : String}
    {p : ResolvedInternal V R} (hp : r.resolved[id]? = some p) :
    ∃ i, r.info env root rootDir id = some i := by
  obtain ⟨_, hkind⟩ := h.kinds id p hp
  rcases hkind with ⟨hlocal, _, i, hi⟩ | ⟨key, e, hkey, he, hsource, _⟩
  · refine ⟨i, ?_⟩
    rw [info_of_package (local_ne_root hlocal.kind _), hp]
    exact hi
  · refine ⟨entryInfo env key.registry e, ?_⟩
    rw [info_of_package (registry_ne_rootId (h.keys _ key hkey).1 _), hp]
    unfold packageInfo
    dsimp only [Option.bind_some]
    rw [he, hsource]

/-- The run behind an answer: what the manifests leave, and what the rounds make of it. -/
structure Behind (env : Env V R) (root : Manifest) (rootDir : String) (res : Resolved V R)
    (seeded r : Run V R) : Prop where
  seededInv : Inv env root rootDir (fun _ => False) seeded
  inv : Inv env root rootDir (fun _ => False) r
  idle : r.pending = []
  packages : ∀ p, p ∈ res.packages ↔ ∃ id : String, r.resolved[id]? = some p
  edges : res.edges = r.edges.map fun _ targets => (targets.insertionSort (· ≤ ·)).dedup
  dependencyEdges : res.dependencyEdges = r.dependencyEdges
  rootId : res.rootId = rootId root.name
  info : infoOf env root rootDir res.getById = r.info env root rootDir

/-- What the manifests leave, when no request for features comes late. -/
theorem Inv.seeded {env : Env V R} {fuel : Nat} {root : Manifest} {rootDir : String}
    {seeded : Run V R}
    (hlate : NoLateFeatures env fuel ((Run.start V R (rootId root.name)).requestDefaultFeatures
      (rootId root.name)) root rootDir true (rootId root.name))
    (hseed : seed env fuel ((Run.start V R (rootId root.name)).requestDefaultFeatures
      (rootId root.name)) root rootDir true (rootId root.name) = .ok seeded) :
    Inv env root rootDir (fun _ => False) seeded := by
  have hstart := Inv.start env root rootDir
  have hroot : ((Run.start V R (rootId root.name)).requestDefaultFeatures (rootId root.name)).info
      env root rootDir (rootId root.name) = some (manifestInfo env root rootDir) :=
    if_pos rfl
  have hexpanded := seed_expands fuel _ _ root rootDir true _ seeded hstart rfl hroot
    TreeMap.getElem?_emptyc (fun n x he => by
      unfold EdgeIn at he
      rw [show (Run.requestDefaultFeatures (Run.start V R (rootId root.name))
        (rootId root.name)).dependencyEdges = {} from rfl, TreeMap.getD_emptyc,
        TreeMap.getElem?_emptyc] at he
      cases he) hlate hseed
  exact hexpanded.1.weaken fun k hk => hk.2 hk.1

theorem resolve_behind [DecidableEq V] {env : Env V R} {fuel : Nat} {root : Manifest}
    {rootDir : String} {res : Resolved V R} (hnamed : Named env)
    (h : resolve env fuel root rootDir = .ok res)
    (hlate : NoLateFeatures env fuel ((Run.start V R (rootId root.name)).requestDefaultFeatures
      (rootId root.name)) root rootDir true (rootId root.name))
    (hleft : EachPinned env (NothingLeft env root rootDir) fuel root rootDir) :
    ∃ seeded r, seed env fuel ((Run.start V R (rootId root.name)).requestDefaultFeatures
        (rootId root.name)) root rootDir true (rootId root.name) = .ok seeded ∧
      runLoop env fuel seeded = .ok r ∧ Behind env root rootDir res seeded r := by
  unfold resolve at h
  obtain ⟨seeded, hseed, h⟩ := bind_ok.mp h
  obtain ⟨r, hrun, h⟩ := bind_ok.mp h
  have hseeded := Inv.seeded hlate hseed
  obtain ⟨hinv, hdone⟩ := hseeded.rounds hnamed (hleft seeded hseed) hrun
  cases h
  refine ⟨seeded, r, hseed, hrun, hseeded, hinv, hdone, fun _ =>
    mem_sorted_values, rfl, rfl, rfl, ?_⟩
  unfold Run.info
  congr 1
  funext k
  exact find_by_id_eq (fun k p hp => (hinv.kinds k p hp).1) (fun _ => mem_sorted_values) k

/-- Each instance of an answer declares something. -/
theorem Behind.declares {env : Env V R} {root : Manifest} {rootDir : String} {res : Resolved V R}
    {seeded r : Run V R} (h : Behind env root rootDir res seeded r) {id : String}
    (hid : res.Has id) : ∃ i, r.info env root rootDir id = some i := by
  rcases hid with rfl | ⟨p, hp, rfl⟩
  · rw [h.rootId]
    exact ⟨_, if_pos rfl⟩
  · obtain ⟨k, hk⟩ := (h.packages p).mp hp
    rw [(h.inv.kinds k p hk).1]
    exact h.inv.info_of_resolved hk

/-- A pinned entry is in the index of the package. -/
def FromIndex (env : Env V R) (r : Run V R) : Prop :=
  ∀ (id : String) (p : ResolvedInternal V R) (e : IndexEntry V R), r.resolved[id]? = some p →
    p.entry = some e → ∃ key registry entries, r.reqKeys[id]? = some key ∧
      env.registries key.registry = some registry ∧ registry.index key.name = .ok entries ∧
        e ∈ entries

theorem FromIndex.require {env : Env V R} {r : Run V R} (h : FromIndex env r)
    (parent name : String) (key : ReqKey) (req : R) :
    FromIndex env (r.require parent name key req) := by
  intro id p e hp he
  obtain ⟨old, registry, entries, hold, hrest⟩ := h id p e hp he
  refine ⟨old, registry, entries, ?_, hrest⟩
  unfold Run.require
  rw [TreeMap.getElem?_insertIfNew, if_neg, hold]
  rintro ⟨heq, hnew⟩
  obtain rfl := Std.compare_eq_iff_eq.mp heq
  rw [← TreeMap.isSome_getElem?_iff_mem, hold] at hnew
  exact hnew rfl

theorem FromIndex.insert {env : Env V R} {r s : Run V R} {id : String}
    {p : ResolvedInternal V R} (h : FromIndex env r) (hkeys : s.reqKeys = r.reqKeys)
    (hresolved : s.resolved = r.resolved.insert id p)
    (hp : ∀ e, p.entry = some e → ∃ key registry entries, r.reqKeys[id]? = some key ∧
      env.registries key.registry = some registry ∧ registry.index key.name = .ok entries ∧
        e ∈ entries) : FromIndex env s := by
  intro k q e hq he
  rw [hkeys]
  rw [hresolved, getElem?_insert_eq] at hq
  split at hq
  · rename_i hk
    subst hk
    obtain rfl := Option.some.inj hq
    exact hp e he
  · exact h k q e hq he

theorem fromIndex_kept [DecidableEq V] (env : Env V R) (root : Manifest) :
    Kept env root (FromIndex env) where
  record := fun _ _ _ _ h => h
  mark := fun r direct id h => by
    unfold Run.markDirect
    split <;> exact h
  request := fun _ _ _ _ _ h => h
  require := fun _ _ parent name _ req _ _ h => h.require parent name _ req
  expand := fun _ _ _ _ _ hentry _ h => h.insert rfl rfl fun e he => by
    rw [hentry] at he
    cases he
  pin := fun _ _ key registry entries _ _ hkey hfound hindex hentry h =>
    h.insert rfl rfl fun _ he => ⟨key, registry, entries, hkey, hfound, hindex,
      Option.some.inj he ▸ chooseEntry_mem hentry⟩
  process := fun _ _ h => h
  fold := fun _ parent _ _ _ _ _ d _ _ _ _ h => h.require parent d.name _ d.req

/-- The versions of a package declare the same, each dependency once. -/
structure Alike (env : Env V R) : Prop where
  unique : ∀ reg registry name entries, env.registries reg = some registry →
    registry.index name = .ok entries → ∀ e ∈ entries, (e.deps.map IndexDep.name).Nodup
  same : ∀ reg registry name entries, env.registries reg = some registry →
    registry.index name = .ok entries → ∀ e ∈ entries, ∀ e' ∈ entries,
      entryInfo env reg e = entryInfo env reg e'

section alike

variable [DecidableEq V] {env : Env V R} {root : Manifest} {rootDir : String} {r : Run V R}

/-- Where the versions of a package declare the same, nothing is left over. -/
theorem Inv.nothingLeft (h : Inv env root rootDir (fun _ => False) r) (hindex : FromIndex env r)
    (halike : Alike env) (id : String) : NothingLeft env root rootDir r id := by
  intro key hkey registry hregistry entries hentries entry hentry
  have hmem := chooseEntry_mem hentry
  have hfound := findRegistry_ok hregistry
  refine ⟨halike.unique _ _ _ _ hfound hentries entry hmem, fun hold => ?_⟩
  have hid := (h.keys id key hkey).1
  obtain ⟨p, hp⟩ := Option.isSome_iff_exists.mp
    ((TreeMap.contains_eq_isSome_getElem? (t := r.resolved) (a := id)).symm.trans hold)
  obtain ⟨j, hj⟩ : ∃ j, r.info env root rootDir id = some j := by
    rcases (h.kinds id p hp).2 with ⟨hlocal, _⟩ | ⟨_, _, _, _, _, f, hf⟩
    · exact absurd hlocal.kind (registry_ne_local hid)
    · exact (h.processed id f hf).2.2
  obtain ⟨f, p', key', e, hf, hp', hkey', he, rfl⟩ := h.registry_processed hid hj
  obtain rfl := Option.some.inj (hp.symm.trans hp')
  obtain rfl := Option.some.inj (hkey.symm.trans hkey')
  obtain ⟨key', registry', entries', hkey', hfound', hentries', hin⟩ := hindex id p e hp he
  obtain rfl := Option.some.inj (hkey.symm.trans hkey')
  obtain rfl := Option.some.inj (hfound.symm.trans hfound')
  obtain rfl : entries = entries' := Except.ok.inj (hentries.symm.trans hentries')
  have hsame := halike.same _ _ _ _ hfound hentries e hin entry hmem
  rw [hsame] at hj
  refine ⟨fun name x hx => ?_, fun k f hf => ?_⟩
  · obtain ⟨d, hd, hon, hxd⟩ := ((h.closed id _ hj fun hf => hf).edges name x).mp hx
    refine ⟨d, hd, hxd, hon.mono ?_⟩
    unfold Run.taken
    rw [hf]
    exact (h.processed id f hf).1
  · have hinfo : (fun p => if p = id then some (entryInfo env key.registry entry)
        else r.info env root rootDir p) = r.info env root rootDir := by
      funext p
      split
      · rename_i hp
        rw [hp, hj]
      · rfl
    rw [hinfo]
    exact h.justified k f hf

theorem eachPinned_of_alike {fuel : Nat} (hnamed : Named env) (halike : Alike env)
    (hlate : NoLateFeatures env fuel ((Run.start V R (rootId root.name)).requestDefaultFeatures
      (rootId root.name)) root rootDir true (rootId root.name)) :
    EachPinned env (NothingLeft env root rootDir) fuel root rootDir := by
  intro seeded hseed
  have hstart : FromIndex env ((Run.start V R (rootId root.name)).requestDefaultFeatures
      (rootId root.name)) := by
    intro id p e hp
    rw [show ((Run.start V R (rootId root.name)).requestDefaultFeatures
      (rootId root.name)).resolved[id]? = none from TreeMap.getElem?_emptyc] at hp
    cases hp
  apply EachPin.of_keeps (I := fun r => Inv env root rootDir (fun _ => False) r ∧ FromIndex env r)
  · exact fun r id h => h.1.nothingLeft h.2 halike id
  · intro n r id t h ht
    exact ⟨h.1.resolve hnamed (h.1.nothingLeft h.2 halike id) ht,
      (fromIndex_kept env root).settle h.2 ht⟩
  · exact ⟨Inv.seeded hlate hseed, (fromIndex_kept env root).seed fuel _ _ _ _ _ _ (.inl rfl)
      hstart hseed⟩

end alike

/-- A manifest with registry dependencies only asks for no features of a path or git package. -/
theorem noLateFeatures_of_registry {env : Env V R} {m : Manifest}
    (h : ∀ (name : String) (dep : Dependency), m.dependencies[name]? = some dep →
      ∃ v g, dep.source = .registry v g) (n : Nat) (r : Run V R) (dir : String) (direct : Bool)
    (parent : String) : NoLateFeatures env n r m dir direct parent := by
  cases n with
  | zero => trivial
  | succ n =>
    intro plan _
    apply EachTurn.of_forall
    rintro s ⟨name, dep⟩ hdep _ hlocal
    obtain ⟨v, g, hsource⟩ := h name dep (TreeMap.mem_toList_iff_getElem?_eq_some.mp hdep)
    exact absurd hsource (hlocal v g)

/-! ## A package that is pinned twice -/

/-- An index entry with the feature `x`. -/
def xEntry (name : String) (vers : Nat × Nat) (deps : List (IndexDep RangeReq))
    (items : List String) : IndexEntry (Nat × Nat) RangeReq :=
  ⟨name, vers, deps, ({} : TreeMap String (List String)).insert "x" items, "00", false⟩

/-- Both versions of `a` depend on `c`, and on `o` by the feature `x`; `b` asks for `a` ^1.0 with
the feature `x`. -/
def alikeIndex (name : String) : List (IndexEntry (Nat × Nat) RangeReq) :=
  let deps := [⟨"c", .caret 1 0, false, true, [], none⟩, ⟨"o", .caret 1 0, true, true, [], none⟩]
  if name = "a" then [xEntry "a" (1, 0) deps ["dep:o"], xEntry "a" (2, 0) deps ["dep:o"]]
  else if name = "b" then [rangeEntry "b" (1, 0) [⟨"a", .caret 1 0, false, true, ["x"], none⟩]]
  else [rangeEntry name (1, 0) []]

def alikeEnv : Env (Nat × Nat) RangeReq :=
  { rangeEnv (.caret 1 0) with
    registries := fun k =>
      if k = "main" then some ⟨"main", fun name => .ok (alikeIndex name), fun _ => .ok []⟩
      else none }

theorem alikeEnv_index {reg name : String} {registry : Registry (Nat × Nat) RangeReq}
    {entries : List (IndexEntry (Nat × Nat) RangeReq)} (h : alikeEnv.registries reg = some registry)
    (hindex : registry.index name = .ok entries) : entries = alikeIndex name := by
  unfold alikeEnv at h
  dsimp only at h
  split_ifs at h
  cases h
  cases hindex
  rfl

theorem alikeEnv_alike : Alike alikeEnv := by
  refine ⟨fun reg registry name entries h hindex e he => ?_,
    fun reg registry name entries h hindex e he e' he' => ?_⟩
  · obtain rfl := alikeEnv_index h hindex
    unfold alikeIndex at he
    dsimp only at he
    split_ifs at he
    · simp only [List.mem_cons, List.not_mem_nil, or_false] at he
      rcases he with rfl | rfl <;> decide
    · rw [List.mem_singleton.mp he]
      decide
    · rw [List.mem_singleton.mp he]
      exact List.nodup_nil
  · obtain rfl := alikeEnv_index h hindex
    unfold alikeIndex at he he'
    dsimp only at he he'
    split_ifs at he he'
    · simp only [List.mem_cons, List.not_mem_nil, or_false] at he he'
      rcases he with rfl | rfl <;> rcases he' with rfl | rfl <;> rfl
    · rw [List.mem_singleton.mp he, List.mem_singleton.mp he']
    · rw [List.mem_singleton.mp he, List.mem_singleton.mp he']

theorem alikeEnv_named : Named alikeEnv := by
  intro k registry hk
  unfold alikeEnv at hk
  dsimp only at hk
  split_ifs at hk with hmain
  cases hk
  exact hmain.symm

theorem rangeRoot_quiet (text : String) (n : Nat) (r : Run (Nat × Nat) RangeReq) :
    NoLateFeatures alikeEnv n r (rangeRoot text) "/app" true (rootId (rangeRoot text).name) := by
  refine noLateFeatures_of_registry (fun name dep hdep => ?_) _ _ _ _ _
  unfold rangeRoot at hdep
  rw [getElem?_insert_eq, getElem?_insert_eq, TreeMap.getElem?_emptyc] at hdep
  split_ifs at hdep
  all_goals
    cases hdep
    exact ⟨_, _, rfl⟩

/-- A manifest with one dependency on a path package. -/
def pathManifest (name dep path : String) (optional : Bool) (features : List String)
    (table : TreeMap String (List String)) : Manifest where
  name := name
  version := "0.1.0"
  defaultFeatures := []
  dependencies :=
    ({} : TreeMap String Dependency).insert dep ⟨.path path, features, false, optional⟩
  features := table

/-- `p` has the feature `x` that turns its optional dependency `o` on. -/
def manifestP : Manifest :=
  pathManifest "p" "o" "o" true [] (({} : TreeMap String (List String)).insert "x" ["dep:o"])

theorem parseItem_dep : parseItem "dep:o" = .dep "o" := by decide +kernel

/-- `q` asks for `p` with these features. -/
def manifestQ (features : List String) : Manifest := pathManifest "q" "p" "../p" false features {}

/-- The directories of `p` and `q`; the digest of a path is the path. -/
def featureEnv (features : List String) : Env (Nat × Nat) RangeReq :=
  { rangeEnv (.caret 1 0) with
    sha256Hex := id
    normalize := fun path => if path = "/app/q/../p" then "/app/p" else path
    readToString := .ok
    parseManifest := fun text =>
      if text = "/app/p/project.toml" then .ok manifestP
      else if text = "/app/q/project.toml" then .ok (manifestQ features)
      else .error "no manifest" }

/-- A root that asks for `p` without features, and then for `q`. -/
def pathRoot : Manifest where
  name := "app"
  version := "0.1.0"
  defaultFeatures := []
  dependencies := (({} : TreeMap String Dependency).insert "p" ⟨.path "p", [], false, false⟩).insert
    "q" ⟨.path "q", [], false, false⟩
  features := {}

/-- What a path package of an answer declares. -/
theorem info_of_path {features : List String} {res : Resolved (Nat × Nat) RangeReq}
    {id dir : String}
    {m : Manifest} (hne : id ≠ rootId pathRoot.name)
    (h : (res.getById id).any fun p => p.entry.isNone && p.root == dir)
    (hload : loadManifest (featureEnv features) dir (.path "") = .ok m) :
    res.Has id ∧ infoOf (featureEnv features) pathRoot "/app" res.getById id
      = some (manifestInfo (featureEnv features) m dir) := by
  obtain ⟨p, hp, hcond⟩ := (Option.any_eq_true _ _).mp h
  rw [Bool.and_eq_true, Option.isNone_iff_eq_none, beq_iff_eq] at hcond
  obtain ⟨hentry, hroot⟩ := hcond
  refine ⟨.inr ⟨p, List.mem_of_find?_eq_some hp, ?_⟩, ?_⟩
  · unfold Resolved.getById at hp
    have hid := List.find?_some hp
    exact beq_iff_eq.mp hid
  · unfold infoOf packageInfo
    rw [if_neg hne, hp]
    dsimp only [Option.bind_some]
    rw [hentry, hroot]
    dsimp only
    rw [loadManifest_ok hload]

end pkg
