-- The manifests of path and git packages are folded in (`resolve.rs`): each package that a
-- dependency leads to is expanded once, and is closed from then on.
import OtterFusion.Pkg.FeatureClosed

namespace pkg

open base.outcome
open Std (TreeMap)

variable {V R : Type}

/-! ## Path and git packages -/

theorem Asked.mark {r s : Run V R} {parent name : String} {d : Decl} {more : List String}
    (h : Asked r s parent name d more) (direct : Bool) (id : String) :
    Asked r (s.markDirect direct id) parent name d more := by
  cases direct with
  | true => exact { h with }
  | false => exact h

/-- The kind of the error does not matter. -/
theorem loadManifest_ok {env : Env V R} {dir : String} {e e' : String → ResolveError}
    {m : Manifest} (h : loadManifest env dir e = .ok m) : loadManifest env dir e' = .ok m := by
  unfold loadManifest at h ⊢
  obtain ⟨text, htext, h⟩ := bind_ok.mp h
  exact bind_ok.mpr ⟨text, mapError_ok.mpr (mapError_ok.mp htext),
    mapError_ok.mpr (mapError_ok.mp h)⟩

/-- The package that a path or git dependency leads to. -/
theorem Opens.spec {env : Env V R} {baseDir name dir : String} {direct : Bool} {dep : Dependency}
    {p : ResolvedInternal V R} {m : Manifest} (h : Opens env baseDir direct name dep p m dir) :
    p.id = dep.target env baseDir name ∧ LocalId env (dep.target env baseDir name) p ∧
      p.entry = none ∧ packageInfo env p = some (manifestInfo env m dir) := by
  rcases h with ⟨path, hsource, rfl, hload, rfl⟩ |
    ⟨url, reference, checkout, hsource, _, rfl, hload, rfl⟩
  · have htarget : dep.target env baseDir name
        = pathId env.sha256Hex name (env.normalize (env.join baseDir path)) := by
      unfold Dependency.target
      rw [hsource]
    refine ⟨htarget.symm, .inl ⟨path, _, rfl, htarget⟩, rfl, ?_⟩
    unfold packageInfo
    dsimp only
    rw [hload]
  · have htarget : dep.target env baseDir name = gitId env.sha256Hex name url := by
      unfold Dependency.target
      rw [hsource]
    refine ⟨htarget.symm, .inr ⟨url, _, rfl, htarget⟩, rfl, ?_⟩
    unfold packageInfo
    dsimp only
    rw [loadManifest_ok hload]

/-- What one dependency of a manifest does. -/
inductive DepStep (env : Env V R) (again : Seed V R) (plan : FeaturePlan) (baseDir : String)
    (direct : Bool) (parent : String) (r : Run V R) (name : String) (dep : Dependency)
    (t : Run V R) : Prop
  | skipped : (dep.optional && !plan.optionalDeps.contains name) = true → t = r →
      DepStep env again plan baseDir direct parent r name dep t
  | registry : (dep.optional && !plan.optionalDeps.contains name) = false →
      (∃ s, dep.target env baseDir name = "registry:" ++ s) →
      Asked r t parent name (dep.decl env baseDir name) (plan.depFeatures.getD name []) →
      DepStep env again plan baseDir direct parent r name dep t
  | known : (dep.optional && !plan.optionalDeps.contains name) = false →
      (∀ v g, dep.source ≠ .registry v g) →
      r.resolved.contains (dep.target env baseDir name) = true →
      t = r.enter plan direct parent name (dep.target env baseDir name) dep →
      DepStep env again plan baseDir direct parent r name dep t
  | opened {p : ResolvedInternal V R} {m : Manifest} {dir : String} :
      (dep.optional && !plan.optionalDeps.contains name) = false →
      (∀ v g, dep.source ≠ .registry v g) →
      r.resolved.contains (dep.target env baseDir name) = false →
      Opens env baseDir direct name dep p m dir →
      again { r.enter plan direct parent name (dep.target env baseDir name) dep with
        resolved :=
          (r.enter plan direct parent name (dep.target env baseDir name) dep).resolved.insert
          (dep.target env baseDir name) p } m dir false (dep.target env baseDir name) = .ok t →
      DepStep env again plan baseDir direct parent r name dep t

theorem enter_resolved (r : Run V R) (plan : FeaturePlan) (direct : Bool) (parent name id : String)
    (dep : Dependency) : (r.enter plan direct parent name id dep).resolved = r.resolved := by
  cases direct <;> rfl

theorem seedDep_cases {env : Env V R} {again : Seed V R} {plan : FeaturePlan} {baseDir : String}
    {direct : Bool} {parent : String} {r t : Run V R} {name : String} {dep : Dependency}
    (h : seedDep env again plan baseDir direct parent r name dep = .ok t) :
    DepStep env again plan baseDir direct parent r name dep t := by
  unfold seedDep at h
  split at h
  · rename_i hskip
    cases h
    exact .skipped hskip rfl
  · rename_i hon
    have hon := eq_false_of_ne_true hon
    cases hsource : dep.source with
    | registry version registry =>
      rw [hsource] at h
      obtain ⟨req, hreq, h⟩ := bind_ok.mp h
      cases h
      have htarget : dep.target env baseDir name
          = (ReqKey.new env.sem name (registry.getD env.defaultRegistry) req).id := by
        unfold Dependency.target
        rw [hsource]
        dsimp only
        rw [mapError_ok.mp hreq]
      refine .registry hon ?_ ?_
      · rw [htarget]
        exact ReqKey.new_id env.sem name _ req
      · apply Asked.mark
        exact require_asked env r plan parent name _ req (dep.decl env baseDir name) htarget
    | path path =>
      have hlocal : ∀ v g, dep.source ≠ .registry v g := by simp [hsource]
      have htarget : dep.target env baseDir name
          = pathId env.sha256Hex name (env.normalize (env.join baseDir path)) := by
        unfold Dependency.target
        rw [hsource]
      rw [hsource] at h
      change resolvePathDep env again (r.enter plan direct parent name _ dep) _ name path _ direct
        = .ok t at h
      rw [← htarget] at h
      unfold resolvePathDep at h
      rw [enter_resolved] at h
      split at h
      · rename_i hknown
        cases h
        exact .known hon hlocal hknown rfl
      · rename_i hnew
        obtain ⟨m, hm, h⟩ := bind_ok.mp h
        refine .opened hon hlocal (eq_false_of_ne_true hnew) (.inl ⟨path, hsource, rfl, hm, rfl⟩) ?_
        rw [← htarget]
        rw [enter_resolved]
        exact h
    | git url reference =>
      have hlocal : ∀ v g, dep.source ≠ .registry v g := by simp [hsource]
      have htarget : dep.target env baseDir name = gitId env.sha256Hex name url := by
        unfold Dependency.target
        rw [hsource]
      rw [hsource] at h
      change resolveGitDep env again (r.enter plan direct parent name _ dep) _ name url reference
        direct = .ok t at h
      rw [← htarget] at h
      unfold resolveGitDep at h
      rw [enter_resolved] at h
      split at h
      · rename_i hknown
        cases h
        exact .known hon hlocal hknown rfl
      · rename_i hnew
        obtain ⟨checkout, hcheckout, h⟩ := bind_ok.mp h
        obtain ⟨_, _, h⟩ := bind_ok.mp h
        obtain ⟨m, hm, h⟩ := bind_ok.mp h
        refine .opened hon hlocal (eq_false_of_ne_true hnew)
          (.inr ⟨url, reference, checkout, hsource, mapError_ok.mp hcheckout, rfl, hm, rfl⟩) ?_
        rw [← htarget]
        rw [enter_resolved]
        exact h

section manifests

variable {env : Env V R} {root : Manifest} {rootDir parent name : String}
  {isOpen : String → Prop} {r r0 s t : Run V R} {i : Info} {plan : FeaturePlan}
  {old : String → Decl → Prop} {taken : List String}

theorem local_ne_root {id : String} (h : (∃ s, id = "path:" ++ s) ∨ ∃ s, id = "git:" ++ s)
    (n : String) : id ≠ rootId n := by
  rintro rfl
  unfold rootId at h
  obtain ⟨s, h⟩ | ⟨s, h⟩ := h
  · simpa using congrArg String.toList h
  · simpa using congrArg String.toList h

theorem registry_ne_rootId {id : String} (h : ∃ s, id = "registry:" ++ s) (n : String) :
    id ≠ rootId n := by
  rintro rfl
  unfold rootId at h
  obtain ⟨s, h⟩ := h
  simpa using congrArg String.toList h

theorem Inv.weaken {isOpen' : String → Prop} (h : Inv env root rootDir isOpen' r)
    (hsub : ∀ id, isOpen' id → isOpen id) : Inv env root rootDir isOpen r :=
  { h with closed := fun id i hi hnot => h.closed id i hi fun ho => hnot (hsub id ho) }

theorem info_of_package {id : String} (hne : id ≠ rootId root.name) :
    r.info env root rootDir id = r.resolved[id]?.bind (packageInfo env) := by
  unfold Run.info infoOf
  rw [if_neg hne]

variable (parent) in
/-- A path or git package is resolved: it is open from then on. -/
theorem Inv.open (h : Inv env root rootDir isOpen r) {id : String} {p : ResolvedInternal V R}
    (hnew : r.resolved.contains id = false) (hid : p.id = id) (hlocal : LocalId env id p)
    (hentry : p.entry = none) (hi : packageInfo env p = some i)
    (hunique : (i.deps.map Prod.fst).Nodup) :
    Inv env root rootDir (fun k => isOpen k ∨ k = id)
        { r with resolved := r.resolved.insert id p } ∧
      Frame env root rootDir parent r { r with resolved := r.resolved.insert id p } ∧
      Run.info env root rootDir { r with resolved := r.resolved.insert id p } id = some i ∧
      r.info env root rootDir id = none := by
  have hne := local_ne_root hlocal.kind root.name
  have hnone : r.resolved[id]? = none := TreeMap.getElem?_eq_none_of_contains_eq_false hnew
  have hold : r.info env root rootDir id = none := by
    rw [info_of_package hne, hnone]
    rfl
  have hself : Run.info env root rootDir { r with resolved := r.resolved.insert id p } id
      = some i := by
    rw [info_of_package hne]
    dsimp only
    rw [getElem?_insert_eq, if_pos rfl]
    exact hi
  have hother : ∀ k, k ≠ id → Run.info env root rootDir
      { r with resolved := r.resolved.insert id p } k = r.info env root rootDir k := by
    intro k hk
    unfold Run.info infoOf
    dsimp only
    rw [getElem?_insert_eq, if_neg hk.symm]
  have hinfo : ∀ k j, r.info env root rootDir k = some j → Run.info env root rootDir
      { r with resolved := r.resolved.insert id p } k = some j := by
    intro k j hj
    rw [hother k, hj]
    rintro rfl
    rw [hold] at hj
    cases hj
  refine ⟨⟨fun k j hj => ?_, h.keys, fun k q hq => ?_, fun k f hf => ?_, fun k hk n x he => ?_,
    fun k j hj hnot => ?_, fun k f hf => (h.justified k f hf).mono hinfo fun _ _ _ he => he,
    h.root⟩, ⟨hinfo, rfl, fun _ _ hx => hx, fun _ _ _ _ => SameEffect.refl _ _,
      fun _ _ _ _ _ _ => Iff.rfl⟩, hself, hold⟩
  · by_cases hk : k = id
    · subst hk
      rw [hself] at hj
      cases hj
      exact hunique
    · rw [hother k hk] at hj
      exact h.unique k j hj
  · dsimp only at hq
    rw [getElem?_insert_eq] at hq
    split at hq
    · rename_i hk
      subst hk
      cases hq
      exact ⟨hid, .inl ⟨hlocal, hentry, i, hi⟩⟩
    · exact h.kinds k q hq
  · obtain ⟨hsub, hkeys, j, hj⟩ := h.processed k f hf
    exact ⟨hsub, hkeys, j, hinfo k j hj⟩
  · by_cases hkid : k = id
    · subst hkid
      exact h.fresh k hold n x he
    · rw [hother k hkid] at hk
      exact h.fresh k hk n x he
  · rw [not_or] at hnot
    rw [hother k hnot.2] at hj
    exact (h.closed k j hj hnot.1).stays (fun _ _ => Iff.rfl) (fun _ _ hx => hx)
      (SameEffect.refl _ _)

/-- A package that a dependency led to is expanded: nothing else changes, for what was known
before. -/
theorem Frame.through {id : String} (hrs : Frame env root rootDir parent r s)
    (hnew : r.info env root rootDir id = none) (hst : Frame env root rootDir id s t) :
    Frame env root rootDir parent r t := by
  refine ⟨fun k j hj => hst.info k j (hrs.info k j hj), hst.processed.trans hrs.processed,
    fun k x hx => hst.requested k x (hrs.requested k x hx), fun k j hj hp => ?_,
    fun k j hj hne n x => ?_⟩
  · refine (hrs.effect k j hj hp).trans (hst.effect k j (hrs.info k j hj) ?_)
    rw [hrs.processed]
    exact hp
  · have hk : k ≠ id := by
      rintro rfl
      rw [hnew] at hj
      cases hj
    exact (hst.edges k j (hrs.info k j hj) hk n x).trans (hrs.edges k j hj hne n x)

/-- How an instance is expanded: it was open and had nothing in the graph, and it is closed. -/
def Expands (env : Env V R) (root : Manifest) (rootDir : String) (again : Seed V R)
    (cond : Run V R → Manifest → String → Bool → String → Prop) : Prop :=
  ∀ isOpen r m dir direct parent t, Inv env root rootDir isOpen r → isOpen parent →
    r.info env root rootDir parent = some (manifestInfo env m dir) →
    r.processedFeatures[parent]? = none →
    (∀ n x, ¬EdgeIn r.dependencyEdges parent n x) → cond r m dir direct parent →
    again r m dir direct parent = .ok t →
      Inv env root rootDir (fun k => isOpen k ∧ k ≠ parent) t ∧
        Frame env root rootDir parent r t

/-- The progress in expanding an instance that was in the state `r0`. -/
structure Progress (env : Env V R) (root : Manifest) (rootDir : String) (isOpen : String → Prop)
    (i : Info) (plan : FeaturePlan) (old : String → Decl → Prop) (parent : String) (r0 : Run V R)
    (done : List (String × Decl)) (r : Run V R) : Prop where
  inv : Inv env root rootDir isOpen r
  frame : Frame env root rootDir parent r0 r
  carried : Partial i plan old done r parent

/-- One dependency more, that is on: it is recorded and asked for its features. -/
theorem Progress.ask {d : Decl} {done : List (String × Decl)}
    (h : Progress env root rootDir isOpen i plan old parent r0 done r) (hopen : isOpen parent)
    (hi : r0.info env root rootDir parent = some i)
    (htaken : ∀ x ∈ taken, x ∈ r0.requestedFeatures parent) (hplan : PlanFor i plan taken)
    (hdone : ∀ x ∈ done, x ∈ i.deps) (hd : (name, d) ∈ i.deps) (hon : OnPlan plan name d)
    (hs : Asked r s parent name d (plan.depFeatures.getD name []))
    (heffect : ∀ j, r.info env root rootDir d.target = some j →
      r.processedFeatures[d.target]? = none →
        SameEffect j (r.requestedFeatures d.target) (s.requestedFeatures d.target)) :
    Progress env root rootDir isOpen i plan old parent r0 (done ++ [(name, d)]) s := by
  have hir := h.frame.info parent i hi
  have hunique := h.inv.unique parent i hir
  have hmore : ∀ x ∈ plan.depFeatures.getD name [],
      TurnsOn i.table (· ∈ r.requestedFeatures parent) (.depFeature name x) := by
    intro x hx
    refine ((hplan.passed name x).mp hx).mono fun f hf => .requested ?_
    exact h.frame.requested parent f (htaken f hf)
  obtain ⟨hinv, hframe⟩ := h.inv.ask hs hopen hir hd
    (fun x he => h.carried.same hunique hdone hd he) hmore heffect
  exact ⟨hinv, h.frame.trans hframe, h.carried.ask hs hon hunique hdone hd⟩

theorem onPlan_of {dep : Dependency} {baseDir : String}
    (h : (dep.optional && !plan.optionalDeps.contains name) = false) :
    OnPlan plan name (dep.decl env baseDir name) := by
  unfold OnPlan Dependency.decl
  dsimp only
  cases ho : dep.optional with
  | false => exact .inl rfl
  | true =>
    rw [ho] at h
    simpa using h

theorem not_onPlan_of {dep : Dependency} {baseDir : String}
    (h : (dep.optional && !plan.optionalDeps.contains name) = true) :
    ¬OnPlan plan name (dep.decl env baseDir name) := by
  unfold OnPlan Dependency.decl
  simpa using h

theorem target_local {dep : Dependency} {baseDir : String}
    (h : ∀ v g, dep.source ≠ .registry v g) :
    (∃ s, dep.target env baseDir name = "path:" ++ s) ∨
      ∃ s, dep.target env baseDir name = "git:" ++ s := by
  unfold Dependency.target
  cases hsource : dep.source with
  | registry version registry => exact absurd hsource (h version registry)
  | path path => exact .inl (pathId_local env.sha256Hex name _)
  | git url reference => exact .inr (gitId_local env.sha256Hex name url)

/-- One dependency of a manifest. -/
theorem Progress.dep {again : Seed V R}
    {cond : Run V R → Manifest → String → Bool → String → Prop}
    (hagain : Expands env root rootDir again cond) {m : Manifest} {dir : String} {direct : Bool}
    {done : List (String × Decl)} {dep : Dependency}
    (h : Progress env root rootDir isOpen (manifestInfo env m dir) plan old parent r0 done r)
    (hopen : isOpen parent)
    (hi : r0.info env root rootDir parent = some (manifestInfo env m dir))
    (htaken : ∀ x ∈ taken, x ∈ r0.requestedFeatures parent)
    (hplan : PlanFor (manifestInfo env m dir) plan taken)
    (hdone : ∀ x ∈ done, x ∈ (manifestInfo env m dir).deps)
    (hd : (name, dep.decl env dir name) ∈ (manifestInfo env m dir).deps)
    (hcond : DepCondition env cond plan dir direct parent r (name, dep))
    (ht : seedDep env again plan dir direct parent r name dep = .ok t) :
    Progress env root rootDir isOpen (manifestInfo env m dir) plan old parent r0
      (done ++ [(name, dep.decl env dir name)]) t := by
  cases seedDep_cases ht with
  | skipped hskip heq =>
    subst heq
    exact ⟨h.inv, h.frame, h.carried.skip (not_onPlan_of hskip)⟩
  | registry hon hid hasked =>
    refine h.ask hopen hi htaken hplan hdone hd (onPlan_of hon) hasked fun j hj hnone => ?_
    exfalso
    change r.info env root rootDir (dep.target env dir name) = some j at hj
    change r.processedFeatures[dep.target env dir name]? = none at hnone
    rw [info_of_package (registry_ne_rootId hid _)] at hj
    obtain ⟨p, hp, _⟩ := Option.bind_eq_some_iff.mp hj
    rcases (h.inv.kinds _ p hp).2 with ⟨hlocal, _⟩ | ⟨key, e, _, _, _, f, hf⟩
    · exact registry_ne_local hid hlocal.kind
    · rw [hnone] at hf
      cases hf
  | known hon hlocal hknown heq =>
    subst heq
    refine h.ask hopen hi htaken hplan hdone hd (onPlan_of hon)
      (enter_asked env r plan direct parent dir
      name dep) fun j hj _ => ?_
    change r.info env root rootDir (dep.target env dir name) = some j at hj
    rw [info_of_package (local_ne_root (target_local hlocal) _)] at hj
    obtain ⟨p, hp, hj⟩ := Option.bind_eq_some_iff.mp hj
    exact (hcond hon hlocal).1 p j hp hj
  | @opened p m' dir' hon hlocal hnew hopens hrun =>
    obtain ⟨hid, hlocalId, hentry, hpackage⟩ := hopens.spec
    have hnone : r.info env root rootDir (dep.target env dir name) = none := by
      rw [info_of_package (local_ne_root (target_local hlocal) _),
        TreeMap.getElem?_eq_none_of_contains_eq_false hnew]
      rfl
    have hasked := h.ask hopen hi htaken hplan hdone hd (onPlan_of hon)
      (enter_asked env r plan direct parent dir name dep) fun j hj _ => by
        change r.info env root rootDir (dep.target env dir name) = some j at hj
        rw [hnone] at hj
        cases hj
    have hnew' : (r.enter plan direct parent name (dep.target env dir name) dep).resolved.contains
        (dep.target env dir name) = false := by
      rw [enter_resolved]
      exact hnew
    obtain ⟨hinv, hframe, hself, hwas⟩ := hasked.inv.open parent hnew' hid hlocalId
      hentry hpackage (manifestInfo_unique m' dir')
    have hgone : r0.info env root rootDir (dep.target env dir name) = none := by
      cases hr0 : r0.info env root rootDir (dep.target env dir name) with
      | none => rfl
      | some j =>
        rw [h.frame.info _ j hr0] at hnone
        cases hnone
    have hne : parent ≠ dep.target env dir name := by
      intro he
      rw [← he, hi] at hgone
      cases hgone
    have hunprocessed : (r.enter plan direct parent name (dep.target env dir name)
        dep).processedFeatures[dep.target env dir name]? = none := by
      cases hp : (r.enter plan direct parent name (dep.target env dir name)
          dep).processedFeatures[dep.target env dir name]? with
      | none => rfl
      | some f =>
        obtain ⟨_, ⟨key, hkey⟩, _⟩ := hasked.inv.processed _ f hp
        exact absurd (target_local hlocal) (registry_ne_local (hasked.inv.keys _ key hkey).1)
    obtain ⟨htinv, htframe⟩ := hagain _ _ m' dir' false _ t hinv (.inr rfl) hself hunprocessed
      (fun n x he => hasked.inv.fresh _ hwas n x he) ((hcond hon hlocal).2 p m' dir' hnew hopens)
      hrun
    have hparent := hframe.info parent _ (hasked.frame.info parent _ hi)
    refine ⟨htinv.weaken fun k hk => hk.1.resolve_right hk.2,
      (hasked.frame.trans hframe).through hgone htframe, ?_⟩
    apply hasked.carried.stays
    · exact fun n x => htframe.edges parent _ hparent hne n x
    · exact htframe.requested

/-- The dependencies of a manifest, one after the other. -/
theorem Progress.deps {again : Seed V R}
    {cond : Run V R → Manifest → String → Bool → String → Prop}
    (hagain : Expands env root rootDir again cond) {m : Manifest} {dir : String} {direct : Bool}
    {before rest : List (String × Dependency)} (hsplit : m.dependencies.toList = before ++ rest)
    (h : Progress env root rootDir isOpen (manifestInfo env m dir) plan old parent r0
      (before.map fun d => (d.1, d.2.decl env dir d.1)) r)
    (hopen : isOpen parent)
    (hi : r0.info env root rootDir parent = some (manifestInfo env m dir))
    (htaken : ∀ x ∈ taken, x ∈ r0.requestedFeatures parent)
    (hplan : PlanFor (manifestInfo env m dir) plan taken)
    (hcond : EachTurn (DepCondition env cond plan dir direct parent)
      (fun r d => seedDep env again plan dir direct parent r d.1 d.2) r rest)
    (ht : rest.foldlM (fun r d => seedDep env again plan dir direct parent r d.1 d.2) r = .ok t) :
    Progress env root rootDir isOpen (manifestInfo env m dir) plan old parent r0
      (manifestInfo env m dir).deps t := by
  induction rest generalizing r before with
  | nil =>
    cases ht
    have hall : (manifestInfo env m dir).deps = before.map fun d =>
        (d.1, d.2.decl env dir d.1) := by
      unfold manifestInfo
      rw [hsplit, List.append_nil]
    rw [hall]
    exact h
  | cons d rest ih =>
    rw [List.foldlM_cons, bind_ok] at ht
    obtain ⟨u, hu, ht⟩ := ht
    have hin : ∀ x ∈ before, (x.1, x.2.decl env dir x.1) ∈ (manifestInfo env m dir).deps := by
      intro x hx
      unfold manifestInfo
      rw [hsplit]
      exact List.mem_map.mpr ⟨x, List.mem_append_left _ hx, rfl⟩
    have hd : (d.1, d.2.decl env dir d.1) ∈ (manifestInfo env m dir).deps := by
      unfold manifestInfo
      rw [hsplit]
      exact List.mem_map.mpr ⟨d, List.mem_append_right _ List.mem_cons_self, rfl⟩
    have hstep := h.dep hagain hopen hi htaken hplan (fun x hx => by
      obtain ⟨y, hy, rfl⟩ := List.mem_map.mp hx
      exact hin y hy) hd hcond.1 hu
    have hnext : m.dependencies.toList = (before ++ [d]) ++ rest := by
      rw [hsplit, List.append_assoc]
      rfl
    refine ih hnext ?_ (hcond.2 u hu) ht
    rw [List.map_append]
    exact hstep

/-- An instance whose dependencies have all been looked at is closed. -/
theorem Progress.finish (h : Progress env root rootDir isOpen i plan old parent r0 i.deps r)
    (hi : r0.info env root rootDir parent = some i) (hplan : PlanFor i plan (r0.taken parent))
    (hold : ∀ name d, old name d → On i (r0.taken parent) name d) :
    Inv env root rootDir (fun k => isOpen k ∧ k ≠ parent) r := by
  have hclosed := h.carried.closed hplan hold
  refine { h.inv with closed := fun id j hj hnot => ?_ }
  by_cases hid : id = parent
  · subst hid
    rw [h.frame.info id i hi] at hj
    cases hj
    exact hclosed.stays (fun _ _ => Iff.rfl) (fun _ _ hx => hx) (h.frame.taken hi)
  · exact h.inv.closed id j hj fun ho => hnot ⟨ho, hid⟩

/-- A manifest is folded in, with the manifests that it leads to: induction on the fuel. -/
theorem seed_expands (n : Nat) : Expands env root rootDir (seed env n) (NoLateFeatures env n) := by
  induction n with
  | zero =>
    intro isOpen r m dir direct parent t _ _ _ _ _ _ ht
    cases ht
  | succ n ih =>
    intro isOpen r m dir direct parent t h hopen hi hunprocessed hfresh hcond ht
    unfold seed at ht
    obtain ⟨plan, hplan, ht⟩ := bind_ok.mp ht
    have htaken : r.taken parent = r.requestedFeatures parent := by
      unfold Run.taken
      rw [hunprocessed]
      rfl
    have hfor : PlanFor (manifestInfo env m dir) plan (r.taken parent) := by
      rw [htaken]
      exact fromManifest_planFor hplan
    have hstart : Progress env root rootDir isOpen (manifestInfo env m dir) plan
        (fun _ _ => False) parent r [] r := by
      refine ⟨h, Frame.refl parent r, ⟨fun name x => ?_, fun _ _ hd => by cases hd⟩⟩
      constructor
      · exact fun he => absurd he (hfresh name x)
      · rintro ⟨d, ⟨_, hf⟩ | ⟨hd, _⟩, _⟩
        · exact hf.elim
        · cases hd
    have hdone := hstart.deps ih (List.nil_append _).symm hopen hi (fun x hx => htaken ▸ hx) hfor
      (hcond plan hplan) ht
    exact ⟨hdone.finish hi hfor fun _ _ hf => hf.elim, hdone.frame⟩

end manifests

end pkg
