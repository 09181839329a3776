-- The instances whose features are dealt with (`resolve.rs`). An instance is closed when its
-- dependencies in the graph are those that the features taken for it turn on, and the features
-- they pass on are requested. What is asked of others keeps the instances closed that are.
import OtterFusion.Pkg.FeatureGraph

namespace pkg

open base.outcome
open Std (TreeMap)

variable {V R : Type}

/-! ## Edges and requests -/

theorem edgeIn_record {r : Run V R} {parent name target p n x : String} :
    EdgeIn (r.recordDependency parent name target).dependencyEdges p n x ↔
      (p = parent ∧ n = name ∧ x = target) ∨
        ¬(p = parent ∧ n = name) ∧ EdgeIn r.dependencyEdges p n x := by
  unfold EdgeIn Run.recordDependency
  dsimp only
  rw [getD_insert_eq]
  split
  · rename_i hp
    subst hp
    rw [getElem?_insert_eq]
    split
    · rename_i hn
      subst hn
      rw [Option.some.injEq]
      constructor
      · rintro rfl
        exact .inl ⟨rfl, rfl, rfl⟩
      · rintro (⟨_, _, rfl⟩ | ⟨hnot, _⟩)
        · rfl
        · exact absurd ⟨rfl, rfl⟩ hnot
    · rename_i hn
      constructor
      · exact fun h => .inr ⟨fun hpn => hn hpn.2.symm, h⟩
      · rintro (⟨_, rfl, _⟩ | ⟨_, h⟩)
        · exact absurd rfl hn
        · exact h
  · rename_i hp
    constructor
    · exact fun h => .inr ⟨fun hpn => hp hpn.1.symm, h⟩
    · rintro (⟨rfl, _, _⟩ | ⟨_, h⟩)
      · exact absurd rfl hp
      · exact h

theorem mem_requested {r : Run V R} {id k x : String} {defaults : Bool} {features : List String}
    {more : Option (List String)} :
    x ∈ (r.requestDependencyFeatures id defaults features more).requestedFeatures k ↔
      x ∈ r.requestedFeatures k ∨ k = id ∧
        (x ∈ features ∨ (defaults = true ∧ x = "default") ∨ x ∈ more.getD []) := by
  unfold Run.requestDependencyFeatures Run.requestedFeatures
  dsimp only
  rw [getD_insert_eq]
  split
  · rename_i hk
    subst hk
    rw [mem_addNames, mem_addNames]
    split
    · rename_i hdefault
      rw [mem_addName]
      simp only [hdefault, true_and]
      tauto
    · rename_i hdefault
      simp only [hdefault, Bool.false_eq_true, false_and, false_or, true_and]
      tauto
  · rename_i hk
    constructor
    · exact .inl
    · rintro (h | ⟨rfl, _⟩)
      · exact h
      · exact absurd rfl hk

/-- A dependency is recorded and its features are requested; keys are only added. -/
structure Asked (r s : Run V R) (parent name : String) (d : Decl) (more : List String) : Prop where
  resolved : s.resolved = r.resolved
  processed : s.processedFeatures = r.processedFeatures
  edges : ∀ p n x, EdgeIn s.dependencyEdges p n x ↔ (p = parent ∧ n = name ∧ x = d.target) ∨
    ¬(p = parent ∧ n = name) ∧ EdgeIn r.dependencyEdges p n x
  requested : ∀ k x, x ∈ s.requestedFeatures k ↔ x ∈ r.requestedFeatures k ∨ k = d.target ∧
    (x ∈ d.features ∨ (d.defaultFeatures = true ∧ x = "default") ∨ x ∈ more)
  oldKeys : ∀ (id : String) (key : ReqKey), r.reqKeys[id]? = some key → s.reqKeys[id]? = some key
  newKeys : ∀ (id : String) (key : ReqKey), s.reqKeys[id]? = some key →
    r.reqKeys[id]? = some key ∨ (∃ t, id = "registry:" ++ t) ∧ id ∈ s.reqs
  reqs : ∀ id ∈ r.reqs, id ∈ s.reqs

/-- A dependency on a path or git package is entered. -/
theorem enter_asked (env : Env V R) (r : Run V R) (plan : FeaturePlan) (direct : Bool)
    (parent baseDir name : String) (dep : Dependency) :
    Asked r (r.enter plan direct parent name (dep.target env baseDir name) dep) parent name
      (dep.decl env baseDir name) (plan.depFeatures.getD name []) := by
  have hmore : plan.depFeatures[name]?.getD [] = plan.depFeatures.getD name [] :=
    TreeMap.getD_eq_getD_getElem?.symm
  have hrequested : ∀ (u : Run V R), (∀ k, u.requestedFeatures k = r.requestedFeatures k) →
      ∀ k x, x ∈ (u.requestDependencyFeatures (dep.target env baseDir name) dep.defaultFeatures
        dep.features plan.depFeatures[name]?).requestedFeatures k ↔
          x ∈ r.requestedFeatures k ∨ k = dep.target env baseDir name ∧ (x ∈ dep.features ∨
            (dep.defaultFeatures = true ∧ x = "default") ∨ x ∈ plan.depFeatures.getD name []) := by
    intro u hu k x
    rw [mem_requested, hu, hmore]
  cases direct with
  | true =>
    exact ⟨rfl, rfl, fun _ _ _ => edgeIn_record, hrequested _ fun _ => rfl, fun _ _ h => h,
      fun _ _ h => .inl h, fun _ h => h⟩
  | false =>
    exact ⟨rfl, rfl, fun _ _ _ => edgeIn_record, hrequested _ fun _ => rfl, fun _ _ h => h,
      fun _ _ h => .inl h, fun _ h => h⟩

/-- A requirement for a registry package is folded in. -/
theorem require_asked (env : Env V R) (r : Run V R) (plan : FeaturePlan) (parent name reg : String)
    (req : R) (d : Decl) (hd : d.target = (ReqKey.new env.sem name reg req).id) :
    Asked r ((r.require parent name (ReqKey.new env.sem name reg req) req).requestDependencyFeatures
      (ReqKey.new env.sem name reg req).id d.defaultFeatures d.features plan.depFeatures[name]?)
      parent name d (plan.depFeatures.getD name []) := by
  have hmore : plan.depFeatures[name]?.getD [] = plan.depFeatures.getD name [] :=
    TreeMap.getD_eq_getD_getElem?.symm
  have hreqs : ∀ id, id = (ReqKey.new env.sem name reg req).id ∨ id ∈ r.reqs →
      id ∈ r.reqs.insert (ReqKey.new env.sem name reg req).id
        (r.reqs.getD (ReqKey.new env.sem name reg req).id [] ++ [req]) := by
    intro id hid
    rw [mem_insert_eq]
    exact hid.imp_left Eq.symm
  refine ⟨rfl, rfl, fun p n x => ?_, fun k x => ?_, fun id key hkey => ?_, fun id key hkey => ?_,
    fun id hid => hreqs id (.inr hid)⟩
  · rw [hd]
    exact edgeIn_record
  · rw [mem_requested, hmore, hd]
    exact Iff.rfl
  · show (r.reqKeys.insertIfNew _ _)[id]? = some key
    rw [TreeMap.getElem?_insertIfNew, if_neg, hkey]
    rintro ⟨heq, hnew⟩
    obtain rfl := Std.compare_eq_iff_eq.mp heq
    rw [← TreeMap.isSome_getElem?_iff_mem, hkey] at hnew
    exact hnew rfl
  · change (r.reqKeys.insertIfNew _ _)[id]? = some key at hkey
    rw [TreeMap.getElem?_insertIfNew] at hkey
    split at hkey
    · rename_i hnew
      obtain rfl := Std.compare_eq_iff_eq.mp hnew.1
      exact .inr ⟨ReqKey.new_id env.sem name reg req, hreqs _ (.inl rfl)⟩
    · exact .inl hkey

/-! ## Instances that are closed -/

/-- What the instances of a run declare. -/
def Run.info (env : Env V R) (root : Manifest) (rootDir : String) (r : Run V R) :
    String → Option Info :=
  infoOf env root rootDir fun id => r.resolved[id]?

/-- The features taken for an instance: those processed last for a registry package, and all that
are requested for another one. -/
def Run.taken (r : Run V R) (id : String) : List String :=
  (r.processedFeatures[id]?).getD (r.requestedFeatures id)

/-- A declared dependency is on, when these features are taken. -/
def On (i : Info) (taken : List String) (name : String) (d : Decl) : Prop :=
  d.optional = false ∨ Enables i.table (· ∈ taken) name

/-- All features that a dependency asks for are requested. -/
structure Passes (i : Info) (taken : List String) (name : String) (d : Decl) (r : Run V R) :
    Prop where
  declared : ∀ x, x ∈ d.features ∨ (d.defaultFeatures = true ∧ x = "default") →
    x ∈ r.requestedFeatures d.target
  passed : ∀ x, TurnsOn i.table (· ∈ taken) (.depFeature name x) → x ∈ r.requestedFeatures d.target

/-- The dependencies of an instance in the graph are those that are on, and they are asked for
their features. -/
structure Closed (i : Info) (r : Run V R) (id : String) (taken : List String) : Prop where
  edges : ∀ name target, EdgeIn r.dependencyEdges id name target ↔
    ∃ d, (name, d) ∈ i.deps ∧ On i taken name d ∧ target = d.target
  passes : ∀ name d, (name, d) ∈ i.deps → On i taken name d → Passes i taken name d r

/-- What holds of a run, but for the instances that are open: being expanded. -/
structure Inv (env : Env V R) (root : Manifest) (rootDir : String) (isOpen : String → Prop)
    (r : Run V R) : Prop where
  unique : ∀ id i, r.info env root rootDir id = some i → (i.deps.map Prod.fst).Nodup
  keys : ∀ (id : String) (key : ReqKey), r.reqKeys[id]? = some key →
    (∃ s, id = "registry:" ++ s) ∧ id ∈ r.reqs
  kinds : ∀ (id : String) (p : ResolvedInternal V R), r.resolved[id]? = some p → p.id = id ∧
    ((LocalId env id p ∧ p.entry = none ∧ ∃ i, packageInfo env p = some i) ∨
      ∃ key e, r.reqKeys[id]? = some key ∧ p.entry = some e ∧ p.source = .registry key.registry ∧
        ∃ f, r.processedFeatures[id]? = some f)
  processed : ∀ (id : String) (f : List String), r.processedFeatures[id]? = some f →
    (∀ x ∈ f, x ∈ r.requestedFeatures id) ∧ (∃ key, r.reqKeys[id]? = some key) ∧
      ∃ i, r.info env root rootDir id = some i
  fresh : ∀ id, r.info env root rootDir id = none →
    ∀ name target, ¬EdgeIn r.dependencyEdges id name target
  closed : ∀ id i, r.info env root rootDir id = some i → ¬isOpen id → Closed i r id (r.taken id)
  justified : ∀ id f, f ∈ r.requestedFeatures id →
    ActiveIn (r.info env root rootDir) r.dependencyEdges (rootId root.name) id f
  root : "default" ∈ r.requestedFeatures (rootId root.name)

/-- What stays as it is while the instance `parent` is expanded. -/
structure Frame (env : Env V R) (root : Manifest) (rootDir parent : String) (r t : Run V R) :
    Prop where
  info : ∀ id i, r.info env root rootDir id = some i → t.info env root rootDir id = some i
  processed : t.processedFeatures = r.processedFeatures
  requested : ∀ id, ∀ x ∈ r.requestedFeatures id, x ∈ t.requestedFeatures id
  effect : ∀ id i, r.info env root rootDir id = some i → r.processedFeatures[id]? = none →
    SameEffect i (r.requestedFeatures id) (t.requestedFeatures id)
  edges : ∀ id i, r.info env root rootDir id = some i → id ≠ parent →
    ∀ name target, EdgeIn t.dependencyEdges id name target ↔ EdgeIn r.dependencyEdges id name target

/-! ## Features that have the same effect -/

section effect

variable {i : Info} {r s t : List String}

theorem SameEffect.refl (i : Info) (r : List String) : SameEffect i r r :=
  ⟨fun _ h => h, fun _ _ _ _ h => h, fun _ _ _ _ h => h⟩

theorem SameEffect.trans (hrs : SameEffect i r s) (hst : SameEffect i s t) : SameEffect i r t :=
  ⟨fun f hf => hst.grows f (hrs.grows f hf),
    fun name d hd ho h => hrs.optional name d hd ho (hst.optional name d hd ho h),
    fun name d hd f h => hrs.passed name d hd f (hst.passed name d hd f h)⟩

theorem On.mono (hrs : ∀ f ∈ r, f ∈ s) {name : String} {d : Decl} (h : On i r name d) :
    On i s name d :=
  h.imp_right (Enables.mono fun f hf => .requested (hrs f hf))

theorem SameEffect.on_iff (h : SameEffect i r s) {name : String} {d : Decl}
    (hd : (name, d) ∈ i.deps) : On i s name d ↔ On i r name d := by
  constructor
  · intro hon
    cases ho : d.optional with
    | false => exact .inl ho
    | true =>
      refine .inr (h.optional name d hd ho (hon.resolve_left ?_))
      simp [ho]
  · exact On.mono h.grows

end effect

/-! ## The graph grows -/

section graph

variable {info info' : String → Option Info} {edges edges' : TreeMap String (TreeMap String String)}
  {root : String}

theorem ActiveIn.mono (hinfo : ∀ id i, info id = some i → info' id = some i)
    (hedges : ∀ p n x, EdgeIn edges p n x → EdgeIn edges' p n x) {id f : String}
    (h : ActiveIn info edges root id f) : ActiveIn info' edges' root id f := by
  induction h with
  | root => exact .root
  | declared he hi hd hf => exact .declared (hedges _ _ _ he) (hinfo _ _ hi) hd hf
  | passed he hi _ hg hitem hf ih => exact .passed (hedges _ _ _ he) (hinfo _ _ hi) ih hg hitem hf
  | item hi _ hg hitem hf ih => exact .item (hinfo _ _ hi) ih hg hitem hf

/-- What is active by features that are active for an instance is active for it. -/
theorem Active.activeIn {id : String} {i : Info} (hi : info id = some i) {asked : String → Prop}
    (hasked : ∀ f, asked f → ActiveIn info edges root id f) {f : String}
    (h : Active i.table asked f) : ActiveIn info edges root id f := by
  induction h with
  | requested hf => exact hasked _ hf
  | item _ hg hitem hf ih => exact .item hi ih hg hitem hf

end graph

section inv

variable {env : Env V R} {root : Manifest} {rootDir parent name : String}
  {isOpen : String → Prop} {r s t : Run V R} {i : Info} {d : Decl} {more : List String}

theorem info_eq (h : s.resolved = r.resolved) :
    s.info env root rootDir = r.info env root rootDir := by
  unfold Run.info
  rw [h]

theorem Frame.refl (parent : String) (r : Run V R) : Frame env root rootDir parent r r :=
  ⟨fun _ _ h => h, rfl, fun _ _ h => h, fun _ _ _ _ => SameEffect.refl _ _,
    fun _ _ _ _ _ _ => Iff.rfl⟩

theorem Frame.trans (hrs : Frame env root rootDir parent r s)
    (hst : Frame env root rootDir parent s t) : Frame env root rootDir parent r t := by
  refine ⟨fun id i h => hst.info id i (hrs.info id i h), hst.processed.trans hrs.processed,
    fun id x h => hst.requested id x (hrs.requested id x h), fun id i h hp => ?_,
    fun id i h hne n x => ?_⟩
  · refine (hrs.effect id i h hp).trans (hst.effect id i (hrs.info id i h) ?_)
    rw [hrs.processed]
    exact hp
  · exact (hst.edges id i (hrs.info id i h) hne n x).trans (hrs.edges id i h hne n x)

theorem Frame.taken (h : Frame env root rootDir parent r s) {id : String} {j : Info}
    (hj : r.info env root rootDir id = some j) : SameEffect j (r.taken id) (s.taken id) := by
  unfold Run.taken
  rw [h.processed]
  cases hp : r.processedFeatures[id]? with
  | some f => exact SameEffect.refl j f
  | none => exact h.effect id j hj hp

/-- A closed instance stays closed when no more of its dependencies are turned on. -/
theorem Closed.stays {id : String} {f g : List String} (h : Closed i r id f)
    (hedges : ∀ n x, EdgeIn s.dependencyEdges id n x ↔ EdgeIn r.dependencyEdges id n x)
    (hgrows : ∀ k, ∀ x ∈ r.requestedFeatures k, x ∈ s.requestedFeatures k)
    (hsame : SameEffect i f g) : Closed i s id g := by
  refine ⟨fun n x => ?_, fun n e he hon => ?_⟩
  · rw [hedges, h.edges]
    constructor
    · rintro ⟨e, he, hon, hx⟩
      exact ⟨e, he, (hsame.on_iff he).mpr hon, hx⟩
    · rintro ⟨e, he, hon, hx⟩
      exact ⟨e, he, (hsame.on_iff he).mp hon, hx⟩
  · have hpasses := h.passes n e he ((hsame.on_iff he).mp hon)
    exact ⟨fun x hx => hgrows _ x (hpasses.declared x hx),
      fun x hx => hgrows _ x (hpasses.passed x (hsame.passed n e he x hx))⟩

theorem Frame.closed (h : Frame env root rootDir parent r s) {id : String} {j : Info}
    (hj : r.info env root rootDir id = some j) (hne : id ≠ parent)
    (hclosed : Closed j r id (r.taken id)) : Closed j s id (s.taken id) :=
  hclosed.stays (h.edges id j hj hne) h.requested (h.taken hj)

/-- A dependency of an open instance is recorded, and its features are requested. -/
theorem Inv.ask (h : Inv env root rootDir isOpen r) (hs : Asked r s parent name d more)
    (hopen : isOpen parent) (hi : r.info env root rootDir parent = some i)
    (hd : (name, d) ∈ i.deps) (hsame : ∀ x, EdgeIn r.dependencyEdges parent name x → x = d.target)
    (hmore : ∀ x ∈ more, TurnsOn i.table (· ∈ r.requestedFeatures parent) (.depFeature name x))
    (heffect : ∀ j, r.info env root rootDir d.target = some j →
      r.processedFeatures[d.target]? = none →
        SameEffect j (r.requestedFeatures d.target) (s.requestedFeatures d.target)) :
    Inv env root rootDir isOpen s ∧ Frame env root rootDir parent r s := by
  have hinfo : s.info env root rootDir = r.info env root rootDir := info_eq hs.resolved
  have hgrows : ∀ id, ∀ x ∈ r.requestedFeatures id, x ∈ s.requestedFeatures id :=
    fun id x hx => (hs.requested id x).mpr (.inl hx)
  have hedges : ∀ p n x, EdgeIn r.dependencyEdges p n x → EdgeIn s.dependencyEdges p n x := by
    intro p n x he
    refine (hs.edges p n x).mpr ?_
    by_cases hpn : p = parent ∧ n = name
    · obtain ⟨rfl, rfl⟩ := hpn
      exact .inl ⟨rfl, rfl, hsame x he⟩
    · exact .inr ⟨hpn, he⟩
  have hother : ∀ id, id ≠ parent → ∀ n x,
      EdgeIn s.dependencyEdges id n x ↔ EdgeIn r.dependencyEdges id n x := by
    intro id hid n x
    rw [hs.edges]
    tauto
  have heffects : ∀ id j, r.info env root rootDir id = some j → r.processedFeatures[id]? = none →
      SameEffect j (r.requestedFeatures id) (s.requestedFeatures id) := by
    intro id j hj hp
    by_cases hid : id = d.target
    · subst hid
      exact heffect j hj hp
    · have hback : ∀ x ∈ s.requestedFeatures id, x ∈ r.requestedFeatures id := by
        intro x hx
        exact ((hs.requested id x).mp hx).resolve_right fun hx => hid hx.1
      exact ⟨hgrows id, fun n e _ _ he => he.mono fun f hf => .requested (hback f hf),
        fun n e _ f he => he.mono fun g hg => .requested (hback g hg)⟩
  have hframe : Frame env root rootDir parent r s :=
    ⟨fun id j hj => by rw [hinfo]; exact hj, hs.processed, hgrows, heffects,
      fun id _ _ hne n x => hother id hne n x⟩
  refine ⟨⟨fun id j hj => ?_, fun id key hkey => ?_, fun id p hp => ?_, fun id f hf => ?_,
    fun id hid n x he => ?_, fun id j hj hnot => ?_, fun id f hf => ?_, hgrows _ _ h.root⟩, hframe⟩
  · rw [hinfo] at hj
    exact h.unique id j hj
  · rcases hs.newKeys id key hkey with hold | hnew
    · exact ⟨(h.keys id key hold).1, hs.reqs id (h.keys id key hold).2⟩
    · exact hnew
  · rw [hs.resolved] at hp
    obtain ⟨hid, hlocal | ⟨key, e, hkey, hrest⟩⟩ := h.kinds id p hp
    · exact ⟨hid, .inl hlocal⟩
    · rw [hs.processed]
      exact ⟨hid, .inr ⟨key, e, hs.oldKeys id key hkey, hrest⟩⟩
  · rw [hs.processed] at hf
    obtain ⟨hsub, ⟨key, hkey⟩, hknown⟩ := h.processed id f hf
    rw [hinfo]
    exact ⟨fun x hx => hgrows id x (hsub x hx), ⟨key, hs.oldKeys id key hkey⟩, hknown⟩
  · rw [hinfo] at hid
    have hne : id ≠ parent := by
      rintro rfl
      rw [hi] at hid
      cases hid
    exact h.fresh id hid n x ((hother id hne n x).mp he)
  · rw [hinfo] at hj
    have hne : id ≠ parent := fun he => hnot (he ▸ hopen)
    exact hframe.closed hj hne (h.closed id j hj hnot)
  · rw [hinfo]
    have hold : ∀ k g, g ∈ r.requestedFeatures k →
        ActiveIn (r.info env root rootDir) s.dependencyEdges (rootId root.name) k g :=
      fun k g hg => (h.justified k g hg).mono (fun _ _ hj => hj) hedges
    rcases (hs.requested id f).mp hf with hin | ⟨rfl, hnew⟩
    · exact hold id f hin
    · have hedge : EdgeIn s.dependencyEdges parent name d.target :=
        (hs.edges _ _ _).mpr (.inl ⟨rfl, rfl, rfl⟩)
      rcases hnew with hnew | hnew | hnew
      · exact .declared hedge hi hd (.inl hnew)
      · exact .declared hedge hi hd (.inr hnew)
      · obtain ⟨g, items, item, hg, hitems, hitem, hparse⟩ := hmore f hnew
        exact .passed hedge hi (hg.activeIn hi (hold parent)) hitems hitem hparse

/-! ## A plan is carried out -/

/-- A declared dependency is on by the plan. -/
def OnPlan (plan : FeaturePlan) (name : String) (d : Decl) : Prop :=
  d.optional = false ∨ name ∈ plan.optionalDeps

/-- The plan says what the features taken turn on. -/
structure PlanFor (i : Info) (plan : FeaturePlan) (taken : List String) : Prop where
  on : ∀ name d, (name, d) ∈ i.deps → (OnPlan plan name d ↔ On i taken name d)
  passed : ∀ name f, f ∈ plan.depFeatures.getD name [] ↔
    TurnsOn i.table (· ∈ taken) (.depFeature name f)

/-- The dependencies in `done` have been looked at; those that were in the graph before are old. -/
structure Partial (i : Info) (plan : FeaturePlan) (old : String → Decl → Prop)
    (done : List (String × Decl)) (r : Run V R) (id : String) : Prop where
  edges : ∀ name target, EdgeIn r.dependencyEdges id name target ↔
    ∃ d, ((name, d) ∈ i.deps ∧ old name d ∨ (name, d) ∈ done ∧ OnPlan plan name d) ∧
      target = d.target
  passes : ∀ name d, (name, d) ∈ done → OnPlan plan name d → ∀ x,
    x ∈ d.features ∨ (d.defaultFeatures = true ∧ x = "default") ∨
      x ∈ plan.depFeatures.getD name [] → x ∈ r.requestedFeatures d.target

variable {plan : FeaturePlan} {old : String → Decl → Prop} {done : List (String × Decl)}
  {id : String} {taken : List String}

/-- A name is declared once. -/
theorem unique_decl {l : List (String × Decl)} (h : (l.map Prod.fst).Nodup) {name : String}
    {d e : Decl} (hd : (name, d) ∈ l) (he : (name, e) ∈ l) : d = e := by
  have heq := List.inj_on_of_nodup_map h hd he rfl
  exact congrArg Prod.snd heq

theorem Partial.skip (h : Partial i plan old done r id) (hoff : ¬OnPlan plan name d) :
    Partial i plan old (done ++ [(name, d)]) r id := by
  refine ⟨fun n x => ?_, fun n e he hon => ?_⟩
  · rw [h.edges]
    constructor
    · rintro ⟨e, hin | ⟨hin, hon⟩, hx⟩
      · exact ⟨e, .inl hin, hx⟩
      · exact ⟨e, .inr ⟨List.mem_append_left _ hin, hon⟩, hx⟩
    · rintro ⟨e, hin | ⟨hin, hon⟩, hx⟩
      · exact ⟨e, .inl hin, hx⟩
      · rcases List.mem_append.mp hin with hin | hin
        · exact ⟨e, .inr ⟨hin, hon⟩, hx⟩
        · obtain ⟨rfl, rfl⟩ := Prod.mk.inj (List.mem_singleton.mp hin)
          exact absurd hon hoff
  · rcases List.mem_append.mp he with he | he
    · exact h.passes n e he hon
    · obtain ⟨rfl, rfl⟩ := Prod.mk.inj (List.mem_singleton.mp he)
      exact absurd hon hoff

/-- What is in the graph under a name is what is declared under it. -/
theorem Partial.same (h : Partial i plan old done r id) (hunique : (i.deps.map Prod.fst).Nodup)
    (hdone : ∀ x ∈ done, x ∈ i.deps) (hd : (name, d) ∈ i.deps) {x : String}
    (he : EdgeIn r.dependencyEdges id name x) : x = d.target := by
  obtain ⟨e, hin, rfl⟩ := (h.edges name x).mp he
  have hein : (name, e) ∈ i.deps := by
    rcases hin with hin | hin
    · exact hin.1
    · exact hdone _ hin.1
  rw [unique_decl hunique hd hein]

theorem Partial.ask (h : Partial i plan old done r id)
    (hs : Asked r s id name d (plan.depFeatures.getD name [])) (hon : OnPlan plan name d)
    (hunique : (i.deps.map Prod.fst).Nodup) (hdone : ∀ x ∈ done, x ∈ i.deps)
    (hd : (name, d) ∈ i.deps) : Partial i plan old (done ++ [(name, d)]) s id := by
  have hgrows : ∀ k, ∀ x ∈ r.requestedFeatures k, x ∈ s.requestedFeatures k :=
    fun k x hx => (hs.requested k x).mpr (.inl hx)
  refine ⟨fun n x => ?_, fun n e he hne y hy => ?_⟩
  · rw [hs.edges]
    constructor
    · rintro (⟨_, rfl, rfl⟩ | ⟨_, he⟩)
      · refine ⟨d, .inr ⟨?_, hon⟩, rfl⟩
        exact List.mem_append_right _ (List.mem_singleton_self _)
      · obtain ⟨e, hin | ⟨hin, hone⟩, hx⟩ := (h.edges n x).mp he
        · exact ⟨e, .inl hin, hx⟩
        · exact ⟨e, .inr ⟨List.mem_append_left _ hin, hone⟩, hx⟩
    · rintro ⟨e, hin, rfl⟩
      by_cases hn : n = name
      · subst hn
        have hein : (n, e) ∈ i.deps := by
          rcases hin with hin | ⟨hin, _⟩
          · exact hin.1
          · rcases List.mem_append.mp hin with hin | hin
            · exact hdone _ hin
            · rw [List.mem_singleton.mp hin]
              exact hd
        refine .inl ⟨rfl, rfl, ?_⟩
        rw [unique_decl hunique hd hein]
      · refine .inr ⟨fun hboth => hn hboth.2, (h.edges n _).mpr ⟨e, ?_, rfl⟩⟩
        rcases hin with hin | ⟨hin, hone⟩
        · exact .inl hin
        · rcases List.mem_append.mp hin with hin | hin
          · exact .inr ⟨hin, hone⟩
          · exact absurd (Prod.mk.inj (List.mem_singleton.mp hin)).1 hn
  · rcases List.mem_append.mp he with he | he
    · exact hgrows _ y (h.passes n e he hne y hy)
    · obtain ⟨rfl, rfl⟩ := Prod.mk.inj (List.mem_singleton.mp he)
      exact (hs.requested _ y).mpr (.inr ⟨rfl, hy⟩)

theorem Partial.stays (h : Partial i plan old done r id)
    (hedges : ∀ n x, EdgeIn s.dependencyEdges id n x ↔ EdgeIn r.dependencyEdges id n x)
    (hgrows : ∀ k, ∀ x ∈ r.requestedFeatures k, x ∈ s.requestedFeatures k) :
    Partial i plan old done s id :=
  ⟨fun n x => (hedges n x).trans (h.edges n x),
    fun n e he hon x hx => hgrows _ x (h.passes n e he hon x hx)⟩

/-- All declared dependencies have been looked at: the instance is closed. -/
theorem Partial.closed (h : Partial i plan old i.deps r id) (hplan : PlanFor i plan taken)
    (hold : ∀ name d, old name d → On i taken name d) : Closed i r id taken := by
  refine ⟨fun n x => ?_, fun n e he hon => ?_⟩
  · rw [h.edges]
    constructor
    · rintro ⟨e, hin | ⟨hin, hon⟩, hx⟩
      · exact ⟨e, hin.1, hold n e hin.2, hx⟩
      · exact ⟨e, hin, (hplan.on n e hin).mp hon, hx⟩
    · rintro ⟨e, hin, hon, hx⟩
      exact ⟨e, .inr ⟨hin, (hplan.on n e hin).mpr hon⟩, hx⟩
  · have hpasses := h.passes n e he ((hplan.on n e he).mpr hon)
    refine ⟨fun x hx => hpasses x ?_, fun x hx => hpasses x ?_⟩
    · exact hx.imp_right Or.inl
    · exact .inr (.inr ((hplan.passed n x).mpr hx))

/-! ## The plans of manifests and index entries -/

/-- The flags of a list of dependencies. -/
theorem flags_of_mem {A : Type} {k : A → String} {v : A → Bool} {l : List A}
    (hunique : (l.map k).Nodup) {a : A} (ha : a ∈ l) (m : TreeMap String Bool) :
    (l.foldl (fun flags a => flags.insert (k a) (v a)) m)[k a]? = some (v a) := by
  induction l generalizing m with
  | nil => cases ha
  | cons b l ih =>
    rw [List.foldl_cons]
    rw [List.map_cons, List.nodup_cons] at hunique
    rcases List.mem_cons.mp ha with rfl | ha
    · have hkeep : ∀ (l : List A) (m : TreeMap String Bool), k a ∉ l.map k →
          m[k a]? = some (v a) →
          (l.foldl (fun flags a => flags.insert (k a) (v a)) m)[k a]? = some (v a) := by
        intro l
        induction l with
        | nil => exact fun _ _ hm => hm
        | cons c l ihl =>
          intro m hnot hm
          rw [List.map_cons, List.mem_cons, not_or] at hnot
          rw [List.foldl_cons]
          apply ihl _ hnot.2
          rw [getElem?_insert_eq, if_neg (Ne.symm hnot.1), hm]
      apply hkeep l _ hunique.1
      rw [getElem?_insert_eq, if_pos rfl]
    · exact ih hunique.2 ha _

theorem planFor_of_flags {n : Nat} {package : String} {flags : TreeMap String Bool}
    (hflags : ∀ name d, (name, d) ∈ i.deps → flags[name]? = some d.optional)
    (h : fromDependencyFlags n package flags i.table taken = .ok plan) : PlanFor i plan taken := by
  obtain ⟨hoptional, hpassed⟩ := fromDependencyFlags_spec h
  refine ⟨fun name d hd => ?_, hpassed⟩
  unfold OnPlan On
  rw [hoptional, hflags name d hd]
  cases d.optional <;> simp

theorem fromManifest_planFor {n : Nat} {m : Manifest} {dir : String}
    (h : fromManifest n m taken = .ok plan) : PlanFor (manifestInfo env m dir) plan taken := by
  unfold fromManifest at h
  rw [TreeMap.foldl_eq_foldl_toList] at h
  refine planFor_of_flags (i := manifestInfo env m dir) ?_ h
  intro name d hd
  obtain ⟨x, hx, heq⟩ := List.mem_map.mp hd
  obtain ⟨rfl, rfl⟩ := Prod.mk.inj heq
  refine flags_of_mem (k := Prod.fst) (v := fun x => x.2.optional) ?_ hx {}
  rw [TreeMap.map_fst_toList_eq_keys]
  exact TreeMap.nodup_keys

theorem fromIndex_planFor {n : Nat} {e : IndexEntry V R} {reg : String}
    (hunique : (e.deps.map IndexDep.name).Nodup) (h : fromIndex n e taken = .ok plan) :
    PlanFor (entryInfo env reg e) plan taken := by
  unfold fromIndex at h
  refine planFor_of_flags (i := entryInfo env reg e) ?_ h
  intro name d hd
  obtain ⟨x, hx, heq⟩ := List.mem_map.mp hd
  obtain ⟨rfl, rfl⟩ := Prod.mk.inj heq
  exact flags_of_mem hunique hx {}

theorem manifestInfo_unique (m : Manifest) (dir : String) :
    ((manifestInfo env m dir).deps.map Prod.fst).Nodup := by
  unfold manifestInfo
  rw [List.map_map, show (Prod.fst ∘ fun d : String × Dependency => (d.1, d.2.decl env dir d.1))
    = Prod.fst from rfl, TreeMap.map_fst_toList_eq_keys]
  exact TreeMap.nodup_keys

theorem entryInfo_unique {reg : String} {e : IndexEntry V R}
    (h : (e.deps.map IndexDep.name).Nodup) : ((entryInfo env reg e).deps.map Prod.fst).Nodup := by
  unfold entryInfo
  rw [List.map_map]
  exact h

end inv

end pkg
