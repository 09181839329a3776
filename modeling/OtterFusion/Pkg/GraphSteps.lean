-- The graph of a resolution, step by step (`resolve.rs`): a dependency that an instance declares is
-- recorded, or an instance is pinned and nothing is left over. Each step keeps the instances
-- reachable from the root, and accounts for each recorded edge by a declared dependency.
import OtterFusion.Pkg.FeatureFixpoint

namespace pkg

open base.outcome
open Std (TreeMap)

variable {V R : Type}

/-! ## Steps -/

/-- An instance is required or resolved. -/
def Run.Knows (r : Run V R) (id : String) : Prop := id ∈ r.reqs ∨ r.resolved.contains id = true

/-- The instances that an instance has edges to. -/
def Run.edgesOf (r : Run V R) (id : String) : List String := r.edges.getD id []

/-- A dependency that an instance declares is recorded in the graph. -/
inductive GraphStep (env : Env V R) (root : Manifest) (rootDir : String) (r s : Run V R) : Prop
  | record {parent name : String} {i : Info} {d : Decl} :
      r.info env root rootDir parent = some i → (name, d) ∈ i.deps →
      s.edges = (r.recordDependency parent name d.target).edges →
      s.dependencyEdges = (r.recordDependency parent name d.target).dependencyEdges →
      (∀ id j, r.info env root rootDir id = some j → s.info env root rootDir id = some j) →
      (∀ id, s.Knows id ↔ r.Knows id ∨ id = d.target) →
      GraphStep env root rootDir r s

/-- What some steps do. -/
abbrev GraphSteps (env : Env V R) (root : Manifest) (rootDir : String) :
    Run V R → Run V R → Prop :=
  Relation.ReflTransGen (GraphStep env root rootDir)

/-- What holds of the graph of a run. -/
structure Accounted (env : Env V R) (root : Manifest) (rootDir : String) (r : Run V R) : Prop where
  reached : ∀ id, r.Knows id →
    Relation.ReflTransGen (fun p x => x ∈ r.edgesOf p) (rootId root.name) id
  known : ∀ p, ∀ x ∈ r.edgesOf p, r.Knows x
  declared : ∀ p, ∀ x ∈ r.edgesOf p, ∃ name i d, r.info env root rootDir p = some i ∧
    (name, d) ∈ i.deps ∧ x = d.target ∧ ∃ y, EdgeIn r.dependencyEdges p name y
  listed : ∀ p name x, EdgeIn r.dependencyEdges p name x → x ∈ r.edgesOf p

section steps

variable {env : Env V R} {root : Manifest} {rootDir parent name target : String}
  {r s t : Run V R} {i : Info} {d : Decl}

theorem GraphStep.info (h : GraphStep env root rootDir r s) {id : String} {j : Info}
    (hj : r.info env root rootDir id = some j) : s.info env root rootDir id = some j := by
  cases h with
  | record _ _ _ _ hinfo _ => exact hinfo id j hj

theorem GraphSteps.info (h : GraphSteps env root rootDir r s) {id : String} {j : Info}
    (hj : r.info env root rootDir id = some j) : s.info env root rootDir id = some j := by
  induction h with
  | refl => exact hj
  | tail _ hstep ih => exact hstep.info ih

theorem mem_edgesOf_record {p x : String} :
    x ∈ (r.recordDependency parent name target).edgesOf p ↔
      x ∈ r.edgesOf p ∨ p = parent ∧ x = target := by
  unfold Run.edgesOf Run.recordDependency
  dsimp only
  rw [getD_insert_eq]
  split
  · rename_i hp
    subst hp
    simp
  · rename_i hp
    constructor
    · exact .inl
    · rintro (h | ⟨rfl, _⟩)
      · exact h
      · exact absurd rfl hp

/-- What declares something is the root or known. -/
theorem root_or_known {id : String} (h : r.info env root rootDir id = some i) :
    id = rootId root.name ∨ r.Knows id := by
  by_cases hid : id = rootId root.name
  · exact .inl hid
  · rw [info_of_package hid] at h
    obtain ⟨p, hp, _⟩ := Option.bind_eq_some_iff.mp h
    refine .inr (.inr ?_)
    rw [TreeMap.contains_eq_isSome_getElem?, hp]
    rfl

/-- Each step keeps the graph accounted for. -/
theorem GraphStep.accounted (h : GraphStep env root rootDir r s)
    (hr : Accounted env root rootDir r) : Accounted env root rootDir s := by
  cases h with
  | @record parent name i d hi hd hedges hnames hinfo hknows =>
    have hof : ∀ p x, x ∈ s.edgesOf p ↔ x ∈ r.edgesOf p ∨ p = parent ∧ x = d.target := by
      intro p x
      rw [show s.edgesOf p = (r.recordDependency parent name d.target).edgesOf p by
        unfold Run.edgesOf
        rw [hedges]]
      exact mem_edgesOf_record
    have hnamed : ∀ p n x, EdgeIn s.dependencyEdges p n x ↔ (p = parent ∧ n = name ∧ x = d.target) ∨
        ¬(p = parent ∧ n = name) ∧ EdgeIn r.dependencyEdges p n x := by
      intro p n x
      rw [hnames]
      exact edgeIn_record
    have hold : ∀ id, Relation.ReflTransGen (fun p x => x ∈ r.edgesOf p) (rootId root.name) id →
        Relation.ReflTransGen (fun p x => x ∈ s.edgesOf p) (rootId root.name) id := by
      intro id hid
      exact Relation.ReflTransGen.mono (fun p x hx => (hof p x).mpr (.inl hx)) _ _ hid
    refine ⟨fun id hid => ?_, fun p x hx => ?_, fun p x hx => ?_, fun p n x he => ?_⟩
    · rcases (hknows id).mp hid with hid | rfl
      · exact hold id (hr.reached id hid)
      · have hparent : Relation.ReflTransGen (fun p x => x ∈ r.edgesOf p) (rootId root.name)
            parent := by
          rcases root_or_known hi with rfl | hknown
          · exact .refl
          · exact hr.reached parent hknown
        exact (hold parent hparent).tail ((hof _ _).mpr (.inr ⟨rfl, rfl⟩))
    · rcases (hof p x).mp hx with hx | ⟨_, rfl⟩
      · exact (hknows x).mpr (.inl (hr.known p x hx))
      · exact (hknows _).mpr (.inr rfl)
    · rcases (hof p x).mp hx with hx | ⟨rfl, rfl⟩
      · obtain ⟨n, j, e, hj, he, hxe, y, hy⟩ := hr.declared p x hx
        refine ⟨n, j, e, hinfo p j hj, he, hxe, ?_⟩
        by_cases hpn : p = parent ∧ n = name
        · exact ⟨d.target, (hnamed p n _).mpr (.inl ⟨hpn.1, hpn.2, rfl⟩)⟩
        · exact ⟨y, (hnamed p n y).mpr (.inr ⟨hpn, hy⟩)⟩
      · exact ⟨name, i, d, hinfo p i hi, hd, rfl, d.target,
          (hnamed p name _).mpr (.inl ⟨rfl, rfl, rfl⟩)⟩
    · rcases (hnamed p n x).mp he with ⟨rfl, _, rfl⟩ | ⟨_, he⟩
      · exact (hof _ _).mpr (.inr ⟨rfl, rfl⟩)
      · exact (hof p x).mpr (.inl (hr.listed p n x he))

theorem GraphSteps.accounted (h : GraphSteps env root rootDir r s)
    (hr : Accounted env root rootDir r) : Accounted env root rootDir s := by
  induction h with
  | refl => exact hr
  | tail _ hstep ih => exact hstep.accounted ih

/-! ## The steps of manifests -/

/-- A requirement for a registry package is folded in. -/
theorem require_step (req : R) (hi : r.info env root rootDir parent = some i)
    (hd : (name, d) ∈ i.deps) {key : ReqKey} (htarget : d.target = key.id)
    (hedges : s.edges = (r.require parent name key req).edges)
    (hnames : s.dependencyEdges = (r.require parent name key req).dependencyEdges)
    (hresolved : s.resolved = r.resolved) (hreqs : s.reqs = (r.require parent name key req).reqs) :
    GraphStep env root rootDir r s := by
  refine .record hi hd ?_ ?_ ?_ ?_
  · rw [htarget, hedges]
    rfl
  · rw [htarget, hnames]
    rfl
  · intro id j hj
    rw [info_eq hresolved]
    exact hj
  · intro id
    unfold Run.Knows
    rw [hresolved, hreqs, htarget]
    change (id ∈ r.reqs.insert key.id _ ∨ _) ↔ _
    rw [mem_insert_eq]
    tauto

theorem enter_edges (r : Run V R) (plan : FeaturePlan) (direct : Bool) (parent name id : String)
    (dep : Dependency) : (r.enter plan direct parent name id dep).edges
        = (r.recordDependency parent name id).edges ∧
      (r.enter plan direct parent name id dep).dependencyEdges
        = (r.recordDependency parent name id).dependencyEdges ∧
      (r.enter plan direct parent name id dep).reqs = r.reqs := by
  cases direct <;> exact ⟨rfl, rfl, rfl⟩

/-- How a manifest is folded in: by steps. -/
def FoldsIn (env : Env V R) (root : Manifest) (rootDir : String) (again : Seed V R) : Prop :=
  ∀ r m dir direct parent t, r.info env root rootDir parent = some (manifestInfo env m dir) →
    again r m dir direct parent = .ok t → GraphSteps env root rootDir r t

theorem seedDep_steps {again : Seed V R} (hagain : FoldsIn env root rootDir again)
    {plan : FeaturePlan} {m : Manifest} {dir : String} {direct : Bool} {dep : Dependency}
    (hi : r.info env root rootDir parent = some (manifestInfo env m dir))
    (hd : (name, dep.decl env dir name) ∈ (manifestInfo env m dir).deps)
    (ht : seedDep env again plan dir direct parent r name dep = .ok t) :
    GraphSteps env root rootDir r t := by
  cases hsource : dep.source with
  | registry version registry =>
    unfold seedDep at ht
    split at ht
    · cases ht
      exact .refl
    · rw [hsource] at ht
      obtain ⟨req, hreq, ht⟩ := bind_ok.mp ht
      cases ht
      have htarget : (dep.decl env dir name).target
          = (ReqKey.new env.sem name (registry.getD env.defaultRegistry) req).id := by
        unfold Dependency.decl Dependency.target
        rw [hsource]
        dsimp only
        rw [mapError_ok.mp hreq]
      refine .single (require_step req hi hd htarget ?_ ?_ ?_ ?_)
      all_goals cases direct <;> rfl
  | path | git =>
    have hlocal : ∀ v g, dep.source ≠ .registry v g := by simp [hsource]
    have htargets : (∃ s, dep.target env dir name = "path:" ++ s) ∨
        ∃ s, dep.target env dir name = "git:" ++ s := target_local hlocal
    have hne := local_ne_root htargets root.name
    cases seedDep_cases ht with
    | skipped _ heq =>
      subst heq
      exact .refl
    | registry _ hid _ => exact absurd (target_local hlocal) (registry_ne_local hid)
    | known _ _ hknown heq =>
      obtain ⟨hedges, hnames, hreqs⟩ := enter_edges r plan direct parent name
        (dep.target env dir name) dep
      rw [heq]
      refine .single (.record hi hd hedges hnames ?_ fun id => ?_)
      · intro id j hj
        rw [info_eq (enter_resolved r plan direct parent name _ dep)]
        exact hj
      · unfold Run.Knows
        rw [enter_resolved, hreqs]
        constructor
        · exact .inl
        · rintro (h | rfl)
          · exact h
          · exact .inr hknown
    | @opened p m' dir' _ _ hnew hopens hrun =>
      obtain ⟨hedges, hnames, hreqs⟩ := enter_edges r plan direct parent name
        (dep.target env dir name) dep
      obtain ⟨_, _, _, hpackage⟩ := hopens.spec
      have hnone : r.resolved[dep.target env dir name]? = none :=
        TreeMap.getElem?_eq_none_of_contains_eq_false hnew
      refine Relation.ReflTransGen.head ?_ (hagain _ m' dir' false _ t ?_ hrun)
      · refine .record hi hd hedges hnames ?_ fun id => ?_
        · intro id j hj
          by_cases hid : id = rootId root.name
          · unfold Run.info infoOf at hj ⊢
            rw [if_pos hid] at hj ⊢
            exact hj
          · rw [info_of_package hid] at hj ⊢
            dsimp only
            rw [enter_resolved, getElem?_insert_eq]
            split
            · rename_i heq
              rw [← heq, hnone] at hj
              cases hj
            · exact hj
        · unfold Run.Knows
          dsimp only
          rw [enter_resolved, hreqs, TreeMap.contains_insert]
          simp only [Bool.or_eq_true, beq_iff_eq, Std.compare_eq_iff_eq]
          constructor
          · rintro (h | h | h)
            · exact .inl (.inl h)
            · exact .inr h.symm
            · exact .inl (.inr h)
          · rintro ((h | h) | h)
            · exact .inl h
            · exact .inr (.inr h)
            · exact .inr (.inl h.symm)
      · rw [info_of_package hne]
        dsimp only
        rw [getElem?_insert_eq, if_pos rfl]
        exact hpackage

/-- A manifest is folded in: induction on the fuel. -/
theorem seed_steps (n : Nat) : FoldsIn env root rootDir (seed env n) := by
  induction n with
  | zero =>
    intro r m dir direct parent t _ ht
    cases ht
  | succ n ih =>
    intro r m dir direct parent t hi ht
    unfold seed at ht
    obtain ⟨plan, _, ht⟩ := bind_ok.mp ht
    have hall : ∀ (l : List (String × Dependency)) (s : Run V R),
        (∀ x ∈ l, x ∈ m.dependencies.toList) → GraphSteps env root rootDir r s →
        l.foldlM (fun r d => seedDep env (seed env n) plan dir direct parent r d.1 d.2) s = .ok t →
        GraphSteps env root rootDir r t := by
      intro l
      induction l with
      | nil =>
        intro s _ hs hfold
        cases hfold
        exact hs
      | cons x l ihl =>
        intro s hl hs hfold
        rw [List.foldlM_cons, bind_ok] at hfold
        obtain ⟨u, hu, hfold⟩ := hfold
        refine ihl u (fun y hy => hl y (List.mem_cons_of_mem _ hy)) (hs.trans ?_) hfold
        refine seedDep_steps ih (hs.info hi) ?_ hu
        exact List.mem_map.mpr ⟨x, hl x List.mem_cons_self, rfl⟩
    exact hall _ r (fun _ hx => hx) .refl ht

/-! ## The steps of registry packages -/

variable {id dir : String} {key : ReqKey} {registry : Registry V R} {entry : IndexEntry V R}

/-- The recorded edges of a closed instance are those under its names. -/
theorem Accounted.mem_edgesOf (h : Accounted env root rootDir r)
    (hinv : Inv env root rootDir (fun _ => False) r) {p x : String} :
    x ∈ r.edgesOf p ↔ ∃ name, EdgeIn r.dependencyEdges p name x := by
  constructor
  · intro hx
    obtain ⟨name, i, d, hi, hd, rfl, y, hy⟩ := h.declared p x hx
    obtain ⟨e, he, _, rfl⟩ := ((hinv.closed p i hi fun hf => hf).edges name y).mp hy
    rw [unique_decl (hinv.unique p i hi) hd he]
    exact ⟨name, hy⟩
  · rintro ⟨name, he⟩
    exact h.listed p name x he

variable (dir) in
/-- An instance is pinned, and nothing is left over: its edges are declared by the entry. -/
theorem Accounted.settled (hacc : Accounted env root rootDir r)
    (h : Inv env root rootDir (fun _ => False) r) (hkey : r.reqKeys[id]? = some key)
    (hname : registry.name = key.registry) (hcarried : Carried env root rootDir r id key entry) :
    Accounted env root rootDir (r.settled env id key registry entry dir) ∧
      (r.settled env id key registry entry dir).info env root rootDir id
        = some (entryInfo env key.registry entry) := by
  obtain ⟨hid, hreqs⟩ := h.keys id key hkey
  have hinfo : (r.settled env id key registry entry dir).info env root rootDir = _ :=
    Run.settled_info hid hname
  have hself : (r.settled env id key registry entry dir).info env root rootDir id
      = some (entryInfo env key.registry entry) := by
    rw [hinfo]
    exact if_pos rfl
  have hknows : ∀ k, (r.settled env id key registry entry dir).Knows k ↔ r.Knows k := by
    intro k
    unfold Run.Knows Run.settled Run.pin
    dsimp only
    rw [TreeMap.contains_insert]
    simp only [Bool.or_eq_true, beq_iff_eq, Std.compare_eq_iff_eq]
    constructor
    · rintro (hk | rfl | hk)
      · exact .inl hk
      · exact .inl hreqs
      · exact .inr hk
    · rintro (hk | hk)
      · exact .inl hk
      · exact .inr (.inr hk)
  refine ⟨⟨fun k hk => hacc.reached k ((hknows k).mp hk), fun p x hx => ?_, fun p x hx => ?_,
    hacc.listed⟩, hself⟩
  · exact (hknows x).mpr (hacc.known p x hx)
  · by_cases hp : p = id
    · subst hp
      obtain ⟨name, he⟩ := (hacc.mem_edgesOf h).mp hx
      obtain ⟨d, hd, hxd, _⟩ := h.carried_edge hid hcarried he
      exact ⟨name, _, d, hself, hd, hxd, x, he⟩
    · obtain ⟨name, i, d, hi, hrest⟩ := hacc.declared p x hx
      refine ⟨name, i, d, ?_, hrest⟩
      rw [hinfo]
      exact (if_neg hp).trans hi

theorem foldDep_steps {plan : FeaturePlan} {reg : String} {dep : IndexDep R}
    (hi : r.info env root rootDir id = some (entryInfo env reg entry)) (hd : dep ∈ entry.deps) :
    GraphSteps env root rootDir r (foldDep env plan id reg r dep) := by
  unfold foldDep
  split
  · exact .refl
  · have hdep : (dep.name, dep.decl env reg) ∈ (entryInfo env reg entry).deps :=
      List.mem_map.mpr ⟨dep, hd, rfl⟩
    exact .single (require_step dep.req hi hdep rfl rfl rfl rfl rfl)

theorem foldDeps_steps {plan : FeaturePlan} {reg : String} {deps : List (IndexDep R)}
    (hi : r.info env root rootDir id = some (entryInfo env reg entry))
    (hdeps : ∀ d ∈ deps, d ∈ entry.deps) :
    GraphSteps env root rootDir r (deps.foldl (foldDep env plan id reg) r) := by
  induction deps generalizing r with
  | nil => exact .refl
  | cons d deps ih =>
    have hstep : GraphSteps env root rootDir r (foldDep env plan id reg r d) :=
      foldDep_steps hi (hdeps d List.mem_cons_self)
    exact hstep.trans (ih (hstep.info hi) fun e he => hdeps e (List.mem_cons_of_mem _ he))

variable [DecidableEq V]

theorem resolveRegistryDep_accounted (h : Inv env root rootDir (fun _ => False) r)
    (hacc : Accounted env root rootDir r) (hnamed : Named env)
    (hleft : NothingLeft env root rootDir r id) {n : Nat}
    (ht : resolveRegistryDep env n r id = .ok t) : Accounted env root rootDir t := by
  unfold resolveRegistryDep at ht
  split at ht
  · cases ht
  · rename_i key hkey
    obtain ⟨registry, hregistry, ht⟩ := bind_ok.mp ht
    obtain ⟨entries, hentries, ht⟩ := bind_ok.mp ht
    split at ht
    · cases ht
    · obtain ⟨entry, hentry, ht⟩ := bind_ok.mp ht
      obtain ⟨_, hcarried⟩ := hleft key hkey registry hregistry entries
        (mapError_ok.mp hentries) entry hentry
      unfold pinRegistry at ht
      obtain ⟨tarball, _, ht⟩ := bind_ok.mp ht
      obtain ⟨dir, _, ht⟩ := bind_ok.mp ht
      obtain ⟨plan, _, ht⟩ := bind_ok.mp ht
      cases ht
      obtain ⟨hsettled, hself⟩ :=
        hacc.settled dir h hkey (hnamed _ _ (findRegistry_ok hregistry)) hcarried
      have hsteps : GraphSteps env root rootDir (r.settled env id key registry entry dir)
          (entry.deps.foldl (foldDep env plan id key.registry)
            (r.settled env id key registry entry dir)) := foldDeps_steps hself fun _ hd => hd
      exact hsteps.accounted hsettled

/-- The rounds, with the invariant that each pinning leans on. -/
theorem rounds_accounted (hnamed : Named env) {n : Nat}
    (h : Inv env root rootDir (fun _ => False) r) (hacc : Accounted env root rootDir r)
    (hleft : EachPin env (NothingLeft env root rootDir) n r) (ht : runLoop env n r = .ok t) :
    Accounted env root rootDir t := by
  induction n generalizing r with
  | zero => cases ht
  | succ n ih =>
    unfold runLoop at ht
    dsimp only at ht
    split at ht
    · cases ht
      exact hacc
    · obtain ⟨u, hu, ht⟩ := bind_ok.mp ht
      have hround : Inv env root rootDir (fun _ => False) u ∧ Accounted env root rootDir u := by
        refine EachTurn.keeps (I := fun s => Inv env root rootDir (fun _ => False) s ∧
          Accounted env root rootDir s) (fun s a t hP hs hst => ?_) hleft.1 ⟨h, hacc⟩ hu
        exact ⟨hs.1.resolve hnamed hP hst,
          resolveRegistryDep_accounted hs.1 hs.2 hnamed hP hst⟩
      exact ih hround.1 hround.2 (hleft.2 u hu) ht

end steps

end pkg
