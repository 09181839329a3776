-- The first loop of `resolve_imports`: each import gets the target that it has in the collected
-- table, for what is recorded for one import is read for no other.
import OtterFusion.Compiler.ModuleTree

namespace compiler.sema

open compiler.imports (ImportPath classify)

/-- What is collected of a module, without its imports. -/
def ModuleEntry.collected (e : ModuleEntry) : ModuleEntry :=
  { ModuleEntry.new e.parent e.isPublic e.path with
    externalUnloaded := e.externalUnloaded
    children := e.children
    types := e.types
    values := e.values }

namespace ModuleTable

/-! ## What imports read -/

/-- Two tables that an import cannot tell apart. -/
structure SameReads (T T' : ModuleTable) : Prop where
  entries : ∀ m : ModId, (T'.modules[m]?).map ModuleEntry.collected =
    (T.modules[m]?).map ModuleEntry.collected
  isPublic : T'.isPublic = T.isPublic
  packages : T'.packageRoots = T.packageRoots
  files : T'.fileModules = T.fileModules
  builtin : T'.builtinModules = T.builtinModules
  provider : T'.stdProviderName = T.stdProviderName
  toolchain : T'.toolchainPaths = T.toolchainPaths

namespace SameReads

variable {T T' T'' : ModuleTable}

theorem refl (T : ModuleTable) : SameReads T T := ⟨fun _ => rfl, rfl, rfl, rfl, rfl, rfl, rfl⟩

theorem trans (h : SameReads T T') (h' : SameReads T' T'') : SameReads T T'' where
  entries := fun m => (h'.entries m).trans (h.entries m)
  isPublic := h'.isPublic.trans h.isPublic
  packages := h'.packages.trans h.packages
  files := h'.files.trans h.files
  builtin := h'.builtin.trans h.builtin
  provider := h'.provider.trans h.provider
  toolchain := h'.toolchain.trans h.toolchain

theorem emit (T : ModuleTable) (e : ResolveError) : SameReads T (T.emit e) :=
  ⟨fun _ => rfl, rfl, rfl, rfl, rfl, rfl, rfl⟩

/-- A module changes in its imports, or in what they bind. -/
theorem modify {f : ModuleEntry → ModuleEntry} (T : ModuleTable) (m : ModId)
    (hf : ∀ e, (f e).collected = e.collected) : SameReads T (T.modify m f) := by
  refine ⟨fun k => ?_, rfl, rfl, rfl, rfl, rfl, rfl⟩
  rw [modify_get, Option.map_map]
  apply congrArg (Option.map · T.modules[k]?)
  funext e
  simp only [Function.comp_apply]
  split
  · exact hf e
  · rfl

variable (h : SameReads T T')
include h

/-- The entry of a module on the one side, from its entry on the other. -/
theorem entry {m : ModId} {e' : ModuleEntry} (he : T'.modules[m]? = some e') :
    ∃ e, T.modules[m]? = some e ∧ e'.collected = e.collected := by
  have hm := h.entries m
  rw [he, Option.map_some] at hm
  obtain ⟨e, he, heq⟩ := Option.map_eq_some_iff.mp hm.symm
  exact ⟨e, he, heq.symm⟩

theorem any_eq (p : ModuleEntry → Bool) (hp : ∀ e, p e.collected = p e) (m : ModId) :
    (T'.modules[m]?).any p = (T.modules[m]?).any p := by
  have hcollected : ∀ o : Option ModuleEntry, o.any p = (o.map ModuleEntry.collected).any p := by
    intro o
    cases o with
    | none => rfl
    | some e => exact (hp e).symm
  rw [hcollected, h.entries, ← hcollected]

theorem child_eq (m : ModId) (seg : String) : T'.child m seg = T.child m seg := by
  have hcollected : ∀ o : Option ModuleEntry,
      (o.bind fun e => e.children.get seg) =
        (o.map ModuleEntry.collected).bind fun e => e.children.get seg := by
    intro o
    cases o <;> rfl
  unfold child
  rw [hcollected, h.entries, ← hcollected]

theorem walk_eq (segs : List String) : ∀ m, T'.walk m segs = T.walk m segs := by
  induction segs with
  | nil => exact fun m => rfl
  | cons seg segs ih =>
    intro m
    unfold walk
    rw [h.child_eq]
    exact congrArg _ (funext ih)

theorem resolveSelfRoot_eq (segs : List String) :
    T'.resolveSelfRoot segs = T.resolveSelfRoot segs := by
  unfold resolveSelfRoot moduleByPath
  simp only [h.walk_eq, h.any_eq ModuleEntry.externalUnloaded fun _ => rfl]

theorem resolveSelfRel_eq (modPath : List String) (parsed : ImportPath) (ctx : ResolveContext) :
    T'.resolveSelfRel modPath parsed ctx = T.resolveSelfRel modPath parsed ctx := by
  unfold resolveSelfRel moduleByPath
  simp only [h.resolveSelfRoot_eq, h.walk_eq]

theorem resolvePkgSubpath_eq (name : String) (subpath segs : List String) :
    ∀ m, T'.resolvePkgSubpath name subpath m segs = T.resolvePkgSubpath name subpath m segs := by
  induction segs with
  | nil => exact fun m => rfl
  | cons seg segs ih =>
    intro m
    unfold resolvePkgSubpath
    simp only [h.child_eq, h.any_eq ModuleEntry.isPublic fun _ => rfl, ih]

/-- Each import has the same target in both. -/
theorem importTarget_eq (ctx : ResolveContext) (modPath : List String) (item : ImportItem) :
    T'.importTarget ctx modPath item = T.importTarget ctx modPath item := by
  unfold importTarget resolveToolchain resolvePkg resolveFile
  simp only [h.resolveSelfRoot_eq, h.resolveSelfRel_eq, h.resolvePkgSubpath_eq, h.packages,
    h.files, h.builtin, h.provider, h.toolchain]

end SameReads

/-- A table keeps its trees. -/
theorem SameReads.tree {T T' : ModuleTable} (h : SameReads T T') (ht : Tree T) :
    Tree T' := by
  have hplace : ∀ {e e' : ModuleEntry}, e'.collected = e.collected →
      e'.parent = e.parent ∧ e'.path = e.path ∧ e'.children = e.children := by
    intro e e' he
    have hparent : e'.collected.parent = e.collected.parent := by rw [he]
    have hpath : e'.collected.path = e.collected.path := by rw [he]
    have hchildren : e'.collected.children = e.collected.children := by rw [he]
    exact ⟨hparent, hpath, hchildren⟩
  have hforth : ∀ {m : ModId} {e : ModuleEntry}, T.modules[m]? = some e →
      ∃ e', T'.modules[m]? = some e' ∧ e'.parent = e.parent ∧ e'.path = e.path := by
    intro m e he
    have hm := h.entries m
    rw [he, Option.map_some] at hm
    obtain ⟨e', he', heq⟩ := Option.map_eq_some_iff.mp hm
    exact ⟨e', he', (hplace heq).1, (hplace heq).2.1⟩
  refine ⟨?_, fun m e' he' p hp => ?_, fun p hp => ?_⟩
  · obtain ⟨e, he, hparent, hpath⟩ := ht.root
    obtain ⟨e', he', hparent', hpath'⟩ := hforth he
    exact ⟨e', he', hparent'.trans hparent, hpath'.trans hpath⟩
  · obtain ⟨e, he, heq⟩ := h.entry he'
    obtain ⟨_, hpath, hchildren⟩ := hplace heq
    rw [hchildren] at hp
    obtain ⟨c, hc, hcparent, hcpath⟩ := ht.child m e he p hp
    obtain ⟨c', hc', hcparent', hcpath'⟩ := hforth hc
    exact ⟨c', hc', hcparent'.trans hcparent, by rw [hcpath', hcpath, hpath]⟩
  · rw [h.packages] at hp
    obtain ⟨e, he, hparent, hid⟩ := ht.package p hp
    obtain ⟨e', he', hparent', hpath'⟩ := hforth he
    exact ⟨e', he', hparent'.trans hparent, by rw [hpath', hid]⟩

/-! ## Recording -/

/-- An import with the target that it has in a table. -/
def resolved (T : ModuleTable) (ctx : ResolveContext) (modPath : List String) (i : ModuleImport) :
    ModuleImport :=
  match T.importTarget ctx modPath i.item with
  | .ok (target, toolchain) => { i with target := some target, toolchain }
  | .error _ => i

@[simp] theorem resolved_item (T : ModuleTable) (ctx : ResolveContext) (modPath : List String)
    (i : ModuleImport) : (T.resolved ctx modPath i).item = i.item := by
  unfold resolved
  split <;> rfl

/-- An import that had no target has one exactly when its path resolves. -/
theorem resolved_target {T : ModuleTable} {ctx : ResolveContext} {modPath : List String}
    {i : ModuleImport} (hnone : i.target = none) (t : ModId) :
    (T.resolved ctx modPath i).target = some t ↔
      T.importTarget ctx modPath i.item = .ok (t, (T.resolved ctx modPath i).toolchain) := by
  unfold resolved
  cases h : T.importTarget ctx modPath i.item with
  | error text => simp [hnone]
  | ok r =>
    obtain ⟨target, toolchain⟩ := r
    simp

/-- A module of which the first imports are resolved. -/
structure Recorded (T₀ : ModuleTable) (ctx : ResolveContext) (e₀ : ModuleEntry) (done : Nat)
    (e : ModuleEntry) : Prop where
  collected : e.collected = e₀.collected
  imports : ∀ j : Nat, e.imports[j]? = (e₀.imports[j]?).map fun i =>
    if j < done then T₀.resolved ctx e₀.path i else i
  imported : ∀ typeNs, e.importedNames typeNs = e₀.importedNames typeNs
  publicImported : ∀ typeNs, e.publicImportedNames typeNs = e₀.publicImportedNames typeNs

theorem Recorded.all {T₀ : ModuleTable} {ctx : ResolveContext} {e₀ e : ModuleEntry}
    (h : Recorded T₀ ctx e₀ e₀.imports.length e) :
    e.imports = e₀.imports.map (T₀.resolved ctx e₀.path) := by
  apply List.ext_getElem?
  intro j
  rw [h.imports, List.getElem?_map]
  cases hj : e₀.imports[j]? with
  | none => rfl
  | some i => simp [(List.getElem?_eq_some_iff.mp hj).1]

/-- A table of which some imports of each module are resolved. -/
structure Recording (T₀ : ModuleTable) (ctx : ResolveContext) (done : ModId → Nat)
    (T : ModuleTable) : Prop where
  reads : SameReads T₀ T
  recorded : ∀ (m : ModId) (e : ModuleEntry), T.modules[m]? = some e →
    ∃ e₀, T₀.modules[m]? = some e₀ ∧ Recorded T₀ ctx e₀ (done m) e

theorem Recording.start (T₀ : ModuleTable) (ctx : ResolveContext) :
    Recording T₀ ctx (fun _ => 0) T₀ where
  reads := .refl T₀
  recorded := by
    intro m e he
    refine ⟨e, he, rfl, fun j => ?_, fun _ => rfl, fun _ => rfl⟩
    simp

/-- The next import of a module is resolved. -/
theorem Recording.resolveImport {T₀ T : ModuleTable} {ctx : ResolveContext} {done : ModId → Nat}
    (h : Recording T₀ ctx done T) {m : ModId} {e₀ : ModuleEntry} (he₀ : T₀.modules[m]? = some e₀)
    {i : ModuleImport} (hi : e₀.imports[done m]? = some i) :
    Recording T₀ ctx (Function.update done m (done m + 1))
      (resolveImport ctx m e₀.path T (i, done m)) := by
  have hsame : T.importTarget ctx e₀.path i.item = T₀.importTarget ctx e₀.path i.item :=
    h.reads.importTarget_eq ctx e₀.path i.item
  unfold ModuleTable.resolveImport
  rw [hsame]
  cases htarget : T₀.importTarget ctx e₀.path i.item with
  | error text =>
    have hresolved : T₀.resolved ctx e₀.path i = i := by
      unfold resolved
      rw [htarget]
    refine ⟨h.reads.trans (.emit T _), fun k e he => ?_⟩
    obtain ⟨k₀, hk₀, hrec⟩ := h.recorded k e he
    refine ⟨k₀, hk₀, hrec.collected, fun j => ?_, hrec.imported, hrec.publicImported⟩
    rw [hrec.imports]
    by_cases hkm : k = m
    · subst hkm
      obtain rfl := Option.some.inj (he₀.symm.trans hk₀)
      rw [Function.update_self]
      by_cases hj : j = done k
      · subst hj
        simp [hi, hresolved]
      · simp [show j < done k + 1 ↔ j < done k by omega]
    · rw [Function.update_of_ne hkm]
  | ok r =>
    obtain ⟨target, toolchain⟩ := r
    have hresolved : T₀.resolved ctx e₀.path i = { i with target := some target, toolchain } := by
      unfold resolved
      rw [htarget]
    refine ⟨h.reads.trans (.modify T m fun _ => rfl), fun k e he => ?_⟩
    dsimp only at he
    unfold recordResolvedImport at he
    rw [modify_get] at he
    obtain ⟨e', he', rfl⟩ := Option.map_eq_some_iff.mp he
    obtain ⟨k₀, hk₀, hrec⟩ := h.recorded k e' he'
    refine ⟨k₀, hk₀, ?_⟩
    by_cases hkm : m = k
    · subst hkm
      obtain rfl := Option.some.inj (he₀.symm.trans hk₀)
      rw [if_pos rfl, Function.update_self]
      refine ⟨hrec.collected, fun j => ?_, hrec.imported, hrec.publicImported⟩
      dsimp only
      rw [List.getElem?_modify, hrec.imports]
      by_cases hj : done m = j
      · subst hj
        simp [hi, hresolved]
      · have hlt : j < done m + 1 ↔ j < done m := by omega
        simp [hj, hlt]
    · rw [if_neg hkm, Function.update_of_ne (Ne.symm hkm)]
      exact hrec

/-- All imports of a module are resolved, in turn. -/
theorem Recording.imports {T₀ : ModuleTable} {ctx : ResolveContext} {m : ModId} {e₀ : ModuleEntry}
    (he₀ : T₀.modules[m]? = some e₀) (rest : List ModuleImport) :
    ∀ {done : ModId → Nat} {T : ModuleTable}, Recording T₀ ctx done T →
      e₀.imports.drop (done m) = rest →
        Recording T₀ ctx (Function.update done m (done m + rest.length))
          ((rest.zipIdx (done m)).foldl (ModuleTable.resolveImport ctx m e₀.path) T) := by
  induction rest with
  | nil =>
    intro done T h _
    simpa using h
  | cons i rest ih =>
    intro done T h hdrop
    have hi : e₀.imports[done m]? = some i := by
      have hhead := congrArg List.head? hdrop
      rwa [List.head?_drop] at hhead
    have hnext := h.resolveImport he₀ hi
    have hrest : e₀.imports.drop (done m + 1) = rest := by
      rw [← List.drop_drop, hdrop]
      rfl
    have hall := ih hnext (by rwa [Function.update_self])
    rw [Function.update_self, Function.update_idem] at hall
    rw [List.zipIdx_cons, List.foldl_cons, List.length_cons]
    rwa [show done m + (rest.length + 1) = done m + 1 + rest.length by omega]

/-- The imports of a module are resolved, none of which was before. -/
theorem Recording.module {T₀ T : ModuleTable} {ctx : ResolveContext} {done : ModId → Nat}
    (h : Recording T₀ ctx done T) {m : ModId} (hfirst : done m = 0) {e₀ : ModuleEntry}
    (he₀ : T₀.modules[m]? = some e₀) :
    Recording T₀ ctx (Function.update done m e₀.imports.length) (resolveModule ctx T m) := by
  have hentries := h.reads.entries m
  rw [he₀, Option.map_some] at hentries
  obtain ⟨e, he, _⟩ := Option.map_eq_some_iff.mp hentries
  obtain ⟨e₁, he₁, hentry⟩ := h.recorded m e he
  obtain rfl := Option.some.inj (he₀.symm.trans he₁)
  have himports : e.imports = e₀.imports := by
    apply List.ext_getElem?
    intro j
    rw [hentry.imports, hfirst]
    simp
  have hpath : e.collected.path = e₀.collected.path := congrArg _ hentry.collected
  have hall := h.imports he₀ e₀.imports (by rw [hfirst, List.drop_zero])
  rw [hfirst, Nat.zero_add] at hall
  unfold resolveModule
  rw [he]
  dsimp only
  rw [himports, show e.path = e₀.path from hpath]
  exact hall

/-- The imports of all modules below a number are resolved. -/
theorem Recording.modules (T₀ : ModuleTable) (ctx : ResolveContext) {n : Nat}
    (hn : n ≤ T₀.modules.length) :
    ∃ done : ModId → Nat,
      Recording T₀ ctx done ((List.range n).foldl (resolveModule ctx) T₀) ∧
      (∀ m, n ≤ m → done m = 0) ∧
      ∀ m < n, ∀ e₀, T₀.modules[m]? = some e₀ → done m = e₀.imports.length := by
  induction n with
  | zero => exact ⟨fun _ => 0, .start T₀ ctx, fun _ _ => rfl, fun m hm => absurd hm m.not_lt_zero⟩
  | succ n ih =>
    obtain ⟨done, hrec, hlater, hdone⟩ := ih (by omega)
    have he₀ : T₀.modules[n]? = some T₀.modules[n] := List.getElem?_eq_getElem (by omega)
    have hall := hrec.module (hlater n le_rfl) he₀
    rw [List.range_succ, List.foldl_append, List.foldl_cons, List.foldl_nil]
    refine ⟨_, hall, fun m hm => ?_, fun m hm e₁ he₁ => ?_⟩
    · rw [Function.update_of_ne (Nat.ne_of_gt hm)]
      exact hlater m (by omega)
    · rcases Nat.lt_succ_iff_lt_or_eq.mp hm with hlt | rfl
      · rw [Function.update_of_ne (Nat.ne_of_lt hlt)]
        exact hdone m hlt e₁ he₁
      · rw [Function.update_self, Option.some.inj (he₀.symm.trans he₁)]

/-- A module after the first loop. -/
structure Resolved (T₀ : ModuleTable) (ctx : ResolveContext) (e₀ e : ModuleEntry) : Prop where
  collected : e.collected = e₀.collected
  imports : e.imports = e₀.imports.map (T₀.resolved ctx e₀.path)
  imported : ∀ typeNs, e.importedNames typeNs = e₀.importedNames typeNs
  publicImported : ∀ typeNs, e.publicImportedNames typeNs = e₀.publicImportedNames typeNs

/-- The first loop of `resolve_imports`. -/
def resolveTargets (T : ModuleTable) (ctx : ResolveContext) : ModuleTable :=
  (List.range T.modules.length).foldl (resolveModule ctx) T

theorem resolveTargets_reads (T : ModuleTable) (ctx : ResolveContext) :
    SameReads T (T.resolveTargets ctx) := by
  obtain ⟨_, hrec, _⟩ := Recording.modules T ctx le_rfl
  exact hrec.reads

/-- Each import has the target of its path in the collected table. -/
theorem resolveTargets_resolved {T : ModuleTable} {ctx : ResolveContext} {m : ModId}
    {e : ModuleEntry} (he : (T.resolveTargets ctx).modules[m]? = some e) :
    ∃ e₀, T.modules[m]? = some e₀ ∧ Resolved T ctx e₀ e := by
  obtain ⟨done, hrec, _, hdone⟩ := Recording.modules T ctx le_rfl
  obtain ⟨e₀, he₀, hentry⟩ := hrec.recorded m e he
  rw [hdone m (List.getElem?_eq_some_iff.mp he₀).1 e₀ he₀] at hentry
  exact ⟨e₀, he₀, hentry.collected, hentry.all, hentry.imported, hentry.publicImported⟩

end ModuleTable

end compiler.sema
