-- The shape of the table of modules: what is collected is a tree below the root module and a
-- tree below each package instance, and imports leave the trees as they are.
import OtterFusion.Compiler.Imports

namespace compiler.sema

namespace ModuleTable

/-! ## Trees -/

/-- Each child knows its parent and extends its path, the root module has no parent, and the root
of a package instance is no child. -/
structure Tree (T : ModuleTable) : Prop where
  root : ∃ e, T.modules[0]? = some e ∧ e.parent = none ∧ e.path = []
  child : ∀ (m : ModId) (e : ModuleEntry), T.modules[m]? = some e → ∀ p ∈ e.children,
    ∃ c, T.modules[p.2]? = some c ∧ c.parent = some m ∧ c.path = e.path ++ [p.1]
  package : ∀ p ∈ T.packageRoots,
    ∃ e, T.modules[p.2]? = some e ∧ e.parent = some 0 ∧ packageInstanceId e.path = some p.1

/-- The modules that are there keep their parent and their path, and the roots of packages stay. -/
structure Grows (T T' : ModuleTable) : Prop where
  kept : ∀ (m : ModId) (e : ModuleEntry), T.modules[m]? = some e →
    ∃ e', T'.modules[m]? = some e' ∧ e'.parent = e.parent ∧ e'.path = e.path
  packages : T'.packageRoots = T.packageRoots

namespace Grows

variable {T T' T'' : ModuleTable}

theorem refl (T : ModuleTable) : Grows T T := ⟨fun _ e h => ⟨e, h, rfl, rfl⟩, rfl⟩

theorem trans (h : Grows T T') (h' : Grows T' T'') : Grows T T'' where
  kept := by
    intro m e he
    obtain ⟨e', he', hparent, hpath⟩ := h.kept m e he
    obtain ⟨e'', he'', hparent', hpath'⟩ := h'.kept m e' he'
    exact ⟨e'', he'', hparent'.trans hparent, hpath'.trans hpath⟩
  packages := h'.packages.trans h.packages

end Grows

theorem modify_get (T : ModuleTable) (m : ModId) (f : ModuleEntry → ModuleEntry) (k : ModId) :
    (T.modify m f).modules[k]? = (T.modules[k]?).map fun e => if m = k then f e else e := by
  unfold modify
  rw [List.getElem?_modify]
  rfl

/-- A change of a module that leaves its place in the tree. -/
structure KeepsPlace (f : ModuleEntry → ModuleEntry) : Prop where
  parent : ∀ e, (f e).parent = e.parent
  path : ∀ e, (f e).path = e.path
  children : ∀ e, (f e).children = e.children

variable {T : ModuleTable} {m : ModId} {f : ModuleEntry → ModuleEntry}

theorem Grows.modify (T : ModuleTable) (m : ModId) (hparent : ∀ e, (f e).parent = e.parent)
    (hpath : ∀ e, (f e).path = e.path) : Grows T (T.modify m f) where
  kept := by
    intro k e he
    refine ⟨if m = k then f e else e, by rw [modify_get, he]; rfl, ?_, ?_⟩
    · split
      · exact hparent e
      · rfl
    · split
      · exact hpath e
      · rfl
  packages := rfl

theorem Tree.modify (h : Tree T) (m : ModId) (hf : KeepsPlace f) : Tree (T.modify m f) := by
  have hkept := (Grows.modify T m hf.parent hf.path).kept
  refine ⟨?_, ?_, ?_⟩
  · obtain ⟨e, he, hparent, hpath⟩ := h.root
    obtain ⟨e', he', hparent', hpath'⟩ := hkept 0 e he
    exact ⟨e', he', hparent'.trans hparent, hpath'.trans hpath⟩
  · intro k e' he' p hp
    rw [modify_get] at he'
    obtain ⟨e, he, rfl⟩ := Option.map_eq_some_iff.mp he'
    have hchildren : (if m = k then f e else e).children = e.children := by
      split
      · exact hf.children e
      · rfl
    have hpath : (if m = k then f e else e).path = e.path := by
      split
      · exact hf.path e
      · rfl
    rw [hchildren] at hp
    obtain ⟨c, hc, hparent, hcpath⟩ := h.child k e he p hp
    obtain ⟨c', hc', hparent', hcpath'⟩ := hkept _ c hc
    exact ⟨c', hc', hparent'.trans hparent, by rw [hcpath', hcpath, hpath]⟩
  · intro p hp
    obtain ⟨e, he, hparent, hid⟩ := h.package p hp
    obtain ⟨e', he', hparent', hpath'⟩ := hkept _ e he
    exact ⟨e', he', hparent'.trans hparent, by rw [hpath', hid]⟩

/-! ### Before imports are resolved -/

/-- A module whose imports have no target, and into which only the toolchain has put names. -/
structure FreshEntry (tool : Toolchain) (m : ModId) (e : ModuleEntry) : Prop where
  unresolved : ∀ i ∈ e.imports, i.target = none
  publicTypes : e.publicImportedTypes = []
  publicValues : e.publicImportedValues = []
  imported : ∀ typeNs, ∀ p ∈ e.importedNames typeNs,
    ∃ e₀, (start tool).modules[m]? = some e₀ ∧ p ∈ e₀.importedNames typeNs

/-- No import is resolved. -/
def Fresh (tool : Toolchain) (T : ModuleTable) : Prop :=
  ∀ (m : ModId) (e : ModuleEntry), T.modules[m]? = some e → FreshEntry tool m e

/-- A change of a module that binds nothing. -/
def KeepsFresh (f : ModuleEntry → ModuleEntry) : Prop :=
  ∀ tool m e, FreshEntry tool m e → FreshEntry tool m (f e)

theorem FreshEntry.new (tool : Toolchain) (m : ModId) (parent : Option ModId) (isPublic : Bool)
    (path : List String) : FreshEntry tool m (.new parent isPublic path) where
  unresolved := fun i hi => (by cases hi)
  publicTypes := rfl
  publicValues := rfl
  imported := fun typeNs p hp => (by cases typeNs <;> cases hp)

theorem Fresh.modify {tool : Toolchain} (h : Fresh tool T) (m : ModId) (hf : KeepsFresh f) :
    Fresh tool (T.modify m f) := by
  intro k e he
  rw [modify_get] at he
  obtain ⟨e₀, he₀, rfl⟩ := Option.map_eq_some_iff.mp he
  split
  · exact hf tool k e₀ (h k e₀ he₀)
  · exact h k e₀ he₀

/-- What a step of collecting keeps. -/
structure Step (T T' : ModuleTable) : Prop where
  tree : Tree T → Tree T'
  grows : Grows T T'
  fresh : ∀ tool, Fresh tool T → Fresh tool T'

theorem Step.refl (T : ModuleTable) : Step T T := ⟨id, .refl T, fun _ h => h⟩

theorem Step.trans {T T' T'' : ModuleTable} (h : Step T T') (h' : Step T' T'') : Step T T'' :=
  ⟨fun ht => h'.tree (h.tree ht), h.grows.trans h'.grows,
    fun tool hf => h'.fresh tool (h.fresh tool hf)⟩

theorem Step.modify (T : ModuleTable) (m : ModId) (hf : KeepsPlace f) (hfresh : KeepsFresh f) :
    Step T (T.modify m f) :=
  ⟨fun h => h.modify m hf, .modify T m hf.parent hf.path, fun _ h => h.modify m hfresh⟩

/-- A step that leaves the modules as they are. -/
theorem Step.same {T T' : ModuleTable} (hmodules : T'.modules = T.modules)
    (hpackages : T'.packageRoots = T.packageRoots) : Step T T' := by
  refine ⟨fun h => ⟨?_, ?_, ?_⟩, ⟨?_, hpackages⟩, fun tool h => ?_⟩
  · rw [hmodules]
    exact h.root
  · rw [hmodules]
    exact h.child
  · rw [hmodules, hpackages]
    exact h.package
  · rw [hmodules]
    exact (Grows.refl T).kept
  · unfold Fresh
    rw [hmodules]
    exact h

theorem Step.emit (T : ModuleTable) (e : ResolveError) : Step T (T.emit e) := .same rfl rfl

theorem Step.emitIf {T T' : ModuleTable} (h : Step T T') (c : Bool) (e : ResolveError) :
    Step T (if c then T'.emit e else T') := by
  split
  · exact h.trans (.emit T' e)
  · exact h

/-! ### Names -/

theorem Step.bind (T : ModuleTable) (m : ModId) (name : String) (d : DefId) (kind : DefKind)
    (typeNs : Bool) : Step T (T.bind m name d kind typeNs) := by
  have hmodify : Step T (T.modify m fun e =>
      if typeNs then { e with types := e.types.insert name d }
      else { e with values := e.values.insert name d }) := by
    apply Step.modify
    · cases typeNs <;> exact ⟨fun _ => rfl, fun _ => rfl, fun _ => rfl⟩
    · intro tool m e h
      cases typeNs <;> exact ⟨h.unresolved, h.publicTypes, h.publicValues, h.imported⟩
  exact hmodify.emitIf _ _

theorem Step.addDefinition (T : ModuleTable) (m : ModId) (isPublic : Bool) (name : String)
    (kind : DefKind) : Step T (T.addDefinition m isPublic name kind) := by
  have hdef : Step T { T with isPublic := T.isPublic ++ [isPublic] } := .same rfl rfl
  have hif : ∀ (c : Prop) [Decidable c] (T : ModuleTable) (d : DefId) (typeNs : Bool),
      Step T (if c then T.bind m name d kind typeNs else T) := by
    intro c _ T d typeNs
    split
    · exact .bind T m name d kind typeNs
    · exact .refl T
  exact ((hdef.trans (hif _ _ _ _)).trans (hif _ _ _ _)).trans (hif _ _ _ _)

theorem Step.addImport (T : ModuleTable) (m : ModId) (isPublic : Bool) (item : ImportItem) :
    Step T (T.addImport m isPublic item) := by
  refine .modify T m ⟨fun _ => rfl, fun _ => rfl, fun _ => rfl⟩ fun tool m e h => ?_
  refine ⟨fun i hi => ?_, h.publicTypes, h.publicValues, h.imported⟩
  rcases List.mem_append.mp hi with hi | hi
  · exact h.unresolved i hi
  · rw [List.mem_singleton.mp hi]

/-! ### Children and files -/

/-- A module below the root of the table. -/
theorem Step.newModule (T : ModuleTable) (parent : ModId) (isPublic : Bool) (path : List String) :
    Step T (T.newModule parent isPublic path).2 := by
  have hkept : ∀ (k : ModId) (e : ModuleEntry), T.modules[k]? = some e →
      (T.newModule parent isPublic path).2.modules[k]? = some e := by
    intro k e he
    exact (List.getElem?_append_left (List.getElem?_eq_some_iff.mp he).1).trans he
  have hcases : ∀ (k : ModId) (e : ModuleEntry),
      (T.newModule parent isPublic path).2.modules[k]? = some e →
        T.modules[k]? = some e ∨ e = .new (some parent) isPublic path := by
    intro k e he
    rcases Nat.lt_or_ge k T.modules.length with hlt | hge
    · exact .inl ((List.getElem?_append_left hlt).symm.trans he)
    · have hnew := (List.getElem?_append_right hge).symm.trans he
      exact .inr (List.mem_singleton.mp (List.mem_of_getElem? hnew))
  refine ⟨fun h => ⟨?_, ?_, ?_⟩, ⟨fun k e he => ⟨e, hkept k e he, rfl, rfl⟩, rfl⟩, ?_⟩
  · obtain ⟨e, he, hroot⟩ := h.root
    exact ⟨e, hkept _ e he, hroot⟩
  · intro k e he p hp
    rcases hcases k e he with hold | rfl
    · obtain ⟨c, hc, hplace⟩ := h.child k e hold p hp
      exact ⟨c, hkept _ c hc, hplace⟩
    · cases hp
  · intro p hp
    obtain ⟨e, he, hroot⟩ := h.package p hp
    exact ⟨e, hkept _ e he, hroot⟩
  · intro tool h k e he
    rcases hcases k e he with hold | rfl
    · exact h k e hold
    · exact .new tool k _ _ _

theorem newModule_get (T : ModuleTable) (parent : ModId) (isPublic : Bool) (path : List String) :
    (T.newModule parent isPublic path).2.modules[(T.newModule parent isPublic path).1]? =
      some (.new (some parent) isPublic path) := by
  simp [newModule]

/-- A module is linked as a child of its parent. -/
theorem Step.link {T : ModuleTable} {m child : ModId} {e c : ModuleEntry} {name : String}
    (he : T.modules[m]? = some e) (hc : T.modules[child]? = some c) (hparent : c.parent = some m)
    (hpath : c.path = e.path ++ [name]) :
    Step T (T.modify m fun e => { e with children := e.children.insert name child }) := by
  have hgrows := @Grows.modify (fun e => { e with children := e.children.insert name child }) T m
    (fun _ => rfl) fun _ => rfl
  refine ⟨fun h => ⟨?_, ?_, ?_⟩, hgrows, fun tool h => h.modify m fun tool m e h => ?_⟩
  · obtain ⟨r, hr, hrparent, hrpath⟩ := h.root
    obtain ⟨r', hr', hrparent', hrpath'⟩ := hgrows.kept 0 r hr
    exact ⟨r', hr', hrparent'.trans hrparent, hrpath'.trans hrpath⟩
  · intro k k' hk' p hp
    obtain ⟨k'', hk'', hpathk⟩ : ∃ k'', T.modules[k]? = some k'' ∧ k'.path = k''.path := by
      rw [modify_get] at hk'
      obtain ⟨k'', hk'', rfl⟩ := Option.map_eq_some_iff.mp hk'
      exact ⟨k'', hk'', by split <;> rfl⟩
    have hold : p ∈ k''.children ∨ (m = k ∧ p = (name, child)) := by
      rw [modify_get, hk''] at hk'
      obtain rfl := Option.some.inj hk'
      split at hp
      · rename_i hmk
        rcases List.mem_cons.mp hp with rfl | hp
        · exact .inr ⟨hmk, rfl⟩
        · exact .inl hp
      · exact .inl hp
    rcases hold with hold | ⟨rfl, rfl⟩
    · obtain ⟨d, hd, hdparent, hdpath⟩ := h.child k k'' hk'' p hold
      obtain ⟨d', hd', hdparent', hdpath'⟩ := hgrows.kept _ d hd
      exact ⟨d', hd', hdparent'.trans hdparent, by rw [hdpath', hdpath, hpathk]⟩
    · obtain rfl := Option.some.inj (he.symm.trans hk'')
      obtain ⟨c', hc', hparent', hpath'⟩ := hgrows.kept child c hc
      exact ⟨c', hc', hparent'.trans hparent, by rw [hpath', hpath, hpathk]⟩
  · intro p hp
    obtain ⟨r, hr, hrparent, hrpath⟩ := h.package p hp
    obtain ⟨r', hr', hrparent', hrpath'⟩ := hgrows.kept _ r hr
    exact ⟨r', hr', hrparent'.trans hrparent, by rw [hrpath', hrpath]⟩
  · exact ⟨h.unresolved, h.publicTypes, h.publicValues, h.imported⟩

/-- A module has a path. -/
def Sits (T : ModuleTable) (m : ModId) (path : List String) : Prop :=
  ∃ e, T.modules[m]? = some e ∧ e.path = path

theorem Grows.sits {T T' : ModuleTable} (h : Grows T T') {path : List String} (hm : T.Sits m path) :
    T'.Sits m path := by
  obtain ⟨e, he, hpath⟩ := hm
  obtain ⟨e', he', _, hpath'⟩ := h.kept m e he
  exact ⟨e', he', hpath'.trans hpath⟩

/-- A child that is declared in a module, at the path below it. -/
theorem Step.addChild {T : ModuleTable} {m : ModId} {path : List String} (hsits : T.Sits m path)
    (isPublic : Bool) (name : String) :
    Step T (T.addChild m isPublic name (path ++ [name])).2 ∧
      (T.addChild m isPublic name (path ++ [name])).2.Sits
        (T.addChild m isPublic name (path ++ [name])).1 (path ++ [name]) := by
  obtain ⟨e, he, rfl⟩ := hsits
  have hnew := T.newModule_get m isPublic (e.path ++ [name])
  have hstep := Step.newModule T m isPublic (e.path ++ [name])
  have hlt : m < T.modules.length := (List.getElem?_eq_some_iff.mp he).1
  have hm : (T.newModule m isPublic (e.path ++ [name])).2.modules[m]? = some e :=
    (List.getElem?_append_left hlt).trans he
  have hdef : Step (T.newModule m isPublic (e.path ++ [name])).2
      { (T.newModule m isPublic (e.path ++ [name])).2 with isPublic := T.isPublic ++ [isPublic] } :=
    .same rfl rfl
  have hlink := hdef.trans (Step.link hm hnew rfl rfl)
  refine ⟨(hstep.trans hlink).emitIf _ _, ?_⟩
  exact (hlink.emitIf _ _).grows.sits ⟨_, hnew, rfl⟩

end ModuleTable

/-! ## Collecting -/

open ModuleTable

section collect

variable {base : List String} {file : CollectFile}

mutual

theorem step_collectItem
    (hfile : ∀ rel hrel child T, ModuleTable.Sits T child (base ++ rel) →
      Step T (file rel hrel child T))
    (item : ModuleItem) (rel : List String) (m : ModId) {T : ModuleTable}
    (hsits : T.Sits m (base ++ rel)) : Step T (collectItem file base rel m item T) := by
  cases item with
  | definition isPublic name kind => exact .addDefinition T m isPublic name kind
  | inline isPublic name items =>
    obtain ⟨hstep, hchild⟩ := Step.addChild hsits isPublic name
    rw [List.append_assoc] at hstep hchild
    exact hstep.trans (step_collectItems hfile items (rel ++ [name]) _ hchild)
  | external isPublic name =>
    obtain ⟨hstep, hchild⟩ := Step.addChild hsits isPublic name
    rw [List.append_assoc] at hstep hchild
    exact hstep.trans (hfile _ _ _ _ hchild)
  | importItem isPublic item => exact .addImport T m isPublic item

theorem step_collectItems
    (hfile : ∀ rel hrel child T, ModuleTable.Sits T child (base ++ rel) →
      Step T (file rel hrel child T))
    (items : List ModuleItem) (rel : List String) (m : ModId) {T : ModuleTable}
    (hsits : T.Sits m (base ++ rel)) : Step T (collectItems file base rel m items T) := by
  cases items with
  | nil => exact .refl T
  | cons item items =>
    have hstep := step_collectItem hfile item rel m hsits
    exact hstep.trans (step_collectItems hfile items rel m (hstep.grows.sits hsits))

end

theorem step_collectFile (externals : Externals) (base : List String) :
    ∀ rel hrel child T, ModuleTable.Sits T child (base ++ rel) →
      Step T (collectFile externals base rel hrel child T) := by
  induction h : deeper externals base using Nat.strong_induction_on generalizing base with
  | _ n ih =>
    intro rel hrel child T hsits
    rw [collectFile]
    split
    · rename_i items hfound
      have hnext := ih _ (h ▸ deeper_lt hfound hrel) (base ++ rel) rfl
      refine step_collectItems hnext items [] child ?_
      rwa [List.append_nil]
    · refine .modify T child ⟨fun _ => rfl, fun _ => rfl, fun _ => rfl⟩ fun tool m e h => ?_
      exact ⟨h.unresolved, h.publicTypes, h.publicValues, h.imported⟩

theorem step_collect (externals : Externals) {path : List String} {m : ModId}
    (items : List ModuleItem) {T : ModuleTable} (hsits : T.Sits m path) :
    Step T (collect externals path m items T) := by
  refine step_collectItems (step_collectFile externals path) items [] m ?_
  rwa [List.append_nil]

end collect

/-! ## Walks -/

theorem packageInstanceId_single (seg : String) : packageInstanceId [seg] = none := by
  unfold packageInstanceId
  split
  · rename_i heq
    cases heq
  · rfl

namespace ModuleTable

section walks

variable {T : ModuleTable}

theorem walk_concat (segs : List String) (seg : String) :
    ∀ m, T.walk m (segs ++ [seg]) = (T.walk m segs).bind fun c => T.child c seg := by
  induction segs with
  | nil =>
    intro m
    change ((T.child m seg).bind fun c => some c) = T.child m seg
    exact Option.bind_fun_some _
  | cons first segs ih =>
    intro m
    change ((T.child m first).bind fun c => T.walk c (segs ++ [seg])) =
      ((T.child m first).bind fun c => T.walk c segs).bind fun c => T.child c seg
    rw [Option.bind_assoc]
    exact congrArg _ (funext ih)

/-- A child in a tree knows where it is. -/
theorem Tree.place (h : Tree T) {m t : ModId} {seg : String} (ht : T.child m seg = some t) :
    ∃ e c, T.modules[m]? = some e ∧ T.modules[t]? = some c ∧ c.parent = some m ∧
      c.path = e.path ++ [seg] := by
  obtain ⟨e, he, hseg⟩ := Option.bind_eq_some_iff.mp ht
  obtain ⟨l, l', hchildren, _⟩ := List.lookup_eq_some_iff.mp hseg
  obtain ⟨c, hc, hplace⟩ := h.child m e he (seg, t) (by simp [hchildren])
  exact ⟨e, c, he, hc, hplace⟩

/-- The root of a tree. -/
def Top (T : ModuleTable) (m : ModId) : Prop := ∀ p seg, T.child p seg ≠ some m

theorem Tree.top_root (h : Tree T) : T.Top 0 := by
  intro p seg hchild
  obtain ⟨_, c, _, hc, hparent, _⟩ := h.place hchild
  obtain ⟨e, he, hnone, _⟩ := h.root
  obtain rfl := Option.some.inj (he.symm.trans hc)
  rw [hnone] at hparent
  cases hparent

theorem Tree.packageRoot (h : Tree T) {id : String} {m : ModId}
    (hm : T.packageRoots.get id = some m) :
    ∃ e, T.modules[m]? = some e ∧ e.parent = some 0 ∧ packageInstanceId e.path = some id := by
  obtain ⟨l, l', hroots, _⟩ := List.lookup_eq_some_iff.mp hm
  exact h.package (id, m) (by simp [hroots])

theorem Tree.top_package (h : Tree T) {id : String} {m : ModId}
    (hm : T.packageRoots.get id = some m) : T.Top m := by
  intro p seg hchild
  obtain ⟨e, he, hzero, hid⟩ := h.packageRoot hm
  obtain ⟨above, c, habove, hc, hparent, hpath⟩ := h.place hchild
  obtain rfl := Option.some.inj (he.symm.trans hc)
  obtain rfl : 0 = p := Option.some.inj (hzero.symm.trans hparent)
  obtain ⟨r, hr, _, hrpath⟩ := h.root
  obtain rfl := Option.some.inj (hr.symm.trans habove)
  rw [hpath, hrpath, List.nil_append, packageInstanceId_single] at hid
  cases hid

/-- Trees below different roots have no module in common. -/
theorem Tree.disjoint (h : Tree T) {r r' : ModId} (hr : T.Top r) (hr' : T.Top r')
    (segs : List String) :
    ∀ segs' t, T.walk r segs = some t → T.walk r' segs' = some t → r = r' := by
  induction segs using List.reverseRecOn with
  | nil =>
    intro segs' t ht ht'
    obtain rfl := Option.some.inj ht
    rcases List.eq_nil_or_concat segs' with rfl | ⟨segs', seg', rfl⟩
    · exact (Option.some.inj ht').symm
    · rw [List.concat_eq_append, walk_concat] at ht'
      obtain ⟨p, _, hchild⟩ := Option.bind_eq_some_iff.mp ht'
      exact absurd hchild (hr p seg')
  | append_singleton segs seg ih =>
    intro segs' t ht ht'
    rw [walk_concat] at ht
    obtain ⟨p, hp, hchild⟩ := Option.bind_eq_some_iff.mp ht
    rcases List.eq_nil_or_concat segs' with rfl | ⟨segs', seg', rfl⟩
    · obtain rfl := Option.some.inj ht'
      exact absurd hchild (hr' p seg)
    · rw [List.concat_eq_append, walk_concat] at ht'
      obtain ⟨p', hp', hchild'⟩ := Option.bind_eq_some_iff.mp ht'
      obtain ⟨_, c, _, hc, hparent, _⟩ := h.place hchild
      obtain ⟨_, c', _, hc', hparent', _⟩ := h.place hchild'
      obtain rfl := Option.some.inj (hc.symm.trans hc')
      obtain rfl := Option.some.inj (hparent.symm.trans hparent')
      exact ih segs' p hp hp'

end walks

end ModuleTable

end compiler.sema
