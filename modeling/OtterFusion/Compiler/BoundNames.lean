-- The second loop of `resolve_imports`: each name that an import binds is one that the module it
-- is taken from exports.
import OtterFusion.Compiler.ResolvedTargets

namespace compiler.sema

namespace ModuleTable

/-! ## Exports -/

/-- What a module gives to those that import from it: its public names, all names of a view of the
toolchain, and what its own public imports take. -/
inductive Exports (T : ModuleTable) (typeNs : Bool) : ModId → String → DefId → Prop
  | own {m : ModId} {e : ModuleEntry} {name : String} {d : DefId} (he : T.modules[m]? = some e)
      (hd : (e.names typeNs).get name = some d)
      (hopen : T.isBuiltinViewModule m = true ∨ T.isPublic[d]? = some true) :
      Exports T typeNs m name d
  | again {m t : ModId} {e : ModuleEntry} {i : ModuleImport} {names : List ImportName}
      {n : ImportName} {d : DefId} (he : T.modules[m]? = some e) (hi : i ∈ e.imports)
      (hpublic : i.isPublic = true) (ht : i.target = some t) (hkind : i.item.kind = .named names)
      (hn : n ∈ names) (hd : Exports T typeNs t n.name d) : Exports T typeNs m n.bind d

/-- A named import of a module takes a name from what its target exports. -/
def Takes (T : ModuleTable) (typeNs : Bool) (e : ModuleEntry) (name : String) (d : DefId) : Prop :=
  ∃ i ∈ e.imports, ∃ t names n, i.target = some t ∧ i.item.kind = .named names ∧ n ∈ names ∧
    n.bind = name ∧ T.Exports typeNs t n.name d

theorem mem_of_get {names : Names DefId} {name : String} {d : DefId}
    (h : names.get name = some d) : (name, d) ∈ names := by
  obtain ⟨l, l', rfl, _⟩ := List.lookup_eq_some_iff.mp h
  simp

theorem reexport_cases {e : ModuleEntry} {name : String} {next : ModId × String}
    (h : e.reexport name = some next) :
    ∃ i ∈ e.imports, ∃ names n, i.isPublic = true ∧ i.target = some next.1 ∧
      i.item.kind = .named names ∧ n ∈ names ∧ n.bind = name ∧ n.name = next.2 := by
  obtain ⟨i, hi, h⟩ := List.exists_of_findSome?_eq_some h
  split at h
  · rename_i hpublic
    split at h
    · rename_i t names ht hkind
      obtain ⟨n, hn, rfl⟩ := Option.map_eq_some_iff.mp h
      refine ⟨i, hi, names, n, hpublic, ht, hkind, List.mem_of_find?_eq_some hn, ?_, rfl⟩
      simpa using List.find?_some hn
    · cases h
  · cases h

/-! ## Binding -/

/-- A module some of whose imports have bound their names. -/
structure Bound (T₁ : ModuleTable) (m : ModId) (e₁ e : ModuleEntry) : Prop where
  collected : e.collected = e₁.collected
  imports : e.imports = e₁.imports
  imported : ∀ typeNs, ∀ p ∈ e.importedNames typeNs,
    p ∈ e₁.importedNames typeNs ∨ T₁.Takes typeNs e₁ p.1 p.2
  publicImported : ∀ typeNs, ∀ p ∈ e.publicImportedNames typeNs, T₁.Exports typeNs m p.1 p.2

theorem Bound.names {T₁ : ModuleTable} {m : ModId} {e₁ e : ModuleEntry} (h : Bound T₁ m e₁ e)
    (typeNs : Bool) : e.names typeNs = e₁.names typeNs := by
  have hnames : e.collected.names typeNs = e₁.collected.names typeNs := by rw [h.collected]
  exact hnames

/-- A table some of whose imports have bound their names. -/
structure Binding (T₁ T : ModuleTable) : Prop where
  reads : SameReads T₁ T
  bound : ∀ (m : ModId) (e : ModuleEntry), T.modules[m]? = some e →
    ∃ e₁, T₁.modules[m]? = some e₁ ∧ Bound T₁ m e₁ e

/-- Before any import has bound a name. -/
theorem Binding.start {T₁ : ModuleTable}
    (hnone : ∀ (m : ModId) (e : ModuleEntry), T₁.modules[m]? = some e →
      ∀ typeNs, e.publicImportedNames typeNs = []) : Binding T₁ T₁ where
  reads := .refl T₁
  bound := by
    intro m e he
    refine ⟨e, he, rfl, rfl, fun typeNs p hp => .inl hp, fun typeNs p hp => ?_⟩
    rw [hnone m e he typeNs] at hp
    cases hp

section binding

variable {T₁ T : ModuleTable} (h : Binding T₁ T)
include h

theorem Binding.entry {m : ModId} {e₁ : ModuleEntry} (he₁ : T₁.modules[m]? = some e₁) :
    ∃ e, T.modules[m]? = some e ∧ Bound T₁ m e₁ e := by
  have hm := h.reads.entries m
  rw [he₁, Option.map_some] at hm
  obtain ⟨e, he, _⟩ := Option.map_eq_some_iff.mp hm
  obtain ⟨e₂, he₂, hbound⟩ := h.bound m e he
  obtain rfl := Option.some.inj (he₁.symm.trans he₂)
  exact ⟨e, he, hbound⟩

theorem Binding.view_eq (m : ModId) : T.isBuiltinViewModule m = T₁.isBuiltinViewModule m := by
  unfold isBuiltinViewModule
  rw [h.reads.builtin]

theorem Binding.emit (e : ResolveError) : Binding T₁ (T.emit e) :=
  ⟨h.reads.trans (.emit T e), h.bound⟩

theorem Binding.modify {f : ModuleEntry → ModuleEntry} (m : ModId)
    (hcollected : ∀ e, (f e).collected = e.collected)
    (hf : ∀ e₁ e, T₁.modules[m]? = some e₁ → Bound T₁ m e₁ e → Bound T₁ m e₁ (f e)) :
    Binding T₁ (T.modify m f) := by
  refine ⟨h.reads.trans (.modify T m hcollected), fun k e he => ?_⟩
  rw [modify_get] at he
  obtain ⟨e', he', rfl⟩ := Option.map_eq_some_iff.mp he
  obtain ⟨e₁, he₁, hbound⟩ := h.bound k e' he'
  refine ⟨e₁, he₁, ?_⟩
  split
  · rename_i hmk
    subst hmk
    exact hf e₁ e' he₁ hbound
  · exact hbound

/-! ### Lookups -/

/-- `resolve_pub_type_in` and `resolve_pub_value_in` find what is exported. -/
theorem Binding.exports_of_resolvePubFrom (typeNs : Bool) (seen : List (ModId × String))
    (m : ModId) (name : String) :
    ∀ d, T.resolvePubFrom typeNs seen m name = some d → T₁.Exports typeNs m name d := by
  fun_induction T.resolvePubFrom typeNs seen m name with
  | case1 | case2 | case4 | case7 => exact fun d hd => (by cases hd)
  | case3 seen m name _ e he own hown hopen =>
    intro d hd
    obtain rfl := Option.some.inj hd
    obtain ⟨e₁, he₁, hbound⟩ := h.bound m e he
    rw [Bool.or_eq_true, h.view_eq, h.reads.isPublic, decide_eq_true_eq] at hopen
    exact .own he₁ (hbound.names typeNs ▸ hown) hopen
  | case5 seen m name _ e he _ known hknown =>
    intro d hd
    obtain rfl := Option.some.inj hd
    obtain ⟨e₁, _, hbound⟩ := h.bound m e he
    exact hbound.publicImported typeNs _ (mem_of_get hknown)
  | case6 seen m name _ e he _ _ next hnext ih =>
    intro d hd
    obtain ⟨e₁, he₁, hbound⟩ := h.bound m e he
    obtain ⟨i, hi, names, n, hpublic, ht, hkind, hn, rfl, hname⟩ := reexport_cases hnext
    rw [hbound.imports] at hi
    exact .again he₁ hi hpublic ht hkind hn (hname ▸ ih d hd)

theorem Binding.importedDefinition {typeNs toolchain : Bool} {t : ModId} {name : String} {d : DefId}
    (hview : toolchain = true → T₁.isBuiltinViewModule t = true)
    (hd : T.importedDefinition typeNs toolchain t name = some d) :
    T₁.Exports typeNs t name d := by
  unfold ModuleTable.importedDefinition at hd
  split at hd
  · rename_i htoolchain
    obtain ⟨e, he, hd⟩ := Option.bind_eq_some_iff.mp hd
    obtain ⟨e₁, he₁, hbound⟩ := h.bound t e he
    exact .own he₁ (hbound.names typeNs ▸ hd) (.inl (hview htoolchain))
  · split at hd
    · rename_i htype
      subst htype
      exact h.exports_of_resolvePubFrom true [] t name d hd
    · rename_i hvalue
      obtain rfl := Bool.eq_false_iff.mpr hvalue
      exact h.exports_of_resolvePubFrom false [] t name d hd

/-! ### Steps -/

variable {m : ModId} {e₁ : ModuleEntry} (he₁ : T₁.modules[m]? = some e₁) {i : ModuleImport}
  (hi : i ∈ e₁.imports) {t : ModId} (ht : i.target = some t)
include he₁ hi ht

/-- A name is bound to what the target of the import exports. -/
theorem Binding.bindImported {names : List ImportName} (hkind : i.item.kind = .named names)
    {n : ImportName} (hn : n ∈ names) (typeNs : Bool) {d : Option DefId}
    (hd : ∀ d', d = some d' → T₁.Exports typeNs t n.name d') :
    Binding T₁ (T.bindImported m typeNs i.isPublic n.bind d) := by
  cases d with
  | none => exact h
  | some d =>
    have htake : T₁.Takes typeNs e₁ n.bind d := ⟨i, hi, t, names, n, ht, hkind, hn, rfl, hd d rfl⟩
    have hagain : i.isPublic = true → T₁.Exports typeNs m n.bind d := fun hpublic =>
      .again he₁ hi hpublic ht hkind hn (hd d rfl)
    have hinsert : ∀ known : Names DefId, (∀ p ∈ known, T₁.Exports typeNs m p.1 p.2) →
        ∀ p ∈ (if i.isPublic then known.insert n.bind d else known),
          T₁.Exports typeNs m p.1 p.2 := by
      intro known hknown p hp
      split at hp
      · rename_i hpublic
        rcases List.mem_cons.mp hp with rfl | hp
        · exact hagain hpublic
        · exact hknown p hp
      · exact hknown p hp
    refine h.modify m (fun e => by cases typeNs <;> rfl) fun e₂ e he₂ hbound => ?_
    obtain rfl := Option.some.inj (he₁.symm.trans he₂)
    cases typeNs
    all_goals
      refine ⟨hbound.collected, hbound.imports, fun other p hp => ?_, fun other p hp => ?_⟩
    · cases other
      · rcases List.mem_cons.mp hp with rfl | hp
        · exact .inr htake
        · exact hbound.imported false p hp
      · exact hbound.imported true p hp
    · cases other
      · exact hinsert _ (hbound.publicImported false) p hp
      · exact hbound.publicImported true p hp
    · cases other
      · exact hbound.imported false p hp
      · rcases List.mem_cons.mp hp with rfl | hp
        · exact .inr htake
        · exact hbound.imported true p hp
    · cases other
      · exact hbound.publicImported false p hp
      · exact hinsert _ (hbound.publicImported true) p hp

theorem Binding.resolveNamedImport {names : List ImportName} (hkind : i.item.kind = .named names)
    {n : ImportName} (hn : n ∈ names)
    (hview : i.toolchain = true → T₁.isBuiltinViewModule t = true) :
    Binding T₁ (resolveNamedImport m t i.toolchain i.isPublic T n) := by
  have hd : ∀ typeNs d, T.importedDefinition typeNs i.toolchain t n.name = some d →
      T₁.Exports typeNs t n.name d := fun typeNs d hd => h.importedDefinition hview hd
  unfold ModuleTable.resolveNamedImport
  dsimp only
  split
  · split
    · exact h.emit _
    · exact h.emit _
  · split
    · exact h.emit _
    · exact (h.bindImported he₁ hi ht hkind hn true (hd true)).bindImported he₁ hi ht hkind hn false
        (hd false)

theorem Binding.bindImport (hview : i.toolchain = true → T₁.isBuiltinViewModule t = true) :
    Binding T₁ (T.bindImport m t i.item i.toolchain i.isPublic) := by
  have hkeep : ∀ {T : ModuleTable} {f : ModuleEntry → ModuleEntry}, Binding T₁ T →
      (∀ e, (f e).collected = e.collected) → (∀ e, (f e).imports = e.imports) →
      (∀ e typeNs, (f e).importedNames typeNs = e.importedNames typeNs) →
      (∀ e typeNs, (f e).publicImportedNames typeNs = e.publicImportedNames typeNs) →
        Binding T₁ (T.modify m f) := by
    intro T f h hcollected himports himported hpublic
    refine h.modify m hcollected fun e₁ e _ hbound => ⟨?_, ?_, ?_, ?_⟩
    · exact (hcollected e).trans hbound.collected
    · exact (himports e).trans hbound.imports
    · intro typeNs
      rw [himported]
      exact hbound.imported typeNs
    · intro typeNs
      rw [hpublic]
      exact hbound.publicImported typeNs
  unfold ModuleTable.bindImport
  dsimp only
  have hext := @hkeep T (fun e => { e with
      extensionImports :=
        if t ∈ e.extensionImports then e.extensionImports else e.extensionImports ++ [t]
      publicExtensionImports :=
        if i.isPublic && t ∉ e.publicExtensionImports then e.publicExtensionImports ++ [t]
        else e.publicExtensionImports }) h (fun _ => rfl) (fun _ => rfl) (fun _ _ => rfl)
    fun _ _ => rfl
  cases hkind : i.item.kind with
  | named names =>
    apply List.foldlRecOn
    · exact hext
    · intro T' h' n hn
      exact h'.resolveNamedImport he₁ hi ht hkind hn hview
  | «namespace» bind =>
    dsimp only
    split
    · exact hext.emit _
    · exact hkeep hext (fun _ => rfl) (fun _ => rfl) (fun _ _ => rfl) fun _ _ => rfl
  | ambient => exact hext

end binding

/-- The second loop of `resolve_imports`. -/
def bindNames (T : ModuleTable) : ModuleTable :=
  (List.range T.modules.length).foldl bindModule T

theorem binding_bindNames {T₁ : ModuleTable}
    (hnone : ∀ (m : ModId) (e : ModuleEntry), T₁.modules[m]? = some e →
      ∀ typeNs, e.publicImportedNames typeNs = [])
    (hviews : ∀ (m : ModId) (e : ModuleEntry), T₁.modules[m]? = some e →
      ∀ i ∈ e.imports, i.toolchain = true → ∀ t, i.target = some t →
        T₁.isBuiltinViewModule t = true) : Binding T₁ T₁.bindNames := by
  apply List.foldlRecOn
  · exact .start hnone
  · intro T h m _
    unfold bindModule
    cases he : T.modules[m]? with
    | none => exact h
    | some e =>
      obtain ⟨e₁, he₁, hbound⟩ := h.bound m e he
      apply List.foldlRecOn
      · exact h
      · intro T' h' i hi
        rw [hbound.imports] at hi
        cases ht : i.target with
        | none => exact h'
        | some t => exact h'.bindImport he₁ hi ht fun htool => hviews m e₁ he₁ i hi htool t ht

/-- What is exported before names are bound is exported after. -/
theorem Binding.exports {T₁ T : ModuleTable} (h : Binding T₁ T) {typeNs : Bool} {m : ModId}
    {name : String} {d : DefId} (hd : T₁.Exports typeNs m name d) : T.Exports typeNs m name d := by
  induction hd with
  | own he₁ hd hopen =>
    obtain ⟨e, he, hbound⟩ := h.entry he₁
    rw [← h.view_eq, ← h.reads.isPublic] at hopen
    exact .own he (hbound.names typeNs ▸ hd) hopen
  | again he₁ hi hpublic ht hkind hn _ ih =>
    obtain ⟨e, he, hbound⟩ := h.entry he₁
    rw [← hbound.imports] at hi
    exact .again he hi hpublic ht hkind hn ih

theorem Binding.takes {T₁ T : ModuleTable} (h : Binding T₁ T) {m : ModId} {e₁ e : ModuleEntry}
    (hbound : Bound T₁ m e₁ e) {typeNs : Bool} {name : String} {d : DefId}
    (hd : T₁.Takes typeNs e₁ name d) : T.Takes typeNs e name d := by
  obtain ⟨i, hi, t, names, n, ht, hkind, hn, hname, hd⟩ := hd
  rw [← hbound.imports] at hi
  exact ⟨i, hi, t, names, n, ht, hkind, hn, hname, h.exports hd⟩

end ModuleTable

end compiler.sema
