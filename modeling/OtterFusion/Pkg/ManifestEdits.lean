-- `add` and `remove` on the text of a manifest (`commands.rs`): the manifest of the text that they
-- give is the one before with one dependency changed, unless the dependencies are an inline table.
import OtterFusion.Base.Outcome
import OtterFusion.Pkg.ManifestTables

open base.tomlDoc base.outcome

namespace pkg.manifest

/-! ## The commands -/

/-- `AddSpec`. -/
inductive AddSpec
  | version (version : String)
  | path (path : String)
  | git (url : String)
  deriving DecidableEq, Repr

variable {ed : Editor}

/-- `ensure_table`: the document with a table under the key, and that table. -/
def ensureTable (ed : Editor) (doc : Document ed.Value ed.Format) (key : String) :
    Document ed.Value ed.Format × ed.Format × Entries (Item ed.Value ed.Format) :=
  match (get key doc.entries).bind Item.asTable with
  | some t => (doc, t)
  | none => (doc.put key (.table ed.fresh []), ed.fresh, [])

/-- The value that stands for a source. -/
def AddSpec.item (ed : Editor) : AddSpec → Item ed.Value ed.Format
  | version v => .value (ed.ofString v)
  | path p => .value (ed.ofInline [("path", p)])
  | git u => .value (ed.ofInline [("git", u)])

/-- `add_dependency`. -/
def addDependency (ed : Editor) (manifestText name : String) (spec : AddSpec) :
    Except String String :=
  match ed.parse manifestText with
  | .error e => .error ("invalid manifest: " ++ e)
  | .ok doc =>
    let r := ensureTable ed doc "dependencies"
    .ok (ed.print (r.1.put "dependencies" (.table r.2.1 (set name (spec.item ed) r.2.2))))

/-- `remove_dependency`. -/
def removeDependency (ed : Editor) (manifestText name : String) : Except String (String × Bool) :=
  match ed.parse manifestText with
  | .error e => .error ("invalid manifest: " ++ e)
  | .ok doc =>
    match (get "dependencies" doc.entries).bind Item.asTable with
    | some t => .ok (ed.print (doc.put "dependencies" (.table t.1 (remove name t.2))),
        (get name t.2).isSome)
    | none => .ok (ed.print doc, false)

/-! ## What they are for -/

/-- The dependency that an added source declares. -/
def AddSpec.dependency : AddSpec → Dependency
  | version v => ⟨.registry v none, [], true, false⟩
  | path p => ⟨.path p, [], true, false⟩
  | git u => ⟨.git u .default, [], true, false⟩

/-- The manifest with one dependency set, or without it. -/
def Manifest.withDependency (m : Manifest) (name : String) (dep : Option Dependency) : Manifest :=
  { m with dependencies := fun n => if n = name then dep else m.dependencies n }

/-- The dependencies of a text are an inline table. -/
def Inline (ed : Editor) (text : String) : Prop :=
  ∃ doc v, ed.parse text = .ok doc ∧ get "dependencies" doc.entries = some (.value v)

/-- What is added is set, and nothing else is changed. -/
def Adds (ed : Editor) (text : String) (m : Manifest) (name : String) (spec : AddSpec) : Prop :=
  ∃ text', addDependency ed text name spec = .ok text' ∧
    Manifest.parse ed text' = .ok (m.withDependency name (some spec.dependency))

/-- What is removed is gone, nothing else is changed, and the flag tells whether it was there. -/
def Removes (ed : Editor) (text : String) (m : Manifest) (name : String) : Prop :=
  ∃ text' removed, removeDependency ed text name = .ok (text', removed) ∧
    Manifest.parse ed text' = .ok (m.withDependency name none) ∧
    (removed = true ↔ m.dependencies name ≠ none)

/-! ## The manifest of changed tables -/

section tables

variable {A : Type} {read : Data → Option A} {key name : String} {es es' : Entries Data}
  {m : Manifest}
  {raw : RawManifest} {ds : Entries RawDep} {deps : Entries Dependency}

theorem optional_congr (h : get key es' = get key es) :
    optional read key es' = optional read key es := by
  unfold optional
  rw [h]

theorem required_congr (h : get key es' = get key es) :
    required read key es' = required read key es := by
  unfold required
  rw [h]

theorem defaulted_congr {a : A} (h : get key es' = get key es) :
    defaulted a read key es' = defaulted a read key es := by
  unfold defaulted
  rw [optional_congr h]

theorem rawManifest_dependencies (h : rawManifest es = some raw) :
    defaulted [] (mapOf rawDep) "dependencies" es = some raw.dependencies := by
  obtain ⟨_, _, h⟩ := Option.bind_eq_some_iff.mp h
  obtain ⟨ds, hds, h⟩ := Option.bind_eq_some_iff.mp h
  obtain ⟨_, _, h⟩ := Option.bind_eq_some_iff.mp h
  obtain ⟨_, _, h⟩ := Option.bind_eq_some_iff.mp h
  obtain ⟨_, _, h⟩ := Option.bind_eq_some_iff.mp h
  obtain ⟨_, _, h⟩ := Option.bind_eq_some_iff.mp h
  obtain ⟨_, _, h⟩ := Option.bind_eq_some_iff.mp h
  cases h
  exact hds

/-- A manifest is read of its dependencies and of what stands under the other keys. -/
theorem rawManifest_other (hsame : ∀ k, k ≠ "dependencies" → get k es' = get k es)
    (hdeps : defaulted [] (mapOf rawDep) "dependencies" es' = some ds)
    (h : rawManifest es = some raw) :
    rawManifest es' = some { raw with dependencies := ds } := by
  obtain ⟨package, hpackage, h⟩ := Option.bind_eq_some_iff.mp h
  obtain ⟨_, _, h⟩ := Option.bind_eq_some_iff.mp h
  obtain ⟨features, hfeatures, h⟩ := Option.bind_eq_some_iff.mp h
  obtain ⟨registry, hregistry, h⟩ := Option.bind_eq_some_iff.mp h
  obtain ⟨registries, hregistries, h⟩ := Option.bind_eq_some_iff.mp h
  obtain ⟨fileImports, hfileImports, h⟩ := Option.bind_eq_some_iff.mp h
  obtain ⟨macros, hmacros, h⟩ := Option.bind_eq_some_iff.mp h
  cases h
  unfold rawManifest
  rw [required_congr (hsame "package" (by decide)), hpackage, hdeps,
    defaulted_congr (hsame "features" (by decide)), hfeatures,
    optional_congr (hsame "registry" (by decide)), hregistry,
    defaulted_congr (hsame "registries" (by decide)), hregistries,
    optional_congr (hsame "file-imports" (by decide)), hfileImports,
    optional_congr (hsame "macros" (by decide)), hmacros]
  rfl

/-- The normalization of the dependencies is apart from the rest. -/
theorem intoManifest_ok : raw.intoManifest = .ok m ↔ ∃ kind deps,
    packageKind raw.package.kind = .ok kind ∧
    raw.package.name.toList.all compiler.lexer.isWhitespace = false ∧
    normalizeAll raw.dependencies = .ok deps ∧
    m = ⟨⟨raw.package.name, raw.package.version.getD "0.0.0", kind, raw.package.entry,
      raw.package.src.getD "src", raw.package.bins, raw.package.edition, raw.package.noStd,
      raw.package.defaultFeatures⟩, fun name => get name deps, fun name => get name raw.features,
      raw.registry.join, fun name => get name raw.registries, raw.fileImports.getD [],
      raw.macros.join⟩ := by
  unfold RawManifest.intoManifest
  rw [bind_ok]
  constructor
  · rintro ⟨kind, hkind, h⟩
    split at h
    · cases h
    · rename_i hname
      obtain ⟨deps, hdeps, h⟩ := bind_ok.mp h
      cases h
      exact ⟨kind, deps, hkind, by simpa using hname, hdeps, rfl⟩
  · rintro ⟨kind, deps, hkind, hname, hdeps, rfl⟩
    refine ⟨kind, hkind, ?_⟩
    rw [hname]
    exact bind_ok.mpr ⟨deps, hdeps, rfl⟩

theorem ofTables_ok : ofTables es = .ok m ↔
    ∃ raw, rawManifest es = some raw ∧ raw.intoManifest = .ok m := by
  unfold ofTables
  constructor
  · intro h
    split at h
    · cases h
    · exact ⟨_, by assumption, h⟩
  · rintro ⟨raw, hraw, h⟩
    rw [hraw]
    exact h

/-- What is read under the name of a dependency. -/
def ReadsOne (e : String × Data) (d : String × Dependency) : Prop :=
  e.1 = d.1 ∧ ∃ raw, rawDep e.2 = some raw ∧ raw.normalize e.1 = .ok d.2

/-- The dependencies of a table. -/
abbrev Reads (es : Entries Data) (deps : Entries Dependency) : Prop := List.Forall₂ ReadsOne es deps

theorem reads_iff : Reads es deps ↔ ∃ ds,
    es.mapM (fun e => (rawDep e.2).map fun raw => (e.1, raw)) = some ds ∧
      normalizeAll ds = .ok deps := by
  induction es generalizing deps with
  | nil =>
    rw [Reads, List.forall₂_nil_left_iff]
    constructor
    · rintro rfl
      exact ⟨[], rfl, rfl⟩
    · rintro ⟨ds, hds, hdeps⟩
      cases hds
      cases hdeps
      rfl
  | cons e es ih =>
    rw [Reads, List.forall₂_cons_left_iff, List.mapM_cons]
    constructor
    · rintro ⟨d, deps, ⟨hname, raw, hraw, hd⟩, hrest, rfl⟩
      obtain ⟨ds, hds, hdeps⟩ := ih.mp hrest
      refine ⟨(e.1, raw) :: ds, by rw [hraw, hds]; rfl, ?_⟩
      exact bind_ok.mpr ⟨d.2, hd, bind_ok.mpr ⟨deps, hdeps, by rw [hname]; rfl⟩⟩
    · rintro ⟨ds, hds, hdeps⟩
      obtain ⟨d, hd, hds⟩ := Option.bind_eq_some_iff.mp hds
      obtain ⟨ds, hds', hds⟩ := Option.bind_eq_some_iff.mp hds
      cases hds
      obtain ⟨raw, hraw, rfl⟩ := Option.map_eq_some_iff.mp hd
      obtain ⟨dep, hdep, hdeps⟩ := bind_ok.mp hdeps
      obtain ⟨deps, hrest, hdeps⟩ := bind_ok.mp hdeps
      cases hdeps
      exact ⟨_, deps, ⟨rfl, raw, hraw, hdep⟩, ih.mpr ⟨ds, hds', hrest⟩, rfl⟩

/-- The dependencies of the root of a document. -/
def Declares (es : Entries Data) (deps : Entries Dependency) : Prop :=
  ∃ ds, defaulted [] (mapOf rawDep) "dependencies" es = some ds ∧ normalizeAll ds = .ok deps

theorem declares_none (h : get "dependencies" es = none) : Declares es deps ↔ deps = [] := by
  unfold Declares defaulted optional
  rw [h]
  constructor
  · rintro ⟨ds, hds, hdeps⟩
    cases hds
    cases hdeps
    rfl
  · rintro rfl
    exact ⟨[], rfl, rfl⟩

theorem declares_some {d : Data} (h : get "dependencies" es = some d) :
    Declares es deps ↔ ∃ entries, d = .table entries ∧ Reads entries deps := by
  unfold Declares defaulted optional
  rw [h]
  simp only [Option.map_map, Option.map_eq_some_iff]
  constructor
  · rintro ⟨ds, ⟨_, hds, rfl⟩, hdeps⟩
    obtain ⟨entries, hentries, hds⟩ := Option.bind_eq_some_iff.mp hds
    cases d with
    | table es =>
      cases hentries
      exact ⟨_, rfl, reads_iff.mpr ⟨_, hds, hdeps⟩⟩
    | _ => cases hentries
  · rintro ⟨entries, rfl, hreads⟩
    obtain ⟨ds, hds, hdeps⟩ := reads_iff.mp hreads
    exact ⟨ds, ⟨ds, Option.bind_eq_some_iff.mpr ⟨entries, rfl, hds⟩, rfl⟩, hdeps⟩

variable {d : Data} {dep : Dependency}

theorem Reads.set (h : Reads es deps) (hone : ReadsOne (name, d) (name, dep)) :
    Reads (set name d es) (set name dep deps) := by
  induction h with
  | nil => exact .cons hone .nil
  | @cons e d' es deps he hes ih =>
    rw [set_cons, set_cons, ← he.1]
    split
    · exact .cons hone hes
    · exact .cons he ih

theorem Reads.remove (name : String) (h : Reads es deps) :
    Reads (remove name es) (remove name deps) := by
  unfold base.tomlDoc.remove
  induction h with
  | nil => exact .nil
  | @cons e d' es deps he _ ih =>
    rw [List.filter_cons, List.filter_cons, ← he.1]
    split
    · exact .cons he ih
    · exact ih

theorem Reads.get_isSome (name : String) (h : Reads es deps) :
    (get name es).isSome = (get name deps).isSome := by
  induction h with
  | nil => rfl
  | @cons e d' es deps he _ ih =>
    rw [get_cons, get_cons, ← he.1]
    split
    · rfl
    · exact ih

/-- The manifest of tables with other dependencies. -/
theorem ofTables_other (h : ofTables es = .ok m) :
    ∃ deps, Declares es deps ∧ (m.dependencies = fun name => get name deps) ∧
      ∀ es' deps', (∀ k, k ≠ "dependencies" → get k es' = get k es) → Declares es' deps' →
        ofTables es' = .ok { m with dependencies := fun name => get name deps' } := by
  obtain ⟨raw, hraw, h⟩ := ofTables_ok.mp h
  obtain ⟨kind, deps, hkind, hname, hdeps, rfl⟩ := intoManifest_ok.mp h
  refine ⟨deps, ⟨_, rawManifest_dependencies hraw, hdeps⟩, rfl, ?_⟩
  rintro es' deps' hsame ⟨ds', hds', hdeps'⟩
  refine ofTables_ok.mpr ⟨_, rawManifest_other hsame hds' hraw, ?_⟩
  exact intoManifest_ok.mpr ⟨kind, deps', hkind, hname, hdeps', rfl⟩

end tables

/-! ## The edits -/

variable {text name : String} {spec : AddSpec} {m : Manifest}
  {doc : Document ed.Value ed.Format} {format : ed.Format}
  {es : Entries (Item ed.Value ed.Format)} {deps : Entries Dependency}

theorem parse_ok : Manifest.parse ed text = .ok m ↔
    ∃ doc, ed.parse text = .ok doc ∧ ofTables (doc.data ed.meaning) = .ok m := by
  unfold Manifest.parse
  constructor
  · intro h
    split at h
    · cases h
    · exact ⟨_, by assumption, h⟩
  · rintro ⟨doc, hdoc, h⟩
    rw [hdoc]
    exact h

/-- A document that is written has the manifest of the tables that are written. -/
theorem parse_print (hed : ed.Implements) (hvalid : doc.Valid)
    (h : ofTables (entriesData ed.meaning (entriesWritten ed.hidden doc.entries)) = .ok m) :
    Manifest.parse ed (ed.print doc) = .ok m := by
  obtain ⟨doc', hdoc', hdata⟩ := hed.print hvalid
  exact parse_ok.mpr ⟨doc', hdoc', hdata ▸ h⟩

/-- What is added is read again. -/
theorem readsOne_item (hed : ed.Implements) (name : String) (spec : AddSpec) :
    ReadsOne (name, (spec.item ed).data ed.meaning) (name, spec.dependency) := by
  have hone : ∀ k s : String, Distinct [(k, s)] := fun k _ => List.nodup_singleton k
  cases spec with
  | version v =>
    refine ⟨rfl, .version v, ?_, rfl⟩
    show rawDep (ed.meaning (ed.ofString v)) = _
    rw [hed.string]
    rfl
  | path p =>
    refine ⟨rfl, .detailed ⟨none, some p, none, none, none, none, none, [], none, false⟩, ?_, rfl⟩
    show rawDep (ed.meaning (ed.ofInline [("path", p)])) = _
    rw [hed.inline _ (hone _ _)]
    rfl
  | git u =>
    refine ⟨rfl, .detailed ⟨none, none, some u, none, none, none, none, [], none, false⟩, ?_, rfl⟩
    show rawDep (ed.meaning (ed.ofInline [("git", u)])) = _
    rw [hed.inline _ (hone _ _)]
    rfl

/-- A table is written with its dependencies, and left out only where there are none. -/
theorem declares_written (hes : Complete ed.hidden es)
    (hreads : Reads (entriesData ed.meaning es) deps)
    {tables : Entries Data} (h : get "dependencies" tables =
      ((Item.table format es).written ed.hidden).map (Item.data ed.meaning)) :
    Declares tables deps := by
  rw [hes.table] at h
  split at h
  · rename_i hhidden
    cases es with
    | nil => exact (declares_none h).mpr (List.forall₂_nil_left_iff.mp hreads)
    | cons e es => simp at hhidden
  · exact (declares_some h).mpr ⟨_, rfl, hreads⟩

/-- A document with another table of dependencies. -/
theorem parse_put (hed : ed.Implements) (hdoc : ed.parse text = .ok doc)
    (hes : (Item.table format es).Valid) (hcomplete : Complete ed.hidden es)
    (h : ofTables (doc.data ed.meaning) = .ok m) (hreads : Reads (entriesData ed.meaning es) deps) :
    Manifest.parse ed (ed.print (doc.put "dependencies" (.table format es))) =
      .ok { m with dependencies := fun n => get n deps } := by
  have hvalid : (doc.put "dependencies" (.table format es)).Valid := (hed.valid hdoc).set hes
  have hdistinct : Distinct (set "dependencies" (.table format es) doc.entries) := hvalid.distinct
  have hget : ∀ k, get k (entriesData ed.meaning (entriesWritten ed.hidden
      (set "dependencies" (.table format es) doc.entries))) =
      (if k = "dependencies" then (Item.table format es).written ed.hidden
        else get k doc.entries).map (Item.data ed.meaning) := by
    intro k
    rw [entriesData_eq, get_map, get_written hdistinct, get_set]
    split
    · rfl
    · cases hi : get k doc.entries with
      | none => rfl
      | some i => rw [Option.bind_some, (hed.complete hdoc).of_get hi]
  refine parse_print hed hvalid ?_
  obtain ⟨_, _, _, hother⟩ := ofTables_other h
  refine hother _ deps (fun k hk => ?_) (declares_written hcomplete hreads (hget "dependencies"))
  exact (hget k).trans (by rw [if_neg hk, Document.get_data])

/-- The item under the dependencies: none, a table, or an inline table. -/
theorem dependencies_cases (hdoc : ed.parse text = .ok doc)
    (h : ofTables (doc.data ed.meaning) = .ok m) : ∃ deps,
    m.dependencies = (fun n => get n deps) ∧
    ((get "dependencies" doc.entries = none ∧ deps = [] ∧ ¬Inline ed text) ∨
    (∃ format es, get "dependencies" doc.entries = some (.table format es) ∧
      Reads (entriesData ed.meaning es) deps ∧ ¬Inline ed text) ∨
    ∃ v, get "dependencies" doc.entries = some (.value v) ∧ Inline ed text) := by
  obtain ⟨deps, hdeclares, hdeps, _⟩ := ofTables_other h
  have hinline : ∀ i, get "dependencies" doc.entries = i → (∀ v, i ≠ some (.value v)) →
      ¬Inline ed text := by
    rintro _ rfl hno ⟨doc', v, hdoc', hv⟩
    rw [hdoc] at hdoc'
    cases hdoc'
    exact hno v hv
  refine ⟨deps, hdeps, ?_⟩
  cases hget : get "dependencies" doc.entries with
  | none =>
    refine .inl ⟨rfl, ?_, hinline _ hget fun v hv => by cases hv⟩
    refine (declares_none ?_).mp hdeclares
    rw [Document.get_data, hget]
    rfl
  | some i =>
    cases i with
    | table format es =>
      refine .inr (.inl ⟨format, es, rfl, ?_, hinline _ hget fun v hv => by cases hv⟩)
      have hdata : get "dependencies" (doc.data ed.meaning) =
          some (.table (entriesData ed.meaning es)) := by
        rw [Document.get_data, hget]
        rfl
      obtain ⟨_, heq, hreads⟩ := (declares_some hdata).mp hdeclares
      cases heq
      exact hreads
    | value v => exact .inr (.inr ⟨v, rfl, doc, v, hdoc, hget⟩)

theorem withDependency_eq {dep : Option Dependency} {f : String → Option Dependency}
    (h : ∀ n, f n = if n = name then dep else m.dependencies n) :
    { m with dependencies := f } = m.withDependency name dep := by
  unfold Manifest.withDependency
  rw [show f = _ from funext h]

theorem item_valid (spec : AddSpec) : (spec.item ed).Valid := by
  cases spec <;> exact .value _

theorem item_written (spec : AddSpec) : (spec.item ed).written ed.hidden = some (spec.item ed) := by
  cases spec <;> rfl

/-- Into a table a source is added. -/
theorem addDependency_table (hdoc : ed.parse text = .ok doc)
    (hget : get "dependencies" doc.entries = some (.table format es)) :
    addDependency ed text name spec =
      .ok (ed.print (doc.put "dependencies" (.table format (set name (spec.item ed) es)))) := by
  have htable : ensureTable ed doc "dependencies" = (doc, format, es) := by
    unfold ensureTable
    rw [hget]
    rfl
  unfold addDependency
  rw [hdoc]
  dsimp only
  rw [htable]

/-- Without a table a new one takes the place of what is there. -/
theorem addDependency_fresh (hdoc : ed.parse text = .ok doc)
    (hget : (get "dependencies" doc.entries).bind Item.asTable = none) :
    addDependency ed text name spec =
      .ok (ed.print (doc.put "dependencies" (.table ed.fresh [(name, spec.item ed)]))) := by
  have htable : ensureTable ed doc "dependencies" =
      (doc.put "dependencies" (.table ed.fresh []), ed.fresh, []) := by
    unfold ensureTable
    rw [hget]
  unfold addDependency
  rw [hdoc]
  dsimp only
  rw [htable]
  unfold Document.put
  dsimp only
  rw [set_set]
  rfl

/-- An added dependency is set and nothing else is changed exactly when the dependencies are no
inline table, or one that declares no other. -/
theorem adds_iff (hed : ed.Implements) (h : Manifest.parse ed text = .ok m) :
    Adds ed text m name spec ↔ ¬Inline ed text ∨ ∀ n, n ≠ name → m.dependencies n = none := by
  obtain ⟨doc, hdoc, h⟩ := parse_ok.mp h
  have hfresh : (get "dependencies" doc.entries).bind Item.asTable = none →
      (Adds ed text m name spec ↔ ∀ n, n ≠ name → m.dependencies n = none) := by
    intro hget
    have hone : (Item.table ed.fresh [(name, spec.item ed)]).Valid := by
      refine .table _ (List.nodup_singleton name) fun e he => ?_
      rw [List.mem_singleton.mp he]
      exact item_valid spec
    have hparse := parse_put hed hdoc hone
      (complete_iff.mpr fun e he => by rw [List.mem_singleton.mp he, item_written]) h
      (List.Forall₂.cons (readsOne_item hed name spec) .nil)
    unfold Adds
    rw [addDependency_fresh hdoc hget]
    constructor
    · rintro ⟨_, htext, hm⟩ n hn
      cases htext
      rw [hm] at hparse
      have hdeps := congrFun (congrArg Manifest.dependencies (Except.ok.inj hparse)) n
      unfold Manifest.withDependency at hdeps
      dsimp only at hdeps
      rw [if_neg hn, get_cons, if_neg (Ne.symm hn)] at hdeps
      exact hdeps
    · intro hnone
      refine ⟨_, rfl, hparse.trans (congrArg _ (withDependency_eq fun n => ?_))⟩
      rw [get_cons, get_nil]
      by_cases hn : n = name
      · rw [if_pos hn, if_pos hn.symm]
      · rw [if_neg hn, if_neg (Ne.symm hn), hnone n hn]
  obtain ⟨deps, hdeps, hnone | htable | hvalue⟩ := dependencies_cases hdoc h
  · obtain ⟨hget, rfl, hinline⟩ := hnone
    refine iff_of_true ((hfresh (by rw [hget]; rfl)).mpr fun n _ => ?_) (.inl hinline)
    rw [hdeps]
    rfl
  · obtain ⟨format, es, hget, hreads, hinline⟩ := htable
    refine iff_of_true ⟨_, addDependency_table hdoc hget, ?_⟩ (.inl hinline)
    have hes : (Item.table format (set name (spec.item ed) es)).Valid :=
      ((hed.valid hdoc).of_get hget).set (item_valid spec)
    have hcomplete := (hed.complete hdoc).of_table hget
    have hset := hreads.set (readsOne_item hed name spec)
    rw [entriesData_eq, ← map_set, ← entriesData_eq] at hset
    refine (parse_put hed hdoc hes (hcomplete.set (item_written spec)) h hset).trans
      (congrArg _ (withDependency_eq fun n => ?_))
    rw [get_set, hdeps]
  · obtain ⟨v, hget, hinline⟩ := hvalue
    rw [hfresh (by rw [hget]; rfl)]
    constructor
    · exact .inr
    · rintro (h | h)
      · exact absurd hinline h
      · exact h

/-- A dependency is removed, nothing else is changed and the flag tells whether it was there,
exactly when the dependencies are no inline table, or one that does not declare it. -/
theorem removes_iff (hed : ed.Implements) (h : Manifest.parse ed text = .ok m) :
    Removes ed text m name ↔ ¬Inline ed text ∨ m.dependencies name = none := by
  obtain ⟨doc, hdoc, h⟩ := parse_ok.mp h
  have hvalid := hed.valid hdoc
  have hkept : (get "dependencies" doc.entries).bind Item.asTable = none →
      (Removes ed text m name ↔ m.dependencies name = none) := by
    intro hget
    have hremove : removeDependency ed text name = .ok (ed.print doc, false) := by
      unfold removeDependency
      rw [hdoc]
      dsimp only
      rw [hget]
    unfold Removes
    rw [hremove]
    constructor
    · rintro ⟨_, _, htext, _, hflag⟩
      cases htext
      by_contra hsome
      exact absurd (hflag.mpr hsome) Bool.false_ne_true
    · intro hnone
      have hsame : ofTables (entriesData ed.meaning (entriesWritten ed.hidden doc.entries)) =
          .ok m := by
        rw [hed.complete hdoc]
        exact h
      refine ⟨_, _, rfl, (parse_print hed hvalid hsame).trans (congrArg _ ?_), ?_⟩
      · refine withDependency_eq (m := m) fun n => ?_
        split
        · rename_i hn
          rw [hn, hnone]
        · rfl
      · simp [hnone]
  obtain ⟨deps, hdeps, hnone | htable | hvalue⟩ := dependencies_cases hdoc h
  · obtain ⟨hget, rfl, hinline⟩ := hnone
    refine iff_of_true ((hkept (by rw [hget]; rfl)).mpr ?_) (.inl hinline)
    rw [hdeps]
    rfl
  · obtain ⟨format, es, hget, hreads, hinline⟩ := htable
    have hremove : removeDependency ed text name =
        .ok (ed.print (doc.put "dependencies" (.table format (remove name es))),
          (get name es).isSome) := by
      unfold removeDependency
      rw [hdoc]
      dsimp only
      rw [hget]
      rfl
    have hless := hreads.remove name
    rw [entriesData_eq, ← map_remove, ← entriesData_eq] at hless
    refine iff_of_true ⟨_, _, hremove, ?_, ?_⟩ (.inl hinline)
    · have hcomplete := (hed.complete hdoc).of_table hget
      refine (parse_put hed hdoc (hvalid.of_get hget).remove hcomplete.remove h hless).trans
        (congrArg _ (withDependency_eq fun n => ?_))
      rw [get_remove, hdeps]
    · have hsome := hreads.get_isSome name
      rw [entriesData_eq, get_map, Option.isSome_map] at hsome
      rw [hsome, hdeps]
      exact Option.isSome_iff_ne_none
  · obtain ⟨v, hget, hinline⟩ := hvalue
    rw [hkept (by rw [hget]; rfl)]
    constructor
    · exact .inr
    · rintro (h | h)
      · exact absurd hinline h
      · exact h

/-- Editing a manifest changes one dependency only, exactly when the dependencies are no inline
table, or one that the edit does not concern: an inline table that is added to may declare no other
dependency, and one that is removed from may not declare the dependency. -/
theorem edits_one_iff (hed : ed.Implements) (h : Manifest.parse ed text = .ok m) :
    (∀ name spec, Adds ed text m name spec ↔
      ¬Inline ed text ∨ ∀ n, n ≠ name → m.dependencies n = none) ∧
    ∀ name, Removes ed text m name ↔ ¬Inline ed text ∨ m.dependencies name = none :=
  ⟨fun _ _ => adds_iff hed h, fun _ => removes_iff hed h⟩

/-! ## Two manifests -/

section spelled

open base.tomlDoc.numbered

/-- The manifest of a package `app` with these dependencies. -/
def appManifest (deps : Entries Dependency) : Manifest where
  package := ⟨"app", "0.0.0", .binary, none, "src", [], none, false, []⟩
  dependencies := fun name => get name deps
  features := fun _ => none
  defaultRegistry := none
  registries := fun _ => none
  fileImportAllow := []
  macroRecursionLimit := none

/-- `[package]` with the name. -/
def appTable : Item Value Unit := .table () [("name", .value (.string "app"))]

theorem appTable_valid : appTable.Valid := by
  refine .table () (List.nodup_singleton "name") fun e he => ?_
  rw [List.mem_singleton.mp he]
  exact .value _

/-- A manifest with a header table. -/
def headerText : String :=
  "[package]\nname = \"app\"\n\n[dependencies]\nserde = \"1.2\"\n"

def headerDocument : Document Value Unit :=
  ⟨(), [("package", appTable), ("dependencies", .table () [("serde", .value (.string "1.2"))])]⟩

/-- A manifest with an inline table. -/
def inlineText : String :=
  "dependencies = \x7b serde = \"1.2\" \x7d\n\n[package]\nname = \"app\"\n"

def inlineDocument : Document Value Unit :=
  ⟨(), [("dependencies", .value (.inline [("serde", "1.2")])), ("package", appTable)]⟩

def serde : Dependency := ⟨.registry "1.2" none, [], true, false⟩

/-- A text with a mark of its own is not one of marks. -/
theorem marks_ne {n : Nat} {c : Char} (hc : c ∈ text.toList) (hne : c ≠ '#') : marks n ≠ text := by
  rintro rfl
  unfold marks at hc
  rw [String.toList_ofList] at hc
  exact hne (List.eq_of_mem_replicate hc)

theorem headerText_marks (n : Nat) : marks n ≠ headerText :=
  marks_ne (c := 'n') (by decide) (by decide)

theorem inlineText_marks (n : Nat) : marks n ≠ inlineText :=
  marks_ne (c := 'n') (by decide) (by decide)

theorem headerDocument_valid : headerDocument.Valid := by
  refine .table () (by unfold Distinct; decide) fun e he => ?_
  rcases List.mem_pair.mp he with rfl | rfl
  · exact appTable_valid
  · refine .table () (List.nodup_singleton "serde") fun e he => ?_
    rw [List.mem_singleton.mp he]
    exact .value _

theorem inlineDocument_valid : inlineDocument.Valid := by
  refine .table () (by unfold Distinct; decide) fun e he => ?_
  rcases List.mem_pair.mp he with rfl | rfl
  · exact .value _
  · exact appTable_valid

theorem header_parse :
    Manifest.parse (editor headerDocument headerText) headerText =
      .ok (appManifest [("serde", serde)]) :=
  parse_ok.mpr ⟨_, editor_parse_self headerText_marks headerDocument_valid, rfl⟩

theorem inline_parse :
    Manifest.parse (editor inlineDocument inlineText) inlineText =
      .ok (appManifest [("serde", serde)]) :=
  parse_ok.mpr ⟨_, editor_parse_self inlineText_marks inlineDocument_valid, rfl⟩

theorem header_not_inline : ¬Inline (editor headerDocument headerText) headerText := by
  rintro ⟨doc, v, hdoc, hv⟩
  rw [editor_parse_self headerText_marks headerDocument_valid] at hdoc
  cases hdoc
  cases hv

theorem inline_inline : Inline (editor inlineDocument inlineText) inlineText :=
  ⟨_, .inline [("serde", "1.2")], editor_parse_self inlineText_marks inlineDocument_valid, rfl⟩

/-- With a header table a new dependency is added to the one there is, and that one is removed. -/
theorem edits_one_iff_header :
    Adds (editor headerDocument headerText) headerText (appManifest [("serde", serde)]) "rand"
      (.version "0.8") ∧
    Removes (editor headerDocument headerText) headerText (appManifest [("serde", serde)])
      "serde" :=
  have h := edits_one_iff (editor_implements headerText_marks) header_parse
  ⟨(h.1 _ _).mpr (.inl header_not_inline), (h.2 _).mpr (.inl header_not_inline)⟩

/-- What is added takes the place of a whole inline table, and nothing is removed from it. -/
theorem inline_edits :
    (editor inlineDocument inlineText).Implements ∧
    Manifest.parse (editor inlineDocument inlineText) inlineText =
      .ok (appManifest [("serde", serde)]) ∧
    ¬Adds (editor inlineDocument inlineText) inlineText (appManifest [("serde", serde)]) "rand"
      (.version "0.8") ∧
    ¬Removes (editor inlineDocument inlineText) inlineText (appManifest [("serde", serde)])
      "serde" := by
  have hed : (editor inlineDocument inlineText).Implements := editor_implements inlineText_marks
  refine ⟨hed, inline_parse, fun h => ?_, fun h => ?_⟩
  · rcases (adds_iff hed inline_parse).mp h with hno | hnone
    · exact hno inline_inline
    · cases hnone "serde" (by decide)
  · rcases (removes_iff hed inline_parse).mp h with hno | hnone
    · exact hno inline_inline
    · cases hnone

end spelled

end pkg.manifest
