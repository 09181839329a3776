-- What lowering makes of recursive aliases. An alias stands for the variants that are reachable
-- from it (`docs/03-unions.html`). The expansion cuts cycles with the set of aliases in progress
-- and checks for emptiness at each of them, so it goes wrong at an alias that reaches no variant
-- but through the aliases that it was reached by.
import OtterFusion.Compiler.Lower

namespace compiler.sema

open compiler.lexer (Span)

/-! ## Reachable variants -/

/-- A member of the right-hand side of an alias. -/
inductive Member
  | variant (v : Ty)
  | ref (d : DefId)
  deriving DecidableEq

section reach

variable (rhs : DefId → List Member)

/-- The variants of an alias that are reachable through aliases outside of some. -/
inductive ReachesOutside (barred : List DefId) : DefId → Ty → Prop
  | variant {d : DefId} {v : Ty} : d ∉ barred → .variant v ∈ rhs d → ReachesOutside barred d v
  | ref {d e : DefId} {v : Ty} : d ∉ barred → .ref e ∈ rhs d → ReachesOutside barred e v →
      ReachesOutside barred d v

/-- The least fixpoint of the system at an alias. -/
def Reaches : DefId → Ty → Prop := ReachesOutside rhs []

/-- From an alias, reached through others, some alias is reached that has no variant but through
the aliases on the way. -/
inductive Stuck : List DefId → DefId → Prop
  | here {path : List DefId} {d : DefId} : d ∉ path → (∀ v, ¬ReachesOutside rhs path d v) →
      Stuck path d
  | ref {path : List DefId} {d e : DefId} : d ∉ path → .ref e ∈ rhs d →
      Stuck (d :: path) e → Stuck path d

variable {rhs}

theorem ReachesOutside.notBarred {barred : List DefId} {d : DefId} {v : Ty}
    (h : ReachesOutside rhs barred d v) : d ∉ barred := by
  cases h with
  | variant hd => exact hd
  | ref hd => exact hd

theorem Stuck.notBarred {path : List DefId} {d : DefId} (h : Stuck rhs path d) : d ∉ path := by
  cases h with
  | here hd => exact hd
  | ref hd => exact hd

theorem ReachesOutside.weaken {barred : List DefId} {d e : DefId} {v : Ty}
    (h : ReachesOutside rhs (e :: barred) d v) : ReachesOutside rhs barred d v := by
  induction h with
  | variant hd hv => exact .variant (fun hmem => hd (List.mem_cons_of_mem _ hmem)) hv
  | ref hd he _ ih => exact .ref (fun hmem => hd (List.mem_cons_of_mem _ hmem)) he ih

/-- What an alias has directly, or through another alias that does not come back to it. -/
def FirstSteps (rhs : DefId → List Member) (barred : List DefId) (d : DefId) (v : Ty) : Prop :=
  .variant v ∈ rhs d ∨ ∃ e, .ref e ∈ rhs d ∧ ReachesOutside rhs (d :: barred) e v

/-- A walk either never comes to `d` or has a last visit there. -/
theorem ReachesOutside.split {barred : List DefId} {e : DefId} {v : Ty} (d : DefId)
    (h : ReachesOutside rhs barred e v) :
    ReachesOutside rhs (d :: barred) e v ∨ FirstSteps rhs barred d v := by
  induction h with
  | @variant e v he hv =>
    by_cases hed : e = d
    · exact .inr (.inl (hed ▸ hv))
    · exact .inl (.variant (by simp [hed, he]) hv)
  | @ref e f v he hf _ ih =>
    rcases ih with hout | hfirst
    · by_cases hed : e = d
      · exact .inr (.inr ⟨f, hed ▸ hf, hout⟩)
      · exact .inl (.ref (by simp [hed, he]) hf hout)
    · exact .inr hfirst

/-- The step of the fixpoint: an alias need not come back to itself. -/
theorem reachesOutside_iff {barred : List DefId} {d : DefId} (hd : d ∉ barred) (v : Ty) :
    ReachesOutside rhs barred d v ↔ FirstSteps rhs barred d v := by
  constructor
  · intro h
    rcases h.split d with hout | hfirst
    · exact absurd List.mem_cons_self hout.notBarred
    · exact hfirst
  · rintro (hv | ⟨e, he, hout⟩)
    · exact .variant hd hv
    · exact .ref hd he hout.weaken

end reach

/-! ## Systems of aliases -/

section

variable (P : Program) (cx : TyCtxt)

/-- A type expression of a module that means one variant, whatever the aliases mean. -/
def Leaf (m : ModId) (node : TypeNode) (v : Ty) : Prop :=
  v.Atomic ∧ ∀ expand selfTy,
    lowerNode P cx expand { module := m, generics := [], selfTy } node = (v, [])

/-- A name means a definition in some environment. -/
structure RefersTo (env : TypeEnv) (name : String) (d : DefId) : Prop where
  notPrimitive : primitive name = none
  notParam : env.generics.get name = none
  resolves : P.resolveTypeIn env.module name = some d

/-- The members that type expressions of a module spell out: unions of types that are no aliases
and of names of aliases. -/
inductive Spells (m : ModId) : List TypeNode → List Member → Prop
  | nil : Spells m [] []
  | leaf {node : TypeNode} {v : Ty} {nodes : List TypeNode} {ms : List Member} :
      Leaf P cx m node v → Spells m nodes ms → Spells m (node :: nodes) (.variant v :: ms)
  | ref {name : String} {span : Span} {d : DefId} {nodes : List TypeNode} {ms : List Member} :
      RefersTo P { module := m, generics := [], selfTy := none } name d → Spells m nodes ms →
      Spells m (.named name [] span :: nodes) (.ref d :: ms)
  | paren {inner : TypeNode} {span : Span} {nodes : List TypeNode} {ms : List Member} :
      Spells m (inner :: nodes) ms → Spells m (.paren inner span :: nodes) ms
  | union {members nodes : List TypeNode} {span : Span} {ms ms' : List Member} :
      Spells m members ms → Spells m nodes ms' →
      Spells m (.union members span :: nodes) (ms ++ ms')

/-- The definition of an alias without parameters, with its right-hand side. -/
structure DefinesAlias (d : DefId) (rhs : List Member) (data : Def) (aliased : TypeNode) :
    Prop where
  defined : P.defs[d]? = some data
  kind : data.kind = .typeAlias
  generics : data.generics = []
  item : data.item = some (.typeAlias aliased)
  spells : Spells P cx data.module [aliased] rhs

/-- A system of aliases in a program. -/
structure AliasSystem where
  aliases : List DefId
  rhs : DefId → List Member
  defines : ∀ d ∈ aliases, ∃ data aliased, DefinesAlias P cx d (rhs d) data aliased
  closed : ∀ d ∈ aliases, ∀ e, .ref e ∈ rhs d → e ∈ aliases

end

/-- An error that says that an alias does not reduce. -/
def SemaError.IsRecursiveAlias (e : SemaError) : Prop := ∃ name, e.kind = .recursiveAlias name

/-- Whether a lowering reports that an alias does not reduce. -/
def Lowered.Reports (r : Lowered) : Prop := ∃ e ∈ r.2, e.IsRecursiveAlias

namespace AliasSystem

variable {P : Program} {cx : TyCtxt} (sys : AliasSystem P cx)

/-- An alias is lowered to its reachable variants, and reported when it has none. -/
structure LeastFixpoint (d : DefId) (r : Lowered) : Prop where
  yields : (∃ v, Reaches sys.rhs d v) → ∀ v, v ∈ r.1.variants ↔ Reaches sys.rhs d v
  reports : r.Reports ↔ ¬∃ v, Reaches sys.rhs d v

/-- No alias that is reached depends on the way to it, or nothing is reachable at all. -/
def Settled (d : DefId) : Prop := (∃ v, Reaches sys.rhs d v) → ¬Stuck sys.rhs [] d

end AliasSystem

/-! ## Lowering a right-hand side -/

section lowering

variable {P : Program} (cx : TyCtxt)

variable {cx} in
/-- A name of an alias without parameters is expanded. -/
theorem lowerNode_ref {expand : Expand} {env : TypeEnv} {name : String} {d : DefId}
    {rhs : List Member} (span : Span) (hname : RefersTo P env name d)
    (hdef : ∃ data aliased, DefinesAlias P cx d rhs data aliased) :
    lowerNode P cx expand env (.named name [] span) = expand d [] span env.selfTy := by
  obtain ⟨data, aliased, hdef⟩ := hdef
  unfold lowerNode
  rw [hname.notPrimitive]
  dsimp only
  rw [hname.notParam]
  dsimp only
  rw [hname.resolves]
  unfold lowerNodes lowerDef
  dsimp only
  rw [hdef.defined]
  dsimp only
  rw [hdef.kind, hdef.generics]
  simp

/-- What an expansion makes of the aliases among some members. -/
structure Expands (expand : Expand) (selfTy : Option Ty) (ms : List Member)
    (typeOf : DefId → Ty) (reported : DefId → Prop) : Prop where
  type_eq : ∀ d, .ref d ∈ ms → ∀ span, (expand d [] span selfTy).1 = typeOf d
  reports_iff : ∀ d, .ref d ∈ ms → ∀ span, Lowered.Reports (expand d [] span selfTy) ↔ reported d
  canonical : ∀ d, .ref d ∈ ms → cx.Canonical (typeOf d)

variable {cx}

theorem Expands.mono {expand : Expand} {selfTy : Option Ty} {ms ms' : List Member}
    {typeOf : DefId → Ty} {reported : DefId → Prop}
    (h : Expands cx expand selfTy ms typeOf reported) (hsub : ms' ⊆ ms) :
    Expands cx expand selfTy ms' typeOf reported :=
  ⟨fun d hd => h.type_eq d (hsub hd), fun d hd => h.reports_iff d (hsub hd),
    fun d hd => h.canonical d (hsub hd)⟩

variable (cx) in
/-- What lowering makes of some members. -/
structure LowersTo (ms : List Member) (typeOf : DefId → Ty) (reported : DefId → Prop)
    (r : List Ty × List SemaError) : Prop where
  flatten : ∀ v, v ∈ Ty.flattenAll r.1 ↔
    .variant v ∈ ms ∨ ∃ d, .ref d ∈ ms ∧ v ∈ (typeOf d).flatten
  reports : (∃ e ∈ r.2, e.IsRecursiveAlias) ↔ ∃ d, .ref d ∈ ms ∧ reported d
  canonical : ∀ t ∈ r.1, cx.Canonical t

/-- Members side by side. -/
theorem LowersTo.append {ms ms' : List Member} {typeOf : DefId → Ty} {reported : DefId → Prop}
    {r r' : List Ty × List SemaError} (h : LowersTo cx ms typeOf reported r)
    (h' : LowersTo cx ms' typeOf reported r') :
    LowersTo cx (ms ++ ms') typeOf reported (r.1 ++ r'.1, r.2 ++ r'.2) := by
  constructor
  · intro v
    have hsplit : v ∈ Ty.flattenAll (r.1 ++ r'.1) ↔
        v ∈ Ty.flattenAll r.1 ∨ v ∈ Ty.flattenAll r'.1 := by
      simp only [Ty.mem_flattenAll, List.mem_append, or_and_right, exists_or]
    rw [hsplit, h.flatten, h'.flatten]
    simp only [List.mem_append, or_and_right, exists_or]
    exact or_or_or_comm
  · simp only [List.mem_append, or_and_right, exists_or]
    rw [h.reports, h'.reports]
  · intro t ht
    rcases List.mem_append.mp ht with ht | ht
    · exact h.canonical t ht
    · exact h'.canonical t ht

/-- A union of members is one type with their variants. -/
theorem LowersTo.union {ms : List Member} {typeOf : DefId → Ty} {reported : DefId → Prop}
    {r : List Ty × List SemaError} (h : LowersTo cx ms typeOf reported r) :
    LowersTo cx ms typeOf reported ([cx.mkUnion r.1], r.2) := by
  refine ⟨fun v => ?_, h.reports, fun t ht => ?_⟩
  · have hone : v ∈ Ty.flattenAll [cx.mkUnion r.1] ↔ v ∈ (cx.mkUnion r.1).flatten := by
      simp [Ty.flattenAll]
    rw [← h.flatten v, hone]
    exact cx.mem_flatten_mkUnion.trans Ty.mem_flattenAll.symm
  · rw [List.mem_singleton.mp ht]
    exact cx.mkUnion_canonical _

theorem Spells.lowers {m : ModId} {nodes : List TypeNode} {ms : List Member}
    (h : Spells P cx m nodes ms) {expand : Expand} {selfTy : Option Ty} {typeOf : DefId → Ty}
    {reported : DefId → Prop} (hexpand : Expands cx expand selfTy ms typeOf reported)
    (hdefs : ∀ d, .ref d ∈ ms → ∃ rhs data aliased, DefinesAlias P cx d rhs data aliased) :
    LowersTo cx ms typeOf reported
      (lowerNodes P cx expand { module := m, generics := [], selfTy } nodes) := by
  induction h with
  | nil =>
    unfold lowerNodes
    exact ⟨by simp [Ty.flattenAll], by simp, by simp⟩
  | @leaf node v nodes ms hleaf _ ih =>
    have hrest := ih (hexpand.mono (List.subset_cons_self _ _))
      fun d hd => hdefs d (List.mem_cons_of_mem _ hd)
    have hone : LowersTo cx [.variant v] typeOf reported ([v], []) := by
      refine ⟨fun u => ?_, by simp, fun t ht => ?_⟩
      · rw [Ty.flattenAll_of_atomic fun t ht => by rw [List.mem_singleton.mp ht]; exact hleaf.1]
        simp
      · rw [List.mem_singleton.mp ht]
        exact .atomic hleaf.1
    have hboth := hone.append hrest
    rw [lowerNodes, hleaf.2 expand selfTy]
    exact hboth
  | @ref name span d nodes ms hname _ ih =>
    have hrest := ih (hexpand.mono (List.subset_cons_self _ _))
      fun d hd => hdefs d (List.mem_cons_of_mem _ hd)
    obtain ⟨rhs, hdef⟩ := hdefs d List.mem_cons_self
    have hname' : RefersTo P { module := m, generics := [], selfTy } name d :=
      ⟨hname.notPrimitive, rfl, hname.resolves⟩
    have hone : LowersTo cx [.ref d] typeOf reported
        ([(expand d [] span selfTy).1], (expand d [] span selfTy).2) := by
      have htype := hexpand.type_eq d List.mem_cons_self span
      have hreports := hexpand.reports_iff d List.mem_cons_self span
      refine ⟨fun u => ?_, ?_, fun t ht => ?_⟩
      · rw [htype]
        simp [Ty.flattenAll]
      · simpa [Lowered.Reports] using hreports
      · rw [List.mem_singleton.mp ht, htype]
        exact hexpand.canonical d List.mem_cons_self
    have hboth := hone.append hrest
    rw [lowerNodes, lowerNode_ref span hname' hdef]
    exact hboth
  | paren _ ih =>
    have hinner := ih hexpand hdefs
    unfold lowerNodes at hinner ⊢
    rw [lowerNode]
    exact hinner
  | @union members nodes span ms ms' _ _ ih ih' =>
    have hmembers := (ih (hexpand.mono (List.subset_append_left _ _))
      fun d hd => hdefs d (List.mem_append_left _ hd)).union
    have hrest := ih' (hexpand.mono (List.subset_append_right _ _))
      fun d hd => hdefs d (List.mem_append_right _ hd)
    have hboth := hmembers.append hrest
    rw [lowerNodes, lowerNode]
    exact hboth

end lowering

/-! ## Expanding an alias -/

namespace AliasSystem

variable {P : Program} {cx : TyCtxt} (sys : AliasSystem P cx)

/-- What an expansion makes of an alias while others are in progress. -/
structure Expanded (path : List DefId) (d : DefId) (r : Lowered) : Prop where
  canonical : cx.Canonical r.1
  yields : ¬Stuck sys.rhs path d → ∀ v, v ∈ r.1.flatten ↔ ReachesOutside sys.rhs path d v
  reports : r.Reports ↔ Stuck sys.rhs path d
  error : d ∉ path → (∀ v, ¬ReachesOutside sys.rhs path d v) → r.1 = .error

/-- An alias that is in progress contributes nothing. -/
theorem expanded_in_progress {path : List DefId} {d : DefId} (hd : d ∈ path) :
    sys.Expanded path d (.never, []) := by
  have hfree : ¬Stuck sys.rhs path d := fun h => h.notBarred hd
  constructor
  · exact .never
  · intro _ v
    constructor
    · intro hv
      cases hv
    · intro hv
      exact absurd hd hv.notBarred
  · refine iff_of_false ?_ hfree
    rintro ⟨e, he, _⟩
    cases he
  · exact fun h => absurd hd h

variable {sys} in
/-- Where nothing is reachable, an expansion yields no more than the error type. -/
theorem Expanded.only_error {path : List DefId} {d : DefId} {r : Lowered}
    (h : sys.Expanded path d r) (hnone : ∀ v, ¬ReachesOutside sys.rhs path d v) :
    ∀ v, v ∈ r.1.flatten → v = .error := by
  intro v hv
  by_cases hd : d ∈ path
  · exact absurd ((h.yields (fun hstuck => hstuck.notBarred hd) v).mp hv) (hnone v)
  · rw [h.error hd hnone] at hv
    exact List.mem_singleton.mp hv

/-- The step of the expansion: from the aliases of the right-hand side to the alias. -/
theorem Expanded.step {path : List DefId} {d : DefId} (hd : d ∉ path) {u : Ty}
    {errors : List SemaError} {typeOf : DefId → Ty} {reported : DefId → Prop} (name : String)
    (span : Span) (hlow : LowersTo cx (sys.rhs d) typeOf reported ([u], errors))
    (hrefs : ∀ e, .ref e ∈ sys.rhs d → ∃ r, r.1 = typeOf e ∧ (r.Reports ↔ reported e) ∧
      sys.Expanded (d :: path) e r) :
    sys.Expanded path d
      (if u = .never then (.error, errors ++ [⟨.recursiveAlias name, span⟩]) else (u, errors)) := by
  have hcanonical : cx.Canonical u := hlow.canonical u List.mem_cons_self
  have hflatten : ∀ v, v ∈ u.flatten ↔
      .variant v ∈ sys.rhs d ∨ ∃ e, .ref e ∈ sys.rhs d ∧ v ∈ (typeOf e).flatten := by
    intro v
    rw [← hlow.flatten v]
    simp [Ty.flattenAll]
  have hreports : (∃ e ∈ errors, e.IsRecursiveAlias) ↔
      ∃ e, .ref e ∈ sys.rhs d ∧ Stuck sys.rhs (d :: path) e := by
    rw [hlow.reports]
    constructor
    · rintro ⟨e, he, hrep⟩
      obtain ⟨r, _, hr, hexp⟩ := hrefs e he
      exact ⟨e, he, hexp.reports.mp (hr.mpr hrep)⟩
    · rintro ⟨e, he, hstuck⟩
      obtain ⟨r, _, hr, hexp⟩ := hrefs e he
      exact ⟨e, he, hr.mp (hexp.reports.mpr hstuck)⟩
  have hmembers : (¬∃ e, .ref e ∈ sys.rhs d ∧ Stuck sys.rhs (d :: path) e) →
      ∀ v, v ∈ u.flatten ↔ ReachesOutside sys.rhs path d v := by
    intro hfree v
    rw [hflatten v, reachesOutside_iff hd]
    refine or_congr_right (exists_congr fun e => and_congr_right fun he => ?_)
    obtain ⟨r, hr, _, hexp⟩ := hrefs e he
    rw [← hr]
    exact hexp.yields (fun hstuck => hfree ⟨e, he, hstuck⟩) v
  by_cases hu : u = .never
  · rw [if_pos hu]
    have hstuck : Stuck sys.rhs path d := by
      by_cases hfree : ∃ e, .ref e ∈ sys.rhs d ∧ Stuck sys.rhs (d :: path) e
      · obtain ⟨e, he, hstuck⟩ := hfree
        exact .ref hd he hstuck
      · refine .here hd fun v hv => ?_
        have hmem := (hmembers hfree v).mpr hv
        rw [hu] at hmem
        cases hmem
    constructor
    · exact .atomic trivial
    · exact fun hfree => absurd hstuck hfree
    · refine iff_of_true ⟨_, List.mem_append_right _ List.mem_cons_self, name, rfl⟩ hstuck
    · exact fun _ _ => rfl
  · rw [if_neg hu]
    have hsome : ∃ v, v ∈ u.flatten := by
      by_contra hnone
      exact hu (hcanonical.eq_never fun v hv => hnone ⟨v, hv⟩)
    constructor
    · exact hcanonical
    · intro hfree
      refine hmembers fun hreach => ?_
      obtain ⟨e, he, hstuck⟩ := hreach
      exact hfree (.ref hd he hstuck)
    · rw [Lowered.Reports, hreports]
      constructor
      · rintro ⟨e, he, hstuck⟩
        exact .ref hd he hstuck
      · intro hstuck
        cases hstuck with
        | here _ hnone =>
          by_contra hfree
          obtain ⟨v, hv⟩ := hsome
          exact hnone v ((hmembers hfree v).mp hv)
        | ref _ he hstuck => exact ⟨_, he, hstuck⟩
    · intro _ hnone
      have honly : ∀ v, v ∈ u.flatten → v = .error := by
        intro v hv
        rcases (hflatten v).mp hv with hvariant | ⟨e, he, hv⟩
        · exact absurd (.variant hd hvariant) (hnone v)
        · obtain ⟨r, hr, _, hexp⟩ := hrefs e he
          rw [← hr] at hv
          exact hexp.only_error (fun w hw => hnone w (.ref hd he hw.weaken)) v hv
      refine hcanonical.ext (.atomic trivial) fun v => ⟨fun hv => ?_, fun hv => ?_⟩
      · rw [honly v hv]
        exact List.mem_singleton_self _
      · obtain ⟨w, hw⟩ := hsome
        rw [List.mem_singleton.mp hv, ← honly w hw]
        exact hw

/-- The place of the source is for the reports only. -/
theorem expandAlias_type (path : List DefId) (d : DefId) (args : List Ty) (span span' : Span)
    (selfTy : Option Ty) : (expandAlias P cx path d args span selfTy).1 =
      (expandAlias P cx path d args span' selfTy).1 := by
  unfold expandAlias
  split
  · rfl
  · split
    · rfl
    · split
      · dsimp only
        split <;> rfl
      · rfl

/-- What an expansion makes of an alias of the system, by induction on how many aliases are not
in progress. -/
theorem expandAlias_expanded (selfTy : Option Ty) (path : List DefId) :
    ∀ d ∈ sys.aliases, ∀ span,
      sys.Expanded path d (expandAlias P cx path d [] span selfTy) := by
  induction h : unexpanded P path using Nat.strong_induction_on generalizing path with
  | _ n ih =>
    intro d hmem span
    by_cases hd : d ∈ path
    · rw [expandAlias, dif_pos hd]
      exact sys.expanded_in_progress hd
    · obtain ⟨data, aliased, hdata, _, hgenerics, hitem, hspells⟩ := sys.defines d hmem
      have hlt := unexpanded_lt P hd hdata
      have hnext := ih _ (h ▸ hlt) (d :: path) rfl
      let expand : Expand := expandAlias P cx (d :: path)
      let typeOf : DefId → Ty := fun e => (expand e [] span selfTy).1
      let reported : DefId → Prop := fun e => Stuck sys.rhs (d :: path) e
      have hexpand : Expands cx expand selfTy (sys.rhs d) typeOf reported := by
        refine ⟨fun e he span' => ?_, fun e he span' => ?_, fun e he => ?_⟩
        · exact expandAlias_type _ _ _ _ _ _
        · exact (hnext e (sys.closed d hmem e he) span').reports
        · exact (hnext e (sys.closed d hmem e he) span).canonical
      have hlow := hspells.lowers hexpand fun e he =>
        ⟨_, sys.defines e (sys.closed d hmem e he)⟩
      rw [lowerNodes, lowerNodes, List.append_nil] at hlow
      have hstep := Expanded.step sys hd data.name span hlow fun e he =>
        ⟨expand e [] span selfTy, rfl, (hnext e (sys.closed d hmem e he) span).reports,
          hnext e (sys.closed d hmem e he) span⟩
      rw [expandAlias, dif_neg hd]
      split
      · rename_i hnone
        rw [hdata] at hnone
        cases hnone
      · rename_i data' hdata'
        obtain rfl : data = data' := Option.some.inj (hdata.symm.trans hdata')
        rw [hitem, hgenerics]
        exact hstep

/-! ## The law -/

/-- A reference to an alias is lowered to its reachable variants, and reported if there are none,
just when no alias that is reached depends on the way to it. -/
theorem lower_least_fixpoint_iff {d : DefId} (hd : d ∈ sys.aliases) {env : TypeEnv}
    {name : String} (span : Span) (hname : RefersTo P env name d) :
    sys.LeastFixpoint d (lower P cx env (.named name [] span)) ↔ sys.Settled d := by
  have hexp := sys.expandAlias_expanded env.selfTy [] d hd span
  have hlower : lower P cx env (.named name [] span) =
      expandAlias P cx [] d [] span env.selfTy := lowerNode_ref span hname (sys.defines d hd)
  rw [hlower]
  constructor
  · intro h hsome hstuck
    exact (h.reports.mp (hexp.reports.mpr hstuck)) hsome
  · intro hsettled
    constructor
    · intro hsome v
      have hyields := hexp.yields (hsettled hsome)
      have hne : (expandAlias P cx [] d [] span env.selfTy).1 ≠ .never := by
        intro hnever
        obtain ⟨w, hw⟩ := hsome
        have hmem := (hyields w).mpr hw
        rw [hnever] at hmem
        cases hmem
      exact (hexp.canonical.mem_variants hne).trans (hyields v)
    · rw [hexp.reports]
      constructor
      · exact fun hstuck hsome => hsettled hsome hstuck
      · intro hnone
        exact .here List.not_mem_nil fun v hv => hnone ⟨v, hv⟩

/-- What an alias is lowered to depends on what is reachable from it only. -/
theorem lower_same {d e : DefId} (hd : d ∈ sys.aliases) (he : e ∈ sys.aliases)
    (hsettled : sys.Settled d) (hsettled' : sys.Settled e)
    (hsame : ∀ v, Reaches sys.rhs d v ↔ Reaches sys.rhs e v) {env env' : TypeEnv}
    {name name' : String} (span span' : Span) (hname : RefersTo P env name d)
    (hname' : RefersTo P env' name' e) :
    (lower P cx env (.named name [] span)).1 = (lower P cx env' (.named name' [] span')).1 ∧
      ((lower P cx env (.named name [] span)).Reports ↔
        (lower P cx env' (.named name' [] span')).Reports) := by
  have hexp := sys.expandAlias_expanded env.selfTy [] d hd span
  have hexp' := sys.expandAlias_expanded env'.selfTy [] e he span'
  have hlaw := (sys.lower_least_fixpoint_iff hd span hname).mpr hsettled
  have hlaw' := (sys.lower_least_fixpoint_iff he span' hname').mpr hsettled'
  refine ⟨?_, ?_⟩
  · unfold lower
    rw [lowerNode_ref span hname (sys.defines d hd), lowerNode_ref span' hname' (sys.defines e he)]
    by_cases hsome : ∃ v, Reaches sys.rhs d v
    · have hsome' : ∃ v, Reaches sys.rhs e v := hsome.imp fun v hv => (hsame v).mp hv
      refine hexp.canonical.ext hexp'.canonical fun v => ?_
      exact (hexp.yields (hsettled hsome) v).trans
        ((hsame v).trans (hexp'.yields (hsettled' hsome') v).symm)
    · have hnone : ∀ v, ¬ReachesOutside sys.rhs [] d v := fun v hv => hsome ⟨v, hv⟩
      have hnone' : ∀ v, ¬ReachesOutside sys.rhs [] e v := fun v hv => hnone v ((hsame v).mpr hv)
      rw [hexp.error List.not_mem_nil hnone, hexp'.error List.not_mem_nil hnone']
  · rw [hlaw.reports, hlaw'.reports]
    exact not_congr (exists_congr hsame)

/-- Aliases are lowered to the least fixpoint of their system, whichever comes first, just when
no alias that is reached depends on the way to it. -/
theorem aliases_lower_to_least_fixpoints :
    (∀ d ∈ sys.aliases, ∀ env name span, RefersTo P env name d →
      (sys.LeastFixpoint d (lower P cx env (.named name [] span)) ↔ sys.Settled d)) ∧
    ∀ d ∈ sys.aliases, ∀ e ∈ sys.aliases, sys.Settled d → sys.Settled e →
      (∀ v, Reaches sys.rhs d v ↔ Reaches sys.rhs e v) →
      ∀ env env' name name' span span', RefersTo P env name d → RefersTo P env' name' e →
        (lower P cx env (.named name [] span)).1 = (lower P cx env' (.named name' [] span')).1 ∧
          ((lower P cx env (.named name [] span)).Reports ↔
            (lower P cx env' (.named name' [] span')).Reports) := by
  refine ⟨?_, ?_⟩
  · intro d hd env name span hname
    exact sys.lower_least_fixpoint_iff hd span hname
  · intro d hd e he hsettled hsettled' hsame env env' name name' span span' hname hname'
    exact sys.lower_same hd he hsettled hsettled' hsame span span' hname hname'

end AliasSystem

/-! ### Two systems of two aliases -/

/-- A program of aliases in one module. -/
def aliasProgram (aliases : List (String × TypeNode)) : Program where
  defs := aliases.map fun a =>
    { kind := .typeAlias, name := a.1, module := 0, parent := none,
      item := some (.typeAlias a.2), generics := [], paramBounds := [] }
  modules := [{
    types := aliases.zipIdx.map fun a => (a.1.1, a.2), importedTypes := [], extends_ := [],
    extensionImports := [], publicExtensionImports := [] }]
  preludeTypes := []
  builtinModule := 0
  builtinSourceModules := []

/-- A name without arguments. -/
def TypeNode.name (name : String) : TypeNode := .named name [] ⟨0, 0⟩

/-- A union of a type and an alias. -/
theorem spells_leaf_or_ref {P : Program} {cx : TyCtxt} {m : ModId} {node : TypeNode} (v : Ty)
    {name : String} (d : DefId) {span span' : Span} (hleaf : Leaf P cx m node v)
    (hname : RefersTo P { module := m, generics := [], selfTy := none } name d) :
    Spells P cx m [.union [node, .named name [] span] span'] [.variant v, .ref d] :=
  .union (.leaf hleaf (.ref hname .nil)) .nil

/-- The environment of the module. -/
def rootEnv : TypeEnv := { module := 0, generics := [], selfTy := none }

/-- `type X = i64 | Y; type Y = str | X`. -/
def mutualProgram : Program :=
  aliasProgram [("X", .union [.name "i64", .name "Y"] ⟨0, 0⟩),
    ("Y", .union [.name "str", .name "X"] ⟨0, 0⟩)]

def mutualUnions : AliasSystem mutualProgram .standard where
  aliases := [0, 1]
  rhs
    | 0 => [.variant (.int .i64), .ref 1]
    | _ => [.variant .str, .ref 0]
  defines d hd := by
    have hcases : d = 0 ∨ d = 1 := by simpa using hd
    rcases hcases with rfl | rfl
    · exact ⟨_, _, rfl, rfl, rfl, rfl,
        spells_leaf_or_ref (.int .i64) 1 ⟨trivial, fun _ _ => rfl⟩ ⟨rfl, rfl, rfl⟩⟩
    · exact ⟨_, _, rfl, rfl, rfl, rfl,
        spells_leaf_or_ref .str 0 ⟨trivial, fun _ _ => rfl⟩ ⟨rfl, rfl, rfl⟩⟩
  closed d hd e he := by
    have hcases : d = 0 ∨ d = 1 := by simpa using hd
    rcases hcases with rfl | rfl
    · have h : e = 1 := by simpa using he
      simp [h]
    · have h : e = 0 := by simpa using he
      simp [h]

/-- Each of the two reaches a variant of its own. -/
theorem mutualUnions_settled : mutualUnions.Settled 0 := by
  intro _ hstuck
  cases hstuck with
  | here _ hnone =>
    exact hnone (.int .i64) (.variant List.not_mem_nil List.mem_cons_self)
  | @ref _ _ e _ he hstuck =>
    have h : Member.ref e = .ref 1 := by simpa [mutualUnions] using he
    cases h
    cases hstuck with
    | here hout hnone => exact hnone .str (.variant hout List.mem_cons_self)
    | @ref _ _ f _ hf hstuck =>
      have h : Member.ref f = .ref 0 := by simpa [mutualUnions] using hf
      cases h
      exact hstuck.notBarred (by decide)

theorem mutualUnions_lower :
    mutualUnions.LeastFixpoint 0 (lower mutualProgram .standard rootEnv (.named "X" [] ⟨0, 0⟩)) :=
  (mutualUnions.aliases_lower_to_least_fixpoints.1 0 (by decide) _ _ _ ⟨rfl, rfl, rfl⟩).mpr
    mutualUnions_settled

/-- `type A = i64 | B; type B = A`. -/
def aliasOfAliasProgram : Program :=
  aliasProgram [("A", .union [.name "i64", .name "B"] ⟨0, 0⟩), ("B", .name "A")]

def aliasOfAlias : AliasSystem aliasOfAliasProgram .standard where
  aliases := [0, 1]
  rhs
    | 0 => [.variant (.int .i64), .ref 1]
    | _ => [.ref 0]
  defines d hd := by
    have hcases : d = 0 ∨ d = 1 := by simpa using hd
    rcases hcases with rfl | rfl
    · exact ⟨_, _, rfl, rfl, rfl, rfl,
        spells_leaf_or_ref (.int .i64) 1 ⟨trivial, fun _ _ => rfl⟩ ⟨rfl, rfl, rfl⟩⟩
    · exact ⟨_, _, rfl, rfl, rfl, rfl, .ref ⟨rfl, rfl, rfl⟩ .nil⟩
  closed d hd e he := by
    have hcases : d = 0 ∨ d = 1 := by simpa using hd
    rcases hcases with rfl | rfl
    · have h : e = 1 := by simpa using he
      simp [h]
    · have h : e = 0 := by simpa using he
      simp [h]

/-- `A` is `i64`, but on the way from `A` the alias `B` has nothing left. From `B` it has. -/
theorem alias_of_alias_reported :
    ¬aliasOfAlias.LeastFixpoint 0
        (lower aliasOfAliasProgram .standard rootEnv (.named "A" [] ⟨0, 0⟩)) ∧
      lower aliasOfAliasProgram .standard rootEnv (.named "B" [] ⟨0, 0⟩) = (.int .i64, []) := by
  refine ⟨fun h => ?_, by decide +kernel⟩
  refine h.reports.mp ⟨⟨.recursiveAlias "B", ⟨0, 0⟩⟩, ?_, "B", rfl⟩
    ⟨.int .i64, .variant List.not_mem_nil List.mem_cons_self⟩
  decide +kernel

end compiler.sema
