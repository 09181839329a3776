-- The queries about inheritance (`check/methods.rs`) as recursions that may not come back: two of
-- them ask the interfaces above with no set of those they have been at, and no pass before them
-- looks for a cycle.
import OtterFusion.Base.Searching
import OtterFusion.Compiler.InterfaceMethods
import OtterFusion.Compiler.InterfaceSatisfaction

open base.searching base.marking

namespace compiler.sema.Checker

variable (ck : Checker)

/-! ## The queries -/

/-- `any`, over questions that may not come back. -/
def anyReturned (ask : DefId → Option Bool) : List DefId → Option Bool
  | [] => some false
  | sup :: sups =>
    match ask sup with
    | none => none
    | some true => some true
    | some false => anyReturned ask sups

/-- `iface_reaches`, as far as it comes back within so many calls below each other. -/
def ifaceReachesIn : Nat → DefId → DefId → Option Bool
  | 0, _, _ => none
  | depth + 1, iface, target =>
    if iface = target then some true
    else anyReturned (fun sup => ifaceReachesIn depth sup target) (ck.ifaceSupers iface)

/-- `interface_method_by_name`, as far as it comes back within so many calls below each other. -/
def interfaceMethodByNameIn : Nat → DefId → String → Option (Option (DefId × DefId))
  | 0, _, _ => none
  | depth + 1, iface, name =>
    match ck.ownMethod iface name with
    | some d => some (some (d, iface))
    | none =>
      firstAnswer (fun sup => interfaceMethodByNameIn depth sup name) (ck.ifaceSupers iface)

/-- The queries come back whatever they are asked, and the first agrees with the third, which is a
loop with a set. -/
structure QueriesReturn : Prop where
  reaches : ∀ iface target, ∃ depth b, ck.ifaceReachesIn depth iface target = some b ∧
    (b = true ↔ target = iface ∨ target ∈ ck.ifaceSupersTransitive iface)
  byName : ∀ iface name, ∃ depth r, ck.interfaceMethodByNameIn depth iface name = some r

/-! ## The queries as searches -/

/-- The answer that `iface_reaches` looks for. -/
def isTarget (target iface : DefId) : Option Unit := if iface = target then some () else none

theorem anyReturned_eq {ask : DefId → Option Bool} {find : DefId → Option (Option Unit)}
    (h : ∀ sup, ask sup = (find sup).map Option.isSome) (sups : List DefId) :
    anyReturned ask sups = (firstAnswer find sups).map Option.isSome := by
  induction sups with
  | nil => rfl
  | cons sup sups ih =>
    unfold anyReturned firstAnswer
    rw [h sup, ih]
    cases find sup with
    | none => rfl
    | some r => cases r <;> rfl

theorem ifaceReachesIn_eq (depth : Nat) (iface target : DefId) :
    ck.ifaceReachesIn depth iface target =
      (search ck.ifaceSupers (isTarget target) depth iface).map Option.isSome := by
  induction depth generalizing iface with
  | zero => rfl
  | succ depth ih =>
    unfold ifaceReachesIn search isTarget
    by_cases h : iface = target
    · rw [if_pos h, if_pos h]
      rfl
    · rw [if_neg h, if_neg h]
      exact anyReturned_eq ih _

theorem interfaceMethodByNameIn_eq (depth : Nat) (iface : DefId) (name : String) :
    ck.interfaceMethodByNameIn depth iface name =
      search ck.ifaceSupers (fun i => (ck.ownMethod i name).map (·, i)) depth iface := by
  induction depth generalizing iface with
  | zero => rfl
  | succ depth ih =>
    unfold interfaceMethodByNameIn search
    cases ck.ownMethod iface name with
    | some d => rfl
    | none =>
      rw [funext ih]
      rfl

/-! ## The interfaces above -/

theorem interfaceNamed_defined {module : ModId} {node : TypeNode} {d : DefId}
    (h : ck.interfaceNamed module node = some d) : ∃ data, ck.prog.defs[d]? = some data := by
  unfold interfaceNamed at h
  split at h
  · split at h
    · split at h
      · rename_i impl _ hkind
        cases h
        cases hdata : ck.prog.defs[d]? with
        | none =>
          rw [hdata] at hkind
          cases hkind
        | some data => exact ⟨data, rfl⟩
      · cases h
    · cases h
  · cases h

theorem ifaceSupers_defined {iface sup : DefId} (h : sup ∈ ck.ifaceSupers iface) :
    ∃ data, ck.prog.defs[sup]? = some data := by
  unfold ifaceSupers at h
  split at h
  · split at h
    · obtain ⟨node, _, hnamed⟩ := List.mem_filterMap.mp h
      exact ck.interfaceNamed_defined hnamed
    · cases h
  · cases h

/-- Only definitions inherit. -/
theorem lt_of_mem_ifaceSupers {iface sup : DefId} (h : sup ∈ ck.ifaceSupers iface) :
    sup < ck.prog.defs.length := by
  obtain ⟨data, hdata⟩ := ck.ifaceSupers_defined h
  exact (List.getElem?_eq_some_iff.mp hdata).1

/-- When what an interface of the set inherits from is in the set or on the stack, the loop leaves a
set with the stack and all that is above. -/
theorem supersFrom_closed {out stack : List DefId}
    (hdefined : ∀ s ∈ stack, ∃ data, ck.prog.defs[s]? = some data)
    (hclosed : ∀ i ∈ out, ∀ s ∈ ck.ifaceSupers i, s ∈ out ∨ s ∈ stack) :
    (∀ i, i ∈ out ∨ i ∈ stack → i ∈ ck.supersFrom out stack) ∧
      ∀ i ∈ ck.supersFrom out stack, ∀ s ∈ ck.ifaceSupers i, s ∈ ck.supersFrom out stack := by
  fun_induction ck.supersFrom out stack with
  | case1 out =>
    constructor
    · intro i hi
      exact hi.resolve_right List.not_mem_nil
    · intro i hi s hs
      exact (hclosed i hi s hs).resolve_right List.not_mem_nil
  | case2 out next stack hnext ih =>
    obtain ⟨hin, hup⟩ :=
      ih (fun s hs => hdefined s (List.mem_cons_of_mem _ hs)) (fun i hi s hs => by
      rcases hclosed i hi s hs with h | h
      · exact .inl h
      · rcases List.mem_cons.mp h with rfl | h
        · exact .inl hnext
        · exact .inr h)
    refine ⟨fun i hi => hin i ?_, hup⟩
    rcases hi with h | h
    · exact .inl h
    · rcases List.mem_cons.mp h with rfl | h
      · exact .inl hnext
      · exact .inr h
  | case3 out next stack hnext hdata ih =>
    obtain ⟨data, hsome⟩ := hdefined next List.mem_cons_self
    rw [hsome] at hdata
    cases hdata
  | case4 out next stack hnext data hdata ih =>
    obtain ⟨hin, hup⟩ := ih (fun s hs => by
      rcases List.mem_append.mp hs with hs | hs
      · exact ck.ifaceSupers_defined (List.mem_reverse.mp hs)
      · exact hdefined s (List.mem_cons_of_mem _ hs)) (fun i hi s hs => by
      rw [List.mem_cons, List.mem_append, List.mem_reverse]
      rcases List.mem_cons.mp hi with rfl | hi
      · exact .inr (.inl hs)
      · rcases hclosed i hi s hs with h | h
        · exact .inl (.inr h)
        · rcases List.mem_cons.mp h with rfl | h
          · exact .inl (.inl rfl)
          · exact .inr (.inr h))
    refine ⟨fun i hi => hin i ?_, hup⟩
    rw [List.mem_cons, List.mem_append]
    rcases hi with h | h
    · exact .inl (.inr h)
    · rcases List.mem_cons.mp h with rfl | h
      · exact .inl (.inl rfl)
      · exact .inr (.inr h)

/-- One interface is above another: it inherits from it, over one clause or over several. -/
def Above : DefId → DefId → Prop :=
  Relation.TransGen fun i sup => sup ∈ ck.ifaceSupers i

theorem Above.closed {P : DefId → Prop} {iface target : DefId}
    (hfirst : ∀ s ∈ ck.ifaceSupers iface, P s)
    (hup : ∀ i, P i → ∀ s ∈ ck.ifaceSupers i, P s) (h : ck.Above iface target) : P target := by
  induction h with
  | single hs => exact hfirst _ hs
  | tail _ hs ih => exact hup _ ih _ hs

theorem mem_ifaceSupersTransitive (iface target : DefId) :
    target ∈ ck.ifaceSupersTransitive iface ↔ ck.Above iface target := by
  constructor
  · intro h
    exact ck.supersFrom_all (P := ck.Above iface) (fun i hi s hs => hi.tail hs)
      (fun s hs => by cases hs) (fun s hs => .single (List.mem_reverse.mp hs)) target h
  · obtain ⟨hin, hup⟩ := ck.supersFrom_closed (fun s hs =>
      ck.ifaceSupers_defined (List.mem_reverse.mp hs)) (fun i (hi : i ∈ []) => by cases hi)
    exact Above.closed ck (fun s hs => hin s (.inr (List.mem_reverse.mpr hs))) hup

/-! ## Cycles -/

theorem wellFounded_of_no_cycle (h : ∀ iface, ¬ck.Above iface iface) :
    WellFounded fun sup iface => sup ∈ ck.ifaceSupers iface := by
  refine wellFounded_of_acyclic (Finset.range ck.prog.defs.length) (fun i s hs => ?_) h
  rw [Finset.mem_range]
  exact ck.lt_of_mem_ifaceSupers hs

/-- A name that no definition has. -/
theorem exists_fresh_name : ∃ name, ∀ iface, ck.ownMethod iface name = none := by
  obtain ⟨name, hfresh⟩ := Infinite.exists_notMem_finset (ck.prog.defs.map Def.name).toFinset
  refine ⟨name, fun iface => ?_⟩
  cases hown : ck.ownMethod iface name with
  | none => rfl
  | some m =>
    obtain ⟨data, hdata, rfl, _⟩ := ck.ownMethod_spec hown
    have hmem : data ∈ ck.prog.defs := List.mem_of_getElem? hdata
    exact absurd (List.mem_toFinset.mpr (List.mem_map_of_mem hmem)) hfresh

theorem isTarget_iff {target iface : DefId} : isTarget target iface = some () ↔ iface = target := by
  simp [isTarget]

/-- A method that no interface declares is looked for forever from an interface of a cycle. -/
theorem not_queriesReturn {iface : DefId} (hcycle : ck.Above iface iface) : ¬ck.QueriesReturn := by
  intro h
  obtain ⟨name, hname⟩ := ck.exists_fresh_name
  obtain ⟨depth, r, hr⟩ := h.byName iface name
  rw [interfaceMethodByNameIn_eq, search_cycle hcycle (fun i _ => by rw [hname]; rfl)] at hr
  cases hr

/-- The queries come back for a program exactly when no interface inherits from itself. -/
theorem queries_return_iff : ck.QueriesReturn ↔ ∀ iface, ¬ck.Above iface iface := by
  constructor
  · intro h iface hcycle
    exact ck.not_queriesReturn hcycle h
  · intro h
    have hwf := ck.wellFounded_of_no_cycle h
    constructor
    · intro iface target
      obtain ⟨depth, r, hr⟩ := search_returns (isTarget target) hwf iface
      refine ⟨depth, r.isSome, by rw [ifaceReachesIn_eq, hr]; rfl, ?_⟩
      rw [mem_ifaceSupersTransitive, Above, ← Relation.reflTransGen_iff_eq_or_transGen]
      cases r with
      | some found =>
        obtain ⟨i, hreach, hi⟩ := search_found hr
        rw [isTarget_iff] at hi
        exact iff_of_true rfl (hi ▸ hreach)
      | none =>
        refine iff_of_false Bool.false_ne_true fun hreach => ?_
        have hmiss := search_nothing hr hreach
        rw [isTarget_iff.mpr rfl] at hmiss
        cases hmiss
    · intro iface name
      obtain ⟨depth, r, hr⟩ := search_returns (fun i => (ck.ownMethod i name).map (·, i)) hwf iface
      exact ⟨depth, r, by rw [interfaceMethodByNameIn_eq, hr]⟩

/-! ## An interface that inherits from itself -/

/-- `interface A: A`. -/
def selfProgram : Program where
  defs := [
    { kind := .interface, name := "A", module := 0, parent := none, generics := [],
      item := some (.interface [.named "A" [] ⟨0, 0⟩]), paramBounds := [] },
    { kind := .interface, name := "Clone", module := 1, parent := none, generics := [],
      item := some (.interface []), paramBounds := [] }]
  modules := [
    { types := [("A", 0)], importedTypes := [], extends_ := [], extensionImports := [],
      publicExtensionImports := [] },
    { types := [("Clone", 1)], importedTypes := [], extends_ := [], extensionImports := [],
      publicExtensionImports := [] }]
  preludeTypes := []
  builtinModule := 1
  builtinSourceModules := []
  cloneDef := 1

/-- The checker in the module of the interface. -/
def selfChecker : Checker := during selfProgram .standard (fun _ => "") 0 [] none

theorem self_above : selfChecker.Above 0 0 := .single (by decide)

/-- The queries of this program do not all come back. -/
theorem self_inheriting_interface : ¬∀ ck : Checker, ck.QueriesReturn := by
  intro h
  exact selfChecker.not_queriesReturn self_above (h selfChecker)

end compiler.sema.Checker
