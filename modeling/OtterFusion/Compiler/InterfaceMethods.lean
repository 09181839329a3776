-- The methods of an interface by name (`check/methods.rs`): those that it declares itself, and
-- those of the interfaces above.
import OtterFusion.Compiler.Methods

namespace compiler.sema.Checker

variable (ck : Checker)

/-- A method of an interface or of an `extend` block. -/
def isMethodOf (kind : DefKind) (parent d : DefId) : Bool :=
  match ck.prog.defs[d]? with
  | some data => data.kind == kind && data.parent == some parent
  | none => false

def hasName (name : String) (d : DefId) : Bool :=
  match ck.prog.defs[d]? with
  | some data => data.name == name
  | none => false

/-- The methods of an interface, in the order of declaration. -/
def interfaceMethods (iface : DefId) : List DefId :=
  (List.range ck.prog.defs.length).filter (ck.isMethodOf .interfaceMethod iface)

/-- A method that an interface declares itself. -/
def ownMethod (iface : DefId) (name : String) : Option DefId :=
  (ck.interfaceMethods iface).find? (ck.hasName name)

/-- The recursion of `interface_method_by_name`. As for `iface_reaches`, the source has no bound
and does not come back from a cycle of interfaces. -/
def interfaceMethodByNameWithin : Nat → DefId → String → Option (DefId × DefId)
  | fuel, iface, name =>
    match ck.ownMethod iface name with
    | some d => some (d, iface)
    | none => match fuel with
      | 0 => none
      | fuel + 1 =>
        (ck.ifaceSupers iface).findSome? fun sup => interfaceMethodByNameWithin fuel sup name

/-- `interface_method_by_name`: the method that a call on an interface object means, with the
interface that declares it. -/
def interfaceMethodByName (iface : DefId) (name : String) : Option (DefId × DefId) :=
  ck.interfaceMethodByNameWithin ck.prog.defs.length iface name

theorem mem_interfaceMethods {iface m : DefId} : m ∈ ck.interfaceMethods iface ↔
    ∃ data, ck.prog.defs[m]? = some data ∧ data.kind = .interfaceMethod ∧
      data.parent = some iface := by
  unfold interfaceMethods isMethodOf
  rw [List.mem_filter, List.mem_range]
  constructor
  · rintro ⟨hlt, h⟩
    rw [List.getElem?_eq_getElem hlt] at h ⊢
    simpa using h
  · rintro ⟨data, hdata, hkind, hparent⟩
    refine ⟨(List.getElem?_eq_some_iff.mp hdata).1, ?_⟩
    rw [hdata]
    simp [hkind, hparent]

theorem ownMethod_spec {iface m : DefId} {name : String} (h : ck.ownMethod iface name = some m) :
    ∃ data, ck.prog.defs[m]? = some data ∧ data.name = name ∧ m ∈ ck.interfaceMethods iface := by
  have hname : ck.hasName name m = true := List.find?_some h
  have hmem := List.mem_of_find?_eq_some h
  obtain ⟨data, hdata, _, _⟩ := (ck.mem_interfaceMethods).mp hmem
  refine ⟨data, hdata, ?_, hmem⟩
  unfold hasName at hname
  rw [hdata] at hname
  simpa using hname

end compiler.sema.Checker
