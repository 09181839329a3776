-- Interfaces, bounds and methods in the type checker (`check/methods.rs`, `check/helpers.rs`,
-- `check/mod.rs`).
import OtterFusion.Compiler.Lower
import OtterFusion.Compiler.Unify

namespace compiler.sema

/-! ## Classes of types -/

/-- `is_immutable_value` and `is_stringifiable`, which accept the same types. -/
def Ty.isImmutableValue : Ty → Bool
  | .int _ | .float _ | .bool | .char | .str | .null => true
  | _ => false

/-- `is_ordered`. -/
def Ty.isOrdered : Ty → Bool
  | .int _ | .float _ | .char | .str => true
  | _ => false

/-- `is_hashable` and `is_primitive_debuggable`, which accept the same types. -/
def Ty.isHashable : Ty → Bool
  | .int _ | .float _ | .bool | .char | .str => true
  | _ => false

/-! ## The checker -/

/-- `Checker`, as far as these passes read it. The errors that lowering a type reports are left
out. -/
structure Checker where
  prog : Program
  tcx : TyCtxt
  curModule : ModId
  curGenerics : Names Ty
  curSelfTy : Option Ty
  /-- `hir.iface_impls`: type and interface, with the `extend` block that was put last. -/
  ifaceImpls : List ((DefId × DefId) × DefId)
  /-- `display`: how a type is written in a message. -/
  display : Ty → String

namespace Checker

variable (ck : Checker)

/-- `lower_ty`. -/
def lowerTy (node : TypeNode) (env : TypeEnv) : Ty := (lower ck.prog ck.tcx env node).1

/-- `def_env`: the parameters of a definition stand for themselves. -/
def defEnv (data : Def) (selfTy : Option Ty) : TypeEnv where
  module := data.module
  generics := data.generics.foldl (fun names g =>
    match ck.prog.defs[g]? with
    | some p => names.insert p.name (.param g)
    | none => names) []
  selfTy := selfTy

/-- `local_env`. -/
def localEnv : TypeEnv :=
  { module := ck.curModule, generics := ck.curGenerics, selfTy := ck.curSelfTy }

/-- What an `extend` block extends, with the interfaces that it names. -/
def extendBlock (ext : DefId) : Option (Ty × List TypeNode) :=
  match ck.prog.defs[ext]? with
  | some data =>
    match data.item with
    | some (.extend target interfaces) =>
      some (ck.lowerTy target (ck.defEnv data none), interfaces)
    | _ => none
  | none => none

/-! ### Interfaces -/

/-- A name of a definition of interfaces in a module. -/
def interfaceNamed (module : ModId) : TypeNode → Option DefId
  | .named name _ _ =>
    match ck.prog.resolveTypeIn module name with
    | some d => if (ck.prog.defs[d]?).map Def.kind = some .interface then some d else none
    | none => none
  | _ => none

/-- `iface_supers`. -/
def ifaceSupers (iface : DefId) : List DefId :=
  match ck.prog.defs[iface]? with
  | some data =>
    match data.item with
    | some (.interface supers) => supers.filterMap (ck.interfaceNamed data.module)
    | _ => []
  | none => []

/-- The loop of `iface_reaches`. The source has no bound and does not come back from a cycle of
interfaces; a search that does is no deeper than there are definitions. -/
def ifaceReachesWithin : Nat → DefId → DefId → Bool
  | fuel, iface, target =>
    iface == target || match fuel with
      | 0 => false
      | fuel + 1 => (ck.ifaceSupers iface).any fun sup => ifaceReachesWithin fuel sup target

/-- `iface_reaches`. -/
def ifaceReaches (iface target : DefId) : Bool :=
  ck.ifaceReachesWithin ck.prog.defs.length iface target

/-- `bound_ifaces`. -/
def boundIfaces (param : DefId) : List (DefId × List Ty) :=
  match ck.prog.defs[param]? with
  | none => []
  | some data =>
    let owner := data.parent.bind fun o => ck.prog.defs[o]?
    let env := match owner with
      | some o => ck.defEnv o none
      | none => ck.localEnv
    let module := match owner with
      | some o => o.module
      | none => 0
    data.paramBounds.filterMap fun b =>
      match b with
      | .named _ generics _ =>
        (ck.interfaceNamed module b).map fun idef => (idef, generics.map (ck.lowerTy · env))
      | _ => none

/-- A list or a map whose elements are immutable. -/
def immutableElems (ty : Ty) : Option Bool :=
  match ty with
  | .named d [elem] => if d = ck.prog.listDef then some elem.isImmutableValue else none
  | .named d [key, value] =>
    if d = ck.prog.mapDef then some (key.isImmutableValue && value.isImmutableValue) else none
  | _ => none

/-- A built-in definition that is known. -/
def isBuiltin (iface builtin : DefId) : Bool := iface == builtin && iface != 0

/-- The rules of `type_implements` that need no `extend` block, where one of them decides. -/
def intrinsic (ty : Ty) (iface : DefId) : Option Bool :=
  let clone : Option Bool :=
    if isBuiltin iface ck.prog.cloneDef then
      if ty.isImmutableValue then some true else ck.immutableElems ty
    else none
  clone.orElse fun _ =>
    if isBuiltin iface ck.prog.eqDef && ty.isImmutableValue then some true
    else if isBuiltin iface ck.prog.ordDef && ty.isOrdered then some true
    else if isBuiltin iface ck.prog.toStrDef && ty.isImmutableValue then some true
    else if isBuiltin iface ck.prog.hashDef && ty.isHashable then some true
    else if isBuiltin iface ck.prog.debugDef && ty.isHashable then some true
    else none

/-- The interfaces of a clause, as names of the module where the block stands. -/
def clauseReaches (ext : DefId) (interfaces : List TypeNode) (iface : DefId) : Bool :=
  match ck.prog.defs[ext]? with
  | some data => interfaces.any fun itf =>
    match itf with
    | .named name _ _ =>
      match ck.prog.resolveTypeIn data.module name with
      | some impl => ck.ifaceReaches impl iface
      | none => false
    | _ => false
  | none => false

/-- An `extend` block that gives a type an interface, as `type_implements` reads it. -/
def extendImplements (ty : Ty) (iface ext : DefId) : Bool :=
  match ck.extendBlock ext with
  | some (target, interfaces) => tyMatches target ty && ck.clauseReaches ext interfaces iface
  | none => false

/-- `type_implements`. -/
def typeImplements (ty : Ty) (iface : DefId) : Bool :=
  match ty with
  | .named d _ => d == iface || rest ty
  | .param p => (ck.boundIfaces p).any (fun b => ck.ifaceReaches b.1 iface) || rest ty
  | _ => rest ty
where
  rest (ty : Ty) : Bool :=
    match ck.intrinsic ty iface with
    | some answer => answer
    | none => (ck.prog.visibleExtends ck.curModule).any (ck.extendImplements ty iface)

/-- Whether the bounds of a parameter accept a type. -/
def accepts (param : DefId) (ty : Ty) : Bool :=
  (ck.boundIfaces param).all fun b => ck.typeImplements ty b.1

/-- `check_bounds`: what is reported of the arguments for some parameters. -/
def checkBounds (gens : List DefId) (args : List Ty) (span : compiler.lexer.Span) :
    List SemaError :=
  (gens.zip args).flatMap fun (g, arg) =>
    if arg = .error then []
    else (ck.boundIfaces g).filterMap fun b =>
      if ck.typeImplements arg b.1 then none
      else some ⟨.message ("type `" ++ ck.display arg ++ "` does not implement `" ++
        ((ck.prog.defs[b.1]?).map Def.name).getD "" ++ "`, required by this bound"), span⟩

/-! ### Interface objects -/

/-- The loop of `iface_supers_transitive`, with the top of the stack first. -/
def supersFrom (out : List DefId) : List DefId → List DefId
  | [] => out
  | next :: stack =>
    if _hnext : next ∈ out then supersFrom out stack
    else match _hdata : ck.prog.defs[next]? with
      | none => supersFrom out stack
      | some _ => supersFrom (next :: out) ((ck.ifaceSupers next).reverse ++ stack)
termination_by stack => (unexpanded ck.prog out, stack.length)
decreasing_by
  · exact Prod.Lex.right _ (Nat.lt_succ_self _)
  · exact Prod.Lex.right _ (Nat.lt_succ_self _)
  · exact Prod.Lex.left _ _ (unexpanded_lt ck.prog _hnext _hdata)

/-- `iface_supers_transitive`, the one found last first. -/
def ifaceSupersTransitive (iface : DefId) : List DefId :=
  ck.supersFrom [] (ck.ifaceSupers iface).reverse

/-- The rows of the table that an `extend` block puts. -/
def implRows (ext : DefId) : List ((DefId × DefId) × DefId) :=
  match ck.extendBlock ext, ck.prog.defs[ext]? with
  | some (.named tdef _, interfaces), some data =>
    (interfaces.filterMap (ck.interfaceNamed data.module)).flatMap fun idef =>
      (idef :: ck.ifaceSupersTransitive idef).map fun sup => ((tdef, sup), ext)
  | _, _ => []

/-- `collect_impls`. -/
def collectImpls : Checker :=
  { ck with
    ifaceImpls :=
      ((ck.prog.visibleExtends ck.curModule).flatMap ck.implRows).reverse ++ ck.ifaceImpls }

/-- `implements_dyn`. -/
def implementsDyn (found expected : Ty) : Bool :=
  match expected with
  | .named idef _ =>
    (ck.prog.defs[idef]?).map Def.kind == some .interface &&
      (idef == ck.prog.debugDef && found.isHashable ||
        match found with
        | .param p => (ck.boundIfaces p).any fun b => ck.ifaceReaches b.1 idef
        | .named cdef _ => (ck.ifaceImpls.lookup (cdef, idef)).isSome
        | _ => false)
  | _ => false

/-! ### Methods -/

/-- The loop of `resolve_method`. -/
def resolveMethodFrom (recv : Ty) (name : String) : List DefId → Option (DefId × Subst)
  | [] => none
  | d :: ds =>
    match ck.prog.defs[d]? with
    | none => none
    | some data =>
      if data.kind ≠ .extendMethod ∨ data.name ≠ name then resolveMethodFrom recv name ds
      else match data.parent with
        | none => none
        | some parent =>
          match ck.extendBlock parent with
          | none => resolveMethodFrom recv name ds
          | some (target, _) =>
            if tyMatches target recv then some (d, unify ck.accepts target recv [])
            else resolveMethodFrom recv name ds

/-- `resolve_method`. -/
def resolveMethod (recv : Ty) (name : String) : Option (DefId × Subst) :=
  ck.resolveMethodFrom recv name (List.range ck.prog.defs.length)

end Checker

end compiler.sema
