-- The signature of a method that is called through a bound or on an interface object
-- (`check/methods.rs`). The method may stand in an interface above, but it is typed at the
-- arguments of the interface where the search for it began.
import OtterFusion.Compiler.InterfaceMethods
import OtterFusion.Compiler.InterfaceSatisfaction

namespace compiler.sema

/-- `FunctionItem`, as far as a signature is read from it: a parameter `self` has no type. -/
structure FunctionItem where
  params : List (Option TypeNode)
  returnType : Option TypeNode

/-- The syntax of the functions of a program. -/
abbrev Functions := DefId → Option FunctionItem

mutual

/-- Each name in a type expression, with what it is applied to. -/
def TypeNode.EachName (p : String → List TypeNode → Prop) : TypeNode → Prop
  | .named name generics _ => p name generics ∧ EachNames p generics
  | .tuple elems _ => EachNames p elems
  | .function params ret _ | .externFunction params ret _ => EachNames p params ∧ ret.EachName p
  | .union members _ => EachNames p members
  | .pointer inner _ => inner.EachName p
  | .array elem _ _ => elem.EachName p
  | .selfType _ => True
  | .paren inner _ => inner.EachName p

def TypeNode.EachNames (p : String → List TypeNode → Prop) : List TypeNode → Prop
  | [] => True
  | node :: nodes => node.EachName p ∧ EachNames p nodes

end

/-- Each name in the declared types of a function. -/
structure FunctionItem.EachName (p : String → List TypeNode → Prop) (f : FunctionItem) : Prop where
  params : ∀ node, some node ∈ f.params → node.EachName p
  returnType : ∀ node, f.returnType = some node → node.EachName p

mutual

theorem TypeNode.EachName.mono {p q : String → List TypeNode → Prop}
    (hpq : ∀ name generics, p name generics → q name generics) (node : TypeNode)
    (h : node.EachName p) : node.EachName q := by
  cases node with
  | named name generics span => exact ⟨hpq _ _ h.1, TypeNode.EachNames.mono hpq generics h.2⟩
  | function params ret span =>
    exact ⟨TypeNode.EachNames.mono hpq params h.1, TypeNode.EachName.mono hpq ret h.2⟩
  | externFunction params ret span =>
    exact ⟨TypeNode.EachNames.mono hpq params h.1, TypeNode.EachName.mono hpq ret h.2⟩
  | tuple elems span => exact TypeNode.EachNames.mono hpq elems h
  | union members span => exact TypeNode.EachNames.mono hpq members h
  | pointer inner span => exact TypeNode.EachName.mono hpq inner h
  | array elem len span => exact TypeNode.EachName.mono hpq elem h
  | selfType span => trivial
  | paren inner span => exact TypeNode.EachName.mono hpq inner h

theorem TypeNode.EachNames.mono {p q : String → List TypeNode → Prop}
    (hpq : ∀ name generics, p name generics → q name generics) (nodes : List TypeNode)
    (h : TypeNode.EachNames p nodes) : TypeNode.EachNames q nodes := by
  cases nodes with
  | nil => trivial
  | cons node nodes =>
    exact ⟨TypeNode.EachName.mono hpq node h.1, TypeNode.EachNames.mono hpq nodes h.2⟩

end

/-! ## Environments that agree -/

section

variable {P : Program} {cx : TyCtxt} {expand : Expand} {env env' : TypeEnv}

/-- A name is read alike: it is bound in neither environment, or it stands alone and means the same
in both. -/
def ReadAlike (P : Program) (cx : TyCtxt) (expand : Expand) (env env' : TypeEnv) (name : String)
    (generics : List TypeNode) : Prop :=
  (env.generics.get name = none ∧ env'.generics.get name = none) ∨
    (generics = [] ∧ ∀ span, (lowerNode P cx expand env (.named name [] span)).1 =
      (lowerNode P cx expand env' (.named name [] span)).1)

mutual

theorem lowerNode_alike (hmodule : env.module = env'.module) (hself : env.selfTy = env'.selfTy)
    (node : TypeNode) (h : node.EachName (ReadAlike P cx expand env env')) :
    (lowerNode P cx expand env node).1 = (lowerNode P cx expand env' node).1 := by
  cases node with
  | named name generics span =>
    rcases h.1 with ⟨hnone, hnone'⟩ | ⟨rfl, hsame⟩
    · have hargs := lowerNodes_alike hmodule hself generics h.2
      unfold lowerNode
      rw [hnone, hnone', hmodule]
      split
      · rfl
      · dsimp only
        split
        · rfl
        · unfold lowerDef
          rw [hargs, hself]
    · exact hsame span
  | tuple elems span =>
    exact congrArg TyCtxt.mkTuple (lowerNodes_alike hmodule hself elems h)
  | function params ret span =>
    unfold lowerNode
    dsimp only
    rw [lowerNodes_alike hmodule hself params h.1, lowerNode_alike hmodule hself ret h.2]
  | externFunction params ret span =>
    unfold lowerNode
    dsimp only
    rw [lowerNodes_alike hmodule hself params h.1, lowerNode_alike hmodule hself ret h.2]
  | union members span => exact congrArg cx.mkUnion (lowerNodes_alike hmodule hself members h)
  | pointer inner span => exact congrArg Ty.ptr (lowerNode_alike hmodule hself inner h)
  | array elem len span =>
    unfold lowerNode
    dsimp only
    rw [lowerNode_alike hmodule hself elem h]
  | selfType span =>
    unfold lowerNode
    rw [hself]
  | paren inner span => exact lowerNode_alike hmodule hself inner h

theorem lowerNodes_alike (hmodule : env.module = env'.module) (hself : env.selfTy = env'.selfTy)
    (nodes : List TypeNode) (h : TypeNode.EachNames (ReadAlike P cx expand env env') nodes) :
    (lowerNodes P cx expand env nodes).1 = (lowerNodes P cx expand env' nodes).1 := by
  cases nodes with
  | nil => rfl
  | cons node nodes =>
    unfold lowerNodes
    dsimp only
    rw [lowerNode_alike hmodule hself node h.1, lowerNodes_alike hmodule hself nodes h.2]

end

end

namespace Checker

variable (ck : Checker) (fns : Functions)

/-! ## Signatures -/

def nameOf (d : DefId) : String := ((ck.prog.defs[d]?).map Def.name).getD ""

def moduleOf (d : DefId) : ModId := ((ck.prog.defs[d]?).map Def.module).getD 0

def genericsOf (d : DefId) : List DefId := ((ck.prog.defs[d]?).map Def.generics).getD []

/-- The environment of `iface_method_sig`: the generics of an interface by position, then those of
the method. -/
def sigEnv (method iface : DefId) (iargs : List Ty) (self : Ty) : TypeEnv where
  module := ck.moduleOf method
  generics :=
    (ck.genericsOf method).foldl (fun names g => names.insert (ck.nameOf g) (.param g))
      (((ck.genericsOf iface).zip iargs).foldl (fun names p => names.insert (ck.nameOf p.1) p.2) [])
  selfTy := some self

/-- `iface_method_sig`. -/
def ifaceMethodSig (method iface : DefId) (iargs : List Ty) (self : Ty) : List Ty × Ty :=
  let env := ck.sigEnv method iface iargs self
  match fns method with
  | none => ([], .error)
  | some f =>
    (f.params.filterMap (Option.map (ck.lowerTy · env)),
      match f.returnType with
      | some t => ck.lowerTy t env
      | none => .null)

/-- `resolve_bound_method`. -/
def resolveBoundMethod (param : DefId) (name : String) : Option (DefId × DefId × List Ty) :=
  (ck.boundIfaces param).findSome? fun b =>
    (ck.interfaceMethodByName b.1 name).map fun found => (found.1, found.2, b.2)

/-- A receiver: of the type of a parameter with bounds, or an interface object. -/
inductive Receiver
  | bound (param : DefId)
  | object (iface : DefId) (args : List Ty)

def Receiver.ty : Receiver → Ty
  | .bound param => .param param
  | .object iface args => .named iface args

/-- The signature that `check_bound_method_call` and `check_dyn_method_call` check a call against.
-/
def callSig (name : String) : Receiver → Option (List Ty × Ty)
  | .bound param =>
    (ck.resolveBoundMethod param name).map fun (method, iface, iargs) =>
      ck.ifaceMethodSig fns method iface iargs (.param param)
  | .object iface args =>
    (ck.interfaceMethodByName iface name).map fun (method, _) =>
      ck.ifaceMethodSig fns method iface args (.named iface args)

/-! ## The right signature -/

/-- The interface and the arguments where the search for a method begins, and what it finds. -/
inductive Starts (name : String) (method owner : DefId) : Receiver → DefId → List Ty → Prop
  | bound {param iface : DefId} {iargs : List Ty} {before after : List (DefId × List Ty)} :
      ck.boundIfaces param = before ++ (iface, iargs) :: after →
      (∀ b ∈ before, ck.interfaceMethodByName b.1 name = none) →
      ck.interfaceMethodByName iface name = some (method, owner) →
      Starts name method owner (.bound param) iface iargs
  | object {iface : DefId} {args : List Ty} :
      ck.interfaceMethodByName iface name = some (method, owner) →
      Starts name method owner (.object iface args) iface args

/-- The interface whose generics the arguments are bound to. -/
def binder (iface owner : DefId) : Receiver → DefId
  | .bound _ => owner
  | .object _ _ => iface

/-- A call is checked against the declared signature at the arguments that a path to the declaring
interface composes, and a parameter in it is one of the receiver, of its arguments or of the method.
-/
def TypedRight (name : String) (r : Receiver) (method owner iface : DefId)
    (iargs : List Ty) : Prop :=
  ∀ cargs, ck.InheritsWith iface iargs owner cargs →
    ck.callSig fns name r = some (ck.ifaceMethodSig fns method owner cargs r.ty) ∧
      ∀ sig, ck.callSig fns name r = some sig → ∀ d ∈ Ty.paramsAll (sig.2 :: sig.1),
        d ∈ Ty.paramsAll iargs ∨ d ∈ r.ty.params ∨ d ∈ ck.genericsOf method

theorem findSome_after {A B : Type} {f : A → Option B} {before after : List A} {a : A} {b : B}
    (hbefore : ∀ x ∈ before, f x = none) (ha : f a = some b) :
    (before ++ a :: after).findSome? f = some b := by
  rw [List.findSome?_append, List.findSome?_eq_none_iff.mpr hbefore, Option.none_or,
    List.findSome?_cons, ha]

theorem callSig_of_starts {name : String} {r : Receiver} {method owner iface : DefId}
    {iargs : List Ty} (h : ck.Starts name method owner r iface iargs) :
    ck.callSig fns name r =
      some (ck.ifaceMethodSig fns method (binder iface owner r) iargs r.ty) := by
  cases h with
  | @bound param _ _ before after hbounds hbefore hfound =>
    have hresolve : ck.resolveBoundMethod param name = some (method, owner, iargs) := by
      unfold resolveBoundMethod
      rw [hbounds]
      apply findSome_after
      · intro b hb
        rw [hbefore b hb]
        rfl
      · rw [hfound]
        rfl
    rw [callSig, hresolve]
    rfl
  | object hfound =>
    rw [callSig, hfound]
    rfl

/-! ### The parameters in a signature -/

/-- A type whose parameters are among some. -/
def ParamsIn (S : DefId → Prop) (t : Ty) : Prop := ∀ d ∈ t.params, S d

theorem paramsIn_all {S : DefId → Prop} {ts : List Ty} :
    (∀ d ∈ Ty.paramsAll ts, S d) ↔ ∀ t ∈ ts, ParamsIn S t := by
  constructor
  · exact fun h t ht d hd => h d (Ty.mem_paramsAll.mpr ⟨t, ht, hd⟩)
  · intro h d hd
    obtain ⟨t, ht, hd⟩ := Ty.mem_paramsAll.mp hd
    exact h t ht d hd

mutual

theorem ParamsIn.flatten {S : DefId → Prop} {t v : Ty} (h : ParamsIn S t) (hv : v ∈ t.flatten) :
    ParamsIn S v := by
  cases t with
  | union variants => exact ParamsIn.flattenAll (paramsIn_all.mp h) hv
  | never => cases hv
  | _ =>
    rw [List.mem_singleton.mp hv]
    exact h

theorem ParamsIn.flattenAll {S : DefId → Prop} {ts : List Ty} {v : Ty} (h : ∀ t ∈ ts, ParamsIn S t)
    (hv : v ∈ Ty.flattenAll ts) : ParamsIn S v := by
  cases ts with
  | nil => cases hv
  | cons t ts =>
    obtain ⟨ht, hts⟩ := List.forall_mem_cons.mp h
    rcases List.mem_append.mp hv with hv | hv
    · exact ParamsIn.flatten ht hv
    · exact ParamsIn.flattenAll hts hv

end

theorem ParamsIn.mkUnion {S : DefId → Prop} {ts : List Ty} (h : ∀ t ∈ ts, ParamsIn S t)
    (cx : TyCtxt) :
    ParamsIn S (cx.mkUnion ts) := by
  have hall : ∀ v ∈ cx.canonical (Ty.flattenAll ts), ParamsIn S v := fun v hv =>
    ParamsIn.flattenAll h (cx.mem_canonical.mp hv)
  unfold TyCtxt.mkUnion
  split
  · exact fun d hd => by cases hd
  · rename_i t heq
    exact hall t (by rw [heq]; exact List.mem_cons_self)
  · exact paramsIn_all.mpr hall

theorem primitive_params {name : String} {t : Ty} (h : primitive name = some t) :
    t.params = [] := by
  unfold primitive at h
  simp only [Option.or_eq_some_iff, Option.map_eq_some_iff] at h
  rcases h with ⟨it, _, rfl⟩ | ⟨_, ⟨ft, _, rfl⟩ | ⟨_, h⟩⟩
  · rfl
  · rfl
  · split at h
    all_goals first | (obtain rfl := Option.some.inj h; rfl) | cases h

theorem formsKeep_paramsIn (cx : TyCtxt) (S : DefId → Prop) : FormsKeep cx (ParamsIn S) where
  error := fun d hd => by cases hd
  never := fun d hd => by cases hd
  primitive _ _ h := fun d hd => by
    rw [primitive_params h] at hd
    cases hd
  named _ _ h := paramsIn_all.mpr h
  tuple elems h := by
    unfold TyCtxt.mkTuple
    split
    · exact fun d hd => by cases hd
    · exact h _ List.mem_cons_self
    · exact paramsIn_all.mpr h
  func _ _ _ hparams hret := fun d hd => by
    rcases List.mem_append.mp hd with hd | hd
    · exact paramsIn_all.mpr hparams d hd
    · exact hret d hd
  union _ h := ParamsIn.mkUnion h cx
  ptr _ h := h
  array _ _ h := h

theorem sigEnv_params (method iface : DefId) (iargs : List Ty) (self : Ty) :
    (ck.sigEnv method iface iargs self).All (ParamsIn fun d =>
      d ∈ Ty.paramsAll iargs ∨ d ∈ self.params ∨ d ∈ ck.genericsOf method) where
  generics := by
    refine List.foldlRecOn (motive := fun names : Names Ty => ∀ p ∈ names, ParamsIn _ p.2) _ _ ?_
      fun names hnames g hg p hp => ?_
    · refine List.foldlRecOn (motive := fun names : Names Ty => ∀ p ∈ names, ParamsIn _ p.2) _ _
        (fun p hp => by cases hp) fun names hnames q hq p hp => ?_
      rcases List.mem_cons.mp hp with rfl | hp
      · intro d hd
        left
        exact Ty.mem_paramsAll.mpr ⟨q.2, (List.of_mem_zip hq).2, hd⟩
      · exact hnames p hp
    · rcases List.mem_cons.mp hp with rfl | hp
      · intro d hd
        right; right
        rw [List.mem_singleton.mp hd]
        exact hg
      · exact hnames p hp
  selfTy := by
    intro t ht
    obtain rfl := Option.some.inj ht
    exact fun d hd => .inr (.inl hd)

/-- A parameter in a signature is one of the arguments, of the receiver or of the method. -/
theorem ifaceMethodSig_params (method iface : DefId) (iargs : List Ty) (self : Ty) :
    ∀ d ∈ Ty.paramsAll ((ck.ifaceMethodSig fns method iface iargs self).2 ::
        (ck.ifaceMethodSig fns method iface iargs self).1),
      d ∈ Ty.paramsAll iargs ∨ d ∈ self.params ∨ d ∈ ck.genericsOf method := by
  have henv := ck.sigEnv_params method iface iargs self
  have hlower := fun node => @lower_keeps ck.prog _ _ (formsKeep_paramsIn ck.tcx _) _ henv node
  rw [paramsIn_all]
  unfold ifaceMethodSig
  cases fns method with
  | none =>
    intro t ht
    rw [List.mem_singleton.mp ht]
    exact fun d hd => by cases hd
  | some f =>
    intro t ht
    rcases List.mem_cons.mp ht with rfl | ht
    · dsimp only
      cases f.returnType with
      | none => exact fun d hd => by cases hd
      | some node => exact hlower node
    · obtain ⟨param, _, hparam⟩ := List.mem_filterMap.mp ht
      obtain ⟨node, _, rfl⟩ := Option.map_eq_some_iff.mp hparam
      exact hlower node

/-! ### When the signature is right -/

/-- A name, standing alone, means one type in both environments. -/
def MeansAlike (env env' : TypeEnv) (name : String) : Prop :=
  ∀ span, ck.lowerTy (.named name [] span) env = ck.lowerTy (.named name [] span) env'

/-- A generic of either environment is applied to nothing. -/
def Unapplied (env env' : TypeEnv) (name : String) (generics : List TypeNode) : Prop :=
  generics = [] ∨ (env.generics.get name = none ∧ env'.generics.get name = none)

/-- A name is read alike in both environments. -/
def Alike (env env' : TypeEnv) : String → List TypeNode → Prop :=
  ReadAlike ck.prog ck.tcx (expandAlias ck.prog ck.tcx []) env env'

theorem lowerTy_alike {env env' : TypeEnv} {node : TypeNode} (h : node.EachName (ck.Alike env env'))
    (hmodule : env.module = env'.module) (hself : env.selfTy = env'.selfTy) :
    ck.lowerTy node env = ck.lowerTy node env' :=
  lowerNode_alike hmodule hself node h

/-- Where each name of the declared types is read alike, the signature is one. -/
theorem ifaceMethodSig_alike {method iface owner : DefId} {iargs cargs : List Ty} {self : Ty}
    (h : ∀ f, fns method = some f →
      f.EachName
        (ck.Alike (ck.sigEnv method iface iargs self) (ck.sigEnv method owner cargs self))) :
    ck.ifaceMethodSig fns method iface iargs self =
      ck.ifaceMethodSig fns method owner cargs self := by
  unfold ifaceMethodSig
  cases hf : fns method with
  | none => rfl
  | some f =>
    obtain ⟨hparams, hret⟩ := h f hf
    dsimp only
    congr 1
    · apply List.filterMap_congr
      intro param hparam
      cases param with
      | none => rfl
      | some node => exact congrArg some (ck.lowerTy_alike (hparams node hparam) rfl rfl)
    · cases hr : f.returnType with
      | none => rfl
      | some node => exact ck.lowerTy_alike (hret node hr) rfl rfl

/-- What a call is checked against, where the names mean what the composed arguments say. -/
theorem typedRight_of_alike {name : String} {r : Receiver} {method owner iface : DefId}
    {iargs : List Ty} (hstarts : ck.Starts name method owner r iface iargs)
    (h : ∀ cargs, ck.InheritsWith iface iargs owner cargs → ∀ f, fns method = some f →
      f.EachName (ck.Alike (ck.sigEnv method (binder iface owner r) iargs r.ty)
        (ck.sigEnv method owner cargs r.ty))) :
    ck.TypedRight fns name r method owner iface iargs := by
  intro cargs hpath
  rw [ck.callSig_of_starts fns hstarts]
  constructor
  · rw [ck.ifaceMethodSig_alike fns (h cargs hpath)]
  · intro sig hsig
    obtain rfl := Option.some.inj hsig
    exact ck.ifaceMethodSig_params fns method _ iargs r.ty

/-- The declaration `function method(self): n`. -/
def returnsName (n : String) (span : compiler.lexer.Span) : Functions :=
  fun _ => some ⟨[none], some (.named n [] span)⟩

/-- What a call is checked against is right where each name of the declared types is read alike at
the arguments of the receiver and at those that a path composes. For every declaration that applies
no generic it is right exactly when each name means the same at both. -/
theorem inherited_method_typed_iff {name : String} {r : Receiver} {method owner iface : DefId}
    {iargs : List Ty} (hstarts : ck.Starts name method owner r iface iargs) :
    (∀ fns : Functions, (∀ cargs, ck.InheritsWith iface iargs owner cargs →
        ∀ f, fns method = some f →
          f.EachName (ck.Alike (ck.sigEnv method (binder iface owner r) iargs r.ty)
            (ck.sigEnv method owner cargs r.ty))) →
      ck.TypedRight fns name r method owner iface iargs) ∧
    ((∀ fns : Functions, (∀ cargs, ck.InheritsWith iface iargs owner cargs →
        ∀ f, fns method = some f →
          f.EachName (Unapplied (ck.sigEnv method (binder iface owner r) iargs r.ty)
            (ck.sigEnv method owner cargs r.ty))) →
      ck.TypedRight fns name r method owner iface iargs) ↔
      ∀ cargs, ck.InheritsWith iface iargs owner cargs →
        ∀ n, ck.MeansAlike (ck.sigEnv method (binder iface owner r) iargs r.ty)
          (ck.sigEnv method owner cargs r.ty) n) := by
  refine ⟨fun fns h => ck.typedRight_of_alike fns hstarts h, fun h cargs hpath n span => ?_,
    fun h fns hunapplied => ck.typedRight_of_alike fns hstarts fun cargs hpath f hf => ?_⟩
  · have hright := h (returnsName n span) (fun cargs _ f hf => by
      obtain rfl := Option.some.inj hf
      constructor
      · intro node hnode
        cases List.mem_singleton.mp hnode
      · intro node hnode
        obtain rfl := Option.some.inj hnode
        exact ⟨.inl rfl, trivial⟩) cargs hpath
    rw [ck.callSig_of_starts _ hstarts] at hright
    exact congrArg Prod.snd (Option.some.inj hright.1)
  · obtain ⟨hparams, hret⟩ := hunapplied cargs hpath f hf
    have hread : ∀ n generics, Unapplied (ck.sigEnv method (binder iface owner r) iargs r.ty)
        (ck.sigEnv method owner cargs r.ty) n generics →
        ck.Alike (ck.sigEnv method (binder iface owner r) iargs r.ty)
          (ck.sigEnv method owner cargs r.ty) n generics := by
      rintro n generics (hnil | hnone)
      · exact .inr ⟨hnil, h cargs hpath n⟩
      · exact .inl hnone
    exact ⟨fun node hnode => TypeNode.EachName.mono hread node (hparams node hnode),
      fun node hnode => TypeNode.EachName.mono hread node (hret node hnode)⟩

/-! ## A method of an interface above -/

/-- `struct Box<E>`, `interface B<U> { function f(self): U }`, `interface A<T>: B<Box<T>>` and
`function g<X: A<i64>>(x: X)`. -/
def boxProgram : Program where
  defs := [
    { kind := .struct, name := "Box", module := 0, parent := none, item := some .other,
      generics := [1], paramBounds := [] },
    { kind := .genericParam, name := "E", module := 0, parent := some 0, item := none,
      generics := [], paramBounds := [] },
    { kind := .interface, name := "B", module := 0, parent := none, generics := [3],
      item := some (.interface []), paramBounds := [] },
    { kind := .genericParam, name := "U", module := 0, parent := some 2, item := none,
      generics := [], paramBounds := [] },
    { kind := .interfaceMethod, name := "f", module := 0, parent := some 2, item := some .other,
      generics := [], paramBounds := [] },
    { kind := .interface, name := "A", module := 0, parent := none, generics := [6],
      item := some (.interface [.named "B" [.named "Box" [.named "T" [] ⟨0, 0⟩] ⟨0, 0⟩] ⟨0, 0⟩]),
      paramBounds := [] },
    { kind := .genericParam, name := "T", module := 0, parent := some 5, item := none,
      generics := [], paramBounds := [] },
    { kind := .function, name := "g", module := 0, parent := none, item := some .other,
      generics := [8], paramBounds := [] },
    { kind := .genericParam, name := "X", module := 0, parent := some 7, item := none,
      generics := [], paramBounds := [.named "A" [.named "i64" [] ⟨0, 0⟩] ⟨0, 0⟩] }]
  modules := [
    { types := [("Box", 0), ("B", 2), ("A", 5)], importedTypes := [], extends_ := [],
      extensionImports := [], publicExtensionImports := [] }]
  preludeTypes := []
  builtinModule := 0
  builtinSourceModules := []

/-- The checker in the module of these definitions. -/
def boxChecker : Checker := during boxProgram .standard (fun _ => "") 0 [] none

theorem box_starts : boxChecker.Starts "f" 4 2 (.bound 8) 5 [.int .i64] := by
  have hbounds : boxChecker.boundIfaces 8 = [] ++ (5, [.int .i64]) :: [] := by decide
  exact .bound hbounds (fun b hb => by cases hb) (by decide)

/-- `A<i64>` inherits from `B<Box<i64>>`. -/
theorem box_path : boxChecker.InheritsWith 5 [.int .i64] 2 [.named 0 [.int .i64]] := by
  have hsup : boxChecker.interfaceNamed 0
      (.named "B" [.named "Box" [.named "T" [] ⟨0, 0⟩] ⟨0, 0⟩] ⟨0, 0⟩) = some 2 := by
    decide
  refine .super rfl rfl List.mem_cons_self hsup ?_
  have hargs : [substTy boxChecker.tcx ([6].zip [.int .i64])
      (boxChecker.lowerTy (.named "Box" [.named "T" [] ⟨0, 0⟩] ⟨0, 0⟩)
        (boxChecker.defEnv (boxProgram.defs[5]) none))] = [.named 0 [.int .i64]] := by
    decide
  rw [← hargs]
  exact .refl _ _

/-- Where `x` has a type bounded by `A<i64>`, `x.f()` is given the type `i64` and not `Box<i64>`. -/
theorem x_f_is_i64 :
    ¬∀ (ck : Checker) (fns : Functions) (name : String) (r : Receiver) (method owner iface : DefId)
      (iargs : List Ty), ck.Starts name method owner r iface iargs →
        ck.TypedRight fns name r method owner iface iargs := by
  intro h
  have hright := (h boxChecker (returnsName "U" ⟨0, 0⟩) "f" (.bound 8) 4 2 5 [.int .i64] box_starts
    [.named 0 [.int .i64]] box_path).1
  have hused : boxChecker.callSig (returnsName "U" ⟨0, 0⟩) "f" (.bound 8) =
      some ([], .int .i64) := by
    decide
  have hdeclared : boxChecker.ifaceMethodSig (returnsName "U" ⟨0, 0⟩) 4 2 [.named 0 [.int .i64]]
      (Receiver.bound 8).ty = ([], .named 0 [.int .i64]) := by
    decide +kernel
  rw [hused, hdeclared] at hright
  cases hright

/-- Where the inherited `f` returns `i64`, whatever `U` is, `x.f()` is typed right. -/
theorem inherited_f_typed : boxChecker.InheritsWith 5 [.int .i64] 2 [.named 0 [.int .i64]] ∧
    boxChecker.TypedRight (returnsName "i64" ⟨0, 0⟩) "f" (.bound 8) 4 2 5 [.int .i64] := by
  refine ⟨box_path, (boxChecker.inherited_method_typed_iff box_starts).1 _ ?_⟩
  intro cargs _ f hf
  obtain rfl := Option.some.inj hf
  constructor
  · intro node hnode
    cases List.mem_singleton.mp hnode
  · intro node hnode
    obtain rfl := Option.some.inj hnode
    refine ⟨.inl ⟨by decide +kernel, ?_⟩, trivial⟩
    cases cargs <;> rfl

end Checker

end compiler.sema
