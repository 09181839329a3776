-- Lowering type expressions to types (`lower.rs`). A name of an alias is expanded in place; an
-- alias that is met while it is being expanded contributes nothing.
import OtterFusion.Compiler.Symbols

namespace compiler.sema

open compiler.lexer (Span IntBase)

/-! ## Errors and environments -/

/-- `SemaErrorKind`, as far as lowering reports it. -/
inductive SemaErrorKind
  | message (text : String)
  | unknownType (name : String)
  | genericArity (name : String) (expected found : Nat)
  | recursiveAlias (name : String)
  deriving DecidableEq, Repr

/-- `SemaError`. -/
structure SemaError where
  kind : SemaErrorKind
  span : Span
  deriving DecidableEq, Repr

/-- `TypeEnv`. -/
structure TypeEnv where
  module : ModId
  generics : Names Ty
  selfTy : Option Ty

/-- A type, with the errors that lowering it reports. -/
abbrev Lowered := Ty × List SemaError

/-! ## Lengths of arrays -/

/-- The value of a digit. -/
def digitValue (c : Char) : Option Nat :=
  if c.isDigit then some (c.toNat - 48)
  else if 97 ≤ c.toNat ∧ c.toNat ≤ 122 then some (c.toNat - 87)
  else if 65 ≤ c.toNat ∧ c.toNat ≤ 90 then some (c.toNat - 55)
  else none

/-- The digits of a number below 2⁶⁴. -/
def readDigits (radix : Nat) : Nat → List Char → Option Nat
  | n, [] => some n
  | n, c :: cs =>
    match digitValue c with
    | some v =>
      if v < radix ∧ n * radix + v < 2 ^ 64 then readDigits radix (n * radix + v) cs else none
    | none => none

/-- `u64::from_str_radix`. -/
def fromStrRadix (radix : Nat) : List Char → Option Nat
  | [] => none
  | '+' :: cs => if cs = [] then none else readDigits radix 0 cs
  | cs => readDigits radix 0 cs

/-- `const_eval_len`. -/
def constEvalLen (len : ArrayLen) : Nat × List SemaError :=
  let invalid (span : Span) : Nat × List SemaError :=
    (0, [⟨.message "array length must be a constant non-negative integer literal", span⟩])
  match len with
  | .other span => invalid span
  | .int raw base span =>
    let radix := match base with
      | .dec => 10
      | .hex => 16
      | .oct => 8
      | .bin => 2
    match fromStrRadix radix (raw.toList.filter (· != '_')) with
    | some n => (n, [])
    | none => invalid span

/-! ## Lowering -/

/-- `primitive`. -/
def primitive (name : String) : Option Ty :=
  ((IntTy.fromName name).map Ty.int).or (((FloatTy.fromName name).map Ty.float).or
    (match name with
      | "bool" => some .bool
      | "char" => some .char
      | "str" => some .str
      | "null" => some .null
      | "dynamic" => some .dynamic
      | _ => none))

/-- A name that takes no arguments but has some. -/
def noArguments (name : String) (found : Nat) (span : Span) : List SemaError :=
  if found = 0 then [] else [⟨.genericArity name 0 found, span⟩]

section

variable (P : Program) (cx : TyCtxt)

/-- Expands an alias applied to some types, at a place of the source and with a `Self` type. -/
abbrev Expand := DefId → List Ty → Span → Option Ty → Lowered

/-- The rest of `lower_named`, where the name stands for a definition and the arguments are
lowered. -/
def lowerDef (expand : Expand) (env : TypeEnv) (name : String) (span : Span) (d : DefId)
    (args : List Ty) : Lowered :=
  match P.defs[d]? with
  | none => (.error, [])
  | some data =>
    let arity : List SemaError :=
      if args.length = data.generics.length then []
      else [⟨.genericArity name data.generics.length args.length, span⟩]
    match data.kind with
    | .typeAlias =>
      let r := expand d args span env.selfTy
      (r.1, arity ++ r.2)
    | .struct | .interface | .externStruct | .externType => (.named d args, arity)
    | other =>
      (.error, arity ++
        [⟨.message ("`" ++ name ++ "` is a " ++ other.describe ++ " and cannot be used as a type"),
          span⟩])

mutual

/-- `lower`, with `lower_named`. -/
def lowerNode (expand : Expand) (env : TypeEnv) : TypeNode → Lowered
  | .named name generics span =>
    match primitive name with
    | some prim => (prim, noArguments name generics.length span)
    | none =>
      match env.generics.get name with
      | some ty => (ty, noArguments name generics.length span)
      | none =>
        match P.resolveTypeIn env.module name with
        | none => (.error, [⟨.unknownType name, span⟩])
        | some d =>
          let args := lowerNodes expand env generics
          let r := lowerDef P expand env name span d args.1
          (r.1, args.2 ++ r.2)
  | .tuple elems _ =>
    let r := lowerNodes expand env elems
    (TyCtxt.mkTuple r.1, r.2)
  | .function params ret _ =>
    let ps := lowerNodes expand env params
    let r := lowerNode expand env ret
    (.func ps.1 r.1 false, ps.2 ++ r.2)
  | .externFunction params ret _ =>
    let ps := lowerNodes expand env params
    let r := lowerNode expand env ret
    (.func ps.1 r.1 true, ps.2 ++ r.2)
  | .union members _ =>
    let r := lowerNodes expand env members
    (cx.mkUnion r.1, r.2)
  | .pointer inner _ =>
    let r := lowerNode expand env inner
    (.ptr r.1, r.2)
  | .array elem len _ =>
    let r := lowerNode expand env elem
    let n := constEvalLen len
    (.array r.1 n.1, r.2 ++ n.2)
  | .selfType span =>
    match env.selfTy with
    | some t => (t, [])
    | none => (.error, [⟨.message "`Self` is not valid here", span⟩])
  | .paren inner _ => lowerNode expand env inner

def lowerNodes (expand : Expand) (env : TypeEnv) : List TypeNode → List Ty × List SemaError
  | [] => ([], [])
  | t :: ts =>
    let r := lowerNode expand env t
    let rs := lowerNodes expand env ts
    (r.1 :: rs.1, r.2 ++ rs.2)

end

/-- The parameters of an alias, each with its argument. A missing argument is an error type. -/
def aliasParams (params : List DefId) (args : List Ty) : Names Ty :=
  params.zipIdx.foldl (fun names p =>
    match P.defs[p.1]? with
    | some data => names.insert data.name (args[p.2]?.getD .error)
    | none => names) []

/-- How many definitions are not being expanded. -/
def unexpanded (expanding : List DefId) : Nat :=
  ((List.range P.defs.length).filter (· ∉ expanding)).length

theorem unexpanded_lt {expanding : List DefId} {d : DefId} {data : Def}
    (hd : d ∉ expanding) (hdata : P.defs[d]? = some data) :
    unexpanded P (d :: expanding) < unexpanded P expanding :=
  Unseen.unseen_lt (List.mem_range.mpr (List.getElem?_eq_some_iff.mp hdata).1) hd

/-- `expand_alias`. The aliases that are being expanded are `expanding`. -/
def expandAlias (expanding : List DefId) (d : DefId) (args : List Ty) (span : Span)
    (selfTy : Option Ty) : Lowered :=
  if _hd : d ∈ expanding then (.never, [])
  else match _hdata : P.defs[d]? with
    | none => (.error, [])
    | some data =>
      match data.item with
      | some (.typeAlias aliased) =>
        let sub : TypeEnv := { module := data.module, generics := aliasParams P data.generics args,
                               selfTy }
        let r := lowerNode P cx (expandAlias (d :: expanding)) sub aliased
        if r.1 = .never then (.error, r.2 ++ [⟨.recursiveAlias data.name, span⟩]) else r
      | _ => (.error, [])
termination_by unexpanded P expanding
decreasing_by exact unexpanded_lt P _hd _hdata

/-- `Lowerer::lower`, of a `Lowerer` that expands nothing yet. -/
def lower (env : TypeEnv) (node : TypeNode) : Lowered :=
  lowerNode P cx (expandAlias P cx []) env node

end

/-! ## What lowering keeps -/

section keeps

variable {P : Program} {cx : TyCtxt} {Q : Ty → Prop}

/-- A property of types that the ways to form a type keep. -/
structure FormsKeep (cx : TyCtxt) (Q : Ty → Prop) : Prop where
  error : Q .error
  never : Q .never
  primitive : ∀ name t, primitive name = some t → Q t
  named : ∀ d args, (∀ t ∈ args, Q t) → Q (.named d args)
  tuple : ∀ elems, (∀ t ∈ elems, Q t) → Q (TyCtxt.mkTuple elems)
  func : ∀ params ret isExtern, (∀ t ∈ params, Q t) → Q ret → Q (.func params ret isExtern)
  union : ∀ members, (∀ t ∈ members, Q t) → Q (cx.mkUnion members)
  ptr : ∀ inner, Q inner → Q (.ptr inner)
  array : ∀ elem len, Q elem → Q (.array elem len)

/-- An environment whose names stand for types with the property. -/
structure TypeEnv.All (Q : Ty → Prop) (env : TypeEnv) : Prop where
  generics : ∀ p ∈ env.generics, Q p.2
  selfTy : ∀ t, env.selfTy = some t → Q t

/-- An expansion that keeps the property. -/
def Expand.Keeps (Q : Ty → Prop) (expand : Expand) : Prop :=
  ∀ d args span selfTy, (∀ t ∈ args, Q t) → (∀ t, selfTy = some t → Q t) →
    Q (expand d args span selfTy).1

theorem lowerDef_keeps (hQ : FormsKeep cx Q) {expand : Expand} {env : TypeEnv}
    (hexpand : expand.Keeps Q) (henv : env.All Q) (name : String) (span : compiler.lexer.Span)
    (d : DefId) {args : List Ty} (hargs : ∀ t ∈ args, Q t) :
    Q (lowerDef P expand env name span d args).1 := by
  unfold lowerDef
  split
  · exact hQ.error
  · rename_i data _
    dsimp only
    cases data.kind with
    | typeAlias => exact hexpand d args span env.selfTy hargs henv.selfTy
    | struct | interface | externStruct | externType => exact hQ.named d args hargs
    | _ => exact hQ.error

mutual

theorem lowerNode_keeps (hQ : FormsKeep cx Q) {expand : Expand} {env : TypeEnv}
    (hexpand : expand.Keeps Q) (henv : env.All Q) (node : TypeNode) :
    Q (lowerNode P cx expand env node).1 := by
  cases node with
  | named name generics span =>
    unfold lowerNode
    split
    · rename_i h
      exact hQ.primitive _ _ h
    · split
      · rename_i t h
        obtain ⟨l, l', hl, _⟩ := List.lookup_eq_some_iff.mp h
        exact henv.generics (name, t) (by rw [hl]; simp)
      · split
        · exact hQ.error
        · exact lowerDef_keeps hQ hexpand henv name span _
            (lowerNodes_keeps hQ hexpand henv generics)
  | tuple elems span => exact hQ.tuple _ (lowerNodes_keeps hQ hexpand henv elems)
  | function params ret span =>
    exact hQ.func _ _ _ (lowerNodes_keeps hQ hexpand henv params)
      (lowerNode_keeps hQ hexpand henv ret)
  | externFunction params ret span =>
    exact hQ.func _ _ _ (lowerNodes_keeps hQ hexpand henv params)
      (lowerNode_keeps hQ hexpand henv ret)
  | union members span => exact hQ.union _ (lowerNodes_keeps hQ hexpand henv members)
  | pointer inner span => exact hQ.ptr _ (lowerNode_keeps hQ hexpand henv inner)
  | array elem len span => exact hQ.array _ _ (lowerNode_keeps hQ hexpand henv elem)
  | selfType span =>
    unfold lowerNode
    split
    · rename_i h
      exact henv.selfTy _ h
    · exact hQ.error
  | paren inner span => exact lowerNode_keeps hQ hexpand henv inner

theorem lowerNodes_keeps (hQ : FormsKeep cx Q) {expand : Expand} {env : TypeEnv}
    (hexpand : expand.Keeps Q) (henv : env.All Q) (nodes : List TypeNode) :
    ∀ t ∈ (lowerNodes P cx expand env nodes).1, Q t := by
  cases nodes with
  | nil => exact fun t ht => by cases ht
  | cons node nodes =>
    exact List.forall_mem_cons.mpr
      ⟨lowerNode_keeps hQ hexpand henv node, lowerNodes_keeps hQ hexpand henv nodes⟩

end

theorem aliasParams_keep (hQ : FormsKeep cx Q) {args : List Ty} (hargs : ∀ t ∈ args, Q t)
    (params : List DefId) : ∀ p ∈ aliasParams P params args, Q p.2 := by
  unfold aliasParams
  refine List.foldlRecOn (motive := fun names : Names Ty => ∀ p ∈ names, Q p.2) _ _
    (fun p hp => by cases hp) fun names h q _ p hp => ?_
  split at hp
  · rcases List.mem_cons.mp hp with rfl | hp
    · cases harg : args[q.2]? with
      | none => exact hQ.error
      | some t => exact hargs t (List.mem_of_getElem? harg)
    · exact h p hp
  · exact h p hp

theorem expandAlias_keeps (hQ : FormsKeep cx Q) (path : List DefId) :
    Expand.Keeps Q (expandAlias P cx path) := by
  induction h : unexpanded P path using Nat.strong_induction_on generalizing path with
  | _ n ih =>
    intro d args span selfTy hargs hself
    rw [expandAlias]
    split
    · exact hQ.never
    · rename_i hd
      split
      · exact hQ.error
      · rename_i data hdata
        split
        · dsimp only
          split
          · exact hQ.error
          · have hnext := ih _ (h ▸ unexpanded_lt P hd hdata) (d :: path) rfl
            exact lowerNode_keeps hQ hnext ⟨aliasParams_keep hQ hargs _, hself⟩ _
        · exact hQ.error

theorem lower_keeps (hQ : FormsKeep cx Q) {env : TypeEnv} (henv : env.All Q) (node : TypeNode) :
    Q (lower P cx env node).1 :=
  lowerNode_keeps hQ (expandAlias_keeps hQ []) henv node

end keeps

end compiler.sema
