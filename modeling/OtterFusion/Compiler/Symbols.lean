-- The table of definitions and the tree of modules (`symbols.rs`), as far as names of types and
-- `extend` blocks are resolved in them.
import OtterFusion.Base.Marking
import OtterFusion.Compiler.Token
import OtterFusion.Compiler.Types

namespace compiler.sema

open compiler.lexer (Span IntBase)

/-! ## Type expressions -/

/-- The length of an array type: the text of an integer literal, or another expression. -/
inductive ArrayLen
  | int (raw : String) (base : IntBase) (span : Span)
  | other (span : Span)
  deriving DecidableEq, Repr

/-- `Type` of the syntax tree. -/
inductive TypeNode
  | named (name : String) (generics : List TypeNode) (span : Span)
  | tuple (elems : List TypeNode) (span : Span)
  | function (params : List TypeNode) (ret : TypeNode) (span : Span)
  | externFunction (params : List TypeNode) (ret : TypeNode) (span : Span)
  | union (members : List TypeNode) (span : Span)
  | pointer (inner : TypeNode) (span : Span)
  | array (elem : TypeNode) (len : ArrayLen) (span : Span)
  | selfType (span : Span)
  | paren (inner : TypeNode) (span : Span)

/-! ## Definitions -/

/-- `DefKind`. -/
inductive DefKind
  | function | struct | interface | typeAlias | module | moduleVar | field | genericParam
  | interfaceMethod | extendMethod | extend | externFunction | externStruct | externType
  | externVar | test
  deriving DecidableEq, Repr

/-- `DefKind::describe`. -/
def DefKind.describe : DefKind → String
  | .function => "function"
  | .struct => "struct"
  | .interface => "interface"
  | .typeAlias => "type alias"
  | .module => "module"
  | .moduleVar => "variable"
  | .field => "field"
  | .genericParam => "generic parameter"
  | .interfaceMethod => "interface method"
  | .extendMethod => "method"
  | .extend => "extension"
  | .externFunction => "extern function"
  | .externStruct => "extern struct"
  | .externType => "extern type"
  | .externVar => "extern variable"
  | .test => "test"

/-- `ItemKind`: the syntax of a definition that the passes here read back. -/
inductive Item
  | typeAlias (aliased : TypeNode)
  | extend (target : TypeNode) (interfaces : List TypeNode)
  | interface (supers : List TypeNode)
  | other

/-- `Def`. -/
structure Def where
  kind : DefKind
  name : String
  module : ModId
  parent : Option DefId
  item : Option Item
  generics : List DefId
  paramBounds : List TypeNode

/-! ## Modules -/

/-- Names with what they stand for. A name that is put again stands for the new thing. -/
abbrev Names (α : Type) := List (String × α)

namespace Names

variable {α : Type}

def get (names : Names α) (name : String) : Option α := names.lookup name

def insert (names : Names α) (name : String) (a : α) : Names α := (name, a) :: names

end Names

/-- `ModuleInfo`. -/
structure ModuleInfo where
  types : Names DefId
  importedTypes : Names DefId
  extends_ : List DefId
  extensionImports : List ModId
  publicExtensionImports : List ModId

/-- `Program`. The ids of built-in definitions are 0 until these are found. -/
structure Program where
  defs : List Def
  modules : List ModuleInfo
  preludeTypes : Names DefId
  builtinModule : ModId
  builtinSourceModules : List ModId
  listDef : DefId := 0
  mapDef : DefId := 0
  cloneDef : DefId := 0
  eqDef : DefId := 0
  ordDef : DefId := 0
  toStrDef : DefId := 0
  hashDef : DefId := 0
  debugDef : DefId := 0

/-- `resolve_type_in`. -/
def Program.resolveTypeIn (P : Program) (module : ModId) (name : String) : Option DefId :=
  P.modules[module]?.bind fun m =>
    (m.types.get name).or ((m.importedTypes.get name).or (P.preludeTypes.get name))

/-! ### Visible extensions -/

/-- How many modules are not seen. -/
def Program.unseen (P : Program) (seen : List ModId) : Nat :=
  ((List.range P.modules.length).filter (· ∉ seen)).length

theorem Program.unseen_lt {P : Program} {seen : List ModId} {m : ModId} {info : ModuleInfo}
    (hm : m ∉ seen) (hinfo : P.modules[m]? = some info) : P.unseen (m :: seen) < P.unseen seen :=
  Unseen.unseen_lt (List.mem_range.mpr (List.getElem?_eq_some_iff.mp hinfo).1) hm

/-- `push_extension_module`, for modules that are visited one after another: a module that is
new is followed by those whose extensions it exports again. -/
def Program.pushExtensionModules (P : Program) (seen : List ModId) :
    List ModId → List DefId
  | [] => []
  | m :: rest =>
    if _hm : m ∈ seen then P.pushExtensionModules seen rest
    else match _hinfo : P.modules[m]? with
      | none => P.pushExtensionModules seen rest
      | some info =>
        info.extends_ ++ P.pushExtensionModules (m :: seen) (info.publicExtensionImports ++ rest)
termination_by modules => (P.unseen seen, modules.length)
decreasing_by
  · exact Prod.Lex.right _ (Nat.lt_succ_self _)
  · exact Prod.Lex.right _ (Nat.lt_succ_self _)
  · exact Prod.Lex.left _ _ (P.unseen_lt _hm _hinfo)

theorem Program.pushExtensionModules_new {P : Program} {seen rest : List ModId} {m : ModId}
    {info : ModuleInfo} (hm : m ∉ seen) (hinfo : P.modules[m]? = some info) :
    P.pushExtensionModules seen (m :: rest) = info.extends_ ++
      P.pushExtensionModules (m :: seen) (info.publicExtensionImports ++ rest) := by
  rw [Program.pushExtensionModules, dif_neg hm]
  split
  · rename_i hnone
    rw [hnone] at hinfo
    cases hinfo
  · rename_i info' hinfo'
    obtain rfl := Option.some.inj (hinfo'.symm.trans hinfo)
    rfl

/-- `visible_extends`. -/
def Program.visibleExtends (P : Program) (module : ModId) : List DefId :=
  let imports := match P.modules[module]? with
    | some info => info.extensionImports
    | none => []
  P.pushExtensionModules [] (module :: imports ++ P.builtinModule :: P.builtinSourceModules)

end compiler.sema
