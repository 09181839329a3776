-- The copies of the default methods of an interface in the blocks that implement it
-- (`defaults.rs`). The new spans of a copy are left out, and the index of the interfaces of the
-- other modules is the function that looks a name up in it.
import OtterFusion.Compiler.Syntax

namespace compiler.defaults

open compiler.syntax

/-! ## The substitution of the parameters of an interface -/

section Subst

variable (subst : List (String × Ty)) (shadow : List String)

mutual

/-- `subst_type`: a name without arguments that is a parameter, and is not shadowed, becomes the
argument. -/
def substType : Ty → Ty
  | .named name generics =>
    if generics.isEmpty && !shadow.contains name then
      match subst.lookup name with
      | some t => t
      | none => .named name generics
    else .named name (substTypes generics)
  | .tuple ts => .tuple (substTypes ts)
  | .union ts => .union (substTypes ts)
  | .function ps t => .function (substTypes ps) (substType t)
  | .externFunction ps t => .externFunction (substTypes ps) (substType t)
  | .pointer t => .pointer (substType t)
  | .paren t => .paren (substType t)
  | .array t len => .array (substType t) (substExpr len)
  | .selfType => .selfType

def substTypes : List Ty → List Ty
  | [] => []
  | t :: ts => substType t :: substTypes ts

def substOptType : Option Ty → Option Ty
  | none => none
  | some t => some (substType t)

/-- `subst_block`. -/
def substBlock : Block → Block
  | .mk stmts e => .mk (substStmts stmts) (substOpt e)

def substOptBlock : Option Block → Option Block
  | none => none
  | some b => some (substBlock b)

/-- `subst_stmt`, on all statements: an item stays as it is. -/
def substStmts : List Stmt → List Stmt
  | [] => []
  | .var p t e :: stmts => .var (substPattern p) (substOptType t) (substExpr e) :: substStmts stmts
  | .assign l r :: stmts => .assign (substExpr l) (substExpr r) :: substStmts stmts
  | .expr e :: stmts => .expr (substExpr e) :: substStmts stmts
  | .item it :: stmts => .item it :: substStmts stmts

/-- `subst_pattern`; of a path only the arguments (`subst_type_path`). -/
def substPattern : Pattern → Pattern
  | .typeBinding t name => .typeBinding (substType t) name
  | .unitPath path generics => .unitPath path (substTypes generics)
  | .tupleStruct path generics ps rest =>
    .tupleStruct path (substTypes generics) (substPatterns ps) rest
  | .recordStruct path generics fields hasRest =>
    .recordStruct path (substTypes generics) (substFieldPatterns fields) hasRest
  | .tuple ps rest => .tuple (substPatterns ps) rest
  | .list ps rest => .list (substPatterns ps) rest
  | .or ps => .or (substPatterns ps)
  | .literal e => .literal (substExpr e)
  | .wildcard => .wildcard
  | .binding name => .binding name

def substPatterns : List Pattern → List Pattern
  | [] => []
  | p :: ps => substPattern p :: substPatterns ps

def substFieldPatterns : List FieldPattern → List FieldPattern
  | [] => []
  | .shorthand name :: fields => .shorthand name :: substFieldPatterns fields
  | .full name p :: fields => .full name (substPattern p) :: substFieldPatterns fields

/-- `subst_expr`. -/
def substExpr : Expr → Expr
  | .lit l => .lit l
  | .selfExpr => .selfExpr
  | .underscore => .underscore
  | .continueExpr => .continueExpr
  | .ident name => .ident name
  | .str parts => .str (substParts parts)
  | .tuple es => .tuple (substExprs es)
  | .list es => .list (substExprs es)
  | .paren e => .paren (substExpr e)
  | .mapLit items => .mapLit (substMapItems items)
  | .structLit path generics fields spread =>
    .structLit path (substTypes generics) (substFields fields) (substOpt spread)
  | .unary op e => .unary op (substExpr e)
  | .binary op l r => .binary op (substExpr l) (substExpr r)
  | .cast op e t => .cast op (substExpr e) (substType t)
  | .field e name => .field (substExpr e) name
  | .tupleIndex e n => .tupleIndex (substExpr e) n
  | .call callee generics args closure =>
    .call (substExpr callee) (substTypes generics) (substExprs args) (substOpt closure)
  | .index e i => .index (substExpr e) (substExpr i)
  | .tryExpr e => .tryExpr (substExpr e)
  | .ref e => .ref (substExpr e)
  | .deref e => .deref (substExpr e)
  | .await e => .await (substExpr e)
  | .spawn e => .spawn (substExpr e)
  | .ifExpr c t e => .ifExpr (substExpr c) (substBlock t) (substOpt e)
  | .matchExpr s arms => .matchExpr (substExpr s) (substArms arms)
  | .block b => .block (substBlock b)
  | .loop b => .loop (substBlock b)
  | .whileLoop c b => .whileLoop (substExpr c) (substBlock b)
  | .forLoop p inAsync i b => .forLoop (substPattern p) inAsync (substExpr i) (substBlock b)
  | .returnExpr v => .returnExpr (substOpt v)
  | .breakExpr v => .breakExpr (substOpt v)
  | .closure ps t isAsync body =>
    .closure (substParams ps) (substOptType t) isAsync (substExpr body)
  | .anonFn f => .anonFn (substFunctionTypes f)
  | .asyncBlock b => .asyncBlock (substBlock b)
  | .macroCall name span args b => .macroCall name span (substArgs args) (substOptBlock b)

def substExprs : List Expr → List Expr
  | [] => []
  | e :: es => substExpr e :: substExprs es

def substOpt : Option Expr → Option Expr
  | none => none
  | some e => some (substExpr e)

def substParts : List StringPart → List StringPart
  | [] => []
  | .text text :: parts => .text text :: substParts parts
  | .ident name :: parts => .ident name :: substParts parts
  | .expr e :: parts => .expr (substExpr e) :: substParts parts

def substMapItems : List MapItem → List MapItem
  | [] => []
  | .entry k v :: items => .entry (substExpr k) (substExpr v) :: substMapItems items
  | .spread e :: items => .spread (substExpr e) :: substMapItems items

def substFields : List FieldInit → List FieldInit
  | [] => []
  | .mk name v :: fields => .mk name (substOpt v) :: substFields fields

def substArgs : List AttrArg → List AttrArg
  | [] => []
  | .positional e :: args => .positional (substExpr e) :: substArgs args
  | .named name e :: args => .named name (substExpr e) :: substArgs args

def substArms : List MatchArm → List MatchArm
  | [] => []
  | .mk p g e :: arms => .mk (substPattern p) (substOpt g) (substExpr e) :: substArms arms

def substParams : List Param → List Param
  | [] => []
  | .selfParam :: ps => .selfParam :: substParams ps
  | .untyped name :: ps => .untyped name :: substParams ps
  | .normal name t :: ps => .normal name (substType t) :: substParams ps

/-- `subst_function_types`: the parameters, the result and the body, and not the generics. -/
def substFunctionTypes : FunctionItem → FunctionItem
  | .mk name generics ps t isAsync body =>
    .mk name generics (substParams ps) (substOptType t) isAsync (substOptBlock body)

end

end Subst

/-! ## The copies -/

def genericName : GenericParam → String
  | .mk name _ _ => name

/-- `InterfaceItem`. -/
structure Interface where
  name : String
  generics : List GenericParam
  members : List Member

/-- `iface_param_subst`: the later of two parameters of one name comes first. -/
def ifaceParamSubst (iface : Interface) (args : List Ty) : List (String × Ty) :=
  ((iface.generics.map genericName).zip args).reverse

/-- The method of `synth_member`. -/
def synthFunction (subst : List (String × Ty)) : FunctionItem → FunctionItem
  | .mk name generics ps t isAsync body =>
    if subst.isEmpty then .mk name generics ps t isAsync body
    else substFunctionTypes subst (generics.map genericName) (.mk name generics ps t isAsync body)

/-- `synth_member`. -/
def synthMember (subst : List (String × Ty)) : Member → Member
  | .mk _ _ f => .mk [] false (synthFunction subst f)

def memberName : Member → String
  | .mk _ _ (.mk name _ _ _ _ _) => name

/-- Whether a member has a default body. -/
def hasDefault : Member → Bool
  | .mk _ _ (.mk _ _ _ _ _ body) => body.isSome

/-- The members of an interface that are copied into a block that has the methods `taken`. -/
def defaultsOf : List Member → List String → List Member
  | [], _ => []
  | m :: members, taken =>
    if hasDefault m && !taken.contains (memberName m) then
      m :: defaultsOf members (memberName m :: taken)
    else defaultsOf members taken

/-- A default method for a block: the interface, the arguments that the block gives to it, and the
member. -/
structure Copy where
  iface : Interface
  args : List Ty
  member : Member

/-- The member that is put into the block. -/
def Copy.synth (c : Copy) : Member := synthMember (ifaceParamSubst c.iface c.args) c.member

/-- The copies for a block that implements the interfaces and has the methods `taken`. -/
def copiesOf (find : String → Option Interface) : List Ty → List String → List Copy
  | [], _ => []
  | .named name args :: interfaces, taken =>
    match find name with
    | some iface =>
      let members := defaultsOf iface.members taken
      members.map (⟨iface, args, ·⟩) ++
        copiesOf find interfaces (members.map memberName ++ taken)
    | none => copiesOf find interfaces taken
  | _ :: interfaces, taken => copiesOf find interfaces taken

/-- The interfaces that a module declares, the last one first. -/
def interfacesOf : List Item → List Interface
  | [] => []
  | .mk _ _ (.interface name generics _ members) :: items =>
    interfacesOf items ++ [⟨name, generics, members⟩]
  | _ :: items => interfacesOf items

/-- The interface behind a name: one of the module itself before one of another. -/
def findInterface (foreign : String → Option Interface) (items : List Item) (name : String) :
    Option Interface :=
  ((interfacesOf items).find? fun iface => iface.name = name).or (foreign name)

section Expand

variable (foreign : String → Option Interface)

mutual

/-- `expand_default_methods` on the items of a module whose interfaces are found with `find`. -/
def expandWith (find : String → Option Interface) : List Item → List Item
  | [] => []
  | .mk attrs isPublic kind :: items =>
    .mk attrs isPublic (expandKind find kind) :: expandWith find items

def expandKind (find : String → Option Interface) : ItemKind → ItemKind
  | .extend generics target interfaces members =>
    .extend generics target interfaces
      (members ++ (copiesOf find interfaces (members.map memberName)).map Copy.synth)
  | .inlineModule name items =>
    .inlineModule name (expandWith (findInterface foreign items) items)
  | kind => kind

end

/-- `expand_default_methods`. -/
def expandDefaultMethods (items : List Item) : List Item :=
  expandWith foreign (findInterface foreign items) items

/-! ## What an expansion adds -/

mutual

/-- The members of the blocks in a module. -/
def blockMembers : List Item → List Member
  | [] => []
  | .mk _ _ kind :: items => kindMembers kind ++ blockMembers items

def kindMembers : ItemKind → List Member
  | .extend _ _ _ members => members
  | .inlineModule _ items => blockMembers items
  | _ => []

end

mutual

/-- The copies for the blocks in a module. -/
def blockCopies (find : String → Option Interface) : List Item → List Copy
  | [] => []
  | .mk _ _ kind :: items => kindCopies find kind ++ blockCopies find items

def kindCopies (find : String → Option Interface) : ItemKind → List Copy
  | .extend _ _ interfaces members => copiesOf find interfaces (members.map memberName)
  | .inlineModule _ items => blockCopies (findInterface foreign items) items
  | _ => []

end

mutual

theorem expandWith_members (find : String → Option Interface) : ∀ items : List Item,
    (blockMembers (expandWith foreign find items)).Perm
      (blockMembers items ++ (blockCopies foreign find items).map Copy.synth)
  | [] => .nil
  | .mk _ _ kind :: items => by
    have hmembers := (expandKind_members find kind).append (expandWith_members find items)
    simp only [expandWith, blockMembers, blockCopies, List.map_append]
    refine hmembers.trans ?_
    rw [List.append_assoc, List.append_assoc]
    exact (List.perm_append_comm_assoc _ _ _).append_left _

theorem expandKind_members (find : String → Option Interface) : ∀ kind : ItemKind,
    (kindMembers (expandKind foreign find kind)).Perm
      (kindMembers kind ++ (kindCopies foreign find kind).map Copy.synth)
  | .extend _ _ _ _ => by rw [expandKind, kindMembers, kindMembers, kindCopies]
  | .inlineModule _ items => by
    rw [expandKind, kindMembers, kindMembers, kindCopies]
    exact expandWith_members (findInterface foreign items) items
  | .var _ _ _ | .function _ | .externFunction _ | .struct _ _ _ _ _ | .interface _ _ _ _
  | .typeAlias _ _ _ | .externVar _ _ | .test _ _ _ | .externalModule _ | .externType _
  | .importItem _ _ => by simp [expandKind, kindMembers, kindCopies]

end

/-- The blocks of a module keep their members and get the copies for them, and nothing else. -/
theorem expandDefaultMethods_members (items : List Item) :
    (blockMembers (expandDefaultMethods foreign items)).Perm (blockMembers items ++
      (blockCopies foreign (findInterface foreign items) items).map Copy.synth) :=
  expandWith_members foreign _ items

end Expand

end compiler.defaults
