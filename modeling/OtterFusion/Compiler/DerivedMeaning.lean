-- What the derived methods compute. The bodies are evaluated over fields of any types, of which
-- only their own `eq`, `lt` and `hash` are known: an operator on a field is its method of that
-- name.
import OtterFusion.Backend.IntArith
import OtterFusion.Base.Ordering
import OtterFusion.Compiler.Derive

open base.ordering

namespace compiler.sema.derive

open compiler.ast backend.intArith

/-! ## Values -/

/-- The types that a method call and an operator tell apart. The methods of a type parameter are
those of its bounds; `builtin` are lists, maps, handles, channels and `Shared`. -/
inductive FieldSort
  | number | bool | char | str | builtin | named | other
  | param (methods : List String)
  | object (methods : List String)
  deriving DecidableEq, Repr

/-- `is_hashable`. -/
def FieldSort.hashable (sort : FieldSort) : Bool := sort ∈ [.number, .bool, .char, .str]

/-- `is_ordered`. -/
def FieldSort.ordered (sort : FieldSort) : Bool := sort ∈ [.number, .char, .str]

/-- The types that are `TyKind::Named`. -/
def FieldSort.isNamed : FieldSort → Bool
  | .builtin | .named | .object _ => true
  | _ => false

/-- What the checker knows of the type of a field, with the methods that `extend` blocks give it. -/
structure FieldType where
  sort : FieldSort
  extended : List String
  deriving DecidableEq, Repr

/-- A method call on a value of the type finds a method, as in `check_method_call_with_generics`:
the tables of strings and of the builtin types have none of the names that are derived. -/
def FieldType.answers (type : FieldType) (name : String) : Bool :=
  if name = "hash" ∧ type.sort.hashable then true
  else
    match type.sort with
    | .str | .builtin => false
    | .param methods | .object methods => methods.contains name
    | _ => type.extended.contains name

/-- What the type of a field brings along: its comparison and its hash. -/
structure FieldOps (A : Type) extends Comparison A where
  hash : A → BitVec 64
  type : FieldType

/-- A value of a struct. The fields are counted as in the declaration. -/
abbrev Instance (Val : Nat → Type) := ∀ i, Val i

/-- The values that the bodies work on. -/
inductive Value (Val : Nat → Type)
  | bool (b : Bool)
  | word (w : BitVec 64)
  | field (i : Nat) (v : Val i)
  | inst (a : Instance Val)

/-- What a body is evaluated in. -/
structure Env (Val : Nat → Type) where
  self : Value Val
  other : Option (Value Val)

/-- A struct with its methods. -/
structure Methods (Val : Nat → Type) where
  kind : StructKind
  ops : ∀ i, FieldOps (Val i)
  release : Bool
  functions : List FunctionItem

/-- A result: none where the fuel runs out or a body has no meaning. -/
abbrev Result (A : Type) := Option (Code A)

/-- A result goes on, unless it is a trap. -/
def Result.andThen {A B : Type} : Result A → (A → Result B) → Result B
  | some (.ok a), f => f a
  | some (.error trap), _ => some (.error trap)
  | none, _ => none

/-- A value, without a trap. -/
def Result.value {A : Type} (a : A) : Result A := some (.ok a)

/-- The field that a name or an index stands for: of two fields of one name the first. -/
def StructKind.slot (kind : StructKind) (i : Nat) : Nat :=
  match kind with
  | .record fields => fields.idxOf (kind.fieldName i)
  | _ => i

/-- The method behind an operator, as `try_operator_overload` has them. -/
def overload : BinaryOp → Option String
  | .add => some "add"
  | .sub => some "sub"
  | .mul => some "mul"
  | .div => some "div"
  | .rem => some "mod"
  | .bitAnd => some "bitand"
  | .bitOr => some "bitor"
  | .bitXor => some "bitxor"
  | .shl => some "shl"
  | .shr => some "shr"
  | .eq | .ne => some "eq"
  | .lt => some "lt"
  | .le => some "le"
  | .gt => some "gt"
  | .ge => some "ge"
  | .and | .or => none

/-- A comparison by an operator has a meaning for the type, as in `check_binary`: by the method of
an `extend` block, or built in. -/
def FieldType.operates (type : FieldType) (op : BinaryOp) : Bool :=
  (overload op).any type.extended.contains ||
    !type.sort.isNamed && (op = .eq || op = .ne ||
      (op = .lt || op = .le || op = .gt || op = .ge) && type.sort.ordered)

/-- The operations of integers. -/
def integerOp : BinaryOp → Option IntBinop
  | .add => some (.addsubmul .add)
  | .sub => some (.addsubmul .sub)
  | .mul => some (.addsubmul .mul)
  | .div => some (.divrem .div)
  | .rem => some (.divrem .rem)
  | .bitAnd => some .bitAnd
  | .bitOr => some .bitOr
  | .bitXor => some .bitXor
  | .shl => some (.shift .shl)
  | .shr => some (.shift .shr)
  | _ => none

/-- A literal of the type `u64`. -/
def readU64 (raw : String) : Option (BitVec 64) :=
  let (digits, suffix) := raw.toList.span Char.isDigit
  if digits ≠ [] ∧ suffix = ['u', '6', '4'] then
    some (BitVec.ofNat 64 (digits.foldl (fun n c => 10 * n + (c.toNat - '0'.toNat)) 0))
  else none

namespace Methods

variable {Val : Nat → Type} (P : Methods Val)

/-- A field of a value by its name. -/
def fieldNamed (v : Value Val) (name : String) : Result (Value Val) :=
  match v, P.kind with
  | .inst a, .record fields =>
    if name ∈ fields then .value (.field (fields.idxOf name) (a (fields.idxOf name))) else none
  | _, _ => none

/-- A field of a value by its index. -/
def fieldIndexed (v : Value Val) (i : Nat) : Result (Value Val) :=
  match v, P.kind with
  | .inst a, .tuple fields => if i < fields then .value (.field i (a i)) else none
  | _, _ => none

/-- The comparison of two values of a field. -/
def compare (name : String) {i j : Nat} (v : Val i) (w : Val j) : Result (Value Val) :=
  if h : i = j then
    if name = "eq" then .value (.bool ((P.ops j).eq (h ▸ v) w))
    else if name = "lt" then .value (.bool ((P.ops j).lt (h ▸ v) w))
    else none
  else none

/-- The method that a call on the struct finds. -/
def method (name : String) : Option FunctionItem := P.functions.find? fun f => f.name = name

/-- A method call: of a field the methods that its type answers, of a struct those of the block. -/
def call (run : Env Val → Expr → Result (Value Val)) (v : Value Val) (name : String)
    (arg : Option (Value Val)) : Result (Value Val) :=
  match v, arg with
  | .field i v, some (.field _ w) =>
    if (P.ops i).type.answers name then P.compare name v w else none
  | .field i v, none =>
    if name = "hash" ∧ (P.ops i).type.answers name then .value (.word ((P.ops i).hash v)) else none
  | .inst a, arg =>
    match (P.method name).bind FunctionItem.body with
    | some (.mk [] (some body)) => run ⟨.inst a, arg⟩ body
    | _ => none
  | _, _ => none

/-- A binary operation on two values. -/
def operation (run : Env Val → Expr → Result (Value Val)) (op : BinaryOp) (v w : Value Val) :
    Result (Value Val) :=
  match v, w with
  | .word v, .word w =>
    (integerOp op).map fun op => (emitBinop P.release op false v w).map .word
  | .field i v, .field _ w =>
    if (P.ops i).type.operates op then (overload op).bind fun name => P.compare name v w else none
  | v, w => (overload op).bind fun name => P.call run v name (some w)

/-- The evaluation of a body. -/
def eval : Nat → Env Val → Expr → Result (Value Val)
  | 0, _, _ => none
  | n + 1, env, .mk kind _ =>
    match kind with
    | .lit (.bool b) => .value (.bool b)
    | .lit (.int raw) => (readU64 raw).bind fun w => Result.value (.word w)
    | .selfExpr => .value env.self
    | .ident name => if name = "other" then env.other.bind Result.value else none
    | .field receiver name => (eval n env receiver).andThen fun v => P.fieldNamed v name
    | .tupleIndex receiver i => (eval n env receiver).andThen fun v => P.fieldIndexed v i
    | .unary .not operand => (eval n env operand).andThen fun v =>
      match v with
      | .bool b => .value (.bool !b)
      | _ => none
    | .binary .and left right => (eval n env left).andThen fun v =>
      match v with
      | .bool true => eval n env right
      | .bool false => .value (.bool false)
      | _ => none
    | .binary .or left right => (eval n env left).andThen fun v =>
      match v with
      | .bool true => .value (.bool true)
      | .bool false => eval n env right
      | _ => none
    | .binary op left right => (eval n env left).andThen fun v =>
      (eval n env right).andThen fun w => P.operation (eval n) op v w
    | .call (.mk (.field receiver name) _) [] [] none =>
      (eval n env receiver).andThen fun v => P.call (eval n) v name none
    | .call (.mk (.field receiver name) _) [] [arg] none =>
      (eval n env receiver).andThen fun v =>
        (eval n env arg).andThen fun w => P.call (eval n) v name (some w)
    | _ => none

end Methods

/-! ## More fuel -/

/-- What the one results in, the other does. -/
def Result.Le {A : Type} (x y : Result A) : Prop := ∀ r, x = some r → y = some r

theorem Result.Le.refl {A : Type} (x : Result A) : x.Le x := fun _ => id

theorem Result.Le.andThen {A B : Type} {x y : Result A} {f g : A → Result B} (h : x.Le y)
    (hfg : ∀ a, (f a).Le (g a)) : (x.andThen f).Le (y.andThen g) := by
  intro r hr
  match x, h, hr with
  | some (.ok a), h, hr =>
    rw [h _ rfl]
    exact hfg a r hr
  | some (.error trap), h, hr =>
    rw [h _ rfl]
    exact hr
  | none, _, hr => cases hr

namespace Methods

variable {Val : Nat → Type} (P : Methods Val)

theorem call_le {run run' : Env Val → Expr → Result (Value Val)}
    (h : ∀ env e, (run env e).Le (run' env e)) (v : Value Val) (name : String)
    (arg : Option (Value Val)) : (P.call run v name arg).Le (P.call run' v name arg) := by
  unfold call
  split
  · exact .refl _
  · exact .refl _
  · split
    · exact h _ _
    · exact .refl _
  · exact .refl _

theorem operation_le {run run' : Env Val → Expr → Result (Value Val)}
    (h : ∀ env e, (run env e).Le (run' env e)) (op : BinaryOp) (v w : Value Val) :
    (P.operation run op v w).Le (P.operation run' op v w) := by
  unfold operation
  split
  · exact .refl _
  · exact .refl _
  · cases overload op with
    | none => exact .refl _
    | some name => exact P.call_le h _ name _

/-- More fuel gives no other result. -/
theorem eval_le_succ (n : Nat) (env : Env Val) (e : Expr) :
    (P.eval n env e).Le (P.eval (n + 1) env e) := by
  induction n generalizing env e with
  | zero => exact fun r hr => nomatch hr
  | succ n ih =>
    obtain ⟨kind, span⟩ := e
    unfold eval
    split
    · exact .refl _
    · exact .refl _
    · exact .refl _
    · exact .refl _
    · exact (ih env _).andThen fun v => .refl _
    · exact (ih env _).andThen fun v => .refl _
    · exact (ih env _).andThen fun v => .refl _
    · refine (ih env _).andThen fun v => ?_
      split
      · exact ih env _
      · exact .refl _
      · exact .refl _
    · refine (ih env _).andThen fun v => ?_
      split
      · exact .refl _
      · exact ih env _
      · exact .refl _
    · exact (ih env _).andThen fun v => (ih env _).andThen fun w => P.operation_le ih _ v w
    · exact (ih env _).andThen fun v => P.call_le ih v _ _
    · exact (ih env _).andThen fun v => (ih env _).andThen fun w => P.call_le ih v _ _
    · exact .refl _

theorem eval_mono {n m : Nat} (h : n ≤ m) (env : Env Val) (e : Expr) :
    (P.eval n env e).Le (P.eval m env e) := by
  induction h with
  | refl => exact .refl _
  | step _ ih => exact fun r hr => P.eval_le_succ _ env e r (ih r hr)

/-! ## Meanings -/

/-- An expression has a value: some fuel is enough, and there is no trap. -/
def Means (env : Env Val) (e : Expr) (v : Value Val) : Prop :=
  ∃ n, P.eval n env e = Result.value v

variable {P} {env : Env Val} {e left right receiver arg : Expr} {span span' : Span} {n : Nat}

@[simp] theorem eval_int {raw : String} : P.eval (n + 1) env (.mk (.lit (.int raw)) span) =
    (readU64 raw).bind fun w => Result.value (.word w) := rfl

@[simp] theorem eval_other :
    P.eval (n + 1) env (.mk (.ident "other") span) = env.other.bind Result.value := rfl

@[simp] theorem eval_field {name : String} :
    P.eval (n + 1) env (.mk (.field receiver name) span) =
      (P.eval n env receiver).andThen fun v => P.fieldNamed v name := rfl

@[simp] theorem eval_index {i : Nat} :
    P.eval (n + 1) env (.mk (.tupleIndex receiver i) span) =
      (P.eval n env receiver).andThen fun v => P.fieldIndexed v i := rfl

@[simp] theorem eval_not : P.eval (n + 1) env (.mk (.unary .not e) span) =
    (P.eval n env e).andThen fun v =>
      match v with
      | .bool b => .value (.bool !b)
      | _ => none := rfl

@[simp] theorem eval_and : P.eval (n + 1) env (.mk (.binary .and left right) span) =
    (P.eval n env left).andThen fun v =>
      match v with
      | .bool true => P.eval n env right
      | .bool false => .value (.bool false)
      | _ => none := rfl

@[simp] theorem eval_or : P.eval (n + 1) env (.mk (.binary .or left right) span) =
    (P.eval n env left).andThen fun v =>
      match v with
      | .bool true => .value (.bool true)
      | .bool false => P.eval n env right
      | _ => none := rfl

theorem eval_operator {op : BinaryOp} (hand : op ≠ .and) (hor : op ≠ .or) :
    P.eval (n + 1) env (.mk (.binary op left right) span) =
      (P.eval n env left).andThen fun v =>
        (P.eval n env right).andThen fun w => P.operation (P.eval n) op v w := by
  cases op with
  | and => exact absurd rfl hand
  | or => exact absurd rfl hor
  | _ => rfl

@[simp] theorem eval_method {name : String} :
    P.eval (n + 1) env (.mk (.call (.mk (.field receiver name) span') [] [] none) span) =
      (P.eval n env receiver).andThen fun v => P.call (P.eval n) v name none := rfl

@[simp] theorem eval_methodWith {name : String} :
    P.eval (n + 1) env (.mk (.call (.mk (.field receiver name) span') [] [arg] none) span) =
      (P.eval n env receiver).andThen fun v =>
        (P.eval n env arg).andThen fun w => P.call (P.eval n) v name (some w) := rfl

/-- Two expressions have their values with one fuel. -/
theorem Means.both {env' : Env Val} {e' : Expr} {v w : Value Val} (h : P.Means env e v)
    (h' : P.Means env' e' w) :
    ∃ n, P.eval n env e = Result.value v ∧ P.eval n env' e' = Result.value w := by
  obtain ⟨n, hn⟩ := h
  obtain ⟨m, hm⟩ := h'
  exact ⟨max n m, P.eval_mono (Nat.le_max_left n m) env e _ hn,
    P.eval_mono (Nat.le_max_right n m) env' e' _ hm⟩

theorem means_bool (b : Bool) : P.Means env (.mk (.lit (.bool b)) span) (.bool b) := ⟨1, rfl⟩

theorem means_u64 {raw : String} {w : BitVec 64} (h : readU64 raw = some w) :
    P.Means env (.mk (.lit (.int raw)) span) (.word w) := by
  refine ⟨1, ?_⟩
  rw [eval_int, h]
  rfl

theorem means_self : P.Means env (.mk .selfExpr span) env.self := ⟨1, rfl⟩

theorem means_other {v : Value Val} (h : env.other = some v) :
    P.Means env (.mk (.ident "other") span) v := by
  refine ⟨1, ?_⟩
  rw [eval_other, h]
  rfl

theorem means_field {fields : List String} {name : String} {a : Instance Val}
    (hkind : P.kind = .record fields) (hname : name ∈ fields)
    (h : P.Means env receiver (.inst a)) :
    P.Means env (.mk (.field receiver name) span)
      (.field (fields.idxOf name) (a (fields.idxOf name))) := by
  obtain ⟨n, hn⟩ := h
  refine ⟨n + 1, ?_⟩
  rw [eval_field, hn]
  dsimp only [Result.value, Result.andThen, fieldNamed]
  rw [hkind]
  exact if_pos hname

theorem means_index {fields i : Nat} {a : Instance Val} (hkind : P.kind = .tuple fields)
    (hi : i < fields) (h : P.Means env receiver (.inst a)) :
    P.Means env (.mk (.tupleIndex receiver i) span) (.field i (a i)) := by
  obtain ⟨n, hn⟩ := h
  refine ⟨n + 1, ?_⟩
  rw [eval_index, hn]
  dsimp only [Result.value, Result.andThen, fieldIndexed]
  rw [hkind]
  exact if_pos hi

theorem means_not {b : Bool} (h : P.Means env e (.bool b)) :
    P.Means env (.mk (.unary .not e) span) (.bool !b) := by
  obtain ⟨n, hn⟩ := h
  refine ⟨n + 1, ?_⟩
  rw [eval_not, hn]
  rfl

theorem means_and {b c : Bool} (h : P.Means env left (.bool b)) (h' : P.Means env right (.bool c)) :
    P.Means env (.mk (.binary .and left right) span) (.bool (b && c)) := by
  obtain ⟨n, hn, hn'⟩ := h.both h'
  refine ⟨n + 1, ?_⟩
  rw [eval_and, hn, hn']
  cases b <;> rfl

theorem means_or {b c : Bool} (h : P.Means env left (.bool b)) (h' : P.Means env right (.bool c)) :
    P.Means env (.mk (.binary .or left right) span) (.bool (b || c)) := by
  obtain ⟨n, hn, hn'⟩ := h.both h'
  refine ⟨n + 1, ?_⟩
  rw [eval_or, hn, hn']
  cases b <;> rfl

/-- The exclusive or of two words never traps. -/
theorem means_xor {v w : BitVec 64} (h : P.Means env left (.word v))
    (h' : P.Means env right (.word w)) :
    P.Means env (.mk (.binary .bitXor left right) span) (.word (v ^^^ w)) := by
  obtain ⟨n, hn, hn'⟩ := h.both h'
  refine ⟨n + 1, ?_⟩
  rw [eval_operator (by decide) (by decide), hn, hn']
  rfl

/-- The tests of fields. -/
inductive Test
  | eq | lt

/-- The operator of a test. -/
def Test.op : Test → BinaryOp
  | .eq => .eq
  | .lt => .lt

/-- The method of a test. -/
def Test.method : Test → String
  | .eq => "eq"
  | .lt => "lt"

/-- The test in a comparison. -/
def Test.of {A : Type} (t : Test) (c : Comparison A) : A → A → Bool :=
  match t with
  | .eq => c.eq
  | .lt => c.lt

/-- The test of a field by the operator or by the method has a meaning for its type. -/
def Test.applies (t : Test) (generic : Bool) (type : FieldType) : Bool :=
  if generic then type.answers t.method else type.operates t.op

theorem compare_eq (t : Test) {i : Nat} (v w : Val i) : P.compare t.method v w =
    Result.value (.bool (t.of (P.ops i).toComparison v w)) := by
  unfold compare
  rw [dif_pos rfl]
  cases t with
  | eq => exact if_pos rfl
  | lt => exact (if_neg (by decide)).trans (if_pos rfl)

theorem overload_op (t : Test) : overload t.op = some t.method := by
  cases t with
  | eq => rfl
  | lt => rfl

theorem means_operator (t : Test) {i : Nat} {v w : Val i} (h : P.Means env left (.field i v))
    (h' : P.Means env right (.field i w)) (happlies : (P.ops i).type.operates t.op = true) :
    P.Means env (.mk (.binary t.op left right) span)
      (.bool (t.of (P.ops i).toComparison v w)) := by
  obtain ⟨n, hn, hn'⟩ := h.both h'
  refine ⟨n + 1, ?_⟩
  have hop : P.operation (P.eval n) t.op (.field i v) (.field i w) =
      Result.value (.bool (t.of (P.ops i).toComparison v w)) := by
    unfold operation
    dsimp only
    rw [if_pos happlies, overload_op, Option.bind_some, compare_eq]
  rw [eval_operator (by cases t <;> decide) (by cases t <;> decide), hn, hn']
  exact hop

theorem means_method (t : Test) {i : Nat} {v w : Val i} (h : P.Means env left (.field i v))
    (h' : P.Means env right (.field i w)) (happlies : (P.ops i).type.answers t.method = true) :
    P.Means env (.mk (.call (.mk (.field left t.method) span') [] [right] none) span)
      (.bool (t.of (P.ops i).toComparison v w)) := by
  obtain ⟨n, hn, hn'⟩ := h.both h'
  refine ⟨n + 1, ?_⟩
  rw [eval_methodWith, hn, hn']
  dsimp only [Result.value, Result.andThen, call]
  rw [if_pos happlies]
  exact compare_eq t v w

theorem means_hash {i : Nat} {v : Val i} (h : P.Means env receiver (.field i v))
    (happlies : (P.ops i).type.answers "hash" = true) :
    P.Means env (.mk (.call (.mk (.field receiver "hash") span') [] [] none) span)
      (.word ((P.ops i).hash v)) := by
  obtain ⟨n, hn⟩ := h
  refine ⟨n + 1, ?_⟩
  rw [eval_method, hn]
  dsimp only [Result.value, Result.andThen, call]
  exact if_pos ⟨rfl, happlies⟩

/-- A call of a method on the struct itself. -/
theorem means_call {name : String} {a b : Instance Val} {f : FunctionItem} {v : Value Val}
    (hf : P.method name = some f) (hbody : f.body = some (.mk [] (some e)))
    (he : P.Means ⟨.inst a, some (.inst b)⟩ e v) (h : P.Means env receiver (.inst a))
    (h' : P.Means env arg (.inst b)) :
    P.Means env (.mk (.call (.mk (.field receiver name) span') [] [arg] none) span) v := by
  obtain ⟨n, hn, hn'⟩ := h.both h'
  obtain ⟨m, hm⟩ := he
  have hle := P.eval_mono (Nat.le_max_left n m)
  refine ⟨max n m + 1, ?_⟩
  rw [eval_methodWith, hle env receiver _ hn, hle env arg _ hn']
  have hrun := P.eval_mono (Nat.le_max_right n m) ⟨.inst a, some (.inst b)⟩ e _ hm
  dsimp only [Result.value, Result.andThen, call]
  rw [hf, Option.bind_some, hbody]
  exact hrun

end Methods

end compiler.sema.derive
