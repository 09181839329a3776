-- What the checker makes of the derived bodies: an expression has a kind, or the block is rejected.
-- An expression that the derive pass builds has its kind under a condition, and then it has its
-- value.
import OtterFusion.Compiler.DerivedMeaning

open base.ordering

namespace compiler.sema.derive

open compiler.ast

/-! ## Kinds -/

/-- The types that the bodies are about. -/
inductive Kind
  | bool | word | inst
  | field (i : Nat)
  deriving DecidableEq, Repr

/-- The kind that a return type names. -/
def Kind.named : String → Option Kind
  | "bool" => some .bool
  | "u64" => some .word
  | _ => none

namespace Methods

variable {Val : Nat → Type} (P : Methods Val)

/-- What a method of the block returns. -/
def returns (name : String) : Option Kind :=
  ((P.method name).bind FunctionItem.returnType).bind Kind.named

/-- The kind of a field by its name. -/
def kindNamed (name : String) : Option Kind :=
  match P.kind with
  | .record fields => if name ∈ fields then some (.field (fields.idxOf name)) else none
  | _ => none

/-- The kind of a field by its index. -/
def kindIndexed (i : Nat) : Option Kind :=
  match P.kind with
  | .tuple fields => if i < fields then some (.field i) else none
  | _ => none

/-- The kind of a method call, without an argument or with one. -/
def callKind (k : Kind) (name : String) (arg : Option Kind) : Option Kind :=
  match k, arg with
  | .field i, some (.field j) =>
    if i = j ∧ (P.ops i).type.answers name ∧ (name = "eq" ∨ name = "lt") then some .bool else none
  | .field i, none => if name = "hash" ∧ (P.ops i).type.answers name then some .word else none
  | .inst, none | .inst, some .inst => P.returns name
  | _, _ => none

/-- The kind of an operation. -/
def operationKind (op : BinaryOp) (k l : Kind) : Option Kind :=
  match k, l with
  | .word, .word => (integerOp op).map fun _ => .word
  | .field i, .field j =>
    if i = j ∧ (P.ops i).type.operates op ∧ (op = .eq ∨ op = .lt) then some .bool else none
  | .inst, .inst => (overload op).bind P.returns
  | _, _ => none

/-- A condition that has to be one. -/
def isBool : Option Kind → Option Kind → Option Kind
  | some .bool, some .bool => some .bool
  | _, _ => none

/-- The kind of an expression, in a method that has `other` or in one that has not. -/
@[simp] def check (other : Bool) : Expr → Option Kind
  | .mk (.lit (.bool _)) _ => some .bool
  | .mk (.lit (.int raw)) _ => (readU64 raw).map fun _ => .word
  | .mk .selfExpr _ => some .inst
  | .mk (.ident name) _ => if other ∧ name = "other" then some .inst else none
  | .mk (.field receiver name) _ => if check other receiver = some .inst then P.kindNamed name
      else none
  | .mk (.tupleIndex receiver i) _ =>
    if check other receiver = some .inst then P.kindIndexed i else none
  | .mk (.unary .not operand) _ => isBool (check other operand) (some .bool)
  | .mk (.binary .and left right) _ => isBool (check other left) (check other right)
  | .mk (.binary .or left right) _ => isBool (check other left) (check other right)
  | .mk (.binary op left right) _ =>
    (check other left).bind fun k => (check other right).bind fun l => P.operationKind op k l
  | .mk (.call (.mk (.field receiver name) _) [] [] none) _ =>
    (check other receiver).bind fun k => P.callKind k name none
  | .mk (.call (.mk (.field receiver name) _) [] [arg] none) _ =>
    (check other receiver).bind fun k =>
      (check other arg).bind fun l => P.callKind k name (some l)
  | _ => none

/-- What a method is called on: a struct, and another one where the method has `other`. -/
def callEnv (other : Bool) (a b : Instance Val) : Env Val :=
  ⟨.inst a, if other then some (.inst b) else none⟩

/-- An expression has a kind under a condition and is rejected without it. Under the condition it
has these values. -/
structure Typed (other : Bool) (e : Expr) (k : Kind) (c : Prop)
    (v : Instance Val → Instance Val → Value Val) : Prop where
  check (l : Kind) : P.check other e = some l ↔ c ∧ k = l
  means : c → ∀ a b, P.Means (callEnv other a b) e (v a b)

variable {P} {other : Bool} {e left right receiver arg : Expr} {span span' : Span} {k : Kind}
  {c d : Prop} {v : Instance Val → Instance Val → Value Val}
  {a b : Instance Val → Instance Val → Instance Val} {p q : Instance Val → Instance Val → Bool}

theorem isBool_iff {x y : Option Kind} {k : Kind} :
    isBool x y = some k ↔ x = some .bool ∧ y = some .bool ∧ .bool = k := by
  unfold isBool
  split
  · simp
  · rename_i hno
    simp only [reduceCtorEq, false_iff]
    exact fun h => hno h.1 h.2.1

/-- What is needed without a condition has its kind. -/
theorem Typed.kind (h : P.Typed other e k True v) : P.check other e = some k :=
  (h.check _).mpr ⟨trivial, rfl⟩

theorem Typed.congr (h : P.Typed other e k c v) (hc : c ↔ d) : P.Typed other e k d v where
  check k := by rw [h.check k, hc]
  means hd := h.means (hc.mpr hd)

theorem typed_bool (b : Bool) :
    P.Typed other (.mk (.lit (.bool b)) span) .bool True fun _ _ => .bool b where
  check k := by simp
  means _ _ _ := means_bool b

theorem typed_u64 {raw : String} {w : BitVec 64} (h : readU64 raw = some w) :
    P.Typed other (.mk (.lit (.int raw)) span) .word True fun _ _ => .word w where
  check k := by simp [h]
  means _ _ _ := means_u64 h

theorem typed_self : P.Typed other (.mk .selfExpr span) .inst True fun a _ => .inst a where
  check k := by simp
  means _ _ _ := means_self

theorem typed_other : P.Typed true (.mk (.ident "other") span) .inst True fun _ b => .inst b where
  check k := by simp
  means _ _ _ := means_other rfl

theorem typed_field {fields : List String} {name : String} (hkind : P.kind = .record fields)
    (hname : name ∈ fields) (h : P.Typed other receiver .inst True fun x y => .inst (a x y)) :
    P.Typed other (.mk (.field receiver name) span) (.field (fields.idxOf name)) True
      fun x y => .field _ (a x y (fields.idxOf name)) where
  check k := by simp [h.kind, kindNamed, hkind, hname]
  means _ x y := means_field hkind hname (h.means trivial x y)

theorem typed_index {fields i : Nat} (hkind : P.kind = .tuple fields) (hi : i < fields)
    (h : P.Typed other receiver .inst True fun x y => .inst (a x y)) :
    P.Typed other (.mk (.tupleIndex receiver i) span) (.field i) True
      fun x y => .field i (a x y i) where
  check k := by simp [h.kind, kindIndexed, hkind, hi]
  means _ x y := means_index hkind hi (h.means trivial x y)

theorem typed_not (h : P.Typed other e .bool c fun x y => .bool (p x y)) :
    P.Typed other (.mk (.unary .not e) span) .bool c fun x y => .bool !p x y where
  check k := by simp [isBool_iff, h.check]
  means hc x y := means_not (h.means hc x y)

theorem typed_and (h : P.Typed other left .bool c fun x y => .bool (p x y))
    (h' : P.Typed other right .bool d fun x y => .bool (q x y)) :
    P.Typed other (.mk (.binary .and left right) span) .bool (c ∧ d)
      fun x y => .bool (p x y && q x y) where
  check k := by simp [isBool_iff, h.check, h'.check, and_assoc]
  means hcd x y := means_and (h.means hcd.1 x y) (h'.means hcd.2 x y)

theorem typed_or (h : P.Typed other left .bool c fun x y => .bool (p x y))
    (h' : P.Typed other right .bool d fun x y => .bool (q x y)) :
    P.Typed other (.mk (.binary .or left right) span) .bool (c ∧ d)
      fun x y => .bool (p x y || q x y) where
  check k := by simp [isBool_iff, h.check, h'.check, and_assoc]
  means hcd x y := means_or (h.means hcd.1 x y) (h'.means hcd.2 x y)

theorem typed_xor {f g : Instance Val → Instance Val → BitVec 64}
    (h : P.Typed other left .word c fun x y => .word (f x y))
    (h' : P.Typed other right .word d fun x y => .word (g x y)) :
    P.Typed other (.mk (.binary .bitXor left right) span) .word (c ∧ d)
      fun x y => .word (f x y ^^^ g x y) where
  check k := by
    simp only [Methods.check, Option.bind_eq_some_iff, h.check, h'.check]
    constructor
    · rintro ⟨_, ⟨hc, rfl⟩, _, ⟨hd, rfl⟩, hk⟩
      exact ⟨⟨hc, hd⟩, Option.some.inj hk⟩
    · rintro ⟨⟨hc, hd⟩, rfl⟩
      exact ⟨_, ⟨hc, rfl⟩, _, ⟨hd, rfl⟩, rfl⟩
  means hcd x y := means_xor (h.means hcd.1 x y) (h'.means hcd.2 x y)

theorem typed_operator (t : Test) {i : Nat} {f g : Instance Val → Instance Val → Val i}
    (h : P.Typed other left (.field i) True fun x y => .field i (f x y))
    (h' : P.Typed other right (.field i) True fun x y => .field i (g x y)) :
    P.Typed other (.mk (.binary t.op left right) span) .bool
      ((P.ops i).type.operates t.op = true)
      fun x y => .bool (t.of (P.ops i).toComparison (f x y) (g x y)) where
  check k := by
    cases t with
    | eq => simp [Test.op, h.kind, h'.kind, operationKind]
    | lt => simp [Test.op, h.kind, h'.kind, operationKind]
  means happlies x y := means_operator t (h.means trivial x y) (h'.means trivial x y) happlies

theorem typed_method (t : Test) {i : Nat} {f g : Instance Val → Instance Val → Val i}
    (h : P.Typed other left (.field i) True fun x y => .field i (f x y))
    (h' : P.Typed other right (.field i) True fun x y => .field i (g x y)) :
    P.Typed other (.mk (.call (.mk (.field left t.method) span') [] [right] none) span) .bool
      ((P.ops i).type.answers t.method = true)
      fun x y => .bool (t.of (P.ops i).toComparison (f x y) (g x y)) where
  check k := by
    cases t with
    | eq => simp [Test.method, h.kind, h'.kind, callKind]
    | lt => simp [Test.method, h.kind, h'.kind, callKind]
  means happlies x y := means_method t (h.means trivial x y) (h'.means trivial x y) happlies

theorem typed_hash {i : Nat} {f : Instance Val → Instance Val → Val i}
    (h : P.Typed other receiver (.field i) True fun x y => .field i (f x y)) :
    P.Typed other (.mk (.call (.mk (.field receiver "hash") span') [] [] none) span) .word
      ((P.ops i).type.answers "hash" = true) fun x y => .word ((P.ops i).hash (f x y)) where
  check k := by simp [h.kind, callKind]
  means happlies x y := means_hash (h.means trivial x y) happlies

/-! ## Methods of the block -/

/-- The block has this method: the checker accepts its body, which has the type that it returns, and
it computes this. -/
def Has (P : Methods Val) (name ret : String) (other : Bool) (k : Kind)
    (v : Instance Val → Instance Val → Value Val) : Prop :=
  ∃ m e, P.method name = some m ∧ m.returnType = some ret ∧ m.body = some (.mk [] (some e)) ∧
    P.check other e = some k ∧ ∀ a b, P.Means (callEnv other a b) e (v a b)

/-- A comparison of the block. -/
def Computes (P : Methods Val) (name : String) (f : Instance Val → Instance Val → Bool) : Prop :=
  P.Has name "bool" true .bool fun a b => .bool (f a b)

/-- The method `hash` of the block. -/
def Hashes (P : Methods Val) (f : Instance Val → BitVec 64) : Prop :=
  P.Has "hash" "u64" false .word fun a _ => .word (f a)

/-- A call of a comparison on the struct itself. -/
theorem typed_call {name : String} (hp : P.Computes name p)
    (h : P.Typed other receiver .inst True fun x y => .inst (a x y))
    (h' : P.Typed other arg .inst True fun x y => .inst (b x y)) :
    P.Typed other (.mk (.call (.mk (.field receiver name) span') [] [arg] none) span) .bool True
      fun x y => .bool (p (a x y) (b x y)) := by
  obtain ⟨m, e, hm, hret, hbody, -, he⟩ := hp
  refine ⟨fun k => ?_, fun _ x y => means_call hm hbody (he _ _) (h.means trivial x y)
    (h'.means trivial x y)⟩
  simp [h.kind, h'.kind, callKind, returns, hm, hret, Kind.named]

end Methods

end compiler.sema.derive
