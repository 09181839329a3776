-- Integer arithmetic as it is lowered (`gen_call.rs`, `gen_expr.rs`): the methods of the wrapping,
-- saturating, checked and overflowing families, and the plain operators. A value is a word of the
-- width of its type; an instruction is its documented meaning on words.
import OtterFusion.Backend.Representation
import OtterFusion.Base.FixedWidth

namespace compiler.sema

/-- `IntTy::is_signed`. -/
def IntTy.isSigned : IntTy → Bool
  | .i8 | .i16 | .i32 | .i64 | .isize => true
  | _ => false

/-- `IntTy::bits`: none for the types of the platform. -/
def IntTy.bits : IntTy → Option Nat
  | .i8 | .u8 => some 8
  | .i16 | .u16 => some 16
  | .i32 | .u32 => some 32
  | .i64 | .u64 => some 64
  | .isize | .usize => none

end compiler.sema

open compiler.sema

namespace backend

/-- `ClType::bits`. -/
def ClType.bits : ClType → Nat
  | .i8 => 8
  | .i16 => 16
  | .i32 | .f32 => 32
  | .i64 | .f64 => 64

/-- `int_min_max`: the bounds as the `i64` of a constant. -/
def intMinMax (it : IntTy) : Int × Int :=
  let bits := it.bits.getD 64
  if it.isSigned then
    if 64 ≤ bits then (-2 ^ 63, 2 ^ 63 - 1)
    else (-2 ^ (bits - 1), 2 ^ (bits - 1) - 1)
  else if 64 ≤ bits then (0, -1)
  else (0, 2 ^ bits - 1)

namespace intArith

/-! ## Instructions -/

/-- The value of an integer type. -/
abbrev Word (it : IntTy) := BitVec (intClty it).bits

/-- Why a run stops: a panic of the program, or an instruction that traps. -/
inductive Trap
  | panic (msg : String) | intDivByZero | intOverflow
  deriving DecidableEq, Repr

/-- Code that leaves a value, or stops. -/
abbrev Code (A : Type) := Except Trap A

variable {w : Nat}

/-- `iconst`. -/
def iconst (w : Nat) (n : Int) : BitVec w := BitVec.ofInt w n

/-- `select`. -/
def select (c : Bool) (x y : BitVec w) : BitVec w := if c then x else y

/-- `sdiv`. -/
def sdiv (x y : BitVec w) : Code (BitVec w) :=
  if y = iconst w 0 then .error .intDivByZero
  else if x = iconst w (-2 ^ (w - 1)) ∧ y = iconst w (-1) then .error .intOverflow
  else .ok (x.sdiv y)

/-- `udiv`. -/
def udiv (x y : BitVec w) : Code (BitVec w) :=
  if y = iconst w 0 then .error .intDivByZero else .ok (x / y)

/-- `srem`. -/
def srem (x y : BitVec w) : Code (BitVec w) :=
  if y = iconst w 0 then .error .intDivByZero else .ok (x.srem y)

/-- `urem`. -/
def urem (x y : BitVec w) : Code (BitVec w) :=
  if y = iconst w 0 then .error .intDivByZero else .ok (x % y)

/-- `ishl`, by the amount modulo the width. -/
def ishl {v : Nat} (x : BitVec w) (amount : BitVec v) : BitVec w := x <<< (amount.toNat % w)

/-- `sshr`. -/
def sshr {v : Nat} (x : BitVec w) (amount : BitVec v) : BitVec w :=
  x.sshiftRight (amount.toNat % w)

/-- `ushr`. -/
def ushr {v : Nat} (x : BitVec w) (amount : BitVec v) : BitVec w := x >>> (amount.toNat % w)

/-- `guard_panic`. -/
def guardPanic (cond : Bool) (msg : String) : Code Unit :=
  if cond then .error (.panic msg) else .ok ()

/-- A guard that is emitted under a condition. -/
def guardWhen (emitted : Bool) (guard : Code Unit) : Code Unit :=
  if emitted then guard else .ok ()

/-! ## The families -/

/-- The family of a method, by the number that `NumIntrinsic::IntArith` has for it: 0 to 3. -/
inductive Family
  | wrapping | saturating | checked | overflowing
  deriving DecidableEq, Repr

/-- The operations 0 to 2. -/
inductive ArithOp
  | add | sub | mul
  deriving DecidableEq, Repr

/-- The operations 3 and 4. -/
inductive DivOp
  | div | rem
  deriving DecidableEq, Repr

/-- The operations 6 and 7. -/
inductive ShiftOp
  | shl | shr
  deriving DecidableEq, Repr

/-- A method with its arguments, as the checker lets it through: `neg`, the operation 5, has one
argument, and the count of a shift is a `u32`. -/
inductive Method (w : Nat)
  | addsubmul (op : ArithOp) (a b : BitVec w)
  | divrem (op : DivOp) (a b : BitVec w)
  | neg (a : BitVec w)
  | shift (op : ShiftOp) (a : BitVec w) (count : BitVec 32)
  deriving DecidableEq, Repr

/-- What a method leaves: a `T`, a box of `T | null`, or a pair of a `T` and a `bool`. -/
inductive Packaged (w : Nat)
  | value (x : BitVec w)
  | checked (x : Option (BitVec w))
  | overflowing (x : BitVec w) (ovf : Bool)
  deriving DecidableEq, Repr

/-- `package_int_arith`. The clamp is a value in the saturating family only, and read in it only. -/
def packageIntArith (family : Family) (res : BitVec w) (ovf : Bool) (saturatingClamp : BitVec w) :
    Packaged w :=
  match family with
  | .wrapping => .value res
  | .saturating => .value (select ovf saturatingClamp res)
  | .checked => .checked (if ovf then none else some res)
  | .overflowing => .overflowing res ovf

/-- The six instructions that leave a result and an overflow flag. -/
def overflowOp (op : ArithOp) (signed : Bool) (a b : BitVec w) : BitVec w × Bool :=
  match op, signed with
  | .add, true => (a + b, a.saddOverflow b)
  | .add, false => (a + b, a.uaddOverflow b)
  | .sub, true => (a - b, a.ssubOverflow b)
  | .sub, false => (a - b, a.usubOverflow b)
  | .mul, true => (a * b, a.smulOverflow b)
  | .mul, false => (a * b, a.umulOverflow b)

/-- `to_max`: whether a signed result that overflows is clamped to the greatest number. -/
def toMax (op : ArithOp) (a b : BitVec w) : Bool :=
  let zero := iconst w 0
  match op with
  | .add | .sub => zero.sle a
  | .mul => ((a.slt zero).xor (b.slt zero)).xor true

/-- `gen_int_arith_addsubmul`. -/
def genIntArithAddsubmul (it : IntTy) (family : Family) (op : ArithOp) (a b : Word it) :
    Packaged (intClty it).bits :=
  let (res, ovf) := overflowOp op it.isSigned a b
  let min := iconst _ (intMinMax it).1
  let max := iconst _ (intMinMax it).2
  let satClamp :=
    if !it.isSigned then if op = .sub then min else max
    else select (toMax op a b) max min
  packageIntArith family res ovf satClamp

/-- The `min` of `div_overflow_select` and of `guard_div_overflow`. -/
def signedMin (w : Nat) : Int := if 64 ≤ w then -2 ^ 63 else -2 ^ (w - 1)

/-- `div_overflow_select`: whether the quotient overflows, and a divisor that does not trap. -/
def divOverflowSelect (l r : BitVec w) : Bool × BitVec w :=
  let ovf := l == iconst w (signedMin w) && r == iconst w (-1)
  (ovf, select ovf (iconst w 1) r)

/-- The four instructions that divide. -/
def divremOp (op : DivOp) (signed : Bool) (a b : BitVec w) : Code (BitVec w) :=
  match op, signed with
  | .div, true => sdiv a b
  | .div, false => udiv a b
  | .rem, true => srem a b
  | .rem, false => urem a b

/-- `gen_int_arith_divrem`. -/
def genIntArithDivrem (it : IntTy) (family : Family) (op : DivOp) (a b : Word it) :
    Code (Packaged (intClty it).bits) := do
  let zero := iconst _ 0
  let bZero := b == zero
  guardWhen (family ≠ .checked) (guardPanic bZero "divide by zero")
  let (ovfSigned, safeB) := if it.isSigned then divOverflowSelect a b else (false, b)
  let safeB := select bZero (iconst _ 1) safeB
  let ovf := if family = .checked then ovfSigned || bZero else ovfSigned
  let raw ← divremOp op it.isSigned a safeB
  let res :=
    if it.isSigned then if op = .div then select ovfSigned a raw else select ovfSigned zero raw
    else raw
  let satClamp := if op = .div then iconst _ (intMinMax it).2 else zero
  return packageIntArith family res ovf satClamp

/-- `gen_int_arith_neg`. -/
def genIntArithNeg (it : IntTy) (family : Family) (a : Word it) : Packaged (intClty it).bits :=
  let res := -a
  let ovf := if it.isSigned then a == iconst _ (intMinMax it).1 else a != iconst _ 0
  let satClamp := if it.isSigned then iconst _ (intMinMax it).2 else iconst _ 0
  packageIntArith family res ovf satClamp

/-- The three instructions that shift. -/
def shiftOp {v : Nat} (op : ShiftOp) (signed : Bool) (a : BitVec w) (amount : BitVec v) :
    BitVec w :=
  match op, signed with
  | .shl, _ => ishl a amount
  | .shr, true => sshr a amount
  | .shr, false => ushr a amount

/-- `gen_int_arith_shift`. The count is brought to the width of the value, narrower or wider. -/
def genIntArithShift (it : IntTy) (family : Family) (op : ShiftOp) (a : Word it)
    (count : BitVec 32) : Packaged (intClty it).bits :=
  let bits := (intClty it).bits
  let ovf := (iconst 32 bits).ule count
  let countT := count.setWidth bits
  let cap := iconst bits (bits - 1)
  packageIntArith family (shiftOp op it.isSigned a countT) ovf (shiftOp op it.isSigned a cap)

/-- `emit_int_arith`. -/
def emitIntArith (it : IntTy) (family : Family) :
    Method (intClty it).bits → Code (Packaged (intClty it).bits)
  | .addsubmul op a b => .ok (genIntArithAddsubmul it family op a b)
  | .divrem op a b => genIntArithDivrem it family op a b
  | .neg a => .ok (genIntArithNeg it family a)
  | .shift op a count => .ok (genIntArithShift it family op a count)

/-! ## The plain operators -/

/-- The operators of `BinaryOp` that leave an integer. -/
inductive IntBinop
  | addsubmul (op : ArithOp) | divrem (op : DivOp) | shift (op : ShiftOp)
  | bitAnd | bitOr | bitXor
  deriving DecidableEq, Repr

/-- The word for an operation in the panic about it. -/
def ArithOp.what : ArithOp → String
  | .add => "add"
  | .sub => "subtract"
  | .mul => "multiply"

/-- `checked_arith`. -/
def checkedArith (release : Bool) (op : ArithOp) (signed : Bool) (l r : BitVec w) :
    Code (BitVec w) :=
  if release then
    match op with
    | .add => .ok (l + r)
    | .sub => .ok (l - r)
    | .mul => .ok (l * r)
  else do
    let (res, ovf) := overflowOp op signed l r
    guardPanic ovf ("attempt to " ++ op.what ++ " with overflow")
    return res

/-- `guard_nonzero`. -/
def guardNonzero (divisor : BitVec w) : Code Unit :=
  guardPanic (divisor == iconst w 0) "divide by zero"

/-- `guard_div_overflow`. -/
def guardDivOverflow (l r : BitVec w) : Code Unit :=
  guardPanic (l == iconst w (signedMin w) && r == iconst w (-1)) "attempt to divide with overflow"

/-- `gen_signed_div`. -/
def genSignedDiv (release : Bool) (l r : BitVec w) : Code (BitVec w) :=
  if !release then sdiv l r
  else do
    let (ovf, safeR) := divOverflowSelect l r
    let q ← sdiv l safeR
    return select ovf l q

/-- `gen_signed_rem`. -/
def genSignedRem (release : Bool) (l r : BitVec w) : Code (BitVec w) :=
  if !release then srem l r
  else do
    let (ovf, safeR) := divOverflowSelect l r
    let rem ← srem l safeR
    return select ovf (iconst w 0) rem

/-- `guard_shift`. The amount has the type of the value. -/
def guardShift (amount : BitVec w) : Code Unit :=
  guardPanic ((iconst w w).ule amount) "shift amount >= bit width"

/-- `emit_binop`, of operands of an integer type. -/
def emitBinop (release : Bool) (op : IntBinop) (signed : Bool) (l r : BitVec w) :
    Code (BitVec w) :=
  match op with
  | .addsubmul op => checkedArith release op signed l r
  | .divrem op => do
    guardNonzero r
    guardWhen (signed && !release) (guardDivOverflow l r)
    match op with
    | .div => if signed then genSignedDiv release l r else udiv l r
    | .rem => if signed then genSignedRem release l r else urem l r
  | .bitAnd => .ok (l &&& r)
  | .bitOr => .ok (l ||| r)
  | .bitXor => .ok (l ^^^ r)
  | .shift .shl => do
    guardShift r
    return ishl l r
  | .shift .shr => do
    guardShift r
    return if signed then sshr l r else ushr l r

end intArith

end backend
