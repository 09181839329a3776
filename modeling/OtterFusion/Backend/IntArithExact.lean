-- What the families promise, against the exact results: each method of each family, and the plain
-- operators of a debug build.
import OtterFusion.Backend.IntArith

open compiler.sema base.fixedWidth

namespace backend.intArith

/-! ## The promise -/

/-- The exact result. -/
def ArithOp.exact : ArithOp → Int → Int → Int
  | .add, a, b => a + b
  | .sub, a, b => a - b
  | .mul, a, b => a * b

/-- The exact result, rounded toward zero. -/
def DivOp.exact : DivOp → Int → Int → Int
  | .div, a, b => a.tdiv b
  | .rem, a, b => a.tmod b

/-- The exact result, rounded down. -/
def ShiftOp.exact : ShiftOp → Int → Nat → Int
  | .shl, a, k => a * 2 ^ k
  | .shr, a, k => a / 2 ^ k

variable {w : Nat} {signed : Bool}

/-- What a family promises of an operation with the exact result `n`, that overflows or not. -/
def ArithPromised (signed : Bool) (n : Int) (Overflows : Prop) : Family → Packaged w → Prop
  | .wrapping, r => r = .value (BitVec.ofInt w n)
  | .saturating, r => ∃ x, r = .value x ∧ value signed x = clamp signed w n
  | .checked, r => (Overflows ∧ r = .checked none) ∨
      (¬Overflows ∧ ∃ x, r = .checked (some x) ∧ value signed x = n)
  | .overflowing, r => ∃ ovf, r = .overflowing (BitVec.ofInt w n) ovf ∧ (ovf = true ↔ Overflows)

/-- A word shifted by less than its width. -/
def shifted (signed : Bool) (op : ShiftOp) (a : BitVec w) (k : Nat) : BitVec w :=
  BitVec.ofInt w (op.exact (value signed a) k)

/-- What a family promises of a shift. -/
def ShiftPromised (signed : Bool) (op : ShiftOp) (a : BitVec w) (count : Nat) :
    Family → Packaged w → Prop
  | .wrapping, r => r = .value (shifted signed op a (count % w))
  | .saturating, r => r = .value (shifted signed op a (min count (w - 1)))
  | .checked, r => r = .checked (if w ≤ count then none else some (shifted signed op a (count % w)))
  | .overflowing, r => r = .overflowing (shifted signed op a (count % w)) (decide (w ≤ count))

/-- Code that does not come to its end. -/
def Traps {A : Type} (code : Code A) : Prop := ∃ trap, code = .error trap

/-- A plain operator that traps where the checked method leaves `null`, and leaves its value
otherwise. -/
def PlainAgrees (plain : Code (BitVec w)) (checked : Code (Packaged w)) : Prop :=
  (Traps plain ↔ checked = .ok (.checked none)) ∧
    ∀ x, plain = .ok x ↔ checked = .ok (.checked (some x))

/-- The families and the plain operators of a type, exact but for what counts as an overflow of a
division. -/
structure FamiliesExact (it : IntTy) (DivOverflows : DivOp → Int → Int → Prop) : Prop where
  addsubmul : ∀ family op (a b : Word it),
    ∃ r, emitIntArith it family (.addsubmul op a b) = .ok r ∧
      ArithPromised it.isSigned (op.exact (value it.isSigned a) (value it.isSigned b))
        (¬Fits it.isSigned (intClty it).bits (op.exact (value it.isSigned a) (value it.isSigned b)))
        family r
  divrem : ∀ family op (a b : Word it), value it.isSigned b ≠ 0 →
    ∃ r, emitIntArith it family (.divrem op a b) = .ok r ∧
      ArithPromised it.isSigned (op.exact (value it.isSigned a) (value it.isSigned b))
        (DivOverflows op (value it.isSigned a) (value it.isSigned b)) family r
  divrem_zero : ∀ family op (a b : Word it), value it.isSigned b = 0 →
    if family = .checked then emitIntArith it family (.divrem op a b) = .ok (.checked none)
    else Traps (emitIntArith it family (.divrem op a b))
  neg : ∀ family (a : Word it),
    ∃ r, emitIntArith it family (.neg a) = .ok r ∧
      ArithPromised it.isSigned (-value it.isSigned a)
        (¬Fits it.isSigned (intClty it).bits (-value it.isSigned a)) family r
  shift : ∀ family op (a : Word it) (count : BitVec 32),
    ∃ r, emitIntArith it family (.shift op a count) = .ok r ∧
      ShiftPromised it.isSigned op a count.toNat family r
  plain_addsubmul : ∀ op (a b : Word it),
    PlainAgrees (emitBinop false (.addsubmul op) it.isSigned a b)
      (emitIntArith it .checked (.addsubmul op a b))
  plain_divrem : ∀ op (a b : Word it),
    PlainAgrees (emitBinop false (.divrem op) it.isSigned a b)
      (emitIntArith it .checked (.divrem op a b))
  plain_shift : ∀ op (a b : Word it) (count : BitVec 32), count.toNat = b.toNat →
    PlainAgrees (emitBinop false (.shift op) it.isSigned a b)
      (emitIntArith it .checked (.shift op a count))
  plain_shift_wide : ∀ op (a b : Word it), 2 ^ 32 ≤ b.toNat →
    Traps (emitBinop false (.shift op) it.isSigned a b)

/-! ## Constants -/

theorem width_pos (it : IntTy) : 0 < (intClty it).bits := by
  cases it <;> decide

theorem value_one (it : IntTy) : value it.isSigned (iconst (intClty it).bits 1) = 1 := by
  cases it <;> decide

theorem value_min (it : IntTy) :
    value it.isSigned (iconst (intClty it).bits (intMinMax it).1) =
      lowest it.isSigned (intClty it).bits := by
  cases it <;> decide

theorem value_max (it : IntTy) :
    value it.isSigned (iconst (intClty it).bits (intMinMax it).2) =
      highest it.isSigned (intClty it).bits := by
  cases it <;> decide

theorem signedMin_eq (it : IntTy) :
    signedMin (intClty it).bits = lowest true (intClty it).bits := by
  cases it <;> decide

theorem value_zero (signed : Bool) (w : Nat) : value signed (iconst w 0) = 0 := by
  cases signed <;> simp [iconst]

theorem eq_zero (x : BitVec w) : x = iconst w 0 ↔ value signed x = 0 := by
  constructor
  · rintro rfl
    exact value_zero signed w
  · intro h
    exact value_injective (h.trans (value_zero signed w).symm)

/-- A constant is met when the number is. -/
theorem eq_iconst (hw : 0 < w) {n : Int} (hn : Fits signed w n) (x : BitVec w) :
    x = iconst w n ↔ value signed x = n := by
  constructor
  · rintro rfl
    exact value_ofInt hw hn
  · intro h
    rw [iconst, ← h, ofInt_value]

/-! ## Packaging -/

/-- The package of an exact result with its flag and clamp is what the family promises. -/
theorem packageIntArith_promised (hw : 0 < w) {n : Int} {Overflows : Prop} {ovf : Bool}
    {satClamp : BitVec w} (hovf : ovf = true ↔ Overflows) (hfits : ¬Overflows → Fits signed w n)
    (hsat : Overflows → value signed satClamp = clamp signed w n) (family : Family) :
    ArithPromised signed n Overflows family
      (packageIntArith family (BitVec.ofInt w n) ovf satClamp) := by
  cases family with
  | wrapping => rfl
  | saturating =>
    refine ⟨_, rfl, ?_⟩
    by_cases h : Overflows
    · rw [select, if_pos (hovf.mpr h), hsat h]
    · rw [select, if_neg (fun hc => h (hovf.mp hc)), value_ofInt hw (hfits h),
        clamp_of_fits (hfits h)]
  | checked =>
    by_cases h : Overflows
    · left
      exact ⟨h, by simp [packageIntArith, hovf.mpr h]⟩
    · right
      have hno : ovf = false := by simpa using mt hovf.mp h
      exact ⟨h, _, by simp [packageIntArith, hno], value_ofInt hw (hfits h)⟩
  | overflowing => exact ⟨ovf, rfl, hovf⟩

/-! ## Addition, subtraction and multiplication -/

theorem overflowOp_result (op : ArithOp) (a b : BitVec w) :
    (overflowOp op signed a b).1 = BitVec.ofInt w (op.exact (value signed a) (value signed b)) := by
  cases op with
  | add => cases signed <;> exact add_exact a b
  | sub => cases signed <;> exact sub_exact a b
  | mul => cases signed <;> exact mul_exact a b

theorem overflowOp_flag (op : ArithOp) (a b : BitVec w) :
    (overflowOp op signed a b).2 = true ↔
      ¬Fits signed w (op.exact (value signed a) (value signed b)) := by
  cases signed with
  | true =>
    cases op with
    | add => exact saddOverflow_iff a b
    | sub => exact ssubOverflow_iff a b
    | mul => exact smulOverflow_iff a b
  | false =>
    cases op with
    | add => exact uaddOverflow_iff a b
    | sub => exact usubOverflow_iff a b
    | mul => exact umulOverflow_iff a b

/-- A signed result that does not fit lies on the side that the operands point to. -/
theorem toMax_iff (op : ArithOp) (a b : BitVec w)
    (h : ¬Fits true w (op.exact a.toInt b.toInt)) :
    toMax op a b = true ↔ 0 ≤ op.exact a.toInt b.toInt := by
  have hzero : (iconst w 0).toInt = 0 := value_zero true w
  have ha : Fits true w a.toInt := @value_fits w true a
  have hb : Fits true w b.toInt := @value_fits w true b
  rw [fits_signed] at h ha hb
  cases op with
  | add =>
    simp only [ArithOp.exact, toMax, BitVec.sle_iff_toInt_le, hzero] at h ⊢
    omega
  | sub =>
    simp only [ArithOp.exact, toMax, BitVec.sle_iff_toInt_le, hzero] at h ⊢
    omega
  | mul =>
    have hne : a.toInt * b.toInt ≠ 0 := by
      intro hprod
      have hpos := two_pow_pos (w - 1)
      simp only [ArithOp.exact, hprod] at h
      omega
    obtain ⟨hane, hbne⟩ := Int.mul_ne_zero_iff.mp hne
    simp only [ArithOp.exact, toMax, BitVec.slt, hzero]
    rcases Int.lt_or_gt_of_ne hane with ha0 | ha0 <;> rcases Int.lt_or_gt_of_ne hbne with hb0 | hb0
    · have hprod := Int.mul_pos_of_neg_of_neg ha0 hb0
      simp [ha0, hb0, Int.le_of_lt hprod]
    · have hprod := Int.mul_neg_of_neg_of_pos ha0 hb0
      simp [ha0, Int.lt_asymm hb0, hprod]
    · have hprod := Int.mul_neg_of_pos_of_neg ha0 hb0
      simp [hb0, Int.lt_asymm ha0, hprod]
    · have hprod := Int.mul_pos ha0 hb0
      simp [Int.lt_asymm ha0, Int.lt_asymm hb0, Int.le_of_lt hprod]

/-- An unsigned result that does not fit is below the range for a difference only. -/
theorem unsigned_side (op : ArithOp) (a b : BitVec w)
    (h : ¬Fits false w (op.exact a.toNat b.toNat)) :
    0 ≤ op.exact a.toNat b.toNat ↔ op ≠ .sub := by
  have ha : Fits false w a.toNat := @value_fits w false a
  rw [fits_unsigned] at h ha
  cases op with
  | add =>
    simp only [ArithOp.exact, ne_eq, reduceCtorEq, not_false_eq_true, iff_true]
    omega
  | sub =>
    simp only [ArithOp.exact, ne_eq, not_true_eq_false, iff_false] at h ⊢
    omega
  | mul =>
    simp only [ArithOp.exact, ne_eq, reduceCtorEq, not_false_eq_true, iff_true]
    rw [← Int.natCast_mul]
    omega

theorem value_select (c : Bool) (x y : BitVec w) :
    value signed (select c x y) = if c then value signed x else value signed y := by
  cases c <;> rfl

/-- The clamp is the end of the range on the side of the exact result. -/
theorem addsubmul_clamp (op : ArithOp) {min max : BitVec w} (a b : BitVec w)
    (hmin : value signed min = lowest signed w) (hmax : value signed max = highest signed w)
    (h : ¬Fits signed w (op.exact (value signed a) (value signed b))) :
    value signed
        (if !signed then if op = .sub then min else max
          else select (toMax op a b) max min) =
      clamp signed w (op.exact (value signed a) (value signed b)) := by
  rw [clamp_of_not_fits h]
  cases signed with
  | false =>
    have hside : 0 ≤ op.exact (value false a) (value false b) ↔ op ≠ .sub := unsigned_side op a b h
    rw [if_pos (by decide)]
    by_cases hop : op = .sub
    · rw [if_pos hop, hmin, if_neg (fun hn => hside.mp hn hop)]
    · rw [if_neg hop, hmax, if_pos (hside.mpr hop)]
  | true =>
    have hside := toMax_iff op a b h
    rw [if_neg (by decide), value_select, hmin, hmax]
    exact if_congr hside rfl rfl

theorem addsubmul_promised (it : IntTy) (family : Family) (op : ArithOp) (a b : Word it) :
    ArithPromised it.isSigned (op.exact (value it.isSigned a) (value it.isSigned b))
      (¬Fits it.isSigned (intClty it).bits (op.exact (value it.isSigned a) (value it.isSigned b)))
      family (genIntArithAddsubmul it family op a b) := by
  have hres := @overflowOp_result _ it.isSigned op a b
  have hflag := @overflowOp_flag _ it.isSigned op a b
  simp only [genIntArithAddsubmul, hres]
  refine packageIntArith_promised (width_pos it) hflag (fun h => not_not.mp h) (fun h => ?_) family
  exact addsubmul_clamp op a b (value_min it) (value_max it) h

/-! ## Division -/

theorem lowest_fits : Fits signed w (lowest signed w) :=
  ⟨le_refl _, le_trans lowest_nonpos highest_nonneg⟩

theorem neg_one_fits : Fits true w (-1) := by
  have hpos := two_pow_pos (w - 1)
  rw [fits_signed]
  omega

theorem divOverflowSelect_flag (it : IntTy) (a b : Word it) :
    (divOverflowSelect a b).1 = true ↔
      a.toInt = lowest true (intClty it).bits ∧ b.toInt = -1 := by
  have hw := width_pos it
  simp only [divOverflowSelect, signedMin_eq, Bool.and_eq_true, beq_iff_eq,
    eq_iconst hw lowest_fits,
    eq_iconst hw neg_one_fits, value_signed]

/-- Where the quotient fits, no instruction traps. -/
theorem divremOp_ok (hw : 0 < w) (op : DivOp) (a b : BitVec w) (hb : value signed b ≠ 0)
    (hfits : signed = true → Fits true w (a.toInt.tdiv b.toInt)) :
    divremOp op signed a b =
      .ok (BitVec.ofInt w (op.exact (value signed a) (value signed b))) := by
  have hne : b ≠ iconst w 0 := fun h => hb ((eq_zero b).mp h)
  cases signed with
  | true =>
    have hno := (tdiv_fits hw a b).mp (hfits rfl)
    cases op with
    | div =>
      have hmin : ¬(a = iconst w (lowest true w) ∧ b = iconst w (-1)) := by
        rw [eq_iconst hw lowest_fits, eq_iconst hw neg_one_fits]
        exact hno
      rw [divremOp, sdiv, if_neg hne]
      exact (if_neg hmin).trans (congrArg Except.ok (sdiv_exact a b))
    | rem =>
      simp only [divremOp, srem, if_neg hne, srem_exact]
      rfl
  | false =>
    cases op with
    | div =>
      simp only [divremOp, udiv, if_neg hne, udiv_exact]
      rfl
    | rem =>
      simp only [divremOp, urem, if_neg hne, umod_exact]
      rfl

/-- Without the flag a quotient fits. -/
theorem quotient_fits (it : IntTy) (a b : Word it)
    (hno : (it.isSigned && (divOverflowSelect a b).1) = false) (hs : it.isSigned = true) :
    Fits true (intClty it).bits (a.toInt.tdiv b.toInt) := by
  rw [tdiv_fits (width_pos it), ← divOverflowSelect_flag]
  simpa [hs] using hno

theorem divremOp_one (it : IntTy) (op : DivOp) (a : Word it) :
    ∃ x, divremOp op it.isSigned a (iconst _ 1) = .ok x := by
  have hone := value_one it
  refine ⟨_, divremOp_ok (width_pos it) op a (iconst _ 1) (by omega) (fun hs => ?_)⟩
  rw [tdiv_fits (width_pos it)]
  rw [hs, value_signed] at hone
  omega

/-- The smallest number is its own negation. -/
theorem neg_of_lowest (hw : 0 < w) {a : BitVec w} (ha : a.toInt = lowest true w) : -a = a := by
  have hmin : a = BitVec.intMin w := by
    apply BitVec.eq_of_toInt_eq
    rw [ha, BitVec.toInt_intMin_of_pos hw]
    rfl
  rw [hmin, BitVec.neg_intMin]

/-- The divisor that the instruction gets: the given one, or one where the quotient overflows. -/
theorem safeDivisor (it : IntTy) (a b : Word it) :
    (it.isSigned = true ∧ (divOverflowSelect a b).1 = true ∧
        (if it.isSigned then divOverflowSelect a b else (false, b)) = (true, iconst _ 1)) ∨
      ((it.isSigned && (divOverflowSelect a b).1) = false ∧
        (if it.isSigned then divOverflowSelect a b else (false, b)) = (false, b)) := by
  cases hs : it.isSigned with
  | false => exact .inr ⟨rfl, rfl⟩
  | true =>
    cases ho : (divOverflowSelect a b).1 with
    | true =>
      refine .inl ⟨rfl, rfl, Prod.ext ho ?_⟩
      have hflag := ho
      simp only [divOverflowSelect] at hflag
      simp [divOverflowSelect, hflag, select]
    | false =>
      refine .inr ⟨rfl, Prod.ext ho ?_⟩
      have hflag := ho
      simp only [divOverflowSelect] at hflag
      simp [divOverflowSelect, hflag, select]

/-- The result and the flag of a division by another number than zero. -/
theorem genIntArithDivrem_eq (it : IntTy) (family : Family) (op : DivOp) (a b : Word it)
    (hb : value it.isSigned b ≠ 0) :
    genIntArithDivrem it family op a b =
      .ok (packageIntArith family
        (BitVec.ofInt _ (op.exact (value it.isSigned a) (value it.isSigned b)))
        (it.isSigned && (divOverflowSelect a b).1)
        (if op = .div then iconst _ (intMinMax it).2 else iconst _ 0)) := by
  have hw := width_pos it
  have hne : (b == iconst (intClty it).bits 0) = false := by
    rw [beq_eq_false_iff_ne, ne_eq, eq_zero]
    exact hb
  have hguard : guardWhen (family ≠ .checked) (guardPanic false "divide by zero") = .ok () := by
    cases family <;> rfl
  rcases safeDivisor it a b with ⟨hs, ho, hsafe⟩ | ⟨hno, hsafe⟩
  · obtain ⟨ha, hb1⟩ := (divOverflowSelect_flag it a b).mp ho
    obtain ⟨x, hok⟩ := divremOp_one it op a
    have hres : (if op = .div then a else iconst _ 0) =
        BitVec.ofInt _ (op.exact (value it.isSigned a) (value it.isSigned b)) := by
      rw [hs, value_signed, value_signed, hb1]
      cases op with
      | div =>
        rw [if_pos rfl, DivOp.exact, Int.tdiv_neg, Int.tdiv_one, BitVec.ofInt_neg,
          BitVec.ofInt_toInt, neg_of_lowest hw ha]
      | rem =>
        rw [if_neg (by decide), DivOp.exact, Int.tmod_neg, Int.tmod_one]
        rfl
    rw [← hres]
    simp only [genIntArithDivrem, hne, hsafe, hguard, select, if_neg Bool.false_ne_true, hok]
    simp only [hs, ho, if_true, Bool.or_false, ite_self]
    rfl
  · have hok := divremOp_ok hw op a b hb (quotient_fits it a b hno)
    simp only [genIntArithDivrem, hne, hsafe, hguard, select, if_neg Bool.false_ne_true, hno, hok,
      ite_self, Bool.or_false]
    rfl

/-- Whether a quotient overflows. -/
theorem quotient_overflows (it : IntTy) (a b : Word it) :
    (it.isSigned && (divOverflowSelect a b).1) = true ↔
      ¬Fits it.isSigned (intClty it).bits ((value it.isSigned a).tdiv (value it.isSigned b)) := by
  cases hs : it.isSigned with
  | true =>
    rw [Bool.true_and, divOverflowSelect_flag, value_signed, value_signed, tdiv_fits (width_pos it),
      not_not]
  | false =>
    have hfits := toNat_tdiv_fits a b
    simpa using hfits

theorem divrem_promised (it : IntTy) (family : Family) (op : DivOp) (a b : Word it)
    (hb : value it.isSigned b ≠ 0) :
    ∃ r, emitIntArith it family (.divrem op a b) = .ok r ∧
      ArithPromised it.isSigned (op.exact (value it.isSigned a) (value it.isSigned b))
        (¬Fits it.isSigned (intClty it).bits ((value it.isSigned a).tdiv (value it.isSigned b)))
        family r := by
  refine ⟨_, genIntArithDivrem_eq it family op a b hb, ?_⟩
  refine packageIntArith_promised (width_pos it) (quotient_overflows it a b) (fun h => ?_)
    (fun h => ?_) family
  · cases op with
    | div => exact not_not.mp h
    | rem =>
      cases hs : it.isSigned with
      | true => exact tmod_fits a b
      | false => exact toNat_tmod_fits a b
  · have hflag := (quotient_overflows it a b).mpr h
    rw [Bool.and_eq_true, divOverflowSelect_flag] at hflag
    obtain ⟨hs, ha, hb1⟩ := hflag
    cases op with
    | div =>
      have hpos : 0 ≤ (value it.isSigned a).tdiv (value it.isSigned b) := by
        rw [hs, value_signed, value_signed, ha, hb1, Int.tdiv_neg, Int.tdiv_one]
        have hlo : lowest true (intClty it).bits ≤ 0 := lowest_nonpos
        omega
      rw [if_pos rfl, value_max, DivOp.exact, clamp_of_not_fits h, if_pos hpos]
    | rem =>
      have hrem : (value it.isSigned a).tmod (value it.isSigned b) = 0 := by
        rw [hs, value_signed, value_signed, hb1, Int.tmod_neg, Int.tmod_one]
      rw [if_neg (by decide), value_zero, DivOp.exact, hrem,
        clamp_of_fits ⟨lowest_nonpos, highest_nonneg⟩]

theorem divrem_zero_traps (it : IntTy) (family : Family) (op : DivOp) (a b : Word it)
    (hb : value it.isSigned b = 0) :
    if family = .checked then emitIntArith it family (.divrem op a b) = .ok (.checked none)
    else Traps (emitIntArith it family (.divrem op a b)) := by
  have hzero : (b == iconst (intClty it).bits 0) = true := by
    rw [beq_iff_eq, eq_zero, hb]
  by_cases hfamily : family = .checked
  · obtain ⟨x, hok⟩ := divremOp_one it op a
    rw [if_pos hfamily, hfamily]
    simp only [emitIntArith, genIntArithDivrem, hzero, select, if_true, hok, Bool.or_true]
    rfl
  · rw [if_neg hfamily]
    refine ⟨.panic "divide by zero", ?_⟩
    simp only [emitIntArith, genIntArithDivrem, hzero, guardWhen, guardPanic, ne_eq, hfamily,
      not_false_eq_true, decide_true, if_true]
    rfl

/-! ## Negation -/

theorem eq_min (it : IntTy) (a : Word it) :
    a = iconst _ (intMinMax it).1 ↔ value it.isSigned a = lowest it.isSigned (intClty it).bits := by
  rw [← value_min]
  exact ⟨fun h => congrArg _ h, value_injective⟩

theorem neg_fits (a : BitVec w) :
    Fits signed w (-value signed a) ↔
      ¬if signed then value signed a = lowest signed w else value signed a ≠ 0 := by
  have ha : Fits signed w (value signed a) := value_fits a
  cases signed with
  | true =>
    have hlo : lowest true w = -2 ^ (w - 1) := rfl
    rw [fits_signed] at ha ⊢
    rw [if_pos rfl, hlo]
    omega
  | false =>
    rw [fits_unsigned] at ha ⊢
    rw [if_neg Bool.false_ne_true]
    omega

theorem neg_promised (it : IntTy) (family : Family) (a : Word it) :
    ArithPromised it.isSigned (-value it.isSigned a)
      (¬Fits it.isSigned (intClty it).bits (-value it.isSigned a)) family
      (genIntArithNeg it family a) := by
  have hw := width_pos it
  have hlo : lowest it.isSigned (intClty it).bits ≤ 0 := lowest_nonpos
  have ha := @value_fits _ it.isSigned a
  simp only [genIntArithNeg, @neg_exact _ it.isSigned a]
  refine packageIntArith_promised hw ?_ (fun h => not_not.mp h) (fun h => ?_) family
  · rw [neg_fits, not_not]
    cases hs : it.isSigned with
    | true =>
      rw [if_pos rfl, if_pos rfl, beq_iff_eq, eq_min, hs]
    | false =>
      rw [if_neg Bool.false_ne_true, if_neg Bool.false_ne_true, bne_iff_ne, ne_eq,
        @eq_zero _ false]
  · rw [clamp_of_not_fits h]
    rw [neg_fits, not_not] at h
    cases hs : it.isSigned with
    | true =>
      rw [hs, if_pos rfl] at h
      rw [hs] at hlo
      rw [if_pos rfl, if_pos (by omega), ← hs, value_max]
    | false =>
      rw [hs, if_neg Bool.false_ne_true] at h
      rw [hs, fits_unsigned] at ha
      rw [if_neg Bool.false_ne_true, if_neg (by omega), value_zero]
      rfl

/-! ## Shifts -/

theorem shiftOp_exact {v : Nat} (op : ShiftOp) (a : BitVec w) (amount : BitVec v) :
    shiftOp op signed a amount = shifted signed op a (amount.toNat % w) := by
  cases op with
  | shl => exact shl_exact a _
  | shr =>
    cases signed with
    | true => exact sshr_exact a _
    | false => exact ushr_exact a _

theorem count_mod (it : IntTy) (count : BitVec 32) :
    (count.setWidth (intClty it).bits).toNat % (intClty it).bits =
      count.toNat % (intClty it).bits := by
  rw [BitVec.toNat_setWidth]
  cases it <;> simp only [intClty, ClType.bits] <;> omega

theorem cap_mod (it : IntTy) :
    (iconst (intClty it).bits ((intClty it).bits - 1)).toNat % (intClty it).bits =
      (intClty it).bits - 1 := by
  cases it <;> decide

/-- The comparison of a count with a width that its type can hold. -/
theorem iconst_ule {v n : Nat} (hn : n < 2 ^ v) (count : BitVec v) :
    (iconst v n).ule count = decide (n ≤ count.toNat) := by
  rw [BitVec.ule, iconst, BitVec.ofInt_natCast, BitVec.toNat_ofNat, Nat.mod_eq_of_lt hn]

theorem width_lt (it : IntTy) : (intClty it).bits < 2 ^ 32 := by
  cases it <;> decide

theorem genIntArithShift_eq (it : IntTy) (family : Family) (op : ShiftOp) (a : Word it)
    (count : BitVec 32) :
    genIntArithShift it family op a count =
      packageIntArith family (shifted it.isSigned op a (count.toNat % (intClty it).bits))
        (decide ((intClty it).bits ≤ count.toNat))
        (shifted it.isSigned op a ((intClty it).bits - 1)) := by
  simp only [genIntArithShift, shiftOp_exact, count_mod, cap_mod, iconst_ule (width_lt it)]

theorem shift_promised (it : IntTy) (family : Family) (op : ShiftOp) (a : Word it)
    (count : BitVec 32) :
    ShiftPromised it.isSigned op a count.toNat family (genIntArithShift it family op a count) := by
  have hw := width_pos it
  rw [genIntArithShift_eq]
  cases family with
  | wrapping => rfl
  | saturating =>
    by_cases h : (intClty it).bits ≤ count.toNat
    · rw [ShiftPromised, Nat.min_eq_right (by omega), packageIntArith, select,
        if_pos (decide_eq_true h)]
    · rw [ShiftPromised, Nat.min_eq_left (by omega), packageIntArith, select,
        if_neg (by simpa using h), Nat.mod_eq_of_lt (by omega)]
  | checked =>
    rw [ShiftPromised, packageIntArith]
    simp only [decide_eq_true_eq]
  | overflowing => rfl

/-! ## The plain operators of a debug build -/

/-- A value, or a panic where the flag of the checked method is set. -/
theorem plainAgrees_of_flag {ovf : Bool} {msg : String} {x : BitVec w} {plain : Code (BitVec w)}
    (hplain : plain = if ovf then .error (.panic msg) else .ok x) :
    PlainAgrees plain (.ok (.checked (if ovf then none else some x))) := by
  subst hplain
  cases ovf with
  | true => simp [PlainAgrees, Traps]
  | false => simp [PlainAgrees, Traps]

theorem emitBinop_addsubmul (op : ArithOp) (a b : BitVec w) :
    emitBinop false (.addsubmul op) signed a b =
      if (overflowOp op signed a b).2 then
        .error (.panic ("attempt to " ++ op.what ++ " with overflow"))
      else .ok (overflowOp op signed a b).1 := by
  simp only [emitBinop, checkedArith, guardPanic]
  cases (overflowOp op signed a b).2 <;> rfl

theorem plain_addsubmul_agrees (it : IntTy) (op : ArithOp) (a b : Word it) :
    PlainAgrees (emitBinop false (.addsubmul op) it.isSigned a b)
      (emitIntArith it .checked (.addsubmul op a b)) :=
  plainAgrees_of_flag (emitBinop_addsubmul op a b)

/-- In a debug build both guards stand before the instruction. -/
theorem emitBinop_divrem (op : DivOp) (a b : BitVec w) :
    emitBinop false (.divrem op) signed a b = (do
      guardNonzero b
      guardWhen signed (guardDivOverflow a b)
      divremOp op signed a b) := by
  simp only [emitBinop, genSignedDiv, genSignedRem, Bool.not_false, Bool.and_true, if_true]
  cases op <;> cases signed <;> rfl

theorem plain_divrem_agrees (it : IntTy) (op : DivOp) (a b : Word it) :
    PlainAgrees (emitBinop false (.divrem op) it.isSigned a b)
      (emitIntArith it .checked (.divrem op a b)) := by
  rw [emitBinop_divrem, guardNonzero]
  by_cases hb : value it.isSigned b = 0
  · have hnull := divrem_zero_traps it .checked op a b hb
    rw [if_pos rfl] at hnull
    rw [hnull, beq_iff_eq.mpr ((eq_zero b).mpr hb)]
    exact @plainAgrees_of_flag _ true _ b _ rfl
  · have hne : (b == iconst (intClty it).bits 0) = false := by
      rw [beq_eq_false_iff_ne, ne_eq, eq_zero]
      exact hb
    rw [emitIntArith, genIntArithDivrem_eq it .checked op a b hb, hne]
    apply @plainAgrees_of_flag _ _ "attempt to divide with overflow"
    cases ho : it.isSigned && (divOverflowSelect a b).1 with
    | true =>
      rw [Bool.and_eq_true] at ho
      have hguard : guardDivOverflow a b = .error (.panic "attempt to divide with overflow") := by
        rw [guardDivOverflow]
        exact if_pos ho.2
      rw [ho.1, guardWhen, if_pos rfl, hguard]
      rfl
    | false =>
      have hguard : guardWhen it.isSigned (guardDivOverflow a b) = .ok () := by
        cases hs : it.isSigned with
        | true =>
          rw [hs, Bool.true_and] at ho
          rw [guardWhen, if_pos rfl, guardDivOverflow]
          exact if_neg (Bool.not_eq_true _ ▸ ho)
        | false => rfl
      rw [hguard, divremOp_ok (width_pos it) op a b hb (quotient_fits it a b ho)]
      rfl

theorem emitBinop_shift (op : ShiftOp) (a b : BitVec w) :
    emitBinop false (.shift op) signed a b =
      if (iconst w w).ule b then .error (.panic "shift amount >= bit width")
      else .ok (shiftOp op signed a b) := by
  cases op with
  | shl =>
    simp only [emitBinop, guardShift, guardPanic]
    cases (iconst w w).ule b <;> rfl
  | shr =>
    simp only [emitBinop, guardShift, guardPanic]
    cases (iconst w w).ule b <;> cases signed <;> rfl

theorem plain_shift_agrees (it : IntTy) (op : ShiftOp) (a b : Word it) (count : BitVec 32)
    (hcount : count.toNat = b.toNat) :
    PlainAgrees (emitBinop false (.shift op) it.isSigned a b)
      (emitIntArith it .checked (.shift op a count)) := by
  rw [emitIntArith, genIntArithShift_eq, hcount]
  apply @plainAgrees_of_flag _ _ "shift amount >= bit width"
  rw [emitBinop_shift, shiftOp_exact, iconst_ule Nat.lt_two_pow_self]

theorem plain_shift_wide_traps (it : IntTy) (op : ShiftOp) (a b : Word it) (hb : 2 ^ 32 ≤ b.toNat) :
    Traps (emitBinop false (.shift op) it.isSigned a b) := by
  have hwide : (intClty it).bits ≤ b.toNat := le_trans (Nat.le_of_lt (width_lt it)) hb
  refine ⟨.panic "shift amount >= bit width", ?_⟩
  rw [emitBinop_shift, iconst_ule Nat.lt_two_pow_self, if_pos (decide_eq_true hwide)]

/-! ## Every type -/

/-- The families of every type are exact where a remainder counts as an overflow when the quotient
does not fit. -/
theorem families_exact (it : IntTy) :
    FamiliesExact it (fun _ a b => ¬Fits it.isSigned (intClty it).bits (a.tdiv b)) where
  addsubmul family op a b := ⟨_, rfl, addsubmul_promised it family op a b⟩
  divrem family op a b hb := divrem_promised it family op a b hb
  divrem_zero family op a b hb := divrem_zero_traps it family op a b hb
  neg family a := ⟨_, rfl, neg_promised it family a⟩
  shift family op a count := ⟨_, rfl, shift_promised it family op a count⟩
  plain_addsubmul := plain_addsubmul_agrees it
  plain_divrem := plain_divrem_agrees it
  plain_shift := plain_shift_agrees it
  plain_shift_wide := plain_shift_wide_traps it

/-- The remainder of the smallest `i8` by `-1` is zero, which fits, and the checked method leaves
`null`. -/
theorem min_rem_neg_one :
    ¬FamiliesExact .i8 (fun op a b => ¬Fits true 8 (op.exact a b)) := by
  intro h
  obtain ⟨r, hr, hpromise⟩ := h.divrem .checked .rem (BitVec.ofInt 8 (-128)) (BitVec.ofInt 8 (-1))
    (by decide)
  have hnull : emitIntArith .i8 .checked
      (.divrem .rem (BitVec.ofInt 8 (-128)) (BitVec.ofInt 8 (-1))) = .ok (.checked none) := rfl
  rw [hnull] at hr
  cases hr
  rcases hpromise with ⟨hover, _⟩ | ⟨_, x, hx, _⟩
  · exact hover (by decide)
  · cases hx

end backend.intArith
