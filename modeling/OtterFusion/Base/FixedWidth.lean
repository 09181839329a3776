-- Words of a fixed width read as signed or unsigned numbers: the range, a number brought into it
-- by wrapping or by clamping, and what the overflow flags of a word operation say about the exact
-- result.
import Mathlib.Algebra.Order.Ring.Int
import Mathlib.Algebra.Order.Ring.Nat

namespace base.fixedWidth

/-- The number that a word stands for. -/
def value {w : Nat} (signed : Bool) (x : BitVec w) : Int := if signed then x.toInt else x.toNat

/-- The smallest number of the range. -/
def lowest (signed : Bool) (w : Nat) : Int := if signed then -2 ^ (w - 1) else 0

/-- The greatest number of the range. -/
def highest (signed : Bool) (w : Nat) : Int := if signed then 2 ^ (w - 1) - 1 else 2 ^ w - 1

/-- A number of the range. -/
def Fits (signed : Bool) (w : Nat) (n : Int) : Prop := lowest signed w ≤ n ∧ n ≤ highest signed w

instance (signed : Bool) (w : Nat) (n : Int) : Decidable (Fits signed w n) :=
  inferInstanceAs (Decidable (_ ∧ _))

/-- The number of the range that is closest. -/
def clamp (signed : Bool) (w : Nat) (n : Int) : Int :=
  if n < lowest signed w then lowest signed w
  else if highest signed w < n then highest signed w else n

variable {w : Nat} {signed : Bool}

@[simp] theorem value_signed (x : BitVec w) : value true x = x.toInt := rfl

@[simp] theorem value_unsigned (x : BitVec w) : value false x = x.toNat := rfl

/-! ## The range -/

theorem two_pow_pos (n : Nat) : (0 : Int) < 2 ^ n := Int.pow_pos (by decide)

theorem natCast_two_pow (n : Nat) : ((2 ^ n : Nat) : Int) = 2 ^ n := by simp

theorem lowest_nonpos : lowest signed w ≤ 0 := by
  have hpos := two_pow_pos (w - 1)
  cases signed <;> simp [lowest]

theorem highest_nonneg : 0 ≤ highest signed w := by
  have hw := two_pow_pos w
  have hw' := two_pow_pos (w - 1)
  cases signed <;> simp [highest] <;> omega

theorem fits_signed {n : Int} : Fits true w n ↔ -2 ^ (w - 1) ≤ n ∧ n < 2 ^ (w - 1) := by
  simp only [Fits, lowest, highest, if_true]
  omega

theorem fits_unsigned {n : Int} : Fits false w n ↔ 0 ≤ n ∧ n < 2 ^ w := by
  simp only [Fits, lowest, highest, Bool.false_eq_true, if_false]
  omega

theorem value_fits (x : BitVec w) : Fits signed w (value signed x) := by
  cases signed with
  | true =>
    rw [fits_signed]
    exact ⟨x.le_toInt, x.toInt_lt⟩
  | false =>
    rw [fits_unsigned]
    have hlt : (x.toNat : Int) < ((2 ^ w : Nat) : Int) := Int.ofNat_lt.mpr x.isLt
    simp at hlt ⊢
    exact hlt

theorem clamp_of_fits {n : Int} (h : Fits signed w n) : clamp signed w n = n := by
  obtain ⟨hlo, hhi⟩ := h
  rw [clamp, if_neg (by omega), if_neg (by omega)]

/-- A number out of the range is clamped to the end on its side of zero. -/
theorem clamp_of_not_fits {n : Int} (h : ¬Fits signed w n) :
    clamp signed w n = if 0 ≤ n then highest signed w else lowest signed w := by
  have hlo : lowest signed w ≤ 0 := lowest_nonpos
  have hhi : 0 ≤ highest signed w := highest_nonneg
  simp only [Fits, not_and, Int.not_le] at h
  by_cases hn : 0 ≤ n
  · rw [clamp, if_neg (by omega), if_pos (h (by omega)), if_pos hn]
  · rw [clamp, if_pos (by omega), if_neg hn]

/-! ## Numbers and words -/

theorem ofInt_value (x : BitVec w) : BitVec.ofInt w (value signed x) = x := by
  cases signed <;> simp

theorem value_injective {x y : BitVec w} (h : value signed x = value signed y) : x = y := by
  rw [← @ofInt_value w signed x, h, ofInt_value]

/-- A number of the range is the number of its word. -/
theorem value_ofInt (hw : 0 < w) {n : Int} (h : Fits signed w n) :
    value signed (BitVec.ofInt w n) = n := by
  cases signed with
  | true =>
    rw [fits_signed] at h
    exact BitVec.toInt_ofInt_eq_self hw h.1 h.2
  | false =>
    rw [fits_unsigned] at h
    have hmod : n % ((2 ^ w : Nat) : Int) = n := Int.emod_eq_of_lt h.1 (by simpa using h.2)
    rw [value_unsigned, BitVec.toNat_ofInt, hmod]
    omega

/-! ## Exact results -/

section
variable (x y : BitVec w)

theorem add_exact : x + y = BitVec.ofInt w (value signed x + value signed y) := by
  rw [BitVec.ofInt_add, ofInt_value, ofInt_value]

theorem neg_exact : -x = BitVec.ofInt w (-value signed x) := by
  rw [BitVec.ofInt_neg, ofInt_value]

theorem sub_exact : x - y = BitVec.ofInt w (value signed x - value signed y) := by
  rw [Int.sub_eq_add_neg, BitVec.ofInt_add, BitVec.ofInt_neg, ofInt_value, ofInt_value,
    BitVec.sub_eq_add_neg]

theorem mul_exact : x * y = BitVec.ofInt w (value signed x * value signed y) := by
  rw [BitVec.ofInt_mul, ofInt_value, ofInt_value]

theorem sdiv_exact : x.sdiv y = BitVec.ofInt w (x.toInt.tdiv y.toInt) := by
  apply BitVec.eq_of_toInt_eq
  rw [BitVec.toInt_sdiv, BitVec.toInt_ofInt]

theorem srem_exact : x.srem y = BitVec.ofInt w (x.toInt.tmod y.toInt) := by
  rw [← BitVec.toInt_srem, BitVec.ofInt_toInt]

theorem udiv_exact : x / y = BitVec.ofInt w ((x.toNat : Int).tdiv y.toNat) := by
  apply BitVec.eq_of_toNat_eq
  have hdiv : (x.toNat : Int).tdiv y.toNat = ((x.toNat / y.toNat : Nat) : Int) := rfl
  have hlt : x.toNat / y.toNat < 2 ^ w := Nat.lt_of_le_of_lt (Nat.div_le_self _ _) x.isLt
  rw [hdiv, BitVec.ofInt_natCast, BitVec.toNat_ofNat, Nat.mod_eq_of_lt hlt, BitVec.toNat_udiv]

theorem umod_exact : x % y = BitVec.ofInt w ((x.toNat : Int).tmod y.toNat) := by
  apply BitVec.eq_of_toNat_eq
  have hmod : (x.toNat : Int).tmod y.toNat = ((x.toNat % y.toNat : Nat) : Int) := rfl
  have hlt : x.toNat % y.toNat < 2 ^ w := Nat.lt_of_le_of_lt (Nat.mod_le _ _) x.isLt
  rw [hmod, BitVec.ofInt_natCast, BitVec.toNat_ofNat, Nat.mod_eq_of_lt hlt, BitVec.toNat_umod]

theorem shl_exact (k : Nat) : x <<< k = BitVec.ofInt w (value signed x * 2 ^ k) := by
  have hpow : BitVec.ofInt w (2 ^ k) = BitVec.twoPow w k := by
    apply BitVec.eq_of_toNat_eq
    rw [BitVec.toNat_twoPow, ← natCast_two_pow, BitVec.ofInt_natCast, BitVec.toNat_ofNat]
  rw [BitVec.ofInt_mul, ofInt_value, hpow, BitVec.shiftLeft_eq_mul_twoPow]

theorem sshr_exact (k : Nat) : x.sshiftRight k = BitVec.ofInt w (x.toInt / 2 ^ k) := by
  rw [← natCast_two_pow, ← Int.shiftRight_eq_div_pow, ← BitVec.toInt_sshiftRight,
    BitVec.ofInt_toInt]

theorem ushr_exact (k : Nat) : x >>> k = BitVec.ofInt w ((x.toNat : Int) / 2 ^ k) := by
  have hdiv : (x.toNat : Int) / 2 ^ k = ((x.toNat / 2 ^ k : Nat) : Int) := by simp
  have hlt : x.toNat / 2 ^ k < 2 ^ w := Nat.lt_of_le_of_lt (Nat.div_le_self _ _) x.isLt
  apply BitVec.eq_of_toNat_eq
  rw [hdiv, BitVec.ofInt_natCast, BitVec.toNat_ofNat, Nat.mod_eq_of_lt hlt,
    BitVec.toNat_ushiftRight,
    Nat.shiftRight_eq_div_pow]

/-! ## Overflow flags -/

theorem saddOverflow_iff : x.saddOverflow y = true ↔ ¬Fits true w (x.toInt + y.toInt) := by
  simp [BitVec.saddOverflow, fits_signed]
  omega

theorem ssubOverflow_iff : x.ssubOverflow y = true ↔ ¬Fits true w (x.toInt - y.toInt) := by
  simp [BitVec.ssubOverflow, fits_signed]
  omega

theorem smulOverflow_iff : x.smulOverflow y = true ↔ ¬Fits true w (x.toInt * y.toInt) := by
  simp [BitVec.smulOverflow, fits_signed]
  omega

/-- A natural number and the unsigned range. -/
theorem fits_natCast {n : Nat} : Fits false w n ↔ n < 2 ^ w := by
  rw [fits_unsigned, ← natCast_two_pow]
  omega

theorem uaddOverflow_iff : x.uaddOverflow y = true ↔ ¬Fits false w ((x.toNat : Int) + y.toNat) := by
  rw [← Int.natCast_add, fits_natCast]
  simp [BitVec.uaddOverflow]

theorem usubOverflow_iff : x.usubOverflow y = true ↔ ¬Fits false w ((x.toNat : Int) - y.toNat) := by
  have hx : Fits false w (value false x) := value_fits x
  rw [value_unsigned, fits_unsigned] at hx
  simp [BitVec.usubOverflow, fits_unsigned]
  omega

theorem umulOverflow_iff : x.umulOverflow y = true ↔ ¬Fits false w ((x.toNat : Int) * y.toNat) := by
  rw [← Int.natCast_mul, fits_natCast]
  simp [BitVec.umulOverflow]

end

/-- The one quotient that does not fit is that of the smallest number by `-1`. -/
theorem tdiv_fits (hw : 0 < w) (x y : BitVec w) :
    Fits true w (x.toInt.tdiv y.toInt) ↔ ¬(x.toInt = lowest true w ∧ y.toInt = -1) := by
  constructor
  · rintro hfits ⟨hx, hy⟩
    rw [hx, hy, Int.tdiv_neg, Int.tdiv_one, fits_signed] at hfits
    simp [lowest] at hfits
  · intro h
    have hne : x ≠ BitVec.intMin w ∨ y ≠ -1#w := by
      by_contra hboth
      simp only [not_or, not_not] at hboth
      refine h ⟨?_, ?_⟩
      · rw [hboth.1, BitVec.toInt_intMin_of_pos hw]
        rfl
      · rw [hboth.2, BitVec.neg_one_eq_allOnes, BitVec.toInt_allOnes, if_pos hw]
    have hfits : Fits true w (value true (x.sdiv y)) := value_fits _
    rw [value_signed, BitVec.toInt_sdiv_of_ne_or_ne x y hne] at hfits
    exact hfits

/-- A remainder always fits. -/
theorem tmod_fits (x y : BitVec w) : Fits true w (x.toInt.tmod y.toInt) := by
  have hfits : Fits true w (value true (x.srem y)) := value_fits _
  rw [value_signed, BitVec.toInt_srem] at hfits
  exact hfits

theorem toNat_tdiv_fits (x y : BitVec w) : Fits false w ((x.toNat : Int).tdiv y.toNat) := by
  have hdiv : (x.toNat : Int).tdiv y.toNat = ((x.toNat / y.toNat : Nat) : Int) := rfl
  rw [hdiv, fits_natCast]
  exact Nat.lt_of_le_of_lt (Nat.div_le_self _ _) x.isLt

theorem toNat_tmod_fits (x y : BitVec w) : Fits false w ((x.toNat : Int).tmod y.toNat) := by
  have hmod : (x.toNat : Int).tmod y.toNat = ((x.toNat % y.toNat : Nat) : Int) := rfl
  rw [hmod, fits_natCast]
  exact Nat.lt_of_le_of_lt (Nat.mod_le _ _) x.isLt

end base.fixedWidth
