-- The cast of an integer to a `char` (`gen_cast.rs`): the value is brought to 32 bits first and
-- looked at afterwards, so that what the upper half of a wider value held is not seen.
import OtterFusion.Backend.IntArithExact

open compiler.sema base.fixedWidth

namespace backend.intArith

variable {w : Nat}

/-! ## The cast -/

/-- `resize_int`: the value with `toc` bits. A narrower value is extended as its type says. -/
def resizeInt (v : BitVec w) (signed : Bool) (toc : Nat) : BitVec toc :=
  if w < toc then if signed then v.signExtend toc else v.zeroExtend toc
  else v.setWidth toc

/-- `guard_valid_char`. -/
def guardValidChar (cp : BitVec 32) : Code Unit := do
  let max := iconst 32 0x10FFFF
  guardPanic (max.ult cp) "cast to char is out of the Unicode range"
  let lo := iconst 32 0xD800
  let hi := iconst 32 0xDFFF
  guardPanic (lo.ule cp && cp.ule hi) "cast to char is a surrogate code point"

/-- The cast of an integer to a `char`, from `emit_cast`. -/
def castToChar (it : IntTy) (v : Word it) : Code (BitVec 32) := do
  let cp := resizeInt v it.isSigned 32
  guardValidChar cp
  return cp

/-! ## Scalar values -/

/-- A Unicode scalar value. -/
def IsScalar (n : Int) : Prop := 0 ≤ n ∧ n ≤ 0x10FFFF ∧ ¬(0xD800 ≤ n ∧ n ≤ 0xDFFF)

instance (n : Int) : Decidable (IsScalar n) := inferInstanceAs (Decidable (_ ∧ _ ∧ ¬_))

/-- The cast leaves the scalar of a scalar value, and traps on every other value. -/
def CastExact (it : IntTy) (v : Word it) : Prop :=
  (IsScalar (value it.isSigned v) →
      castToChar it v = .ok (BitVec.ofInt 32 (value it.isSigned v))) ∧
    (¬IsScalar (value it.isSigned v) → Traps (castToChar it v))

theorem resizeInt_exact (v : BitVec w) (signed : Bool) (toc : Nat) :
    resizeInt v signed toc = BitVec.ofInt toc (value signed v) := by
  cases signed with
  | true =>
    by_cases h : w < toc
    · rw [resizeInt, if_pos h, if_pos rfl]
      rfl
    · rw [resizeInt, if_neg h, ← BitVec.signExtend_eq_setWidth_of_le v (Nat.le_of_not_lt h)]
      rfl
  | false =>
    have hwidth : resizeInt v false toc = v.setWidth toc := by
      simp [resizeInt]
    rw [hwidth, value_unsigned, BitVec.ofInt_natCast]
    apply BitVec.eq_of_toNat_eq
    rw [BitVec.toNat_setWidth, BitVec.toNat_ofNat]

/-- The guards let a scalar value through, and stop at every other one. -/
theorem guardValidChar_cases (cp : BitVec 32) :
    (IsScalar cp.toNat ∧ guardValidChar cp = .ok ()) ∨
      (¬IsScalar cp.toNat ∧ Traps (guardValidChar cp)) := by
  have hmax : (iconst 32 0x10FFFF).ult cp = decide (0x10FFFF < cp.toNat) := rfl
  have hlo : (iconst 32 0xD800).ule cp = decide (0xD800 ≤ cp.toNat) := rfl
  have hhi : cp.ule (iconst 32 0xDFFF) = decide (cp.toNat ≤ 0xDFFF) := rfl
  simp only [guardValidChar, hmax, hlo, hhi, IsScalar, ← Bool.decide_and]
  by_cases hbig : 0x10FFFF < cp.toNat
  · right
    refine ⟨by omega, .panic "cast to char is out of the Unicode range", ?_⟩
    simp only [hbig, decide_true, guardPanic, if_true]
    rfl
  · by_cases hsurrogate : 0xD800 ≤ cp.toNat ∧ cp.toNat ≤ 0xDFFF
    · right
      refine ⟨by omega, .panic "cast to char is a surrogate code point", ?_⟩
      simp only [hbig, hsurrogate, decide_true, guardPanic, if_true, and_self, decide_false]
      rfl
    · left
      refine ⟨by omega, ?_⟩
      simp only [hbig, hsurrogate, guardPanic, decide_false]
      rfl

/-- The cast is decided by the resized value alone. -/
theorem castToChar_cases (it : IntTy) (v : Word it) :
    (IsScalar (BitVec.ofInt 32 (value it.isSigned v)).toNat ∧
        castToChar it v = .ok (BitVec.ofInt 32 (value it.isSigned v))) ∨
      (¬IsScalar (BitVec.ofInt 32 (value it.isSigned v)).toNat ∧ Traps (castToChar it v)) := by
  simp only [castToChar, resizeInt_exact]
  rcases guardValidChar_cases (BitVec.ofInt 32 (value it.isSigned v)) with ⟨hs, hok⟩
    | ⟨hs, trap, htrap⟩
  · left
    rw [hok]
    exact ⟨hs, rfl⟩
  · right
    rw [htrap]
    exact ⟨hs, trap, rfl⟩

theorem IsScalar.fits {n : Int} (h : IsScalar n) : Fits false 32 n := by
  rw [fits_unsigned]
  obtain ⟨h0, hmax, _⟩ := h
  omega

theorem toNat_ofInt_of_fits {n : Int} (h : Fits false 32 n) :
    ((BitVec.ofInt 32 n).toNat : Int) = n :=
  @value_ofInt 32 false (by decide) n h

/-- The cast is exact unless the value is no scalar and its resized value is one. -/
theorem castExact_iff_resized (it : IntTy) (v : Word it) :
    CastExact it v ↔ IsScalar (value it.isSigned v) ∨
      ¬IsScalar (BitVec.ofInt 32 (value it.isSigned v)).toNat := by
  rcases castToChar_cases it v with ⟨hs, hok⟩ | ⟨hs, htrap⟩
  · constructor
    · intro hexact
      left
      by_contra hn
      obtain ⟨trap, htrap⟩ := hexact.2 hn
      rw [hok] at htrap
      cases htrap
    · intro h
      have hscalar := h.resolve_right (not_not.mpr hs)
      exact ⟨fun _ => hok, fun hn => absurd hscalar hn⟩
  · constructor
    · intro _
      exact .inr hs
    · intro _
      refine ⟨fun hscalar => absurd ?_ hs, fun _ => htrap⟩
      rw [toNat_ofInt_of_fits hscalar.fits]
      exact hscalar

theorem narrow_range (it : IntTy) (v : Word it) (hw : (intClty it).bits ≤ 32) :
    -2 ^ 31 ≤ value it.isSigned v ∧ value it.isSigned v < 2 ^ 32 := by
  obtain ⟨hlo, hhi⟩ := @value_fits _ it.isSigned v
  have hends : -2 ^ 31 ≤ lowest it.isSigned (intClty it).bits ∧
      highest it.isSigned (intClty it).bits < 2 ^ 32 := by
    revert hw
    cases it <;> decide
  omega

/-- A value of at most 32 bits whose resized value is a scalar is that scalar. -/
theorem narrow_scalar (it : IntTy) (v : Word it) (hw : (intClty it).bits ≤ 32)
    (h : IsScalar (BitVec.ofInt 32 (value it.isSigned v)).toNat) :
    IsScalar (value it.isSigned v) := by
  obtain ⟨hlo, hhi⟩ := narrow_range it v hw
  generalize value it.isSigned v = n at h hlo hhi
  by_cases hn : 0 ≤ n
  · rw [toNat_ofInt_of_fits (fits_unsigned.mpr ⟨hn, hhi⟩)] at h
    exact h
  · exfalso
    obtain ⟨_, hmax, _⟩ := h
    rw [BitVec.toNat_ofInt] at hmax
    omega

/-- The cast is exact for a value of at most 32 bits, a value that 32 unsigned bits hold, and a
value whose lower 32 bits are no scalar value. -/
theorem castToChar_exact_iff (it : IntTy) (v : Word it) :
    CastExact it v ↔ (intClty it).bits ≤ 32 ∨ Fits false 32 (value it.isSigned v) ∨
      ¬IsScalar (v.setWidth 32).toNat := by
  rw [castExact_iff_resized]
  by_cases hw : (intClty it).bits ≤ 32
  · have hscalar := narrow_scalar it v hw
    constructor
    · intro _
      exact .inl hw
    · intro _
      by_cases h : IsScalar (BitVec.ofInt 32 (value it.isSigned v)).toNat
      · exact .inl (hscalar h)
      · exact .inr h
  · have hlow : BitVec.ofInt 32 (value it.isSigned v) = v.setWidth 32 := by
      rw [← resizeInt_exact, resizeInt, if_neg (by omega)]
    rw [hlow]
    constructor
    · rintro (hscalar | hlow)
      · exact .inr (.inl hscalar.fits)
      · exact .inr (.inr hlow)
    · rintro (hle | hfits | hno)
      · exact absurd hle hw
      · by_cases h : IsScalar (v.setWidth 32).toNat
        · left
          rw [← hlow, toNat_ofInt_of_fits hfits] at h
          exact h
        · exact .inr h
      · exact .inr hno

/-- The `i64` with an `A` in its lower half and a one above is cast to `A`. -/
theorem wide_is_A : ¬∀ (it : IntTy) (v : Word it), CastExact it v := by
  intro h
  obtain ⟨trap, htrap⟩ := (h .i64 (BitVec.ofInt 64 0x100000041)).2 (by decide)
  have hok : castToChar .i64 (BitVec.ofInt 64 0x100000041) = .ok (BitVec.ofNat 32 0x41) := rfl
  rw [hok] at htrap
  cases htrap

end backend.intArith
