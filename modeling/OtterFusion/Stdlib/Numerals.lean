-- Numbers as text: `as str` of an integer, and the number of a text of digits.
import Mathlib.Tactic.Positivity
import OtterFusion.Stdlib.NetTypes

open stdlib.net (decimal)

namespace stdlib

/-! ## Digits -/

theorem isDigit_iff (c : Char) : c.isDigit = true ↔ 48 ≤ codePoint c ∧ codePoint c ≤ 57 := by
  unfold Char.isDigit codePoint
  rw [Bool.and_eq_true, decide_eq_true_eq, decide_eq_true_eq, ge_iff_le, UInt32.le_iff_toNat_le,
    UInt32.le_iff_toNat_le]
  show 48 ≤ c.toNat ∧ c.toNat ≤ 57 ↔ _
  omega

/-- The number of a text of digits, after the number of the digits before. -/
def numeral (ds : Text) (value : Int) : Int :=
  ds.foldl (fun value c => value * 10 + ((c.toNat : Int) - 48)) value

theorem numeral_ofDigitChars {ds : Text} (hds : ∀ c ∈ ds, c.isDigit = true) (value : Nat) :
    numeral ds value = (Nat.ofDigitChars 10 ds value : Int) := by
  induction ds generalizing value with
  | nil => rfl
  | cons c ds ih =>
    have hc := (isDigit_iff c).mp (hds c (List.mem_cons_self ..))
    unfold codePoint at hc
    rw [Nat.ofDigitChars_cons, ← ih fun d hd => hds d (List.mem_cons_of_mem _ hd)]
    show numeral ds _ = numeral ds _
    congr 1
    show (value : Int) * 10 + ((c.toNat : Int) - 48) = ((10 * value + (c.toNat - 48) : Nat) : Int)
    omega

/-- More digits make a number no less. -/
theorem numeral_ge {ds : Text} (hds : ∀ c ∈ ds, c.isDigit = true) {value : Int}
    (hvalue : 0 ≤ value) :
    value ≤ numeral ds value := by
  induction ds generalizing value with
  | nil => exact Int.le_refl _
  | cons c ds ih =>
    have hc := (isDigit_iff c).mp (hds c (List.mem_cons_self ..))
    unfold codePoint at hc
    have hrest := ih (fun d hd => hds d (List.mem_cons_of_mem _ hd))
      (show 0 ≤ value * 10 + ((c.toNat : Int) - 48) by omega)
    exact Int.le_trans (by omega) hrest

theorem numeral_bounds {ds : Text} (hds : ∀ c ∈ ds, c.isDigit = true) {value : Int}
    (hvalue : 0 ≤ value) :
    0 ≤ numeral ds value ∧ numeral ds value < (value + 1) * 10 ^ ds.length := by
  induction ds generalizing value with
  | nil =>
    rw [List.length_nil, pow_zero, Int.mul_one]
    exact ⟨hvalue, Int.lt_succ value⟩
  | cons c ds ih =>
    have hc := (isDigit_iff c).mp (hds c (List.mem_cons_self ..))
    unfold codePoint at hc
    obtain ⟨hlo, hhi⟩ := ih (fun d hd => hds d (List.mem_cons_of_mem _ hd))
      (show 0 ≤ value * 10 + ((c.toNat : Int) - 48) by omega)
    refine ⟨hlo, Int.lt_of_lt_of_le hhi ?_⟩
    rw [List.length_cons, pow_succ', ← Int.mul_assoc]
    exact Int.mul_le_mul_of_nonneg_right (by omega) (by positivity)

/-- The value of a hexadecimal digit. -/
def hexNumber (c : Char) : Option Int :=
  if '0' ≤ c ∧ c ≤ '9' then some ((c.toNat : Int) - 48)
  else if 'A' ≤ c ∧ c ≤ 'F' then some ((c.toNat : Int) - 55)
  else if 'a' ≤ c ∧ c ≤ 'f' then some ((c.toNat : Int) - 87)
  else none

/-- The digits by their code points. -/
theorem hexNumber_eq (c : Char) : hexNumber c =
    if 48 ≤ codePoint c ∧ codePoint c ≤ 57 then some (codePoint c - 48)
    else if 65 ≤ codePoint c ∧ codePoint c ≤ 70 then some (codePoint c - 55)
    else if 97 ≤ codePoint c ∧ codePoint c ≤ 102 then some (codePoint c - 87)
    else none := by
  have hle : ∀ a b : Char, a ≤ b ↔ (a.toNat : Int) ≤ b.toNat := by
    intro a b
    rw [Char.le_def, UInt32.le_iff_toNat_le, Char.toNat_val, Char.toNat_val]
    omega
  unfold hexNumber codePoint
  simp only [hle]
  rfl

theorem hexNumber_bounds {c : Char} {v : Int} (h : hexNumber c = some v) : 0 ≤ v ∧ v < 16 := by
  rw [hexNumber_eq] at h
  split at h
  · cases h
    omega
  split at h
  · cases h
    omega
  split at h
  · cases h
    omega
  · cases h

/-! ## Numbers as text -/

theorem decimal_natCast (n : Nat) : decimal (n : Int) = Nat.toDigits 10 n := by
  show (Nat.repr n).toList = _
  rw [Nat.toList_repr]

theorem decimal_digits {n : Int} (hn : 0 ≤ n) : ∀ c ∈ decimal n, c.isDigit = true := by
  obtain ⟨k, rfl⟩ := Int.eq_ofNat_of_zero_le hn
  rw [decimal_natCast]
  exact fun c hc => Nat.isDigit_of_mem_toDigits (by omega) (Nat.le_refl 10) hc

theorem decimal_ne_nil {n : Int} (hn : 0 ≤ n) : decimal n ≠ [] := by
  obtain ⟨k, rfl⟩ := Int.eq_ofNat_of_zero_le hn
  rw [decimal_natCast]
  exact Nat.toDigits_ne_nil

theorem numeral_decimal {n : Int} (hn : 0 ≤ n) : numeral (decimal n) 0 = n := by
  have hdigits := decimal_digits hn
  obtain ⟨k, rfl⟩ := Int.eq_ofNat_of_zero_le hn
  rw [decimal_natCast] at hdigits ⊢
  rw [show (0 : Int) = ((0 : Nat) : Int) from rfl, numeral_ofDigitChars hdigits,
    Nat.ofDigitChars_ten_toDigits]

theorem decimal_length_le_iff {n : Int} (hn : 0 ≤ n) {k : Nat} (hk : 0 < k) :
    (decimal n).length ≤ k ↔ n < 10 ^ k := by
  obtain ⟨m, rfl⟩ := Int.eq_ofNat_of_zero_le hn
  rw [decimal_natCast, Nat.length_toDigits_le_iff (by omega) hk]
  exact_mod_cast Iff.rfl

/-- A negative number starts with its sign. -/
theorem decimal_negative {n : Int} (hn : n < 0) : ∃ ds, decimal n = '-' :: ds := by
  obtain ⟨k, rfl⟩ := Int.eq_negSucc_of_lt_zero hn
  refine ⟨(Nat.repr (k + 1)).toList, ?_⟩
  show (Int.repr (Int.negSucc k)).toList = _
  rw [Int.repr, String.toList_append]
  rfl

theorem decimal_length {n : Int} {k : Nat} (hlo : n = 0 ∧ k = 0 ∨ 10 ^ k ≤ n)
    (hhi : n < 10 ^ (k + 1)) : (decimal n).length = k + 1 := by
  have hn : 0 ≤ n := by
    rcases hlo with ⟨rfl, _⟩ | hlo
    · exact Int.le_refl 0
    · exact Int.le_trans (by positivity) hlo
  have hle := (decimal_length_le_iff hn (Nat.succ_pos k)).mpr hhi
  rcases Nat.eq_zero_or_pos k with rfl | hk
  · have hne : decimal n ≠ [] := by
      obtain ⟨m, rfl⟩ := Int.eq_ofNat_of_zero_le hn
      rw [decimal_natCast]
      exact Nat.toDigits_ne_nil
    have := List.length_pos_iff.mpr hne
    omega
  · have hnot : ¬(decimal n).length ≤ k := by
      rw [decimal_length_le_iff hn hk]
      rcases hlo with ⟨_, rfl⟩ | hlo
      · exact absurd hk (Nat.lt_irrefl 0)
      · exact Int.not_lt.mpr hlo
    omega

theorem numeral_zero (ds : Text) : numeral ('0' :: ds) 0 = numeral ds 0 := rfl

end stdlib
