-- UTF-8 (RFC 3629): the octets of a text, the sequences that are well formed, and the rule for a
-- decoder that takes one scalar after another.
import Mathlib.Algebra.Order.Ring.Nat
import Mathlib.Data.List.Basic
import OtterFusion.Base.Trapping

open base.trapping

namespace base.utf8

/-! ## The octets of a text -/

/-- The octets of a scalar. -/
def octets (c : Char) : List Int :=
  let v : Int := c.toNat
  if v ≤ 0x7F then [v]
  else if v ≤ 0x7FF then [0xC0 + v / 64, 0x80 + v % 64]
  else if v ≤ 0xFFFF then [0xE0 + v / 4096, 0x80 + v / 64 % 64, 0x80 + v % 64]
  else [0xF0 + v / 262144, 0x80 + v / 4096 % 64, 0x80 + v / 64 % 64, 0x80 + v % 64]

/-- The octets of a text. -/
def textOctets (s : List Char) : List Int := s.flatMap octets

@[simp] theorem textOctets_nil : textOctets [] = [] := rfl

@[simp] theorem textOctets_cons (c : Char) (s : List Char) :
    textOctets (c :: s) = octets c ++ textOctets s := List.flatMap_cons

@[simp] theorem textOctets_append (s t : List Char) :
    textOctets (s ++ t) = textOctets s ++ textOctets t := List.flatMap_append

/-- They are the octets of Lean's own strings. -/
theorem octets_eq (c : Char) :
    octets c = (String.utf8EncodeChar c).map fun b => (b.toNat : Int) := by
  have hlt : c.toNat < 0x110000 := by
    have hvalid : c.toNat.isValidChar := c.valid
    unfold Nat.isValidChar at hvalid
    omega
  unfold octets String.utf8EncodeChar
  rw [show c.val.toNat = c.toNat from rfl]
  dsimp only
  split_ifs <;> simp only [List.map_cons, List.map_nil, UInt8.toNat_ofNat', List.cons.injEq,
    and_true] <;> omega

theorem length_octets (c : Char) : (octets c).length = c.utf8Size := by
  rw [octets_eq, List.length_map, String.length_utf8EncodeChar]

/-! ## The syntax -/

/-- `UTF8-tail`. -/
def Tail (b : Int) : Prop := 0x80 ≤ b ∧ b ≤ 0xBF

/-- `UTF8-char`, with its alternatives. -/
inductive Scalar : List Int → Prop
  | one {a : Int} (h : 0 ≤ a ∧ a ≤ 0x7F) : Scalar [a]
  | two {a b : Int} (h : 0xC2 ≤ a ∧ a ≤ 0xDF) (hb : Tail b) : Scalar [a, b]
  | e0 {b c : Int} (h : 0xA0 ≤ b ∧ b ≤ 0xBF) (hc : Tail c) : Scalar [0xE0, b, c]
  | e1ec {a b c : Int} (h : 0xE1 ≤ a ∧ a ≤ 0xEC) (hb : Tail b) (hc : Tail c) : Scalar [a, b, c]
  | ed {b c : Int} (h : 0x80 ≤ b ∧ b ≤ 0x9F) (hc : Tail c) : Scalar [0xED, b, c]
  | eeef {a b c : Int} (h : 0xEE ≤ a ∧ a ≤ 0xEF) (hb : Tail b) (hc : Tail c) : Scalar [a, b, c]
  | f0 {b c d : Int} (h : 0x90 ≤ b ∧ b ≤ 0xBF) (hc : Tail c) (hd : Tail d) : Scalar [0xF0, b, c, d]
  | f1f3 {a b c d : Int} (h : 0xF1 ≤ a ∧ a ≤ 0xF3) (hb : Tail b) (hc : Tail c) (hd : Tail d) :
    Scalar [a, b, c, d]
  | f4 {b c d : Int} (h : 0x80 ≤ b ∧ b ≤ 0x8F) (hc : Tail c) (hd : Tail d) : Scalar [0xF4, b, c, d]

/-- `UTF8-octets`. -/
inductive WellFormed : List Int → Prop
  | nil : WellFormed []
  | cons {scalar rest : List Int} (h : Scalar scalar) (hrest : WellFormed rest) :
    WellFormed (scalar ++ rest)

/-! ## The syntax is the texts -/

/-- A number of a scalar. -/
def IsScalar (v : Int) : Prop := 0 ≤ v ∧ v ≤ 0x10FFFF ∧ (v < 0xD800 ∨ 0xDFFF < v)

theorem toNat_ofNat {v : Int} (h : IsScalar v) : ((Char.ofNat v.toNat).toNat : Int) = v := by
  obtain ⟨hlo, hhi, hsurrogate⟩ := h
  have hvalid : v.toNat.isValidChar := by
    unfold Nat.isValidChar
    omega
  rw [Char.ofNat, dif_pos hvalid]
  exact Int.toNat_of_nonneg hlo

theorem isScalar_toNat (c : Char) : IsScalar c.toNat := by
  have hvalid : c.toNat.isValidChar := c.valid
  unfold Nat.isValidChar at hvalid
  unfold IsScalar
  omega

theorem octets_one {a : Int} (h : 0 ≤ a ∧ a ≤ 0x7F) : octets (Char.ofNat a.toNat) = [a] := by
  have hv := toNat_ofNat (v := a) (by unfold IsScalar; omega)
  unfold octets
  dsimp only
  rw [hv, if_pos h.2]

theorem octets_two {a b : Int} (h : 0xC2 ≤ a ∧ a ≤ 0xDF) (hb : Tail b) :
    octets (Char.ofNat (a % 32 * 64 + b % 64).toNat) = [a, b] := by
  unfold Tail at hb
  have hv := toNat_ofNat (v := a % 32 * 64 + b % 64) (by unfold IsScalar; omega)
  unfold octets
  dsimp only
  rw [hv, if_neg (by omega), if_pos (by omega)]
  simp only [List.cons.injEq, and_true]
  omega

/-- The second octet of three: no overlong form and no surrogate. -/
def Second3 (a b : Int) : Prop := Tail b ∧ (a = 0xE0 → 0xA0 ≤ b) ∧ (a = 0xED → b ≤ 0x9F)

/-- The second octet of four: no overlong form and no number above the scalars. -/
def Second4 (a b : Int) : Prop := Tail b ∧ (a = 0xF0 → 0x90 ≤ b) ∧ (a = 0xF4 → b ≤ 0x8F)

theorem octets_three {a b c : Int} (h : 0xE0 ≤ a ∧ a ≤ 0xEF) (hb : Second3 a b) (hc : Tail c) :
    octets (Char.ofNat (a % 16 * 4096 + b % 64 * 64 + c % 64).toNat) = [a, b, c] := by
  unfold Second3 Tail at hb
  unfold Tail at hc
  have hv := toNat_ofNat (v := a % 16 * 4096 + b % 64 * 64 + c % 64) (by unfold IsScalar; omega)
  unfold octets
  dsimp only
  rw [hv, if_neg (by omega), if_neg (by omega), if_pos (by omega)]
  simp only [List.cons.injEq, and_true]
  omega

theorem octets_four {a b c d : Int} (h : 0xF0 ≤ a ∧ a ≤ 0xF4) (hb : Second4 a b) (hc : Tail c)
    (hd : Tail d) :
    octets (Char.ofNat (a % 8 * 262144 + b % 64 * 4096 + c % 64 * 64 + d % 64).toNat) =
      [a, b, c, d] := by
  unfold Second4 Tail at hb
  unfold Tail at hc hd
  have hv := toNat_ofNat (v := a % 8 * 262144 + b % 64 * 4096 + c % 64 * 64 + d % 64)
    (by unfold IsScalar; omega)
  unfold octets
  dsimp only
  rw [hv, if_neg (by omega), if_neg (by omega), if_neg (by omega)]
  simp only [List.cons.injEq, and_true]
  omega

/-- The octets of a scalar have one of four forms. -/
theorem octets_cases (s : Char) :
    (∃ a, octets s = [a] ∧ (0 ≤ a ∧ a ≤ 0x7F) ∧ (s.toNat : Int) = a) ∨
    (∃ a b, octets s = [a, b] ∧ (0xC2 ≤ a ∧ a ≤ 0xDF) ∧ Tail b ∧
      (s.toNat : Int) = a % 32 * 64 + b % 64) ∨
    (∃ a b c, octets s = [a, b, c] ∧ (0xE0 ≤ a ∧ a ≤ 0xEF) ∧ Second3 a b ∧ Tail c ∧
      (s.toNat : Int) = a % 16 * 4096 + b % 64 * 64 + c % 64) ∨
    ∃ a b c d, octets s = [a, b, c, d] ∧ (0xF0 ≤ a ∧ a ≤ 0xF4) ∧ Second4 a b ∧ Tail c ∧ Tail d ∧
      (s.toNat : Int) = a % 8 * 262144 + b % 64 * 4096 + c % 64 * 64 + d % 64 := by
  have hscalar := isScalar_toNat s
  unfold octets Second3 Second4 Tail
  generalize (s.toNat : Int) = v at *
  unfold IsScalar at hscalar
  dsimp only
  split
  · exact .inl ⟨v, rfl, by omega, rfl⟩
  split
  · exact .inr (.inl ⟨_, _, rfl, by omega, by omega, by omega⟩)
  split
  · exact .inr (.inr (.inl ⟨_, _, _, rfl, by omega, by omega, by omega, by omega⟩))
  · exact .inr (.inr (.inr ⟨_, _, _, _, rfl, by omega, by omega, by omega, by omega, by omega⟩))

theorem scalar_octets (s : Char) : Scalar (octets s) := by
  rcases octets_cases s with ⟨a, h, ha, _⟩ | ⟨a, b, h, ha, hb, _⟩ | ⟨a, b, c, h, ha, hb, hc, _⟩ |
    ⟨a, b, c, d, h, ha, hb, hc, hd, _⟩
  · rw [h]
    exact .one ha
  · rw [h]
    exact .two ha hb
  · rw [h]
    obtain ⟨htail, hlong, hsurrogate⟩ := id hb
    unfold Tail at htail
    by_cases h0 : a = 0xE0
    · subst h0
      exact .e0 ⟨hlong rfl, htail.2⟩ hc
    by_cases hd : a = 0xED
    · subst hd
      exact .ed ⟨htail.1, hsurrogate rfl⟩ hc
    by_cases hlow : a ≤ 0xEC
    · exact .e1ec (by omega) hb.1 hc
    · exact .eeef (by omega) hb.1 hc
  · rw [h]
    obtain ⟨htail, hlong, hhigh⟩ := id hb
    unfold Tail at htail
    by_cases h0 : a = 0xF0
    · subst h0
      exact .f0 ⟨hlong rfl, htail.2⟩ hc hd
    by_cases h4 : a = 0xF4
    · subst h4
      exact .f4 ⟨htail.1, hhigh rfl⟩ hc hd
    · exact .f1f3 (by omega) hb.1 hc hd

theorem Scalar.octets {bs : List Int} (h : Scalar bs) : ∃ s, bs = octets s := by
  cases h with
  | one h => exact ⟨_, (octets_one h).symm⟩
  | two h hb => exact ⟨_, (octets_two h hb).symm⟩
  | e0 h hc =>
    exact ⟨_, (octets_three (by omega) ⟨by unfold Tail; omega, by omega, by omega⟩ hc).symm⟩
  | e1ec h hb hc => exact ⟨_, (octets_three (by omega) ⟨hb, by omega, by omega⟩ hc).symm⟩
  | ed h hc =>
    exact ⟨_, (octets_three (by omega) ⟨by unfold Tail; omega, by omega, by omega⟩ hc).symm⟩
  | eeef h hb hc => exact ⟨_, (octets_three (by omega) ⟨hb, by omega, by omega⟩ hc).symm⟩
  | f0 h hc hd =>
    exact ⟨_, (octets_four (by omega) ⟨by unfold Tail; omega, by omega, by omega⟩ hc hd).symm⟩
  | f1f3 h hb hc hd => exact ⟨_, (octets_four (by omega) ⟨hb, by omega, by omega⟩ hc hd).symm⟩
  | f4 h hc hd =>
    exact ⟨_, (octets_four (by omega) ⟨by unfold Tail; omega, by omega, by omega⟩ hc hd).symm⟩

/-- The well-formed sequences are the octets of the texts. -/
theorem wellFormed_iff {bs : List Int} : WellFormed bs ↔ ∃ s, bs = textOctets s := by
  constructor
  · intro h
    induction h with
    | nil => exact ⟨[], rfl⟩
    | cons hscalar _ ih =>
      obtain ⟨c, rfl⟩ := hscalar.octets
      obtain ⟨s, rfl⟩ := ih
      exact ⟨c :: s, (textOctets_cons c s).symm⟩
  · rintro ⟨s, rfl⟩
    induction s with
    | nil => exact .nil
    | cons c s ih =>
      rw [textOctets_cons]
      exact .cons (scalar_octets c) ih

/-! ## Decoders -/

variable {T E : Type} {bytes : List Int}
  {turn : List Char × Int → Ending T E ((List Char × Int) ⊕ List Char)}

/-- A turn takes the octets of one scalar, and only these; at the end the text is the result. -/
structure Takes (bytes : List Int)
    (turn : List Char × Int → Ending T E ((List Char × Int) ⊕ List Char)) : Prop where
  last : ∀ out, turn (out, bytes.length) = .value (.inr out)
  scalar : ∀ out (i : Nat) c rest, bytes.drop i = octets c ++ rest →
    turn (out, i) = .value (.inl (out ++ [c], (i : Int) + (octets c).length))
  only : ∀ out (i : Nat) r, i < bytes.length → turn (out, i) = .value r →
    ∃ c rest, bytes.drop i = octets c ++ rest ∧
      r = .inl (out ++ [c], (i : Int) + (octets c).length)

/-- What follows the octets of a scalar. -/
theorem drop_octets {i : Nat} {c : Char} {rest : List Int} (h : bytes.drop i = octets c ++ rest) :
    bytes.drop (i + (octets c).length) = rest ∧ i + (octets c).length ≤ bytes.length ∧
      0 < (octets c).length := by
  have hlength := congrArg List.length h
  have hpos := Char.utf8Size_pos c
  rw [List.length_drop, List.length_append] at hlength
  refine ⟨?_, ?_, ?_⟩
  · rw [← List.drop_drop, h, List.drop_left]
  · rw [length_octets] at hlength ⊢
    omega
  · rw [length_octets]
    exact hpos

/-- The decoder gives the text whose octets are there, and nothing on other octets. -/
theorem Takes.loop_iff {outOfFuel : T} (h : Takes bytes turn) {n i : Nat} {out r : List Char}
    (hi : i ≤ bytes.length) (hn : bytes.length - i < n) :
    Ending.loop outOfFuel turn n (out, (i : Int)) = .value r ↔
      ∃ s, bytes.drop i = textOctets s ∧ r = out ++ s := by
  induction n generalizing i out with
  | zero => exact absurd hn (Nat.not_lt_zero _)
  | succ n ih =>
    rw [Ending.loop]
    rcases Nat.eq_or_lt_of_le hi with rfl | hlt
    · rw [h.last, Ending.value_bind, List.drop_length]
      constructor
      · intro hr
        cases hr
        exact ⟨[], rfl, (List.append_nil _).symm⟩
      · rintro ⟨s, hs, rfl⟩
        cases s with
        | nil => rw [List.append_nil]
        | cons c s =>
          have hpos := Char.utf8Size_pos c
          have hlength := congrArg List.length hs
          rw [textOctets_cons, List.length_append, length_octets, List.length_nil] at hlength
          omega
    · constructor
      · intro hr
        obtain ⟨next, hnext, hr⟩ := Ending.value_of_bind.mp hr
        obtain ⟨c, rest, hc, rfl⟩ := h.only out i next hlt hnext
        obtain ⟨hrest, hle, hpos⟩ := drop_octets hc
        obtain ⟨s, hs, rfl⟩ := (ih hle (by omega)).mp hr
        refine ⟨c :: s, ?_, List.append_assoc ..⟩
        rw [hc, textOctets_cons, ← hs, hrest]
      · rintro ⟨s, hs, rfl⟩
        cases s with
        | nil =>
          have := congrArg List.length hs
          rw [List.length_drop, textOctets_nil, List.length_nil] at this
          omega
        | cons c s =>
          rw [textOctets_cons] at hs
          obtain ⟨hrest, hle, hpos⟩ := drop_octets hs
          rw [h.scalar out i c _ hs, Ending.value_bind]
          exact (ih hle (by omega)).mpr ⟨s, hrest, List.append_cons out c s⟩

end base.utf8
