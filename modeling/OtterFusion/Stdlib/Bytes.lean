-- UTF-8 in `std/bytes.otter`: `Bytes.from_str` and `Bytes.decode_utf8` are inverse to each other,
-- and the decoder accepts what RFC 3629 calls well formed.
import OtterFusion.Base.Utf8
import OtterFusion.Stdlib.Strings

open base.trapping base.utf8

namespace stdlib.bytes

/-! ## Data -/

/-- `Utf8Error`. -/
structure Utf8Error where
  message : String
  deriving DecidableEq, Repr

/-- A decoder. -/
abbrev Decode (A : Type) := Run Utf8Error A

/-- `Bytes`: a list of `u8`, whose size is an `i64`. -/
structure Bytes where
  data : List Int
  isByte : ∀ b ∈ data, 0 ≤ b ∧ b < 256
  fits : data.length < 2 ^ 63

/-- `Utf8Decoded`. -/
structure Utf8Decoded where
  scalar : Int
  next : Int
  deriving DecidableEq, Repr

/-- A `Utf8Error`, returned. -/
def utf8Error {A : Type} (message : String) : Decode A := .error ⟨message⟩

theorem isByte_octets (c : Char) : ∀ b ∈ octets c, 0 ≤ b ∧ b < 256 := by
  rw [octets_eq]
  intro b hb
  obtain ⟨u, _, rfl⟩ := List.mem_map.mp hb
  have := u.toNat_lt
  omega

theorem length_textOctets (s : Text) : (textOctets s).length = byteSize s := by
  unfold textOctets byteSize
  rw [List.length_flatMap]
  exact congrArg List.sum (List.map_congr_left fun c _ => length_octets c)

/-- `Bytes.from_str`. -/
def Bytes.fromStr (s : Str) : Bytes where
  data := textOctets s.text
  isByte := by
    intro b hb
    obtain ⟨c, _, hc⟩ := List.mem_flatMap.mp hb
    exact isByte_octets c b hc
  fits := by
    have := s.fits
    rw [length_textOctets]
    omega

/-! ## The decoder -/

/-- `List.get`. -/
def listGet (data : List Int) (i : Int) : Option Int := if i < 0 then none else data[i.toNat]?

/-- `Bytes.byte_at_for_utf8`. -/
def byteAtForUtf8 (data : List Int) (i : Int) : Decode Int :=
  match listGet data i with
  | some b => .value b
  | none => utf8Error "truncated utf8 sequence"

/-- `Bytes.continuation_at`. -/
def continuationAt (data : List Int) (i : Int) : Decode Int := do
  let b ← byteAtForUtf8 data i
  if 128 ≤ b ∧ b ≤ 191 then rem b 64 else utf8Error "invalid utf8 continuation byte"

/-- The sequences of three bytes. -/
def decodeThree (data : List Int) (i b0 : Int) : Decode Utf8Decoded := do
  let raw1 ← byteAtForUtf8 data (← i64 (i + 1))
  if raw1 < 128 ∨ 191 < raw1 then utf8Error "invalid utf8 continuation byte"
  else if b0 = 224 ∧ raw1 < 160 then utf8Error "overlong utf8 sequence"
  else if b0 = 237 ∧ 159 < raw1 then utf8Error "utf8 surrogate code point"
  else do
    let b2 ← continuationAt data (← i64 (i + 2))
    let scalar ← i64
        ((← i64 ((← i64 ((← rem b0 16) * 4096)) + (← i64 ((← rem raw1 64) * 64)))) + b2)
    .value ⟨scalar, ← i64 (i + 3)⟩

/-- The sequences of four bytes. -/
def decodeFour (data : List Int) (i b0 : Int) : Decode Utf8Decoded := do
  let raw1 ← byteAtForUtf8 data (← i64 (i + 1))
  if raw1 < 128 ∨ 191 < raw1 then utf8Error "invalid utf8 continuation byte"
  else if b0 = 240 ∧ raw1 < 144 then utf8Error "overlong utf8 sequence"
  else if b0 = 244 ∧ 143 < raw1 then utf8Error "utf8 code point out of range"
  else do
    let b2 ← continuationAt data (← i64 (i + 2))
    let b3 ← continuationAt data (← i64 (i + 3))
    let scalar ← i64 ((← i64 ((← i64 ((← i64 ((← rem b0 8) * 262144)) +
      (← i64 ((← rem raw1 64) * 4096)))) + (← i64 (b2 * 64)))) + b3)
    .value ⟨scalar, ← i64 (i + 4)⟩

/-- `Bytes.decode_scalar_at`. -/
def decodeScalarAt (data : List Int) (i : Int) : Decode Utf8Decoded := do
  let b0 ← byteAtForUtf8 data i
  if b0 ≤ 127 then do
    .value ⟨b0, ← i64 (i + 1)⟩
  else if 192 ≤ b0 ∧ b0 ≤ 193 then utf8Error "overlong utf8 sequence"
  else if 194 ≤ b0 ∧ b0 ≤ 223 then do
    let b1 ← continuationAt data (← i64 (i + 1))
    let scalar ← i64 ((← i64 ((← rem b0 32) * 64)) + b1)
    .value ⟨scalar, ← i64 (i + 2)⟩
  else if 224 ≤ b0 ∧ b0 ≤ 239 then decodeThree data i b0
  else if 240 ≤ b0 ∧ b0 ≤ 244 then decodeFour data i b0
  else utf8Error "invalid utf8 leading byte"

/-- One turn of `Bytes.decode_utf8`. The error that a turn keeps ends the loop and is returned. -/
def decodeTurn (data : List Int) (s : Text × Int) : Decode ((Text × Int) ⊕ Text) :=
  let (out, i) := s
  if i < data.length then do
    let step ← decodeScalarAt data i
    -- `Bytes.append_utf8_scalar`
    .value (.inl (out ++ [← asChar step.scalar], step.next))
  else .value (.inr out)

/-- `Bytes.decode_utf8`. -/
def Bytes.decodeUtf8 (b : Bytes) : Decode Text :=
  Ending.loop .outOfFuel (decodeTurn b.data) (b.data.length + 1) ([], 0)

/-! ## The parts of the decoder -/

variable {data : List Int}

theorem byteAt_value {i : Nat} {b : Int} {rest : List Int} (h : data.drop i = b :: rest) :
    byteAtForUtf8 data i = .value b := by
  have hget : data[i]? = some b := by
    rw [← List.head?_drop, h]
    rfl
  unfold byteAtForUtf8 listGet
  rw [if_neg (by omega), Int.toNat_natCast, hget]

/-- A byte that is read is in the list. -/
theorem byteAt_iff {i : Nat} {b : Int} :
    byteAtForUtf8 data i = .value b ↔ ∃ rest, data.drop i = b :: rest := by
  constructor
  · intro h
    unfold byteAtForUtf8 listGet at h
    rw [if_neg (by omega), Int.toNat_natCast] at h
    cases hget : data[i]? with
    | none =>
      rw [hget] at h
      cases h
    | some c =>
      rw [hget] at h
      cases h
      obtain ⟨hlt, hc⟩ := List.getElem?_eq_some_iff.mp hget
      exact ⟨_, by rw [List.drop_eq_getElem_cons hlt, hc]⟩
  · rintro ⟨rest, h⟩
    exact byteAt_value h

/-- A continuation byte, without its upper bits. -/
theorem continuationAt_iff {i : Nat} {v : Int} :
    continuationAt data i = .value v ↔ ∃ b rest, data.drop i = b :: rest ∧ Tail b ∧ v = b % 64 := by
  unfold continuationAt Tail
  constructor
  · intro h
    obtain ⟨b, hb, h⟩ := Ending.value_of_bind.mp h
    obtain ⟨rest, hrest⟩ := byteAt_iff.mp hb
    split at h
    · rename_i htail
      rw [rem_ok (by omega) (by omega) (by omega)] at h
      cases h
      exact ⟨b, rest, hrest, by omega, rfl⟩
    · cases h
  · rintro ⟨b, rest, hrest, htail, rfl⟩
    rw [byteAt_value hrest, Ending.value_bind, if_pos (by omega)]
    exact rem_ok (by omega) (by omega) (by omega)

theorem drop_cons {i : Nat} {b : Int} {rest : List Int} (h : data.drop i = b :: rest) :
    i < data.length ∧ data.drop (i + 1) = rest := by
  have hlength := congrArg List.length h
  rw [List.length_drop, List.length_cons] at hlength
  refine ⟨by omega, ?_⟩
  rw [← List.drop_drop, h]
  rfl

theorem scalarThree_ok {i : Nat} {a b c : Int} (hi : i + 3 < 2 ^ 63) (ha : 0xE0 ≤ a ∧ a ≤ 0xEF)
    (hb : Tail b) :
    (do
      let scalar ← i64 ((← i64 ((← i64 ((← rem a 16) * 4096)) + (← i64 ((← rem b 64) * 64)))) +
        c % 64)
      .value ⟨scalar, ← i64 ((i : Int) + 3)⟩ : Decode Utf8Decoded) =
      .value ⟨a % 16 * 4096 + b % 64 * 64 + c % 64, (i : Int) + 3⟩ := by
  unfold Tail at hb
  rw [rem_bind (by omega), i64_bind (by omega), rem_bind (by omega), i64_bind (by omega),
    i64_bind (by omega), i64_bind (by omega), i64_bind (by omega)]

/-- The sequences of three bytes that are decoded. -/
theorem decodeThree_iff {i : Nat} {a : Int} {rest : List Int} {step : Utf8Decoded}
    (hsize : data.length < 2 ^ 63) (h : data.drop i = a :: rest) (ha : 0xE0 ≤ a ∧ a ≤ 0xEF) :
    decodeThree data i a = .value step ↔ ∃ b c back, rest = b :: c :: back ∧ Second3 a b ∧ Tail c ∧
      step = ⟨a % 16 * 4096 + b % 64 * 64 + c % 64, (i : Int) + 3⟩ := by
  obtain ⟨hi, hnext⟩ := drop_cons h
  unfold decodeThree
  rw [i64_bind (by omega), show (i : Int) + 1 = ((i + 1 : Nat) : Int) by omega]
  constructor
  · intro hstep
    obtain ⟨b, hb, hstep⟩ := Ending.value_of_bind.mp hstep
    obtain ⟨back, hback⟩ := byteAt_iff.mp hb
    obtain ⟨hi1, hnext1⟩ := drop_cons hback
    split at hstep
    · cases hstep
    split at hstep
    · cases hstep
    split at hstep
    · cases hstep
    rw [i64_bind (by omega), show (i : Int) + 2 = ((i + 1 + 1 : Nat) : Int) by omega] at hstep
    obtain ⟨v, hv, hstep⟩ := Ending.value_of_bind.mp hstep
    obtain ⟨c, back1, hback1, hc, rfl⟩ := continuationAt_iff.mp hv
    have hsecond : Second3 a b := ⟨by unfold Tail; omega, by omega, by omega⟩
    have hi2 := (drop_cons hback1).1
    rw [scalarThree_ok (by omega) ha hsecond.1] at hstep
    cases hstep
    exact ⟨b, c, back1, by rw [← hnext, hback, ← hnext1, hback1], hsecond, hc, rfl⟩
  · rintro ⟨b, c, back, rfl, hb, hc, rfl⟩
    obtain ⟨hi1, hnext1⟩ := drop_cons hnext
    obtain ⟨hi2, _⟩ := drop_cons hnext1
    have hread := continuationAt_iff.mpr ⟨c, back, hnext1, hc, rfl⟩
    obtain ⟨htail, hlong, hsurrogate⟩ := id hb
    unfold Tail at htail
    rw [byteAt_value hnext, Ending.value_bind, if_neg (by omega), if_neg (by omega),
      if_neg (by omega), i64_bind (by omega),
      show (i : Int) + 2 = ((i + 1 + 1 : Nat) : Int) by omega, hread, Ending.value_bind]
    exact scalarThree_ok (by omega) ha hb.1

theorem scalarFour_ok {i : Nat} {a b c d : Int} (hi : i + 4 < 2 ^ 63) (ha : 0xF0 ≤ a ∧ a ≤ 0xF4)
    (hb : Tail b) :
    (do
      let scalar ← i64 ((← i64 ((← i64 ((← i64 ((← rem a 8) * 262144)) +
        (← i64 ((← rem b 64) * 4096)))) + (← i64 (c % 64 * 64)))) + d % 64)
      .value ⟨scalar, ← i64 ((i : Int) + 4)⟩ : Decode Utf8Decoded) =
      .value ⟨a % 8 * 262144 + b % 64 * 4096 + c % 64 * 64 + d % 64, (i : Int) + 4⟩ := by
  unfold Tail at hb
  rw [rem_bind (by omega), i64_bind (by omega), rem_bind (by omega), i64_bind (by omega),
    i64_bind (by omega), i64_bind (by omega), i64_bind (by omega), i64_bind (by omega),
    i64_bind (by omega)]

/-- The sequences of four bytes that are decoded. -/
theorem decodeFour_iff {i : Nat} {a : Int} {rest : List Int} {step : Utf8Decoded}
    (hsize : data.length < 2 ^ 63) (h : data.drop i = a :: rest) (ha : 0xF0 ≤ a ∧ a ≤ 0xF4) :
    decodeFour data i a = .value step ↔ ∃ b c d back, rest = b :: c :: d :: back ∧ Second4 a b ∧
      Tail c ∧ Tail d ∧
      step = ⟨a % 8 * 262144 + b % 64 * 4096 + c % 64 * 64 + d % 64, (i : Int) + 4⟩ := by
  obtain ⟨hi, hnext⟩ := drop_cons h
  unfold decodeFour
  rw [i64_bind (by omega), show (i : Int) + 1 = ((i + 1 : Nat) : Int) by omega]
  constructor
  · intro hstep
    obtain ⟨b, hb, hstep⟩ := Ending.value_of_bind.mp hstep
    obtain ⟨back, hback⟩ := byteAt_iff.mp hb
    obtain ⟨hi1, hnext1⟩ := drop_cons hback
    split at hstep
    · cases hstep
    split at hstep
    · cases hstep
    split at hstep
    · cases hstep
    rw [i64_bind (by omega), show (i : Int) + 2 = ((i + 1 + 1 : Nat) : Int) by omega] at hstep
    obtain ⟨v, hv, hstep⟩ := Ending.value_of_bind.mp hstep
    obtain ⟨c, back1, hback1, hc, rfl⟩ := continuationAt_iff.mp hv
    obtain ⟨hi2, hnext2⟩ := drop_cons hback1
    rw [i64_bind (by omega), show (i : Int) + 3 = ((i + 1 + 1 + 1 : Nat) : Int) by omega] at hstep
    obtain ⟨w, hw, hstep⟩ := Ending.value_of_bind.mp hstep
    obtain ⟨d, back2, hback2, hd, rfl⟩ := continuationAt_iff.mp hw
    have hsecond : Second4 a b := ⟨by unfold Tail; omega, by omega, by omega⟩
    have hi3 := (drop_cons hback2).1
    rw [scalarFour_ok (by omega) ha hsecond.1] at hstep
    cases hstep
    exact ⟨b, c, d, back2, by rw [← hnext, hback, ← hnext1, hback1, ← hnext2, hback2], hsecond,
      hc, hd, rfl⟩
  · rintro ⟨b, c, d, back, rfl, hb, hc, hd, rfl⟩
    obtain ⟨hi1, hnext1⟩ := drop_cons hnext
    obtain ⟨hi2, hnext2⟩ := drop_cons hnext1
    obtain ⟨hi3, _⟩ := drop_cons hnext2
    have hread := continuationAt_iff.mpr ⟨c, d :: back, hnext1, hc, rfl⟩
    have hread2 := continuationAt_iff.mpr ⟨d, back, hnext2, hd, rfl⟩
    obtain ⟨htail, hlong, hhigh⟩ := id hb
    unfold Tail at htail
    rw [byteAt_value hnext, Ending.value_bind, if_neg (by omega), if_neg (by omega),
      if_neg (by omega), i64_bind (by omega),
      show (i : Int) + 2 = ((i + 1 + 1 : Nat) : Int) by omega, hread, Ending.value_bind,
      i64_bind (by omega), show (i : Int) + 3 = ((i + 1 + 1 + 1 : Nat) : Int) by omega, hread2,
      Ending.value_bind]
    exact scalarFour_ok (by omega) ha hb.1

theorem scalarTwo_ok {i : Nat} {a b : Int} (hi : i + 2 < 2 ^ 63) (ha : 0xC2 ≤ a ∧ a ≤ 0xDF) :
    (do
      let scalar ← i64 ((← i64 ((← rem a 32) * 64)) + b % 64)
      .value ⟨scalar, ← i64 ((i : Int) + 2)⟩ : Decode Utf8Decoded) =
      .value ⟨a % 32 * 64 + b % 64, (i : Int) + 2⟩ := by
  rw [rem_bind (by omega), i64_bind (by omega), i64_bind (by omega), i64_bind (by omega)]

/-- `Bytes.decode_scalar_at` takes the octets of a scalar, and only these. -/
theorem decodeScalarAt_iff {i : Nat} {step : Utf8Decoded} (hsize : data.length < 2 ^ 63)
    (hbytes : ∀ b ∈ data, 0 ≤ b ∧ b < 256) :
    decodeScalarAt data i = .value step ↔ ∃ c rest, data.drop i = octets c ++ rest ∧
      step = ⟨c.toNat, (i : Int) + (octets c).length⟩ := by
  unfold decodeScalarAt
  constructor
  · intro h
    obtain ⟨a, ha, h⟩ := Ending.value_of_bind.mp h
    obtain ⟨rest, hrest⟩ := byteAt_iff.mp ha
    obtain ⟨hi, hnext⟩ := drop_cons hrest
    have hbyte := hbytes a (List.mem_of_mem_drop (hrest ▸ List.mem_cons_self ..))
    split at h
    · rw [i64_bind (by omega)] at h
      cases h
      have hone := octets_one (a := a) (by omega)
      refine ⟨_, rest, by rw [hone]; exact hrest, ?_⟩
      rw [hone, toNat_ofNat (by unfold IsScalar; omega)]
      rfl
    split at h
    · cases h
    split at h
    · rename_i htwo
      rw [i64_bind (by omega), show (i : Int) + 1 = ((i + 1 : Nat) : Int) by omega] at h
      obtain ⟨v, hv, h⟩ := Ending.value_of_bind.mp h
      obtain ⟨b, back, hback, hb, rfl⟩ := continuationAt_iff.mp hv
      have hi1 := (drop_cons hback).1
      rw [scalarTwo_ok (by omega) htwo] at h
      cases h
      have hos := octets_two htwo hb
      unfold Tail at hb
      refine ⟨_, back, by rw [hos, hrest, ← hnext, hback]; rfl, ?_⟩
      rw [hos, toNat_ofNat (by unfold IsScalar; omega)]
      rfl
    split at h
    · rename_i hthree
      obtain ⟨b, c, back, rfl, hb, hc, rfl⟩ := (decodeThree_iff hsize hrest hthree).mp h
      have hos := octets_three hthree hb hc
      unfold Second3 Tail at hb
      unfold Tail at hc
      refine ⟨_, back, by rw [hos]; exact hrest, ?_⟩
      rw [hos, toNat_ofNat (by unfold IsScalar; omega)]
      rfl
    split at h
    · rename_i hfour
      obtain ⟨b, c, d, back, rfl, hb, hc, hd, rfl⟩ := (decodeFour_iff hsize hrest hfour).mp h
      have hos := octets_four hfour hb hc hd
      unfold Second4 Tail at hb
      unfold Tail at hc hd
      refine ⟨_, back, by rw [hos]; exact hrest, ?_⟩
      rw [hos, toNat_ofNat (by unfold IsScalar; omega)]
      rfl
    · cases h
  · rintro ⟨s, back, hdrop, rfl⟩
    rcases octets_cases s with ⟨a, hs, ha, hv⟩ | ⟨a, b, hs, ha, hb, hv⟩ |
      ⟨a, b, c, hs, ha, hb, hc, hv⟩ | ⟨a, b, c, d, hs, ha, hb, hc, hd, hv⟩
    · rw [hs] at hdrop ⊢
      have hi := (drop_cons hdrop).1
      rw [byteAt_value hdrop, Ending.value_bind, if_pos ha.2, i64_bind (by omega), hv]
      rfl
    · rw [hs] at hdrop ⊢
      obtain ⟨hi, hnext⟩ := drop_cons hdrop
      have hi1 := (drop_cons hnext).1
      rw [byteAt_value hdrop, Ending.value_bind, if_neg (by omega), if_neg (by omega), if_pos ha,
        i64_bind (by omega), show (i : Int) + 1 = ((i + 1 : Nat) : Int) by omega,
        continuationAt_iff.mpr ⟨b, back, hnext, hb, rfl⟩, Ending.value_bind,
        scalarTwo_ok (by omega) ha, hv]
      rfl
    · rw [hs] at hdrop ⊢
      rw [byteAt_value hdrop, Ending.value_bind, if_neg (by omega), if_neg (by omega),
        if_neg (by omega), if_pos ha,
        (decodeThree_iff hsize hdrop ha).mpr ⟨b, c, back, rfl, hb, hc, rfl⟩, hv]
      rfl
    · rw [hs] at hdrop ⊢
      rw [byteAt_value hdrop, Ending.value_bind, if_neg (by omega), if_neg (by omega),
        if_neg (by omega), if_neg (by omega), if_pos ha,
        (decodeFour_iff hsize hdrop ha).mpr ⟨b, c, d, back, rfl, hb, hc, hd, rfl⟩, hv]
      rfl

/-! ## Inverse to each other -/

theorem asChar_toNat {E : Type} (c : Char) : (asChar c.toNat : Run E Char) = .value c := by
  obtain ⟨hlo, hhi, hsurrogate⟩ := isScalar_toNat c
  rw [asChar_ok hlo hhi hsurrogate, Int.toNat_natCast, Char.ofNat_toNat]

theorem decodeTurn_takes (hsize : data.length < 2 ^ 63) (hbytes : ∀ b ∈ data, 0 ≤ b ∧ b < 256) :
    Takes data (decodeTurn data) where
  last out := if_neg (Int.lt_irrefl _)
  scalar := by
    intro out i c rest h
    have hi : i < data.length := by
      have := (drop_octets h).2
      omega
    unfold decodeTurn
    dsimp only
    rw [if_pos (by omega), (decodeScalarAt_iff hsize hbytes).mpr ⟨c, rest, h, rfl⟩,
      Ending.value_bind, asChar_toNat, Ending.value_bind]
  only := by
    intro out i r hi h
    unfold decodeTurn at h
    dsimp only at h
    rw [if_pos (by omega)] at h
    obtain ⟨step, hstep, h⟩ := Ending.value_of_bind.mp h
    obtain ⟨c, rest, hc, rfl⟩ := (decodeScalarAt_iff hsize hbytes).mp hstep
    rw [asChar_toNat, Ending.value_bind] at h
    cases h
    exact ⟨c, rest, hc, rfl⟩

/-- What is decoded is the text of the bytes. -/
theorem decodeUtf8_value {b : Bytes} {t : Text} :
    b.decodeUtf8 = .value t ↔ b.data = textOctets t := by
  have hloop := @Takes.loop_iff _ _ _ _ Trap.outOfFuel (decodeTurn_takes b.fits b.isByte)
    (b.data.length + 1) 0 [] t (Nat.zero_le _) (by omega)
  rw [List.drop_zero] at hloop
  unfold Bytes.decodeUtf8
  rw [show (([], 0) : Text × Int) = ([], ((0 : Nat) : Int)) from rfl, hloop]
  constructor
  · rintro ⟨s, hs, rfl⟩
    exact hs
  · intro h
    exact ⟨t, h, rfl⟩

/-- The decoder is the inverse of the encoder: a text is decoded from its own bytes; what is decoded
has the bytes that it was decoded from; and all well-formed sequences of bytes are decoded, and no
others. -/
theorem decodeUtf8_exact :
    (∀ s : Str, (Bytes.fromStr s).decodeUtf8 = .value s.text) ∧
    ∀ b : Bytes, ((∃ t, b.decodeUtf8 = .value t) ↔ WellFormed b.data) ∧
      ∀ s : Str, b.decodeUtf8 = .value s.text → (Bytes.fromStr s).data = b.data := by
  refine ⟨fun s => decodeUtf8_value.mpr rfl, fun b => ⟨?_, fun s hs => ?_⟩⟩
  · rw [wellFormed_iff]
    exact exists_congr fun t => decodeUtf8_value
  · exact (decodeUtf8_value.mp hs).symm

/-- A character of two bytes. -/
theorem decodeUtf8_exact_at :
    (Bytes.fromStr ⟨['é'], by decide⟩).data = [0xC3, 0xA9] ∧
      (Bytes.fromStr ⟨['é'], by decide⟩).decodeUtf8 = .value ['é'] :=
  ⟨(decodeUtf8_exact.2 ⟨[0xC3, 0xA9], by decide, by decide⟩).2 ⟨['é'], by decide⟩
      (decodeUtf8_value.mpr rfl),
    decodeUtf8_exact.1 ⟨['é'], by decide⟩⟩

end stdlib.bytes
