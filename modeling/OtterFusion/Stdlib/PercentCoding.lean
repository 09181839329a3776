-- Percent coding (`std/net_types.otter`): the encoder is undone by the decoder, and the decoder
-- accepts the texts whose runs of escapes are well-formed UTF-8, and no others.
import OtterFusion.Base.Utf8
import OtterFusion.Stdlib.NetNumbers
import OtterFusion.Stdlib.Numerals

open base.trapping base.utf8

namespace stdlib.net

/-! ## `percent_encode_component` -/

/-- `__net_hex_digit`. -/
def netHexDigit (value : Int) : Text :=
  if value < 10 then decimal value
  else if value = 10 then ['A']
  else if value = 11 then ['B']
  else if value = 12 then ['C']
  else if value = 13 then ['D']
  else if value = 14 then ['E']
  else ['F']

/-- `__net_percent_byte`. -/
def percentByte (n : Int) : Parse Text := do
  let high ← div n 16
  .value ('%' :: (netHexDigit high ++ netHexDigit (← rem n 16)))

/-- `__net_is_unreserved`. -/
def isUnreserved (cp : Int) : Bool :=
  decide (48 ≤ cp) && decide (cp ≤ 57) || decide (65 ≤ cp) && decide (cp ≤ 90) ||
    decide (97 ≤ cp) && decide (cp ≤ 122) || cp == 45 || cp == 46 || cp == 95 || cp == 126

/-- `__net_encode_codepoint`. -/
def encodeCodepoint (cp : Int) : Parse Text :=
  if cp ≤ 0x7f then percentByte (asUnsigned 8 cp)
  else if cp ≤ 0x7ff then do
    let first ← percentByte (asUnsigned 8 (← i64 (0xc0 + (← div cp 64))))
    let second ← percentByte (asUnsigned 8 (← i64 (0x80 + (← rem cp 64))))
    .value (first ++ second)
  else if cp ≤ 0xffff then do
    let first ← percentByte (asUnsigned 8 (← i64 (0xe0 + (← div cp 4096))))
    let second ← percentByte (asUnsigned 8 (← i64 (0x80 + (← rem (← div cp 64) 64))))
    let third ← percentByte (asUnsigned 8 (← i64 (0x80 + (← rem cp 64))))
    .value (first ++ second ++ third)
  else do
    let first ← percentByte (asUnsigned 8 (← i64 (0xf0 + (← div cp 262144))))
    let second ← percentByte (asUnsigned 8 (← i64 (0x80 + (← rem (← div cp 4096) 64))))
    let third ← percentByte (asUnsigned 8 (← i64 (0x80 + (← rem (← div cp 64) 64))))
    let fourth ← percentByte (asUnsigned 8 (← i64 (0x80 + (← rem cp 64))))
    .value (first ++ second ++ third ++ fourth)

/-- One turn of `percent_encode_component`. -/
def encodeTurn (out : Text) (ch : Char) : Parse Text :=
  if isUnreserved (codePoint ch) then .value (out ++ [ch])
  else do
    .value (out ++ (← encodeCodepoint (codePoint ch)))

/-- `percent_encode_component`. -/
def percentEncodeComponent (text : Text) : Parse Text := text.foldlM encodeTurn []

/-! ## What an encoded text denotes -/

/-- A run of escapes, and its bytes. -/
inductive Escapes : Text → List Int → Prop
  | nil : Escapes [] []
  | cons {h l : Char} {high low : Int} {text : Text} {bytes : List Int}
    (hh : hexNumber h = some high) (hl : hexNumber l = some low) (hrest : Escapes text bytes) :
    Escapes ('%' :: h :: l :: text) ((high * 16 + low) :: bytes)

/-- A part of an encoded text: a character that stands for itself, or the bytes of a run. -/
inductive Piece
  | plain (c : Char)
  | run (bytes : List Int)
  deriving DecidableEq

/-- The parts of a text. Its runs are maximal, and each `%` is in one of them. -/
inductive Cut : Text → List Piece → Prop
  | nil : Cut [] []
  | plain {c : Char} {text : Text} {pieces : List Piece} (hc : c ≠ '%') (hrest : Cut text pieces) :
    Cut (c :: text) (.plain c :: pieces)
  | run {front text : Text} {bytes : List Int} {pieces : List Piece} (hfront : Escapes front bytes)
    (hbytes : bytes ≠ []) (hmaximal : text.head? ≠ some '%') (hrest : Cut text pieces) :
    Cut (front ++ text) (.run bytes :: pieces)

/-- The text of a part. -/
def Piece.Spells : Piece → Text → Prop
  | .plain c, s => s = [c]
  | .run bytes, s => bytes = textOctets s

/-- The text of all parts. -/
def Spells (pieces : List Piece) (s : Text) : Prop :=
  ∃ parts, List.Forall₂ Piece.Spells pieces parts ∧ s = parts.flatten

/-- Each `%` starts a `%` and two hexadecimal digits. -/
def PercentsEscape (text : Text) : Prop :=
  ∀ front rest, text = front ++ '%' :: rest →
    ∃ h l back, rest = h :: l :: back ∧ (hexNumber h).isSome ∧ (hexNumber l).isSome

/-- Each run of escapes is well-formed UTF-8. -/
def RunsWellFormed (pieces : List Piece) : Prop := ∀ bytes, .run bytes ∈ pieces → WellFormed bytes

/-! ## Bytes of a run -/

variable {bytes : List Int} {position : Int}

/-- The loop over the continuation bytes that are left: all of them are tails, and their lower bits
follow the bits before. -/
theorem continuationLoop_iff {i : Nat} {needed : Int} (hpos : 0 ≤ position)
    (hfits : position + bytes.length < 2 ^ 63) (hneeded : needed ≤ 3)
    (hthere : i + needed < bytes.length) (k : Nat) {value j : Int} {w : Int} (hj : 1 ≤ j)
    (hk : j + k = needed + 1) (hvalue : 0 ≤ value) (hvalue' : value < 32 * 64 ^ (j - 1).toNat) :
    Ending.loop .outOfFuel (continuationTurn bytes position i needed) (k + 1) (value, j) =
      .value w ↔
      (∀ b ∈ (bytes.drop (i + j).toNat).take k, Tail b) ∧
        w = ((bytes.drop (i + j).toNat).take k).foldl (fun v b => v * 64 + b % 64) value := by
  induction k generalizing value j with
  | zero =>
    rw [Ending.loop, continuationTurn, if_neg (by omega), Ending.value_bind, List.take_zero]
    constructor
    · intro h
      cases h
      exact ⟨fun _ hb => absurd hb List.not_mem_nil, rfl⟩
    · rintro ⟨_, rfl⟩
      rfl
  | succ k ih =>
    have hlt : (i + j).toNat < bytes.length := by omega
    have hdrop := List.drop_eq_getElem_cons hlt
    have hget := get_drop (E := ParseError) hdrop
    rw [show (((i : Int) + j).toNat : Int) = i + j by omega] at hget
    have hpow : (64 : Int) ^ (j - 1).toNat ≤ 64 ^ 2 := by
      have := Nat.pow_le_pow_right (n := 64) (by omega) (show (j - 1).toNat ≤ 2 by omega)
      exact_mod_cast this
    have hnext : (i + j).toNat + 1 = (i + (j + 1)).toNat := by omega
    rw [Ending.loop, continuationTurn, if_pos (by omega), i64_bind (by omega), hget,
      Ending.value_bind, hdrop, List.take_succ_cons, hnext]
    generalize bytes[(↑i + j).toNat] = b
    by_cases hb : Tail b
    · unfold Tail at hb
      rw [if_neg (by omega), rem_ok (by omega) (by omega) (by omega), i64_bind (by omega),
        Ending.value_bind, i64_bind (by omega), i64_bind (by omega), Ending.value_bind]
      have hnumber : value * 64 + b % 64 < 32 * 64 ^ (j + 1 - 1).toNat := by
        rw [show (j + 1 - 1).toNat = (j - 1).toNat + 1 by omega, pow_succ]
        omega
      rw [ih (by omega) (by omega) (by omega) hnumber, List.foldl_cons]
      constructor
      · rintro ⟨hall, hw⟩
        exact ⟨List.forall_mem_cons.mpr ⟨hb, hall⟩, hw⟩
      · rintro ⟨hall, hw⟩
        exact ⟨(List.forall_mem_cons.mp hall).2, hw⟩
    · rw [if_pos (by unfold Tail at hb; omega)]
      constructor
      · intro h
        rw [i64_bind (by omega), i64_ok (by omega) (by omega)] at h
        cases h
      · rintro ⟨hall, _⟩
        exact absurd (hall b (List.mem_cons_self ..)) hb

/-- The number of a scalar from the bits of its first byte and its continuation bytes. -/
def scalarOf (value : Int) (conts : List Int) : Int :=
  conts.foldl (fun v b => v * 64 + b % 64) value

theorem scalarOf_nonneg {value : Int} (h : 0 ≤ value) (conts : List Int) :
    0 ≤ scalarOf value conts := by
  induction conts generalizing value with
  | nil => exact h
  | cons b conts ih => exact ih (show 0 ≤ value * 64 + b % 64 by omega)

/-- A turn at a first byte that announces `needed` more takes these, when they are tails and their
number is a scalar of this length. -/
theorem decodeTurn_lead {i : Nat} {a needed value least : Int} {out : Text} {rest : List Int}
    {r : (Text × Int) ⊕ Text} (hpos : 0 ≤ position) (hfits : position + bytes.length + 4 < 2 ^ 63)
    (hdrop : bytes.drop i = a :: rest) (ha : 0x80 ≤ a)
    (hlead : leadByte a position i = .value (needed, value, least)) (hneeded : 1 ≤ needed)
    (hneeded' : needed ≤ 3) (hvalue : 0 ≤ value) (hvalue' : value < 32) :
    decodeTurn bytes position (out, i) = .value r ↔
      ∃ conts back, rest = conts ++ back ∧ (conts.length : Int) = needed ∧ (∀ b ∈ conts, Tail b) ∧
        least ≤ scalarOf value conts ∧ IsScalar (scalarOf value conts) ∧
        r = .inl (out ++ [Char.ofNat (scalarOf value conts).toNat], (i : Int) + needed + 1) := by
  have hlength := congrArg List.length hdrop
  rw [List.length_drop, List.length_cons] at hlength
  have hrest : rest = bytes.drop (i + 1) := by
    rw [← List.drop_drop, hdrop]
    rfl
  have hbits : value < 32 * 64 ^ ((1 : Int) - 1).toNat := by
    show value < 32 * 64 ^ 0
    omega
  unfold decodeTurn
  dsimp only
  rw [if_pos (by omega), get_drop hdrop, Ending.value_bind, if_neg (by omega), hlead,
    Ending.value_bind]
  dsimp only
  rw [i64_ok (by omega) (by omega), Ending.value_bind]
  constructor
  · intro h
    split at h
    · obtain ⟨_, _, h⟩ := Ending.value_of_bind.mp h
      cases h
    rename_i hthere
    obtain ⟨w, hw, h⟩ := Ending.value_of_bind.mp h
    rw [continuationLoop_iff hpos (by omega) hneeded' (by omega) needed.toNat (by omega) (by omega)
      hvalue hbits, show ((i : Int) + 1).toNat = i + 1 by omega, ← hrest] at hw
    obtain ⟨htails, rfl⟩ := hw
    split at h
    · obtain ⟨_, _, h⟩ := Ending.value_of_bind.mp h
      cases h
    rename_i hscalar
    rw [← scalarOf] at hscalar h
    have his : IsScalar (scalarOf value (rest.take needed.toNat)) := by
      have hnonneg := scalarOf_nonneg hvalue (rest.take needed.toNat)
      unfold IsScalar
      omega
    rw [asChar_ok his.1 his.2.1 his.2.2, Ending.value_bind, Ending.value_bind,
      i64_ok (by omega) (by omega), Ending.value_bind] at h
    cases h
    refine ⟨rest.take needed.toNat, rest.drop needed.toNat, (List.take_append_drop ..).symm, ?_,
      htails, by omega, his, rfl⟩
    rw [List.length_take]
    omega
  · rintro ⟨conts, back, rfl, hconts, htails, hleast, his, rfl⟩
    have htake : (conts ++ back).take needed.toNat = conts := by
      rw [← hconts, Int.toNat_natCast, List.take_left]
    rw [List.length_append] at hlength
    rw [if_neg (by omega),
      (continuationLoop_iff (w := scalarOf value conts) hpos (by omega) hneeded'
      (by omega) needed.toNat (by omega) (by omega) hvalue hbits).mpr ?_, Ending.value_bind,
      if_neg (by unfold IsScalar at his; omega), asChar_ok his.1 his.2.1 his.2.2,
      Ending.value_bind, Ending.value_bind, i64_ok (by omega) (by omega), Ending.value_bind]
    rw [show ((i : Int) + 1).toNat = i + 1 by omega, ← hrest, htake]
    exact ⟨htails, rfl⟩

theorem leadByte_two {a i : Int} (h : 0xC2 ≤ a ∧ a ≤ 0xDF) :
    leadByte a position i = .value (1, a % 32, 0x80) := by
  unfold leadByte
  rw [if_pos h, rem_bind (by omega)]

theorem leadByte_three {a i : Int} (h : 0xE0 ≤ a ∧ a ≤ 0xEF) :
    leadByte a position i = .value (2, a % 16, 0x800) := by
  unfold leadByte
  rw [if_neg (by omega), if_pos h, rem_bind (by omega)]

theorem leadByte_four {a i : Int} (h : 0xF0 ≤ a ∧ a ≤ 0xF4) :
    leadByte a position i = .value (3, a % 8, 0x10000) := by
  unfold leadByte
  rw [if_neg (by omega), if_neg (by omega), if_pos h, rem_bind (by omega)]

/-- `__net_decode_percent_bytes` takes the octets of one scalar after another, and only these. -/
theorem decodeTurn_takes (hbytes : ∀ b ∈ bytes, 0 ≤ b ∧ b < 256) (hpos : 0 ≤ position)
    (hfits : position + bytes.length + 4 < 2 ^ 63) : Takes bytes (decodeTurn bytes position) where
  last out := if_neg (Int.lt_irrefl _)
  scalar := by
    intro out i s back hdrop
    have hi := (drop_octets hdrop).2
    have hchar := Char.ofNat_toNat s
    have hscalar := isScalar_toNat s
    rcases octets_cases s with ⟨a, hs, ha, hv⟩ | ⟨a, b, hs, ha, hb, hv⟩ |
      ⟨a, b, c, hs, ha, hb, hc, hv⟩ | ⟨a, b, c, d, hs, ha, hb, hc, hd, hv⟩
    · rw [hs] at hdrop hi ⊢
      have hchar' : Char.ofNat a.toNat = s := by rw [← hv, Int.toNat_natCast, hchar]
      unfold decodeTurn
      dsimp only
      rw [if_pos (by omega), get_drop hdrop, Ending.value_bind, if_pos (by omega),
        asChar_ok ha.1 (by omega) (by omega), Ending.value_bind, i64_bind (by omega), hchar']
      rfl
    · rw [hs] at hdrop ⊢
      have hof : scalarOf (a % 32) [b] = (s.toNat : Int) := hv.symm
      rw [decodeTurn_lead hpos hfits hdrop (by omega) (leadByte_two ha) (by omega) (by omega)
        (by omega) (by omega)]
      refine ⟨[b], back, rfl, rfl, by simpa using hb, ?_, ?_, ?_⟩
      · rw [hof]
        unfold Tail at hb
        omega
      · rw [hof]
        exact hscalar
      · rw [hof, Int.toNat_natCast, hchar]
        rfl
    · rw [hs] at hdrop ⊢
      have hof : scalarOf (a % 16) [b, c] = (s.toNat : Int) := by
        rw [hv]
        show (a % 16 * 64 + b % 64) * 64 + c % 64 = _
        omega
      rw [decodeTurn_lead hpos hfits hdrop (by omega) (leadByte_three ha) (by omega) (by omega)
        (by omega) (by omega)]
      refine ⟨[b, c], back, rfl, rfl, by simpa using ⟨hb.1, hc⟩, ?_, ?_, ?_⟩
      · rw [hof]
        unfold Second3 Tail at hb
        omega
      · rw [hof]
        exact hscalar
      · rw [hof, Int.toNat_natCast, hchar]
        rfl
    · rw [hs] at hdrop ⊢
      have hof : scalarOf (a % 8) [b, c, d] = (s.toNat : Int) := by
        rw [hv]
        show ((a % 8 * 64 + b % 64) * 64 + c % 64) * 64 + d % 64 = _
        omega
      rw [decodeTurn_lead hpos hfits hdrop (by omega) (leadByte_four ha) (by omega) (by omega)
        (by omega) (by omega)]
      refine ⟨[b, c, d], back, rfl, rfl, by simpa using ⟨hb.1, hc, hd⟩, ?_, ?_, ?_⟩
      · rw [hof]
        unfold Second4 Tail at hb
        omega
      · rw [hof]
        exact hscalar
      · rw [hof, Int.toNat_natCast, hchar]
        rfl
  only := by
    intro out i r hi h
    obtain ⟨a, rest, hdrop⟩ : ∃ a rest, bytes.drop i = a :: rest :=
      ⟨_, _, List.drop_eq_getElem_cons hi⟩
    have hbyte := hbytes a (List.mem_of_mem_drop (hdrop ▸ List.mem_cons_self ..))
    by_cases hone : a < 0x80
    · unfold decodeTurn at h
      dsimp only at h
      rw [if_pos (by omega), get_drop hdrop, Ending.value_bind, if_pos hone,
        asChar_ok hbyte.1 (by omega) (by omega), Ending.value_bind, i64_bind (by omega)] at h
      cases h
      have hos := octets_one (a := a) (by omega)
      exact ⟨_, rest, by rw [hos]; exact hdrop, by rw [hos]; rfl⟩
    by_cases htwo : 0xC2 ≤ a ∧ a ≤ 0xDF
    · obtain ⟨conts, back, rfl, hlength, htails, hleast, his, rfl⟩ :=
        (decodeTurn_lead hpos hfits hdrop (by omega) (leadByte_two htwo) (by omega) (by omega)
          (by omega) (by omega)).mp h
      obtain ⟨b, rfl⟩ := List.length_eq_one_iff.mp (show conts.length = 1 by omega)
      have hos := octets_two htwo (htails b (by simp))
      exact ⟨_, back, by rw [hos]; exact hdrop, by rw [hos]; rfl⟩
    by_cases hthree : 0xE0 ≤ a ∧ a ≤ 0xEF
    · obtain ⟨conts, back, rfl, hlength, htails, hleast, his, rfl⟩ :=
        (decodeTurn_lead hpos hfits hdrop (by omega) (leadByte_three hthree) (by omega) (by omega)
          (by omega) (by omega)).mp h
      obtain ⟨b, c, rfl⟩ := List.length_eq_two.mp (show conts.length = 2 by omega)
      have hb := htails b (by simp)
      have hc := htails c (by simp)
      have hof : scalarOf (a % 16) [b, c] = a % 16 * 4096 + b % 64 * 64 + c % 64 := by
        show (a % 16 * 64 + b % 64) * 64 + c % 64 = _
        omega
      rw [hof] at hleast his ⊢
      have hsecond : Second3 a b := by
        unfold IsScalar at his
        unfold Tail at hc
        unfold Second3 Tail at *
        omega
      have hos := octets_three hthree hsecond hc
      exact ⟨_, back, by rw [hos]; exact hdrop, by rw [hos]; rfl⟩
    by_cases hfour : 0xF0 ≤ a ∧ a ≤ 0xF4
    · obtain ⟨conts, back, rfl, hlength, htails, hleast, his, rfl⟩ :=
        (decodeTurn_lead hpos hfits hdrop (by omega) (leadByte_four hfour) (by omega) (by omega)
          (by omega) (by omega)).mp h
      obtain ⟨b, c, d, rfl⟩ := List.length_eq_three.mp (show conts.length = 3 by omega)
      have hb := htails b (by simp)
      have hc := htails c (by simp)
      have hd := htails d (by simp)
      have hof : scalarOf (a % 8) [b, c, d] =
          a % 8 * 262144 + b % 64 * 4096 + c % 64 * 64 + d % 64 := by
        show ((a % 8 * 64 + b % 64) * 64 + c % 64) * 64 + d % 64 = _
        omega
      rw [hof] at hleast his ⊢
      have hsecond : Second4 a b := by
        unfold IsScalar at his
        unfold Second4 Tail at *
        omega
      have hos := octets_four hfour hsecond hc hd
      exact ⟨_, back, by rw [hos]; exact hdrop, by rw [hos]; rfl⟩
    · unfold decodeTurn leadByte at h
      dsimp only at h
      rw [if_pos (by omega), get_drop hdrop, Ending.value_bind, if_neg hone, if_neg htwo,
        if_neg hthree, if_neg hfour, i64_bind (by omega)] at h
      cases h

/-- What a run is decoded to is the text of its bytes. -/
theorem decodePercentBytes_value {s : Text} (hbytes : ∀ b ∈ bytes, 0 ≤ b ∧ b < 256)
    (hpos : 0 ≤ position) (hfits : position + bytes.length + 4 < 2 ^ 63) :
    decodePercentBytes bytes position = .value s ↔ bytes = textOctets s := by
  have hloop := @Takes.loop_iff _ _ _ _ Trap.outOfFuel (decodeTurn_takes hbytes hpos hfits)
    (bytes.length + 1) 0 [] s (Nat.zero_le _) (by omega)
  rw [List.drop_zero] at hloop
  unfold decodePercentBytes
  rw [show (([], 0) : Text × Int) = ([], ((0 : Nat) : Int)) from rfl, hloop]
  constructor
  · rintro ⟨t, ht, rfl⟩
    exact ht
  · intro h
    exact ⟨s, h, rfl⟩

/-! ## `percent_decode_component` -/

/-- `__net_hex_value` is the value of a hexadecimal digit, or -1. -/
theorem hexValue_eq (c : Char) : hexValue c = .value ((hexNumber c).getD (-1)) := by
  rw [hexNumber_eq]
  unfold hexValue
  dsimp only
  split
  · rw [i64_ok (by omega) (by omega)]
    rfl
  split
  · rw [i64_ok (by omega) (by omega)]
    rfl
  split
  · rw [i64_ok (by omega) (by omega)]
    rfl
  · rfl

/-- The rest of a text, after bytes that wait, is read as a text: the bytes with it. -/
inductive Reads : Text → List Int → Text → Prop
  | done {bytes : List Int} {s : Text} (hbytes : bytes = textOctets s) : Reads [] bytes s
  | escape {h l : Char} {high low : Int} {text s : Text} {bytes : List Int}
    (hh : hexNumber h = some high) (hl : hexNumber l = some low)
    (hrest : Reads text (bytes ++ [high * 16 + low]) s) : Reads ('%' :: h :: l :: text) bytes s
  | plain {c : Char} {text p s : Text} {bytes : List Int} (hc : c ≠ '%')
    (hbytes : bytes = textOctets p) (hrest : Reads text [] s) :
    Reads (c :: text) bytes (p ++ c :: s)

/-- The bytes that wait come from escapes between `byte_start` and `i`. -/
structure Decoding.Waits (text : Text) (d : Decoding) : Prop where
  inside : 0 ≤ d.i ∧ d.i ≤ text.length
  start : 0 ≤ d.byteStart
  waiting : d.bytes = [] ∨ d.byteStart + d.bytes.length ≤ d.i
  isByte : ∀ b ∈ d.bytes, 0 ≤ b ∧ b < 256

variable {text : Text} {d : Decoding}

theorem textOctets_eq_nil {p : Text} (h : textOctets p = []) : p = [] := by
  cases p with
  | nil => rfl
  | cons c p =>
    have hpos := Char.utf8Size_pos c
    have := congrArg List.length h
    rw [textOctets_cons, List.length_append, length_octets, List.length_nil] at this
    omega

theorem flush_iff (hsize : text.length + 24 < 2 ^ 63) (hd : d.Waits text) {f : Decoding} :
    d.flush = .value f ↔
      ∃ p, d.bytes = textOctets p ∧ f = { d with out := d.out ++ p, bytes := [] } := by
  unfold Decoding.flush
  obtain ⟨out, bytes, byteStart, i⟩ := d
  obtain ⟨⟨hi, hi'⟩, hstart, hwait, hbytes⟩ := hd
  dsimp only at hi hi' hstart hwait hbytes ⊢
  cases bytes with
  | nil =>
    constructor
    · intro h
      cases h
      exact ⟨[], rfl, by rw [List.append_nil]⟩
    · rintro ⟨p, hp, rfl⟩
      rw [textOctets_eq_nil hp.symm, List.append_nil]
      rfl
  | cons b bytes =>
    have hstart' : byteStart + (b :: bytes).length ≤ i := by
      rcases hwait with h | h
      · cases h
      · exact h
    have hvalue : ∀ s, decodePercentBytes (b :: bytes) byteStart = .value s ↔
        b :: bytes = textOctets s :=
      fun s => decodePercentBytes_value hbytes hstart (by omega)
    rw [if_neg (by simp)]
    constructor
    · intro h
      obtain ⟨p, hp, h⟩ := Ending.value_of_bind.mp h
      cases h
      exact ⟨p, (hvalue p).mp hp, rfl⟩
    · rintro ⟨p, hp, rfl⟩
      rw [(hvalue p).mpr hp]
      rfl

theorem substring_char {k : Nat} {c : Char} {rest : Text} {i j : Int} (h : text.drop k = c :: rest)
    (hi : i = k) (hj : j = k + 1) : (substring text i j : Parse Text) = .value [c] := by
  have hlength := congrArg List.length h
  rw [List.length_drop, List.length_cons] at hlength
  subst hi hj
  rw [substring_ok (by omega) (by omega) (by unfold size; omega), Int.toNat_natCast,
    show ((k : Int) + 1).toNat = k + 1 by omega, List.drop_take, Nat.add_sub_cancel_left, h]
  rfl

/-- A turn at a character that stands for itself decodes the bytes that wait. -/
theorem percentTurn_plain {k : Nat} {c : Char} {rest : Text} {r : Decoding ⊕ Decoding}
    (hsize : text.length + 24 < 2 ^ 63) (hd : d.Waits text) (hk : d.i = k)
    (hdrop : text.drop k = c :: rest) (hc : c ≠ '%') :
    percentTurn text d = .value r ↔ ∃ p, d.bytes = textOctets p ∧
      r = .inl { d with out := d.out ++ p ++ [c], bytes := [], i := d.i + 1 } := by
  have hlength := congrArg List.length hdrop
  rw [List.length_drop, List.length_cons] at hlength
  unfold percentTurn
  rw [if_pos (by unfold size; omega), i64_bind (by omega), substring_char hdrop hk (by omega),
    Ending.value_bind]
  dsimp only
  rw [show lastChar [c] ' ' = c from rfl, if_neg hc]
  constructor
  · intro h
    obtain ⟨f, hf, h⟩ := Ending.value_of_bind.mp h
    obtain ⟨p, hp, rfl⟩ := (flush_iff hsize hd).mp hf
    dsimp only at h
    rw [i64_bind (by omega)] at h
    cases h
    exact ⟨p, hp, rfl⟩
  · rintro ⟨p, hp, rfl⟩
    rw [(flush_iff hsize hd).mpr ⟨p, hp, rfl⟩, Ending.value_bind]
    dsimp only
    rw [i64_bind (by omega)]

/-- A turn at a `%` takes an escape. -/
theorem percentTurn_escape {k : Nat} {rest : Text} {r : Decoding ⊕ Decoding}
    (hsize : text.length + 24 < 2 ^ 63) (hk : d.i = k) (hdrop : text.drop k = '%' :: rest) :
    percentTurn text d = .value r ↔ ∃ h l back high low, rest = h :: l :: back ∧
      hexNumber h = some high ∧ hexNumber l = some low ∧
      r = .inl { d with
        bytes := d.bytes ++ [high * 16 + low]
        byteStart := if d.bytes.isEmpty then d.i else d.byteStart
        i := d.i + 3 } := by
  have hlength := congrArg List.length hdrop
  rw [List.length_drop, List.length_cons] at hlength
  unfold percentTurn
  rw [if_pos (by unfold size; omega), i64_ok (by omega) (by omega), Ending.value_bind,
    substring_char hdrop hk (by omega), Ending.value_bind]
  dsimp only
  rw [show lastChar ['%'] ' ' = '%' from rfl, if_pos rfl, i64_ok (by omega) (by omega),
    Ending.value_bind]
  rcases rest with _ | ⟨h, _ | ⟨l, back⟩⟩
  · rw [if_pos (by unfold size; rw [List.length_nil] at hlength; omega)]
    constructor
    · intro hr
      cases hr
    · rintro ⟨h, l, back, high, low, hrest, _⟩
      cases hrest
  · rw [if_pos (by unfold size; rw [List.length_singleton] at hlength; omega)]
    constructor
    · intro hr
      cases hr
    · rintro ⟨h, l, back, high, low, hrest, _⟩
      cases hrest
  · rw [List.length_cons, List.length_cons] at hlength
    have hnext : text.drop (k + 1) = h :: l :: back := by
      rw [← List.drop_drop, hdrop]
      rfl
    have hnext2 : text.drop (k + 2) = l :: back := by
      rw [← List.drop_drop, hdrop]
      rfl
    rw [if_neg (by unfold size; omega), i64_ok (by omega) (by omega), Ending.value_bind,
      Ending.value_bind, substring_char hnext (by omega) (by omega), Ending.value_bind,
      Ending.value_bind, Ending.value_bind, substring_char hnext2 (by omega) (by omega),
      Ending.value_bind]
    rw [show lastChar [h] ' ' = h from rfl, show lastChar [l] ' ' = l from rfl, hexValue_eq h,
      Ending.value_bind, hexValue_eq l, Ending.value_bind]
    cases hhigh : hexNumber h with
    | none =>
      rw [Option.getD_none, if_pos (.inl (by omega))]
      constructor
      · intro hr
        cases hr
      · rintro ⟨h, l, back, high, low, hrest, hh, _⟩
        cases hrest
        rw [hhigh] at hh
        cases hh
    | some high =>
      cases hlow : hexNumber l with
      | none =>
        rw [Option.getD_none, if_pos (.inr (by omega))]
        constructor
        · intro hr
          cases hr
        · rintro ⟨h, l, back, high, low, hrest, _, hl, _⟩
          cases hrest
          rw [hlow] at hl
          cases hl
      | some low =>
        have hh := hexNumber_bounds hhigh
        have hl := hexNumber_bounds hlow
        have hbyte : asUnsigned 8 (high * 16 + low) = high * 16 + low :=
          Int.emod_eq_of_lt (by omega) (by omega)
        rw [Option.getD_some, Option.getD_some, if_neg (by omega), i64_ok (by omega) (by omega),
          Ending.value_bind, i64_ok (by omega) (by omega), Ending.value_bind, hbyte,
          Ending.value_bind]
        constructor
        · intro hr
          cases hr
          exact ⟨h, l, back, high, low, rfl, hhigh, hlow, rfl⟩
        · rintro ⟨h, l, back, high, low, hrest, hh, hl, rfl⟩
          cases hrest
          rw [hhigh] at hh
          rw [hlow] at hl
          cases hh
          cases hl
          rfl

/-- The loop and the decoding after it give the text that is read. -/
theorem percentLoop_iff (hsize : text.length + 24 < 2 ^ 63) {n k : Nat} {r : Text}
    (hd : d.Waits text) (hk : d.i = k) (hn : text.length - k < n) :
    (Ending.loop .outOfFuel (percentTurn text) n d >>= fun d => d.flush >>= fun f => .value f.out) =
        (.value r : Parse Text) ↔
      ∃ s, Reads (text.drop k) d.bytes s ∧ r = d.out ++ s := by
  induction n generalizing d k with
  | zero => exact absurd hn (Nat.not_lt_zero _)
  | succ n ih =>
    have hinside := hd.inside
    rw [Ending.loop]
    cases hdrop : text.drop k with
    | nil =>
      have hlength := congrArg List.length hdrop
      rw [List.length_drop, List.length_nil] at hlength
      have hlast : percentTurn text d = .value (.inr d) := if_neg (by unfold size; omega)
      rw [hlast, Ending.value_bind, Ending.value_bind]
      constructor
      · intro h
        obtain ⟨f, hf, h⟩ := Ending.value_of_bind.mp h
        obtain ⟨p, hp, rfl⟩ := (flush_iff hsize hd).mp hf
        cases h
        exact ⟨p, .done hp, rfl⟩
      · rintro ⟨s, hs, rfl⟩
        cases hs with
        | done hp =>
          rw [(flush_iff hsize hd).mpr ⟨s, hp, rfl⟩, Ending.value_bind]
    | cons c rest =>
      have hlength := congrArg List.length hdrop
      rw [List.length_drop, List.length_cons] at hlength
      have hafter : ∀ m, text.drop (k + m) = (c :: rest).drop m := fun m => by
        rw [← List.drop_drop, hdrop]
      have hwaiting := hd.waiting
      by_cases hc : c = '%'
      · subst hc
        have hwaits : ∀ b : Int, 0 ≤ b ∧ b < 256 → d.i + 3 ≤ text.length → Decoding.Waits text
            { d with
              bytes := d.bytes ++ [b]
              byteStart := if d.bytes.isEmpty then d.i else d.byteStart
              i := d.i + 3 } := by
          intro b hb hle
          refine ⟨⟨by dsimp only; omega, hle⟩, ?_, .inr ?_, ?_⟩
          · dsimp only
            split
            · exact hinside.1
            · exact hd.start
          · dsimp only
            rw [List.length_append, List.length_singleton]
            split
            · rename_i hempty
              rw [List.isEmpty_iff.mp hempty, List.length_nil]
              omega
            · rename_i hsome
              rcases hwaiting with h | h
              · exact absurd (List.isEmpty_iff.mpr h) hsome
              · omega
          · intro v hv
            rcases List.mem_append.mp hv with hv | hv
            · exact hd.isByte v hv
            · rw [List.mem_singleton.mp hv]
              exact hb
        constructor
        · intro h
          obtain ⟨d', hloop, hend⟩ := Ending.value_of_bind.mp h
          obtain ⟨t, ht, hloop⟩ := Ending.value_of_bind.mp hloop
          obtain ⟨h1, l1, back, high, low, rfl, hh, hl, rfl⟩ :=
            (percentTurn_escape hsize hk hdrop).mp ht
          have hbh := hexNumber_bounds hh
          have hbl := hexNumber_bounds hl
          rw [List.length_cons, List.length_cons] at hlength
          obtain ⟨s, hs, rfl⟩ := (ih (k := k + 3) (hwaits _ (by omega) (by omega))
            (by dsimp only; omega) (by omega)).mp (Ending.value_of_bind.mpr ⟨d', hloop, hend⟩)
          rw [hafter] at hs
          exact ⟨s, .escape hh hl hs, rfl⟩
        · rintro ⟨s, hs, rfl⟩
          cases hs with
          | plain hc => exact absurd rfl hc
          | @escape h1 l1 high low back _ _ hh hl hs =>
            have hbh := hexNumber_bounds hh
            have hbl := hexNumber_bounds hl
            rw [List.length_cons, List.length_cons] at hlength
            rw [(percentTurn_escape hsize hk hdrop).mpr ⟨_, _, _, _, _, rfl, hh, hl, rfl⟩,
              Ending.value_bind]
            refine (ih (k := k + 3) (hwaits _ (by omega) (by omega)) (by dsimp only; omega)
              (by omega)).mpr ⟨s, ?_, rfl⟩
            rw [hafter]
            exact hs
      · have hwaits : ∀ p : Text, Decoding.Waits text
            { d with out := d.out ++ p ++ [c], bytes := [], i := d.i + 1 } := fun p =>
          ⟨⟨by dsimp only; omega, by dsimp only; omega⟩, hd.start, .inl rfl,
            fun v hv => absurd hv List.not_mem_nil⟩
        constructor
        · intro h
          obtain ⟨d', hloop, hend⟩ := Ending.value_of_bind.mp h
          obtain ⟨t, ht, hloop⟩ := Ending.value_of_bind.mp hloop
          obtain ⟨p, hp, rfl⟩ := (percentTurn_plain hsize hd hk hdrop hc).mp ht
          obtain ⟨s, hs, rfl⟩ := (ih (k := k + 1) (hwaits p) (by dsimp only; omega) (by omega)).mp
            (Ending.value_of_bind.mpr ⟨d', hloop, hend⟩)
          rw [hafter] at hs
          refine ⟨p ++ c :: s, .plain hc hp hs, ?_⟩
          simp only [List.append_assoc, List.singleton_append]
        · rintro ⟨s, hs, rfl⟩
          cases hs with
          | escape => exact absurd rfl hc
          | @plain _ _ p s _ _ hp hs =>
            rw [(percentTurn_plain hsize hd hk hdrop hc).mpr ⟨p, hp, rfl⟩, Ending.value_bind]
            refine (ih (k := k + 1) (hwaits p) (by dsimp only; omega) (by omega)).mpr ⟨s, ?_, ?_⟩
            · rw [hafter]
              exact hs
            · simp only [List.append_assoc, List.singleton_append]

/-- The decoder gives the text that is read. -/
theorem percentDecode_iff (t : Str) {s : Text} :
    percentDecodeComponent t.text = .value s ↔ Reads t.text [] s := by
  have hsize : t.text.length + 24 < 2 ^ 63 := by
    have := length_le_byteSize t.text
    have := t.fits
    omega
  have hwaits : Decoding.Waits t.text ⟨[], [], 0, 0⟩ :=
    ⟨⟨Int.le_refl 0, Int.natCast_nonneg _⟩, Int.le_refl 0, .inl rfl,
      fun v hv => absurd hv List.not_mem_nil⟩
  have hloop := percentLoop_iff (n := t.text.length + 1) (k := 0) (r := s) hsize hwaits rfl
    (by omega)
  rw [List.drop_zero] at hloop
  refine hloop.trans ⟨?_, fun h => ⟨s, h, rfl⟩⟩
  rintro ⟨s', hs, rfl⟩
  exact hs

/-! ## Runs -/

theorem hexNumber_percent : hexNumber '%' = none := by decide

/-- A run at the front is read into the bytes that wait. -/
theorem Escapes.reads {front back s : Text} {run : List Int} (h : Escapes front run) :
    Reads (front ++ back) bytes s ↔ Reads back (bytes ++ run) s := by
  induction h generalizing bytes with
  | nil => rw [List.nil_append, List.append_nil]
  | @cons h l high low front run hh hl hrest ih =>
    rw [List.append_cons bytes, ← ih]
    constructor
    · intro hr
      cases hr with
      | escape hh' hl' hr =>
        rw [hh] at hh'
        rw [hl] at hl'
        cases hh'
        cases hl'
        exact hr
      | plain hc => exact absurd rfl hc
    · exact fun hr => .escape hh hl hr

/-- At a character that is no `%`, and at the end, the bytes that wait are a text of their own. -/
theorem reads_stop {s : Text} (hstop : text.head? ≠ some '%') :
    Reads text bytes s ↔ ∃ p s', bytes = textOctets p ∧ Reads text [] s' ∧ s = p ++ s' := by
  constructor
  · intro h
    cases h with
    | done hs => exact ⟨s, [], hs, .done rfl, (List.append_nil s).symm⟩
    | escape => exact absurd rfl hstop
    | @plain c text p s _ hc hp hs => exact ⟨p, c :: s, hp, .plain (p := []) hc rfl hs, rfl⟩
  · rintro ⟨p, s', hp, hs, rfl⟩
    cases hs with
    | done hs' =>
      rw [textOctets_eq_nil hs'.symm, List.append_nil]
      exact .done hp
    | escape => exact absurd rfl hstop
    | @plain c text q s _ hc hq hs =>
      rw [textOctets_eq_nil hq.symm, List.nil_append]
      exact .plain hc hp hs

theorem spells_nil {s : Text} : Spells [] s ↔ s = [] := by
  constructor
  · rintro ⟨parts, hparts, rfl⟩
    cases hparts
    rfl
  · rintro rfl
    exact ⟨[], .nil, rfl⟩

theorem spells_cons {piece : Piece} {pieces : List Piece} {s : Text} :
    Spells (piece :: pieces) s ↔ ∃ p s', piece.Spells p ∧ Spells pieces s' ∧ s = p ++ s' := by
  constructor
  · rintro ⟨parts, hparts, rfl⟩
    cases hparts with
    | @cons _ p _ parts hp hrest => exact ⟨p, parts.flatten, hp, ⟨parts, hrest, rfl⟩, rfl⟩
  · rintro ⟨p, s', hp, ⟨parts, hparts, rfl⟩, rfl⟩
    exact ⟨p :: parts, .cons hp hparts, rfl⟩

/-- What is read is what the parts spell. -/
theorem Cut.reads_iff {pieces : List Piece} {s : Text} (h : Cut text pieces) :
    Reads text [] s ↔ Spells pieces s := by
  induction h generalizing s with
  | nil =>
    rw [spells_nil]
    constructor
    · intro hr
      cases hr with
      | done hs => exact textOctets_eq_nil hs.symm
    · rintro rfl
      exact .done rfl
  | @plain c text pieces hc hrest ih =>
    rw [spells_cons]
    constructor
    · intro hr
      cases hr with
      | escape => exact absurd rfl hc
      | @plain _ _ p s _ _ hp hs =>
        rw [textOctets_eq_nil hp.symm]
        exact ⟨[c], s, rfl, ih.mp hs, rfl⟩
    · rintro ⟨p, s', rfl, hs, rfl⟩
      exact .plain (p := []) hc rfl (ih.mpr hs)
  | run hfront _ hstop _ ih =>
    rw [hfront.reads, List.nil_append, reads_stop hstop, spells_cons]
    simp only [ih]
    rfl

/-- A text that is cut after a run at its front. -/
def CutAfterRun (text : Text) : Prop :=
  ∃ front back run pieces, text = front ++ back ∧ Escapes front run ∧ back.head? ≠ some '%' ∧
    Cut back pieces

theorem CutAfterRun.cut (h : CutAfterRun text) : ∃ pieces, Cut text pieces := by
  obtain ⟨front, back, run, pieces, rfl, hfront, hstop, hcut⟩ := h
  cases hfront with
  | nil => exact ⟨pieces, hcut⟩
  | cons hh hl hrest => exact ⟨_, .run (.cons hh hl hrest) (List.cons_ne_nil _ _) hstop hcut⟩

theorem cutAfterRun_nil : CutAfterRun [] := ⟨[], [], [], [], rfl, .nil, by simp, .nil⟩

theorem CutAfterRun.plain {c : Char} (hc : c ≠ '%') (h : CutAfterRun text) :
    CutAfterRun (c :: text) := by
  obtain ⟨pieces, hcut⟩ := h.cut
  exact ⟨[], c :: text, [], _, rfl, .nil, by simpa using hc, .plain hc hcut⟩

theorem CutAfterRun.escape {h l : Char} {high low : Int} (hh : hexNumber h = some high)
    (hl : hexNumber l = some low) (hcut : CutAfterRun text) :
    CutAfterRun ('%' :: h :: l :: text) := by
  obtain ⟨front, back, run, pieces, rfl, hfront, hstop, hrest⟩ := hcut
  exact ⟨'%' :: h :: l :: front, back, _, pieces, rfl, .cons hh hl hfront, hstop, hrest⟩

/-- A text that is read is cut. -/
theorem Reads.cut {s : Text} (h : Reads text bytes s) : CutAfterRun text := by
  induction h with
  | done => exact cutAfterRun_nil
  | escape hh hl _ ih => exact ih.escape hh hl
  | plain hc _ _ ih => exact ih.plain hc

theorem percentsEscape_nil : PercentsEscape [] := by
  intro front rest h
  exact absurd h.symm (List.append_ne_nil_of_right_ne_nil _ (List.cons_ne_nil _ _))

theorem percentsEscape_cons {c : Char} : PercentsEscape (c :: text) ↔
    (c = '%' → ∃ h l back, text = h :: l :: back ∧ (hexNumber h).isSome ∧ (hexNumber l).isSome) ∧
      PercentsEscape text := by
  constructor
  · intro h
    refine ⟨?_, fun front rest htext => h (c :: front) rest (by rw [htext]; rfl)⟩
    rintro rfl
    exact h [] text rfl
  · rintro ⟨hc, h⟩ front rest htext
    cases front with
    | nil =>
      cases htext
      exact hc rfl
    | cons d front =>
      cases htext
      exact h front rest rfl

theorem Escapes.percentsEscape {front back : Text} {run : List Int} (h : Escapes front run)
    (hback : PercentsEscape back) : PercentsEscape (front ++ back) := by
  induction h with
  | nil => exact hback
  | @cons h l high low front run hh hl _ ih =>
    have hne : ∀ {c : Char} {v : Int}, hexNumber c = some v → c ≠ '%' := by
      rintro c v hc rfl
      rw [hexNumber_percent] at hc
      cases hc
    refine percentsEscape_cons.mpr ⟨fun _ => ?_, percentsEscape_cons.mpr ⟨fun hc => ?_,
      percentsEscape_cons.mpr ⟨fun hc => ?_, ih⟩⟩⟩
    · exact ⟨h, l, front ++ back, rfl, by rw [hh]; rfl, by rw [hl]; rfl⟩
    · exact absurd hc (hne hh)
    · exact absurd hc (hne hl)

theorem PercentsEscape.cut (h : PercentsEscape text) : CutAfterRun text := by
  induction hn : text.length using Nat.strong_induction_on generalizing text with
  | _ n ih =>
    subst hn
    cases text with
    | nil => exact cutAfterRun_nil
    | cons c text =>
      obtain ⟨hc, hrest⟩ := percentsEscape_cons.mp h
      by_cases hpercent : c = '%'
      · obtain ⟨h1, l1, back, rfl, hh, hl⟩ := hc hpercent
        obtain ⟨high, hh⟩ := Option.isSome_iff_exists.mp hh
        obtain ⟨low, hl⟩ := Option.isSome_iff_exists.mp hl
        have hback := (percentsEscape_cons.mp (percentsEscape_cons.mp hrest).2).2
        rw [hpercent]
        refine (ih back.length ?_ hback rfl).escape hh hl
        simp only [List.length_cons]
        omega
      · exact (ih text.length (Nat.lt_succ_self _) hrest rfl).plain hpercent

/-- A text is cut exactly when each `%` starts an escape. -/
theorem cut_iff : (∃ pieces, Cut text pieces) ↔ PercentsEscape text := by
  constructor
  · rintro ⟨pieces, h⟩
    induction h with
    | nil => exact percentsEscape_nil
    | plain hc _ ih => exact percentsEscape_cons.mpr ⟨fun h => absurd h hc, ih⟩
    | run hfront _ _ _ ih => exact hfront.percentsEscape ih
  · exact fun h => h.cut.cut

/-- Parts spell a text exactly when their runs are well formed. -/
theorem spells_iff {pieces : List Piece} : (∃ s, Spells pieces s) ↔ RunsWellFormed pieces := by
  unfold RunsWellFormed
  induction pieces with
  | nil =>
    constructor
    · exact fun _ bytes h => absurd h List.not_mem_nil
    · exact fun _ => ⟨[], spells_nil.mpr rfl⟩
  | cons piece pieces ih =>
    constructor
    · rintro ⟨s, hs⟩ bytes hmem
      obtain ⟨p, s', hp, hs', rfl⟩ := spells_cons.mp hs
      rcases List.mem_cons.mp hmem with rfl | hmem
      · exact wellFormed_iff.mpr ⟨p, hp⟩
      · exact ih.mp ⟨s', hs'⟩ bytes hmem
    · intro h
      obtain ⟨s, hs⟩ := ih.mpr fun bytes hmem => h bytes (List.mem_cons_of_mem _ hmem)
      cases piece with
      | plain c => exact ⟨[c] ++ s, spells_cons.mpr ⟨[c], s, rfl, hs, rfl⟩⟩
      | run bytes =>
        obtain ⟨p, hp⟩ := wellFormed_iff.mp (h bytes (List.mem_cons_self ..))
        exact ⟨p ++ s, spells_cons.mpr ⟨p, s, hp, hs, rfl⟩⟩

/-! ## Encoding -/

/-- The digit of a value. -/
theorem netHexDigit_spec {v : Int} (h : 0 ≤ v ∧ v < 16) :
    ∃ c, netHexDigit v = [c] ∧ hexNumber c = some v := by
  have hdigits : ∀ n : Fin 16, netHexDigit (n.val : Int) = ["0123456789ABCDEF".toList.getD n '0'] ∧
      hexNumber ("0123456789ABCDEF".toList.getD n '0') = some (n.val : Int) := by
    decide
  have hv := hdigits ⟨v.toNat, by omega⟩
  rw [show (((⟨v.toNat, by omega⟩ : Fin 16).val : Nat) : Int) = v from Int.toNat_of_nonneg h.1]
    at hv
  exact ⟨_, hv⟩

/-- The escape of a byte. -/
theorem percentByte_spec {b : Int} (h : 0 ≤ b ∧ b < 256) :
    ∃ text, percentByte b = .value text ∧ Escapes text [b] := by
  obtain ⟨hc, hhigh, hhigh'⟩ := netHexDigit_spec (v := b / 16) (by omega)
  obtain ⟨lc, hlow, hlow'⟩ := netHexDigit_spec (v := b % 16) (by omega)
  unfold percentByte
  rw [div_bind ⟨h.1, by omega, by omega⟩, rem_bind ⟨h.1, by omega, by omega⟩, hhigh, hlow]
  refine ⟨_, rfl, ?_⟩
  have hescape := Escapes.cons hhigh' hlow' .nil
  rw [show b / 16 * 16 + b % 16 = b by omega] at hescape
  exact hescape

theorem Escapes.append {front back : Text} {run run' : List Int} (h : Escapes front run)
    (h' : Escapes back run') : Escapes (front ++ back) (run ++ run') := by
  induction h with
  | nil => exact h'
  | cons hh hl _ ih => exact .cons hh hl ih

/-- `__net_encode_codepoint` escapes the octets of the scalar. -/
theorem encodeCodepoint_spec (c : Char) :
    ∃ text, encodeCodepoint (codePoint c) = .value text ∧ Escapes text (octets c) := by
  obtain ⟨hlo, hhi, _⟩ := isScalar_toNat c
  have hu8 : ∀ n : Int, 0 ≤ n → n < 256 → asUnsigned 8 n = n := fun n h h' =>
    Int.emod_eq_of_lt h (by omega)
  unfold encodeCodepoint octets codePoint
  generalize (c.toNat : Int) = cp at hlo hhi ⊢
  dsimp only
  split
  · rw [hu8 cp hlo (by omega)]
    exact percentByte_spec (by omega)
  split
  · obtain ⟨first, hfirst, hescape⟩ := percentByte_spec (b := 0xC0 + cp / 64) (by omega)
    obtain ⟨second, hsecond, hescape'⟩ := percentByte_spec (b := 0x80 + cp % 64) (by omega)
    rw [div_bind ⟨hlo, by omega, by omega⟩, i64_bind (by omega), hu8 _ (by omega) (by omega),
      hfirst, Ending.value_bind, rem_bind ⟨hlo, by omega, by omega⟩, i64_bind (by omega),
      hu8 _ (by omega) (by omega), hsecond, Ending.value_bind]
    exact ⟨_, rfl, hescape.append hescape'⟩
  split
  · obtain ⟨first, hfirst, hescape⟩ := percentByte_spec (b := 0xE0 + cp / 4096) (by omega)
    obtain ⟨second, hsecond, hescape'⟩ := percentByte_spec (b := 0x80 + cp / 64 % 64) (by omega)
    obtain ⟨third, hthird, hescape''⟩ := percentByte_spec (b := 0x80 + cp % 64) (by omega)
    rw [div_bind ⟨hlo, by omega, by omega⟩, i64_bind (by omega), hu8 _ (by omega) (by omega),
      hfirst, Ending.value_bind, div_bind ⟨hlo, by omega, by omega⟩, rem_bind (by omega),
      i64_bind (by omega), hu8 _ (by omega) (by omega), hsecond, Ending.value_bind,
      rem_bind ⟨hlo, by omega, by omega⟩, i64_bind (by omega), hu8 _ (by omega) (by omega), hthird,
      Ending.value_bind]
    exact ⟨_, rfl, (hescape.append hescape').append hescape''⟩
  · obtain ⟨first, hfirst, hescape⟩ := percentByte_spec (b := 0xF0 + cp / 262144) (by omega)
    obtain ⟨second, hsecond, hescape'⟩ := percentByte_spec (b := 0x80 + cp / 4096 % 64) (by omega)
    obtain ⟨third, hthird, hescape''⟩ := percentByte_spec (b := 0x80 + cp / 64 % 64) (by omega)
    obtain ⟨fourth, hfourth, hlast⟩ := percentByte_spec (b := 0x80 + cp % 64) (by omega)
    rw [div_bind ⟨hlo, by omega, by omega⟩, i64_bind (by omega), hu8 _ (by omega) (by omega),
      hfirst, Ending.value_bind, div_bind ⟨hlo, by omega, by omega⟩, rem_bind (by omega),
      i64_bind (by omega), hu8 _ (by omega) (by omega), hsecond, Ending.value_bind,
      div_bind ⟨hlo, by omega, by omega⟩, rem_bind (by omega), i64_bind (by omega),
      hu8 _ (by omega) (by omega), hthird, Ending.value_bind, rem_bind ⟨hlo, by omega, by omega⟩,
      i64_bind (by omega), hu8 _ (by omega) (by omega), hfourth, Ending.value_bind]
    exact ⟨_, rfl, ((hescape.append hescape').append hescape'').append hlast⟩

theorem unreserved_ne_percent {c : Char} (h : isUnreserved (codePoint c) = true) : c ≠ '%' := by
  rintro rfl
  exact absurd h (by decide)

/-- The encoder gives a text that is read as the text, after the bytes that wait. -/
theorem encode_reads (s : Text) :
    ∀ out : Text, ∃ text, s.foldlM encodeTurn out = .value (out ++ text) ∧
    ∀ p : Text, Reads text (textOctets p) (p ++ s) := by
  induction s with
  | nil =>
    intro out
    refine ⟨[], by rw [List.append_nil]; rfl, fun p => ?_⟩
    rw [List.append_nil]
    exact .done rfl
  | cons c s ih =>
    intro out
    rw [List.foldlM_cons, encodeTurn]
    split
    · rename_i hplain
      obtain ⟨text, htext, hreads⟩ := ih (out ++ [c])
      refine ⟨c :: text, ?_, fun p => .plain (unreserved_ne_percent hplain) rfl (hreads [])⟩
      rw [Ending.value_bind, htext, ← List.append_cons]
    · obtain ⟨front, hfront, hescapes⟩ := encodeCodepoint_spec c
      obtain ⟨text, htext, hreads⟩ := ih (out ++ front)
      refine ⟨front ++ text, ?_, fun p => ?_⟩
      · rw [hfront, Ending.value_bind, Ending.value_bind, htext, List.append_assoc]
      · rw [hescapes.reads, List.append_cons]
        have hnext := hreads (p ++ [c])
        rw [textOctets_append, textOctets_cons, textOctets_nil, List.append_nil] at hnext
        exact hnext

/-! ## Inverse and strict -/

/-- The encoder's text is decoded to the text it encodes. A text is decoded exactly when each `%` in
it starts an escape and each maximal run of escapes is well-formed UTF-8, and then to what its parts
spell. -/
theorem percent_coding_exact :
    (∀ s : Str, ∃ text, percentEncodeComponent s.text = .value text ∧
      ∀ t : Str, t.text = text → percentDecodeComponent t.text = .value s.text) ∧
    ∀ t : Str,
      ((∃ s, percentDecodeComponent t.text = .value s) ↔
        PercentsEscape t.text ∧ ∀ pieces, Cut t.text pieces → RunsWellFormed pieces) ∧
      (PercentsEscape t.text → ∃ pieces, Cut t.text pieces) ∧
      ∀ pieces s, Cut t.text pieces →
        (percentDecodeComponent t.text = .value s ↔ Spells pieces s) := by
  refine ⟨fun s => ?_, fun t => ⟨?_, cut_iff.mpr, fun pieces s hcut => ?_⟩⟩
  · obtain ⟨text, htext, hreads⟩ := encode_reads s.text []
    refine ⟨text, htext, fun t ht => ?_⟩
    rw [percentDecode_iff, ht]
    exact hreads []
  · constructor
    · rintro ⟨s, hs⟩
      have hreads := (percentDecode_iff t).mp hs
      refine ⟨cut_iff.mp hreads.cut.cut, fun pieces hcut => ?_⟩
      exact spells_iff.mp ⟨s, hcut.reads_iff.mp hreads⟩
    · rintro ⟨hescape, hruns⟩
      obtain ⟨pieces, hcut⟩ := cut_iff.mpr hescape
      obtain ⟨s, hs⟩ := spells_iff.mpr (hruns pieces hcut)
      exact ⟨s, (percentDecode_iff t).mpr (hcut.reads_iff.mpr hs)⟩
  · rw [percentDecode_iff]
    exact hcut.reads_iff

/-- A character of two bytes, and a run after a character that stands for itself. -/
theorem percent_coding_exact_at :
    percentDecodeComponent ['%', 'C', '3', '%', 'A', '9'] = .value ['é'] ∧
      percentDecodeComponent ['x', '%', '4', '1'] = .value ['x', 'A'] := by
  constructor
  · obtain ⟨text, htext, hdecode⟩ := percent_coding_exact.1 ⟨['é'], by decide⟩
    have hencode : percentEncodeComponent ['é'] = .value ['%', 'C', '3', '%', 'A', '9'] := by
      decide +kernel
    refine hdecode ⟨['%', 'C', '3', '%', 'A', '9'], by decide⟩ ?_
    exact Ending.value.inj (hencode.symm.trans htext)
  · have hcut : Cut ['x', '%', '4', '1'] [.plain 'x', .run [0x41]] :=
      .plain (by decide) (@Cut.run ['%', '4', '1'] [] _ _
        (@Escapes.cons _ _ 4 1 _ _ (by decide) (by decide) .nil) (by decide) (by decide) .nil)
    refine ((percent_coding_exact.2 ⟨['x', '%', '4', '1'], by decide⟩).2.2 _ _ hcut).mpr ?_
    exact spells_cons.mpr ⟨['x'], ['A'], rfl,
      spells_cons.mpr ⟨['A'], [], rfl, spells_nil.mpr rfl, rfl⟩,
      rfl⟩

end stdlib.net
