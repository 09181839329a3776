-- The parts of the parsers that do not search: numbers, zones, percent escapes. They never panic,
-- their errors point into their text, and what they accept is ASCII.
import Mathlib.Algebra.Order.Ring.Int
import OtterFusion.Stdlib.Cuts
import OtterFusion.Stdlib.NetTypes

open base.trapping

namespace stdlib.net

/-- The error points to a place between two offsets. -/
def Points (lo hi : Int) (error : ParseError) : Prop := lo ≤ error.position ∧ error.position ≤ hi

theorem Points.mono {lo hi lo' hi' : Int} {error : ParseError} (h : Points lo hi error)
    (hlo : lo' ≤ lo) (hhi : hi ≤ hi') : Points lo' hi' error :=
  ⟨Int.le_trans hlo h.1, Int.le_trans h.2 hhi⟩

/-! ## Errors -/

/-- An error is no value. -/
theorem parseError_ne {A : Type} {message : String} {x : Parse Int} {a : A} :
    (do parseError message (← x)) ≠ (.value a : Parse A) := by
  intro h
  obtain ⟨_, _, h⟩ := Ending.value_of_bind.mp h
  cases h

theorem shiftParseError_ne {A : Type} {error : ParseError} {n : Int} {a : A} :
    shiftParseError error n ≠ (.value a : Parse A) := by
  intro h
  obtain ⟨_, _, h⟩ := Ending.value_of_bind.mp h
  cases h

/-! ## Numbers -/

variable {text : Text} {position : Int}

/-- What a loop over characters has read is ASCII, if the rest is the whole text is. -/
def ReadAscii (text rest : Text) : Prop := Ascii rest → Ascii text

theorem ReadAscii.step {c : Char} {rest : Text} (h : ReadAscii text (c :: rest))
    (hc : codePoint c < 128) : ReadAscii text rest := by
  intro hrest
  apply h
  intro d hd
  rcases List.mem_cons.mp hd with rfl | hd
  · exact utf8Size_of_lt hc
  · exact hrest d hd

/-- A decimal number in range, or an error in the text. -/
theorem parseDecimal_ends {max : Int} (hpos : 0 ≤ position)
    (hfits : position + text.length < 2 ^ 63) (hmax : 0 ≤ max) (hmax' : max ≤ 2 ^ 32) :
    (parseDecimal text position max).Ends (fun v => 0 ≤ v ∧ v ≤ max ∧ Ascii text)
      (Points position (position + text.length)) := by
  unfold parseDecimal
  split
  · exact ⟨by dsimp only; omega, by dsimp only; omega⟩
  have hloop : (text.foldlM (decimalTurn position max) (0, 0)).Ends
      (fun p => (0 ≤ p.1 ∧ p.1 ≤ max) ∧ (0 ≤ p.2 ∧ p.2 + ([] : Text).length = text.length) ∧
        ReadAscii text [])
      (Points position (position + text.length)) := by
    refine Ending.foldlM_ends (I := fun (p : Int × Int) (rest : Text) =>
      (0 ≤ p.1 ∧ p.1 ≤ max) ∧ (0 ≤ p.2 ∧ p.2 + rest.length = text.length) ∧ ReadAscii text rest)
      ?_ ⟨⟨by omega, hmax⟩, ⟨by omega, by dsimp only; omega⟩, id⟩
    rintro ⟨value, i⟩ ch rest ⟨⟨hv, hv'⟩, ⟨hi, hlen⟩, hread⟩
    dsimp only at hv hv' hi hlen
    rw [List.length_cons] at hlen
    unfold decimalTurn
    dsimp only
    split
    · refine ends_i64 (by omega) (by omega) ?_
      exact ⟨by dsimp only; omega, by dsimp only; omega⟩
    rename_i hdigit
    refine ends_i64 (by omega) (by omega) ?_
    refine ends_i64 (by omega) (by omega) ?_
    refine ends_i64 (by omega) (by omega) ?_
    split
    · refine ends_i64 (by omega) (by omega) ?_
      exact ⟨by dsimp only; omega, by dsimp only; omega⟩
    refine ends_i64 (by omega) (by omega) ?_
    exact ⟨⟨by dsimp only; omega, by dsimp only; omega⟩, ⟨by dsimp only; omega,
      by dsimp only; omega⟩, hread.step (by omega)⟩
  refine hloop.bind fun p hp => ?_
  exact ⟨hp.1.1, hp.1.2, hp.2.2 fun _ hc => by cases hc⟩

theorem hexDigit_ends {i : Int} {ch : Char} (hlo : -2 ^ 63 ≤ position + i)
    (hhi : position + i < 2 ^ 63) :
    (hexDigit position i ch).Ends (fun d => 0 ≤ d ∧ d < 16 ∧ codePoint ch < 128)
      (fun e => e.position = position + i) := by
  unfold hexDigit
  dsimp only
  split
  · rw [i64_ok (by omega) (by omega)]
    exact ⟨by omega, by omega, by omega⟩
  split
  · rw [i64_ok (by omega) (by omega)]
    exact ⟨by omega, by omega, by omega⟩
  split
  · rw [i64_ok (by omega) (by omega)]
    exact ⟨by omega, by omega, by omega⟩
  · exact ends_i64 hlo hhi rfl

/-- A group of at most four hex digits, or an error in the text. -/
theorem parseHexGroup_ends (hpos : 0 ≤ position) (hfits : position + text.length < 2 ^ 63) :
    (parseHexGroup text position).Ends (fun v => 0 ≤ v ∧ v < 2 ^ 16 ∧ Ascii text)
      (Points position (position + text.length)) := by
  unfold parseHexGroup size
  split
  · exact ⟨by dsimp only; omega, by dsimp only; omega⟩
  split
  · refine ends_i64 (by omega) (by omega) ?_
    exact ⟨by dsimp only; omega, by dsimp only; omega⟩
  rename_i hshort
  have hloop : (text.foldlM (hexTurn position) (0, 0)).Ends
      (fun p => (0 ≤ p.1 ∧ p.1 < 16 ^ p.2.toNat) ∧
        (0 ≤ p.2 ∧ p.2 + ([] : Text).length = text.length) ∧ ReadAscii text [])
      (Points position (position + text.length)) := by
    refine Ending.foldlM_ends (I := fun (p : Int × Int) (rest : Text) =>
      (0 ≤ p.1 ∧ p.1 < 16 ^ p.2.toNat) ∧ (0 ≤ p.2 ∧ p.2 + rest.length = text.length) ∧
        ReadAscii text rest)
      ?_ ⟨⟨by omega, by decide⟩, ⟨by omega, by dsimp only; omega⟩, id⟩
    rintro ⟨value, i⟩ ch rest ⟨⟨hv, hv'⟩, ⟨hi, hlen⟩, hread⟩
    dsimp only at hv hv' hi hlen
    rw [List.length_cons] at hlen
    have hpow : (16 : Int) ^ i.toNat ≤ 16 ^ 3 := by
      have := Nat.pow_le_pow_right (n := 16) (by omega) (show i.toNat ≤ 3 by omega)
      exact_mod_cast this
    unfold hexTurn
    dsimp only
    refine ((hexDigit_ends (by omega) (by omega)).mono (fun _ h => h) fun e he => ?_).bind
      fun digit hdigit => ?_
    · exact ⟨by omega, by omega⟩
    refine ends_i64 (by omega) (by omega) ?_
    refine ends_i64 (by omega) (by omega) ?_
    refine ends_i64 (by omega) (by omega) ?_
    refine ⟨⟨by dsimp only; omega, ?_⟩, ⟨by dsimp only; omega, by dsimp only; omega⟩,
      hread.step hdigit.2.2⟩
    dsimp only
    rw [show (i + 1).toNat = i.toNat + 1 by omega, pow_succ]
    omega
  refine hloop.bind fun p hp => ?_
  obtain ⟨⟨hv, hv'⟩, ⟨hi, hlen⟩, hread⟩ := hp
  have hpow : (16 : Int) ^ p.2.toNat ≤ 16 ^ 4 := by
    rw [List.length_nil] at hlen
    have := Nat.pow_le_pow_right (n := 16) (by omega) (show p.2.toNat ≤ 4 by omega)
    exact_mod_cast this
  exact ⟨hv, by omega, hread fun _ hc => by cases hc⟩

theorem codePoint_of_isZoneChar {ch : Char} (h : isZoneChar ch = true) : codePoint ch < 128 := by
  unfold isZoneChar at h
  simp only [Bool.or_eq_true, Bool.and_eq_true, decide_eq_true_eq, beq_iff_eq] at h
  omega

/-- A zone is accepted when it is not empty and each character belongs in a zone. -/
theorem validZoneId_ends (hpos : 0 ≤ position) (hfits : position + text.length < 2 ^ 63) :
    (validZoneId text position).Ends (fun _ => text ≠ [] ∧ ∀ c ∈ text, isZoneChar c = true)
      (fun e => Points position (position + text.length) e ∧
        ¬(text ≠ [] ∧ ∀ c ∈ text, isZoneChar c = true)) := by
  unfold validZoneId
  split
  · rename_i hempty
    exact ⟨⟨by dsimp only; omega, by dsimp only; omega⟩, fun h => h.1 hempty⟩
  rename_i hne
  refine Ending.Ends.bind (P := fun _ => ∀ c ∈ text, isZoneChar c = true) ?_
    fun _ h => ⟨hne, h⟩
  refine (Ending.foldlM_ends (I := fun (i : Int) (rest : Text) =>
    (0 ≤ i ∧ i + rest.length = text.length) ∧ (∀ c ∈ rest, c ∈ text) ∧
      ((∀ c ∈ rest, isZoneChar c = true) → ∀ c ∈ text, isZoneChar c = true)) ?_ ?_).mono
    (fun _ h => h.2.2 fun _ hc => by cases hc) fun _ h => h
  · rintro i ch rest ⟨⟨hi, hlen⟩, hmem, hall⟩
    rw [List.length_cons] at hlen
    split
    · rename_i hzone
      rw [i64_ok (by omega) (by omega)]
      refine ⟨⟨by omega, by omega⟩, fun c hc => hmem c (List.mem_cons_of_mem ch hc), fun h => ?_⟩
      exact hall (List.forall_mem_cons.mpr ⟨hzone, h⟩)
    · rename_i hzone
      refine ends_i64 (by omega) (by omega) ?_
      refine ⟨⟨by dsimp only; omega, by dsimp only; omega⟩, fun h => hzone ?_⟩
      exact h.2 ch (hmem ch List.mem_cons_self)
  · exact ⟨⟨by omega, by omega⟩, fun _ h => h, fun h => h⟩

/-! ## Percent escapes -/

theorem hexValue_ends (ch : Char) : (hexValue ch).Ends (fun v => v < 16) (fun _ => False) := by
  unfold hexValue
  dsimp only
  split
  · rw [i64_ok (by omega) (by omega)]
    show _ < _
    omega
  split
  · rw [i64_ok (by omega) (by omega)]
    show _ < _
    omega
  split
  · rw [i64_ok (by omega) (by omega)]
    show _ < _
    omega
  · show (-1 : Int) < 16
    omega

/-- `%` of numbers that are not negative. -/
theorem ends_rem {A : Type} {E : Type} {P : A → Prop} {Q : E → Prop} {a b : Int} {f : Int → Run E A}
    (ha : 0 ≤ a) (ha' : a < 2 ^ 63) (hb : 0 < b) (h : 0 ≤ a.tmod b → a.tmod b < b →
      (f (a.tmod b)).Ends P Q) : (rem a b >>= f).Ends P Q := by
  have hlo : 0 ≤ a.tmod b := Int.tmod_nonneg b ha
  have hhi : a.tmod b < b := Int.tmod_lt_of_pos a hb
  have hle : a.tmod b ≤ a := by
    have hquotient : 0 ≤ b * a.tdiv b :=
      Int.mul_nonneg (by omega) (Int.tdiv_nonneg ha (by omega))
    have := Int.mul_tdiv_add_tmod a b
    omega
  unfold rem
  rw [if_neg (by omega)]
  exact ends_i64 (by omega) (by omega) (h hlo hhi)

/-- The first byte tells at most three continuation bytes and at most five bits. -/
theorem leadByte_ends {first i : Int} (hfirst : 0 ≤ first) (hfirst' : first < 256)
    (hpos : -2 ^ 63 ≤ position + i) (hfits : position + i < 2 ^ 63) :
    (leadByte first position i).Ends
      (fun r => 1 ≤ r.1 ∧ r.1 ≤ 3 ∧ 0 ≤ r.2.1 ∧ r.2.1 < 32 ∧ 0 ≤ r.2.2) (fun _ => True) := by
  unfold leadByte
  split
  · refine ends_rem hfirst (by omega) (by omega) fun hlo hhi => ?_
    exact ⟨by dsimp only; omega, by dsimp only; omega, hlo, by dsimp only; omega,
      by dsimp only; omega⟩
  split
  · refine ends_rem hfirst (by omega) (by omega) fun hlo hhi => ?_
    exact ⟨by dsimp only; omega, by dsimp only; omega, hlo, by dsimp only; omega,
      by dsimp only; omega⟩
  split
  · refine ends_rem hfirst (by omega) (by omega) fun hlo hhi => ?_
    exact ⟨by dsimp only; omega, by dsimp only; omega, hlo, by dsimp only; omega,
      by dsimp only; omega⟩
  · exact ends_i64 hpos hfits trivial

variable {bytes : List Int}

/-- The continuation bytes of one scalar, when they are there. -/
theorem continuation_ends {i needed value : Int} (hbytes : ∀ b ∈ bytes, 0 ≤ b ∧ b < 256)
    (hpos : 0 ≤ position) (hfits : position + bytes.length < 2 ^ 63) (hi : 0 ≤ i)
    (hthere : i + needed < bytes.length) (hneeded : 1 ≤ needed) (hneeded' : needed ≤ 3)
    (hvalue : 0 ≤ value) (hvalue' : value < 32) :
    (Ending.loop .outOfFuel (continuationTurn bytes position i needed) (needed.toNat + 1)
      (value, 1)).Ends (fun v => 0 ≤ v) (fun _ => True) := by
  refine Ending.loop_ends
    (I := fun p : Int × Int => 1 ≤ p.2 ∧ p.2 ≤ needed + 1 ∧ 0 ≤ p.1 ∧
      p.1 < 32 * 64 ^ (p.2 - 1).toNat)
    (m := fun p : Int × Int => (needed + 1 - p.2).toNat) ?_ ⟨by omega, by dsimp only; omega, hvalue,
      hvalue'⟩ (by dsimp only; omega)
  rintro ⟨value, j⟩ ⟨hj, hj', hv, hv'⟩
  dsimp only at hj hj' hv hv'
  unfold continuationTurn
  dsimp only
  split
  · rename_i hle
    have hpow : (64 : Int) ^ (j - 1).toNat ≤ 64 ^ 2 := by
      have := Nat.pow_le_pow_right (n := 64) (by omega) (show (j - 1).toNat ≤ 2 by omega)
      exact_mod_cast this
    refine ends_i64 (by omega) (by omega) ?_
    obtain ⟨next, hnext, hget⟩ := get_ok (E := ParseError) (show 0 ≤ i + j by omega)
      (show i + j < bytes.length by omega)
    have hbyte := hbytes next hnext
    rw [hget, Ending.value_bind]
    split
    · refine ends_i64 (by omega) (by omega) ?_
      exact ends_i64 (by omega) (by omega) trivial
    refine ends_i64 (by omega) (by omega) ?_
    refine ends_rem hbyte.1 (by omega) (by omega) fun hlo hhi => ?_
    refine ends_i64 (by omega) (by omega) ?_
    refine ends_i64 (by omega) (by omega) ?_
    refine ⟨⟨by dsimp only; omega, by dsimp only; omega, by dsimp only; omega, ?_⟩,
      by dsimp only; omega⟩
    dsimp only
    rw [show (j + 1 - 1).toNat = (j - 1).toNat + 1 by omega, pow_succ]
    omega
  · exact hv

/-- The bytes of escapes never trap the decoder. -/
theorem decodePercentBytes_safe (hbytes : ∀ b ∈ bytes, 0 ≤ b ∧ b < 256) (hpos : 0 ≤ position)
    (hfits : position + bytes.length + 4 < 2 ^ 63) : (decodePercentBytes bytes position).Safe := by
  have hloop : (decodePercentBytes bytes position).Ends (fun _ => True) (fun _ => True) := by
    unfold decodePercentBytes
    refine Ending.loop_ends (I := fun p : Text × Int => 0 ≤ p.2 ∧ p.2 ≤ bytes.length)
      (m := fun p : Text × Int => ((bytes.length : Int) - p.2).toNat) ?_
      ⟨by omega, by dsimp only; omega⟩ (by dsimp only; omega)
    rintro ⟨out, i⟩ ⟨hi, hi'⟩
    dsimp only at hi hi'
    unfold decodeTurn
    dsimp only
    split
    · rename_i hlt
      obtain ⟨first, hfirst, hget⟩ := get_ok (E := ParseError) hi hlt
      have hbyte := hbytes first hfirst
      rw [hget, Ending.value_bind]
      split
      · rename_i hascii
        rw [asChar_ok hbyte.1 (by omega) (by omega), Ending.value_bind]
        refine ends_i64 (by omega) (by omega) ?_
        exact ⟨⟨by dsimp only; omega, by dsimp only; omega⟩, by dsimp only; omega⟩
      refine (leadByte_ends hbyte.1 hbyte.2 (by omega) (by omega)).bind ?_
      rintro ⟨needed, value, min⟩ ⟨hn, hn', hv, hv', hmin⟩
      dsimp only at hn hn' hv hv' hmin ⊢
      refine ends_i64 (by omega) (by omega) ?_
      split
      · exact ends_i64 (by omega) (by omega) trivial
      rename_i hthere
      refine (continuation_ends hbytes hpos (by omega) hi (by omega) hn hn' hv hv').bind
        fun value hvalue => ?_
      split
      · exact ends_i64 (by omega) (by omega) trivial
      rename_i hscalar
      rw [asChar_ok hvalue (by omega) (by omega), Ending.value_bind]
      refine ends_i64 (by omega) (by omega) ?_
      refine ends_i64 (by omega) (by omega) ?_
      exact ⟨⟨by dsimp only; omega, by dsimp only; omega⟩, by dsimp only; omega⟩
    · trivial
  exact hloop.safe

/-- `percent_decode_component` never panics: its cuts are at characters it counts. -/
theorem percentDecodeComponent_safe (s : Str) : (percentDecodeComponent s.text).Safe := by
  have hsize : s.text.length + 24 < 2 ^ 63 := by
    have := length_le_byteSize s.text
    have := s.fits
    omega
  let Waits : Decoding → Prop := fun d =>
    (0 ≤ d.i ∧ d.i ≤ s.text.length) ∧ (0 ≤ d.byteStart ∧ (d.bytes = [] ∨
      d.byteStart + d.bytes.length ≤ d.i)) ∧ ∀ b ∈ d.bytes, 0 ≤ b ∧ b < 256
  have hflush : ∀ d, Waits d → d.flush.Ends
      (fun d' => d'.i = d.i ∧ d'.bytes = [] ∧ d'.byteStart = d.byteStart) (fun _ => True) := by
    rintro d ⟨hi, hb, hbytes⟩
    unfold Decoding.flush
    split
    · rename_i hempty
      exact ⟨rfl, List.isEmpty_iff.mp hempty, rfl⟩
    rename_i hsome
    have hstart : d.byteStart + d.bytes.length ≤ d.i := by
      rcases hb.2 with h | h
      · exact absurd (List.isEmpty_iff.mpr h) hsome
      · exact h
    refine Ending.Ends.bind (P := fun _ => True) ?_ fun _ _ => ⟨rfl, rfl, rfl⟩
    exact Ending.ends_of_safe (decodePercentBytes_safe hbytes hb.1 (by omega)) (fun _ _ => trivial)
      fun _ _ => trivial
  have hloop : (Ending.loop .outOfFuel (percentTurn s.text) (s.text.length + 1) ⟨[], [], 0, 0⟩).Ends
      Waits (fun _ => True) := by
    refine Ending.loop_ends (I := Waits) (m := fun d => ((s.text.length : Int) - d.i).toNat) ?_
      ⟨⟨by dsimp only; omega, by dsimp only; omega⟩, ⟨by dsimp only; omega, .inl rfl⟩,
        fun _ hb => by cases hb⟩ (by dsimp only; omega)
    rintro d hd
    have hd' := hd
    obtain ⟨⟨hi, hi'⟩, ⟨hstart, hwait⟩, hbytes⟩ := hd'
    unfold percentTurn size
    split
    · rename_i hlt
      refine ends_i64 (by omega) (by omega) ?_
      refine ends_substring (by omega) (by omega) (by unfold size; omega) ?_
      dsimp only
      split
      · refine ends_i64 (by omega) (by omega) ?_
        split
        · trivial
        refine ends_i64 (by omega) (by omega) ?_
        refine ends_i64 (by omega) (by omega) ?_
        refine ends_substring (by omega) (by omega) (by unfold size; omega) ?_
        refine ends_i64 (by omega) (by omega) ?_
        refine ends_i64 (by omega) (by omega) ?_
        refine ends_substring (by omega) (by omega) (by unfold size; omega) ?_
        refine ((hexValue_ends _).mono (fun _ h => h) fun _ h => h.elim).bind fun high hhigh => ?_
        refine ((hexValue_ends _).mono (fun _ h => h) fun _ h => h.elim).bind fun low hlow => ?_
        split
        · trivial
        refine ends_i64 (by omega) (by omega) ?_
        refine ends_i64 (by omega) (by omega) ?_
        refine ends_i64 (by omega) (by omega) ?_
        refine ⟨⟨⟨by dsimp only; omega, by dsimp only; omega⟩, ⟨?_, .inr ?_⟩, ?_⟩,
          by dsimp only; omega⟩
        · dsimp only
          split
          · exact hi
          · exact hstart
        · dsimp only
          rw [List.length_append, List.length_singleton]
          split
          · rename_i hempty
            rw [List.isEmpty_iff.mp hempty, List.length_nil]
            omega
          · rename_i hsome
            rcases hwait with h | h
            · exact absurd (List.isEmpty_iff.mpr h) hsome
            · omega
        · intro b hb
          rcases List.mem_append.mp hb with hb | hb
          · exact hbytes b hb
          · rw [List.mem_singleton.mp hb]
            unfold asUnsigned
            omega
      · refine (hflush d hd).bind ?_
        rintro d' ⟨hdi, hnone, hdstart⟩
        refine ends_i64 (by omega) (by omega) ?_
        refine ⟨⟨⟨by dsimp only; omega, by dsimp only; omega⟩,
          ⟨by dsimp only; omega, .inl hnone⟩, ?_⟩,
          by dsimp only; omega⟩
        dsimp only
        rw [hnone]
        exact fun _ hb => by cases hb
    · exact hd
  refine (hloop.bind (R := fun _ => True) fun d hd => ?_).safe
  exact (hflush d hd).bind fun _ _ => trivial

end stdlib.net
