-- The texts of addresses (RFC 4291, section 2.2), and what `parse_ip_v4` and `parse_ip_v6`
-- (`std/net_types.otter`) accept.
import OtterFusion.Stdlib.NetAddresses
import OtterFusion.Stdlib.Numerals

open base.trapping

namespace stdlib.net

/-! ## The grammar -/

/-- A decimal number of eight bits. -/
def Octet (s : Text) (v : Int) : Prop :=
  s ≠ [] ∧ (∀ c ∈ s, c.isDigit = true) ∧ v = numeral s 0 ∧ v ≤ 255

/-- The number of a text of hexadecimal digits, after the number of the digits before. -/
def hexNumeral (s : Text) (value : Int) : Int :=
  s.foldl (fun value c => value * 16 + (hexNumber c).getD 0) value

/-- A group: one to four hexadecimal digits. -/
def HexGroup (s : Text) (v : Int) : Prop :=
  (1 ≤ s.length ∧ s.length ≤ 4) ∧ (∀ c ∈ s, (hexNumber c).isSome = true) ∧ v = hexNumeral s 0

/-- Four decimal numbers between dots, and their values. -/
def Quad (s : Text) (a b c d : Int) : Prop :=
  ∃ p q r t, s = ['.'].intercalate [p, q, r, t] ∧ Octet p a ∧ Octet q b ∧ Octet r c ∧ Octet t d

/-- Groups, the last of which may be a dotted quad in the place of two groups. -/
inductive Parts : List Text → List Int → Bool → Prop
  | group {s : Text} {v : Int} (h : HexGroup s v) : Parts [s] [v] false
  | quad {s : Text} {a b c d : Int} (h : Quad s a b c d) :
    Parts [s] [a * 256 + b, c * 256 + d] true
  | cons {s : Text} {v : Int} {parts : List Text} {groups : List Int} {tail : Bool}
    (h : HexGroup s v) (hrest : Parts parts groups tail) : Parts (s :: parts) (v :: groups) tail

/-- A side of `::`, which may be empty: groups between colons. The flag says that the last of them
is a dotted quad. -/
def Side (s : Text) (groups : List Int) (tail : Bool) : Prop :=
  s = [] ∧ groups = [] ∧ tail = false ∨ ∃ parts, s = [':'].intercalate parts ∧
    Parts parts groups tail

/-- The zeros in the place of `::`. -/
def filled (left right : List Int) : List Int :=
  left ++ List.replicate (8 - left.length - right.length) 0 ++ right

/-- Two sides of `::`, which stands for at least one group. -/
def Compressed (s : Text) (groups : List Int) (leftTail : Bool) : Prop :=
  ∃ left right l r tail, s = left ++ ':' :: ':' :: right ∧ Side left l leftTail ∧
    Side right r tail ∧
    l.length + r.length ≤ 7 ∧ groups = filled l r

/-- The eight groups of an address. A dotted quad is the last 32 bits. -/
def Groups (s : Text) (groups : List Int) : Prop :=
  (∃ tail, Side s groups tail ∧ groups.length = 8) ∨ Compressed s groups false

/-- The groups of an address. -/
def IpAddr.groups (ip : IpAddr) : List Int := [ip.a, ip.b, ip.c, ip.d, ip.e, ip.f, ip.g, ip.h]

/-- A zone that `__net_valid_zone_id` accepts. -/
def Zone (z : Text) : Prop := z ≠ [] ∧ ∀ c ∈ z, isZoneChar c = true

/-- The text of an address with an optional zone. -/
def withZone (s : Text) : Option Text → Text
  | none => s
  | some z => s ++ '%' :: z

/-- An address that a text denotes. -/
def Denotes (t : Text) (ip : IpAddr) : Prop :=
  ∃ s, t = withZone s ip.zone ∧ Groups s ip.groups ∧ (∀ z, ip.zone = some z → Zone z) ∧
    ip.version = 6

/-- An address with a dotted quad to the left of `::`. -/
def QuadBeforeColons (t : Text) : Prop :=
  ∃ s zone groups, t = withZone s zone ∧ Compressed s groups true ∧ ∀ z, zone = some z → Zone z

/-! ## Numbers -/

variable {text : Text} {position : Int}

theorem decimalFold_iff {max value i : Int} {r : Int × Int} (hpos : 0 ≤ position) (hi : 0 ≤ i)
    (hfits : position + i + text.length < 2 ^ 63) (hmax : max ≤ 2 ^ 32) (hvalue : 0 ≤ value)
    (hvalue' : value ≤ max) :
    text.foldlM (decimalTurn position max) (value, i) = .value r ↔
      (∀ c ∈ text, c.isDigit = true) ∧ numeral text value ≤ max ∧
        r = (numeral text value, i + text.length) := by
  induction text generalizing value i with
  | nil =>
    constructor
    · intro h
      cases h
      exact ⟨fun _ hc => absurd hc List.not_mem_nil, hvalue', by simp [numeral]⟩
    · rintro ⟨_, _, rfl⟩
      simp [numeral]
  | cons c text ih =>
    rw [List.length_cons] at hfits
    rw [List.foldlM_cons, decimalTurn, List.forall_mem_cons, isDigit_iff]
    by_cases hdigit : codePoint c < 48 ∨ 57 < codePoint c
    · rw [if_pos hdigit, i64_ok (by omega) (by omega)]
      constructor
      · intro h
        cases h
      · rintro ⟨⟨hc, _⟩, _⟩
        omega
    · have hstep : numeral (c :: text) value = numeral text (value * 10 + (codePoint c - 48)) := rfl
      rw [if_neg hdigit, i64_bind (by omega), i64_bind (by omega), i64_bind (by omega), hstep]
      by_cases hover : max < value * 10 + (codePoint c - 48)
      · rw [if_pos hover, i64_ok (by omega) (by omega)]
        constructor
        · intro h
          cases h
        · rintro ⟨⟨_, hall⟩, hle, _⟩
          have := numeral_ge hall (show 0 ≤ value * 10 + (codePoint c - 48) by omega)
          omega
      · rw [if_neg hover, i64_bind (by omega), Ending.value_bind,
          ih (by omega) (by omega) (by omega) (by omega), List.length_cons]
        constructor
        · rintro ⟨hall, hle, rfl⟩
          exact ⟨⟨by omega, hall⟩, hle, congrArg (Prod.mk _) (by omega)⟩
        · rintro ⟨⟨_, hall⟩, hle, rfl⟩
          exact ⟨hall, hle, congrArg (Prod.mk _) (by omega)⟩

/-- `__net_parse_decimal`. -/
theorem parseDecimal_iff {max v : Int} (hpos : 0 ≤ position)
    (hfits : position + text.length < 2 ^ 63) (hmax : 0 ≤ max) (hmax' : max ≤ 2 ^ 32) :
    parseDecimal text position max = .value v ↔
      text ≠ [] ∧ (∀ c ∈ text, c.isDigit = true) ∧ v = numeral text 0 ∧ v ≤ max := by
  have hfold := fun r => @decimalFold_iff text _ _ _ 0 r hpos (Int.le_refl 0) (by omega)
    hmax' (Int.le_refl 0) hmax
  unfold parseDecimal size
  cases text with
  | nil =>
    constructor
    · intro h
      cases h
    · rintro ⟨h, _⟩
      exact absurd rfl h
  | cons c text =>
    rw [if_neg (by rw [List.length_cons]; omega)]
    constructor
    · intro h
      obtain ⟨r, hr, h⟩ := Ending.value_of_bind.mp h
      obtain ⟨hall, hle, rfl⟩ := (hfold r).mp hr
      cases h
      exact ⟨List.cons_ne_nil _ _, hall, rfl, hle⟩
    · rintro ⟨_, hall, rfl, hle⟩
      rw [(hfold _).mpr ⟨hall, hle, rfl⟩]
      rfl

theorem hexDigit_iff {i d : Int} {c : Char} (hlo : -2 ^ 63 ≤ position + i)
    (hhi : position + i < 2 ^ 63) : hexDigit position i c = .value d ↔ hexNumber c = some d := by
  rw [hexNumber_eq]
  unfold hexDigit
  dsimp only
  split
  · rw [i64_ok (by omega) (by omega)]
    simp
  split
  · rw [i64_ok (by omega) (by omega)]
    simp
  split
  · rw [i64_ok (by omega) (by omega)]
    simp
  · rw [i64_ok hlo hhi]
    unfold parseError
    simp

theorem hexFold_iff {value i : Int} {r : Int × Int} (hpos : 0 ≤ position) (hi : 0 ≤ i)
    (hfits : position + i + text.length < 2 ^ 63) (hshort : i + text.length ≤ 4)
    (hvalue : 0 ≤ value)
    (hvalue' : value < 16 ^ i.toNat) :
    text.foldlM (hexTurn position) (value, i) = .value r ↔
      (∀ c ∈ text, (hexNumber c).isSome = true) ∧ r = (hexNumeral text value, i + text.length) := by
  induction text generalizing value i with
  | nil =>
    constructor
    · intro h
      cases h
      exact ⟨fun _ hc => absurd hc List.not_mem_nil, by simp [hexNumeral]⟩
    · rintro ⟨_, rfl⟩
      simp [hexNumeral]
  | cons c text ih =>
    rw [List.length_cons] at hfits hshort
    rw [List.foldlM_cons, hexTurn, List.forall_mem_cons]
    have hpow : (16 : Int) ^ i.toNat ≤ 16 ^ 3 := by
      have := Nat.pow_le_pow_right (n := 16) (by omega) (show i.toNat ≤ 3 by omega)
      exact_mod_cast this
    cases hnumber : hexNumber c with
    | none =>
      constructor
      · intro h
        obtain ⟨s, hs, h⟩ := Ending.value_of_bind.mp h
        obtain ⟨d, hd, hs⟩ := Ending.value_of_bind.mp hs
        rw [(hexDigit_iff (by omega) (by omega)).mp hd] at hnumber
        cases hnumber
      · rintro ⟨⟨hc, _⟩, _⟩
        cases hc
    | some d =>
      have hbounds := hexNumber_bounds hnumber
      have hdigit := (@hexDigit_iff position i _ _ (by omega) (by omega)).mpr hnumber
      have hstep : hexNumeral (c :: text) value = hexNumeral text (value * 16 + d) := by
        show hexNumeral text (value * 16 + (hexNumber c).getD 0) = _
        rw [hnumber, Option.getD_some]
      have hnext : value * 16 + d < 16 ^ (i + 1).toNat := by
        rw [show (i + 1).toNat = i.toNat + 1 by omega, pow_succ]
        omega
      rw [hdigit, Ending.value_bind, i64_bind (by omega), i64_bind (by omega), i64_bind (by omega),
        Ending.value_bind, ih (by omega) (by omega) (by omega) (by omega) hnext, hstep,
        List.length_cons]
      constructor
      · rintro ⟨hall, rfl⟩
        exact ⟨⟨rfl, hall⟩, congrArg (Prod.mk _) (by omega)⟩
      · rintro ⟨⟨_, hall⟩, rfl⟩
        exact ⟨hall, congrArg (Prod.mk _) (by omega)⟩

/-- `__net_parse_hex_group`. -/
theorem parseHexGroup_iff {v : Int} (hpos : 0 ≤ position)
    (hfits : position + text.length < 2 ^ 63) :
    parseHexGroup text position = .value v ↔ HexGroup text v := by
  unfold parseHexGroup size HexGroup
  split
  · constructor
    · intro h
      cases h
    · rintro ⟨⟨hlo, _⟩, _⟩
      omega
  split
  · rw [i64_ok (by omega) (by omega)]
    constructor
    · intro h
      cases h
    · rintro ⟨⟨_, hhi⟩, _⟩
      omega
  · have hfold := fun r => @hexFold_iff text _ 0 0 r hpos
      (Int.le_refl 0) (by omega) (by omega) (Int.le_refl 0) (by decide)
    constructor
    · intro h
      obtain ⟨r, hr, h⟩ := Ending.value_of_bind.mp h
      obtain ⟨hall, rfl⟩ := (hfold r).mp hr
      cases h
      exact ⟨⟨by omega, by omega⟩, hall, rfl⟩
    · rintro ⟨_, hall, rfl⟩
      rw [(hfold _).mpr ⟨hall, rfl⟩]
      rfl

theorem HexGroup.bounds {s : Text} {v : Int} (h : HexGroup s v) : 0 ≤ v ∧ v < 2 ^ 16 := by
  have hvalue := (@parseHexGroup_iff _ 0 _ (Int.le_refl 0) (by have := h.1.2; omega)).mpr h
  have hends := (@parseHexGroup_ends s 0 (Int.le_refl 0)
    (by have := h.1.2; omega)).of_value hvalue
  exact ⟨hends.1, hends.2.1⟩

/-! ## Dotted quads -/

theorem Octet.bounds {s : Text} {v : Int} (h : Octet s v) : 0 ≤ v ∧ v ≤ 255 := by
  obtain ⟨_, hdigits, rfl, hle⟩ := h
  exact ⟨(numeral_bounds hdigits (Int.le_refl 0)).1, hle⟩

theorem Octet.not_mem {s : Text} {v : Int} (h : Octet s v) {d : Char} (hd : d.isDigit = false) :
    d ∉ s := by
  intro hmem
  rw [h.2.1 d hmem] at hd
  cases hd

theorem Octet.no_dot {s : Text} {v : Int} (h : Octet s v) : '.' ∉ s := h.not_mem rfl

/-- The low bits of a number that has no others. -/
theorem asUnsigned_eq {bits : Nat} {n : Int} (hlo : 0 ≤ n) (hhi : n < 2 ^ bits) :
    asUnsigned bits n = n := Int.emod_eq_of_lt hlo hhi

/-- The parts of a text without the separator, between separators. -/
theorem split_intercalate {parts : List Text} {c : Char} (hparts : ∀ part ∈ parts, c ∉ part)
    (hne : parts ≠ []) : split ([c].intercalate parts) c = parts :=
  List.splitOn_intercalate c hparts hne

theorem intercalate_split (s : Text) (c : Char) : [c].intercalate (split s c) = s :=
  List.intercalate_splitOn c

/-- `parse_ip_v4`. -/
theorem parseIpV4_iff {ip : IpAddr} (hsize : text.length + 8 < 2 ^ 63) :
    parseIpV4 text = .value ip ↔ ∃ a b c d, Quad text a b c d ∧ ip = ipV4 a b c d := by
  have htotal := split_total text '.'
  have htext := intercalate_split text '.'
  have hnumber : ∀ (part : Text) (pos v : Int), 0 ≤ pos → pos + part.length < 2 ^ 63 →
      (parseDecimal part pos 255 = .value v ↔ Octet part v) :=
    fun part pos v hpos hfits => parseDecimal_iff hpos hfits (by omega) (by omega)
  unfold parseIpV4
  dsimp only
  split
  · rename_i hfour
    constructor
    · intro h
      cases h
    · rintro ⟨a, b, c, d, ⟨p, q, r, t, rfl, hp, hq, hr, ht⟩, _⟩
      refine absurd ?_ hfour
      rw [split_intercalate ?_ (List.cons_ne_nil _ _)]
      · rfl
      · simp [hp.no_dot, hq.no_dot, hr.no_dot, ht.no_dot]
  rename_i hfour
  obtain ⟨p, q, r, t, hparts⟩ := exists_of_length_four (not_not.mp hfour)
  rw [hparts] at htotal htext ⊢
  simp only [List.map_cons, List.map_nil, List.sum_cons, List.sum_nil] at htotal
  have h0 : (get [p, q, r, t] 0 : Parse Text) = .value p := rfl
  have h1 : (get [p, q, r, t] 1 : Parse Text) = .value q := rfl
  have h2 : (get [p, q, r, t] 2 : Parse Text) = .value r := rfl
  have h3 : (get [p, q, r, t] 3 : Parse Text) = .value t := rfl
  simp only [h0, h1, h2, h3, Ending.value_bind]
  unfold size
  have hwrap : ∀ v : Int, 0 ≤ v ∧ v ≤ 255 → asUnsigned 8 v = v :=
    fun v hv => asUnsigned_eq hv.1 (by omega)
  constructor
  · intro h
    obtain ⟨a, ha, h⟩ := Ending.value_of_bind.mp h
    rw [i64_bind (by omega), i64_bind (by omega)] at h
    obtain ⟨b, hb, h⟩ := Ending.value_of_bind.mp h
    rw [i64_bind (by omega), i64_bind (by omega)] at h
    obtain ⟨c, hc, h⟩ := Ending.value_of_bind.mp h
    rw [i64_bind (by omega), i64_bind (by omega)] at h
    obtain ⟨d, hd, h⟩ := Ending.value_of_bind.mp h
    have ha := (hnumber _ _ _ (by omega) (by omega)).mp ha
    have hb := (hnumber _ _ _ (by omega) (by omega)).mp hb
    have hc := (hnumber _ _ _ (by omega) (by omega)).mp hc
    have hd := (hnumber _ _ _ (by omega) (by omega)).mp hd
    rw [hwrap a ha.bounds, hwrap b hb.bounds, hwrap c hc.bounds, hwrap d hd.bounds] at h
    cases h
    exact ⟨a, b, c, d, ⟨p, q, r, t, htext.symm, ha, hb, hc, hd⟩, rfl⟩
  · rintro ⟨a, b, c, d, ⟨p', q', r', t', htext', ha, hb, hc, hd⟩, rfl⟩
    have hsame : split text '.' = [p', q', r', t'] := by
      rw [htext']
      exact split_intercalate (by simp [ha.no_dot, hb.no_dot, hc.no_dot, hd.no_dot])
        (List.cons_ne_nil _ _)
    rw [hparts] at hsame
    cases hsame
    rw [(hnumber _ _ _ (by omega) (by omega)).mpr ha, Ending.value_bind, i64_bind (by omega),
      i64_bind (by omega), (hnumber _ _ _ (by omega) (by omega)).mpr hb, Ending.value_bind,
      i64_bind (by omega), i64_bind (by omega), (hnumber _ _ _ (by omega) (by omega)).mpr hc,
      Ending.value_bind, i64_bind (by omega), i64_bind (by omega),
      (hnumber _ _ _ (by omega) (by omega)).mpr hd, Ending.value_bind, hwrap a ha.bounds,
      hwrap b hb.bounds, hwrap c hc.bounds, hwrap d hd.bounds]

/-! ## Sides -/

theorem hexNumber_ne_none {c : Char} (h : (hexNumber c).isSome = true) {d : Char}
    (hd : hexNumber d = none) : c ≠ d := by
  rintro rfl
  rw [hd] at h
  cases h

theorem HexGroup.not_mem {s : Text} {v : Int} (h : HexGroup s v) {d : Char}
    (hd : hexNumber d = none) : d ∉ s :=
  fun hmem => hexNumber_ne_none (h.2.1 d hmem) hd rfl

theorem Quad.dot {s : Text} {a b c d : Int} (h : Quad s a b c d) : '.' ∈ s := by
  obtain ⟨p, q, r, t, rfl, _⟩ := h
  simp [List.intercalate_cons_cons]

theorem Quad.not_mem {s : Text} {a b c d : Int} (h : Quad s a b c d) {e : Char} (hdot : e ≠ '.')
    (he : e.isDigit = false) : e ∉ s := by
  obtain ⟨p, q, r, t, rfl, hp, hq, hr, ht⟩ := h
  simp [List.intercalate_cons_cons, hdot, hp.not_mem he, hq.not_mem he, hr.not_mem he,
    ht.not_mem he]

/-- One part between colons. -/
theorem parseGroup_iff {part : Text} {isLast : Bool} {at_ : Int} {groups : List Int} (hat : 0 ≤ at_)
    (hfits : at_ + part.length + 8 < 2 ^ 63) :
    parseGroup part isLast at_ = .value groups ↔
      (∃ v, HexGroup part v ∧ groups = [v]) ∨
        isLast = true ∧ ∃ a b c d, Quad part a b c d ∧ groups = [a * 256 + b, c * 256 + d] := by
  unfold parseGroup indexOf
  cases hdot : place ['.'] part with
  | some k =>
    have hmem : '.' ∈ part := by
      rw [← not_not (a := '.' ∈ part), ← place_char_none, hdot]
      exact Option.some_ne_none k
    have hgroup : ∀ v, ¬HexGroup part v := fun v h => h.not_mem (by decide) hmem
    dsimp only [Option.map_some]
    cases isLast with
    | false =>
      constructor
      · intro h
        exact absurd h parseError_ne
      · rintro (⟨v, hv, _⟩ | ⟨h, _⟩)
        · exact absurd hv (hgroup v)
        · cases h
    | true =>
      have hquad : ∀ ip, (parseIpV4 part).orElse (fun e => shiftParseError e at_) = .value ip ↔
          ∃ a b c d, Quad part a b c d ∧ ip = ipV4 a b c d := by
        intro ip
        rw [Ending.value_of_orElse fun e => shiftParseError_ne, parseIpV4_iff (by omega)]
      have hvalue : ∀ {a b c d}, Quad part a b c d →
          (do .value [← u16 ((← u16 ((ipV4 a b c d).a * 256)) + (ipV4 a b c d).b),
            ← u16 ((← u16 ((ipV4 a b c d).c * 256)) + (ipV4 a b c d).d)] : Parse (List Int)) =
            .value [a * 256 + b, c * 256 + d] := by
        rintro a b c d ⟨_, _, _, _, _, ha, hb, hc, hd⟩
        have ha := ha.bounds
        have hb := hb.bounds
        have hc := hc.bounds
        have hd := hd.bounds
        unfold ipV4
        dsimp only
        rw [asUnsigned_eq ha.1 (by omega), asUnsigned_eq hb.1 (by omega),
          asUnsigned_eq hc.1 (by omega), asUnsigned_eq hd.1 (by omega),
          u16_ok (by omega) (by omega), Ending.value_bind, u16_ok (by omega) (by omega),
          Ending.value_bind, u16_ok (by omega) (by omega), Ending.value_bind,
          u16_ok (by omega) (by omega), Ending.value_bind]
      constructor
      · intro h
        obtain ⟨ip, hip, h⟩ := Ending.value_of_bind.mp h
        obtain ⟨a, b, c, d, hparts, rfl⟩ := (hquad ip).mp hip
        rw [hvalue hparts] at h
        cases h
        exact .inr ⟨rfl, a, b, c, d, hparts, rfl⟩
      · rintro (⟨v, hv, _⟩ | ⟨_, a, b, c, d, hparts, rfl⟩)
        · exact absurd hv (hgroup v)
        · show ((parseIpV4 part).orElse (fun e => shiftParseError e at_) >>= _) = _
          rw [(hquad _).mpr ⟨a, b, c, d, hparts, rfl⟩]
          exact hvalue hparts
  | none =>
    have hnot := place_char_none.mp hdot
    have hgroup := fun v => @parseHexGroup_iff part _ v hat (by omega)
    have hwrap : ∀ v, HexGroup part v → asUnsigned 16 v = v :=
      fun v h => asUnsigned_eq h.bounds.1 h.bounds.2
    dsimp only [Option.map_none]
    constructor
    · intro h
      obtain ⟨v, hv, h⟩ := Ending.value_of_bind.mp h
      have hv := (hgroup v).mp hv
      rw [hwrap v hv] at h
      cases h
      exact .inl ⟨v, hv, rfl⟩
    · rintro (⟨v, hv, rfl⟩ | ⟨_, a, b, c, d, hquad, _⟩)
      · rw [(hgroup v).mpr hv, Ending.value_bind, hwrap v hv]
      · exact absurd hquad.dot hnot

theorem Parts.ne_nil {parts : List Text} {groups : List Int} {tail : Bool}
    (h : Parts parts groups tail) : parts ≠ [] := by
  cases h <;> exact List.cons_ne_nil _ _

/-- The first part, and the others. -/
theorem parts_cons_iff {part : Text} {rest : List Text} {groups : List Int} {tail : Bool} :
    Parts (part :: rest) groups tail ↔
      (∃ v more, HexGroup part v ∧ groups = v :: more ∧
        (rest = [] ∧ more = [] ∧ tail = false ∨ Parts rest more tail)) ∨
      rest = [] ∧ tail = true ∧ ∃ a b c d, Quad part a b c d ∧
        groups = [a * 256 + b, c * 256 + d] := by
  constructor
  · intro h
    cases h with
    | group h => exact .inl ⟨_, [], h, rfl, .inl ⟨rfl, rfl, rfl⟩⟩
    | quad h => exact .inr ⟨rfl, rfl, _, _, _, _, h, rfl⟩
    | cons h hrest => exact .inl ⟨_, _, h, rfl, .inr hrest⟩
  · rintro (⟨v, more, hv, rfl, ⟨rfl, rfl, rfl⟩ | hrest⟩ | ⟨rfl, rfl, a, b, c, d, hquad, rfl⟩)
    · exact .group hv
    · exact .cons hv hrest
    · exact .quad hquad

/-- The parts that are left. -/
theorem sideLoop_iff {parts rest : List Text} {groups all : List Int} {at_ : Int} {n i : Nat}
    (hrest : parts.drop i = rest) (hlen : i + rest.length = parts.length) (hfuel : rest.length < n)
    (hat : 0 ≤ at_) (hsmall : (parts.length : Int) < 2 ^ 63)
    (hfits : at_ + ((rest.map fun p => p.length + 1).sum : Nat) + 8 < 2 ^ 63) :
    Ending.loop .outOfFuel (sideTurn parts) n (groups, at_, (i : Int)) = .value all ↔
      rest = [] ∧ all = groups ∨ ∃ more tail, Parts rest more tail ∧ all = groups ++ more := by
  induction rest generalizing groups at_ n i with
  | nil =>
    obtain ⟨n, rfl⟩ := Nat.exists_eq_succ_of_ne_zero (show n ≠ 0 by omega)
    rw [List.length_nil] at hlen
    rw [Ending.loop, sideTurn, if_neg (by omega), Ending.value_bind]
    constructor
    · intro h
      cases h
      exact .inl ⟨rfl, rfl⟩
    · rintro (⟨_, rfl⟩ | ⟨more, tail, h, _⟩)
      · rfl
      · exact absurd rfl h.ne_nil
  | cons part rest ih =>
    obtain ⟨n, rfl⟩ := Nat.exists_eq_succ_of_ne_zero (show n ≠ 0 by omega)
    rw [List.length_cons] at hlen hfuel
    rw [List.map_cons, List.sum_cons] at hfits
    have hget := get_drop (E := ParseError) hrest
    have hdrop : parts.drop (i + 1) = rest := by
      rw [← List.drop_drop, hrest]
      rfl
    have hpart := fun gs => @parseGroup_iff part
      (decide ((i : Int) = (parts.length : Int) - 1)) _ gs hat (by omega)
    have hlast : decide ((i : Int) = (parts.length : Int) - 1) = true ↔ rest = [] := by
      rw [decide_eq_true_eq, ← List.length_eq_zero_iff]
      omega
    have hnext : ∀ gs, (do
        .value (.inl (groups ++ gs, ← i64 ((← i64 (at_ + size part)) + 1), ← i64 ((i : Int) + 1))) :
          Parse ((List Int × Int × Int) ⊕ List Int)) =
        .value (.inl (groups ++ gs, at_ + part.length + 1, ((i + 1 : Nat) : Int))) := by
      intro gs
      unfold size
      rw [i64_bind (by omega), i64_bind (by omega), i64_bind (by omega)]
      rfl
    have hloop := fun gs : List Int => @ih (groups ++ gs) (at_ + part.length + 1)
      n _ hdrop (by omega) (by omega) (by omega) (by omega)
    rw [Ending.loop, sideTurn, if_pos (by omega), hget, Ending.value_bind]
    constructor
    · intro h
      obtain ⟨r, hr, h⟩ := Ending.value_of_bind.mp h
      obtain ⟨gs, hgs, hr⟩ := Ending.value_of_bind.mp hr
      rw [hnext gs] at hr
      cases hr
      refine .inr ?_
      rcases (hpart gs).mp hgs with ⟨v, hv, rfl⟩ | ⟨hend, a, b, c, d, hquad, rfl⟩
      · rcases (hloop [v]).mp h with ⟨hnone, rfl⟩ | ⟨more, tail, hmore, rfl⟩
        · exact ⟨[v], false,
            parts_cons_iff.mpr (.inl ⟨v, [], hv, rfl, .inl ⟨hnone, rfl, rfl⟩⟩), rfl⟩
        · exact ⟨v :: more, tail, .cons hv hmore, by simp⟩
      · rcases (hloop _).mp h with ⟨hnone, rfl⟩ | ⟨more, tail, hmore, _⟩
        · exact ⟨_, true, parts_cons_iff.mpr (.inr ⟨hnone, rfl, a, b, c, d, hquad, rfl⟩), rfl⟩
        · exact absurd (hlast.mp hend) hmore.ne_nil
    · rintro (⟨h, _⟩ | ⟨all, tail, hparts, rfl⟩)
      · cases h
      rcases parts_cons_iff.mp hparts with ⟨v, more, hv, rfl, hmore⟩
        | ⟨hnone, _, a, b, c, d, hquad, rfl⟩
      · rw [(hpart [v]).mpr (.inl ⟨v, hv, rfl⟩), Ending.value_bind, hnext [v],
          Ending.value_bind]
        refine (hloop [v]).mpr ?_
        rcases hmore with ⟨hnone, rfl, _⟩ | hmore
        · exact .inl ⟨hnone, rfl⟩
        · exact .inr ⟨more, tail, hmore, by simp⟩
      · rw [(hpart _).mpr (.inr ⟨hlast.mpr hnone, a, b, c, d, hquad, rfl⟩), Ending.value_bind,
          hnext, Ending.value_bind]
        exact (hloop _).mpr (.inl ⟨hnone, rfl⟩)

/-- A hexadecimal digit is no other sign of an address, and is ASCII. -/
theorem codePoint_of_hexNumber {c : Char} (h : (hexNumber c).isSome = true) :
    codePoint c < 128 := by
  obtain ⟨v, hv⟩ := Option.isSome_iff_exists.mp h
  rw [hexNumber_eq] at hv
  split at hv
  · omega
  split at hv
  · omega
  split at hv
  · omega
  · cases hv

theorem hexNumber_of_isDigit {c : Char} (h : c.isDigit = true) : (hexNumber c).isSome = true := by
  rw [hexNumber_eq, if_pos ((isDigit_iff c).mp h)]
  rfl

theorem Quad.chars {s : Text} {a b c d : Int} (h : Quad s a b c d) :
    ∀ e ∈ s, (hexNumber e).isSome = true ∨ e = '.' := by
  obtain ⟨p, q, r, t, rfl, hp, hq, hr, ht⟩ := h
  intro e he
  simp only [List.intercalate_cons_cons, List.intercalate_singleton, List.mem_append,
    List.mem_singleton] at he
  rcases he with (he | he) | (he | he) | (he | he) | he
  · exact .inl (hexNumber_of_isDigit (hp.2.1 e he))
  · exact .inr he
  · exact .inl (hexNumber_of_isDigit (hq.2.1 e he))
  · exact .inr he
  · exact .inl (hexNumber_of_isDigit (hr.2.1 e he))
  · exact .inr he
  · exact .inl (hexNumber_of_isDigit (ht.2.1 e he))

/-- The parts are not empty, and made of digits and dots. -/
theorem Parts.chars {parts : List Text} {groups : List Int} {tail : Bool}
    (h : Parts parts groups tail) :
    ∀ part ∈ parts, part ≠ [] ∧ ∀ c ∈ part, (hexNumber c).isSome = true ∨ c = '.' := by
  have hgroup : ∀ {s : Text} {v : Int}, HexGroup s v →
      s ≠ [] ∧ ∀ c ∈ s, (hexNumber c).isSome = true ∨ c = '.' :=
    fun h => ⟨List.length_pos_iff.mp h.1.1, fun c hc => .inl (h.2.1 c hc)⟩
  induction h with
  | group h => exact List.forall_mem_singleton.mpr (hgroup h)
  | quad h => exact List.forall_mem_singleton.mpr ⟨List.ne_nil_of_mem h.dot, h.chars⟩
  | cons h _ ih => exact List.forall_mem_cons.mpr ⟨hgroup h, ih⟩

/-- A sign that is neither a digit nor a dot is not in the parts. -/
theorem Parts.not_mem {parts : List Text} {groups : List Int} {tail : Bool}
    (h : Parts parts groups tail) {d : Char} (hd : hexNumber d = none) (hdot : d ≠ '.') :
    ∀ part ∈ parts, d ∉ part := by
  intro part hpart hmem
  rcases (h.chars part hpart).2 d hmem with hsome | hsame
  · exact hexNumber_ne_none hsome hd rfl
  · exact hdot hsame

/-- The parts between colons are those of the split. -/
theorem Parts.split {parts : List Text} {groups : List Int} {tail : Bool}
    (h : Parts parts groups tail) : split ([':'].intercalate parts) ':' = parts :=
  split_intercalate (h.not_mem rfl (by decide)) h.ne_nil

/-- A side that is not empty. -/
theorem side_iff {s : Text} (hs : s ≠ []) {groups : List Int} {tail : Bool} :
    Side s groups tail ↔ Parts (stdlib.split s ':') groups tail := by
  constructor
  · rintro (⟨h, _⟩ | ⟨parts, rfl, hparts⟩)
    · exact absurd h hs
    · rwa [hparts.split]
  · intro h
    exact .inr ⟨_, (intercalate_split s ':').symm, h⟩

theorem side_nil_iff {groups : List Int} {tail : Bool} :
    Side [] groups tail ↔ groups = [] ∧ tail = false := by
  constructor
  · rintro (⟨_, h⟩ | ⟨parts, hnil, hparts⟩)
    · exact h
    · have hsplit := hparts.split
      rw [← hnil] at hsplit
      exact absurd rfl (hparts.chars [] (hsplit ▸ List.mem_singleton_self [])).1
  · rintro ⟨rfl, rfl⟩
    exact .inl ⟨rfl, rfl, rfl⟩

/-- `__net_parse_ipv6_side`. -/
theorem parseIpv6Side_iff {groups : List Int} (hpos : 0 ≤ position)
    (hfits : position + text.length + 16 < 2 ^ 63) :
    parseIpv6Side text position = .value groups ↔ ∃ tail, Side text groups tail := by
  have htotal := split_total text ':'
  have hcount : (split text ':').length ≤ text.length + 1 := by
    rw [← htotal, List.sum_map_add]
    simp
  unfold parseIpv6Side
  split
  · rename_i hempty
    subst hempty
    constructor
    · intro h
      cases h
      exact ⟨false, side_nil_iff.mpr ⟨rfl, rfl⟩⟩
    · rintro ⟨tail, h⟩
      rw [(side_nil_iff.mp h).1]
  · rename_i hne
    have hloop := @sideLoop_iff _ _ [] groups position _ 0
      (List.drop_zero (l := split text ':')) (by omega) (Nat.lt_succ_self _) hpos (by omega)
      (by omega)
    dsimp only
    rw [show (0 : Int) = ((0 : Nat) : Int) from rfl, hloop]
    constructor
    · rintro (⟨hnone, _⟩ | ⟨more, tail, hparts, rfl⟩)
      · exact absurd hnone (List.splitOn_ne_nil ':' text)
      · exact ⟨tail, (side_iff hne).mpr hparts⟩
    · rintro ⟨tail, h⟩
      exact .inr ⟨groups, tail, (side_iff hne).mp h, rfl⟩

end stdlib.net
