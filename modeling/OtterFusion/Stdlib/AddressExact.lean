-- The text of an address: it is parsed back to the address, and `parse_ip_v6`
-- (`std/net_types.otter`) accepts the texts of RFC 4291 and those with a dotted quad to the left of
-- `::`.
import OtterFusion.Stdlib.AddressParsers
import OtterFusion.Stdlib.NetUris

open base.trapping

namespace stdlib.net

/-! ## Constructors and rendering -/

/-- `ip_v6`. -/
def ipV6 (a b c d e f g h : Int) : IpAddr := ⟨6, none, a, b, c, d, e, f, g, h⟩

/-- `ip_v6_scoped`. -/
def ipV6Scoped (a b c d e f g h : Int) (zone : Text) : IpAddr :=
  ⟨6, some zone, a, b, c, d, e, f, g, h⟩

/-- A number of `u8`. -/
def Byte (n : Int) : Prop := 0 ≤ n ∧ n < 2 ^ 8

/-- An address from a constructor, with a zone that `__net_valid_zone_id` accepts. -/
inductive IpAddr.Built : IpAddr → Prop
  | v4 {a b c d : Int} (ha : Byte a) (hb : Byte b) (hc : Byte c) (hd : Byte d) :
      Built (ipV4 a b c d)
  | v6 {a b c d e f g h : Int} (ha : Group a) (hb : Group b) (hc : Group c) (hd : Group d)
    (he : Group e) (hf : Group f) (hg : Group g) (hh : Group h) : Built (ipV6 a b c d e f g h)
  | v6Scoped {a b c d e f g h : Int} {zone : Str} (ha : Group a) (hb : Group b) (hc : Group c)
    (hd : Group d) (he : Group e) (hf : Group f) (hg : Group g) (hh : Group h)
    (hzone : validZoneId zone.text 0 = .value ()) : Built (ipV6Scoped a b c d e f g h zone.text)

/-- `SocketAddr.render`. -/
def SocketAddr.render (addr : SocketAddr) : Parse Text := do
  if addr.ip.version = 6 then
    .value (['['] ++ (← addr.ip.render) ++ [']', ':'] ++ decimal addr.port)
  else .value ((← addr.ip.render) ++ [':'] ++ decimal addr.port)

/-! ## What is accepted and no address -/

theorem Parts.tail_eq {parts : List Text} {groups groups' : List Int} {tail tail' : Bool}
    (h : Parts parts groups tail) (h' : Parts parts groups' tail') : tail = tail' := by
  have hdot : ∀ {s : Text} {v a b c d : Int}, HexGroup s v → ¬Quad s a b c d :=
    fun hs hquad => hs.not_mem rfl hquad.dot
  induction h generalizing groups' tail' with
  | group hs =>
    cases h' with
    | group _ => rfl
    | quad hquad => exact absurd hquad (hdot hs)
    | cons _ hrest => exact absurd rfl hrest.ne_nil
  | quad hquad =>
    cases h' with
    | group hs => exact absurd hquad (hdot hs)
    | quad _ => rfl
    | cons _ hrest => exact absurd rfl hrest.ne_nil
  | cons _ hrest ih =>
    cases h' with
    | group _ => exact absurd rfl hrest.ne_nil
    | quad _ => exact absurd rfl hrest.ne_nil
    | cons _ hrest' => exact ih hrest'

theorem Side.tail_eq {s : Text} {groups groups' : List Int} {tail tail' : Bool}
    (h : Side s groups tail) (h' : Side s groups' tail') : tail = tail' := by
  rcases eq_or_ne s [] with rfl | hs
  · rw [(side_nil_iff.mp h).2, (side_nil_iff.mp h').2]
  · exact ((side_iff hs).mp h).tail_eq ((side_iff hs).mp h')

/-- A dotted quad to the left of `::` is in no address. -/
theorem Compressed.not_groups {s : Text} {groups groups' : List Int}
    (h : Compressed s groups true) :
    ¬Groups s groups' := by
  rintro (⟨tail, hside, _⟩ | h')
  · exact h.place hside.no_compression
  · obtain ⟨left, right, l, r, _, rfl, hl, _⟩ := h
    obtain ⟨left', right', l', r', _, hparts, hl', _⟩ := h'
    have hplace := @place_sides _ right' _ _ hl'
    rw [← hparts, place_sides hl] at hplace
    obtain ⟨rfl, _⟩ := List.append_inj hparts (Option.some.inj hplace)
    cases hl.tail_eq hl'

theorem accepted_iff {s : Text} {groups : List Int} :
    Accepted s groups ↔ Groups s groups ∨ Compressed s groups true := by
  constructor
  · rintro (h | ⟨tail, h⟩)
    · exact .inl (.inl h)
    · cases tail with
      | false => exact .inl (.inr h)
      | true => exact .inr h
  · rintro ((h | h) | h)
    · exact .inl h
    · exact .inr ⟨false, h⟩
    · exact .inr ⟨true, h⟩

theorem withZone_inj {s s' : Text} {zone : Option Text} (h : withZone s zone = withZone s' zone) :
    s = s' := by
  cases zone with
  | none => exact h
  | some z => exact List.append_cancel_right h

theorem Side.dot {s : Text} {groups : List Int} (h : Side s groups true) : '.' ∈ s := by
  rcases h with ⟨_, _, h⟩ | ⟨parts, rfl, hparts⟩
  · cases h
  · generalize htail : true = tail at hparts
    induction hparts with
    | group _ => cases htail
    | quad hquad =>
      rw [List.intercalate_singleton]
      exact hquad.dot
    | @cons part _ rest _ _ _ hrest ih =>
      obtain ⟨next, rest, rfl⟩ := List.exists_cons_of_ne_nil hrest.ne_nil
      rw [List.intercalate_cons_cons]
      exact List.mem_append_right _ (ih htail)

theorem QuadBeforeColons.dot {t : Text} (h : QuadBeforeColons t) : '.' ∈ t := by
  obtain ⟨s, zone, groups, rfl, ⟨left, right, l, r, _, rfl, hleft, _⟩, _⟩ := h
  have hs : '.' ∈ left ++ ':' :: ':' :: right := List.mem_append_left _ hleft.dot
  cases zone with
  | none => exact hs
  | some z => exact List.mem_append_left _ hs

/-- `parse_ip_v6` is exact at a text if and only if no dotted quad is to the left of `::`. -/
theorem parseIpV6_exact_iff {text : Text} (hascii : Ascii text)
    (hsize : text.length + 24 < 2 ^ 63) :
    (∀ ip, parseIpV6 text = .value ip ↔ Denotes text ip) ↔ ¬QuadBeforeColons text := by
  constructor
  · rintro hexact ⟨s, zone, groups, rfl, hcompressed, hvalid⟩
    have hlen : groups.length = 8 := (accepted_iff.mpr (.inr hcompressed)).length
    obtain ⟨ip, rfl, rfl, hversion⟩ : ∃ ip : IpAddr,
        ip.zone = zone ∧ ip.groups = groups ∧ ip.version = 6 := by
      match groups, hlen with
      | [a, b, c, d, e, f, g, h], _ => exact ⟨⟨6, zone, a, b, c, d, e, f, g, h⟩, rfl, rfl, rfl⟩
    have hvalue := (parseIpV6_iff hascii hsize).mpr
      ⟨s, rfl, accepted_iff.mpr (.inr hcompressed), hvalid, hversion⟩
    obtain ⟨s', hsame, hgroups, _⟩ := (hexact ip).mp hvalue
    rw [← withZone_inj hsame] at hgroups
    exact hcompressed.not_groups hgroups
  · intro hquad ip
    rw [parseIpV6_iff hascii hsize]
    constructor
    · rintro ⟨s, htext, haccepted, hvalid, hversion⟩
      rcases accepted_iff.mp haccepted with hgroups | hcompressed
      · exact ⟨s, htext, hgroups, hvalid, hversion⟩
      · exact absurd ⟨s, ip.zone, ip.groups, htext, hcompressed, hvalid⟩ hquad
    · rintro ⟨s, htext, hgroups, hvalid, hversion⟩
      exact ⟨s, htext, accepted_iff.mpr (.inl hgroups), hvalid, hversion⟩

/-! ## Rendering -/

theorem hexNumeral_concat (s : Text) (c : Char) (value : Int) :
    hexNumeral (s ++ [c]) value = hexNumeral s value * 16 + (hexNumber c).getD 0 := by
  unfold hexNumeral
  rw [List.foldl_append]
  rfl

/-- A digit of `render_hex_group`. -/
theorem renderDigit {digit : Int} (hlo : 0 ≤ digit) (hhi : digit < 16) :
    ∃ c, (if digit < 10 then decimal digit
      else if digit = 10 then ['a']
      else if digit = 11 then ['b']
      else if digit = 12 then ['c']
      else if digit = 13 then ['d']
      else if digit = 14 then ['e']
      else ['f']) = [c] ∧ hexNumber c = some digit := by
  rcases (by omega : digit = 0 ∨ digit = 1 ∨ digit = 2 ∨ digit = 3 ∨ digit = 4 ∨ digit = 5 ∨
    digit = 6 ∨ digit = 7 ∨ digit = 8 ∨ digit = 9 ∨ digit = 10 ∨ digit = 11 ∨ digit = 12 ∨
    digit = 13 ∨ digit = 14 ∨ digit = 15) with
    rfl | rfl | rfl | rfl | rfl | rfl | rfl | rfl | rfl | rfl | rfl | rfl | rfl | rfl | rfl | rfl
  all_goals exact ⟨_, rfl, by decide⟩

/-- The digits that are left: the digits so far and the rest are the group. -/
theorem renderLoop {k : Nat} {out : Text} {value group : Int} {started : Bool}
    (hk : out.length + k ≤ 4)
    (hvalue : 0 ≤ value) (hvalue' : value < 16 ^ k) (hstarted : started = true ∨ out = [])
    (hout : ∀ c ∈ out, (hexNumber c).isSome = true)
    (hgroup : hexNumeral out 0 * 16 ^ k + value = group) :
    ∃ s, (Ending.loop .outOfFuel renderTurn (k + 1) (out, value, 16 ^ k / 16, started) :
      Parse Text) =
      .value s ∧ s.length ≤ 4 ∧ (∀ c ∈ s, (hexNumber c).isSome = true) ∧
        hexNumeral s 0 = group := by
  induction k generalizing out value started with
  | zero =>
    rw [pow_zero] at hvalue' hgroup
    refine ⟨out, ?_, by omega, hout, by omega⟩
    rw [Ending.loop, renderTurn, if_neg (by decide), Ending.value_bind]
  | succ k ih =>
    have hpow : (16 : Int) ^ k ≤ 16 ^ 3 := by
      have := Nat.pow_le_pow_right (n := 16) (by omega) (show k ≤ 3 by omega)
      exact_mod_cast this
    have hpos : (0 : Int) < 16 ^ k := by positivity
    have hdivisor : (16 : Int) ^ (k + 1) / 16 = 16 ^ k := by
      rw [pow_succ, Int.mul_ediv_cancel _ (by decide)]
    have hdigit : 0 ≤ value / 16 ^ k := Int.ediv_nonneg hvalue (by omega)
    have hdigit' : value / 16 ^ k < 16 := by
      refine Int.ediv_lt_of_lt_mul hpos ?_
      rwa [← pow_succ']
    have hrest : 0 ≤ value % 16 ^ k := Int.emod_nonneg _ (by omega)
    have hrest' : value % 16 ^ k < 16 ^ k := Int.emod_lt_of_pos _ hpos
    have hparts := Int.mul_ediv_add_emod value (16 ^ k)
    rw [pow_succ] at hvalue' hgroup
    obtain ⟨c, hc, hnumber⟩ := renderDigit hdigit hdigit'
    rw [Ending.loop, renderTurn, hdivisor, if_pos hpos, div_bind ⟨hvalue, by omega, hpos⟩,
      rem_ok hvalue (by omega) hpos, div_ok (by omega) (by omega) (by decide)]
    dsimp only
    split
    · rename_i hshown
      rw [hc, Ending.value_bind, Ending.value_bind, Ending.value_bind]
      refine ih (by rw [List.length_append, List.length_singleton]; omega) hrest hrest'
        (.inl rfl) ?_ ?_
      · intro d hd
        rcases List.mem_append.mp hd with hd | hd
        · exact hout d hd
        · rw [List.mem_singleton.mp hd, hnumber]
          rfl
      · rw [hexNumeral_concat, hnumber, Option.getD_some, Int.add_mul, Int.mul_assoc,
          Int.mul_comm 16,
          Int.mul_comm (value / 16 ^ k)]
        omega
    · rename_i hskipped
      rw [Ending.value_bind, Ending.value_bind, Ending.value_bind]
      obtain ⟨hzero, hfalse⟩ := not_or.mp hskipped
      rw [not_not.mp hzero, Int.mul_zero] at hparts
      obtain rfl : out = [] := hstarted.resolve_left hfalse
      have hlen : ([] : Text).length + k ≤ 4 := Nat.le_of_succ_le hk
      refine ih hlen hrest hrest' (.inr rfl) hout ?_
      simp only [hexNumeral, List.foldl_nil, Int.zero_mul] at hgroup ⊢
      omega

/-- `render_hex_group`. -/
theorem renderHexGroup_spec {group : Int} (h : Group group) :
    ∃ s, renderHexGroup group = .value s ∧ HexGroup s group := by
  obtain ⟨hlo, hhi⟩ := h
  unfold renderHexGroup
  split
  · rename_i hzero
    subst hzero
    exact ⟨['0'], rfl, ⟨by decide, by decide⟩, List.forall_mem_singleton.mpr rfl, rfl⟩
  · rename_i hne
    obtain ⟨s, hs, hlen, hdigits, hvalue⟩ :=
      @renderLoop 4 [] group group false (Nat.le_refl 4) hlo (by omega) (.inr rfl)
      (List.forall_mem_nil _) (by simp [hexNumeral])
    refine ⟨s, hs, ⟨?_, hlen⟩, hdigits, hvalue.symm⟩
    rcases s with _ | ⟨c, s⟩
    · exact absurd hvalue.symm hne
    · exact Nat.le_add_left 1 _

theorem octet_decimal {n : Int} (h : Byte n) : Octet (decimal n) n := by
  obtain ⟨hlo, hhi⟩ := h
  exact ⟨decimal_ne_nil hlo, decimal_digits hlo, (numeral_decimal hlo).symm, by omega⟩

/-- The text of an address of version 4. -/
theorem render_v4 {a b c d : Int} (ha : Byte a) (hb : Byte b) (hc : Byte c) (hd : Byte d) :
    ∃ s, (ipV4 a b c d).render = .value s ∧ Quad s a b c d := by
  have hbyte : ∀ n, Byte n → asUnsigned 8 (asUnsigned 16 n) = n := by
    rintro n ⟨hlo, hhi⟩
    rw [asUnsigned_eq (n := n) hlo (by omega), asUnsigned_eq hlo hhi]
  unfold IpAddr.render ipV4
  rw [if_pos rfl, hbyte a ha, hbyte b hb, hbyte c hc, hbyte d hd]
  refine ⟨_, rfl, decimal a, decimal b, decimal c, decimal d, ?_, octet_decimal ha,
    octet_decimal hb, octet_decimal hc, octet_decimal hd⟩
  simp [List.intercalate_cons_cons]

/-- The text of an address of version 6. -/
theorem render_v6 {ip : IpAddr} (hversion : ip.version = 6) (hgroups : ∀ g ∈ ip.groups, Group g)
    (hzone : ∀ z, ip.zone = some z → Zone z) :
    ∃ s, ip.render = .value s ∧ Denotes s ip := by
  obtain ⟨version, zone, a, b, c, d, e, f, g, h⟩ := ip
  unfold IpAddr.groups at hgroups
  dsimp only at hversion hzone hgroups
  simp only [List.mem_cons, List.not_mem_nil, or_false, forall_eq_or_imp, forall_eq] at hgroups
  subst hversion
  obtain ⟨ha, hb, hc, hd, he, hf, hg, hh⟩ := hgroups
  obtain ⟨sa, hsa, ha⟩ := renderHexGroup_spec ha
  obtain ⟨sb, hsb, hb⟩ := renderHexGroup_spec hb
  obtain ⟨sc, hsc, hc⟩ := renderHexGroup_spec hc
  obtain ⟨sd, hsd, hd⟩ := renderHexGroup_spec hd
  obtain ⟨se, hse, he⟩ := renderHexGroup_spec he
  obtain ⟨sf, hsf, hf⟩ := renderHexGroup_spec hf
  obtain ⟨sg, hsg, hg⟩ := renderHexGroup_spec hg
  obtain ⟨sh, hsh, hh⟩ := renderHexGroup_spec hh
  have hparts : Parts [sa, sb, sc, sd, se, sf, sg, sh] [a, b, c, d, e, f, g, h] false :=
    .cons ha (.cons hb (.cons hc (.cons hd (.cons he (.cons hf (.cons hg (.group hh)))))))
  have hside : Side ([':'].intercalate [sa, sb, sc, sd, se, sf, sg, sh]) [a, b, c, d, e, f, g, h]
      false := .inr ⟨_, rfl, hparts⟩
  refine ⟨withZone ([':'].intercalate [sa, sb, sc, sd, se, sf, sg, sh]) zone, ?_, _, rfl,
    .inl ⟨false, hside, rfl⟩, hzone, rfl⟩
  unfold IpAddr.render
  rw [if_neg (show ¬(6 : Int) = 4 by decide), hsa, hsb, hsc, hsd, hse, hsf, hsg, hsh]
  simp only [Ending.value_bind]
  cases zone with
  | none => simp [withZone, List.intercalate_cons_cons]
  | some z => simp [withZone, List.intercalate_cons_cons]

/-! ## Parsing what is rendered -/

theorem Denotes.not_mem {t : Text} {ip : IpAddr} (h : Denotes t ip) {d : Char}
    (hd : hexNumber d = none) (hdot : d ≠ '.') (hcolon : d ≠ ':') (hpercent : d ≠ '%')
    (hzone : isZoneChar d = false) : d ∉ t := by
  obtain ⟨s, rfl, hgroups, hvalid, _⟩ := h
  have hs := (accepted_iff.mpr (.inl hgroups)).not_mem hd hdot hcolon
  cases hz : ip.zone with
  | none => exact hs
  | some z =>
    intro hmem
    rcases List.mem_append.mp hmem with hmem | hmem
    · exact hs hmem
    · rcases List.mem_cons.mp hmem with hmem | hmem
      · exact hpercent hmem
      · rw [(hvalid z hz).2 d hmem] at hzone
        cases hzone

theorem Denotes.ascii {t : Text} {ip : IpAddr} (h : Denotes t ip) : Ascii t := by
  obtain ⟨s, rfl, hgroups, hvalid, _⟩ := h
  have hs : Ascii s := by
    intro c hc
    rcases (accepted_iff.mpr (.inl hgroups)).chars c hc with hsome | rfl | rfl
    · exact utf8Size_of_lt (codePoint_of_hexNumber hsome)
    · rfl
    · rfl
  cases hz : ip.zone with
  | none => exact hs
  | some z =>
    refine ascii_append.mpr ⟨hs, List.forall_mem_cons.mpr ⟨rfl, (hvalid z hz).ascii⟩⟩

theorem parseIpV6_of_denotes {text : Text} {ip : IpAddr} (h : Denotes text ip)
    (hsize : text.length + 24 < 2 ^ 63) : parseIpV6 text = .value ip := by
  rw [parseIpV6_iff h.ascii hsize]
  obtain ⟨s, htext, hgroups, hvalid, hversion⟩ := h
  exact ⟨s, htext, accepted_iff.mpr (.inl hgroups), hvalid, hversion⟩

/-- What a constructor builds. -/
theorem IpAddr.Built.cases_version {ip : IpAddr} (h : ip.Built) :
    (ip.version = 4 ∧ ∃ a b c d, Byte a ∧ Byte b ∧ Byte c ∧ Byte d ∧ ip = ipV4 a b c d) ∨
      ip.version = 6 ∧ (∀ g ∈ ip.groups, Group g) ∧ ∀ z, ip.zone = some z → Zone z := by
  cases h with
  | v4 ha hb hc hd => exact .inl ⟨rfl, _, _, _, _, ha, hb, hc, hd, rfl⟩
  | v6 ha hb hc hd he hf hg hh =>
    refine .inr ⟨rfl, ?_, fun z hz => by cases hz⟩
    simp only [IpAddr.groups, ipV6, List.mem_cons, List.not_mem_nil, or_false, forall_eq_or_imp,
      forall_eq]
    exact ⟨ha, hb, hc, hd, he, hf, hg, hh⟩
  | @v6Scoped _ _ _ _ _ _ _ _ zone ha hb hc hd he hf hg hh hzone =>
    refine .inr ⟨rfl, ?_, fun z hz => ?_⟩
    · simp only [IpAddr.groups, ipV6Scoped, List.mem_cons, List.not_mem_nil, or_false,
        forall_eq_or_imp,
        forall_eq]
      exact ⟨ha, hb, hc, hd, he, hf, hg, hh⟩
    · cases hz
      have hlen := length_le_byteSize zone.text
      have hfits := zone.fits
      exact (validZoneId_iff (Int.le_refl 0) (by omega)).mp hzone

/-- The number of a port. -/
theorem parseDecimal_port {port pos : Int} (h : 0 ≤ port ∧ port < 2 ^ 16) (hpos : 0 ≤ pos)
    (hfits : pos + (decimal port).length < 2 ^ 63) :
    parseDecimal (decimal port) pos 65535 = .value port := by
  rw [parseDecimal_iff hpos hfits (by omega) (by omega)]
  exact ⟨decimal_ne_nil h.1, decimal_digits h.1, (numeral_decimal h.1).symm, by omega⟩

theorem startsWith_of_not_mem {c : Char} {s : Text} (h : c ∉ s) : startsWith s [c] = false := by
  cases s with
  | nil => rfl
  | cons d s =>
    have hd := List.ne_of_not_mem_cons h
    unfold startsWith
    simp [List.isPrefixOf, hd]

theorem ascii_decimal {n : Int} (h : 0 ≤ n) : Ascii (decimal n) := by
  intro c hc
  have := (isDigit_iff c).mp (decimal_digits h c hc)
  exact utf8Size_of_lt (by omega)

/-- Where a character cuts an ASCII text. -/
theorem indexOf_char {left right : Text} {c : Char} (hascii : Ascii (left ++ c :: right))
    (hleft : c ∉ left) : indexOf (left ++ c :: right) [c] = some (left.length : Int) := by
  rw [indexOf_eq, hascii.offset_eq, place_char_iff.mpr ⟨left, right, rfl, hleft, rfl⟩]
  rfl

theorem substring_before {E : Type} {left right : Text} :
    (substring (left ++ right) 0 (left.length : Int) : Run E Text) = .value left := by
  rw [substring_head rfl (by rw [List.length_append]; omega), List.take_left]

theorem substring_behind {E : Type} {left right : Text} {c : Char} :
    (substring (left ++ c :: right) ((left.length : Int) + 1) (size (left ++ c :: right)) :
      Run E Text) =
      .value right := by
  have hlen : left.length + 1 ≤ (left ++ c :: right).length := by
    rw [List.length_append, List.length_cons]
    omega
  rw [substring_tail (i := left.length + 1) (by omega) hlen, List.drop_append,
    List.drop_of_length_le (by omega)]
  simp

/-- A socket address of version 4 is parsed back. -/
theorem parseSocketAddr_v4 {s : Text} {a b c d port : Int} (h : Quad s a b c d)
    (hport : 0 ≤ port ∧ port < 2 ^ 16) (hsize : (s ++ ':' :: decimal port).length + 24 < 2 ^ 63) :
    parseSocketAddr (s ++ ':' :: decimal port) = .value ⟨ipV4 a b c d, port⟩ := by
  have hlen : (s ++ ':' :: decimal port).length = s.length + 1 + (decimal port).length := by
    rw [List.length_append, List.length_cons]
    omega
  have hs : Ascii s := by
    intro e he
    rcases h.chars e he with hsome | rfl
    · exact utf8Size_of_lt (codePoint_of_hexNumber hsome)
    · rfl
  have hascii : Ascii (s ++ ':' :: decimal port) :=
    ascii_append.mpr ⟨hs, List.forall_mem_cons.mpr ⟨rfl, ascii_decimal hport.1⟩⟩
  have hbracket : '[' ∉ s ++ ':' :: decimal port := by
    intro hmem
    rcases List.mem_append.mp hmem with hmem | hmem
    · exact h.not_mem (by decide) rfl hmem
    · rcases List.mem_cons.mp hmem with hmem | hmem
      · cases hmem
      · exact absurd (decimal_digits hport.1 _ hmem) (by decide)
  unfold parseSocketAddr parseIpv4SocketAddr
  rw [startsWith_of_not_mem hbracket, if_neg (by decide),
    indexOf_char hascii (h.not_mem (by decide) rfl)]
  dsimp only
  rw [substring_before, Ending.value_bind, i64_bind (by omega), substring_behind,
    Ending.value_bind, (parseIpV4_iff (by omega)).mpr ⟨a, b, c, d, h, rfl⟩, Ending.value_bind,
    i64_bind (by omega), parseDecimal_port hport (by omega) (by omega), Ending.value_bind,
    asUnsigned_eq hport.1 hport.2]

/-- A socket address of version 6 is parsed back. -/
theorem parseSocketAddr_v6 {s : Text} {ip : IpAddr} {port : Int} (h : Denotes s ip)
    (hport : 0 ≤ port ∧ port < 2 ^ 16)
    (hsize : ('[' :: s ++ ']' :: ':' :: decimal port).length + 24 < 2 ^ 63) :
    parseSocketAddr ('[' :: s ++ ']' :: ':' :: decimal port) = .value ⟨ip, port⟩ := by
  have hlen : ('[' :: s ++ ']' :: ':' :: decimal port).length =
      s.length + 3 + (decimal port).length := by
    rw [List.length_append, List.length_cons, List.length_cons, List.length_cons]
    omega
  have hascii : Ascii ('[' :: s ++ ']' :: ':' :: decimal port) :=
    ascii_append.mpr ⟨List.forall_mem_cons.mpr ⟨rfl, h.ascii⟩,
      List.forall_mem_cons.mpr ⟨rfl, List.forall_mem_cons.mpr ⟨rfl, ascii_decimal hport.1⟩⟩⟩
  have hclose : ']' ∉ '[' :: s := List.not_mem_cons_of_ne_of_not_mem (by decide)
    (h.not_mem rfl (by decide) (by decide) (by decide) (by decide))
  have hstart : startsWith ('[' :: s ++ ']' :: ':' :: decimal port) ['['] = true := by
    unfold startsWith
    simp [List.isPrefixOf]
  have hrest : startsWith (':' :: decimal port) [':'] = true := by
    unfold startsWith
    simp [List.isPrefixOf]
  have hinner : (substring ('[' :: s ++ ']' :: ':' :: decimal port) 1 (('[' :: s).length : Int) :
      Parse Text) =
      .value s := by
    rw [substring_ok (by omega) (by rw [List.length_cons]; omega)
      (by unfold size; rw [hlen, List.length_cons]; omega), Int.toNat_natCast, List.take_left]
    rfl
  have hport' : (substring (':' :: decimal port) 1 (size (':' :: decimal port)) : Parse Text) =
      .value (decimal port) := @substring_behind _ [] _ _
  have hnext : (('[' :: s).length : Int) = s.length + 1 := by
    rw [List.length_cons]
    omega
  unfold parseSocketAddr
  rw [hstart, if_pos rfl, indexOf_char hascii hclose]
  dsimp only
  rw [hinner, Ending.value_bind, i64_bind (by omega), substring_behind, Ending.value_bind, hrest,
    if_neg (by decide), parseIpV6_of_denotes h (by omega)]
  show (do
    let port' ← parseDecimal (← substring (':' :: decimal port) 1 (size (':' :: decimal port)))
      (← i64 (('[' :: s).length + 2)) 65535
    .value ⟨ip, asUnsigned 16 port'⟩ : Parse SocketAddr) = _
  rw [hport', Ending.value_bind, i64_bind (by omega),
    parseDecimal_port hport (by omega) (by omega), Ending.value_bind,
    asUnsigned_eq hport.1 hport.2]

/-! ## Exact -/

/-- An address from a constructor and a socket address with it are parsed back from their text.
`parse_ip_v6` is exact at an ASCII text if and only if the text is not an address but for a dotted
quad to the left of `::`. -/
theorem address_text_exact_iff (text : Str) (hascii : Ascii text.text) :
    (∀ ip : IpAddr, ip.Built → ∃ s, ip.render = .value s ∧ ∀ t : Str, t.text = s →
      (ip.version = 4 → parseIpV4 t.text = .value ip) ∧
        (ip.version = 6 → parseIpV6 t.text = .value ip)) ∧
    (∀ (ip : IpAddr) (port : Int), ip.Built → 0 ≤ port ∧ port < 2 ^ 16 →
      ∃ s, (SocketAddr.mk ip port).render = .value s ∧
        ∀ t : Str, t.text = s → parseSocketAddr t.text = .value ⟨ip, port⟩) ∧
    ((∀ ip, parseIpV6 text.text = .value ip ↔ Denotes text.text ip) ↔
      ¬QuadBeforeColons text.text) := by
  have hsize : ∀ t : Str, t.text.length + 24 < 2 ^ 63 := by
    intro t
    have := length_le_byteSize t.text
    have := t.fits
    omega
  refine ⟨fun ip hbuilt => ?_, fun ip port hbuilt hport => ?_,
    parseIpV6_exact_iff hascii (hsize text)⟩
  · rcases hbuilt.cases_version with ⟨hversion, a, b, c, d, ha, hb, hc, hd, rfl⟩
      | ⟨hversion, hgroups, hzone⟩
    · obtain ⟨s, hs, hquad⟩ := render_v4 ha hb hc hd
      refine ⟨s, hs, fun t ht => ⟨fun _ => ?_, fun h => by cases h⟩⟩
      subst ht
      exact (parseIpV4_iff (by have := hsize t; omega)).mpr ⟨a, b, c, d, hquad, rfl⟩
    · obtain ⟨s, hs, hdenotes⟩ := render_v6 hversion hgroups hzone
      refine ⟨s, hs, fun t ht => ⟨fun h => ?_, fun _ => ?_⟩⟩
      · rw [hversion] at h
        cases h
      · subst ht
        exact parseIpV6_of_denotes hdenotes (hsize t)
  · unfold SocketAddr.render
    rcases hbuilt.cases_version with ⟨hversion, a, b, c, d, ha, hb, hc, hd, rfl⟩
      | ⟨hversion, hgroups, hzone⟩
    · obtain ⟨s, hs, hquad⟩ := render_v4 ha hb hc hd
      refine ⟨s ++ ':' :: decimal port, ?_, fun t ht => ?_⟩
      · dsimp only
        rw [if_neg (by rw [hversion]; decide), hs, Ending.value_bind, List.append_assoc]
        rfl
      · have hlen := hsize t
        rw [ht] at hlen ⊢
        exact parseSocketAddr_v4 hquad hport hlen
    · obtain ⟨s, hs, hdenotes⟩ := render_v6 hversion hgroups hzone
      refine ⟨'[' :: s ++ ']' :: ':' :: decimal port, ?_, fun t ht => ?_⟩
      · rw [if_pos hversion, hs, Ending.value_bind]
        simp
      · have hlen := hsize t
        rw [ht] at hlen ⊢
        exact parseSocketAddr_v6 hdenotes hport hlen

/-- The last address of version 4, a port, and the loopback address. -/
theorem address_text_exact_at :
    parseIpV4 ['2', '5', '5', '.', '2', '5', '5', '.', '2', '5', '5', '.', '2', '5', '5'] =
        .value (ipV4 255 255 255 255) ∧
      parseSocketAddr ['0', '.', '0', '.', '0', '.', '0', ':', '8', '0'] =
        .value ⟨ipV4 0 0 0 0, 80⟩ ∧
      Denotes [':', ':', '1'] (ipV6 0 0 0 0 0 0 0 1) := by
  have hbyte : Byte 255 ∧ Byte 0 := ⟨⟨by decide, by decide⟩, by decide, by decide⟩
  obtain ⟨hrender, hsocket, hexact⟩ :=
    address_text_exact_iff ⟨[':', ':', '1'], by decide⟩ (by decide)
  refine ⟨?_, ?_, ?_⟩
  · obtain ⟨s, hs, hparse⟩ := hrender (ipV4 255 255 255 255)
      (.v4 hbyte.1 hbyte.1 hbyte.1 hbyte.1)
    exact (hparse ⟨_, by decide⟩ (Ending.value.inj ((show _ = _ by rfl).trans hs))).1 rfl
  · obtain ⟨s, hs, hparse⟩ := hsocket (ipV4 0 0 0 0) 80
      (.v4 hbyte.2 hbyte.2 hbyte.2 hbyte.2) (by decide)
    exact hparse ⟨_, by decide⟩ (Ending.value.inj ((show _ = _ by rfl).trans hs))
  · have hquad : ¬QuadBeforeColons [':', ':', '1'] := fun h => absurd h.dot (by decide)
    exact (hexact.mpr hquad _).mp (by decide +kernel)

/-- A dotted quad is accepted to the left of `::`, where it is not the last 32 bits. -/
theorem quad_before_colons :
    Ascii ['1', '.', '2', '.', '3', '.', '4', ':', ':'] ∧
      parseIpV6 ['1', '.', '2', '.', '3', '.', '4', ':', ':'] =
        .value (ipV6 0x0102 0x0304 0 0 0 0 0 0) ∧
      ¬Denotes ['1', '.', '2', '.', '3', '.', '4', ':', ':'] (ipV6 0x0102 0x0304 0 0 0 0 0 0) := by
  refine ⟨by decide, by decide +kernel, ?_⟩
  rintro ⟨s, htext, hgroups, _⟩
  have hone : ∀ c : Char, c.isDigit = true → numeral [c] 0 ≤ 255 → Octet [c] (numeral [c] 0) := by
    intro c hc hle
    exact ⟨List.cons_ne_nil _ _, List.forall_mem_singleton.mpr hc, rfl, hle⟩
  have hquad : Quad ['1', '.', '2', '.', '3', '.', '4'] 1 2 3 4 :=
    ⟨['1'], ['2'], ['3'], ['4'], rfl, hone '1' rfl (by decide), hone '2' rfl (by decide),
      hone '3' rfl (by decide), hone '4' rfl (by decide)⟩
  have hcompressed : Compressed ['1', '.', '2', '.', '3', '.', '4', ':', ':']
      (filled [0x0102, 0x0304] []) true :=
    ⟨['1', '.', '2', '.', '3', '.', '4'], [], _, _, false, rfl,
      .inr ⟨[_], rfl, .quad hquad⟩, side_nil_iff.mpr ⟨rfl, rfl⟩, by decide, rfl⟩
  have hsame : _ = s := htext
  rw [← hsame] at hgroups
  exact hcompressed.not_groups hgroups

end stdlib.net
