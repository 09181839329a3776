-- The parsers of addresses: `parse_ip_v4` never panics, `parse_ip_v6` and `parse_socket_addr` panic
-- when the offset of a delimiter, in bytes, is past the characters of the text.
import OtterFusion.Stdlib.NetNumbers

open base.trapping

namespace stdlib.net

/-! ## Conditions -/

/-- The zone of `parse_ip_v6` is missing or accepted. -/
def ZoneOk (text : Text) : Prop :=
  offset ['%'] text = none ∨ after ['%'] text ≠ [] ∧ ∀ c ∈ after ['%'] text, isZoneChar c = true

/-- The cuts of `parse_ip_v6` are inside the text: the one at the zone, and the one at the
compression if the zone is accepted. -/
def Ipv6Fits (text : Text) : Prop :=
  Within 1 ['%'] text ∧ (ZoneOk text → Within 2 [':', ':'] (before ['%'] text))

/-- What a cut at the closing bracket leaves of a text after its first character. -/
def bracketed (text : Text) : Text :=
  match offset [']'] text with
  | none => []
  | some i => (text.take i).drop 1

/-- The cuts of `parse_socket_addr` are inside the text. -/
def SocketFits (text : Text) : Prop :=
  if startsWith text ['['] then
    Within 1 [']'] text ∧ (startsWith (after [']'] text) [':'] = true → Ipv6Fits (bracketed text))
  else Within 1 [':'] text

instance (text : Text) : Decidable (ZoneOk text) := inferInstanceAs (Decidable (_ ∨ _))

instance (text : Text) : Decidable (Ipv6Fits text) := inferInstanceAs (Decidable (_ ∧ _))

instance (text : Text) : Decidable (SocketFits text) := by
  unfold SocketFits
  infer_instance

/-! ## IPv4 -/

variable {text : Text} {position : Int}

/-- An index in a list. -/
theorem ends_get {A B E : Type} {P : B → Prop} {Q : E → Prop} {xs : List A} {i : Int}
    {f : A → Run E B} (hlo : 0 ≤ i) (hhi : i < xs.length)
    (h : ∀ x, xs[i.toNat]? = some x → (f x).Ends P Q) : (get xs i >>= f).Ends P Q := by
  have hlt : i.toNat < xs.length := by omega
  have hsome := List.getElem?_eq_getElem hlt
  unfold get
  rw [if_neg (by omega), hsome]
  exact h _ hsome

/-- A group of 16 bits. -/
def Group (n : Int) : Prop := 0 ≤ n ∧ n < 2 ^ 16

/-- An address with each part in 16 bits. -/
def Grouped (ip : IpAddr) : Prop :=
  Group ip.a ∧ Group ip.b ∧ Group ip.c ∧ Group ip.d ∧ Group ip.e ∧ Group ip.f ∧ Group ip.g ∧
    Group ip.h

/-- A list of four. -/
theorem exists_of_length_four {A : Type} {xs : List A} (h : xs.length = 4) :
    ∃ a b c d, xs = [a, b, c, d] := by
  match xs, h with
  | [a, b, c, d], _ => exact ⟨a, b, c, d, rfl⟩

/-- `parse_ip_v4` gives four bytes of ASCII, or an error in the text. -/
theorem parseIpV4_ends (hfits : (text.length : Int) + 8 < 2 ^ 63) :
    (parseIpV4 text).Ends
      (fun ip => ((0 ≤ ip.a ∧ ip.a < 256) ∧ (0 ≤ ip.b ∧ ip.b < 256) ∧ (0 ≤ ip.c ∧ ip.c < 256) ∧
        0 ≤ ip.d ∧ ip.d < 256) ∧ Ascii text)
      (Points 0 text.length) := by
  unfold parseIpV4
  dsimp only
  split
  · exact ⟨by dsimp only; omega, by dsimp only; omega⟩
  rename_i hfour
  obtain ⟨a, b, c, d, hparts⟩ := exists_of_length_four (not_not.mp hfour)
  have htotal := split_total text '.'
  have hascii : Ascii a → Ascii b → Ascii c → Ascii d → Ascii text := by
    intro ha hb hc hd
    refine ascii_of_split '.' rfl ?_
    rw [hparts]
    simp only [List.mem_cons, List.not_mem_nil, or_false, forall_eq_or_imp, forall_eq]
    exact ⟨ha, hb, hc, hd⟩
  rw [hparts] at htotal ⊢
  simp only [List.map_cons, List.map_nil, List.sum_cons, List.sum_nil] at htotal
  have h0 : (get [a, b, c, d] 0 : Parse Text) = .value a := rfl
  have h1 : (get [a, b, c, d] 1 : Parse Text) = .value b := rfl
  have h2 : (get [a, b, c, d] 2 : Parse Text) = .value c := rfl
  have h3 : (get [a, b, c, d] 3 : Parse Text) = .value d := rfl
  have hnumber : ∀ (part : Text) (pos : Int), 0 ≤ pos → pos + part.length ≤ text.length →
      (parseDecimal part pos 255).Ends (fun _ => Ascii part) (Points 0 text.length) :=
    fun part pos hpos hend =>
      (parseDecimal_ends hpos (by omega) (by omega) (by omega)).mono (fun _ h => h.2.2)
        fun _ he => he.mono hpos hend
  simp only [h0, h1, h2, h3, Ending.value_bind]
  unfold size
  refine (hnumber a 0 (by omega) (by omega)).bind ?_
  intro x hx
  refine ends_i64 (by omega) (by omega) ?_
  refine ends_i64 (by omega) (by omega) ?_
  refine (hnumber b _ (by omega) (by omega)).bind ?_
  intro y hy
  refine ends_i64 (by omega) (by omega) ?_
  refine ends_i64 (by omega) (by omega) ?_
  refine (hnumber c _ (by omega) (by omega)).bind ?_
  intro z hz
  refine ends_i64 (by omega) (by omega) ?_
  refine ends_i64 (by omega) (by omega) ?_
  refine (hnumber d _ (by omega) (by omega)).bind fun w hw => ?_
  have hbyte : ∀ n : Int, 0 ≤ asUnsigned 16 (asUnsigned 8 n) ∧
      asUnsigned 16 (asUnsigned 8 n) < 256 := by
    intro n
    unfold asUnsigned
    omega
  exact ⟨⟨hbyte x, hbyte y, hbyte z, hbyte w⟩, hascii hx hy hz hw⟩

/-! ## IPv6 -/

/-- An error of a part, shifted to the whole. -/
theorem shiftParseError_ends {A : Type} {P : A → Prop} {lo hi offset : Int} {error : ParseError}
    (h : Points lo hi error) (hlo : -2 ^ 63 ≤ lo + offset) (hhi : hi + offset < 2 ^ 63) :
    (shiftParseError error offset : Parse A).Ends P (Points (lo + offset) (hi + offset)) := by
  obtain ⟨h1, h2⟩ := h
  unfold shiftParseError
  refine ends_i64 (by omega) (by omega) ?_
  exact ⟨by dsimp only; omega, by dsimp only; omega⟩

theorem ends_orElse {A E F T : Type} {x : Ending T E A} {g : E → Ending T F A} {P : A → Prop}
    {Q : E → Prop} {Q' : F → Prop} (hx : x.Ends P Q) (hg : ∀ e, Q e → (g e).Ends P Q') :
    (x.orElse g).Ends P Q' := by
  cases x with
  | value a => exact hx
  | error e => exact hg e hx
  | trap t => exact hx

/-- One part between colons gives at most two groups, and two only in the last place. -/
theorem parseGroup_ends {part : Text} {isLast : Bool} {at_ : Int} (hat : 0 ≤ at_)
    (hfits : at_ + byteSize part + 8 < 2 ^ 63) :
    (parseGroup part isLast at_).Ends
      (fun gs => (gs.length ≤ 1 ∨ isLast = true ∧ gs.length ≤ 2) ∧ (∀ g ∈ gs, Group g) ∧ Ascii part)
      (Points at_ (at_ + byteSize part)) := by
  have hlen := length_le_byteSize part
  unfold parseGroup
  rw [indexOf_eq]
  cases hdot : offset ['.'] part with
  | some dot =>
    have hbytes := offset_bytes hdot
    dsimp only [Option.map_some]
    split
    · refine ends_i64 (by omega) (by omega) ?_
      exact ⟨by dsimp only; omega, by dsimp only; omega⟩
    rename_i hlast
    refine (ends_orElse (parseIpV4_ends (by omega)) fun e he => ?_).bind fun ip hip => ?_
    · refine (shiftParseError_ends he (by omega) (by omega)).mono (fun _ h => h) fun e he => ?_
      exact he.mono (by omega) (by omega)
    obtain ⟨⟨ha, hb, hc, hd⟩, hascii⟩ := hip
    rw [u16_ok (by omega) (by omega), Ending.value_bind, u16_ok (by omega) (by omega),
      Ending.value_bind, u16_ok (by omega) (by omega), Ending.value_bind,
      u16_ok (by omega) (by omega), Ending.value_bind]
    refine ⟨.inr ⟨by simpa using hlast, Nat.le_refl 2⟩, ?_, hascii⟩
    simp only [List.mem_cons, List.not_mem_nil, or_false, forall_eq_or_imp, forall_eq]
    exact ⟨⟨by omega, by omega⟩, ⟨by omega, by omega⟩⟩
  | none =>
    dsimp only [Option.map_none]
    refine ((parseHexGroup_ends hat (by omega)).mono (fun _ h => h) fun e he =>
      he.mono (Int.le_refl _) (by omega)).bind fun v hv => ?_
    refine ⟨.inl (Nat.le_refl 1), ?_, hv.2.2⟩
    intro g hg
    rw [List.mem_singleton.mp hg]
    unfold Group asUnsigned
    omega

/-- One side of the compression. -/
theorem parseIpv6Side_ends (hpos : 0 ≤ position) (hfits : position + byteSize text + 8 < 2 ^ 63) :
    (parseIpv6Side text position).Ends
      (fun gs => gs.length ≤ text.length + 2 ∧ (∀ g ∈ gs, Group g) ∧ Ascii text)
      (Points position (position + byteSize text)) := by
  unfold parseIpv6Side
  split
  · rename_i hempty
    subst hempty
    exact ⟨Nat.zero_le _, List.forall_mem_nil _, List.forall_mem_nil _⟩
  dsimp only
  have hbytes := split_bytes text ':' rfl
  have htotal := split_total text ':'
  have hparts : (split text ':').length ≤ text.length + 1 := by
    rw [← htotal, List.sum_map_add]
    simp
  have hascii := ascii_of_split (s := text) ':' rfl
  have hlen := length_le_byteSize text
  generalize split text ':' = parts at *
  let Reads : List Int × Int × Int → Prop := fun s =>
    ∃ i : Nat, s.2.2 = i ∧ i ≤ parts.length ∧ position ≤ s.2.1 ∧
      s.2.1 + ((parts.drop i).map fun p => byteSize p + 1).sum ≤ position + byteSize text + 1 ∧
      (s.1.length ≤ i ∨ i = parts.length ∧ s.1.length ≤ i + 1) ∧ (∀ g ∈ s.1, Group g) ∧
      ∀ p ∈ parts.take i, Ascii p
  refine Ending.loop_ends (I := Reads) (m := fun s => ((parts.length : Int) - s.2.2).toNat) ?_
    ⟨0, rfl, Nat.zero_le _, Int.le_refl _, ?_, .inl (Nat.le_refl 0), List.forall_mem_nil _,
      List.forall_mem_nil _⟩ (by dsimp only; omega)
  · rintro ⟨groups, at_, i'⟩ ⟨i, hi, hile, hat, hrest, hgroups, hgroup, hread⟩
    dsimp only at hi hat hrest hgroups hgroup
    subst hi
    unfold sideTurn
    dsimp only
    split
    · rename_i hlt
      have hlt' : i < parts.length := by omega
      refine ends_get (by omega) hlt fun part hpart => ?_
      rw [Int.toNat_natCast, List.getElem?_eq_getElem hlt'] at hpart
      cases hpart
      rw [List.drop_eq_getElem_cons hlt', List.map_cons, List.sum_cons] at hrest
      have hpartlen := length_le_byteSize parts[i]
      refine ((parseGroup_ends (by omega) (by omega)).mono (fun _ h => h) fun e he =>
        he.mono hat (by omega)).bind ?_
      intro more hmore
      unfold size
      refine ends_i64 (by omega) (by omega) ?_
      refine ends_i64 (by omega) (by omega) ?_
      refine ends_i64 (by omega) (by omega) ?_
      obtain ⟨hcount, hall, hasciiPart⟩ := hmore
      refine ⟨⟨i + 1, by dsimp only; omega, hlt', by dsimp only; omega, ?_, ?_, ?_, ?_⟩,
        by dsimp only; omega⟩
      · dsimp only
        omega
      · dsimp only
        rw [List.length_append]
        rcases hcount with h | ⟨hlast, h⟩
        · omega
        · have := of_decide_eq_true hlast
          omega
      · dsimp only
        intro g hg
        rcases List.mem_append.mp hg with hg | hg
        · exact hgroup g hg
        · exact hall g hg
      · intro p hp
        rw [List.take_succ_eq_append_getElem hlt'] at hp
        rcases List.mem_append.mp hp with hp | hp
        · exact hread p hp
        · rw [List.mem_singleton.mp hp]
          exact hasciiPart
    · rename_i hnot
      refine ⟨by omega, hgroup, hascii fun p hp => hread p ?_⟩
      rwa [List.take_of_length_le (by omega)]
  · dsimp only
    rw [List.drop_zero, hbytes]
    omega

/-- The zero groups in the place of the compression. -/
theorem zeros_ends {groups : List Int} {zeros : Int} (hgroups : ∀ g ∈ groups, Group g)
    (hzeros : 0 ≤ zeros) (hzeros' : zeros < 2 ^ 62) :
    (Ending.loop .outOfFuel zerosTurn (zeros.toNat + 1) (groups, zeros) : Parse (List Int)).Ends
      (fun gs => gs.length = groups.length + zeros ∧ ∀ g ∈ gs, Group g) (fun _ => False) := by
  refine Ending.loop_ends
    (I := fun p : List Int × Int => 0 ≤ p.2 ∧ p.2 ≤ zeros ∧
      (p.1.length : Int) + p.2 = groups.length + zeros ∧ ∀ g ∈ p.1, Group g)
    (m := fun p : List Int × Int => p.2.toNat) ?_ ⟨hzeros, Int.le_refl _, rfl, hgroups⟩
    (by dsimp only; omega)
  rintro ⟨gs, left⟩ ⟨h0, hle, hlen, hgs⟩
  dsimp only at h0 hle hlen hgs
  unfold zerosTurn
  dsimp only
  split
  · refine ends_i64 (by omega) (by omega) ?_
    refine ⟨⟨by dsimp only; omega, by dsimp only; omega, ?_, ?_⟩, by dsimp only; omega⟩
    · dsimp only
      rw [List.length_append, List.length_singleton]
      omega
    · intro g hg
      rcases List.mem_append.mp hg with hg | hg
      · exact hgs g hg
      · rw [List.mem_singleton.mp hg]
        exact ⟨by omega, by omega⟩
  · exact ⟨by omega, hgs⟩

/-- The groups of `parse_ip_v6` are eight. -/
theorem parseGroups_ends (hbytes : (byteSize text : Int) + 16 < 2 ^ 63)
    (hcut : Within 2 [':', ':'] text) :
    (parseGroups text).Ends (fun gs => gs.length = 8 ∧ (∀ g ∈ gs, Group g) ∧ Ascii text)
      (Points 0 (byteSize text)) := by
  have hlen := length_le_byteSize text
  unfold parseGroups
  unfold Within at hcut
  rw [indexOf_eq]
  cases hsplit : offset [':', ':'] text with
  | some i =>
    rw [hsplit] at hcut
    have hrest := offset_bytes hsplit
    change i + 2 ≤ text.length at hcut
    change i + 2 + byteSize (text.drop (i + 2)) ≤ byteSize text at hrest
    dsimp only [Option.map_some]
    refine ends_i64 (by omega) (by omega) ?_
    refine ends_substring (by omega) (by unfold size; omega) (Int.le_refl _) ?_
    have htail : (text.take (size text).toNat).drop ((i : Int) + 2).toNat = text.drop (i + 2) := by
      unfold size
      rw [Int.toNat_natCast, List.take_length, show ((i : Int) + 2).toNat = i + 2 by omega]
    rw [htail, indexOf_eq]
    cases hnext : offset [':', ':'] (text.drop (i + 2)) with
    | some next =>
      have hnext := offset_bytes hnext
      dsimp only [Option.map_some]
      refine ends_i64 (by omega) (by omega) ?_
      refine ends_i64 (by omega) (by omega) ?_
      exact ⟨by dsimp only; omega, by dsimp only; omega⟩
    | none =>
      dsimp only [Option.map_none]
      refine ends_substring (by omega) (by omega) (by unfold size; omega) ?_
      rw [Int.toNat_natCast, Int.toNat_zero, List.drop_zero]
      have htake := byteSize_take_le text i
      have hboth : (text.take i).length + (text.drop (i + 2)).length ≤ text.length := by
        rw [List.length_take, List.length_drop]
        omega
      refine ((parseIpv6Side_ends (Int.le_refl 0) (by omega)).mono (fun _ h => h) fun e he =>
        he.mono (Int.le_refl _) (by omega)).bind ?_
      rintro left ⟨hleft, hleftGroup, hleftAscii⟩
      refine ends_i64 (by omega) (by omega) ?_
      refine ((parseIpv6Side_ends (by omega) (by omega)).mono (fun _ h => h) fun e he =>
        he.mono (by omega) (by omega)).bind ?_
      rintro right ⟨hright, hrightGroup, hrightAscii⟩
      refine ends_i64 (by omega) (by omega) ?_
      refine ends_i64 (by omega) (by omega) ?_
      split
      · exact ⟨by dsimp only; omega, by dsimp only; omega⟩
      rename_i hzeros
      refine ((zeros_ends hleftGroup (by omega) (by omega)).mono (fun _ h => h) fun _ h =>
        h.elim).bind ?_
      rintro groups ⟨hgroups, hgroup⟩
      refine ⟨?_, ?_, ascii_of_cut hsplit ?_ hleftAscii hrightAscii⟩
      · rw [List.length_append]
        omega
      · intro g hg
        rcases List.mem_append.mp hg with hg | hg
        · exact hgroup g hg
        · exact hrightGroup g hg
      · simp only [Ascii, List.mem_cons, List.not_mem_nil, or_false, or_self, forall_eq]
        rfl
  | none =>
    dsimp only [Option.map_none]
    refine ((parseIpv6Side_ends (Int.le_refl 0) (by omega)).mono (fun _ h => h) fun e he =>
      he.mono (Int.le_refl _) (by omega)).bind ?_
    rintro groups ⟨_, hgroup, hascii⟩
    split
    · exact ⟨by unfold size; dsimp only; omega, by unfold size; dsimp only; omega⟩
    · rename_i height
      exact ⟨not_not.mp height, hgroup, hascii⟩

/-- The compression needs room for its two colons. -/
theorem parseGroups_fits (hbytes : (byteSize text : Int) + 16 < 2 ^ 63)
    (h : (parseGroups text).Safe) : Within 2 [':', ':'] text := by
  have hlen := length_le_byteSize text
  unfold parseGroups at h
  unfold Within
  rw [indexOf_eq] at h
  split
  · trivial
  · rename_i i hsplit
    have hrest := offset_bytes hsplit
    change i + 2 + byteSize (text.drop (i + 2)) ≤ byteSize text at hrest
    rw [hsplit] at h
    dsimp only [Option.map_some] at h
    rw [safe_i64 (by omega) (by omega), safe_substring] at h
    obtain ⟨⟨_, hcut, _⟩, _⟩ := h
    unfold size at hcut
    omega

/-- The zone, when the cut is inside the text, and the text before it. -/
theorem parseZone_ends (hbytes : (byteSize text : Int) + 16 < 2 ^ 63) (hcut : Within 1 ['%'] text) :
    (parseZone text).Ends
      (fun r => ZoneOk text ∧ r.2 = before ['%'] text ∧ (Ascii r.2 → Ascii text))
      (fun e => Points 0 (byteSize text) e ∧ (ZoneOk text → before ['%'] text = [])) := by
  have hlen := length_le_byteSize text
  unfold parseZone
  unfold Within at hcut
  unfold ZoneOk before after
  rw [indexOf_eq]
  cases hzone : offset ['%'] text with
  | none => exact ⟨.inl rfl, rfl, id⟩
  | some i =>
    rw [hzone] at hcut
    have hrest := offset_bytes hzone
    simp only [List.length_singleton] at hcut hrest
    dsimp only [Option.map_some]
    refine ends_i64 (by omega) (by omega) ?_
    refine ends_substring (by omega) (by unfold size; omega) (Int.le_refl _) ?_
    have htail : (text.take (size text).toNat).drop ((i : Int) + 1).toNat = text.drop (i + 1) := by
      unfold size
      rw [Int.toNat_natCast, List.take_length, show ((i : Int) + 1).toNat = i + 1 by omega]
    have hafter := length_le_byteSize (text.drop (i + 1))
    rw [htail]
    refine ends_i64 (by omega) (by omega) ?_
    refine ((validZoneId_ends (by omega) (by omega)).mono (fun _ h => h) fun e he => ?_).bind ?_
    · refine ⟨he.1.mono (by omega) (by omega), fun hok => ?_⟩
      rcases hok with hok | hok
      · cases hok
      · exact absurd hok he.2
    rintro _ hvalid
    refine ends_substring (by omega) (by omega) (by unfold size; omega) ?_
    rw [Int.toNat_natCast, Int.toNat_zero, List.drop_zero]
    split
    · rename_i hnone
      refine ⟨⟨by dsimp only; omega, by dsimp only; omega⟩, fun _ => ?_⟩
      unfold size at hnone
      exact List.eq_nil_of_length_eq_zero (by omega)
    · refine ⟨.inr hvalid, rfl, fun hbefore => ascii_of_cut hzone ?_ hbefore ?_⟩
      · intro c hc
        rw [List.mem_singleton.mp hc]
        rfl
      · exact fun c hc => utf8Size_of_lt (codePoint_of_isZoneChar (hvalid.2 c hc))

/-- The zone needs room for its sign. -/
theorem parseZone_fits (hbytes : (byteSize text : Int) + 16 < 2 ^ 63) (h : (parseZone text).Safe) :
    Within 1 ['%'] text := by
  unfold parseZone at h
  unfold Within
  rw [indexOf_eq] at h
  split
  · trivial
  · rename_i i hzone
    have hrest := offset_bytes hzone
    rw [hzone] at h
    simp only [List.length_singleton] at hrest
    dsimp only [Option.map_some] at h
    rw [safe_i64 (by omega) (by omega), safe_substring] at h
    obtain ⟨⟨_, hcut, _⟩, _⟩ := h
    unfold size at hcut
    omega

/-- A cut leaves no more bytes before the needle than the text has. -/
theorem byteSize_before_le (text needle : Text) :
    byteSize (before needle text) ≤ byteSize text := by
  unfold before
  split
  · exact Nat.le_refl _
  · exact byteSize_take_le text _

/-- When the cuts are inside the text, `parse_ip_v6` gives eight groups of ASCII, or an error in the
text. -/
theorem parseIpV6_ends (hbytes : (byteSize text : Int) + 16 < 2 ^ 63) (hfits : Ipv6Fits text) :
    (parseIpV6 text).Ends (fun ip => (ip.version = 6 ∧ Grouped ip) ∧ Ascii text)
      (Points 0 (byteSize text)) := by
  obtain ⟨hzone, hgroups⟩ := hfits
  unfold parseIpV6
  split
  · exact ⟨by dsimp only; omega, by dsimp only; omega⟩
  refine ((parseZone_ends hbytes hzone).mono (fun _ h => h) fun e he => he.1).bind ?_
  rintro ⟨zone, rest⟩ ⟨hok, hrest, hascii⟩
  dsimp only at hrest hascii ⊢
  subst hrest
  have hle := byteSize_before_le text ['%']
  refine ((parseGroups_ends (by omega) (hgroups hok)).mono (fun _ h => h) fun e he =>
    he.mono (Int.le_refl _) (by omega)).bind ?_
  rintro groups ⟨hlen, hgroup, hbefore⟩
  match groups, hlen with
  | [a, b, c, d, e, f, g, h], _ =>
    simp only [List.mem_cons, List.not_mem_nil, or_false, forall_eq_or_imp, forall_eq] at hgroup
    exact ⟨⟨rfl, hgroup⟩, hascii hbefore⟩

/-- `parse_ip_v6` panics exactly when a cut is outside the text. -/
theorem parseIpV6_safe (hbytes : (byteSize text : Int) + 16 < 2 ^ 63) :
    (parseIpV6 text).Safe ↔ Ipv6Fits text := by
  constructor
  · intro h
    unfold parseIpV6 at h
    split at h
    · rename_i hnone
      unfold size at hnone
      rw [List.eq_nil_of_length_eq_zero (l := text) (by omega)]
      decide
    rw [Ending.safe_bind] at h
    obtain ⟨hzone, hrest⟩ := h
    have hcut := parseZone_fits hbytes hzone
    refine ⟨hcut, fun hok => ?_⟩
    have hends := parseZone_ends hbytes hcut
    cases hr : parseZone text with
    | value r =>
      have hgroups := (Ending.safe_bind.mp (hrest r hr)).1
      rw [(hends.of_value hr).2.1] at hgroups
      have hle := byteSize_before_le text ['%']
      exact parseGroups_fits (by omega) hgroups
    | error e =>
      rw [(hends.of_error hr).2 hok]
      decide
    | trap t => exact absurd hr (hzone t)
  · intro h
    exact (parseIpV6_ends hbytes h).safe

/-! ## Socket addresses -/

/-- A delimiter that the text does not start with is not at its start. -/
theorem offset_pos {c d : Char} {i : Nat} (hstart : startsWith text [c] = true) (hcd : c ≠ d)
    (h : offset [d] text = some i) : 1 ≤ i := by
  match text, hstart with
  | e :: rest, hstart =>
    have he : c = e := by
      unfold startsWith at hstart
      simpa [List.isPrefixOf] using hstart
    subst he
    obtain ⟨k, hk, rfl⟩ := Option.map_eq_some_iff.mp h
    unfold place at hk
    split at hk
    · rename_i hprefix
      simp [List.isPrefixOf] at hprefix
      exact absurd hprefix.symm hcd
    · obtain ⟨j, _, rfl⟩ := Option.map_eq_some_iff.mp hk
      have := c.utf8Size_pos
      show 1 ≤ c.utf8Size + byteSize (rest.take j)
      omega

theorem byteSize_bracketed_le (text : Text) : byteSize (bracketed text) ≤ byteSize text := by
  unfold bracketed
  split
  · exact Nat.zero_le _
  · rename_i i _
    have htake := byteSize_take_le text i
    have hdrop := byteSize_drop_le (text.take i) 1
    omega

/-- `parse_ipv4_socket_addr` panics exactly when the cut at the colon is outside the text. -/
theorem parseIpv4SocketAddr_safe (hbytes : (byteSize text : Int) + 16 < 2 ^ 63) :
    (parseIpv4SocketAddr text).Safe ↔ Within 1 [':'] text := by
  have hlen := length_le_byteSize text
  unfold parseIpv4SocketAddr Within
  rw [indexOf_eq]
  cases hsplit : offset [':'] text with
  | none =>
    constructor
    · intro _
      trivial
    · intro _
      exact Ending.safe_error _
  | some i =>
    have hrest := offset_bytes hsplit
    rw [List.length_singleton] at hrest
    dsimp only [Option.map_some]
    rw [safe_substring, safe_i64 (by omega) (by omega), safe_substring, take_size_drop]
    unfold size
    constructor
    · rintro ⟨_, ⟨_, hcut, _⟩, _⟩
      omega
    · intro hcut
      refine ⟨⟨by omega, by omega, by omega⟩, ⟨by omega, by omega, Int.le_refl _⟩, ?_⟩
      have hhost : ((text.take (i : Int).toNat).drop (0 : Int).toNat).length ≤ text.length := by
        rw [List.length_drop, List.length_take]
        omega
      have hport := length_le_byteSize (text.drop ((i : Int) + 1).toNat)
      rw [show ((i : Int) + 1).toNat = i + 1 by omega] at hport ⊢
      refine Ending.Ends.safe (P := fun _ => True) (Q := fun _ => True) ?_
      refine ((parseIpV4_ends (by omega)).mono (fun _ _ => trivial) fun _ _ => trivial).bind
        (P := fun _ => True) fun ip _ => ?_
      refine ends_i64 (by omega) (by omega) ?_
      exact ((parseDecimal_ends (by omega) (by omega) (by omega) (by omega)).mono
        (fun _ _ => trivial) fun _ _ => trivial).bind (P := fun _ => True) fun _ _ => trivial

/-- `parse_socket_addr` panics exactly when a cut is outside the text. -/
theorem parseSocketAddr_safe (hbytes : (byteSize text : Int) + 16 < 2 ^ 63) :
    (parseSocketAddr text).Safe ↔ SocketFits text := by
  have hlen := length_le_byteSize text
  unfold parseSocketAddr SocketFits
  split
  · rename_i hbracket
    have hinner := byteSize_bracketed_le text
    unfold Within after
    unfold bracketed at hinner ⊢
    rw [indexOf_eq]
    cases hstop : offset [']'] text with
    | none =>
      constructor
      · intro _
        refine ⟨trivial, fun h => ?_⟩
        cases h
      · intro _
        exact Ending.safe_error _
    | some i =>
      have hpos := offset_pos hbracket (by decide) hstop
      have hrest := offset_bytes hstop
      rw [hstop] at hinner
      rw [List.length_singleton] at hrest
      dsimp only [Option.map_some] at hinner ⊢
      rw [safe_substring, safe_i64 (by omega) (by omega), safe_substring, take_size_drop,
        show ((i : Int) + 1).toNat = i + 1 by omega, Int.toNat_natCast,
        show (1 : Int).toNat = 1 by rfl, List.length_singleton]
      have htail : ∀ (rest : Text), rest.length ≤ byteSize (text.drop (i + 1)) →
          ((if !startsWith rest [':'] then do
            parseError "expected host:port" (← i64 ((i : Int) + 1))
          else do
            let ip ← (parseIpV6 ((text.take i).drop 1)).orElse fun error => shiftParseError error 1
            let port ← parseDecimal (← substring rest 1 (size rest)) (← i64 ((i : Int) + 2)) 65535
            .value ⟨ip, asUnsigned 16 port⟩ : Parse SocketAddr).Safe ↔
          (startsWith rest [':'] = true → Ipv6Fits ((text.take i).drop 1))) := by
        intro rest hrestLen
        split
        · rename_i hcolon
          constructor
          · intro _ h
            rw [h] at hcolon
            cases hcolon
          · intro _
            rw [safe_i64 (by omega) (by omega)]
            exact Ending.safe_error _
        · rename_i hcolon
          rw [← parseIpV6_safe (by omega)]
          constructor
          · intro h _
            exact (Ending.safe_orElse.mp (Ending.safe_bind.mp h).1).1
          · intro h
            have hcolon' : startsWith rest [':'] = true := by simpa using hcolon
            have hne : 1 ≤ rest.length := by
              cases rest with
              | nil => cases hcolon'
              | cons c rest => exact Nat.le_add_left 1 _
            have hends := parseIpV6_ends (by omega) ((parseIpV6_safe (by omega)).mp (h hcolon'))
            refine Ending.Ends.safe (P := fun _ => True) (Q := fun _ => True) ?_
            refine (ends_orElse hends fun e he => ?_).bind (P := fun ip => _) fun ip _ => ?_
            · exact (shiftParseError_ends he (by omega) (by omega)).mono
                (fun _ h => h) fun _ _ => trivial
            refine ends_substring (by omega) (by unfold size; omega) (Int.le_refl _) ?_
            have hport : ((rest.take (size rest).toNat).drop (1 : Int).toNat).length
                ≤ rest.length := by
              rw [take_size_drop, List.length_drop]
              omega
            refine ends_i64 (by omega) (by omega) ?_
            exact ((parseDecimal_ends (by omega) (by omega) (by omega) (by omega)).mono
              (fun _ _ => trivial) fun _ _ => trivial).bind (P := fun _ => True) fun _ _ => trivial
      rw [htail _ (length_le_byteSize _)]
      unfold size
      constructor
      · rintro ⟨_, ⟨_, hcut, _⟩, hinside⟩
        exact ⟨by omega, hinside⟩
      · rintro ⟨hcut, hinside⟩
        exact ⟨⟨by omega, by omega, by omega⟩, ⟨by omega, by omega, Int.le_refl _⟩, hinside⟩
  · exact parseIpv4SocketAddr_safe hbytes

end stdlib.net
