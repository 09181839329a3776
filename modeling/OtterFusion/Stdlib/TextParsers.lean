-- When the parsers of the standard library panic. Three of them never do; four use the offset of a
-- delimiter, in bytes, for a cut in characters, and panic when it leaves no room. On ASCII texts
-- all seven are safe.
import OtterFusion.Stdlib.NetUris
import OtterFusion.Stdlib.TimeParses

open base.trapping

namespace stdlib.net

/-! ## ASCII -/

variable {s : Text}

theorem ascii_bracketed (h : Ascii s) : Ascii (bracketed s) := by
  unfold bracketed
  split
  · exact List.forall_mem_nil _
  · exact (h.take _).drop 1

theorem ipv6Fits_of_ascii (h : Ascii s) : Ipv6Fits s :=
  ⟨within_of_ascii h (Nat.le_refl 1), fun _ => within_of_ascii (h.before _) (Nat.le_refl 2)⟩

theorem socketFits_of_ascii (h : Ascii s) : SocketFits s := by
  unfold SocketFits
  split
  · exact ⟨within_of_ascii h (Nat.le_refl 1), fun _ => ipv6Fits_of_ascii (ascii_bracketed h)⟩
  · exact within_of_ascii h (Nat.le_refl 1)

theorem uriFits_of_ascii (h : Ascii s) : UriFits s := by
  have hrest := h.after [':']
  refine .inr ⟨within_of_ascii h (Nat.le_refl 1), within_of_ascii hrest (Nat.le_refl 1),
    within_of_ascii (hrest.before _) (Nat.le_refl 1), fun _ => ?_⟩
  exact within_of_ascii (((hrest.before _).before _).drop 2) (Nat.zero_le 1)

theorem pairsFit_of_ascii {pairs : List Text} (h : ∀ pair ∈ pairs, Ascii pair) :
    PairsFit pairs := by
  induction pairs with
  | nil => trivial
  | cons pair pairs ih =>
    obtain ⟨hpair, hpairs⟩ := List.forall_mem_cons.mp h
    exact ⟨within_of_ascii hpair (Nat.le_refl 1), fun _ => ih hpairs⟩

theorem urlFits_of_ascii (h : Ascii s) : UrlFits s := by
  have hrest := h.after [':', '/', '/']
  have hquery := hrest.before ['#']
  have hauthority := (hquery.before ['?']).before ['/']
  have hhost : Ascii (hostPart (before ['/'] (before ['?'] (before ['#']
      (after [':', '/', '/'] s))))) := by
    unfold hostPart
    split
    · exact hauthority
    · exact hauthority.after _
  refine .inr ⟨within_of_ascii h (Nat.le_refl 3), within_of_ascii hrest (Nat.le_refl 1),
    ⟨within_of_ascii hquery (Nat.le_refl 1), pairsFit_of_ascii (ascii_split (hquery.after _) _)⟩,
    fun _ => ⟨within_of_ascii (hquery.before _) (Nat.zero_le 1),
      within_of_ascii hauthority (Nat.le_refl 1), ?_⟩⟩
  unfold HostFits
  split
  · exact ⟨within_of_ascii hhost (Nat.zero_le 1), ipv6Fits_of_ascii (ascii_bracketed hhost)⟩
  · exact within_of_ascii hhost (Nat.le_refl 1)

/-- The cuts of the four parsers are inside an ASCII text. -/
theorem fits_of_ascii (h : Ascii s) : Ipv6Fits s ∧ SocketFits s ∧ UriFits s ∧ UrlFits s :=
  ⟨ipv6Fits_of_ascii h, socketFits_of_ascii h, uriFits_of_ascii h, urlFits_of_ascii h⟩

/-! ## Panics -/

/-- `parse_ip_v4`, `percent_decode_component` and `DateTime.parse_iso8601` never panic. The other
parsers panic exactly when a cut at the offset of a delimiter is outside the text. -/
theorem textParsers_safe (s : Str) :
    (parseIpV4 s.text).Safe ∧ (percentDecodeComponent s.text).Safe ∧
      (time.parseIso8601 s.text).Safe ∧
      ((parseIpV6 s.text).Safe ↔ Ipv6Fits s.text) ∧
      ((parseSocketAddr s.text).Safe ↔ SocketFits s.text) ∧
      ((parseUri s.text).Safe ↔ UriFits s.text) ∧
      ((parseUrl s.text).Safe ↔ UrlFits s.text) := by
  have hfits := s.fits
  have hlen := length_le_byteSize s.text
  refine ⟨(parseIpV4_ends (by omega)).safe, percentDecodeComponent_safe s, time.parseIso8601_safe s,
    parseIpV6_safe (by omega), parseSocketAddr_safe (by omega), parseUri_safe (by omega),
    parseUrl_safe (by omega)⟩

/-- `é:` is two characters and three bytes, and its colon is at byte 2: the rest of the URI is cut
from 3 to 2. -/
theorem parseUri_traps : ∃ s : Str, s.text = ['é', ':'] ∧
    parseUri s.text = .trap (.substring 3 2 2) :=
  ⟨⟨['é', ':'], by decide⟩, rfl, by decide +kernel⟩

/-- On an ASCII text no parser panics. -/
theorem ascii_texts_are_safe (s : Str) (h : Ascii s.text) :
    (parseIpV6 s.text).Safe ∧ (parseSocketAddr s.text).Safe ∧ (parseUri s.text).Safe ∧
      (parseUrl s.text).Safe := by
  have hfits := s.fits
  have hlen := length_le_byteSize s.text
  obtain ⟨hip, hsocket, huri, hurl⟩ := fits_of_ascii h
  exact ⟨(parseIpV6_safe (by omega)).mpr hip, (parseSocketAddr_safe (by omega)).mpr hsocket,
    (parseUri_safe (by omega)).mpr huri, (parseUrl_safe (by omega)).mpr hurl⟩

theorem a_scheme_is_safe : (parseUri "a:/".toList).Safe :=
  (ascii_texts_are_safe ⟨"a:/".toList, by decide⟩ (by decide)).2.2.1

end stdlib.net
