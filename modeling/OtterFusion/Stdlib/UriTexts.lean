-- The text of a URI (`std/net_types.otter`): `Uri.render` gives the parsed text back exactly when
-- each cut of `parse_uri` is at its delimiter.
import OtterFusion.Stdlib.NetUris

open base.trapping

namespace stdlib.net

/-! ## Rendering -/

/-- A part behind its mark, when it is there. -/
def marked (mark : Text) : Option Text → Text
  | some part => mark ++ part
  | none => []

/-- `Uri.render`. -/
def Uri.render (uri : Uri) : Text :=
  uri.scheme ++ [':'] ++ marked ['/', '/'] uri.authority ++ uri.path ++ marked ['?'] uri.query ++
    marked ['#'] uri.fragment

/-! ## Cuts at delimiters -/

variable {text : Text}

/-- The first `d` is at the character where the text is cut. -/
def CutsAt (d : Char) (s : Text) : Prop := ∀ i, offset [d] s = some i → s[i]? = some d

/-- The cuts of `parse_uri` are at the delimiters. -/
def UriCuts (t : Text) : Prop :=
  CutsAt ':' t ∧ CutsAt '#' (after [':'] t) ∧ CutsAt '?' (before ['#'] (after [':'] t))

/-- A cut loses the character at its offset. -/
theorem take_append_iff {s left right : Text} {d : Char} {i : Nat} (hi : i < s.length)
    (hleft : left.length = i) (hright : right.length = s.length - (i + 1)) :
    left ++ d :: right = s ↔ s[i]? = some d ∧ left = s.take i ∧ right = s.drop (i + 1) := by
  have hparts : s.take i ++ s[i] :: s.drop (i + 1) = s := by
    rw [← List.drop_eq_getElem_cons hi, List.take_append_drop]
  rw [List.getElem?_eq_getElem hi, Option.some_inj]
  constructor
  · intro h
    rw [← hparts] at h
    obtain ⟨h1, h2⟩ := List.append_inj h (by rw [List.length_take]; omega)
    obtain ⟨h3, h4⟩ := List.cons_eq_cons.mp h2
    exact ⟨h3.symm, h1, h4⟩
  · rintro ⟨h, rfl, rfl⟩
    rw [← h]
    exact hparts

/-- What is cut off the end is put back when the cut is at the delimiter. -/
theorem marked_iff {left : Text} {d : Char} (h : Within 1 [d] text)
    (hleft : left.length = (before [d] text).length) :
    left ++ marked [d] ((offset [d] text).map fun _ => after [d] text) = text ↔
      CutsAt d text ∧ left = before [d] text := by
  unfold Within at h
  unfold before at hleft ⊢
  unfold CutsAt after
  cases hcut : offset [d] text with
  | none =>
    dsimp only [Option.map_none, marked]
    rw [List.append_nil]
    exact ⟨fun h => ⟨fun _ h => (Option.some_ne_none _ h.symm).elim, h⟩, fun h => h.2⟩
  | some i =>
    rw [hcut] at h hleft
    dsimp only at h hleft
    rw [List.length_take] at hleft
    dsimp only [Option.map_some, marked]
    rw [List.singleton_append, List.length_singleton, take_append_iff (i := i) (by omega) (by omega)
      (by rw [List.length_drop])]
    constructor
    · rintro ⟨hd, htake, _⟩
      refine ⟨fun j hj => ?_, htake⟩
      cases hj
      exact hd
    · rintro ⟨hd, htake⟩
      exact ⟨hd i rfl, htake, rfl⟩

/-! ## URIs -/

/-- The authority and the path are the rest. -/
theorem parseUriPath_parts {split : Int} {authority : Option Text} {path : Text}
    (h : parseUriPath text split = .value (authority, path)) :
    marked ['/', '/'] authority ++ path = text := by
  unfold parseUriPath at h
  split at h
  · rename_i hslashes
    obtain ⟨behind, rfl⟩ : ∃ behind, text = '/' :: '/' :: behind := by
      obtain ⟨behind, hbehind⟩ := List.isPrefixOf_iff_prefix.mp hslashes
      exact ⟨behind, hbehind.symm⟩
    have hcut : (substring ('/' :: '/' :: behind) 2 (size ('/' :: '/' :: behind)) : Parse Text) =
        .value behind := substring_tail (i := 2) rfl (by simp)
    rw [hcut, Ending.value_bind] at h
    obtain ⟨⟨authority', path'⟩, hpath, h⟩ := Ending.value_of_bind.mp h
    dsimp only at h
    split at h
    · exact absurd h parseError_ne
    cases h
    have hfits := @cutPath_fits behind (by rw [hpath]; exact Ending.safe_value _)
    obtain ⟨path'', hpath', hjoin⟩ := cutPath_value hfits
    rw [hpath] at hpath'
    cases hpath'
    show '/' :: '/' :: (before ['/'] behind ++ path) = _
    rw [hjoin]
  · cases h
    rfl

/-- What `parse_uri` gives behind the scheme. -/
structure UriRest (rest : Text) (uri : Uri) : Prop where
  hash : Within 1 ['#'] rest
  question : Within 1 ['?'] (before ['#'] rest)
  fragment : uri.fragment = (offset ['#'] rest).map fun _ => after ['#'] rest
  query : uri.query = (offset ['?'] (before ['#'] rest)).map fun _ =>
    after ['?'] (before ['#'] rest)
  path : marked ['/', '/'] uri.authority ++ uri.path = before ['?'] (before ['#'] rest)

theorem parseUri_parts {uri : Uri} (hbytes : (byteSize text : Int) + 16 < 2 ^ 63)
    (h : parseUri text = .value uri) :
    ∃ i, offset [':'] text = some i ∧ i < text.length ∧ uri.scheme = text.take i ∧
      UriRest (text.drop (i + 1)) uri := by
  have hlen := length_le_byteSize text
  have hfits := (parseUri_safe hbytes).mp (by rw [h]; exact Ending.safe_value _)
  unfold parseUri at h
  unfold UriFits Within after at hfits
  rw [indexOf_eq] at h
  cases hsplit : offset [':'] text with
  | none =>
    rw [hsplit] at h
    cases h
  | some i =>
    have hrest := offset_bytes hsplit
    rw [hsplit] at h hfits
    rw [List.length_singleton] at hrest hfits
    dsimp only [Option.map_some] at h hfits
    split at h
    · cases h
    rename_i hpos
    obtain ⟨hroom, hhash, hquestion, _⟩ : i + 1 ≤ text.length ∧
      UriRestFits (text.drop (i + 1)) := by
      rcases hfits with hzero | hfits
      · exact absurd (congrArg Int.ofNat (Option.some.inj hzero)) hpos
      · exact hfits
    have hbefore := byteSize_before_le (text.drop (i + 1)) ['#']
    rw [substring_head rfl (by omega), Ending.value_bind, i64_bind (by omega),
      substring_tail (i := i + 1) (by omega) hroom, Ending.value_bind,
      cutTail_value (by omega) hhash, Ending.value_bind] at h
    dsimp only at h
    rw [cutTail_value (by omega) hquestion, Ending.value_bind] at h
    dsimp only at h
    obtain ⟨⟨authority, path⟩, hpath, h⟩ := Ending.value_of_bind.mp h
    cases h
    exact ⟨i, rfl, hroom, rfl, hhash, hquestion, rfl, rfl, parseUriPath_parts hpath⟩

theorem marked_length {s : Text} {d : Char} (h : Within 1 [d] s) :
    (before [d] s ++ marked [d] ((offset [d] s).map fun _ => after [d] s)).length = s.length := by
  unfold Within at h
  unfold before after
  cases hcut : offset [d] s with
  | none => simp [marked]
  | some i =>
    rw [hcut] at h
    dsimp only at h
    dsimp only [Option.map_some, marked]
    rw [List.length_append, List.length_append, List.length_take, List.length_drop,
      List.length_singleton, Nat.min_eq_left (by omega)]
    omega

/-- The text of a parsed URI is the text it is parsed from if and only if the cuts are at the
delimiters. -/
theorem uri_render_iff {uri : Uri} (hbytes : (byteSize text : Int) + 16 < 2 ^ 63)
    (h : parseUri text = .value uri) : uri.render = text ↔ UriCuts text := by
  obtain ⟨i, hsplit, hroom, hscheme, hrest⟩ := parseUri_parts hbytes h
  have hcut : CutsAt ':' text ↔ text[i]? = some ':' := by
    constructor
    · intro h
      exact h i hsplit
    · intro h j hj
      rw [hsplit] at hj
      cases hj
      exact h
  have hafter : after [':'] text = text.drop (i + 1) := by
    unfold after
    rw [hsplit]
    rfl
  have hrender : uri.render = text.take i ++
      ':' :: (before ['?'] (before ['#'] (text.drop (i + 1))) ++
      marked ['?'] uri.query ++ marked ['#'] uri.fragment) := by
    rw [← hrest.path, ← hscheme]
    unfold Uri.render
    simp only [List.append_assoc, List.nil_append, List.cons_append]
  have hinner := marked_length hrest.question
  have houter := marked_length hrest.hash
  rw [← hrest.query] at hinner
  rw [← hrest.fragment, List.length_append] at houter
  unfold UriCuts
  rw [hrender, take_append_iff hroom (by rw [List.length_take]; omega)
    (by rw [List.length_append, hinner, houter, List.length_drop]), hcut, hafter, hrest.fragment,
    marked_iff hrest.hash hinner, hrest.query, marked_iff hrest.question rfl]
  constructor
  · rintro ⟨h1, _, h2, h3, _⟩
    exact ⟨h1, h2, h3⟩
  · rintro ⟨h1, h2, h3⟩
    exact ⟨h1, rfl, h2, h3, rfl⟩

end stdlib.net
