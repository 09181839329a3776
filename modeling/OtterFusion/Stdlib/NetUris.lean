-- The parsers of URIs and URLs panic exactly when the offset of a delimiter, in bytes, leaves no
-- room in the characters of the text it is searched in.
import OtterFusion.Stdlib.NetAddresses

open base.trapping

namespace stdlib.net

/-! ## Conditions -/

/-- The cuts of `parse_uri` behind the scheme are inside the text: the fragment, the query and the
path behind an authority. -/
def UriRestFits (rest : Text) : Prop :=
  Within 1 ['#'] rest ∧ Within 1 ['?'] (before ['#'] rest) ∧
    (startsWith (before ['?'] (before ['#'] rest)) ['/', '/'] = true →
      Within 0 ['/'] ((before ['?'] (before ['#'] rest)).drop 2))

/-- The cuts of `parse_uri` are inside the text. -/
def UriFits (text : Text) : Prop :=
  offset [':'] text = some 0 ∨ Within 1 [':'] text ∧ UriRestFits (after [':'] text)

/-- A pair of a query with a key. -/
def Keyed (pair : Text) : Prop :=
  offset ['='] pair ≠ none ∧ offset ['='] pair ≠ some 0

/-- The cuts at the pairs of a query are inside them, up to the first pair without a key. -/
def PairsFit : List Text → Prop
  | [] => True
  | pair :: pairs => Within 1 ['='] pair ∧ (Keyed pair → PairsFit pairs)

/-- Every pair of a query has a key. -/
def QueryOk (query : Text) : Prop := query = [] ∨ ∀ pair ∈ split query '&', Keyed pair

/-- The host and the port of an authority. -/
def hostPart (authority : Text) : Text :=
  if offset ['@'] authority = none then authority else after ['@'] authority

/-- The cuts at the host are inside the text. -/
def HostFits (hostPort : Text) : Prop :=
  if startsWith hostPort ['['] then Within 0 [']'] hostPort ∧ Ipv6Fits (bracketed hostPort)
  else Within 1 [':'] hostPort

/-- The cuts at the path, the user and the host are inside the text. -/
def AuthorityFits (rest : Text) : Prop :=
  Within 0 ['/'] rest ∧ Within 1 ['@'] (before ['/'] rest) ∧ HostFits (hostPart (before ['/'] rest))

/-- The cuts of `parse_url` behind the scheme are inside the text: those at the authority count only
when the query is accepted. -/
def UrlRestFits (rest : Text) : Prop :=
  Within 1 ['#'] rest ∧ (Within 1 ['?'] (before ['#'] rest) ∧
    PairsFit (split (after ['?'] (before ['#'] rest)) '&')) ∧
    (QueryOk (after ['?'] (before ['#'] rest)) →
      AuthorityFits (before ['?'] (before ['#'] rest)))

/-- The cuts of `parse_url` are inside the text. -/
def UrlFits (text : Text) : Prop :=
  offset [':', '/', '/'] text = some 0 ∨
    Within 3 [':', '/', '/'] text ∧ UrlRestFits (after [':', '/', '/'] text)

instance (rest : Text) : Decidable (UriRestFits rest) := inferInstanceAs (Decidable (_ ∧ _ ∧ _))

instance (text : Text) : Decidable (UriFits text) := inferInstanceAs (Decidable (_ ∨ _))

instance (pair : Text) : Decidable (Keyed pair) := inferInstanceAs (Decidable (_ ∧ _))

instance decidablePairsFit : (pairs : List Text) → Decidable (PairsFit pairs)
  | [] => inferInstanceAs (Decidable True)
  | pair :: pairs =>
    have := decidablePairsFit pairs
    inferInstanceAs (Decidable (Within 1 ['='] pair ∧ (Keyed pair → PairsFit pairs)))

instance (query : Text) : Decidable (QueryOk query) := inferInstanceAs (Decidable (_ ∨ _))

instance (hostPort : Text) : Decidable (HostFits hostPort) := by
  unfold HostFits
  infer_instance

instance (rest : Text) : Decidable (AuthorityFits rest) := inferInstanceAs (Decidable (_ ∧ _ ∧ _))

instance (rest : Text) : Decidable (UrlRestFits rest) := inferInstanceAs (Decidable (_ ∧ _ ∧ _))

instance (text : Text) : Decidable (UrlFits text) := inferInstanceAs (Decidable (_ ∨ _))

/-! ## Cuts -/

variable {text : Text} {A : Type}

/-- The cut at a delimiter, when there is room. -/
theorem cutTail_value {d : Char} (hbytes : (byteSize text : Int) + 16 < 2 ^ 63)
    (h : Within 1 [d] text) : cutTail text [d] =
      .value (before [d] text, (offset [d] text).map fun _ => after [d] text) := by
  have hlen := length_le_byteSize text
  unfold cutTail before after
  unfold Within at h
  rw [indexOf_eq]
  cases hcut : offset [d] text with
  | none => rfl
  | some i =>
    rw [hcut] at h
    dsimp only at h
    dsimp only [Option.map_some]
    rw [i64_bind (by omega), substring_tail (i := i + 1) (by omega) h, Ending.value_bind,
      substring_head rfl (by omega)]
    rfl

theorem cutTail_fits {d : Char} (hbytes : (byteSize text : Int) + 16 < 2 ^ 63)
    (h : (cutTail text [d]).Safe) : Within 1 [d] text := by
  have hlen := length_le_byteSize text
  unfold cutTail at h
  unfold Within
  rw [indexOf_eq] at h
  split
  · trivial
  · rename_i i hcut
    have hrest := offset_bytes hcut
    rw [List.length_singleton] at hrest
    rw [hcut] at h
    dsimp only [Option.map_some] at h
    rw [safe_i64 (by omega) (by omega), safe_substring] at h
    unfold size at h
    omega

/-- A cut at a delimiter, and the rest of a parser. -/
theorem cutTail_safe {d : Char} {f : Text × Option Text → Parse A}
    (hbytes : (byteSize text : Int) + 16 < 2 ^ 63) :
    (cutTail text [d] >>= f).Safe ↔ Within 1 [d] text ∧
      (f (before [d] text, (offset [d] text).map fun _ => after [d] text)).Safe := by
  refine Ending.safe_stage ⟨cutTail_fits hbytes, fun h => ?_⟩ (fun h a ha => ?_) fun h e he => ?_
  · rw [cutTail_value hbytes h]
    exact Ending.safe_value _
  · rw [cutTail_value hbytes h] at ha
    cases ha
    exact Iff.rfl
  · rw [cutTail_value hbytes h] at he
    cases he

/-- The cut at a path, when it is inside the text, loses nothing. -/
theorem cutPath_value (h : Within 0 ['/'] text) : ∃ path,
    cutPath text = .value (before ['/'] text, path) ∧ before ['/'] text ++ path = text := by
  unfold cutPath before
  unfold Within at h
  rw [indexOf_eq]
  cases hcut : offset ['/'] text with
  | none => exact ⟨[], rfl, List.append_nil text⟩
  | some i =>
    rw [hcut] at h
    dsimp only at h
    dsimp only [Option.map_some]
    rw [substring_head rfl (by omega), Ending.value_bind, substring_tail rfl (by omega)]
    exact ⟨_, rfl, List.take_append_drop i text⟩

theorem cutPath_fits (h : (cutPath text).Safe) : Within 0 ['/'] text := by
  unfold cutPath at h
  unfold Within
  rw [indexOf_eq] at h
  split
  · trivial
  · rename_i i hcut
    rw [hcut] at h
    dsimp only [Option.map_some] at h
    rw [safe_substring] at h
    unfold size at h
    omega

/-- A cut at a path, and the rest of a parser. -/
theorem cutPath_safe {f : Text × Text → Parse A} {D : Prop}
    (hf : ∀ path, (f (before ['/'] text, path)).Safe ↔ D) :
    (cutPath text >>= f).Safe ↔ Within 0 ['/'] text ∧ D := by
  refine Ending.safe_stage ⟨cutPath_fits, fun h => ?_⟩ (fun h a ha => ?_) fun h e he => ?_
  · obtain ⟨path, hvalue, _⟩ := cutPath_value h
    rw [hvalue]
    exact Ending.safe_value _
  · obtain ⟨path, hvalue, _⟩ := cutPath_value h
    rw [hvalue] at ha
    cases ha
    exact hf path
  · obtain ⟨path, hvalue, _⟩ := cutPath_value h
    rw [hvalue] at he
    cases he

/-- The cut at a user, when there is room. -/
theorem cutUser_value (hbytes : (byteSize text : Int) + 16 < 2 ^ 63) (h : Within 1 ['@'] text) :
    ∃ user, cutUser text = .value (user, hostPart text) := by
  have hlen := length_le_byteSize text
  unfold cutUser hostPart after
  unfold Within at h
  rw [indexOf_eq]
  cases hcut : offset ['@'] text with
  | none => exact ⟨none, rfl⟩
  | some i =>
    rw [hcut] at h
    dsimp only at h
    dsimp only [Option.map_some]
    rw [substring_head rfl (by omega), Ending.value_bind, i64_bind (by omega),
      substring_tail (i := i + 1) (by omega) h]
    exact ⟨_, rfl⟩

theorem cutUser_fits (hbytes : (byteSize text : Int) + 16 < 2 ^ 63) (h : (cutUser text).Safe) :
    Within 1 ['@'] text := by
  have hlen := length_le_byteSize text
  unfold cutUser at h
  unfold Within
  rw [indexOf_eq] at h
  split
  · trivial
  · rename_i i hcut
    have hrest := offset_bytes hcut
    rw [List.length_singleton] at hrest
    rw [hcut] at h
    dsimp only [Option.map_some] at h
    rw [safe_substring, safe_i64 (by omega) (by omega), Ending.safe_bind, substring_safe] at h
    unfold size at h
    omega

/-! ## URIs -/

/-- The authority of a URI needs its path inside the text. -/
theorem parseUriPath_safe {split : Int} (hlo : 0 ≤ split) (hhi : split + 3 < 2 ^ 63) :
    (parseUriPath text split).Safe ↔
      (startsWith text ['/', '/'] = true → Within 0 ['/'] (text.drop 2)) := by
  unfold parseUriPath
  split
  · rename_i hslashes
    have htwo : 2 ≤ text.length := by
      match text, hslashes with
      | _ :: _ :: rest, _ => exact Nat.le_add_left 2 rest.length
      | [_], h => simp [startsWith, List.isPrefixOf] at h
    rw [safe_substring, take_size_drop, cutPath_safe (D := True)]
    · unfold size
      constructor
      · rintro ⟨_, h, _⟩ _
        exact h
      · intro h
        exact ⟨⟨by omega, by omega, Int.le_refl _⟩, h hslashes, trivial⟩
    · intro path
      refine iff_true_intro ?_
      dsimp only
      split
      · rw [safe_i64 (by omega) (by omega)]
        exact Ending.safe_error _
      · exact Ending.safe_value _
  · rename_i hslashes
    constructor
    · intro _ h
      exact absurd h hslashes
    · intro _
      exact Ending.safe_value _

/-- `parse_uri` panics exactly when a cut is outside the text. -/
theorem parseUri_safe (hbytes : (byteSize text : Int) + 16 < 2 ^ 63) :
    (parseUri text).Safe ↔ UriFits text := by
  have hlen := length_le_byteSize text
  unfold parseUri UriFits Within after
  rw [indexOf_eq]
  cases hsplit : offset [':'] text with
  | none =>
    constructor
    · intro _
      exact .inr ⟨trivial, trivial, trivial, fun h => by cases h⟩
    · intro _
      exact Ending.safe_error _
  | some i =>
    have hrest := offset_bytes hsplit
    rw [List.length_singleton] at hrest
    dsimp only [Option.map_some]
    split
    · rename_i hzero
      constructor
      · intro _
        exact .inl (congrArg some (by omega))
      · intro _
        exact Ending.safe_error _
    rename_i hpos
    have hne : ¬some i = some 0 := fun h => hpos (by cases h; rfl)
    have hbefore := byteSize_before_le (text.drop (i + 1)) ['#']
    rw [safe_substring, safe_i64 (by omega) (by omega), safe_substring, take_size_drop,
      show ((i : Int) + 1).toNat = i + 1 by omega, List.length_singleton,
      cutTail_safe (by omega)]
    dsimp only
    rw [cutTail_safe (by omega)]
    dsimp only
    rw [Ending.safe_bind, parseUriPath_safe (by omega) (by omega), or_iff_right hne]
    unfold UriRestFits size
    constructor
    · rintro ⟨_, ⟨_, hcut, _⟩, hfragment, hquery, hpath, _⟩
      exact ⟨by omega, hfragment, hquery, hpath⟩
    · rintro ⟨hcut, hfragment, hquery, hpath⟩
      exact ⟨⟨by omega, by omega, by omega⟩, ⟨by omega, by omega, Int.le_refl _⟩, hfragment, hquery,
        hpath, fun _ _ => Ending.safe_value _⟩

/-! ## Queries -/

/-- A pair with room for its sign either has a key, or ends the query with an error. -/
theorem queryTurn_ends (query : Query) {at_ : Int} {pair : Text} (hat : 0 ≤ at_)
    (hbytes : at_ + byteSize pair + 8 < 2 ^ 63) (h : Within 1 ['='] pair) :
    (queryTurn (query, at_) pair).Ends
      (fun s => Keyed pair ∧ s.2 = at_ + pair.length + 1) (fun _ => ¬Keyed pair) := by
  have hlen := length_le_byteSize pair
  unfold queryTurn Keyed size
  unfold Within at h
  dsimp only
  rw [indexOf_eq]
  cases hsign : offset ['='] pair with
  | none =>
    dsimp only [Option.map_none]
    exact ends_i64 (by omega) (by omega) fun h => h.1 rfl
  | some i =>
    rw [hsign] at h
    dsimp only at h
    dsimp only [Option.map_some]
    rw [substring_head rfl (by omega), Ending.value_bind]
    split
    · rename_i hkey
      have hzero : i = 0 := by
        have := congrArg List.length hkey
        rw [List.length_take, List.length_nil] at this
        omega
      subst hzero
      exact fun h => h.2 rfl
    · rename_i hkey
      refine ends_i64 (by omega) (by omega) ?_
      refine ends_substring (by omega) (by omega) (Int.le_refl _) ?_
      refine ends_i64 (by omega) (by omega) ?_
      refine ends_i64 (by omega) (by omega) ?_
      refine ⟨⟨nofun, fun h => ?_⟩, rfl⟩
      cases h
      exact hkey rfl

theorem queryTurn_fits {query : Query} {at_ : Int} {pair : Text}
    (hbytes : (byteSize pair : Int) + 16 < 2 ^ 63) (h : (queryTurn (query, at_) pair).Safe) :
    Within 1 ['='] pair := by
  have hlen := length_le_byteSize pair
  unfold queryTurn at h
  unfold Within
  dsimp only at h
  rw [indexOf_eq] at h
  split
  · trivial
  · rename_i i hsign
    have hrest := offset_bytes hsign
    rw [List.length_singleton] at hrest
    rw [hsign] at h
    dsimp only [Option.map_some] at h
    rw [safe_substring] at h
    obtain ⟨⟨_, _, hcut⟩, h⟩ := h
    rw [Int.toNat_natCast, Int.toNat_zero, List.drop_zero] at h
    unfold size at hcut
    split at h
    · rename_i hkey
      obtain ⟨k, rest, hpair, hki, hi, hcount⟩ := offset_spec hsign
      have hzero := congrArg List.length hkey
      rw [List.length_take, List.length_nil] at hzero
      rw [List.length_singleton] at hcount
      omega
    · rw [safe_i64 (by omega) (by omega), safe_substring] at h
      unfold size at h
      omega

/-- The pairs of a query, each of which has a separator after it. -/
theorem pairs_safe : ∀ (pairs : List Text) (query : Query) {at_ : Int}, 0 ≤ at_ →
    at_ + ((pairs.map fun p => byteSize p + 1).sum : Nat) + 16 < 2 ^ 63 →
    ((pairs.foldlM queryTurn (query, at_)).Safe ↔ PairsFit pairs) ∧
      (PairsFit pairs → (pairs.foldlM queryTurn (query, at_)).Ends
        (fun _ => ∀ pair ∈ pairs, Keyed pair) (fun _ => ¬∀ pair ∈ pairs, Keyed pair))
  | [], _, _, _, _ => ⟨⟨fun _ => trivial, fun _ => Ending.safe_value _⟩,
      fun _ => List.forall_mem_nil _⟩
  | pair :: pairs, query, at_, hat, hbytes => by
    have hlen := length_le_byteSize pair
    rw [List.map_cons, List.sum_cons] at hbytes
    rw [List.foldlM_cons]
    have hturn : (queryTurn (query, at_) pair).Safe ↔ Within 1 ['='] pair :=
      ⟨queryTurn_fits (by omega), fun h => (queryTurn_ends query hat (by omega) h).safe⟩
    have hnext : ∀ s, Within 1 ['='] pair → queryTurn (query, at_) pair = .value s →
        Keyed pair ∧ ((pairs.foldlM queryTurn s).Safe ↔ PairsFit pairs) ∧
          (PairsFit pairs → (pairs.foldlM queryTurn s).Ends
            (fun _ => ∀ pair ∈ pairs, Keyed pair) (fun _ => ¬∀ pair ∈ pairs, Keyed pair)) := by
      rintro ⟨query', at'⟩ hcut hs
      obtain ⟨hkey, hat'⟩ := (queryTurn_ends query hat (by omega) hcut).of_value hs
      dsimp only at hat'
      exact ⟨hkey, pairs_safe pairs query' (by omega) (by omega)⟩
    constructor
    · refine Ending.safe_stage (D := Keyed pair → PairsFit pairs) hturn (fun hcut s hs => ?_)
        fun hcut e he hkey => ?_
      · obtain ⟨hkey, hsafe, _⟩ := hnext s hcut hs
        rw [hsafe]
        constructor
        · intro h _
          exact h
        · intro h
          exact h hkey
      · exact absurd hkey ((queryTurn_ends query hat (by omega) hcut).of_error he)
    · rintro ⟨hcut, hpairs⟩
      have hends := queryTurn_ends query hat (by omega) hcut
      cases hs : queryTurn (query, at_) pair with
      | value s =>
        obtain ⟨hkey, _, hrest⟩ := hnext s hcut hs
        rw [Ending.value_bind]
        refine (hrest (hpairs hkey)).mono (fun _ h => ?_) fun _ h hall => ?_
        · exact List.forall_mem_cons.mpr ⟨hkey, h⟩
        · exact h fun p hp => hall p (List.mem_cons_of_mem pair hp)
      | error e =>
        exact fun hall => hends.of_error hs (hall pair List.mem_cons_self)
      | trap t => exact absurd hs (hends.safe t)

theorem pairsFit_split_nil : PairsFit (split [] '&') := ⟨trivial, fun h => absurd rfl h.1⟩

/-- The query of a URL panics exactly when the cut at a pair is outside it, and is accepted exactly
when each pair has a key. -/
theorem parseQuery_safe (text : Text) {position : Int} (hpos : 0 ≤ position)
    (hbytes : position + byteSize text + 24 < 2 ^ 63) :
    ((parseQuery text position).Safe ↔ PairsFit (split text '&')) ∧
      (PairsFit (split text '&') →
        (parseQuery text position).Ends (fun _ => QueryOk text) (fun _ => ¬QueryOk text)) := by
  unfold parseQuery QueryOk
  split
  · rename_i hempty
    have hnil : text = [] := List.eq_nil_of_length_eq_zero (by unfold size at hempty; omega)
    subst hnil
    exact ⟨⟨fun _ => pairsFit_split_nil, fun _ => Ending.safe_value _⟩, fun _ => .inl rfl⟩
  rename_i hne
  have hsplit := split_bytes text '&' rfl
  obtain ⟨hsafe, hends⟩ := pairs_safe (split text '&') [] hpos (by omega)
  constructor
  · rw [← hsafe, Ending.safe_bind]
    constructor
    · intro h
      exact h.1
    · intro h
      exact ⟨h, fun _ _ => Ending.safe_value _⟩
  · intro hfit
    refine ((hends hfit).mono (fun _ h => h) fun _ h hok => ?_).bind fun _ h => .inr h
    rcases hok with hnil | hok
    · subst hnil
      exact hne rfl
    · exact h hok

/-- The query and the text before it. -/
theorem cutQuery_safe (text : Text) {start : Int} (hstart : 0 ≤ start)
    (hbytes : start + byteSize text + 24 < 2 ^ 63) :
    ((cutQuery text start).Safe ↔
      Within 1 ['?'] text ∧ PairsFit (split (after ['?'] text) '&')) ∧
      (Within 1 ['?'] text ∧ PairsFit (split (after ['?'] text) '&') →
        (cutQuery text start).Ends
          (fun r => QueryOk (after ['?'] text) ∧ r.2 = before ['?'] text)
          (fun _ => ¬QueryOk (after ['?'] text))) := by
  have hlen := length_le_byteSize text
  unfold cutQuery Within after before
  rw [indexOf_eq]
  cases hcut : offset ['?'] text with
  | none =>
    dsimp only [Option.map_none]
    exact ⟨⟨fun _ => ⟨trivial, pairsFit_split_nil⟩, fun _ => Ending.safe_value _⟩,
      fun _ => ⟨.inl rfl, rfl⟩⟩
  | some i =>
    have hrest := offset_bytes hcut
    rw [List.length_singleton] at hrest
    dsimp only [Option.map_some]
    rw [List.length_singleton]
    obtain ⟨hsafe, hends⟩ := parseQuery_safe (text.drop (i + 1))
      (show 0 ≤ start + i + 1 by omega) (by omega)
    constructor
    · rw [safe_i64 (by omega) (by omega), safe_substring, safe_i64 (by omega) (by omega),
        safe_i64 (by omega) (by omega), take_size_drop, show ((i : Int) + 1).toNat = i + 1 by omega]
      unfold size
      constructor
      · rintro ⟨⟨_, hroom, _⟩, h⟩
        exact ⟨by omega, hsafe.mp (Ending.safe_bind.mp h).1⟩
      · rintro ⟨hroom, hpairs⟩
        refine ⟨⟨by omega, by omega, Int.le_refl _⟩, ?_⟩
        rw [Ending.safe_bind]
        refine ⟨hsafe.mpr hpairs, fun query _ => ?_⟩
        rw [substring_head rfl (by omega)]
        exact Ending.safe_value _
    · rintro ⟨hroom, hpairs⟩
      rw [i64_bind (by omega), substring_tail (i := i + 1) (by omega) hroom, Ending.value_bind,
        i64_bind (by omega), i64_bind (by omega)]
      refine (hends hpairs).bind fun query hok => ?_
      rw [substring_head rfl (by omega), Ending.value_bind]
      exact ⟨hok, rfl⟩

/-! ## Hosts -/

/-- The turns of `render_hex_group` that are left at a divisor. -/
def turnsLeft (divisor : Int) : Nat :=
  if divisor = 4096 then 4 else if divisor = 256 then 3 else if divisor = 16 then 2
  else if divisor = 1 then 1 else 0

theorem renderHexGroup_safe {group : Int} (h : Group group) : (renderHexGroup group).Safe := by
  unfold renderHexGroup
  split
  · exact Ending.safe_value _
  refine Ending.Ends.safe (P := fun _ => True) (Q := fun _ => True) ?_
  refine Ending.loop_ends
    (I := fun s : Text × Int × Int × Bool => Group s.2.1 ∧ (s.2.2.1 = 4096 ∨ s.2.2.1 = 256 ∨
      s.2.2.1 = 16 ∨ s.2.2.1 = 1 ∨ s.2.2.1 = 0))
    (m := fun s : Text × Int × Int × Bool => turnsLeft s.2.2.1) ?_ ⟨h, .inl rfl⟩
    (show turnsLeft 4096 < 5 by decide)
  rintro ⟨out, value, divisor, started⟩ ⟨⟨hlo, hhi⟩, hdivisor⟩
  dsimp only at hlo hhi hdivisor
  unfold renderTurn
  dsimp only
  split
  · rename_i hpos
    have hquotient := Int.tdiv_nonneg hlo (show 0 ≤ divisor by omega)
    have hproduct := Int.mul_tdiv_add_tmod value divisor
    have hnext : divisor.tdiv 16 = 256 ∧ divisor = 4096 ∨ divisor.tdiv 16 = 16 ∧ divisor = 256 ∨
        divisor.tdiv 16 = 1 ∧ divisor = 16 ∨ divisor.tdiv 16 = 0 ∧ divisor = 1 := by
      rcases hdivisor with rfl | rfl | rfl | rfl | rfl
      · exact .inl ⟨rfl, rfl⟩
      · exact .inr (.inl ⟨rfl, rfl⟩)
      · exact .inr (.inr (.inl ⟨rfl, rfl⟩))
      · exact .inr (.inr (.inr ⟨rfl, rfl⟩))
      · omega
    have hle : value.tdiv divisor ≤ value := by
      rw [Int.tdiv_eq_ediv_of_nonneg hlo]
      exact Int.ediv_le_self divisor hlo
    unfold div
    rw [if_neg (by omega)]
    refine ends_i64 (by omega) (by omega) ?_
    refine ends_rem hlo (by omega) hpos fun hrem hrem' => ?_
    rw [if_neg (by omega)]
    refine ends_i64 (by omega) (by omega) ?_
    refine ⟨⟨⟨hrem, by dsimp only; omega⟩, by dsimp only; omega⟩, ?_⟩
    dsimp only
    rcases hnext with ⟨h, rfl⟩ | ⟨h, rfl⟩ | ⟨h, rfl⟩ | ⟨h, rfl⟩
    · rw [h]
      decide
    · rw [h]
      decide
    · rw [h]
      decide
    · rw [h]
      decide
  · trivial

theorem render_safe {ip : IpAddr} (h : Grouped ip) : ip.render.Safe := by
  obtain ⟨ha, hb, hc, hd, he, hf, hg, hh⟩ := h
  unfold IpAddr.render
  split
  · exact Ending.safe_value _
  refine Ending.safe_bind.mpr ⟨renderHexGroup_safe ha, fun _ _ => ?_⟩
  refine Ending.safe_bind.mpr ⟨renderHexGroup_safe hb, fun _ _ => ?_⟩
  refine Ending.safe_bind.mpr ⟨renderHexGroup_safe hc, fun _ _ => ?_⟩
  refine Ending.safe_bind.mpr ⟨renderHexGroup_safe hd, fun _ _ => ?_⟩
  refine Ending.safe_bind.mpr ⟨renderHexGroup_safe he, fun _ _ => ?_⟩
  refine Ending.safe_bind.mpr ⟨renderHexGroup_safe hf, fun _ _ => ?_⟩
  refine Ending.safe_bind.mpr ⟨renderHexGroup_safe hg, fun _ _ => ?_⟩
  refine Ending.safe_bind.mpr ⟨renderHexGroup_safe hh, fun _ _ => ?_⟩
  split
  · exact Ending.safe_value _
  · exact Ending.safe_value _

/-- When the host in brackets is an address, the characters before the closing bracket are ASCII,
and the cut behind the bracket is inside the text. -/
theorem bracket_room {i : Nat} (hstart : startsWith text ['['] = true)
    (hstop : offset [']'] text = some i) (hascii : Ascii (bracketed text)) :
    i + 1 ≤ text.length := by
  unfold bracketed at hascii
  rw [hstop] at hascii
  dsimp only at hascii
  have hpos := offset_pos hstart (by decide) hstop
  have htake : Ascii (text.take i) := by
    match text, hstart, i, hpos with
    | c :: rest, hstart, i + 1, _ =>
      have hc : '[' = c := by
        unfold startsWith at hstart
        simpa [List.isPrefixOf] using hstart
      subst hc
      rw [List.take_succ_cons] at hascii ⊢
      exact List.forall_mem_cons.mpr ⟨rfl, hascii⟩
  obtain ⟨_, _, hroom, _⟩ := offset_of_ascii hstop htake
  exact hroom

/-- A host in brackets panics exactly when a cut is outside it. -/
theorem parseBracketHost_safe {at_ : Int} (hat : 0 ≤ at_)
    (hbytes : at_ + byteSize text + 20 < 2 ^ 63) (hstart : startsWith text ['['] = true) :
    (parseBracketHost text at_).Safe ↔ Within 0 [']'] text ∧ Ipv6Fits (bracketed text) := by
  have hlen := length_le_byteSize text
  have hinner := byteSize_bracketed_le text
  have hroom := fun i => bracket_room (i := i) hstart
  unfold parseBracketHost Within
  unfold bracketed at hinner hroom ⊢
  rw [indexOf_eq]
  cases hstop : offset [']'] text with
  | none =>
    constructor
    · intro _
      refine ⟨trivial, ?_⟩
      show Ipv6Fits []
      decide
    · intro _
      unfold size
      dsimp only [Option.map_none]
      rw [safe_i64 (by omega) (by omega)]
      exact Ending.safe_error _
  | some i =>
    have hpos := offset_pos hstart (by decide) hstop
    have hrest := offset_bytes hstop
    have hroom := hroom i hstop
    rw [hstop] at hinner hroom
    rw [List.length_singleton] at hrest
    dsimp only [Option.map_some] at hinner hroom ⊢
    rw [safe_substring, Int.toNat_natCast, show (1 : Int).toNat = 1 by rfl]
    refine and_congr (by unfold size; omega) ?_
    rw [← parseIpV6_safe (by omega)]
    constructor
    · intro h
      exact (Ending.safe_orElse.mp (Ending.safe_bind.mp h).1).1
    · intro h
      have hends := parseIpV6_ends (by omega) ((parseIpV6_safe (by omega)).mp h)
      refine Ending.Ends.safe (P := fun _ => True) (Q := fun _ => True) ?_
      refine (ends_orElse hends fun e he => ?_).bind (P := fun ip => _) fun ip hip => ?_
      · refine ends_i64 (by omega) (by omega) ?_
        exact (shiftParseError_ends he (by omega) (by omega)).mono
          (fun _ h => h) fun _ _ => trivial
      have hroom := hroom hip.2
      refine Ending.Ends.bind (P := fun _ => True)
        (Ending.ends_of_safe (render_safe hip.1.2) (fun _ _ => trivial) fun _ _ => trivial)
        fun out _ => ?_
      refine ends_i64 (by omega) (by omega) ?_
      rw [substring_tail (i := i + 1) (by omega) hroom, Ending.value_bind]
      have hport := length_le_byteSize (text.drop (i + 1))
      split
      · rename_i hne
        have hne' : 1 ≤ (text.drop (i + 1)).length := by
          rcases Nat.eq_zero_or_pos (text.drop (i + 1)).length with hzero | hpos
          · exact absurd (List.eq_nil_of_length_eq_zero hzero) hne
          · exact hpos
        split
        · refine ends_i64 (by omega) (by omega) ?_
          exact ends_i64 (by omega) (by omega) trivial
        · rw [substring_tail (a := 1) (i := 1) rfl hne',
            Ending.value_bind]
          have hdrop : ((text.drop (i + 1)).drop 1).length ≤ (text.drop (i + 1)).length := by
            rw [List.length_drop]
            omega
          refine ends_i64 (by omega) (by omega) ?_
          refine ends_i64 (by omega) (by omega) ?_
          exact ((parseDecimal_ends (by omega) (by omega) (by omega) (by omega)).mono
            (fun _ _ => trivial) fun _ _ => trivial).bind (P := fun _ => True) fun _ _ => trivial
      · trivial

/-- A host without brackets panics exactly when the cut at its port is outside it. -/
theorem parsePlainHost_safe {at_ : Int} (hat : 0 ≤ at_)
    (hbytes : at_ + byteSize text + 20 < 2 ^ 63) :
    (parsePlainHost text at_).Safe ↔ Within 1 [':'] text := by
  have hlen := length_le_byteSize text
  unfold parsePlainHost Within
  rw [indexOf_eq]
  cases hcolon : offset [':'] text with
  | none => exact ⟨fun _ => trivial, fun _ => Ending.safe_value _⟩
  | some i =>
    have hrest := offset_bytes hcolon
    rw [List.length_singleton] at hrest
    dsimp only [Option.map_some]
    rw [safe_substring, safe_i64 (by omega) (by omega), safe_substring, take_size_drop,
      show ((i : Int) + 1).toNat = i + 1 by omega, safe_i64 (by omega) (by omega),
      safe_i64 (by omega) (by omega)]
    unfold size
    have hport := length_le_byteSize (text.drop (i + 1))
    constructor
    · rintro ⟨_, ⟨_, hroom, _⟩, _⟩
      omega
    · intro hroom
      refine ⟨⟨by omega, by omega, by omega⟩, ⟨by omega, by omega, Int.le_refl _⟩, ?_⟩
      refine Ending.Ends.safe (P := fun _ => True) (Q := fun _ => True) ?_
      exact ((parseDecimal_ends (by omega) (by omega) (by omega) (by omega)).mono
        (fun _ _ => trivial) fun _ _ => trivial).bind (P := fun _ => True) fun _ _ => trivial

theorem parseHost_safe {at_ : Int} (hat : 0 ≤ at_) (hbytes : at_ + byteSize text + 20 < 2 ^ 63) :
    (parseHost text at_).Safe ↔ HostFits text := by
  unfold parseHost HostFits
  split
  · rename_i hstart
    exact parseBracketHost_safe hat hbytes hstart
  · exact parsePlainHost_safe hat hbytes

/-! ## URLs -/

/-- The characters before the host count at least once among the bytes. -/
theorem hostPart_bytes (h : Within 1 ['@'] text) :
    (text.length : Int) - (hostPart text).length + byteSize (hostPart text) ≤ byteSize text ∧
      (hostPart text).length ≤ text.length := by
  have hlen := length_le_byteSize text
  unfold hostPart after
  unfold Within at h
  cases hcut : offset ['@'] text with
  | none =>
    rw [if_pos rfl]
    exact ⟨by omega, Nat.le_refl _⟩
  | some i =>
    have hrest := offset_bytes hcut
    rw [hcut] at h
    rw [List.length_singleton] at hrest
    dsimp only at h
    rw [if_neg nofun]
    dsimp only
    rw [List.length_singleton, List.length_drop]
    exact ⟨by omega, by omega⟩

/-- `parse_url` panics exactly when a cut is outside the text. -/
theorem parseUrl_safe (hbytes : (byteSize text : Int) + 24 < 2 ^ 63) :
    (parseUrl text).Safe ↔ UrlFits text := by
  have hlen := length_le_byteSize text
  unfold parseUrl UrlFits Within after
  rw [indexOf_eq]
  cases hsplit : offset [':', '/', '/'] text with
  | none =>
    constructor
    · intro _
      refine .inr ⟨trivial, ?_⟩
      show UrlRestFits []
      decide
    · intro _
      exact Ending.safe_error _
  | some i =>
    have hrest := offset_bytes hsplit
    change i + 3 + byteSize (text.drop (i + 3)) ≤ byteSize text at hrest
    dsimp only [Option.map_some]
    split
    · rename_i hzero
      constructor
      · intro _
        exact .inl (congrArg some (by omega))
      · intro _
        exact Ending.safe_error _
    rename_i hpos
    have hne : ¬some i = some 0 := fun h => hpos (by cases h; rfl)
    have hfragment := byteSize_before_le (text.drop (i + 3)) ['#']
    obtain ⟨hquery, hqueryEnds⟩ := cutQuery_safe (before ['#'] (text.drop (i + 3)))
      (show 0 ≤ (i : Int) + 3 by omega) (by omega)
    have hrest' := byteSize_before_le (before ['#'] (text.drop (i + 3))) ['?']
    rw [safe_substring, safe_i64 (by omega) (by omega), safe_substring, take_size_drop,
      show ((i : Int) + 3).toNat = i + 3 by omega, safe_i64 (by omega) (by omega),
      cutTail_safe (by omega), or_iff_right hne]
    unfold UrlRestFits
    show _ ↔ i + 3 ≤ text.length ∧ _
    generalize before ['?'] (before ['#'] (text.drop (i + 3))) = rest at *
    generalize before ['#'] (text.drop (i + 3)) = whole at *
    have hscheme : (0 ≤ (0 : Int) ∧ 0 ≤ (i : Int) ∧ (i : Int) ≤ size text) ∧
        (0 ≤ (i : Int) + 3 ∧ (i : Int) + 3 ≤ size text ∧ size text ≤ size text) ↔
        i + 3 ≤ text.length := by
      unfold size
      omega
    rw [← and_assoc, hscheme]
    refine and_congr_right fun _ => and_congr_right fun _ => ?_
    dsimp only
    refine Ending.safe_stage hquery (fun hcut r hr => ?_)
      fun hcut e he hok => absurd hok ((hqueryEnds hcut).of_error he)
    obtain ⟨hok, hr2⟩ := (hqueryEnds hcut).of_value hr
    obtain ⟨query, r2⟩ := r
    dsimp only at hr2 ⊢
    subst hr2
    rw [show (QueryOk (after ['?'] whole) → AuthorityFits r2) ↔ AuthorityFits r2 from
      ⟨fun h => h hok, fun h _ => h⟩]
    refine cutPath_safe fun path => ?_
    have hauthority := byteSize_before_le r2 ['/']
    dsimp only
    split
    · rename_i hempty
      rw [hempty]
      exact ⟨fun _ => by decide, fun _ => Ending.safe_error _⟩
    generalize before ['/'] r2 = authority at hauthority
    refine Ending.safe_stage ⟨cutUser_fits (by omega), fun h => ?_⟩ (fun h a ha => ?_)
      fun h e he => ?_
    · obtain ⟨user, hvalue⟩ := cutUser_value (by omega) h
      rw [hvalue]
      exact Ending.safe_value _
    · obtain ⟨user, hvalue⟩ := cutUser_value (by omega) h
      rw [hvalue] at ha
      cases ha
      have hauthorityLen := length_le_byteSize authority
      obtain ⟨hhost, hhostLen⟩ := hostPart_bytes h
      dsimp only
      unfold size
      rw [safe_i64 (by omega) (by omega), safe_i64 (by omega) (by omega), Ending.safe_bind,
        parseHost_safe (by omega) (by omega)]
      constructor
      · intro hsafe
        exact hsafe.1
      · intro hfits
        refine ⟨hfits, fun r _ => ?_⟩
        split
        · exact Ending.safe_error _
        · exact Ending.safe_value _
    · obtain ⟨user, hvalue⟩ := cutUser_value (by omega) h
      rw [hvalue] at he
      cases he

end stdlib.net
