-- The text of a URL (`std/net_types.otter`): when the text before each delimiter is ASCII, the
-- parsed URL has a text that is parsed back to an equal URL.
import OtterFusion.Stdlib.AddressExact
import OtterFusion.Stdlib.UriTexts

open base.trapping

namespace stdlib.net

/-! ## Rendering and equality -/

/-- `Map.get`. -/
def Query.get (query : Query) (key : Text) : Option Text := query.lookup key

/-- A turn of the loop in `query_string`. -/
def queryStringTurn (s : Text × Bool) (entry : Text × Text) : Text × Bool :=
  let (out, first) := s
  let out := if first then out else out ++ ['&']
  (out ++ entry.1 ++ ['='] ++ entry.2, false)

/-- `Url.query_string`, over the entries in the order of the map. -/
def queryString (entries : Query) : Text := (entries.foldl queryStringTurn ([], true)).1

/-- A user before its `@`. -/
def userText : Option Text → Text
  | some user => user ++ ['@']
  | none => []

/-- A port behind its colon. -/
def portText : Option Int → Text
  | some port => [':'] ++ decimal port
  | none => []

/-- `Url.render`. A map gives its entries in the order of its slots: they are those of `query`, in
some order. -/
def Url.render (url : Url) (entries : Query) : Text :=
  url.scheme ++ [':', '/', '/'] ++ userText url.user ++ url.host ++ portText url.port ++ url.path ++
    (if entries.isEmpty then [] else ['?'] ++ queryString entries) ++ marked ['#'] url.fragment

/-- `__net_str_option_eq` and `__net_u16_option_eq`. -/
def optionEq {A : Type} [DecidableEq A] (left right : Option A) : Bool :=
  match left with
  | some l =>
    match right with
    | some r => decide (l = r)
    | none => false
  | none => right.isNone

/-- `__net_str_option_eq`. -/
def strOptionEq (left right : Option Text) : Bool := optionEq left right

/-- `__net_u16_option_eq`. -/
def u16OptionEq (left right : Option Int) : Bool := optionEq left right

/-- A turn of the loop in `Url.eq`. -/
def sameTurn (other : Query) (same : Bool) (entry : Text × Text) : Bool :=
  if same then
    match other.get entry.1 with
    | some otherValue => decide (entry.2 = otherValue)
    | none => false
  else same

/-- `Url.eq`. -/
def Url.eq (url other : Url) : Bool :=
  if decide (url.scheme ≠ other.scheme) || !strOptionEq url.user other.user ||
      decide (url.host ≠ other.host) || !u16OptionEq url.port other.port ||
      decide (url.path ≠ other.path) || !strOptionEq url.fragment other.fragment ||
      decide (url.query.length ≠ other.query.length) then false
  else url.query.foldl (sameTurn other.query) true

theorem optionEq_self {A : Type} [DecidableEq A] (x : Option A) : optionEq x x = true := by
  cases x <;> simp [optionEq]

/-! ## Cuts -/

/-- What is before the first `needle` is ASCII, so that the bytes before it are the characters. -/
def AsciiUpTo (needle s : Text) : Prop :=
  match offset needle s with
  | none => True
  | some i => Ascii (s.take i)

instance (needle s : Text) : Decidable (AsciiUpTo needle s) :=
  decidable_of_iff ((offset needle s).all fun i => (s.take i).all fun c => c.utf8Size == 1) (by
    unfold AsciiUpTo Ascii
    cases offset needle s <;> simp)

/-- The cuts at the path, the user and the port are at the delimiters. -/
def AuthorityCuts (rest : Text) : Prop :=
  AsciiUpTo ['/'] rest ∧ AsciiUpTo ['@'] (before ['/'] rest) ∧
    AsciiUpTo [':'] (hostPart (before ['/'] rest))

/-- The cuts of `parse_url` are at the delimiters. -/
def UrlCuts (t : Text) : Prop :=
  let rest := after [':', '/', '/'] t
  AsciiUpTo [':', '/', '/'] t ∧ AsciiUpTo ['#'] rest ∧ AsciiUpTo ['?'] (before ['#'] rest) ∧
    (∀ pair ∈ split (after ['?'] (before ['#'] rest)) '&', AsciiUpTo ['='] pair) ∧
    AuthorityCuts (before ['?'] (before ['#'] rest))

instance (rest : Text) : Decidable (AuthorityCuts rest) := inferInstanceAs (Decidable (_ ∧ _ ∧ _))

instance (t : Text) : Decidable (UrlCuts t) :=
  @instDecidableAnd
    _ _ inferInstance (@instDecidableAnd _ _ inferInstance (@instDecidableAnd _ _ inferInstance
    (@instDecidableAnd _ _ (List.decidableBAll _ _) inferInstance)))

variable {s left right : Text} {d : Char}

theorem cut_none (h : d ∉ s) : offset [d] s = none ∧ before [d] s = s ∧ after [d] s = [] := by
  have hoffset : offset [d] s = none := by
    unfold offset
    rw [place_char_none.mpr h]
    rfl
  refine ⟨hoffset, ?_, ?_⟩
  · unfold before
    rw [hoffset]
  · unfold after
    rw [hoffset]

theorem cut_some (hleft : Ascii left) (hd : d ∉ left) :
    offset [d] (left ++ d :: right) = some left.length ∧ before [d] (left ++ d :: right) = left ∧
      after [d] (left ++ d :: right) = right := by
  have hoffset : offset [d] (left ++ d :: right) = some left.length := by
    unfold offset
    rw [place_char_iff.mpr ⟨left, right, rfl, hd, rfl⟩, Option.map_some, List.take_left,
      hleft.byteSize]
  refine ⟨hoffset, ?_, ?_⟩
  · unfold before
    rw [hoffset]
    exact List.take_left
  · unfold after
    rw [hoffset]
    show (left ++ d :: right).drop (left.length + 1) = right
    simp

/-- A delimiter that is not there, or one behind ASCII. -/
theorem AsciiUpTo.cases (h : AsciiUpTo [d] s) :
    d ∉ s ∨ ∃ left right, s = left ++ d :: right ∧ d ∉ left ∧ Ascii left := by
  cases hoffset : offset [d] s with
  | none =>
    unfold offset at hoffset
    exact .inl (place_char_none.mp (Option.map_eq_none_iff.mp hoffset))
  | some i =>
    have hascii : Ascii (s.take i) := by
      unfold AsciiUpTo at h
      rwa [hoffset] at h
    obtain ⟨left, right, rfl, hleft, rfl⟩ := place_char_iff.mp (place_of_offset hoffset hascii)
    rw [List.take_left] at hascii
    exact .inr ⟨left, right, rfl, hleft, hascii⟩

/-! ## Queries -/

/-- The text of an entry. -/
def entryText (entry : Text × Text) : Text := entry.1 ++ '=' :: entry.2

/-- A key and a value that can be read back. -/
structure Entry (entry : Text × Text) : Prop where
  key : entry.1 ≠ []
  ascii : Ascii entry.1
  sign : '=' ∉ entry.1
  single : '&' ∉ entryText entry

/-- Entries with one value for each key. -/
structure Entries (entries : Query) : Prop where
  entry : ∀ entry ∈ entries, Entry entry
  keys : (entries.map Prod.fst).Nodup

theorem queryString_eq (entries : Query) :
    queryString entries = ['&'].intercalate (entries.map entryText) := by
  have hturns : ∀ (entries : Query) (out : Text), (entries.foldl queryStringTurn (out, false)).1 =
      out ++ (entries.map fun entry => '&' :: entryText entry).flatten := by
    intro entries
    induction entries with
    | nil => simp
    | cons entry entries ih =>
      intro out
      rw [List.foldl_cons, queryStringTurn, ih]
      simp [entryText]
  cases entries with
  | nil => rfl
  | cons entry entries =>
    unfold queryString
    rw [List.foldl_cons, queryStringTurn, hturns]
    induction entries generalizing entry with
    | nil => simp [entryText]
    | cons next entries ih =>
      have hnext := ih next
      rw [List.map_cons] at hnext
      rw [List.map_cons, List.map_cons, List.map_cons, List.intercalate_cons_cons, ← hnext]
      simp [entryText]

/-- A new key is set at the end. -/
theorem Query.set_new {query : Query} {key value : Text} (h : key ∉ query.map Prod.fst) :
    query.set key value = query ++ [(key, value)] := by
  unfold Query.set
  rw [List.filter_eq_self.mpr]
  intro entry hentry
  have hne : entry.1 ≠ key := fun h' => h (h' ▸ List.mem_map_of_mem hentry)
  exact decide_eq_true hne

/-- Setting the entries of a map one after another. -/
theorem foldl_set {entries : Query} (query : Query)
    (h : ((query ++ entries).map Prod.fst).Nodup) :
    entries.foldl (fun out entry => out.set entry.1 entry.2) query = query ++ entries := by
  induction entries generalizing query with
  | nil => simp
  | cons entry entries ih =>
    have hnew : entry.1 ∉ query.map Prod.fst := by
      rw [List.map_append, List.nodup_append] at h
      intro hmem
      exact h.2.2 _ hmem _ (List.mem_cons_self ..) rfl
    rw [List.foldl_cons, Query.set_new hnew, ih _ (by simpa using h)]
    simp

theorem cloneQuery_eq {query : Query} (h : (query.map Prod.fst).Nodup) : cloneQuery query =
    query := by
  unfold cloneQuery
  rw [foldl_set [] (by simpa using h)]
  rfl

theorem mem_set {query : Query} {key value : Text} {entry : Text × Text}
    (h : entry ∈ query.set key value) : entry ∈ query ∨ entry = (key, value) := by
  rcases List.mem_append.mp h with h | h
  · exact .inl (List.mem_of_mem_filter h)
  · exact .inr (List.mem_singleton.mp h)

theorem set_nodup {query : Query} {key value : Text} (h : (query.map Prod.fst).Nodup) :
    ((query.set key value).map Prod.fst).Nodup := by
  unfold Query.set
  rw [List.map_append, List.nodup_append]
  refine ⟨h.sublist ((List.filter_sublist).map _), by simp, ?_⟩
  intro k hk k' hk'
  obtain ⟨entry, hentry, rfl⟩ := List.mem_map.mp hk
  have hne := of_decide_eq_true (List.mem_filter.mp hentry).2
  rw [List.map_singleton, List.mem_singleton] at hk'
  rw [hk']
  exact hne

theorem indexOf_cut (hleft : Ascii left) (hd : d ∉ left) :
    indexOf (left ++ d :: right) [d] = some (left.length : Int) := by
  rw [indexOf_eq, (cut_some hleft hd).1]
  rfl

theorem indexOf_none (h : d ∉ s) : indexOf s [d] = none := by
  rw [indexOf_eq, (cut_none h).1]
  rfl

/-- A pair that is accepted has a key, and its value is set. -/
theorem queryTurn_value {query : Query} {at_ : Int} {pair : Text} {r : Query × Int}
    (hcut : AsciiUpTo ['='] pair) (h : queryTurn (query, at_) pair = .value r) :
    ∃ key value, pair = key ++ '=' :: value ∧ key ≠ [] ∧ Ascii key ∧ '=' ∉ key ∧
      r.1 = query.set key value := by
  unfold queryTurn at h
  rcases hcut.cases with hnone | ⟨key, value, rfl, hsign, hascii⟩
  · rw [indexOf_none hnone] at h
    exact absurd h parseError_ne
  · rw [indexOf_cut hascii hsign] at h
    dsimp only at h
    rw [substring_before, Ending.value_bind] at h
    split at h
    · cases h
    rename_i hne
    obtain ⟨n, hn, h⟩ := Ending.value_of_bind.mp h
    rw [(i64_iff.mp hn).1, substring_behind, Ending.value_bind] at h
    obtain ⟨_, _, h⟩ := Ending.value_of_bind.mp h
    obtain ⟨_, _, h⟩ := Ending.value_of_bind.mp h
    cases h
    exact ⟨key, value, rfl, hne, hascii, hsign, rfl⟩

theorem queryTurn_entry {query : Query} {at_ : Int} {entry : Text × Text} (h : Entry entry)
    (hat : 0 ≤ at_) (hfits : at_ + (entryText entry).length + 8 < 2 ^ 63) :
    queryTurn (query, at_) (entryText entry) =
      .value (query.set entry.1 entry.2, at_ + (entryText entry).length + 1) := by
  have hlen : (entryText entry).length = entry.1.length + 1 + entry.2.length := by
    unfold entryText
    rw [List.length_append, List.length_cons]
    omega
  unfold queryTurn size
  unfold entryText at hlen hfits ⊢
  dsimp only
  rw [indexOf_cut h.ascii h.sign]
  dsimp only
  rw [substring_before, Ending.value_bind, if_neg h.key, i64_bind (by omega)]
  show (substring (entry.1 ++ '=' :: entry.2) (entry.1.length + 1)
      (size (entry.1 ++ '=' :: entry.2)) >>=
    _) = _
  rw [substring_behind, Ending.value_bind, i64_bind (by omega), i64_bind (by omega)]

/-- The pairs that are read: each entry is one of them. -/
theorem queryTurns_value {pairs : List Text} {query : Query} {at_ : Int} {r : Query × Int}
    (hcuts : ∀ pair ∈ pairs, AsciiUpTo ['='] pair) (hsingle : ∀ pair ∈ pairs, '&' ∉ pair)
    (hquery : Entries query) (h : pairs.foldlM queryTurn (query, at_) = .value r) :
    Entries r.1 ∧ ∀ entry ∈ r.1, entry ∈ query ∨ entryText entry ∈ pairs := by
  induction pairs generalizing query at_ with
  | nil =>
    cases h
    exact ⟨hquery, fun entry hentry => .inl hentry⟩
  | cons pair pairs ih =>
    rw [List.foldlM_cons] at h
    obtain ⟨⟨next, at'⟩, hturn, h⟩ := Ending.value_of_bind.mp h
    obtain ⟨hcut, hrest⟩ := List.forall_mem_cons.mp hcuts
    obtain ⟨hpair, hpairs⟩ := List.forall_mem_cons.mp hsingle
    obtain ⟨key, value, rfl, hne, hascii, hsign, hnext⟩ := queryTurn_value hcut hturn
    dsimp only at hnext
    subst hnext
    have hset : Entries (query.set key value) := by
      refine ⟨fun entry hentry => ?_, set_nodup hquery.keys⟩
      rcases mem_set hentry with hold | rfl
      · exact hquery.entry entry hold
      · exact ⟨hne, hascii, hsign, hpair⟩
    obtain ⟨hall, hmem⟩ := ih hrest hpairs hset h
    refine ⟨hall, fun entry hentry => ?_⟩
    rcases hmem entry hentry with hold | hnew
    · rcases mem_set hold with hold | rfl
      · exact .inl hold
      · exact .inr List.mem_cons_self
    · exact .inr (List.mem_cons_of_mem _ hnew)

theorem queryTurns_entries {entries : Query} {query : Query} {at_ : Int}
    (h : ∀ entry ∈ entries, Entry entry) (hat : 0 ≤ at_)
    (hfits : at_ + (((entries.map entryText).map fun p => p.length + 1).sum : Nat) + 8 < 2 ^ 63) :
    ∃ at', (entries.map entryText).foldlM queryTurn (query, at_) =
      .value (entries.foldl (fun out entry => out.set entry.1 entry.2) query, at') := by
  induction entries generalizing query at_ with
  | nil => exact ⟨at_, rfl⟩
  | cons entry entries ih =>
    obtain ⟨hentry, hrest⟩ := List.forall_mem_cons.mp h
    rw [List.map_cons, List.map_cons, List.sum_cons] at hfits
    obtain ⟨at', hnext⟩ := @ih (query.set entry.1 entry.2)
      (at_ + (entryText entry).length + 1) hrest (by omega) (by omega)
    refine ⟨at', ?_⟩
    rw [List.map_cons, List.foldlM_cons, queryTurn_entry hentry hat (by omega), Ending.value_bind]
    exact hnext

/-- `__net_parse_query`: each entry is one of the pairs. -/
theorem parseQuery_value {query : Query} {at_ : Int}
    (hcuts : ∀ pair ∈ split s '&', AsciiUpTo ['='] pair)
    (h : parseQuery s at_ = .value query) :
    Entries query ∧ ∀ entry ∈ query, entryText entry ∈ split s '&' := by
  have hempty : Entries [] := ⟨List.forall_mem_nil _, List.nodup_nil⟩
  unfold parseQuery at h
  split at h
  · cases h
    exact ⟨hempty, List.forall_mem_nil _⟩
  · obtain ⟨⟨query', at'⟩, hfold, h⟩ := Ending.value_of_bind.mp h
    cases h
    obtain ⟨hentries, hmem⟩ := queryTurns_value hcuts
      (fun pair hpair hand => (mem_of_mem_split hpair _ hand).2 rfl) hempty hfold
    refine ⟨hentries, fun entry hentry => ?_⟩
    exact (hmem entry hentry).resolve_left List.not_mem_nil

/-- A query that is printed is read back. -/
theorem parseQuery_entries {entries : Query} {at_ : Int} (h : Entries entries) (hne : entries ≠ [])
    (hat : 0 ≤ at_) (hfits : at_ + (queryString entries).length + 16 < 2 ^ 63) :
    parseQuery (queryString entries) at_ = .value entries := by
  have hsplit : split (queryString entries) '&' = entries.map entryText := by
    rw [queryString_eq]
    refine split_intercalate ?_ (by simpa using hne)
    intro part hpart
    obtain ⟨entry, hentry, rfl⟩ := List.mem_map.mp hpart
    exact (h.entry entry hentry).single
  have hsome : queryString entries ≠ [] := by
    intro hnil
    rw [hnil] at hsplit
    obtain ⟨entry, rest, rfl⟩ := List.exists_cons_of_ne_nil hne
    have hhead : entryText entry = [] := (List.cons_eq_cons.mp hsplit).1.symm
    simp [entryText] at hhead
  have htotal := split_total (queryString entries) '&'
  rw [hsplit] at htotal
  obtain ⟨at', hfold⟩ := @queryTurns_entries _ [] _ h.entry hat (by omega)
  unfold parseQuery size
  rw [if_neg (by have := List.length_pos_iff.mpr hsome; omega), hsplit, hfold, Ending.value_bind,
    foldl_set [] (by simpa using h.keys)]
  rfl

/-! ## Hosts -/

/-- A character of a host that is no delimiter of a URL. -/
def HostChar (c : Char) : Prop :=
  c.utf8Size = 1 ∧ c ≠ '/' ∧ c ≠ '?' ∧ c ≠ '#' ∧ c ≠ '@'

/-- A host: an address in brackets, or a text without a colon. -/
inductive HostText (port : Option Int) : Text → Prop
  | bracket {t : Text} {ip : IpAddr} (hrender : ip.render = .value t) (h : Denotes t ip) :
    HostText port ('[' :: t ++ [']'])
  | plain {host : Text} (hne : host ≠ []) (hbracket : startsWith host ['['] = false)
    (hcolon : ':' ∉ host) (hascii : port ≠ none → Ascii host) : HostText port host

/-- A port is a number of `u16`. -/
def PortRange (port : Option Int) : Prop := ∀ n, port = some n → 0 ≤ n ∧ n < 2 ^ 16

theorem Denotes.hostChar {t : Text} {ip : IpAddr} (h : Denotes t ip) : ∀ c ∈ t, HostChar c := by
  intro c hc
  refine ⟨h.ascii c hc, ?_, ?_, ?_, ?_⟩
  · rintro rfl
    exact h.not_mem rfl (by decide) (by decide) (by decide) (by decide) hc
  · rintro rfl
    exact h.not_mem rfl (by decide) (by decide) (by decide) (by decide) hc
  · rintro rfl
    exact h.not_mem rfl (by decide) (by decide) (by decide) (by decide) hc
  · rintro rfl
    exact h.not_mem rfl (by decide) (by decide) (by decide) (by decide) hc

theorem portText_hostChar {port : Option Int} (h : PortRange port) : ∀ c ∈ portText port,
    HostChar c := by
  cases port with
  | none => exact List.forall_mem_nil _
  | some n =>
    refine List.forall_mem_cons.mpr ⟨⟨rfl, by decide, by decide, by decide, by decide⟩,
      fun c hc => ?_⟩
    have hdigits := decimal_digits (h n rfl).1 c hc
    refine ⟨ascii_decimal (h n rfl).1 c hc, ?_, ?_, ?_, ?_⟩
    all_goals
      rintro rfl
      exact absurd hdigits (by decide)

/-- The address that is parsed has a text. -/
theorem parseIpV6_render {ip : IpAddr} (hbytes : (byteSize s : Int) + 24 < 2 ^ 63)
    (h : parseIpV6 s = .value ip) : ∃ t, ip.render = .value t ∧ Denotes t ip := by
  have hlen := length_le_byteSize s
  have hsmall : (byteSize s : Int) + 16 < 2 ^ 63 := by omega
  have hfits := (parseIpV6_safe hsmall).mp (by rw [h]; exact Ending.safe_value _)
  obtain ⟨⟨hversion, hgroups⟩, hascii⟩ := (parseIpV6_ends hsmall hfits).of_value h
  obtain ⟨_, _, _, hzone, _⟩ := (parseIpV6_iff hascii (by omega)).mp h
  refine render_v6 hversion ?_ hzone
  obtain ⟨ha, hb, hc, hd, he, hf, hg, hh⟩ := hgroups
  simp only [IpAddr.groups, List.mem_cons, List.not_mem_nil, or_false, forall_eq_or_imp, forall_eq]
  exact ⟨ha, hb, hc, hd, he, hf, hg, hh⟩

/-- What `parse_url` finds in the host and the port. -/
structure HostParts (hostPort host : Text) (port : Option Int) : Prop where
  text : host ≠ [] → HostText port host
  port : PortRange port
  chars : ∀ c ∈ host, c ∈ hostPort ∨ HostChar c

theorem decimalFold_range {t : Text} {at_ max : Int} {r q : Int × Int}
    (h : t.foldlM (decimalTurn at_ max) r = .value q) (hr : 0 ≤ r.1 ∧ r.1 ≤ max) :
    0 ≤ q.1 ∧ q.1 ≤ max := by
  induction t generalizing r with
  | nil =>
    cases h
    exact hr
  | cons c t ih =>
    obtain ⟨value, i⟩ := r
    rw [List.foldlM_cons, decimalTurn] at h
    obtain ⟨next, hturn, h⟩ := Ending.value_of_bind.mp h
    dsimp only at hr hturn
    split at hturn
    · exact absurd hturn parseError_ne
    obtain ⟨_, h1, hturn⟩ := Ending.value_of_bind.mp hturn
    obtain ⟨_, h2, hturn⟩ := Ending.value_of_bind.mp hturn
    obtain ⟨_, h3, hturn⟩ := Ending.value_of_bind.mp hturn
    rw [(i64_iff.mp h1).1, (i64_iff.mp h2).1] at h3
    split at hturn
    · exact absurd hturn parseError_ne
    obtain ⟨_, _, hturn⟩ := Ending.value_of_bind.mp hturn
    cases hturn
    have h3 := (i64_iff.mp h3).1
    exact ih h ⟨by dsimp only; omega, by dsimp only; omega⟩

theorem portRange_decimal {t : Text} {at_ n : Int} (h : parseDecimal t at_ 65535 = .value n) :
    PortRange (some (asUnsigned 16 n)) := by
  unfold parseDecimal at h
  split at h
  · cases h
  obtain ⟨⟨value, i⟩, hfold, h⟩ := Ending.value_of_bind.mp h
  cases h
  obtain ⟨hlo, hhi⟩ := decimalFold_range hfold ⟨by decide, by decide⟩
  intro m hm
  cases hm
  dsimp only at hlo hhi
  rw [asUnsigned_eq hlo (by omega)]
  omega

theorem parsePlainHost_value {at_ : Int} {host : Text} {port : Option Int}
    (hcut : AsciiUpTo [':'] s) (hbracket : startsWith s ['['] = false)
    (h : parsePlainHost s at_ = .value (host, port)) :
    HostParts s host port := by
  unfold parsePlainHost at h
  rcases hcut.cases with hnone | ⟨left, right, rfl, hcolon, hascii⟩
  · rw [indexOf_none hnone] at h
    cases h
    exact ⟨fun hne => .plain hne hbracket hnone fun hport => absurd rfl hport,
      (fun n hn => by cases hn), fun c hc => .inl hc⟩
  · rw [indexOf_cut hascii hcolon] at h
    dsimp only at h
    rw [substring_before, Ending.value_bind] at h
    obtain ⟨_, _, h⟩ := Ending.value_of_bind.mp h
    obtain ⟨_, _, h⟩ := Ending.value_of_bind.mp h
    obtain ⟨_, _, h⟩ := Ending.value_of_bind.mp h
    obtain ⟨_, _, h⟩ := Ending.value_of_bind.mp h
    obtain ⟨n, hn, h⟩ := Ending.value_of_bind.mp h
    cases h
    refine ⟨fun hne => .plain hne ?_ hcolon fun _ => hascii, portRange_decimal hn,
      fun c hc => .inl (List.mem_append_left _ hc)⟩
    cases host with
    | nil => rfl
    | cons c host => exact hbracket

theorem parseBracketHost_value {at_ : Int} {host : Text} {port : Option Int}
    (hbytes : (byteSize s : Int) + 24 < 2 ^ 63) (h : parseBracketHost s at_ = .value (host, port)) :
    HostParts s host port := by
  have hlen := length_le_byteSize s
  unfold parseBracketHost at h
  cases hstop : indexOf s [']'] with
  | none =>
    rw [hstop] at h
    exact absurd h parseError_ne
  | some stop =>
    rw [hstop] at h
    dsimp only at h
    obtain ⟨inner, hinner, h⟩ := Ending.value_of_bind.mp h
    obtain ⟨ip, hip, h⟩ := Ending.value_of_bind.mp h
    have hshift : ∀ e, (do
        shiftParseError e (← i64 (at_ + 1)) : Parse IpAddr) ≠ .value ip := by
      intro e he
      obtain ⟨_, _, he⟩ := Ending.value_of_bind.mp he
      exact absurd he shiftParseError_ne
    have hsmall : byteSize inner ≤ byteSize s := by
      unfold substring at hinner
      split at hinner
      · cases hinner
      · cases hinner
        exact Nat.le_trans (byteSize_drop_le _ _) (byteSize_take_le _ _)
    obtain ⟨t, ht, hdenotes⟩ := parseIpV6_render (by omega) ((Ending.value_of_orElse hshift).mp hip)
    rw [ht, Ending.value_bind] at h
    obtain ⟨_, _, h⟩ := Ending.value_of_bind.mp h
    obtain ⟨restHost, _, h⟩ := Ending.value_of_bind.mp h
    have hhost : ∀ c ∈ ['['] ++ t ++ [']'], HostChar c := by
      intro c hc
      rcases List.mem_append.mp hc with hc | hc
      · rcases List.mem_append.mp hc with hc | hc
        · rw [List.mem_singleton.mp hc]
          exact ⟨rfl, by decide, by decide, by decide, by decide⟩
        · exact hdenotes.hostChar c hc
      · rw [List.mem_singleton.mp hc]
        exact ⟨rfl, by decide, by decide, by decide, by decide⟩
    have hall : ∀ port, PortRange port → HostParts s (['['] ++ t ++ [']']) port :=
      fun port hport => ⟨fun _ => .bracket ht hdenotes, hport, fun c hc => .inr (hhost c hc)⟩
    split at h
    · split at h
      · obtain ⟨_, _, h⟩ := Ending.value_of_bind.mp h
        exact absurd h parseError_ne
      · obtain ⟨_, _, h⟩ := Ending.value_of_bind.mp h
        obtain ⟨_, _, h⟩ := Ending.value_of_bind.mp h
        obtain ⟨_, _, h⟩ := Ending.value_of_bind.mp h
        obtain ⟨n, hn, h⟩ := Ending.value_of_bind.mp h
        cases h
        exact hall _ (portRange_decimal hn)
    · cases h
      exact hall none fun n hn => by cases hn

theorem parseHost_value {at_ : Int} {host : Text} {port : Option Int}
    (hbytes : (byteSize s : Int) + 24 < 2 ^ 63) (hcut : AsciiUpTo [':'] s)
    (h : parseHost s at_ = .value (host, port)) : HostParts s host port := by
  unfold parseHost at h
  split at h
  · exact parseBracketHost_value hbytes h
  · rename_i hbracket
    exact parsePlainHost_value hcut (by simpa using hbracket) h

theorem parsePlainHost_text {at_ : Int} {host : Text} {port : Option Int} (hcolon : ':' ∉ host)
    (hascii : port ≠ none → Ascii host) (hport : PortRange port) (hat : 0 ≤ at_)
    (hfits : at_ + (host ++ portText port).length + 24 < 2 ^ 63) :
    parsePlainHost (host ++ portText port) at_ = .value (host, port) := by
  unfold parsePlainHost
  cases port with
  | none =>
    rw [portText, List.append_nil, indexOf_none hcolon]
  | some n =>
    rw [portText, List.singleton_append] at hfits ⊢
    rw [List.length_append, List.length_cons] at hfits
    rw [indexOf_cut (hascii (Option.some_ne_none n)) hcolon]
    dsimp only
    rw [substring_before, Ending.value_bind, i64_bind (by omega), substring_behind,
      Ending.value_bind, i64_bind (by omega), i64_bind (by omega),
      parseDecimal_port (hport n rfl) (by omega) (by omega), Ending.value_bind,
      asUnsigned_eq (hport n rfl).1 (hport n rfl).2]

theorem parseBracketHost_text {at_ : Int} {t : Text} {ip : IpAddr} {port : Option Int}
    (hrender : ip.render = .value t) (h : Denotes t ip) (hport : PortRange port) (hat : 0 ≤ at_)
    (hfits : at_ + ('[' :: t ++ ']' :: portText port).length + 24 < 2 ^ 63) :
    parseBracketHost ('[' :: t ++ ']' :: portText port) at_ = .value ('[' :: t ++ [']'], port) := by
  have hlen : ('[' :: t ++ ']' :: portText port).length =
      t.length + 2 + (portText port).length := by
    rw [List.length_append, List.length_cons, List.length_cons]
    omega
  have hclose : ']' ∉ '[' :: t := List.not_mem_cons_of_ne_of_not_mem (by decide)
    (h.not_mem rfl (by decide) (by decide) (by decide) (by decide))
  have hascii : Ascii ('[' :: t) := List.forall_mem_cons.mpr ⟨rfl, h.ascii⟩
  have hinner :
      (substring ('[' :: t ++ ']' :: portText port) 1 (('[' :: t).length : Int) : Parse Text) =
      .value t := by
    rw [substring_ok (by omega) (by rw [List.length_cons]; omega)
      (by unfold size; rw [hlen, List.length_cons]; omega), Int.toNat_natCast, List.take_left]
    rfl
  have hshort : (('[' :: t).length : Int) = t.length + 1 := by
    rw [List.length_cons]
    omega
  unfold parseBracketHost
  rw [indexOf_cut hascii hclose]
  dsimp only
  rw [hinner, Ending.value_bind, parseIpV6_of_denotes h (by omega)]
  show (do
    let host := ['['] ++ (← ip.render) ++ [']']
    let restHost ← substring ('[' :: t ++ ']' :: portText port) (← i64 (('[' :: t).length + 1))
      (size ('[' :: t ++ ']' :: portText port))
    if restHost ≠ [] then
      if !startsWith restHost [':'] then do
        parseError "expected URL host/port delimiter"
          (← i64 ((← i64 (at_ + ('[' :: t).length)) + 1))
      else do
        let portText ← substring restHost 1 (size restHost)
        let port ← parseDecimal portText (← i64 ((← i64 (at_ + ('[' :: t).length)) + 2)) 65535
        .value (host, some (asUnsigned 16 port))
    else .value (host, none) : Parse (Text × Option Int)) = _
  rw [hrender, Ending.value_bind, i64_bind (by omega), substring_behind, Ending.value_bind]
  cases port with
  | none => rfl
  | some n =>
    have hport' : (substring (':' :: decimal n) 1 (size (':' :: decimal n)) : Parse Text) =
        .value (decimal n) := substring_tail (i := 1) rfl (Nat.le_add_left 1 _)
    have hstart : startsWith (':' :: decimal n) [':'] = true := by
      unfold startsWith
      simp [List.isPrefixOf]
    have hdigits : (portText (some n)).length = 1 + (decimal n).length := by
      rw [portText, List.length_append, List.length_singleton]
    rw [portText, List.singleton_append, if_pos (List.cons_ne_nil _ _), hstart, if_neg (by decide),
      hport', Ending.value_bind, i64_bind (by omega), i64_bind (by omega),
      parseDecimal_port (hport n rfl) (by omega) (by omega), Ending.value_bind,
      asUnsigned_eq (hport n rfl).1 (hport n rfl).2]
    rfl

/-- A host and a port that are printed are read back. -/
theorem parseHost_text {at_ : Int} {host : Text} {port : Option Int} (h : HostText port host)
    (hport : PortRange port) (hat : 0 ≤ at_)
    (hfits : at_ + (host ++ portText port).length + 24 < 2 ^ 63) :
    parseHost (host ++ portText port) at_ = .value (host, port) := by
  unfold parseHost
  cases h with
  | bracket hrender h =>
    rw [List.append_assoc, List.singleton_append] at hfits ⊢
    rw [if_pos (by simp [startsWith, List.isPrefixOf])]
    exact parseBracketHost_text hrender h hport hat hfits
  | plain hne hbracket hcolon hascii =>
    have hstart : startsWith (host ++ portText port) ['['] = false := by
      cases host with
      | nil => exact absurd rfl hne
      | cons c host => exact hbracket
    rw [hstart, if_neg (by decide)]
    exact parsePlainHost_text hcolon hascii hport hat hfits

end stdlib.net
