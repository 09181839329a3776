-- The round trips of URIs and URLs (`std/net_types.otter`): the parsed value has a text that gives
-- it back, when the cuts are at the delimiters.
import OtterFusion.Stdlib.UrlTexts

open base.trapping

namespace stdlib.net

/-! ## Parsed URLs -/

/-- The authority of a URL as it is printed. -/
def Url.authorityText (url : Url) : Text := userText url.user ++ url.host ++ portText url.port

/-- What `parse_url` gives when its cuts are at the delimiters. -/
structure Parsed (url : Url) : Prop where
  scheme : url.scheme ≠ []
  schemeAscii : Ascii url.scheme
  schemeFirst : ∀ rest, place [':', '/', '/'] (url.scheme ++ ([':', '/', '/'] ++ rest)) =
    some url.scheme.length
  user : ∀ user, url.user = some user → '@' ∉ user ∧ Ascii user
  host : HostText url.port url.host
  hostOnly : url.user = none → '@' ∉ url.host
  port : PortRange url.port
  authority : '/' ∉ url.authorityText
  path : url.path = [] ∨ ∃ rest, url.path = '/' :: rest
  pathAscii : url.path ≠ [] → Ascii url.authorityText
  question : '?' ∉ url.authorityText ++ url.path
  entries : Entries url.query
  queryAscii : url.query ≠ [] → Ascii (url.authorityText ++ url.path)
  hash : '#' ∉ url.authorityText ++ url.path ∧ ∀ entry ∈ url.query, '#' ∉ entryText entry
  fragmentAscii : url.fragment ≠ none →
    Ascii (url.authorityText ++ url.path) ∧ ∀ entry ∈ url.query, Ascii (entryText entry)

/-! ## Stages -/

variable {s left right : Text} {d : Char}

theorem cutTail_none (h : d ∉ s) : cutTail s [d] = .value (s, none) := by
  unfold cutTail
  rw [indexOf_none h]

theorem cutTail_some (hleft : Ascii left) (hd : d ∉ left)
    (hfits : (left ++ d :: right).length + 8 < 2 ^ 63) :
    cutTail (left ++ d :: right) [d] = .value (left, some right) := by
  rw [List.length_append, List.length_cons] at hfits
  unfold cutTail
  rw [indexOf_cut hleft hd]
  dsimp only
  rw [i64_bind (by omega), substring_behind, Ending.value_bind, substring_before,
    Ending.value_bind]

theorem cutPath_none (h : '/' ∉ s) : cutPath s = .value (s, []) := by
  unfold cutPath
  rw [indexOf_none h]

theorem cutPath_some (hleft : Ascii left) (hd : '/' ∉ left) :
    cutPath (left ++ '/' :: right) = .value (left, '/' :: right) := by
  unfold cutPath
  rw [indexOf_cut hleft hd]
  dsimp only
  rw [substring_before, Ending.value_bind, substring_tail rfl (by rw [List.length_append]; omega),
    Ending.value_bind, List.drop_left]

theorem cutUser_none (h : '@' ∉ s) : cutUser s = .value (none, s) := by
  unfold cutUser
  rw [indexOf_none h]

theorem cutUser_some (hleft : Ascii left) (hd : '@' ∉ left)
    (hfits : (left ++ '@' :: right).length + 8 < 2 ^ 63) :
    cutUser (left ++ '@' :: right) = .value (some left, right) := by
  rw [List.length_append, List.length_cons] at hfits
  unfold cutUser
  rw [indexOf_cut hleft hd]
  dsimp only
  rw [substring_before, Ending.value_bind, i64_bind (by omega), substring_behind,
    Ending.value_bind]

theorem cutQuery_none {start : Int} (h : '?' ∉ s) : cutQuery s start = .value ([], s) := by
  unfold cutQuery
  rw [indexOf_none h]

theorem cutQuery_some {start : Int} (hstart : 0 ≤ start) (hleft : Ascii left) (hd : '?' ∉ left)
    (hfits : start + (left ++ '?' :: right).length + 8 < 2 ^ 63) :
    cutQuery (left ++ '?' :: right) start = (do
      let query ← parseQuery right (start + left.length + 1)
      .value (query, left)) := by
  rw [List.length_append, List.length_cons] at hfits
  unfold cutQuery
  rw [indexOf_cut hleft hd]
  dsimp only
  rw [i64_bind (by omega), substring_behind, Ending.value_bind, i64_bind (by omega),
    i64_bind (by omega), substring_before]
  rfl

/-- A search gives the same place when another text is behind the needle. -/
theorem place_prefix {needle left rest : Text}
    (h : place needle (left ++ (needle ++ rest)) = some left.length)
    (rest' : Text) : place needle (left ++ (needle ++ rest')) = some left.length := by
  induction left with
  | nil => exact place_self needle rest'
  | cons c left ih =>
    rw [List.cons_append, place] at h ⊢
    split at h
    · cases h
    rename_i hnot
    obtain ⟨k, hk, hlen⟩ := Option.map_eq_some_iff.mp h
    have hk' : k = left.length := Nat.succ.inj hlen
    subst hk'
    have hshort : ∀ r : Text, needle.isPrefixOf (c :: (left ++ (needle ++ r))) = true →
        needle <+: c :: (left ++ needle) := by
      intro r hr
      have hprefix : needle <+: (c :: (left ++ needle)) ++ r := by
        have := List.isPrefixOf_iff_prefix.mp hr
        simpa using this
      refine List.prefix_of_prefix_length_le hprefix (List.prefix_append _ r) ?_
      rw [List.length_cons, List.length_append]
      omega
    rw [if_neg, ih hk]
    · rfl
    · intro hprefix
      refine hnot (List.isPrefixOf_iff_prefix.mpr ?_)
      have := (hshort rest' hprefix).trans (List.prefix_append _ rest)
      simpa using this

/-! ## Printed URLs are read back -/

theorem mem_queryString {entries : Query} {c : Char} (h : c ∈ queryString entries) :
    c = '&' ∨ ∃ entry ∈ entries, c ∈ entryText entry := by
  rw [queryString_eq] at h
  induction entries with
  | nil => cases h
  | cons entry entries ih =>
    cases entries with
    | nil =>
      rw [List.map_singleton, List.intercalate_singleton] at h
      exact .inr ⟨entry, List.mem_cons_self, h⟩
    | cons next entries =>
      rw [List.map_cons, List.map_cons, List.intercalate_cons_cons, List.append_assoc] at h
      rcases List.mem_append.mp h with h | h
      · exact .inr ⟨entry, List.mem_cons_self, h⟩
      rcases List.mem_append.mp h with h | h
      · exact .inl (List.mem_singleton.mp h)
      · rcases ih h with h | ⟨other, hother, h⟩
        · exact .inl h
        · exact .inr ⟨other, List.mem_cons_of_mem _ hother, h⟩

theorem HostText.ne_nil {port : Option Int} {host : Text} (h : HostText port host) : host ≠ [] := by
  cases h with
  | bracket _ _ => exact List.cons_ne_nil _ _
  | plain hne _ _ _ => exact hne

/-- The query of a URL as it is printed. -/
def queryText (entries : Query) : Text :=
  if entries.isEmpty then [] else ['?'] ++ queryString entries

/-- What stands behind the scheme. -/
def Url.restText (url : Url) (entries : Query) : Text :=
  url.authorityText ++ url.path ++ queryText entries

theorem render_eq (url : Url) (entries : Query) : url.render entries =
    url.scheme ++ ([':', '/', '/'] ++ (url.restText entries ++ marked ['#'] url.fragment)) := by
  unfold Url.render Url.restText Url.authorityText queryText
  simp only [List.append_assoc]

variable {url : Url} {entries : Query}

/-- The cut at the fragment of a printed URL. -/
theorem cutTail_text (h : Parsed url) (hperm : entries.Perm url.query)
    (hfits : (url.restText entries ++ marked ['#'] url.fragment).length + 8 < 2 ^ 63) :
    cutTail (url.restText entries ++ marked ['#'] url.fragment) ['#'] =
      .value (url.restText entries, url.fragment) := by
  have hquery : ∀ c ∈ queryText entries, c = '?' ∨ c = '&' ∨ ∃ entry ∈ url.query,
      c ∈ entryText entry := by
    intro c hc
    unfold queryText at hc
    split at hc
    · cases hc
    rcases List.mem_append.mp hc with hc | hc
    · exact .inl (List.mem_singleton.mp hc)
    · rcases mem_queryString hc with hc | ⟨entry, hentry, hc⟩
      · exact .inr (.inl hc)
      · exact .inr (.inr ⟨entry, hperm.mem_iff.mp hentry, hc⟩)
  have hhash : '#' ∉ url.restText entries := by
    intro hmem
    rcases List.mem_append.mp hmem with hmem | hmem
    · exact h.hash.1 hmem
    · rcases hquery _ hmem with hc | hc | ⟨entry, hentry, hc⟩
      · cases hc
      · cases hc
      · exact h.hash.2 entry hentry hc
  cases hfragment : url.fragment with
  | none =>
    rw [marked, List.append_nil]
    exact cutTail_none hhash
  | some fragment =>
    obtain ⟨hfront, hentries⟩ := h.fragmentAscii (by rw [hfragment]; exact Option.some_ne_none _)
    have hascii : Ascii (url.restText entries) := by
      refine ascii_append.mpr ⟨hfront, fun c hc => ?_⟩
      rcases hquery c hc with rfl | rfl | ⟨entry, hentry, hc⟩
      · rfl
      · rfl
      · exact hentries entry hentry c hc
    rw [hfragment] at hfits
    exact cutTail_some hascii hhash hfits

/-- The cut at the query of a printed URL. -/
theorem cutQuery_text {start : Int} (h : Parsed url) (hperm : entries.Perm url.query)
    (hstart : 0 ≤ start) (hfits : start + (url.restText entries).length + 24 < 2 ^ 63) :
    cutQuery (url.restText entries) start = .value (entries, url.authorityText ++ url.path) := by
  have hkeys : Entries entries := by
    refine ⟨fun entry hentry => h.entries.entry entry (hperm.mem_iff.mp hentry), ?_⟩
    exact (hperm.map Prod.fst).nodup_iff.mpr h.entries.keys
  unfold Url.restText queryText at *
  cases entries with
  | nil =>
    rw [List.isEmpty_nil, if_pos rfl, List.append_nil]
    exact cutQuery_none h.question
  | cons entry entries =>
    have hsome : url.query ≠ [] := by
      intro hnil
      rw [hnil] at hperm
      exact absurd hperm.eq_nil (List.cons_ne_nil _ _)
    rw [List.isEmpty_cons, if_neg (by decide), List.singleton_append] at hfits ⊢
    rw [cutQuery_some hstart (h.queryAscii hsome) h.question (by omega)]
    rw [List.length_append, List.length_cons] at hfits
    rw [parseQuery_entries hkeys (List.cons_ne_nil _ _) (by omega) (by omega), Ending.value_bind]

theorem cutPath_text (h : Parsed url) :
    cutPath (url.authorityText ++ url.path) = .value (url.authorityText, url.path) := by
  rcases h.path with hnil | ⟨rest, hpath⟩
  · rw [hnil, List.append_nil]
    exact cutPath_none h.authority
  · have hascii := h.pathAscii (by rw [hpath]; exact List.cons_ne_nil _ _)
    rw [hpath]
    exact cutPath_some hascii h.authority

theorem cutUser_text (h : Parsed url) (hfits : url.authorityText.length + 8 < 2 ^ 63) :
    cutUser url.authorityText = .value (url.user, url.host ++ portText url.port) := by
  unfold Url.authorityText at hfits ⊢
  cases huser : url.user with
  | none =>
    refine cutUser_none fun hmem => ?_
    rcases List.mem_append.mp hmem with hmem | hmem
    · exact h.hostOnly huser hmem
    · exact (portText_hostChar h.port _ hmem).2.2.2.2 rfl
  | some user =>
    obtain ⟨hat, hascii⟩ := h.user user huser
    rw [huser, userText] at hfits
    rw [userText]
    simp only [List.append_assoc, List.singleton_append] at hfits ⊢
    exact cutUser_some hascii hat hfits

/-- The text of a URL is parsed back. -/
theorem parseUrl_text (h : Parsed url) (hperm : entries.Perm url.query)
    (hfits : (url.render entries).length + 24 < 2 ^ 63) :
    parseUrl (url.render entries) = .value { url with query := entries } := by
  rw [render_eq] at hfits ⊢
  have hlen : (url.scheme ++
      ([':', '/', '/'] ++ (url.restText entries ++ marked ['#'] url.fragment))).length =
      url.scheme.length + 3 + (url.restText entries ++ marked ['#'] url.fragment).length := by
    rw [List.length_append, List.length_append]
    show _ + (3 + _) = _
    omega
  have hrestLen : (url.restText entries).length ≤
      (url.restText entries ++ marked ['#'] url.fragment).length := by
    rw [List.length_append]
    omega
  have hauthorityLen : url.authorityText.length ≤ (url.restText entries).length := by
    unfold Url.restText
    rw [List.length_append, List.length_append]
    omega
  have hhostLen : (url.host ++ portText url.port).length ≤ url.authorityText.length := by
    unfold Url.authorityText
    rw [List.append_assoc]
    exact (List.suffix_append _ _).length_le
  have hindex : indexOf (url.scheme ++
      ([':', '/', '/'] ++ (url.restText entries ++ marked ['#'] url.fragment)))
      [':', '/', '/'] = some (url.scheme.length : Int) := by
    unfold indexOf
    rw [h.schemeFirst, Option.map_some, List.take_left, h.schemeAscii.byteSize]
  have htail :
      (url.scheme ++ ([':', '/', '/'] ++ (url.restText entries ++ marked ['#'] url.fragment))).drop
      (url.scheme.length + 3) = url.restText entries ++ marked ['#'] url.fragment := by
    rw [List.drop_append, List.drop_of_length_le (by omega)]
    simp
  have hscheme := List.length_pos_iff.mpr h.scheme
  have hauthority : url.authorityText ≠ [] := by
    unfold Url.authorityText
    intro hnil
    rw [List.append_assoc] at hnil
    exact h.host.ne_nil (List.append_eq_nil_iff.mp (List.append_eq_nil_iff.mp hnil).2).1
  unfold parseUrl
  rw [hindex]
  dsimp only
  rw [if_neg (by omega), substring_before, Ending.value_bind, i64_ok (by omega) (by omega),
    Ending.value_bind, substring_tail (i := url.scheme.length + 3) (by omega) (by omega), htail,
    Ending.value_bind, Ending.value_bind, cutTail_text h hperm (by omega), Ending.value_bind]
  dsimp only
  rw [cutQuery_text h hperm (by omega) (by omega), Ending.value_bind]
  dsimp only
  rw [cutPath_text h, Ending.value_bind]
  dsimp only
  rw [if_neg hauthority, cutUser_text h (by omega), Ending.value_bind]
  dsimp only
  unfold size
  rw [i64_ok (by omega) (by omega), Ending.value_bind, i64_ok (by omega) (by omega),
    Ending.value_bind,
    parseHost_text h.host h.port (by omega) (by omega), Ending.value_bind]
  dsimp only
  rw [if_neg h.host.ne_nil, cloneQuery_eq ((hperm.map Prod.fst).nodup_iff.mpr h.entries.keys)]

theorem Query.get_of_mem {query : Query} {entry : Text × Text} (h : entry ∈ query)
    (hkeys : (query.map Prod.fst).Nodup) : query.get entry.1 = some entry.2 := by
  unfold Query.get
  induction query with
  | nil => cases h
  | cons first query ih =>
    obtain ⟨key, value⟩ := first
    rw [List.map_cons, List.nodup_cons] at hkeys
    rcases List.mem_cons.mp h with rfl | h
    · rw [List.lookup_cons_self]
    · have hne : ¬entry.1 = key := by
        intro heq
        have hmem : entry.1 ∈ query.map Prod.fst := List.mem_map_of_mem h
        rw [heq] at hmem
        exact hkeys.1 hmem
      rw [List.lookup_cons, beq_eq_false_iff_ne.mpr hne]
      exact ih h hkeys.2

/-- A parsed URL and its text again have equal fields, and the entries of its query. -/
theorem Url.eq_entries {url : Url} {entries : Query} (hperm : entries.Perm url.query)
    (hkeys : (url.query.map Prod.fst).Nodup) : ({ url with query := entries } : Url).eq url =
      true := by
  have hget : ∀ entry ∈ entries, url.query.get entry.1 = some entry.2 := by
    intro entry hentry
    exact Query.get_of_mem (hperm.mem_iff.mp hentry) hkeys
  have hfold : ∀ (rest : Query), (∀ entry ∈ rest, entry ∈ entries) →
      rest.foldl (sameTurn url.query) true = true := by
    intro rest hrest
    induction rest with
    | nil => rfl
    | cons entry rest ih =>
      obtain ⟨hentry, hrest⟩ := List.forall_mem_cons.mp hrest
      have hturn : sameTurn url.query true entry = true := by
        unfold sameTurn
        rw [if_pos rfl, hget entry hentry]
        exact decide_eq_true rfl
      rw [List.foldl_cons, hturn]
      exact ih hrest
  unfold Url.eq strOptionEq u16OptionEq
  simp only [optionEq_self, hperm.length_eq]
  simpa using hfold entries fun _ h => h

/-! ## What is parsed is printed -/

theorem cutTail_parts {head : Text} {tail : Option Text} (hcut : AsciiUpTo [d] s)
    (hfits : s.length + 8 < 2 ^ 63) (h : cutTail s [d] = .value (head, tail)) :
    head = before [d] s ∧ d ∉ head ∧ (∀ c ∈ head, c ∈ s) ∧ (tail ≠ none → Ascii head) := by
  rcases hcut.cases with hnone | ⟨left, right, rfl, hd, hascii⟩
  · rw [cutTail_none hnone] at h
    cases h
    exact ⟨(cut_none hnone).2.1.symm, hnone, fun _ hc => hc, fun hne => absurd rfl hne⟩
  · rw [cutTail_some hascii hd hfits] at h
    cases h
    exact ⟨(cut_some hascii hd).2.1.symm, hd, fun _ hc => List.mem_append_left _ hc,
      fun _ => hascii⟩

theorem cutQuery_parts {start : Int} {query : Query} {head : Text} (hstart : 0 ≤ start)
    (hcut : AsciiUpTo ['?'] s) (hpairs : ∀ pair ∈ split (after ['?'] s) '&', AsciiUpTo ['='] pair)
    (hfits : start + s.length + 8 < 2 ^ 63) (h : cutQuery s start = .value (query, head)) :
    head = before ['?'] s ∧ '?' ∉ head ∧ (∀ c ∈ head, c ∈ s) ∧ (query ≠ [] → Ascii head) ∧
      Entries query ∧ ∀ entry ∈ query, ∀ c ∈ entryText entry, c ∈ s := by
  rcases hcut.cases with hnone | ⟨left, right, rfl, hd, hascii⟩
  · rw [cutQuery_none hnone] at h
    cases h
    exact ⟨(cut_none hnone).2.1.symm, hnone, fun _ hc => hc, fun hne => absurd rfl hne,
      ⟨List.forall_mem_nil _, List.nodup_nil⟩, List.forall_mem_nil _⟩
  · obtain ⟨_, hbefore, hafter⟩ := @cut_some _ right _ hascii hd
    rw [hafter] at hpairs
    rw [cutQuery_some hstart hascii hd hfits] at h
    obtain ⟨query', hquery, h⟩ := Ending.value_of_bind.mp h
    cases h
    obtain ⟨hentries, hmem⟩ := parseQuery_value hpairs hquery
    refine ⟨hbefore.symm, hd, fun _ hc => List.mem_append_left _ hc, fun _ => hascii, hentries, ?_⟩
    intro entry hentry c hc
    refine List.mem_append_right _ (List.mem_cons_of_mem _ ?_)
    exact (mem_of_mem_split (hmem entry hentry) c hc).1

theorem cutPath_parts {head path : Text} (hcut : AsciiUpTo ['/'] s)
    (h : cutPath s = .value (head, path)) :
    head = before ['/'] s ∧ '/' ∉ head ∧ s = head ++ path ∧
      (path = [] ∨ ∃ rest, path = '/' :: rest) ∧
      (path ≠ [] → Ascii head) := by
  rcases hcut.cases with hnone | ⟨left, right, rfl, hd, hascii⟩
  · rw [cutPath_none hnone] at h
    cases h
    exact ⟨(cut_none hnone).2.1.symm, hnone, (List.append_nil _).symm, .inl rfl,
      fun hne => absurd rfl hne⟩
  · rw [cutPath_some hascii hd] at h
    cases h
    exact ⟨(cut_some hascii hd).2.1.symm, hd, rfl, .inr ⟨_, rfl⟩, fun _ => hascii⟩

theorem cutUser_parts {user : Option Text} {hostPort : Text} (hcut : AsciiUpTo ['@'] s)
    (hfits : s.length + 8 < 2 ^ 63) (h : cutUser s = .value (user, hostPort)) :
    hostPort = hostPart s ∧ (∀ c ∈ userText user, c ∈ s) ∧ (∀ c ∈ hostPort, c ∈ s) ∧
      (∀ u, user = some u → '@' ∉ u ∧ Ascii u) ∧ (user = none → '@' ∉ hostPort) := by
  rcases hcut.cases with hnone | ⟨left, right, rfl, hd, hascii⟩
  · rw [cutUser_none hnone] at h
    cases h
    refine ⟨?_, List.forall_mem_nil _, fun _ hc => hc, (fun _ hu => by cases hu), fun _ => hnone⟩
    unfold hostPart
    rw [if_pos (cut_none hnone).1]
  · rw [cutUser_some hascii hd hfits] at h
    cases h
    obtain ⟨hoffset, _, hafter⟩ := @cut_some _ hostPort _ hascii hd
    refine ⟨?_, ?_, fun _ hc => List.mem_append_right _ (List.mem_cons_of_mem _ hc), ?_,
      fun hu => by cases hu⟩
    · unfold hostPart
      rw [if_neg (by rw [hoffset]; exact Option.some_ne_none _), hafter]
    · intro c hc
      rcases List.mem_append.mp hc with hc | hc
      · exact List.mem_append_left _ hc
      · rw [List.mem_singleton.mp hc]
        exact List.mem_append_right _ List.mem_cons_self
    · intro u hu
      cases hu
      exact ⟨hd, hascii⟩

theorem byteSize_hostPart_le (s : Text) : byteSize (hostPart s) ≤ byteSize s := by
  unfold hostPart after
  split
  · exact Nat.le_refl _
  · split
    · exact Nat.zero_le _
    · exact byteSize_drop_le s _

/-- What `parse_url` gives is a parsed URL. -/
theorem parseUrl_parsed {url : Url} (hbytes : (byteSize s : Int) + 24 < 2 ^ 63) (hcuts : UrlCuts s)
    (h : parseUrl s = .value url) : Parsed url := by
  have hlen := length_le_byteSize s
  obtain ⟨hscheme, hhash, hquestion, hpairs, hslash, hat, hcolon⟩ := hcuts
  unfold parseUrl at h
  cases hindex : offset [':', '/', '/'] s with
  | none =>
    rw [indexOf_eq, hindex] at h
    cases h
  | some i =>
    have hascii : Ascii (s.take i) := by
      unfold AsciiUpTo at hscheme
      rwa [hindex] at hscheme
    obtain ⟨rest, hs, hroom, hdrop⟩ := offset_of_ascii hindex hascii
    have hafter : after [':', '/', '/'] s = rest := by
      unfold after
      rw [hindex]
      exact hdrop
    have hbytesRest : i + 3 + byteSize rest ≤ byteSize s := by
      have := offset_bytes hindex
      rwa [hdrop] at this
    rw [hafter] at hhash hquestion hpairs hslash hat hcolon
    rw [indexOf_eq, hindex] at h
    dsimp only [Option.map_some] at h
    split at h
    · cases h
    rename_i hpos
    have hroom' : i + 3 ≤ s.length := hroom
    rw [substring_head rfl (by omega), Ending.value_bind, i64_ok (by omega) (by omega),
      Ending.value_bind, substring_tail (i := i + 3) (by omega) hroom', Ending.value_bind,
      Ending.value_bind, show s.drop (i + 3) = rest from hdrop] at h
    have hlenRest := length_le_byteSize rest
    obtain ⟨⟨r1, fragment⟩, h1, h⟩ := Ending.value_of_bind.mp h
    obtain ⟨hr1, hhash1, hmem1, hascii1⟩ := cutTail_parts hhash (by omega) h1
    have hbytes1 := byteSize_before_le rest ['#']
    subst hr1
    have hlen1 := length_le_byteSize (before ['#'] rest)
    obtain ⟨⟨query, r2⟩, h2, h⟩ := Ending.value_of_bind.mp h
    dsimp only at h2 h
    obtain ⟨hr2, hquestion2, hmem2, hascii2, hentries, hmemEntries⟩ :=
      cutQuery_parts (by omega) hquestion hpairs (by omega) h2
    have hbytes2 := byteSize_before_le (before ['#'] rest) ['?']
    subst hr2
    obtain ⟨⟨authority, path⟩, h3, h⟩ := Ending.value_of_bind.mp h
    dsimp only at h3 h
    obtain ⟨hr3, hslash3, hjoin, hpath, hascii3⟩ := cutPath_parts hslash h3
    have hbytes3 := byteSize_before_le (before ['?'] (before ['#'] rest)) ['/']
    subst hr3
    generalize before ['?'] (before ['#'] rest) = front at *
    generalize before ['#'] rest = whole at *
    generalize before ['/'] front = authority at *
    have hlen3 := length_le_byteSize authority
    split at h
    · cases h
    obtain ⟨⟨user, hostPort⟩, h4, h⟩ := Ending.value_of_bind.mp h
    dsimp only at h4 h
    obtain ⟨hr4, huserMem, hhostMem, huser, hhostOnly⟩ := cutUser_parts hat (by omega) h4
    have hbytes4 := byteSize_hostPart_le authority
    subst hr4
    obtain ⟨_, _, h⟩ := Ending.value_of_bind.mp h
    obtain ⟨_, _, h⟩ := Ending.value_of_bind.mp h
    obtain ⟨⟨host, port⟩, h5, h⟩ := Ending.value_of_bind.mp h
    dsimp only at h5 h
    have hparts := parseHost_value (by omega) hcolon h5
    split at h
    · cases h
    rename_i hhost
    cases h
    have hchars : ∀ c ∈ userText user ++ host ++ portText port, c ∈ authority ∨ HostChar c := by
      intro c hc
      rcases List.mem_append.mp hc with hc | hc
      · rcases List.mem_append.mp hc with hc | hc
        · exact .inl (huserMem c hc)
        · rcases hparts.chars c hc with hc | hc
          · exact .inl (hhostMem c hc)
          · exact .inr hc
      · exact .inr (portText_hostChar hparts.port c hc)
    have hfront : ∀ c ∈ userText user ++ host ++ portText port ++ path, c ∈ front ∨ HostChar c := by
      intro c hc
      rw [hjoin]
      rcases List.mem_append.mp hc with hc | hc
      · rcases hchars c hc with hc | hc
        · exact .inl (List.mem_append_left _ hc)
        · exact .inr hc
      · exact .inl (List.mem_append_right _ hc)
    have hwhole : Ascii front → Ascii (userText user ++ host ++ portText port ++ path) := by
      intro hascii c hc
      rcases hfront c hc with hc | hc
      · exact hascii c hc
      · exact hc.1
    have hclone : cloneQuery query = query := cloneQuery_eq hentries.keys
    refine ⟨?_, hascii, ?_, huser, hparts.text hhost, ?_, hparts.port, ?_, hpath, ?_, ?_, ?_,
      ?_, ?_, ?_⟩
    · show s.take i ≠ []
      intro hnil
      have := congrArg List.length hnil
      rw [List.length_take, List.length_nil] at this
      omega
    · have hplace : place [':', '/', '/'] (s.take i ++ ([':', '/', '/'] ++ rest)) =
          some (s.take i).length := by
        rw [← hs, List.length_take, Nat.min_eq_left (by omega)]
        exact place_of_offset hindex hascii
      exact place_prefix hplace
    · intro hnone hmem
      rcases hparts.chars _ hmem with hc | hc
      · exact hhostOnly hnone hc
      · exact hc.2.2.2.2 rfl
    · intro hmem
      rcases hchars _ hmem with hc | hc
      · exact hslash3 hc
      · exact hc.2.1 rfl
    · intro hne c hc
      rcases hchars c hc with hc | hc
      · exact hascii3 hne c hc
      · exact hc.1
    · intro hmem
      rcases hfront _ hmem with hc | hc
      · exact hquestion2 hc
      · exact hc.2.2.1 rfl
    · rw [hclone]
      exact hentries
    · rw [hclone]
      intro hne
      exact hwhole (hascii2 hne)
    · rw [hclone]
      refine ⟨fun hmem => ?_, fun entry hentry hmem => hhash1 (hmemEntries entry hentry _ hmem)⟩
      rcases hfront _ hmem with hc | hc
      · exact hhash1 (hmem2 _ hc)
      · exact hc.2.2.2.1 rfl
    · rw [hclone]
      intro hne
      refine ⟨hwhole fun c hc => hascii1 hne c (hmem2 c hc), fun entry hentry c hc => ?_⟩
      exact hascii1 hne c (hmemEntries entry hentry c hc)

/-! ## Round trips -/

/-- The text of a parsed URI is the text that was parsed if and only if each cut is at its
delimiter. The text of a parsed URL gives an equal URL, in whatever order its map gives the entries,
if each cut is at its delimiter. -/
theorem uri_and_url_round_trip (t : Str) :
    (∀ uri, parseUri t.text = .value uri → (uri.render = t.text ↔ UriCuts t.text)) ∧
      (UrlCuts t.text → ∀ url, parseUrl t.text = .value url →
        ∀ entries, entries.Perm url.query → ∀ s : Str, s.text = url.render entries →
          parseUrl s.text = .value { url with query := entries } ∧
            ({ url with query := entries } : Url).eq url = true) := by
  have hsize : ∀ t : Str, (byteSize t.text : Int) + 24 < 2 ^ 63 := by
    intro t
    have := t.fits
    omega
  refine ⟨fun uri huri => uri_render_iff (by have := hsize t; omega) huri, ?_⟩
  intro hcuts url hurl entries hperm s hs
  have hparsed := parseUrl_parsed (hsize t) hcuts hurl
  have hlen := length_le_byteSize s.text
  have hfits := hsize s
  rw [hs] at hlen hfits ⊢
  exact ⟨parseUrl_text hparsed hperm (by omega), Url.eq_entries hperm hparsed.entries.keys⟩

/-- A host in brackets, a port with a zero in front, and a key that comes twice. -/
theorem uri_and_url_round_trip_at :
    (∃ uri, parseUri ['a', ':', '/', '/', 'b', '?', 'c', '#', 'd'] = .value uri ∧
      uri.render = ['a', ':', '/', '/', 'b', '?', 'c', '#', 'd']) ∧
    ∃ url, parseUrl ['a', ':', '/', '/', '[', ':', ':', '1', ']', ':', '0', '7', '?', 'k',
      '=', '&', 'k',
        '=', '2'] = .value url ∧
      parseUrl (url.render url.query) = .value url ∧ url.eq url = true := by
  constructor
  · refine ⟨⟨['a'], some ['b'], [], some ['c'], some ['d']⟩, by decide +kernel, ?_⟩
    refine ((uri_and_url_round_trip ⟨_, by decide⟩).1 _ (by decide +kernel)).mpr ⟨?_, ?_, ?_⟩
    all_goals
      intro i hi
      have hoffset : some _ = some i := hi
      cases hoffset
      rfl
  · have hurl : parseUrl ['a', ':', '/', '/', '[', ':', ':', '1', ']', ':', '0', '7', '?', 'k',
        '=', '&', 'k',
        '=', '2'] = .value
          ⟨['a'], none, ['[', '0', ':', '0', ':', '0', ':', '0', ':', '0', ':', '0', ':', '0',
          ':', '1', ']'], some 7, [], [(['k'], ['2'])], none⟩ := by decide +kernel
    refine ⟨_, hurl, ?_⟩
    exact (uri_and_url_round_trip ⟨_, by decide⟩).2 (by decide) _ hurl [(['k'], ['2'])]
      (List.Perm.refl _) ⟨_, by decide⟩ rfl

/-- Behind a character of two bytes, the cuts are one character late. -/
theorem late_cuts :
    (∃ uri, parseUri ['é', ':', 'x', 'y'] = .value uri ∧ uri.render ≠ ['é', ':', 'x', 'y']) ∧
      ∃ url url', parseUrl ['é', ':', '/', '/', 'a', 'b', 'c', 'd'] = .value url ∧
        parseUrl (url.render url.query) = .value url' ∧ url'.eq url = false :=
  ⟨⟨⟨['é', ':'], none, ['y'], none, none⟩, by decide +kernel, by decide⟩,
    ⟨['é', ':'], none, ['b', 'c', 'd'], none, [], [], none⟩,
    ⟨['é', ':', ':'], none, ['c', 'd'], none, [], [], none⟩, by decide +kernel, by decide +kernel,
    by decide⟩

end stdlib.net
