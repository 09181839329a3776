-- Where the index file of a package is: the place that `index_path` (`store.rs`) gives the local
-- registry, the server and the store, and the one that `index_prefix` (`registry.rs`) gives
-- `HttpRegistry`. They agree, below the directory of the index, exactly for names that are cut
-- between characters and hold nothing that a path reads as more than a name.
import OtterFusion.Compiler.LexicalPaths
import OtterFusion.Pkg.Server

open compiler.imports compiler.imports.Location
open compiler.lexer (byteLen)
open runtime.io (takeBytes)

namespace pkg.registry

/-! ## Places -/

/-- The components of the text of a path. -/
def components (s : String) : Path :=
  (if s.toList.head? = some '/' then ["/"] else []) ++ (parts s.toList).filter fun p => p ≠ ""

/-- `Path::join`, one piece after another. An absolute piece leads away from what is before it. -/
def place (l : Location) (pieces : List String) : Location :=
  pieces.foldl (fun l piece => locateFrom l (components piece)) l

/-- The directory of the index, in the directory of a registry or of the store. -/
def indexDir (dir : String) : Location := (locate (components dir)).descend ["index"]

/-- `index_prefix`. -/
def indexPrefix (toLowercase : String → String) (name : String) : Option String :=
  let lower := toLowercase name
  match byteLen lower.toList with
  | 1 => some "1"
  | 2 => some "2"
  | 3 => do some ("3/" ++ (← slice lower 0 1))
  | _ => do some ((← slice lower 0 2) ++ "/" ++ (← slice lower 2 4))

/-- The file of the index at which each of them finds the package. Neither `index_path` nor
`index_prefix` panics, the file has the name in lower case and is in the directory that the URL of
`HttpRegistry` names, and it is below the directory of the index. -/
structure Found (toLowercase : String → String) (dir name : String) (l : Location) : Prop where
  path : ∃ pieces, indexPath toLowercase name = some pieces ∧ place (indexDir dir) pieces = l
  shard : ∃ front, indexPrefix toLowercase name = some front ∧
    l = (locateFrom (indexDir dir) (components front)).descend [toLowercase name]
  inside : ∃ names, names ≠ [] ∧ l = (indexDir dir).descend names

/-- The offsets at which a name is cut are not inside a character. -/
def Cut (s : String) : Prop :=
  byteLen s.toList = 1 ∨ byteLen s.toList = 2 ∨
    byteLen s.toList = 3 ∧ (takeBytes 1 s.toList).isSome ∨
    4 ≤ byteLen s.toList ∧ (takeBytes 2 s.toList).isSome ∧ (takeBytes 4 s.toList).isSome

/-- A path reads it as a name, and its first two bytes do not lead up. -/
def Nameable (s : String) : Prop :=
  '/' ∉ s.toList ∧ s ≠ "." ∧ s ≠ ".." ∧ ¬(4 ≤ byteLen s.toList ∧ ['.', '.'] <+: s.toList)

variable {toLowercase : String → String} {dir name : String} {s t : String} {l : Location}
  {cs front upto : List Char}

/-! ## Pieces -/

theorem components_name (hslash : '/' ∉ s.toList) (hne : s ≠ "") : components s = [s] := by
  have hhead : s.toList.head? ≠ some '/' := fun h => hslash (List.mem_of_head? h)
  rw [components, if_neg hhead, parts, List.splitOn_eq_singleton hslash]
  simp [hne]

theorem components_pair (hs : '/' ∉ s.toList) (hne : s ≠ "") (ht : '/' ∉ t.toList) (hne' : t ≠ "") :
    components (s ++ "/" ++ t) = [s, t] := by
  have htext : (s ++ "/" ++ t).toList = s.toList ++ '/' :: t.toList := by simp
  have hnil : s.toList ≠ [] := fun h => hne (String.toList_injective h)
  have hhead : (s.toList ++ '/' :: t.toList).head? ≠ some '/' := by
    rw [List.head?_append_of_ne_nil _ hnil]
    exact fun h => hs (List.mem_of_head? h)
  rw [components, htext, if_neg hhead, parts, List.splitOn_append_cons_self,
    List.splitOn_eq_singleton hs, List.splitOn_eq_singleton ht]
  simp [hne, hne']

/-- The names of a location have no slash. -/
def Unslashed (l : Location) : Prop := ∀ name ∈ l.names, '/' ∉ name.toList

theorem Unslashed.locateFrom {p : Path} (hl : Unslashed l)
    (hp : ∀ comp ∈ p, comp ≠ "/" → '/' ∉ comp.toList) : Unslashed (locateFrom l p) := by
  induction p generalizing l with
  | nil => exact hl
  | cons comp p ih =>
    obtain ⟨hcomp, hrest⟩ := List.forall_mem_cons.mp hp
    refine ih ?_ hrest
    unfold Location.step
    split
    · exact fun _ h => absurd h List.not_mem_nil
    · exact hl
    · unfold climb
      split
      · exact hl
      · exact fun name h => hl name ((List.dropLast_sublist _).subset h)
    · rename_i hroot _ _
      intro name h
      rcases List.mem_append.mp h with hold | hnew
      · exact hl name hold
      · rw [List.mem_singleton.mp hnew]
        exact hcomp hroot

theorem components_unslashed {comp : String} (h : comp ∈ components s) (hroot : comp ≠ "/") :
    '/' ∉ comp.toList := by
  rcases List.mem_append.mp h with h | h
  · split at h
    · exact absurd (List.mem_singleton.mp h) hroot
    · cases h
  · obtain ⟨chars, hchars, rfl⟩ := List.mem_map.mp (List.mem_filter.mp h).1
    rw [String.toList_ofList]
    exact not_mem_of_mem_splitOn hchars

theorem place_unslashed (hl : Unslashed l) (pieces : List String) : Unslashed (place l pieces) := by
  induction pieces generalizing l with
  | nil => exact hl
  | cons piece pieces ih => exact ih (hl.locateFrom fun _ h => components_unslashed h)

theorem place_plain (hl : l.Plain) (pieces : List String) : (place l pieces).Plain := by
  induction pieces generalizing l with
  | nil => exact hl
  | cons piece pieces ih => exact ih (hl.locateFrom _)

theorem indexDir_unslashed (dir : String) : Unslashed (indexDir dir) := by
  have hdir : Unslashed (locate (components dir)) :=
    Unslashed.locateFrom (fun _ h => absurd h List.not_mem_nil) fun _ h => components_unslashed h
  intro name h
  rcases List.mem_append.mp h with hold | hnew
  · exact hdir name hold
  · rw [List.mem_singleton.mp hnew]
    decide

theorem indexDir_plain (dir : String) : (indexDir dir).Plain := by
  intro name h
  rcases List.mem_append.mp h with hold | hnew
  · exact locate_plain _ name hold
  · rw [List.mem_singleton.mp hnew]
    decide

/-! ## Slices -/

theorem takeBytes_split {n : Nat} (h : takeBytes n cs = some front) :
    ∃ rest, cs = front ++ rest ∧ byteLen front = n := by
  induction cs generalizing n front with
  | nil =>
    cases n with
    | zero =>
      cases h
      exact ⟨[], rfl, rfl⟩
    | succ n => cases h
  | cons c cs ih =>
    cases n with
    | zero =>
      cases h
      exact ⟨c :: cs, rfl, rfl⟩
    | succ n =>
      unfold takeBytes at h
      split at h
      · rename_i hsize
        obtain ⟨tail, htail, rfl⟩ := Option.map_eq_some_iff.mp h
        obtain ⟨rest, rfl, hlen⟩ := ih htail
        refine ⟨rest, rfl, ?_⟩
        rw [compiler.lexer.byteLen_cons, hlen]
        omega
      · cases h

theorem slice_first {n : Nat} (h : takeBytes n s.toList = some front) :
    slice s 0 n = some (String.ofList front) := by
  have hnone : takeBytes 0 s.toList = some [] := by
    unfold takeBytes
    rfl
  unfold slice
  rw [hnone, h]
  rfl

/-- What is between two offsets. -/
theorem slice_next {m n : Nat} (hfront : takeBytes m s.toList = some front)
    (hupto : takeBytes n s.toList = some upto) (hlt : m < n) :
    ∃ rest more, upto = front ++ rest ∧ s.toList = front ++ rest ++ more ∧
      byteLen front = m ∧ byteLen rest = n - m ∧ slice s m n = some (String.ofList rest) := by
  obtain ⟨after, hs, hm⟩ := takeBytes_split hfront
  obtain ⟨more, hs', hn⟩ := takeBytes_split hupto
  have hpre : front <+: upto := by
    rcases List.prefix_or_prefix_of_prefix ⟨after, hs.symm⟩ ⟨more, hs'.symm⟩ with h | ⟨rest, h⟩
    · exact h
    · rw [← h, compiler.lexer.byteLen_append] at hm
      omega
  obtain ⟨rest, rfl⟩ := hpre
  rw [compiler.lexer.byteLen_append] at hn
  refine ⟨rest, more, rfl, hs', hm, by omega, ?_⟩
  unfold slice
  rw [hfront, hupto]
  simp

/-! ## Where a package is found -/

theorem ne_empty_of_byteLen {n : Nat} (h : byteLen s.toList = n) (hn : 0 < n) : s ≠ "" := by
  rintro rfl
  rw [String.toList_empty] at h
  exact absurd h (Nat.ne_of_lt hn)

theorem place_concat (pieces : List String) (hslash : '/' ∉ s.toList) (hne : s ≠ "") :
    place l (pieces ++ [s]) = (place l pieces).step s := by
  unfold place
  rw [List.foldl_append, List.foldl_cons, List.foldl_nil, components_name hslash hne]
  rfl

theorem place_name (hslash : '/' ∉ s.toList) (hne : s ≠ "") : place l [s] = l.step s :=
  place_concat [] hslash hne

theorem place_names (hs : '/' ∉ s.toList) (hne : s ≠ "") (ht : '/' ∉ t.toList) (hne' : t ≠ "") :
    place l [s, t] = locateFrom l [s, t] := by
  rw [← List.singleton_append, place_concat [s] ht hne', place_name hs hne]
  rfl

/-- A name goes down. -/
theorem step_nameable (hslash : '/' ∉ s.toList) (hdot : s ≠ ".") (hdots : s ≠ "..") :
    l.step s = l.descend [s] := by
  refine step_name ⟨?_, hdot, hdots⟩ l
  rintro rfl
  exact hslash (by decide)

/-- A file in a directory that is the one of the prefix and not above the index. -/
theorem found_in {shard : List String} {front : String} (hname : Nameable (toLowercase name))
    (hne : toLowercase name ≠ "")
    (hpath : indexPath toLowercase name = some (shard ++ [toLowercase name]))
    (hfront : indexPrefix toLowercase name = some front)
    (hsame : place (indexDir dir) shard = locateFrom (indexDir dir) (components front))
    (hinside : ∃ names, place (indexDir dir) shard = (indexDir dir).descend names) :
    ∃ l, Found toLowercase dir name l := by
  obtain ⟨hslash, hdot, hdots, -⟩ := hname
  obtain ⟨names, hnames⟩ := hinside
  refine ⟨_, ⟨_, hpath, place_concat _ hslash hne⟩, ⟨front, hfront, ?_⟩,
    names ++ [toLowercase name],
    by simp, ?_⟩
  · rw [step_nameable hslash hdot hdots, hsame]
  · rw [step_nameable hslash hdot hdots, hnames]
    simp [descend]

/-- One step down, or none, or one up that was down before. -/
theorem inside_pair (hs : '/' ∉ s.toList) (hdots : s ≠ "..") (hdot : s ≠ ".")
    (ht : '/' ∉ t.toList) :
    ∃ names, locateFrom l [s, t] = l.descend names := by
  have hstep : locateFrom l [s, t] = (l.descend [s]).step t := by
    rw [← step_nameable hs hdot hdots]
    rfl
  rw [hstep]
  by_cases hup : t = ".."
  · subst hup
    exact ⟨[], climb_descend l [] s⟩
  · by_cases hhere : t = "."
    · subst hhere
      exact ⟨[s], rfl⟩
    · rw [step_nameable ht hhere hup]
      exact ⟨[s, t], by simp [descend]⟩

theorem indexPath_long (hlen : 4 ≤ byteLen (toLowercase name).toList) :
    indexPath toLowercase name = (slice (toLowercase name) 0 2).bind fun first =>
      (slice (toLowercase name) 2 4).bind fun second => some [first, second, toLowercase name] := by
  obtain ⟨n, hn⟩ := Nat.exists_eq_add_of_le' hlen
  simp only [indexPath, hn]
  rfl

theorem indexPrefix_long (hlen : 4 ≤ byteLen (toLowercase name).toList) :
    indexPrefix toLowercase name = (slice (toLowercase name) 0 2).bind fun first =>
      (slice (toLowercase name) 2 4).bind fun second => some (first ++ "/" ++ second) := by
  obtain ⟨n, hn⟩ := Nat.exists_eq_add_of_le' hlen
  simp only [indexPrefix, hn]
  rfl

/-- A part of a name is a name, or it is dots. -/
theorem ofList_part {part : List Char} {n : Nat} (hslash : '/' ∉ s.toList) (hlen : byteLen part = n)
    (hn : 0 < n) (hpart : part ⊆ s.toList) :
    '/' ∉ (String.ofList part).toList ∧ String.ofList part ≠ "" := by
  refine ⟨?_, ne_empty_of_byteLen (n := n) ?_ hn⟩
  · rw [String.toList_ofList]
    exact fun h => hslash (hpart h)
  · rwa [String.toList_ofList]

/-- Each of them finds a package whose name is cut between characters and is nothing but a name. -/
theorem found_of_nameable (hcut : Cut (toLowercase name)) (hname : Nameable (toLowercase name)) :
    ∃ l, Found toLowercase dir name l := by
  have hslash := hname.1
  rcases hcut with hlen | hlen | ⟨hlen, hone⟩ | ⟨hlen, htwo, hfour⟩
  · have hpath : indexPath toLowercase name = some (["1"] ++ [toLowercase name]) := by
      simp only [indexPath, hlen]
      rfl
    have hfront : indexPrefix toLowercase name = some "1" := by simp only [indexPrefix, hlen]
    exact found_in hname (ne_empty_of_byteLen hlen (by omega)) hpath hfront rfl ⟨["1"], rfl⟩
  · have hpath : indexPath toLowercase name = some (["2"] ++ [toLowercase name]) := by
      simp only [indexPath, hlen]
      rfl
    have hfront : indexPrefix toLowercase name = some "2" := by simp only [indexPrefix, hlen]
    exact found_in hname (ne_empty_of_byteLen hlen (by omega)) hpath hfront rfl ⟨["2"], rfl⟩
  · obtain ⟨c, hc⟩ := Option.isSome_iff_exists.mp hone
    obtain ⟨rest, hsplit, hbytes⟩ := takeBytes_split hc
    have hslice := slice_first hc
    obtain ⟨hcslash, hcne⟩ := ofList_part hslash hbytes (by omega)
      fun _ h => hsplit ▸ List.mem_append_left rest h
    have hpath : indexPath toLowercase name =
        some (["3", String.ofList c] ++ [toLowercase name]) := by
      simp only [indexPath, hlen, hslice]
      rfl
    have hfront : indexPrefix toLowercase name = some ("3" ++ "/" ++ String.ofList c) := by
      simp only [indexPrefix, hlen, hslice]
      rfl
    have hthree : '/' ∉ "3".toList := by decide
    refine found_in hname (ne_empty_of_byteLen hlen (by omega)) hpath hfront ?_ ?_
    · rw [place_names hthree (by decide) hcslash hcne,
        components_pair hthree (by decide) hcslash hcne]
    · rw [place_names hthree (by decide) hcslash hcne]
      exact inside_pair hthree (by decide) (by decide) hcslash
  · obtain ⟨a, ha⟩ := Option.isSome_iff_exists.mp htwo
    obtain ⟨u, hu⟩ := Option.isSome_iff_exists.mp hfour
    obtain ⟨b, more, -, hsplit, halen, hblen, hnext⟩ := slice_next ha hu (by omega)
    have hfirst := slice_first ha
    obtain ⟨haslash, hane⟩ := ofList_part hslash halen (by omega) fun _ h =>
      hsplit ▸ List.mem_append_left more (List.mem_append_left b h)
    obtain ⟨hbslash, hbne⟩ := ofList_part hslash hblen (by omega) fun _ h =>
      hsplit ▸ List.mem_append_left more (List.mem_append_right a h)
    have hadots : String.ofList a ≠ ".." := by
      intro hdots
      have hchars : a = ['.', '.'] := by rw [← String.toList_ofList (l := a), hdots]; rfl
      refine hname.2.2.2 ⟨hlen, b ++ more, ?_⟩
      rw [hsplit, hchars, List.append_assoc]
    have hadot : String.ofList a ≠ "." := by
      intro hdot
      have hchars : a = ['.'] := by rw [← String.toList_ofList (l := a), hdot]; rfl
      rw [hchars] at halen
      cases halen
    have hpath : indexPath toLowercase name =
        some ([String.ofList a, String.ofList b] ++ [toLowercase name]) := by
      rw [indexPath_long hlen, hfirst, hnext]
      rfl
    have hfront : indexPrefix toLowercase name =
        some (String.ofList a ++ "/" ++ String.ofList b) := by
      rw [indexPrefix_long hlen, hfirst, hnext]
      rfl
    have hne : toLowercase name ≠ "" := ne_empty_of_byteLen rfl (by omega)
    refine found_in hname hne hpath hfront ?_ ?_
    · rw [place_names haslash hane hbslash hbne, components_pair haslash hane hbslash hbne]
    · rw [place_names haslash hane hbslash hbne]
      exact inside_pair haslash hadots hadot hbslash

/-- The name of a package that they find is the last one of the place. -/
theorem Found.last (h : Found toLowercase dir name l) : l.names.getLast? =
    some (toLowercase name) := by
  obtain ⟨front, -, rfl⟩ := h.shard
  exact List.getLast?_concat

theorem slice_some {m n : Nat} (h : slice s m n = some t) :
    (takeBytes m s.toList).isSome ∧ (takeBytes n s.toList).isSome := by
  obtain ⟨front, hfront, h⟩ := Option.bind_eq_some_iff.mp h
  obtain ⟨upto, hupto, -⟩ := Option.bind_eq_some_iff.mp h
  rw [hfront, hupto]
  exact ⟨rfl, rfl⟩

theorem le_of_takeBytes {n : Nat} (h : (takeBytes n cs).isSome) : n ≤ byteLen cs := by
  obtain ⟨front, hfront⟩ := Option.isSome_iff_exists.mp h
  obtain ⟨rest, rfl, hlen⟩ := takeBytes_split hfront
  rw [compiler.lexer.byteLen_append]
  omega

theorem Found.cut (h : Found toLowercase dir name l) : Cut (toLowercase name) := by
  obtain ⟨front, hfront, -⟩ := h.shard
  unfold indexPrefix at hfront
  dsimp only at hfront
  unfold Cut
  split at hfront
  · rename_i hlen
    exact .inl hlen
  · rename_i hlen
    exact .inr (.inl hlen)
  · rename_i hlen
    obtain ⟨c, hc, -⟩ := Option.bind_eq_some_iff.mp hfront
    exact .inr (.inr (.inl ⟨hlen, (slice_some hc).2⟩))
  · obtain ⟨a, ha, hfront⟩ := Option.bind_eq_some_iff.mp hfront
    obtain ⟨b, hb, -⟩ := Option.bind_eq_some_iff.mp hfront
    obtain ⟨htwo, hfour⟩ := slice_some hb
    exact .inr (.inr (.inr ⟨le_of_takeBytes hfour, htwo, hfour⟩))

/-- Two dots in front lead out of the index, and no shard leads back: its name is not `index`. -/
theorem climbs_out (D : Location) {names : List String} {b : String} (lower : String)
    (hslash : '/' ∉ b.toList)
    (hlen : byteLen b.toList = 2) :
    (D.step b).descend [lower] ≠ (D.descend ["index"]).descend names ∨ names = [] := by
  by_cases hnil : names = []
  · exact .inr hnil
  refine .inl fun heq => ?_
  have hnames : (D.step b).names ++ [lower] = D.names ++ ["index"] ++ names :=
    congrArg Location.names heq
  have hpos := List.length_pos_of_ne_nil hnil
  by_cases hup : b = ".."
  · subst hup
    have hshort : (D.step "..").names.length ≤ D.names.length :=
      (climb_above (.refl D)).names.length_le
    have hlength := congrArg List.length hnames
    simp only [List.length_append, List.length_singleton] at hlength
    omega
  · have hhere : b ≠ "." := by
      rintro rfl
      cases hlen
    rw [step_nameable hslash hhere hup] at hnames
    have hsecond := congrArg (fun l => l[D.names.length]?) hnames
    simp only [descend, List.append_assoc, List.getElem?_append_right (Nat.le_refl _), Nat.sub_self,
      List.singleton_append, List.getElem?_cons_zero, Option.some.injEq] at hsecond
    subst hsecond
    cases hlen

theorem Found.nameable (h : Found toLowercase dir name l) : Nameable (toLowercase name) := by
  have hmem : toLowercase name ∈ l.names := List.mem_of_getLast? h.last
  obtain ⟨pieces, hpath, hplace⟩ := h.path
  have hslash : '/' ∉ (toLowercase name).toList :=
    (hplace ▸ place_unslashed (indexDir_unslashed dir) pieces) _ hmem
  obtain ⟨-, hdot, hdots⟩ := (hplace ▸ place_plain (indexDir_plain dir) pieces) _ hmem
  refine ⟨hslash, hdot, hdots, ?_⟩
  rintro ⟨hlen, after, hleads⟩
  have hne : toLowercase name ≠ "" := ne_empty_of_byteLen rfl (by omega)
  rw [indexPath_long hlen] at hpath
  obtain ⟨first, hfirst, hpath⟩ := Option.bind_eq_some_iff.mp hpath
  obtain ⟨second, hsecond, hpath⟩ := Option.bind_eq_some_iff.mp hpath
  cases hpath
  obtain ⟨htwo, hfour⟩ := slice_some hsecond
  have htake : takeBytes 2 (toLowercase name).toList = some ['.', '.'] := by
    have hsize : '.'.utf8Size = 1 := rfl
    rw [← hleads, List.cons_append, List.cons_append, List.nil_append]
    simp [takeBytes, hsize]
  obtain ⟨u, hu⟩ := Option.isSome_iff_exists.mp hfour
  obtain ⟨b, more, -, hsplit, -, hblen, hnext⟩ := slice_next htake hu (by omega)
  have hdotted : first = ".." := by
    rw [slice_first htake] at hfirst
    exact (Option.some.inj hfirst).symm
  obtain rfl : String.ofList b = second := Option.some.inj (hnext.symm.trans hsecond)
  obtain ⟨hbslash, hbne⟩ := ofList_part hslash hblen (by omega) fun _ h =>
    hsplit ▸ List.mem_append_left more (List.mem_append_right _ h)
  obtain ⟨names, hnames, hinside⟩ := h.inside
  have hup : locateFrom (indexDir dir) [".."] = (locate (components dir)).descend [] :=
    climb_descend _ [] "index"
  have hdir : (locate (components dir)).descend [] = locate (components dir) := by simp [descend]
  have hfront : place (indexDir dir) [first, String.ofList b] =
      (locate (components dir)).step (String.ofList b) := by
    rw [hdotted, place_names (by decide) (by decide) hbslash hbne]
    exact congrArg (Location.step · (String.ofList b)) (hup.trans hdir)
  have hl : l = ((locate (components dir)).step (String.ofList b)).descend [toLowercase name] := by
    rw [← hplace, ← step_nameable hslash hdot hdots, ← hfront]
    exact place_concat [first, String.ofList b] hslash hne
  rcases climbs_out (locate (components dir)) (toLowercase name) hbslash
    (by rwa [String.toList_ofList]) with hout | hout
  · exact hout (hl.symm.trans hinside)
  · exact hnames hout

/-- `HttpRegistry`, the local registry, the server and the store find two packages below the
directory of the index, each at one place and apart unless their names are equal up to letter case,
exactly when both names are cut between characters and are nothing but names. -/
theorem found_apart_iff (toLowercase : String → String) (dir name other : String) :
    (∃ l m, Found toLowercase dir name l ∧ Found toLowercase dir other m ∧
      (l = m → toLowercase name = toLowercase other)) ↔
      (Cut (toLowercase name) ∧ Nameable (toLowercase name)) ∧
        (Cut (toLowercase other) ∧ Nameable (toLowercase other)) := by
  constructor
  · rintro ⟨l, m, hl, hm, -⟩
    exact ⟨⟨hl.cut, hl.nameable⟩, hm.cut, hm.nameable⟩
  · rintro ⟨⟨hcut, hname⟩, hcut', hname'⟩
    obtain ⟨l, hl⟩ : ∃ l, Found toLowercase dir name l := found_of_nameable hcut hname
    obtain ⟨m, hm⟩ : ∃ m, Found toLowercase dir other m := found_of_nameable hcut' hname'
    refine ⟨l, m, hl, hm, ?_⟩
    rintro rfl
    exact Option.some.inj (hl.last.symm.trans hm.last)

/-- A name of two characters of three bytes is cut inside the first, and one that begins with two
dots is put beside the index. -/
theorem names_lead_astray : indexPath id "日本" = none ∧ indexPrefix id "日本" = none ∧
    indexPath id "..ab" = some ["..", "ab", "..ab"] ∧
    place (indexDir "/reg") ["..", "ab", "..ab"] = ⟨true, 0, ["reg", "ab", "..ab"]⟩ := by
  refine ⟨?_, ?_, ?_, ?_⟩
  · decide
  · decide
  · decide
  · decide

end pkg.registry
