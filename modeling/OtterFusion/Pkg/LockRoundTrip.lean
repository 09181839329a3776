-- The round trip of lockfiles: a lockfile is read back, up to the order of `to_toml`, exactly when
-- its strings have no control characters besides tabs and its git URLs no hash.
import OtterFusion.Pkg.LockText

open base.trapping base.toml

namespace pkg

/-! ## Sources -/

/-- The URL of a git source has no hash. -/
def LockSource.Unambiguous : LockSource → Prop
  | .git url _ => '#' ∉ url.toList
  | _ => True

instance : (s : LockSource) → Decidable s.Unambiguous
  | .git url _ => inferInstanceAs (Decidable ('#' ∉ url.toList))
  | .registry _ => .isTrue trivial
  | .path _ => .isTrue trivial

/-- What a source is read back as: a git URL ends at its first hash. -/
def LockSource.reread : LockSource → LockSource
  | .git url rev =>
    match splitHash (url ++ "#" ++ rev) with
    | some (url, rev) => .git url rev
    | none => .git url rev
  | s => s

theorem isPrefixOf?_append (front s : List Char) : front.isPrefixOf? (front ++ s) = some s := by
  induction front with
  | nil =>
    cases s with
    | nil => rfl
    | cons c s => rfl
  | cons c front ih =>
    rw [List.cons_append]
    unfold List.isPrefixOf?
    rw [if_pos (beq_self_eq_true c), ih]

theorem stripPrefix_append (front s : String) : stripPrefix (front ++ s) front = some s := by
  unfold stripPrefix
  rw [String.toList_append, isPrefixOf?_append, Option.map_some, String.ofList_toList]

/-- A text that starts with another character does not start with a prefix. -/
theorem stripPrefix_none (front : String) {s : String} {c d : Char} {cs ds : List Char}
    (hfront : front.toList = c :: cs) (hs : s.toList = d :: ds) (hcd : c ≠ d) :
    stripPrefix s front = none := by
  unfold stripPrefix
  rw [hfront, hs]
  unfold List.isPrefixOf?
  rw [if_neg (by simpa using hcd)]
  rfl

/-- The parts around the first hash. -/
theorem splitHash_hash (url rev : String) : ∃ front back, splitHash (url ++ "#" ++ rev) =
    some (front, back) ∧ front ++ "#" ++ back = url ++ "#" ++ rev ∧
      (front = url ↔ '#' ∉ url.toList) := by
  have hlist : (url ++ "#" ++ rev).toList = url.toList ++ '#' :: rev.toList := by
    rw [String.toList_append, String.toList_append, List.append_assoc]
    rfl
  have hmem : '#' ∈ url.toList ++ '#' :: rev.toList :=
    List.mem_append_right _ List.mem_cons_self
  have hsplit := List.takeWhile_append_dropWhile (p := (· ≠ '#'))
    (l := url.toList ++ '#' :: rev.toList)
  unfold splitHash
  rw [hlist]
  cases hdrop : (url.toList ++ '#' :: rev.toList).dropWhile (· ≠ '#') with
  | nil =>
    have hall := List.dropWhile_eq_nil_iff.mp hdrop _ hmem
    exact absurd hall (by decide)
  | cons c next =>
    have hc : c = '#' := by
      have hhead := List.head?_dropWhile_not (· ≠ '#') (url.toList ++ '#' :: rev.toList)
      rw [hdrop] at hhead
      simpa using hhead
    subst hc
    refine ⟨_, _, rfl, ?_, ?_⟩
    · rw [hdrop] at hsplit
      apply String.toList_inj.mp
      rw [hlist, String.toList_append, String.toList_append, String.toList_ofList,
        List.append_assoc, String.toList_ofList]
      rw [String.toList_ofList]
      exact hsplit
    · constructor
      · intro hurl hhash
        have hall := List.mem_takeWhile_imp (p := (· ≠ '#')) (l := url.toList ++ '#' :: rev.toList)
          (x := '#') (by rw [← hurl, String.toList_ofList] at hhash; exact hhash)
        exact absurd hall (by decide)
      · intro hhash
        have hurl : ∀ c ∈ url.toList, decide (c ≠ '#') = true := by
          intro c hc
          rw [decide_eq_true_iff]
          rintro rfl
          exact hhash hc
        rw [List.takeWhile_append_of_pos hurl, List.takeWhile_cons_of_neg (by decide),
          List.append_nil, String.ofList_toList]

theorem encode_git (url rev : String) :
    (LockSource.git url rev).encode = "git+" ++ (url ++ "#" ++ rev) := by
  show "git+" ++ url ++ "#" ++ rev = _
  rw [String.append_assoc, String.append_assoc, String.append_assoc]

/-- An encoded source is decoded, perhaps into another one. -/
theorem decode_encode (s : LockSource) : LockSource.decode s.encode = .ok s.reread := by
  unfold LockSource.decode
  cases s with
  | registry index =>
    unfold LockSource.encode
    rw [stripPrefix_append]
    rfl
  | path p =>
    unfold LockSource.encode
    rw [stripPrefix_none "registry+" rfl (String.toList_append ..) (by decide),
      stripPrefix_append]
    rfl
  | git url rev =>
    obtain ⟨front, back, hsplit, _⟩ := splitHash_hash url rev
    have hlist : ("git+" ++ (url ++ "#" ++ rev)).toList = 'g' :: ("it+".toList ++
        (url ++ "#" ++ rev).toList) := String.toList_append
    rw [encode_git, stripPrefix_none "registry+" rfl hlist (by decide),
      stripPrefix_none "path+" rfl hlist (by decide), stripPrefix_append]
    unfold LockSource.reread
    dsimp only
    rw [hsplit]

/-- The source that is read back has the same string. -/
theorem encode_reread (s : LockSource) : s.reread.encode = s.encode := by
  cases s with
  | registry index => rfl
  | path p => rfl
  | git url rev =>
    obtain ⟨front, back, hsplit, hsame, _⟩ := splitHash_hash url rev
    unfold LockSource.reread
    dsimp only
    rw [hsplit]
    dsimp only
    rw [encode_git, encode_git, hsame]

theorem reread_eq_iff (s : LockSource) : s.reread = s ↔ s.Unambiguous := by
  cases s with
  | registry index => exact ⟨fun _ => trivial, fun _ => rfl⟩
  | path p => exact ⟨fun _ => trivial, fun _ => rfl⟩
  | git url rev =>
    obtain ⟨front, back, hsplit, hsame, hfront⟩ := splitHash_hash url rev
    unfold LockSource.reread LockSource.Unambiguous
    dsimp only
    rw [hsplit]
    dsimp only
    rw [← hfront, LockSource.git.injEq]
    constructor
    · intro h
      exact h.1
    · intro h
      subst h
      refine ⟨rfl, ?_⟩
      have hlist := congrArg String.toList hsame
      simp only [String.toList_append] at hlist
      exact String.toList_inj.mp (List.append_cancel_left hlist)

/-! ## Written packages -/

/-- The strings of a package as entries. -/
def LockedPackage.entries (p : LockedPackage) : List Entry :=
  [⟨"name".toList, "     ".toList, p.name.toList⟩,
    ⟨"version".toList, "  ".toList, p.version.toList⟩,
    ⟨"source".toList, "   ".toList, p.source.encode.toList⟩] ++
    p.checksum.toList.map fun c => ⟨"checksum".toList, " ".toList, c.toList⟩

/-- The table that a package is read as. -/
def LockedPackage.table (p : LockedPackage) : List Char × Table :=
  ("package".toList, p.entries.map fun e => (e.key, .string e.text))

/-- The strings of a package have no control characters besides tabs. -/
def LockedPackage.Plain (p : LockedPackage) : Prop :=
  ∀ e ∈ p.entries, ∀ c ∈ e.text, isControl c = false

instance (p : LockedPackage) : Decidable p.Plain :=
  @List.decidableBAll _ (fun e : Entry => ∀ c ∈ e.text, isControl c = false)
    (fun e => List.decidableBAll _ e.text) p.entries

theorem replace_toList (s : String) (c : Char) (new : String) : (replace s c new).toList =
    s.toList.flatMap fun d => if d = c then new.toList else [d] :=
  String.toList_ofList

/-- `toml_str` is a quoted and escaped text. -/
theorem tomlStr_toList (s : String) : (tomlStr s).toList = '"' :: (escaped s.toList ++ ['"']) := by
  have hboth : ∀ l : List Char,
      (l.flatMap fun d => if d = '\\' then "\\\\".toList else [d]).flatMap
        (fun d => if d = '"' then "\\\"".toList else [d]) = escaped l := by
    intro l
    induction l with
    | nil => rfl
    | cons c l ih =>
      rw [List.flatMap_cons, List.flatMap_append, ih, escaped_cons]
      congr 1
      by_cases hbackslash : c = '\\'
      · rw [if_pos hbackslash, if_pos (.inr hbackslash), hbackslash]
        rfl
      · rw [if_neg hbackslash, List.flatMap_singleton]
        by_cases hquote : c = '"'
        · rw [if_pos hquote, if_pos (.inl hquote), hquote]
          rfl
        · rw [if_neg hquote, if_neg (not_or.mpr ⟨hquote, hbackslash⟩)]
  unfold tomlStr
  simp only [String.toList_append]
  rw [replace_toList, replace_toList, hboth]
  rfl

/-- The text of a package is a header and its entries. -/
theorem toToml_toList (p : LockedPackage) : p.toToml.toList =
    '\n' :: '[' :: '[' :: ("package".toList ++ ']' :: ']' :: '\n' :: entryLines p.entries) := by
  unfold LockedPackage.toToml LockedPackage.entries
  cases p.checksum with
  | none =>
    simp only [String.toList_append, tomlStr_toList]
    simp [entryLines, stringLine]
  | some c =>
    simp only [String.toList_append, tomlStr_toList]
    simp [entryLines, stringLine]

theorem entries_fit (p : LockedPackage) : ∀ e ∈ p.entries, IsKey e.key ∧ IsPad e.pad := by
  unfold LockedPackage.entries
  intro e he
  rcases List.mem_append.mp he with he | he
  · simp only [List.mem_cons, List.not_mem_nil, or_false] at he
    rcases he with rfl | rfl | rfl
    · exact ⟨by dsimp only; decide, by dsimp only; decide⟩
    · exact ⟨by dsimp only; decide, by dsimp only; decide⟩
    · exact ⟨by dsimp only; decide, by dsimp only; decide⟩
  · obtain ⟨c, _, rfl⟩ := List.mem_map.mp he
    exact ⟨by dsimp only; decide, by dsimp only; decide⟩

theorem entries_nodup (p : LockedPackage) : (p.entries.map Entry.key).Nodup := by
  unfold LockedPackage.entries
  cases p.checksum with
  | none =>
    show ["name".toList, "version".toList, "source".toList].Nodup
    decide
  | some c =>
    show ["name".toList, "version".toList, "source".toList, "checksum".toList].Nodup
    decide

/-- A package without control characters is one table more. -/
theorem readFrom_package {p : LockedPackage} {d : Document} {rest : List Char}
    (hroot : "package".toList ∉ d.root.map Prod.fst) (h : p.Plain) :
    readFrom d (p.toToml.toList ++ rest) = readFrom ⟨d.root, p.table :: d.tables⟩ rest := by
  have hkey : IsKey "package".toList := by decide
  have htable : d.addTable "package".toList =
      .value ⟨d.root, ("package".toList, []) :: d.tables⟩ := if_neg hroot
  rw [toToml_toList]
  simp only [List.cons_append, List.append_assoc]
  rw [readFrom_blank, readFrom_header hkey, htable, Ending.value_bind,
    readFrom_entries (entries_fit p) (by simpa using entries_nodup p) h]
  rfl

/-- A package with a control character is no TOML. -/
theorem readFrom_package_control {p : LockedPackage} {d : Document} {rest : List Char}
    (hroot : "package".toList ∉ d.root.map Prod.fst) (h : ¬p.Plain) :
    ∃ e, readFrom d (p.toToml.toList ++ rest) = .error e := by
  have hkey : IsKey "package".toList := by decide
  have htable : d.addTable "package".toList =
      .value ⟨d.root, ("package".toList, []) :: d.tables⟩ := if_neg hroot
  have hdirty : ∃ e ∈ p.entries, ∃ c ∈ e.text, isControl c = true := by
    simpa [LockedPackage.Plain] using h
  have hentries : ∃ x, readFrom ⟨d.root, ("package".toList, []) :: d.tables⟩
      (entryLines p.entries ++ rest) = .error x :=
    readFrom_entries_control (entries_fit p) (by simpa using entries_nodup p) hdirty
  obtain ⟨x, hx⟩ := hentries
  refine ⟨x, ?_⟩
  rw [toToml_toList]
  simp only [List.cons_append, List.append_assoc]
  rw [readFrom_blank, readFrom_header hkey, htable, Ending.value_bind, hx]

/-! ## Written lockfiles -/

/-- The texts of packages one after another. -/
def packagesText (packages : List LockedPackage) : List Char :=
  packages.flatMap fun p => p.toToml.toList

theorem readFrom_packages {packages : List LockedPackage} {d : Document}
    (hroot : "package".toList ∉ d.root.map Prod.fst) (h : ∀ p ∈ packages, p.Plain) :
    readFrom d (packagesText packages) =
      .value ⟨d.root, (packages.map LockedPackage.table).reverse ++ d.tables⟩ := by
  induction packages generalizing d with
  | nil => rfl
  | cons p packages ih =>
    obtain ⟨hp, hrest⟩ := List.forall_mem_cons.mp h
    unfold packagesText at ih ⊢
    rw [List.flatMap_cons, readFrom_package hroot hp,
      ih (d := ⟨d.root, p.table :: d.tables⟩) hroot hrest,
      List.map_cons, List.reverse_cons, List.append_assoc]
    rfl

theorem readFrom_packages_control {packages : List LockedPackage} {d : Document}
    (hroot : "package".toList ∉ d.root.map Prod.fst) (h : ¬∀ p ∈ packages, p.Plain) :
    ∃ e, readFrom d (packagesText packages) = .error e := by
  induction packages generalizing d with
  | nil => exact absurd (List.forall_mem_nil _) h
  | cons p packages ih =>
    unfold packagesText at ih ⊢
    rw [List.flatMap_cons]
    by_cases hp : p.Plain
    · rw [readFrom_package hroot hp]
      exact ih (d := ⟨d.root, _⟩) hroot fun hrest => h (List.forall_mem_cons.mpr ⟨hp, hrest⟩)
    · exact readFrom_package_control hroot hp

/-- The comment and the version of a lockfile, and its packages. -/
theorem lockfile_toList (l : Lockfile) : l.toToml.toList =
    '#' :: (" This file is generated by otter_fusion; do not edit.".toList ++ '\n' ::
      ("version".toList ++ (' ' :: '=' :: ' ' :: (Nat.toDigits 10 l.version ++ '\n' ::
        packagesText l.sort.packages)))) := by
  have hfold : ∀ (packages : List LockedPackage) (out : String),
      (packages.foldl (fun out p => out ++ p.toToml) out).toList =
        out.toList ++ packagesText packages := by
    intro packages
    induction packages with
    | nil =>
      intro out
      exact (List.append_nil _).symm
    | cons p packages ih =>
      intro out
      rw [List.foldl_cons, ih, String.toList_append, List.append_assoc]
      rfl
  unfold Lockfile.toToml
  rw [hfold]
  simp only [String.toList_append, Nat.toString_eq_repr, Nat.toList_repr]
  simp

/-- The root of a written lockfile. -/
def lockRoot (version : Nat) : Table := [("version".toList, .integer version)]

/-- A written lockfile is read from its packages on. -/
theorem read_toToml {l : Lockfile} (hversion : l.version < 2 ^ 32) :
    base.toml.read l.toToml.toList =
      readFrom ⟨lockRoot l.version, []⟩ (packagesText l.sort.packages) := by
  have hcomment : ∀ c ∈ " This file is generated by otter_fusion; do not edit.".toList,
      isControl c = false := @of_decide_eq_true _ (List.decidableBAll _ _) rfl
  have hkey : IsKey "version".toList := by decide
  unfold base.toml.read
  rw [lockfile_toList, readFrom_comment hcomment,
    readFrom_integer hkey (hversion.trans (by decide))]
  rfl

/-- A package as `serde` sees it. -/
def LockedPackage.raw (p : LockedPackage) : RawLockPackage :=
  ⟨p.name, p.version, p.source.encode, p.checksum⟩

theorem ofTable_table (p : LockedPackage) : RawLockPackage.ofTable p.table.2 = some p.raw := by
  obtain ⟨name, version, source, checksum⟩ := p
  have hstring : ∀ s : String, String.ofList s.toList = s := fun _ => String.ofList_toList
  cases checksum with
  | none =>
    show some (RawLockPackage.mk (String.ofList name.toList) (String.ofList version.toList)
      (String.ofList source.encode.toList) none) = _
    rw [hstring, hstring, hstring]
    rfl
  | some c =>
    show some (RawLockPackage.mk (String.ofList name.toList) (String.ofList version.toList)
      (String.ofList source.encode.toList) (some (String.ofList c.toList))) = _
    rw [hstring, hstring, hstring, hstring]
    rfl

/-- The shape of a written lockfile. -/
theorem ofDocument_written {version : Nat} (hversion : version < 2 ^ 32)
    (packages : List LockedPackage) :
    RawLock.ofDocument ⟨lockRoot version, (packages.map LockedPackage.table).reverse⟩ =
      some ⟨version, packages.map LockedPackage.raw⟩ := by
  have hfilter : ((packages.map LockedPackage.table).reverse.filter
      fun t => t.1 = "package".toList).reverse = packages.map LockedPackage.table := by
    rw [List.filter_eq_self.mpr, List.reverse_reverse]
    intro t ht
    obtain ⟨p, _, rfl⟩ := List.mem_map.mp (List.mem_reverse.mp ht)
    rfl
  have htables : ∀ packages : List LockedPackage, (packages.map LockedPackage.table).mapM
      (fun t => RawLockPackage.ofTable t.2) = some (packages.map LockedPackage.raw) := by
    intro packages
    induction packages with
    | nil => rfl
    | cons p packages ih =>
      rw [List.map_cons, List.mapM_cons, ofTable_table, ih]
      rfl
  have hroot : (lockRoot version).lookup "version".toList = some (.integer version) := rfl
  have hnone : (lockRoot version).lookup "package".toList = none := rfl
  have hname : ∀ p : LockedPackage, p.table.1 ≠ "version".toList := fun _ =>
    show "package".toList ≠ "version".toList by decide
  have hnames : ¬((none : Option Value) ≠ none ∨
      (packages.map LockedPackage.table).reverse.any fun t => t.1 = "version".toList) := by
    rintro (hne | hany)
    · exact hne rfl
    · obtain ⟨t, ht, heq⟩ := List.any_eq_true.mp hany
      obtain ⟨p, _, rfl⟩ := List.mem_map.mp (List.mem_reverse.mp ht)
      exact hname p (of_decide_eq_true heq)
  unfold RawLock.ofDocument
  dsimp only
  rw [hroot, hnone, hfilter, htables]
  dsimp only
  rw [if_pos hversion, Option.bind_eq_bind, Option.bind_some, if_neg hnames]
  rfl

/-! ## The round trip -/

/-- A package with the source it is read back with. -/
def LockedPackage.reread (p : LockedPackage) : LockedPackage :=
  { p with source := p.source.reread }

theorem locked_raw (packages : List LockedPackage) :
    (packages.map LockedPackage.raw).mapM RawLockPackage.locked =
      .ok (packages.map LockedPackage.reread) := by
  induction packages with
  | nil => rfl
  | cons p packages ih =>
    rw [List.map_cons, List.mapM_cons, ih]
    unfold LockedPackage.raw RawLockPackage.locked
    dsimp only
    rw [decode_encode]
    rfl

theorem key_reread (p : LockedPackage) : p.reread.key = p.key := by
  unfold LockedPackage.key LockedPackage.reread
  rw [encode_reread]

/-- The packages are in order after a sort, and reading them back keeps their keys. -/
theorem sort_reread (l : Lockfile) :
    (⟨l.version, l.sort.packages.map LockedPackage.reread⟩ : Lockfile).sort =
      ⟨l.version, l.sort.packages.map LockedPackage.reread⟩ := by
  have hsorted : (l.packages.mergeSort fun a b => decide (a.key ≤ b.key)).Pairwise
      fun a b => decide (a.key ≤ b.key) = true := by
    refine List.pairwise_mergeSort (fun a b c hab hbc => ?_) (fun a b => ?_) l.packages
    · exact decide_eq_true (le_trans (of_decide_eq_true hab) (of_decide_eq_true hbc))
    · rw [Bool.or_eq_true, decide_eq_true_iff, decide_eq_true_iff]
      exact le_total a.key b.key
  unfold Lockfile.sort
  dsimp only
  rw [List.mergeSort_of_pairwise]
  rw [List.pairwise_map]
  simpa only [key_reread] using hsorted

/-- A lockfile without control characters is read back with the sources that its strings say. -/
theorem parse_plain {fromStr : String → Except String RawLock} (hread : ReadsToml fromStr)
    {l : Lockfile} (hversion : l.version < 2 ^ 32) (h : ∀ p ∈ l.packages, p.Plain) :
    Lockfile.parse fromStr l.toToml =
      .ok ⟨l.version, l.sort.packages.map LockedPackage.reread⟩ := by
  have hplain : ∀ p ∈ l.sort.packages, p.Plain := fun p hp => h p (List.mem_mergeSort.mp hp)
  have hroot : "package".toList ∉ (lockRoot l.version).map Prod.fst := by
    show "package".toList ∉ ["version".toList]
    decide
  have hdocument := read_toToml hversion
  rw [readFrom_packages (d := ⟨lockRoot l.version, []⟩) hroot hplain, List.append_nil]
    at hdocument
  have hraw := (hread.document _ _ hdocument _).mpr (ofDocument_written hversion _)
  unfold Lockfile.parse
  rw [hraw]
  show ((l.sort.packages.map LockedPackage.raw).mapM RawLockPackage.locked >>= fun packages =>
    pure (Lockfile.sort ⟨l.version, packages⟩)) = _
  rw [locked_raw]
  exact congrArg Except.ok (sort_reread l)

/-- A lockfile with a control character is not read back. -/
theorem parse_control {fromStr : String → Except String RawLock} (hread : ReadsToml fromStr)
    {l : Lockfile} (hversion : l.version < 2 ^ 32) (h : ¬∀ p ∈ l.packages, p.Plain)
    (l' : Lockfile) : Lockfile.parse fromStr l.toToml ≠ .ok l' := by
  have hplain : ¬∀ p ∈ l.sort.packages, p.Plain := fun hall =>
    h fun p hp => hall p (List.mem_mergeSort.mpr hp)
  have hroot : "package".toList ∉ (lockRoot l.version).map Prod.fst := by
    show "package".toList ∉ ["version".toList]
    decide
  obtain ⟨e, he⟩ := readFrom_packages_control (d := ⟨lockRoot l.version, []⟩) hroot hplain
  rw [← read_toToml hversion] at he
  unfold Lockfile.parse
  cases hraw : fromStr l.toToml with
  | ok raw => exact absurd hraw (hread.malformed _ _ he raw)
  | error m => exact nofun

/-- Each source is decoded as itself exactly when it is unambiguous, and each lockfile is read back
sorted exactly when its strings are plain and its sources unambiguous. -/
theorem round_trip_iff (fromStr : String → Except String RawLock) (hread : ReadsToml fromStr) :
    (∀ s : LockSource, LockSource.decode s.encode = .ok s ↔ s.Unambiguous) ∧
      ∀ l : Lockfile, l.version < 2 ^ 32 →
        (Lockfile.parse fromStr l.toToml = .ok l.sort ↔
          ∀ p ∈ l.packages, p.Plain ∧ p.source.Unambiguous) := by
  constructor
  · intro s
    rw [decode_encode, ← reread_eq_iff, Except.ok.injEq]
  · intro l hversion
    constructor
    · intro h
      have hplain : ∀ p ∈ l.packages, p.Plain := by
        by_contra hnot
        exact parse_control hread hversion hnot _ h
      rw [parse_plain hread hversion hplain] at h
      have hpackages : l.sort.packages.map LockedPackage.reread = l.sort.packages :=
        congrArg Lockfile.packages (Except.ok.inj h)
      intro p hp
      refine ⟨hplain p hp, ?_⟩
      have hsame : p.reread = p :=
        List.map_inj_left.mp (hpackages.trans (List.map_id _).symm) p (List.mem_mergeSort.mpr hp)
      exact (reread_eq_iff _).mp (congrArg LockedPackage.source hsame)
    · intro h
      rw [parse_plain hread hversion fun p hp => (h p hp).1]
      have hpackages : l.sort.packages.map LockedPackage.reread = l.sort.packages := by
        refine (List.map_congr_left fun p hp => ?_).trans (List.map_id _)
        unfold LockedPackage.reread
        rw [(reread_eq_iff _).mpr (h p (List.mem_mergeSort.mp hp)).2]
        rfl
      rw [hpackages]
      rfl

/-- The reader as a `toml::from_str`. -/
def readLock (text : String) : Except String RawLock :=
  match base.toml.read text.toList with
  | .value d => match RawLock.ofDocument d with
    | some raw => .ok raw
    | none => .error "no lockfile"
  | _ => .error "no TOML"

theorem readLock_readsToml : ReadsToml readLock where
  document text d h raw := by
    unfold readLock
    rw [h]
    dsimp only
    cases RawLock.ofDocument d with
    | none => exact ⟨nofun, nofun⟩
    | some r =>
      dsimp only
      rw [Except.ok.injEq, Option.some.injEq]
  malformed text e h raw := by
    unfold readLock
    rw [h]
    exact nofun

/-- A lockfile with a git package, a path with a backslash and a tab in a name. -/
theorem round_trip_sample :
    Lockfile.parse readLock (Lockfile.mk 4
      [⟨"serde\t", "1.2.7", .git "https://example.com/serde" "a#b", some "sha256:9f"⟩,
        ⟨"local", "0.1.0", .path "..\\local", none⟩]).toToml = .ok (Lockfile.mk 4
      [⟨"serde\t", "1.2.7", .git "https://example.com/serde" "a#b", some "sha256:9f"⟩,
        ⟨"local", "0.1.0", .path "..\\local", none⟩]).sort :=
  ((round_trip_iff readLock readLock_readsToml).2 _ (by decide)).mpr (by decide)

/-- A hash in a URL moves into the revision, and a newline in a path is no TOML. -/
theorem round_trip_fails :
    LockSource.decode (LockSource.git "u#v" "r").encode = .ok (.git "u" "v#r") ∧
      ∀ fromStr, ReadsToml fromStr → ∀ l, Lockfile.parse fromStr
        (Lockfile.mk 4 [⟨"a", "1.0.0", .path "x\ny", none⟩]).toToml ≠ .ok l :=
  ⟨rfl, fun _ hread => parse_control hread (by decide) (by decide)⟩

end pkg
