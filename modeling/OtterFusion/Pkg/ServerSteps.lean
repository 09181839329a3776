-- What one request does to the files of the registry server, and the relation of the files to the
-- package store, which a request that the server does right keeps.
import OtterFusion.Base.Runs
import OtterFusion.Pkg.PackageStore

open base.records base.runs base.shelves

namespace pkg.registry

variable {V R : Type} {lib : Library V R}

/-! ## Paths -/

theorem indexPath_getLast {toLowercase : String → String} {name : String} {path : Path}
    (h : indexPath toLowercase name = some path) : path.getLast? = some (toLowercase name) := by
  unfold indexPath at h
  dsimp only at h
  split at h
  · cases h
    rfl
  · cases h
    rfl
  · cases h
    rfl
  · obtain ⟨_, _, h⟩ := Option.bind_eq_some_iff.mp h
    cases h
    rfl
  · obtain ⟨_, _, h⟩ := Option.bind_eq_some_iff.mp h
    obtain ⟨_, _, h⟩ := Option.bind_eq_some_iff.mp h
    cases h
    rfl

/-- Names share an index file when they have the same lower case. -/
theorem indexPath_eq_iff {name other : String} {path : Path}
    (h : indexPath lib.lower name = some path) :
    indexPath lib.lower other = indexPath lib.lower name ↔ lib.lower other = lib.lower name := by
  constructor
  · intro hsame
    have hlast := indexPath_getLast h
    rw [indexPath_getLast (hsame.trans h)] at hlast
    exact Option.some.inj hlast
  · intro hlower
    unfold indexPath
    rw [hlower]

theorem alone_iff {store : PackageStore V R} {name : String} {v : V} {path : Path}
    (h : indexPath lib.lower name = some path) :
    Alone (indexPath lib.lower) store name v ↔ Sole lib store name v := by
  constructor
  · exact fun halone other hne hlower => halone other hne ((indexPath_eq_iff h).mpr hlower)
  · exact fun hsole other hne hpath => hsole other hne ((indexPath_eq_iff h).mp hpath)

theorem cratePath_inj {name name' version version' : String} :
    cratePath name version = cratePath name' version' ↔ name = name' ∧ version = version' := by
  simp [cratePath]

/-! ## Index files -/

/-- What is listed in a file that was written. -/
theorem listed_indexText (hlib : lib.Documented) (entries : List (IndexEntry V R)) :
    listed lib (some (indexText lib entries)) = entries.map IndexEntry.published := by
  obtain ⟨entries', hparse, hsame⟩ := parseIndex_indexText hlib entries
  show ((parseIndex lib (indexText lib entries)).toOption.getD []).map IndexEntry.published = _
  rw [hparse]
  exact hsame

/-- What a failed write leaves of the index files. -/
def Left (io : Io) (path : Path) (before after : Path → Option String) : Prop :=
  io.indexDir = false ∧ after = before ∨
    ∃ left, io.indexDir = true ∧ io.index = .failed left ∧ after = Function.update before path left

theorem writeEntries_cases (io : Io) (disk : Disk) (path : Path) (entries : List (IndexEntry V R)) :
    io.indexDir = true ∧ io.index = .done ∧ writeEntries lib io disk path entries =
        ({ disk with index := Function.update disk.index path (some (indexText lib entries)) },
          true) ∨
      ∃ after, Left io path disk.index after ∧
        writeEntries lib io disk path entries = ({ disk with index := after }, false) := by
  unfold writeEntries
  by_cases hdir : io.indexDir = true
  · cases hindex : io.index with
    | done => simp [hdir, writeFile]
    | failed left => exact .inr ⟨_, .inr ⟨left, hdir, hindex, rfl⟩, by simp [hdir, writeFile]⟩
  · exact .inr ⟨disk.index, .inl ⟨Bool.eq_false_iff.mpr hdir, rfl⟩, by simp [hdir]⟩

/-- The files list the same after a write that leaves the same in its file. -/
theorem Left.listed_eq {io : Io} {path : Path} {before after : Path → Option String}
    (h : Left io path before after)
    (hleft : ∀ left, io.indexDir = true → io.index = .failed left →
      listed lib left = listed lib (before path)) :
    listed lib ∘ after = listed lib ∘ before := by
  rcases h with ⟨_, rfl⟩ | ⟨left, hdir, hindex, rfl⟩
  · rfl
  · rw [Function.comp_update, hleft left hdir hindex]
    exact Function.update_eq_self path (listed lib ∘ before)

theorem Left.not_written {io : Io} {path : Path} {before after : Path → Option String}
    (h : Left io path before after) : ¬(io.indexDir = true ∧ io.index = .done) := by
  rintro ⟨hdir, hindex⟩
  rcases h with ⟨hdir', _⟩ | ⟨left, _, hindex', _⟩
  · rw [hdir] at hdir'
    cases hdir'
  · rw [hindex] at hindex'
    cases hindex'

/-! ## The invariant -/

/-- The server runs, its index files list what the store has, and each version of the store has a
tarball with its checksum. -/
structure Refines (lib : Library V R) (s : State V R) : Prop where
  running : s.server.running = true
  files : Files (indexPath lib.lower) (listed lib ∘ s.server.disk.index) s.store
  tarballs : ∀ name v r, s.store name v = some r →
    (s.server.disk.crates (cratePath name (lib.sem.showVersion v))).map lib.sha256Hex = some r.cksum

variable {s : State V R} {io : Io} {name version : String} {ver : V}

theorem start_refines (h : Start s) : Refines lib s := by
  subst h
  exact ⟨rfl, files_empty, fun _ _ _ h => by cases h⟩

/-- The versions that are read of an index file differ. -/
theorem Refines.read_nodup (h : Refines lib s) (io : Io) (path : Path) :
    ((readEntries lib (if io.readIndex then s.server.disk.index path else none)).map
      IndexEntry.vers).Nodup := by
  by_cases hread : io.readIndex = true
  · rw [if_pos hread]
    have hdistinct := h.files.distinct path
    simpa [listed, Function.comp_def, IndexEntry.published] using hdistinct
  · rw [if_neg hread]
    exact List.nodup_nil

/-- A name that is alone with the version among the entries that are read. -/
theorem Refines.read_name {path : Path} (h : Refines lib s)
    (hpath : indexPath lib.lower name = some path)
    (hsole : Sole lib s.store name ver) :
    ∀ e ∈ readEntries lib (if io.readIndex then s.server.disk.index path else none),
      e.vers = ver → e.name = name := by
  intro e he hv
  by_cases hread : io.readIndex = true
  · rw [if_pos hread] at he
    have hmem : e.published ∈ listed lib (s.server.disk.index path) := List.mem_map_of_mem he
    exact h.files.name_eq hpath ((alone_iff hpath).mpr hsole) hmem hv
  · rw [if_neg hread] at he
    cases he

/-- A version is what its text is parsed as. -/
theorem version_eq {v : V} (hlib : lib.Documented) (hver : lib.sem.parseVersion version = .ok ver)
    (hv : lib.sem.showVersion v = version) : v = ver := by
  have hparse := (hlib.version _ v).mpr rfl
  rw [hv, hver] at hparse
  exact (Except.ok.inj hparse).symm

/-- A tarball is written, and the index files list what they did. -/
theorem Refines.torn {after : Path → Option String} {content : Option Bytes} (h : Refines lib s)
    (hlib : lib.Documented) (hver : lib.sem.parseVersion version = .ok ver)
    (hafter : listed lib ∘ after = listed lib ∘ s.server.disk.index)
    (hcontent : s.store name ver = none ∨ content.map lib.sha256Hex =
      (s.server.disk.crates (cratePath name version)).map lib.sha256Hex) :
    Refines lib ⟨⟨⟨after, Function.update s.server.disk.crates (cratePath name version) content⟩,
      true⟩, s.store⟩ where
  running := rfl
  files := by
    show Files _ (listed lib ∘ after) s.store
    rw [hafter]
    exact h.files
  tarballs other v r hr := by
    dsimp only at hr ⊢
    have hshow := (hlib.version version ver).mp hver
    by_cases hsame : cratePath other (lib.sem.showVersion v) = cratePath name version
    · obtain ⟨rfl, hv⟩ := cratePath_inj.mp hsame
      obtain rfl := version_eq hlib hver hv
      rcases hcontent with hnone | hsha
      · rw [hnone] at hr
        cases hr
      · rw [hsame, Function.update_self, hsha, ← hshow]
        exact h.tarballs other v r hr
    · rw [Function.update_of_ne hsame]
      exact h.tarballs other v r hr

variable [DecidableEq V]

/-! ## What a request does -/

/-- What `publish` does. -/
inductive PublishEffect (lib : Library V R) (io : Io) (disk : Disk) (name version : String)
    (body : Bytes) : Disk × Option Response → Prop
  | refused {response : Response} (hstatus : response.status ≠ 200) :
    PublishEffect lib io disk name version body (disk, some response)
  | torn {ver : V} {metadata : PublishMetadata R} {tarball : Bytes} {left : Option Bytes}
    {response : Response} (hver : lib.sem.parseVersion version = .ok ver)
    (hbody : decodePublishBody lib name version body = .ok (metadata, tarball))
    (hdir : io.crateDir = true) (htarball : io.tarball = .failed left)
    (hstatus : response.status ≠ 200) :
    PublishEffect lib io disk name version body
      (⟨disk.index, Function.update disk.crates (cratePath name version) left⟩, some response)
  | panicked {ver : V} {metadata : PublishMetadata R} {tarball : Bytes}
    (hver : lib.sem.parseVersion version = .ok ver)
    (hbody : decodePublishBody lib name version body = .ok (metadata, tarball))
    (hdir : io.crateDir = true) (htarball : io.tarball = .done)
    (hpath : indexPath lib.lower name = none) :
    PublishEffect lib io disk name version body
      (⟨disk.index, Function.update disk.crates (cratePath name version) (some tarball)⟩, none)
  | unlisted {ver : V} {metadata : PublishMetadata R} {tarball : Bytes} {path : Path}
    {after : Path → Option String} {response : Response}
    (hver : lib.sem.parseVersion version = .ok ver)
    (hbody : decodePublishBody lib name version body = .ok (metadata, tarball))
    (hdir : io.crateDir = true) (htarball : io.tarball = .done)
    (hpath : indexPath lib.lower name = some path) (hleft : Left io path disk.index after)
    (hstatus : response.status ≠ 200) :
    PublishEffect lib io disk name version body
      (⟨after, Function.update disk.crates (cratePath name version) (some tarball)⟩, some response)
  | stored {ver : V} {metadata : PublishMetadata R} {tarball : Bytes} {path : Path}
    {response : Response} (hver : lib.sem.parseVersion version = .ok ver)
    (hbody : decodePublishBody lib name version body = .ok (metadata, tarball))
    (hdir : io.crateDir = true) (htarball : io.tarball = .done)
    (hpath : indexPath lib.lower name = some path)
    (hwritten : io.indexDir = true ∧ io.index = .done) (hstatus : response.status = 200) :
    PublishEffect lib io disk name version body
      (⟨Function.update disk.index path (some (indexText lib (upsert name ver metadata
          (lib.sha256Hex tarball)
          (readEntries lib (if io.readIndex then disk.index path else none))))),
        Function.update disk.crates (cratePath name version) (some tarball)⟩, some response)

theorem publish_effect (io : Io) (disk : Disk) (name version : String) (body : Bytes) :
    PublishEffect lib io disk name version body (publish lib io disk name version body) := by
  unfold publish
  cases hver : lib.sem.parseVersion version with
  | error e => exact .refused (by simp)
  | ok ver =>
    cases hbody : decodePublishBody lib name version body with
    | error e => exact .refused (by simp)
    | ok decoded =>
      obtain ⟨metadata, tarball⟩ := decoded
      by_cases hdir : io.crateDir = true
      · cases htarball : io.tarball with
        | failed left =>
          simp only [hdir, writeFile, Bool.not_true, Bool.not_false]
          exact .torn hver hbody hdir htarball (by simp)
        | done =>
          simp only [hdir, writeFile, Bool.not_true]
          cases hpath : indexPath lib.lower name with
          | none => exact .panicked hver hbody hdir htarball hpath
          | some path =>
            dsimp only
            rcases writeEntries_cases io ⟨disk.index, _⟩ path (upsert name ver metadata
              (lib.sha256Hex tarball)
              (readEntries lib (if io.readIndex then disk.index path else none)))
              with ⟨hindexDir, hindex, hwrite⟩ | ⟨after, hleft, hwrite⟩
            · rw [hwrite]
              exact .stored hver hbody hdir htarball hpath ⟨hindexDir, hindex⟩ (by simp)
            · rw [hwrite]
              exact .unlisted hver hbody hdir htarball hpath hleft (by simp)
      · simp only [hdir, Bool.not_false]
        exact .refused (by simp)

/-- What `set_yanked` does. -/
inductive YankEffect (lib : Library V R) (io : Io) (disk : Disk) (name version : String)
    (yanked : Bool) : Disk × Option Response → Prop
  | refused {response : Response} (hstatus : response.status ≠ 200) :
    YankEffect lib io disk name version yanked (disk, some response)
  | panicked {ver : V} (hver : lib.sem.parseVersion version = .ok ver)
    (hpath : indexPath lib.lower name = none) :
    YankEffect lib io disk name version yanked (disk, none)
  | unlisted {ver : V} {path : Path} {entries entries' : List (IndexEntry V R)}
    {after : Path → Option String} {response : Response}
    (hver : lib.sem.parseVersion version = .ok ver) (hpath : indexPath lib.lower name = some path)
    (hread : readEntries lib (if io.readIndex then disk.index path else none) = entries)
    (hchange : change IndexEntry.vers ver (fun e => { e with yanked := yanked }) entries =
      some entries')
    (hleft : Left io path disk.index after) (hstatus : response.status ≠ 200) :
    YankEffect lib io disk name version yanked (⟨after, disk.crates⟩, some response)
  | stored {ver : V} {path : Path} {entries entries' : List (IndexEntry V R)} {response : Response}
    (hver : lib.sem.parseVersion version = .ok ver) (hpath : indexPath lib.lower name = some path)
    (hread : readEntries lib (if io.readIndex then disk.index path else none) = entries)
    (hchange : change IndexEntry.vers ver (fun e => { e with yanked := yanked }) entries =
      some entries')
    (hwritten : io.indexDir = true ∧ io.index = .done) (hstatus : response.status = 200) :
    YankEffect lib io disk name version yanked
      (⟨Function.update disk.index path (some (indexText lib entries')), disk.crates⟩,
        some response)

theorem setYanked_effect (io : Io) (disk : Disk) (name version : String) (yanked : Bool) :
    YankEffect lib io disk name version yanked (setYanked lib io disk name version yanked) := by
  unfold setYanked
  cases hver : lib.sem.parseVersion version with
  | error e => exact .refused (by simp)
  | ok ver =>
    cases hpath : indexPath lib.lower name with
    | none => exact .panicked hver hpath
    | some path =>
      dsimp only
      cases hchange : change IndexEntry.vers ver (fun e => { e with yanked := yanked })
        (readEntries lib (if io.readIndex then disk.index path else none)) with
      | none => exact .refused (by simp)
      | some entries =>
        dsimp only
        rcases writeEntries_cases io disk path entries with
          ⟨hindexDir, hindex, hwrite⟩ | ⟨after, hleft, hwrite⟩
        · rw [hwrite]
          exact .stored hver hpath rfl hchange ⟨hindexDir, hindex⟩ (by simp)
        · rw [hwrite]
          exact .unlisted hver hpath rfl hchange hleft (by simp)

/-! ## Entries -/

section entries

variable {name : String} {ver : V} {metadata : PublishMetadata R} {cksum : String}
  {entries entries' : List (IndexEntry V R)}

/-- What is published of entries whose entry for a version is written anew. -/
theorem mem_upsert (hentries : (entries.map IndexEntry.vers).Nodup)
    (hname : ∀ e ∈ entries, e.vers = ver → e.name = name) (r : Row String V (Record R)) :
    r ∈ (upsert name ver metadata cksum entries).map IndexEntry.published ↔
      r = ⟨name, ver, metadata.record cksum⟩ ∨
        r ∈ entries.map IndexEntry.published ∧ r.vers ≠ ver := by
  unfold upsert
  cases hchange : change IndexEntry.vers ver (fun e => { e with
    cksum := cksum, yanked := false, deps := metadata.deps, features := metadata.features })
    entries with
  | none =>
    have habsent := change_eq_none.mp hchange
    have hothers : ∀ r ∈ entries.map IndexEntry.published, r.vers ≠ ver := by
      rintro _ hr
      obtain ⟨e, he, rfl⟩ := List.mem_map.mp hr
      exact habsent e he
    rw [List.map_append, List.mem_append, or_comm]
    apply or_congr
    · exact List.mem_singleton
    · exact ⟨fun hr => ⟨hr, hothers r hr⟩, And.left⟩
  | some changed =>
    obtain ⟨e, he, hver⟩ := exists_of_change hchange
    rw [change_eq_map hentries hchange]
    simp only [List.map_map, List.mem_map, Function.comp_apply]
    constructor
    · rintro ⟨q, hq, rfl⟩
      by_cases hqv : q.vers = ver
      · left
        rw [if_pos hqv]
        simp [IndexEntry.published, PublishMetadata.record, hqv, hname q hq hqv]
      · right
        rw [if_neg hqv]
        exact ⟨⟨q, hq, rfl⟩, hqv⟩
    · rintro (rfl | ⟨⟨q, hq, rfl⟩, hqv⟩)
      · refine ⟨e, he, ?_⟩
        rw [if_pos hver]
        simp [IndexEntry.published, PublishMetadata.record, hver, hname e he hver]
      · exact ⟨q, hq, by rw [if_neg]; exact hqv⟩

theorem upsert_nodup (hentries : (entries.map IndexEntry.vers).Nodup) :
    ((upsert name ver metadata cksum entries).map IndexEntry.vers).Nodup := by
  unfold upsert
  cases hchange : change IndexEntry.vers ver (fun e => { e with
    cksum := cksum, yanked := false, deps := metadata.deps, features := metadata.features })
    entries with
  | none =>
    have habsent := change_eq_none.mp hchange
    simp only [List.map_append, List.map_cons, List.map_nil]
    refine List.nodup_append.mpr ⟨hentries, List.nodup_singleton ver, ?_⟩
    rintro _ hv _ hw rfl
    obtain ⟨e, he, rfl⟩ := List.mem_map.mp hv
    exact habsent e he (List.mem_singleton.mp hw)
  | some changed =>
    dsimp only
    rw [change_eq_map hentries hchange, List.map_map]
    have hkey : (IndexEntry.vers ∘ fun e : IndexEntry V R => if e.vers = ver then { e with
        cksum := cksum, yanked := false, deps := metadata.deps, features := metadata.features }
        else e) = IndexEntry.vers := by
      funext e
      simp only [Function.comp_apply]
      split <;> rfl
    rwa [hkey]

/-- What is published of entries whose entry for a version has another flag. -/
theorem published_yank {yanked : Bool} (hentries : (entries.map IndexEntry.vers).Nodup)
    (h : change IndexEntry.vers ver (fun e => { e with yanked := yanked }) entries =
      some entries') :
    entries'.map IndexEntry.published =
      (entries.map IndexEntry.published).map (Row.alter ver (Record.flag yanked)) := by
  rw [change_eq_map hentries h, List.map_map, List.map_map]
  apply List.map_congr_left
  intro e _
  simp only [Function.comp_apply, Row.alter]
  split <;> simp_all [IndexEntry.published, Record.flag]

end entries

/-! ## Steps -/

theorem Refines.publish {body : Bytes} {out : Disk × Option Response} (h : Refines lib s)
    (hlib : lib.Documented) (hproper : Proper lib s (io, .publish name version body))
    (heffect : PublishEffect lib io s.server.disk name version body out) :
    Refines lib ⟨⟨out.1, out.2.isSome⟩, told lib s.store (.publish name version body) out.2⟩ := by
  have hunchanged : ∀ {response : Response}, response.status ≠ 200 →
      told lib s.store (.publish name version body) (some response) = s.store :=
    fun hstatus => if_neg fun hsome => hstatus (Option.some.inj hsome)
  cases heffect with
  | refused hstatus =>
    rw [hunchanged hstatus]
    exact ⟨rfl, h.files, h.tarballs⟩
  | torn hver hbody hdir htarball hstatus =>
    rw [hunchanged hstatus]
    have hcontent := hproper _ _ _ hver hbody hdir
    rw [ProperPublish, htarball] at hcontent
    exact h.torn hlib hver rfl hcontent
  | panicked hver hbody hdir htarball hpath =>
    have hcondition := hproper _ _ _ hver hbody hdir
    rw [ProperPublish, htarball] at hcondition
    obtain ⟨path, hsome, _⟩ := hcondition
    rw [hpath] at hsome
    cases hsome
  | unlisted hver hbody hdir htarball hpath hleft hstatus =>
    rw [hunchanged hstatus]
    have hcondition := hproper _ _ _ hver hbody hdir
    rw [ProperPublish, htarball] at hcondition
    obtain ⟨path, hsome, _, hcontent, hsame⟩ := hcondition
    rw [hpath] at hsome
    cases hsome
    refine h.torn hlib hver (hleft.listed_eq hsame) ((hcontent hleft.not_written).imp id ?_)
    exact fun hsha => hsha.symm
  | @stored ver metadata tarball path response hver hbody hdir htarball hpath hwritten hstatus =>
    have hcondition := hproper _ _ _ hver hbody hdir
    rw [ProperPublish, htarball] at hcondition
    obtain ⟨path', hsome, halone, _⟩ := hcondition
    rw [hpath] at hsome
    cases hsome
    obtain ⟨hsole, hall⟩ := halone hwritten
    have htold : told lib s.store (.publish name version body) (some response) =
        s.store.put name ver (metadata.record (lib.sha256Hex tarball)) := by
      simp [told, accepted, hstatus, hver, hbody]
    rw [htold]
    have hrows : ∀ r : Row String V (Record R),
        r ∈ (readEntries lib (if io.readIndex then s.server.disk.index path else none)).map
            IndexEntry.published ∧ r.vers ≠ ver ↔
          r ∈ listed lib (s.server.disk.index path) ∧ r.vers ≠ ver := by
      intro r
      by_cases hread : io.readIndex = true
      · rw [if_pos hread]
        exact Iff.rfl
      · rw [if_neg hread]
        constructor
        · rintro ⟨hr, _⟩
          cases hr
        · rintro ⟨hr, hv⟩
          obtain ⟨hshelf, hstore⟩ := h.files.sound path r hr
          have hlower := (indexPath_eq_iff hpath).mp (hshelf.trans hpath.symm)
          refine absurd (hall.resolve_left hread r.name r.vers hlower ?_) hv
          rw [hstore]
          exact Option.some_ne_none _
    have hnodup := h.read_nodup io path
    refine ⟨rfl, ?_, ?_⟩
    · show Files _ (listed lib ∘ Function.update s.server.disk.index path _) _
      rw [Function.comp_update, listed_indexText hlib]
      apply h.files.put hpath ((alone_iff hpath).mpr hsole)
      · rw [List.map_map]
        exact upsert_nodup hnodup
      · intro r
        rw [mem_upsert hnodup (h.read_name hpath hsole), hrows]
        rfl
    · intro other v r hr
      dsimp only at hr ⊢
      have hshow := (hlib.version version ver).mp hver
      unfold Store.put at hr
      split at hr
      · rename_i hsame
        obtain ⟨rfl, rfl⟩ := hsame
        cases hr
        rw [hshow, Function.update_self]
        rfl
      · rename_i hother
        rw [Function.update_of_ne]
        · exact h.tarballs other v r hr
        · intro hsame
          obtain ⟨rfl, hv⟩ := cratePath_inj.mp hsame
          exact hother ⟨rfl, version_eq hlib hver hv⟩

/-- A change that finds an entry was given what the index file lists. -/
theorem Refines.found {f : IndexEntry V R → IndexEntry V R} {path : Path}
    {entries : List (IndexEntry V R)} (h : Refines lib s)
    (hpath : indexPath lib.lower name = some path)
    (hchange : change IndexEntry.vers ver f
      (readEntries lib (if io.readIndex then s.server.disk.index path else none)) = some entries) :
    io.readIndex = true ∧ ∃ other, lib.lower other = lib.lower name ∧ s.store other ver ≠ none := by
  obtain ⟨e, he, hv⟩ := exists_of_change hchange
  by_cases hread : io.readIndex = true
  · rw [if_pos hread] at he
    have hmem : e.published ∈ listed lib (s.server.disk.index path) := List.mem_map_of_mem he
    obtain ⟨hshelf, hstore⟩ := h.files.sound path _ hmem
    refine ⟨hread, e.name, (indexPath_eq_iff hpath).mp (hshelf.trans hpath.symm), ?_⟩
    have hsome : s.store e.name e.vers = _ := hstore
    rw [← hv, hsome]
    exact Option.some_ne_none _
  · rw [if_neg hread] at he
    cases he

theorem Refines.setYanked {yanked : Bool} {store : PackageStore V R} {out : Disk × Option Response}
    (h : Refines lib s) (hlib : lib.Documented)
    (hproper : ∀ ver, lib.sem.parseVersion version = .ok ver → ProperYank lib s io name ver yanked)
    (hstore : ∀ ver, lib.sem.parseVersion version = .ok ver →
      store = s.store.alter name ver (Record.flag yanked))
    (heffect : YankEffect lib io s.server.disk name version yanked out) :
    Refines lib ⟨⟨out.1, out.2.isSome⟩,
      if out.2.map Response.status = some 200 then store else s.store⟩ := by
  have hunchanged : ∀ {response : Response}, response.status ≠ 200 →
      (if (some response).map Response.status = some 200 then store else s.store) = s.store :=
    fun hstatus => if_neg fun hsome => hstatus (Option.some.inj hsome)
  cases heffect with
  | refused hstatus =>
    rw [hunchanged hstatus]
    exact ⟨rfl, h.files, h.tarballs⟩
  | panicked hver hpath =>
    obtain ⟨path, hsome, _⟩ := hproper _ hver
    rw [hpath] at hsome
    cases hsome
  | @unlisted _ path _ _ after response hver hpath hread hchange hleft hstatus =>
    rw [hunchanged hstatus]
    obtain ⟨_, hsome, hcondition⟩ := hproper _ hver
    rw [hpath] at hsome
    cases hsome
    subst hread
    obtain ⟨hreadIndex, hfound⟩ := h.found hpath hchange
    have hsame : listed lib ∘ after = listed lib ∘ s.server.disk.index := by
      apply hleft.listed_eq
      intro left hdir hindex
      have hleft := hcondition hreadIndex hdir hfound
      rwa [hindex] at hleft
    refine ⟨rfl, ?_, h.tarballs⟩
    show Files _ (listed lib ∘ after) s.store
    rw [hsame]
    exact h.files
  | @stored ver path _ entries' response hver hpath hread hchange hwritten hstatus =>
    obtain ⟨_, hsome, hcondition⟩ := hproper _ hver
    rw [hpath] at hsome
    cases hsome
    subst hread
    obtain ⟨hreadIndex, hfound⟩ := h.found hpath hchange
    have hothers := hcondition hreadIndex hwritten.1 hfound
    rw [hwritten.2] at hothers
    rw [if_pos (by rw [Option.map_some, hstatus]), hstore _ hver]
    have hnodup := h.read_nodup io path
    refine ⟨rfl, ?_, ?_⟩
    · show Files _ (listed lib ∘ Function.update s.server.disk.index path _) _
      rw [Function.comp_update, listed_indexText hlib, published_yank hnodup hchange,
        if_pos hreadIndex]
      refine h.files.alter hpath fun other r hne hshelf hr => ?_
      have hflag := hothers other r hne ((indexPath_eq_iff hpath).mp hshelf) hr
      rw [← hflag]
      rfl
    · intro other v r hr
      dsimp only at hr ⊢
      unfold Store.alter at hr
      split at hr
      · rename_i hsame
        obtain ⟨rfl, rfl⟩ := hsame
        obtain ⟨r', hr', rfl⟩ := Option.map_eq_some_iff.mp hr
        exact h.tarballs other v r' hr'
      · exact h.tarballs other v r hr

theorem serve_running {s : Server} (h : s.running = true) (io : Io) (request : Request) :
    s.serve lib io request = (⟨(respond lib io s.disk request).1,
      (respond lib io s.disk request).2.isSome⟩, (respond lib io s.disk request).2) := by
  unfold Server.serve
  rw [if_pos h]

/-- A request that the server does right. -/
theorem Refines.step {l : Io × Request} {t : State V R} (h : Refines lib s) (hlib : lib.Documented)
    (hproper : Proper lib s l) (hstep : step lib s l = some t) : Refines lib t := by
  obtain ⟨io, request⟩ := l
  unfold registry.step at hstep
  rw [serve_running h.running] at hstep
  cases hstep
  cases request with
  | publish name version body =>
      exact h.publish hlib hproper (publish_effect io _ name version body)
  | yank name version =>
    refine h.setYanked hlib hproper (fun ver hver => ?_) (setYanked_effect io _ name version true)
    simp [accepted, hver]
  | unyank name version =>
    refine h.setYanked hlib hproper (fun ver hver => ?_) (setYanked_effect io _ name version false)
    simp [accepted, hver]

theorem reaches_refines (hlib : lib.Documented)
    (h : Reaches (step lib) Start (Proper lib) s) : Refines lib s :=
  h.invariant (fun _ hs => start_refines hs) fun _ _ _ hI hok hst => hI.step hlib hok hst

end pkg.registry
