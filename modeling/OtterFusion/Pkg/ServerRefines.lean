-- The registry server refines the package store: in each run of requests that it does right, a
-- client reads what the store has of each version that no other name of the same lower case has.
import OtterFusion.Pkg.ServerSteps
import OtterFusion.Stdlib.JsonRender

open base.records base.runs base.shelves

namespace pkg.registry

variable {V R : Type} {lib : Library V R} {s : State V R} {io : Io}
  {name version : String} {ver : V}
  [DecidableEq V]

/-! ## What a client reads -/

omit [DecidableEq V] in
theorem served_eq {s : Server} (h : s.running = true) {path : Path}
    (hpath : indexPath lib.lower name = some path) :
    served lib s name = readEntries lib (s.disk.index path) := by
  unfold served index readEntries
  rw [if_pos h, hpath]
  cases htext : s.disk.index path <;> simp [Response.text, Response.notFound, htext]

omit [DecidableEq V] in
theorem served_nil {s : Server} (h : s.running = true) (hpath : indexPath lib.lower name = none) :
    served lib s name = [] := by
  unfold served index
  rw [if_pos h, hpath]
  rfl

omit [DecidableEq V] in
theorem downloaded_eq {s : Server} (h : s.running = true) (e : IndexEntry V R) :
    downloaded lib s e = s.disk.crates (cratePath e.name (lib.sem.showVersion e.vers)) := by
  unfold downloaded download
  rw [if_pos h]
  cases hbytes : s.disk.crates (cratePath e.name (lib.sem.showVersion e.vers)) <;>
    simp [Response.text, Response.notFound, Response.bytes, hbytes]

/-- The entries for a version publish the rows of the version. -/
theorem filter_published (entries : List (IndexEntry V R)) (v : V) :
    (entries.filter fun e => e.vers = v).map IndexEntry.published =
      (entries.map IndexEntry.published).filter fun r => r.vers = v := by
  rw [List.filter_map]
  rfl

/-- A client reads of a version what the store has of it, if no other name with the same lower case
has the version. -/
theorem Refines.agrees_iff (h : Refines lib s) (name : String) (v : V) :
    Agrees lib s name v ↔ Sole lib s.store name v := by
  unfold Agrees
  dsimp only
  cases hpath : indexPath lib.lower name with
  | none =>
    rw [served_nil h.running hpath]
    have hnone : ∀ other, lib.lower other = lib.lower name → s.store other v = none := by
      intro other hlower
      cases hr : s.store other v with
      | none => rfl
      | some r =>
        obtain ⟨path, hsome, _⟩ := h.files.complete other v r hr
        unfold indexPath at hsome hpath
        rw [hlower, hpath] at hsome
        cases hsome
    rw [hnone name rfl]
    exact iff_of_true rfl fun other _ hlower => hnone other hlower
  | some path =>
    rw [served_eq h.running hpath, ← alone_iff hpath]
    cases hr : s.store name v with
    | none =>
      dsimp only
      rw [← h.files.filter_nil_iff hpath hr, ← List.map_eq_nil_iff, filter_published]
      rfl
    | some r =>
      refine iff_of_true ?_ (h.files.alone hr)
      have hrow := h.files.filter_eq hpath hr
      have hmap : ((readEntries lib (s.server.disk.index path)).filter fun e => e.vers = v).map
          IndexEntry.published = [⟨name, v, r⟩] := (filter_published _ v).trans hrow
      obtain ⟨e, hentries, hpublished⟩ := List.map_eq_singleton_iff.mp hmap
      cases hpublished
      obtain ⟨bytes, hbytes, hsha⟩ := Option.map_eq_some_iff.mp (h.tarballs _ _ _ hr)
      refine ⟨e, bytes, hentries, rfl, rfl, fun _ => rfl, rfl, ?_, hsha.symm⟩
      rw [downloaded_eq h.running, hbytes]

/-- In each run of requests that the server does right, a client reads of a version what the last
successful requests for it say, if and only if no other name with the same lower case has it. -/
theorem server_refines_iff (hlib : lib.Documented) (h : Reaches (step lib) Start (Proper lib) s)
    (name : String) (v : V) : Agrees lib s name v ↔ Sole lib s.store name v :=
  (reaches_refines hlib h).agrees_iff name v

/-! ## Two names of one lower case -/

/-- The packages on these inputs: versions and requirements are their texts, letters are ASCII, and
the checksums of the tarballs of one byte, `A` and `B`, are theirs. -/
noncomputable def ascii : Library String String where
  sem := { matchesReq := fun r v => r = v, comparators := fun _ => [], le := fun v w => v ≤ w,
           showReq := id, showVersion := id, parseReq := .ok, parseVersion := .ok }
  toJson v := String.ofList (stdlib.json.render (fun _ => ['0']) v)
  fromStr text :=
    open Classical in
    if h : ∃ raw members, base.json.Denotes (fun _ => ()) text.toList (.object members) ∧
      RawIndexLine.ofMembers members = some raw then .ok h.choose
    else .error "not a line"
  fromSlice _ := .error "not metadata"
  sha256Hex b :=
    if b = [65] then "559aead08264d5795d3909718cdd05abd49572e84fe55590eef31a88a08fdffd"
    else "df7e70e5021544f4834bbee64a9e3789febc4be81470df629cad6ddb03320a5c"
  lower s := String.ofList (s.toList.map Char.toLower)
  utf8Error _ := ""

theorem ascii_documented : ascii.Documented where
  denotes v := by
    have hnumber : ∀ x : Unit, True → base.json.NumberText ((fun _ => ['0']) x) := fun _ _ =>
      ⟨[], ['0'], [], [], rfl, .inl rfl, ⟨⟨by simp, by simp⟩, .inl rfl⟩, .inl rfl, .inl rfl⟩
    have hread :=
      @stdlib.json.reads_render Unit (fun _ => ['0']) (fun _ => ()) (fun _ => True) hnumber
      (fun _ _ => rfl) v (fun _ _ => trivial) [] (fun _ h => by cases h)
    rw [List.append_nil] at hread
    refine ⟨[], ?_, rfl⟩
    simp only [ascii, String.toList_ofList]
    rwa [stdlib.json.skip_of_reads hread]
  line v := by
    simp only [ascii, String.toList_ofList]
    exact stdlib.json.printable_render (fun _ => by simp [stdlib.json.Printable]) v
  braces members := by
    simp only [ascii, String.toList_ofList]
    exact ⟨_, stdlib.json.render_object members⟩
  reads text members raw hdenotes _ hraw := by
    have hline : ∃ raw members, base.json.Denotes (fun _ => ()) text.toList (.object members) ∧
        RawIndexLine.ofMembers members = some raw := ⟨raw, members, hdenotes, hraw⟩
    obtain ⟨members', hdenotes', hraw'⟩ := hline.choose_spec
    cases hdenotes.unique hdenotes'
    have hsame : hline.choose = raw := Option.some.inj (hraw'.symm.trans hraw)
    simp only [ascii]
    rw [dif_pos hline, hsame]
  version s v := by
    simp only [ascii, id, Except.ok.injEq]
    exact eq_comm
  requirement _ := rfl

/-- A file system on which nothing fails. -/
def fine : Io := ⟨true, .done, true, true, .done⟩

/-- A tarball without metadata is published. -/
theorem step_fine {body : Bytes} {path : Path} (hrunning : s.server.running = true)
    (hver : lib.sem.parseVersion version = .ok ver)
    (hbody : publishPayloadMagic.isPrefixOf? body = none)
    (hpath : indexPath lib.lower name = some path) :
    step lib s (fine, .publish name version body) = some ⟨⟨⟨
      Function.update s.server.disk.index path (some (indexText lib (upsert name ver
        ⟨name, version, [], ∅⟩ (lib.sha256Hex body) (readEntries lib (s.server.disk.index path))))),
      Function.update s.server.disk.crates (cratePath name version) (some body)⟩, true⟩,
      s.store.put name ver
        (PublishMetadata.record ⟨name, version, [], ∅⟩ (lib.sha256Hex body))⟩ := by
  have hdecode : decodePublishBody lib name version body =
      .ok ((⟨name, version, [], ∅⟩ : PublishMetadata R), body) := by
    unfold decodePublishBody
    rw [hbody]
  simp [step, serve_running hrunning, respond, publish, told, accepted, hver, hdecode, hpath, fine,
    writeFile, writeEntries]

/-- The server on an empty directory. -/
def emptied (V R : Type) : State V R := ⟨⟨⟨fun _ => none, fun _ => none⟩, true⟩, fun _ _ => none⟩

theorem ascii_paths : indexPath ascii.lower "Foo" = some ["3", "f", "foo"] ∧
    indexPath ascii.lower "foo" = some ["3", "f", "foo"] := by
  decide

omit [DecidableEq V] in
theorem fine_proper {body : Bytes} {path : Path} (hpath : indexPath lib.lower name = some path) :
    Proper lib (emptied V R) (fine, .publish name version body) := by
  intro ver metadata tarball _ _ _
  refine ⟨path, hpath, fun _ => ⟨fun _ _ _ => rfl, .inl rfl⟩, fun h => absurd ⟨rfl, rfl⟩ h, ?_⟩
  intro left _ h
  cases h

theorem server_refines_iff_at : ∃ s, Reaches (step ascii) Start (Proper ascii) s ∧
    (s.store "Foo" "1.0.0").isSome ∧ Agrees ascii s "Foo" "1.0.0" ∧
      ¬Agrees ascii s "foo" "1.0.0" := by
  obtain ⟨hFoo, hfoo⟩ := ascii_paths
  have hstep := @step_fine _ _ ascii (emptied String String) "Foo" "1.0.0" "1.0.0" _ [65] _ rfl rfl
    (by decide +kernel) hFoo
  have hreaches : Reaches (step ascii) Start (Proper ascii) _ :=
    .next (.start rfl) (fine_proper hFoo) hstep
  refine ⟨_, hreaches, rfl, ?_, ?_⟩
  · apply (server_refines_iff ascii_documented hreaches "Foo" "1.0.0").mpr
    intro other hne _
    exact if_neg fun hsame => hne hsame.1
  · intro hagrees
    have hsole := (server_refines_iff ascii_documented hreaches "foo" "1.0.0").mp hagrees
    have hnone := hsole "Foo" (by decide) (by decide)
    cases hnone

/-- The entry that an index file has is written anew. -/
theorem upsert_singleton {metadata : PublishMetadata R} {cksum : String} {e : IndexEntry V R}
    (hv : e.vers = ver) : (upsert name ver metadata cksum [e]).map IndexEntry.published =
      [⟨e.name, ver, metadata.record cksum⟩] := by
  simp [upsert, change, hv, IndexEntry.published, PublishMetadata.record]

/-- A version of `foo` is published after one of `Foo`: the entry that is served for `Foo` gets the
checksum of the other tarball. -/
theorem variant_changes_checksum : ascii.Documented ∧ ∃ s, run (step ascii) (emptied String String)
      [(fine, .publish "Foo" "1.0.0" [65]), (fine, .publish "foo" "1.0.0" [66])] = some s ∧
    (s.store "Foo" "1.0.0").isSome ∧ ¬Agrees ascii s "Foo" "1.0.0" := by
  obtain ⟨hFoo, hfoo⟩ := ascii_paths
  have hfirst := @step_fine _ _ ascii (emptied String String) "Foo" "1.0.0" "1.0.0" _ [65] _ rfl rfl
    (by decide) hFoo
  have hsecond :=
    fun s hrunning => @step_fine _ _ ascii s "foo" "1.0.0" "1.0.0" _ [66] _ hrunning rfl
    (by decide) hfoo
  refine ⟨ascii_documented, ?_⟩
  simp only [run, hfirst, Option.bind_some, hsecond, Option.some.injEq, exists_eq_left']
  refine ⟨rfl, ?_⟩
  simp only [Function.update_self]
  obtain ⟨first, hread, hpublished⟩ := List.map_eq_singleton_iff.mp
    ((listed_indexText ascii_documented (upsert "Foo" "1.0.0" ⟨"Foo", "1.0.0", [], ∅⟩
      (ascii.sha256Hex [65]) [])).trans rfl)
  have hvers : first.vers = "1.0.0" := congrArg Row.vers hpublished
  have hnone :
      readEntries ascii ((emptied String String).server.disk.index ["3", "f", "foo"]) = [] := rfl
  rw [hnone, hread]
  rintro ⟨e, bytes, hentries, hname, _, _, _, hbytes, hcksum⟩
  have hmem : e ∈ served ascii _ "Foo" :=
    List.mem_of_mem_filter (hentries ▸ List.mem_singleton_self e)
  rw [served_eq rfl hFoo] at hmem
  simp only [Function.update_self] at hmem
  have hrow : e.published ∈ listed ascii _ := List.mem_map_of_mem hmem
  rw [listed_indexText ascii_documented, upsert_singleton hvers, List.mem_singleton] at hrow
  have hother : e.cksum = ascii.sha256Hex [66] := congrArg (fun r => r.data.cksum) hrow
  have hfile : cratePath e.name (ascii.sem.showVersion e.vers) = cratePath "Foo" "1.0.0" := by
    rw [hname, show e.vers = "1.0.0" from congrArg Row.vers hrow]
    rfl
  rw [downloaded_eq rfl, hfile] at hbytes
  have hdownload : some [65] = some bytes := hbytes
  cases hdownload
  rw [hother] at hcksum
  simp [ascii] at hcksum

end pkg.registry
