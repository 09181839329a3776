-- The package store that the registry server stands for: what its successful requests say of each
-- version of each name, when a client reads the same, and which requests the server does right.
import OtterFusion.Pkg.IndexRoundTrip
import OtterFusion.Pkg.Server

open base.records base.shelves

namespace pkg.registry

variable {V R : Type} (lib : Library V R)

/-! ## The store -/

/-- What the last successful requests say of each version of each name. -/
abbrev PackageStore (V R : Type) := Store String V (Record R)

/-- No other name with the same lower case has the version. -/
def Sole (store : PackageStore V R) (name : String) (v : V) : Prop :=
  ∀ other, other ≠ name → lib.lower other = lib.lower name → store other v = none

/-- What the entries of an index file publish. -/
def listed (text : Option String) : List (Row String V (Record R)) :=
  (readEntries lib text).map IndexEntry.published

/-- The server, and the store that its responses tell of. -/
structure State (V R : Type) where
  server : Server
  store : PackageStore V R

/-- A new server on an empty directory. -/
def Start (s : State V R) : Prop := s = ⟨⟨⟨fun _ => none, fun _ => none⟩, true⟩, fun _ _ => none⟩

variable [DecidableEq V]

/-- The store after a successful request. -/
def accepted (store : PackageStore V R) : Request → PackageStore V R
  | .publish name version body =>
    match lib.sem.parseVersion version, decodePublishBody lib name version body with
    | .ok ver, .ok (metadata, tarball) =>
      store.put name ver (metadata.record (lib.sha256Hex tarball))
    | _, _ => store
  | .yank name version =>
    match lib.sem.parseVersion version with
    | .ok ver => store.alter name ver (Record.flag true)
    | .error _ => store
  | .unyank name version =>
    match lib.sem.parseVersion version with
    | .ok ver => store.alter name ver (Record.flag false)
    | .error _ => store

/-- The store after a request with this response. -/
def told (store : PackageStore V R) (request : Request) (response : Option Response) :
    PackageStore V R :=
  if response.map Response.status = some 200 then accepted lib store request else store

/-- A request is served. -/
def step (s : State V R) (l : Io × Request) : Option (State V R) :=
  let (server, response) := s.server.serve lib l.1 l.2
  some ⟨server, told lib s.store l.2 response⟩

/-- The entries for a version are one, with what the store has of it and the checksum of its
download, or none where the store has nothing. -/
def Agrees (s : State V R) (name : String) (v : V) : Prop :=
  let entries := (served lib s.server name).filter fun e => e.vers = v
  match s.store name v with
  | none => entries = []
  | some r => ∃ e bytes, entries = [e] ∧ e.name = name ∧ e.deps = r.deps ∧
    (∀ f, e.features[f]? = r.features f) ∧ e.yanked = r.yanked ∧
    downloaded lib s.server e = some bytes ∧ e.cksum = lib.sha256Hex bytes

/-! ## Requests that the server does right -/

/-- A publish request that stores its tarball. The write of the tarball fails only where it does no
harm to a version that is published. The index file is written with all that it had, and no other
name has this version in it; or the file keeps its entries, and a version that is published its
tarball. -/
def ProperPublish (s : State V R) (io : Io) (name version : String) (ver : V) (tarball : Bytes) :
    Prop :=
  match io.tarball with
  | .failed left => s.store name ver = none ∨
      left.map lib.sha256Hex = (s.server.disk.crates (cratePath name version)).map lib.sha256Hex
  | .done => ∃ path, indexPath lib.lower name = some path ∧
    (io.indexDir = true ∧ io.index = .done → Sole lib s.store name ver ∧
      (io.readIndex = true ∨ ∀ other v, lib.lower other = lib.lower name →
        s.store other v ≠ none → v = ver)) ∧
    (¬(io.indexDir = true ∧ io.index = .done) → s.store name ver = none ∨
      (s.server.disk.crates (cratePath name version)).map lib.sha256Hex =
        some (lib.sha256Hex tarball)) ∧
    ∀ left, io.indexDir = true → io.index = .failed left →
      listed lib left = listed lib (s.server.disk.index path)

/-- A request to yank or unyank. When the index file is written, no other name has the version with
another flag, or the write fails and the file keeps its entries. -/
def ProperYank (s : State V R) (io : Io) (name : String) (ver : V) (yanked : Bool) : Prop :=
  ∃ path, indexPath lib.lower name = some path ∧
    (io.readIndex = true → io.indexDir = true →
      (∃ other, lib.lower other = lib.lower name ∧ s.store other ver ≠ none) →
      match io.index with
      | .done => ∀ other r, other ≠ name → lib.lower other = lib.lower name →
        s.store other ver = some r → r.yanked = yanked
      | .failed left => listed lib left = listed lib (s.server.disk.index path))

/-- A request that is refused before it writes, or that meets the condition of its kind. -/
def Proper (s : State V R) : Io × Request → Prop
  | (io, .publish name version body) => ∀ ver metadata tarball,
    lib.sem.parseVersion version = .ok ver →
    decodePublishBody lib name version body = .ok (metadata, tarball) → io.crateDir = true →
    ProperPublish lib s io name version ver tarball
  | (io, .yank name version) => ∀ ver, lib.sem.parseVersion version = .ok ver →
    ProperYank lib s io name ver true
  | (io, .unyank name version) => ∀ ver, lib.sem.parseVersion version = .ok ver →
    ProperYank lib s io name ver false

end pkg.registry
