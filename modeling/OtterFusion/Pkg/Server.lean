-- The registry server (`server.rs`): the files it keeps, `publish`, `set_yanked`, `index` and
-- `download`, and the shards of `index_path` (`store.rs`).
import OtterFusion.Base.Records
import OtterFusion.Pkg.IndexText

open base.records

namespace pkg.registry

/-! ## Files -/

/-- The components of a path. -/
abbrev Path := List String

/-- The files under `index` and under `crates`, as far as they can be read. -/
structure Disk where
  index : Path → Option String
  crates : Path → Option Bytes

/-- How a write ends. A failed one leaves anything in the file. -/
inductive Write (A : Type)
  | done
  | failed (left : Option A)

/-- What the file system answers during one request. -/
structure Io where
  /-- The directory of the crate is there or is created. -/
  crateDir : Bool
  tarball : Write Bytes
  /-- The index file is read, if there is one. -/
  readIndex : Bool
  /-- The directory of the index file is there or is created. -/
  indexDir : Bool
  index : Write String

/-- `std::fs::write`: the files it leaves, and whether it succeeds. -/
def writeFile {A : Type} (files : Path → Option A) (path : Path) (content : A) :
    Write A → (Path → Option A) × Bool
  | .done => (Function.update files path (some content), true)
  | .failed left => (Function.update files path left, false)

/-- `&s[start..stop]`, which panics inside a character. -/
def slice (s : String) (start stop : Nat) : Option String := do
  let front ← runtime.io.takeBytes start s.toList
  let upto ← runtime.io.takeBytes stop s.toList
  some (String.ofList (upto.drop front.length))

/-- `index_path`, without the directory of the index. -/
def indexPath (toLowercase : String → String) (name : String) : Option Path :=
  let lower := toLowercase name
  match compiler.lexer.byteLen lower.toList with
  | 0 => some [lower]
  | 1 => some ["1", lower]
  | 2 => some ["2", lower]
  | 3 => do some ["3", ← slice lower 0 1, lower]
  | _ => do some [← slice lower 0 2, ← slice lower 2 4, lower]

/-- The path of a tarball, without the directory of the crates. -/
def cratePath (name version : String) : Path := [name, version ++ ".tar.gz"]

/-! ## Responses -/

/-- The body of a response: a text as UTF-8, or bytes. -/
inductive Body
  | text (s : String)
  | bytes (b : Bytes)

/-- `Response`. -/
structure Response where
  status : Nat
  reason : String
  contentType : String
  body : Body

/-- `Response::text`. -/
def Response.text (status : Nat) (reason body : String) : Response :=
  ⟨status, reason, "text/plain", .text body⟩

/-- `Response::json`. -/
def Response.json (body : String) : Response := ⟨200, "OK", "application/json", .text body⟩

/-- `Response::bytes`. -/
def Response.bytes (body : Bytes) : Response :=
  ⟨200, "OK", "application/octet-stream", .bytes body⟩

/-- `Response::not_found`. -/
def Response.notFound : Response := .text 404 "Not Found" "not found"

def serverError (message : String) : Response := .text 500 "Internal Server Error" message

@[simp] theorem Response.text_status (status : Nat) (reason body : String) :
    (Response.text status reason body).status = status := rfl

@[simp] theorem Response.json_status (body : String) : (Response.json body).status = 200 := rfl

@[simp] theorem Response.notFound_status : Response.notFound.status = 404 := rfl

@[simp] theorem serverError_status (message : String) : (serverError message).status = 500 := rfl

/-! ## Reading -/

variable {V R : Type} (lib : Library V R)

/-- `index`. -/
def index (disk : Disk) (name : String) : Option Response := do
  let path ← indexPath lib.lower name
  match disk.index path with
  | some text => some (.text 200 "OK" text)
  | none => some .notFound

/-- `download`, with the segments of its path. -/
def download (disk : Disk) : List String → Response
  | name :: version :: _ :: _ =>
    match disk.crates (cratePath name version) with
    | some bytes => .bytes bytes
    | none => .notFound
  | _ => .notFound

/-- The server. Its one thread ends when a request panics. -/
structure Server where
  disk : Disk
  running : Bool

/-- The index entries that a client reads for a name. -/
def served (s : Server) (name : String) : List (IndexEntry V R) :=
  if s.running then
    match index lib s.disk name with
    | some ⟨200, _, _, .text text⟩ => (parseIndex lib text).toOption.getD []
    | _ => []
  else []

/-- The bytes that a client downloads for an index entry. -/
def downloaded (s : Server) (e : IndexEntry V R) : Option Bytes :=
  if s.running then
    match download s.disk [e.name, lib.sem.showVersion e.vers, e.cksum ++ ".tar.gz"] with
    | ⟨200, _, _, .bytes bytes⟩ => some bytes
    | _ => none
  else none

/-! ## Writing -/

/-- `read_entries`, of the text that is read. -/
def readEntries (text : Option String) : List (IndexEntry V R) :=
  match text with
  | some text => (parseIndex lib text).toOption.getD []
  | none => []

/-- `write_entries`: the files it leaves, and whether it succeeds. -/
def writeEntries (io : Io) (disk : Disk) (path : Path) (entries : List (IndexEntry V R)) :
    Disk × Bool :=
  if io.indexDir then
    let (files, written) := writeFile disk.index path (indexText lib entries) io.index
    ({ disk with index := files }, written)
  else (disk, false)

variable [DecidableEq V]

/-- The entries with one for a published version. -/
def upsert (name : String) (ver : V) (metadata : PublishMetadata R) (cksum : String)
    (entries : List (IndexEntry V R)) : List (IndexEntry V R) :=
  let found := change IndexEntry.vers ver (fun e => { e with
    cksum := cksum, yanked := false, deps := metadata.deps, features := metadata.features }) entries
  match found with
  | some entries => entries
  | none => entries ++ [{ name := name, vers := ver, deps := metadata.deps,
                          features := metadata.features, cksum := cksum, yanked := false }]

/-- `publish`: the files it leaves, and its response unless it panics. -/
def publish (io : Io) (disk : Disk) (name version : String) (body : Bytes) :
    Disk × Option Response :=
  match lib.sem.parseVersion version with
  | .error _ => (disk, some (.text 400 "Bad Request" "invalid version"))
  | .ok ver =>
    match decodePublishBody lib name version body with
    | .error e => (disk, some (.text 400 "Bad Request" e.show))
    | .ok (metadata, tarball) =>
      let cksum := lib.sha256Hex tarball
      if !io.crateDir then (disk, some (serverError "cannot create crate dir"))
      else
        let (crates, stored) := writeFile disk.crates (cratePath name version) tarball io.tarball
        let disk := { disk with crates := crates }
        if !stored then (disk, some (serverError "cannot write tarball"))
        else
          match indexPath lib.lower name with
          | none => (disk, none)
          | some path =>
            let entries := readEntries lib (if io.readIndex then disk.index path else none)
            let (disk, written) := writeEntries lib io disk path
              (upsert name ver metadata cksum entries)
            if !written then (disk, some (serverError "cannot write index"))
            else (disk, some (.json (lib.toJson
              (.object [("cksum".toList, string cksum), ("ok".toList, .bool true)]))))

/-- `set_yanked`. -/
def setYanked (io : Io) (disk : Disk) (name version : String) (yanked : Bool) :
    Disk × Option Response :=
  match lib.sem.parseVersion version with
  | .error _ => (disk, some (.text 400 "Bad Request" "invalid version"))
  | .ok ver =>
    match indexPath lib.lower name with
    | none => (disk, none)
    | some path =>
      let entries := readEntries lib (if io.readIndex then disk.index path else none)
      match change IndexEntry.vers ver (fun e => { e with yanked := yanked }) entries with
      | none => (disk, some .notFound)
      | some entries =>
        let (disk, written) := writeEntries lib io disk path entries
        if !written then (disk, some (serverError "cannot write index"))
        else (disk, some (.json (lib.toJson (.object [("ok".toList, .bool true)]))))

/-- An authorised request that writes. -/
inductive Request
  | publish (name version : String) (body : Bytes)
  | yank (name version : String)
  | unyank (name version : String)

/-- What `route` does with a request. -/
def respond (io : Io) (disk : Disk) : Request → Disk × Option Response
  | .publish name version body => publish lib io disk name version body
  | .yank name version => setYanked lib io disk name version true
  | .unyank name version => setYanked lib io disk name version false

/-- A turn of the loop of `serve_on`. -/
def Server.serve (s : Server) (io : Io) (request : Request) : Server × Option Response :=
  if s.running then
    let (disk, response) := respond lib io s.disk request
    (⟨disk, response.isSome⟩, response)
  else (s, none)

end pkg.registry
