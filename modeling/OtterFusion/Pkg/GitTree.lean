-- The checksum of a checked-out source tree: which files the walk over the directories finds, in
-- which order they go to the hash, and what of each file goes there.
import Mathlib.Data.List.Nodup
import OtterFusion.Base.Separated

open base.separated

namespace pkg.git

abbrev Bytes := List UInt8

/-- The name of a file or of a directory, as the file system has it. -/
abbrev FileName := Bytes

abbrev FilePath := List FileName

/-- What a directory has under a name. -/
inductive Node
  | file (content : Bytes)
  | dir (entries : List (FileName × Node))

/-- What a directory has, in the order of `read_dir`. -/
abbrev Entries := List (FileName × Node)

/-! ## Names as texts -/

/-- A continuation byte of UTF-8. -/
def isCont (b : UInt8) : Bool := 0x80 ≤ b && b ≤ 0xBF

/-- The bytes of a character with this first byte, or zero where it is no first byte. -/
def charWidth (a : UInt8) : Nat :=
  if a < 0x80 then 1
  else if 0xC2 ≤ a && a ≤ 0xDF then 2
  else if 0xE0 ≤ a && a ≤ 0xEF then 3
  else if 0xF0 ≤ a && a ≤ 0xF4 then 4
  else 0

/-- The second byte of a character with this first byte. -/
def isSecond (a b : UInt8) : Bool :=
  if a = 0xE0 then 0xA0 ≤ b && b ≤ 0xBF
  else if a = 0xED then 0x80 ≤ b && b ≤ 0x9F
  else if a = 0xF0 then 0x90 ≤ b && b ≤ 0xBF
  else if a = 0xF4 then 0x80 ≤ b && b ≤ 0x8F
  else isCont b

/-- The bytes after the first one that a character can have. -/
def following (a : UInt8) (rest : Bytes) : Bytes :=
  match rest.take (charWidth a - 1) with
  | [] => []
  | b :: more => if isSecond a b then b :: more.takeWhile isCont else []

/-- The replacement character. -/
def replacement : Bytes := [0xEF, 0xBF, 0xBD]

/-- `to_string_lossy`, with a turn for each character and each sequence that is none. -/
def lossy : Nat → Bytes → Bytes
  | n + 1, a :: rest =>
    let more := following a rest
    (if more.length + 1 = charWidth a then a :: more else replacement) ++
      lossy n (rest.drop more.length)
  | _, _ => []

def toStringLossy (bytes : Bytes) : Bytes := lossy bytes.length bytes

/-- The components of a path with a slash between them. -/
def joined (path : FilePath) : Bytes := [0x2F].intercalate path

/-- The text of a path relative to the root. -/
def rel (path : FilePath) : Bytes :=
  (toStringLossy (joined path)).map fun b => if b = 0x5C then 0x2F else b

/-! ## The walk and the stream -/

/-- `.git` -/
def dotGit : FileName := [0x2E, 0x67, 0x69, 0x74]

/-- The files of a directory at this path, with the texts of their paths. -/
def collectFiles (dir : FilePath) : Entries → List (Bytes × FilePath)
  | [] => []
  | (name, node) :: rest =>
    let path := dir ++ [name]
    let here :=
      if name = dotGit then []
      else match node with
        | .dir entries => collectFiles path entries
        | .file _ => [(rel path, path)]
    here ++ collectFiles dir rest

/-- The file at a path. -/
def read (root : Entries) : FilePath → Option Bytes
  | [] => none
  | name :: path =>
    match root.lookup name with
    | none => none
    | some (.file content) => if path = [] then some content else none
    | some (.dir entries) => read entries path

/-- The files in the order of the texts of their paths. -/
def sortedFiles (root : Entries) : List (Bytes × FilePath) :=
  (collectFiles [] root).mergeSort fun a b => a.1 ≤ b.1

/-- The hasher takes one file more. -/
def update (root : Entries) (fed : Bytes) (file : Bytes × FilePath) : Option Bytes := do
  let content ← read root file.2
  some (fed ++ file.1 ++ [0] ++ content ++ [0])

/-- All that the hasher takes. -/
def fed (root : Entries) : Option Bytes := (sortedFiles root).foldlM (update root) []

def checksumTree (sha256Hex : Bytes → String) (root : Entries) : Option String := do
  let stream ← fed root
  some ("sha256:" ++ sha256Hex stream)

/-! ## Well-formed trees -/

/-- A name that a file system can have. -/
structure ValidName (name : FileName) : Prop where
  nonempty : name ≠ []
  noSlash : 0x2F ∉ name
  noZero : 0 ∉ name
  noDot : name ≠ [0x2E]
  noDots : name ≠ [0x2E, 0x2E]

/-- The names of each directory are valid, and each is there once. -/
inductive WellFormed : Entries → Prop
  | mk {entries : Entries} (names : ∀ e ∈ entries, ValidName e.1)
    (nodup : (entries.map Prod.fst).Nodup)
    (dirs : ∀ name sub, (name, Node.dir sub) ∈ entries → WellFormed sub) : WellFormed entries

/-- A checked-out source tree. -/
structure Checkout where
  root : Entries
  wellFormed : WellFormed root

/-- The content of a file of the source, which is what is not in a `.git`. -/
def sourceFile (root : Entries) (path : FilePath) : Option Bytes :=
  if dotGit ∈ path then none else read root path

/-- A path that a source file can have. -/
def ValidPath (path : FilePath) : Prop := path ≠ [] ∧ ∀ name ∈ path, ValidName name ∧ name ≠ dotGit

/-- Neither path goes through the other, so that one tree can have a file at each. -/
def Beside (p q : FilePath) : Prop := ¬ p <+: q ∧ ¬ q <+: p

theorem lookup_iff {entries : Entries} {name : FileName} {node : Node}
    (h : (entries.map Prod.fst).Nodup) :
    entries.lookup name = some node ↔ (name, node) ∈ entries := by
  induction entries with
  | nil => simp
  | cons e entries ih =>
    obtain ⟨first, there⟩ := e
    rw [List.map_cons, List.nodup_cons] at h
    by_cases hname : name = first
    · subst hname
      have hnot : (name, node) ∉ entries := fun hmem =>
        h.1 (List.mem_map.mpr ⟨(name, node), hmem, rfl⟩)
      simp [hnot, eq_comm]
    · have hne : (name == first) = false := beq_false_of_ne hname
      rw [List.lookup_cons, hne, ih h.2]
      simp [hname]

theorem sourceFile_cons {root : Entries} {name : FileName} {path : FilePath} {c : Bytes} :
    sourceFile root (name :: path) = some c ↔ name ≠ dotGit ∧
      ((root.lookup name = some (.file c) ∧ path = []) ∨
        ∃ sub, root.lookup name = some (.dir sub) ∧ sourceFile sub path = some c) := by
  simp only [sourceFile, List.mem_cons, read]
  by_cases hname : dotGit = name
  · simp [hname]
  · have hne : name ≠ dotGit := fun h => hname h.symm
    rcases hnode : root.lookup name with _ | (content | sub)
    · simp
    · by_cases hpath : path = []
      · subst hpath
        simp [hname, hne]
      · simp [hpath]
    · simp [hname, hne]

@[simp] theorem sourceFile_nil {root : Entries} : sourceFile root [] = none := by
  simp [sourceFile, read]

/-- The path of a source file is valid. -/
theorem WellFormed.validPath {root : Entries} (h : WellFormed root) {path : FilePath} {c : Bytes}
    (hfile : sourceFile root path = some c) : ValidPath path := by
  induction path generalizing root with
  | nil => simp at hfile
  | cons name path ih =>
    obtain ⟨names, nodup, dirs⟩ := h
    obtain ⟨hgit, ⟨hlookup, rfl⟩ | ⟨sub, hlookup, hfile⟩⟩ := sourceFile_cons.mp hfile
    · have hvalid := names _ ((lookup_iff nodup).mp hlookup)
      exact ⟨List.cons_ne_nil name [], List.forall_mem_singleton.mpr ⟨hvalid, hgit⟩⟩
    · have hmem := (lookup_iff nodup).mp hlookup
      obtain ⟨-, hnames⟩ := ih (dirs name sub hmem) hfile
      exact ⟨List.cons_ne_nil name path, List.forall_mem_cons.mpr ⟨⟨names _ hmem, hgit⟩, hnames⟩⟩

/-- No source file is below another one. -/
theorem sourceFile_below {root : Entries} {p q : FilePath} {c d : Bytes}
    (hp : sourceFile root p = some c) (hq : sourceFile root q = some d) (h : p <+: q) : p = q := by
  induction p generalizing root q with
  | nil => simp at hp
  | cons name p ih =>
    cases q with
    | nil => simp at hq
    | cons name' q =>
      obtain ⟨rfl, hbelow⟩ := List.cons_prefix_cons.mp h
      obtain ⟨-, ⟨hlookup, rfl⟩ | ⟨sub, hlookup, hp⟩⟩ := sourceFile_cons.mp hp
      · obtain ⟨-, ⟨-, rfl⟩ | ⟨sub, hlookup', -⟩⟩ := sourceFile_cons.mp hq
        · rfl
        · rw [hlookup] at hlookup'
          cases hlookup'
      · obtain ⟨-, ⟨hlookup', -⟩ | ⟨sub', hlookup', hq⟩⟩ := sourceFile_cons.mp hq
        · rw [hlookup] at hlookup'
          cases hlookup'
        · rw [hlookup] at hlookup'
          cases hlookup'
          rw [ih hp hq hbelow]

/-! ## What the walk finds -/

/-- What the walk finds under a name. -/
def filesAt (dir : FilePath) (e : FileName × Node) : List (Bytes × FilePath) :=
  if e.1 = dotGit then []
  else match e.2 with
    | .dir entries => collectFiles (dir ++ [e.1]) entries
    | .file _ => [(rel (dir ++ [e.1]), dir ++ [e.1])]

theorem collectFiles_eq (dir : FilePath) (entries : Entries) :
    collectFiles dir entries = entries.flatMap (filesAt dir) := by
  induction entries with
  | nil => rw [collectFiles, List.flatMap_nil]
  | cons e entries ih =>
    obtain ⟨name, node⟩ := e
    cases node <;> simp [collectFiles, filesAt, ih]

/-- The walk finds the source files. -/
theorem WellFormed.mem_collectFiles {entries : Entries} (h : WellFormed entries) {dir : FilePath}
    {f : Bytes × FilePath} : f ∈ collectFiles dir entries ↔
      ∃ p c, sourceFile entries p = some c ∧ f = (rel (dir ++ p), dir ++ p) := by
  induction h generalizing dir f with
  | mk names nodup dirs ih =>
    rw [collectFiles_eq, List.mem_flatMap]
    constructor
    · rintro ⟨⟨name, node⟩, hmem, hf⟩
      unfold filesAt at hf
      split at hf
      · simp at hf
      next hgit =>
        have hlookup := (lookup_iff nodup).mpr hmem
        cases node with
        | file content =>
          obtain rfl := List.mem_singleton.mp hf
          exact ⟨[name], content, sourceFile_cons.mpr ⟨hgit, .inl ⟨hlookup, rfl⟩⟩, rfl⟩
        | dir sub =>
          obtain ⟨p, c, hp, rfl⟩ := (ih name sub hmem).mp hf
          refine ⟨name :: p, c, sourceFile_cons.mpr ⟨hgit, .inr ⟨sub, hlookup, hp⟩⟩, ?_⟩
          rw [List.append_assoc, List.singleton_append]
    · rintro ⟨p, c, hp, rfl⟩
      cases p with
      | nil => simp at hp
      | cons name p =>
        obtain ⟨hgit, ⟨hlookup, rfl⟩ | ⟨sub, hlookup, hp⟩⟩ := sourceFile_cons.mp hp
        · refine ⟨_, (lookup_iff nodup).mp hlookup, ?_⟩
          simp [filesAt, hgit]
        · have hmem := (lookup_iff nodup).mp hlookup
          refine ⟨_, hmem, ?_⟩
          rw [filesAt, if_neg hgit]
          refine (ih name sub hmem).mpr ⟨p, c, hp, ?_⟩
          rw [List.append_assoc, List.singleton_append]

/-- A path that the walk finds under a name goes on with it. -/
theorem WellFormed.filesAt_path {entries : Entries} (h : WellFormed entries) {dir path : FilePath}
    {e : FileName × Node} (hmem : e ∈ entries) (hpath : path ∈ (filesAt dir e).map Prod.snd) :
    dir ++ [e.1] <+: path := by
  obtain ⟨names, nodup, dirs⟩ := h
  obtain ⟨name, node⟩ := e
  obtain ⟨f, hf, rfl⟩ := List.mem_map.mp hpath
  unfold filesAt at hf
  split at hf
  · simp at hf
  · cases node with
    | file content =>
      obtain rfl := List.mem_singleton.mp hf
      exact List.prefix_rfl
    | dir sub =>
      obtain ⟨p, c, -, rfl⟩ := (dirs name sub hmem).mem_collectFiles.mp hf
      exact List.prefix_append (dir ++ [name]) p

/-- The walk finds each file once. -/
theorem WellFormed.nodup_collectFiles {entries : Entries} (h : WellFormed entries)
    (dir : FilePath) : ((collectFiles dir entries).map Prod.snd).Nodup := by
  induction h generalizing dir with
  | mk names nodup dirs ih =>
    have hwf := WellFormed.mk names nodup dirs
    rw [collectFiles_eq, List.map_flatMap, List.nodup_flatMap]
    refine ⟨fun e he => ?_, ?_⟩
    · obtain ⟨name, node⟩ := e
      unfold filesAt
      split
      · simp
      · cases node with
        | file content => simp
        | dir sub => exact ih name sub he (dir ++ [name])
    · refine (List.pairwise_map.mp nodup).imp_of_mem ?_
      intro a b ha hb hab path hpa hpb
      have hsame := List.prefix_of_prefix_length_le (hwf.filesAt_path ha hpa)
        (hwf.filesAt_path hb hpb) (by simp)
      have hsame := hsame.eq_of_length (by simp)
      exact hab (List.singleton_inj.mp (List.append_cancel_left hsame))

end pkg.git
