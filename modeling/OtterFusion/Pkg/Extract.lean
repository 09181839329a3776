-- `Store::extract`: processes unpack the tarball of one checksum into the same temporary directory,
-- and rename it to the keyed directory. A step is one call of the file system.
import Mathlib.Data.List.Basic

namespace pkg.store

abbrev Bytes := List UInt8

/-- The files of a directory, each with its content. -/
abbrev Tree (P C : Type) := List (P × C)

/-- What the readers of `gzip` and `tar` find in a tarball: the entries to unpack, and whether the
archive can be read to its end. -/
structure Archive (P C : Type) where
  entries : List (P × C)
  whole : Bool

/-- What is not in this repository: the hash, and the readers. -/
structure Library (P C : Type) where
  sha256Hex : Bytes → String
  archive : Bytes → Archive P C

variable {P C ι : Type} (lib : Library P C) (expected : String)

/-! ## The checksum -/

/-- `strip_prefix("sha256:")`, or the whole text. -/
def stripPrefix (expected : String) : List Char :=
  if "sha256:".toList.isPrefixOf expected.toList then expected.toList.drop 7 else expected.toList

/-- `verify`: the hash is the one expected, in lower case or upper. -/
def verify (bytes : Bytes) : Bool :=
  (lib.sha256Hex bytes).toList.map Char.toLower = (stripPrefix expected).map Char.toLower

/-! ## The directories and the processes -/

/-- The keyed directory, and the temporary one next to it. -/
structure Disk (P C : Type) where
  dest : Option (Tree P C)
  tmp : Option (Tree P C)

/-- The call that a process makes next. -/
inductive Phase
  | verifying
  | testing
  | clearing
  | creating
  | unpacking (done : Nat)
  | testingAgain
  | discarding
  | renamingTmp
  | returned (ok : Bool)
  | crashed
  deriving DecidableEq

/-- A process that extracts a tarball. -/
structure Process where
  tarGz : Bytes
  phase : Phase

/-- What comes of a call: a directory that is removed may leave some of its files, and an entry that
is not unpacked a file with other content, or none. -/
inductive Event (P C : Type)
  | works
  | fails
  | leaves (kept : P → Bool)
  | tears (torn : Option C)
  | crashes

/-- What is left of a directory. -/
def leftOf (kept : P → Bool) (tree : Option (Tree P C)) : Option (Tree P C) :=
  tree.map fun t => t.filter fun e => kept e.1

variable [DecidableEq P]

/-- A file of a directory that may not be there. -/
def fileAt (tree : Option (Tree P C)) (p : P) : Option C := tree.bind fun t => t.lookup p

/-- A file is written, or is no more, in a directory that is made if it is not there. -/
def write (tree : Option (Tree P C)) (p : P) (content : Option C) : Tree P C :=
  let others := (tree.getD []).filter fun e => e.1 ≠ p
  match content with
  | none => others
  | some c => (p, c) :: others

/-- The next call of a process, and what it leaves on the disk. -/
def turn (disk : Disk P C) (tarGz : Bytes) : Phase → Event P C → Option (Disk P C × Phase)
  | .verifying, .works =>
    some (disk, if verify lib expected tarGz then .testing else .returned false)
  | .testing, .works => some (disk, if disk.dest.isSome then .returned true else .clearing)
  -- What comes of the removal is not looked at.
  | .clearing, .works => some ({ disk with tmp := none }, .creating)
  | .clearing, .leaves kept => some ({ disk with tmp := leftOf kept disk.tmp }, .creating)
  | .creating, .works => some ({ disk with tmp := some (disk.tmp.getD []) }, .unpacking 0)
  | .creating, .fails => some (disk, .returned false)
  | .unpacking done, event =>
    match (lib.archive tarGz).entries[done]?, event with
    | some (p, c), .works =>
      some ({ disk with tmp := some (write disk.tmp p (some c)) }, .unpacking (done + 1))
    | some (p, _), .tears torn =>
      some ({ disk with tmp := some (write disk.tmp p torn) }, .returned false)
    | none, .works =>
      some (disk, if (lib.archive tarGz).whole then .testingAgain else .returned false)
    | _, .fails => some (disk, .returned false)
    | _, .crashes => some (disk, .crashed)
    | _, _ => none
  | .testingAgain, .works => some (disk, if disk.dest.isSome then .discarding else .renamingTmp)
  | .discarding, .works => some ({ disk with tmp := none }, .returned true)
  | .discarding, .leaves kept => some ({ disk with tmp := leftOf kept disk.tmp }, .returned true)
  -- A directory is renamed to no other one that has something in it.
  | .renamingTmp, .works =>
    match disk.tmp, disk.dest.getD [] with
    | some tree, [] => some (⟨some tree, none⟩, .returned true)
    | _, _ => none
  | .renamingTmp, .fails => some (disk, .returned false)
  | .returned _, .crashes => none
  | .crashed, .crashes => none
  | _, .crashes => some (disk, .crashed)
  | _, _ => none

structure State (P C ι : Type) where
  disk : Disk P C
  processes : ι → Process

variable [DecidableEq ι]

/-- A process makes its next call. -/
def step (s : State P C ι) (l : ι × Event P C) : Option (State P C ι) := do
  let process := s.processes l.1
  let (disk, phase) ← turn lib expected s.disk process.tarGz process.phase l.2
  some ⟨disk, Function.update s.processes l.1 { process with phase }⟩

/-- Neither directory is there, and no process has made a call. -/
def Start (s : State P C ι) : Prop :=
  s.disk = ⟨none, none⟩ ∧ ∀ i, (s.processes i).phase = .verifying

end pkg.store
