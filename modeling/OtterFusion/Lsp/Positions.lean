-- Positions of the editor and byte offsets of the server: `offset_at`, `position_at`, and the
-- changes of a document between them (`analysis.rs`, `server.rs`).
import OtterFusion.Base.Utf8

namespace lsp

/-- A text is the list of its characters. -/
abbrev Text := List Char

/-! ## Texts -/

/-- The bytes of a text. -/
def utf8 (text : Text) : List UInt8 := text.flatMap String.utf8EncodeChar

/-- `len` of a text. -/
def len (text : Text) : Nat := (utf8 text).length

/-- `len_utf16` of a character. -/
def lenUtf16 (c : Char) : UInt32 := if c.toNat ≤ 0xFFFF then 1 else 2

/-- `split_at_checked`: the text before a byte offset and the text from it on, if a character begins
or the text ends there. -/
def splitAt : Text → Nat → Option (Text × Text)
  | text, 0 => some ([], text)
  | [], _ + 1 => none
  | c :: text, n + 1 =>
    if c.utf8Size ≤ n + 1 then (splitAt text (n + 1 - c.utf8Size)).map fun (a, b) => (c :: a, b)
    else none

/-! ## Positions -/

/-- A position of the editor: a line, and a column in UTF-16 units. -/
structure Position where
  line : UInt32
  character : UInt32
  deriving DecidableEq

structure Range where
  start : Position
  stop : Position
  deriving DecidableEq

/-- The turn of the search for a line: where the bytes after the `line`th line feed begin. -/
def findLine (line : UInt32) : UInt32 → Nat → List UInt8 → Option Nat
  | _, _, [] => none
  | seen, i, b :: bytes =>
    if b = 0x0A then
      if seen + 1 = line then some (i + 1) else findLine line (seen + 1) (i + 1) bytes
    else findLine line seen (i + 1) bytes

/-- The bytes of a line up to a column. The sum of the units wraps around, as in a release build. -/
def walk (character : UInt32) : UInt32 → Text → Nat
  | _, [] => 0
  | utf16, c :: text =>
    if c = '\n' ∨ character ≤ utf16 then 0
    else c.utf8Size + walk character (utf16 + lenUtf16 c) text

/-- The line that a position is on begins here, or there is no such line. -/
def lineStart (text : Text) (line : UInt32) : Option Nat :=
  if 0 < line then findLine line 0 0 (utf8 text) else some 0

/-- `offset_at`. There is none when the slice of the text panics. -/
def offsetAt (text : Text) (pos : Position) : Option Nat :=
  match lineStart text pos.line with
  | none => some (len text)
  | some idx => do
    let (_, rest) ← splitAt text idx
    some (idx + walk pos.character 0 rest)

/-- The lines before an offset, and where the last of them ends. -/
def countLines : UInt32 × Nat → Nat → List UInt8 → UInt32 × Nat
  | found, _, [] => found
  | (line, lineStart), i, b :: bytes =>
    countLines (if b = 0x0A then (line + 1, i + 1) else (line, lineStart)) (i + 1) bytes

/-- `position_at`. There is none when a slice of the text panics. -/
def positionAt (text : Text) (off : Nat) : Option Position := do
  let (before, _) ← splitAt text (min off (len text))
  let (line, lineStart) := countLines (0, 0) 0 (utf8 before)
  let (_, rest) ← splitAt before lineStart
  some ⟨line, rest.foldl (fun character c => character + lenUtf16 c) 0⟩

/-! ## Changes -/

/-- A change of a document: what a range is replaced by, or the whole text. -/
structure ContentChange where
  range : Option Range
  text : Text

/-- The `Debug` text of a position. -/
def Position.debug (pos : Position) : String :=
  "Position \x7b line: " ++ toString pos.line.toNat ++ ", character: " ++
    toString pos.character.toNat ++ " \x7d"

/-- The `Debug` text of a range. -/
def Range.debug (range : Range) : String :=
  "Range \x7b start: " ++ range.start.debug ++ ", end: " ++ range.stop.debug ++ " \x7d"

/-- What comes of a change. -/
inductive Applied
  | ok (text : Text)
  | err (message : String)
  | panics
  deriving DecidableEq

/-- A range of the text is replaced. -/
def replaceRange (text : Text) (range : Range) (new : Text) : Applied :=
  match offsetAt text range.start, offsetAt text range.stop with
  | some start, some stop =>
    if stop < start then
      .err ("invalid incremental edit range: start " ++ range.start.debug ++ " is after end " ++
        range.stop.debug)
    else
      match splitAt text start, splitAt text stop with
      | some (before, _), some (_, after) => .ok (before ++ new ++ after)
      | _, _ =>
        .err ("invalid incremental edit range: " ++ range.debug ++
          " is not on UTF-8 character boundaries")
  | _, _ => .panics

/-- `apply_document_changes`. -/
def applyDocumentChanges (text : Text) : List ContentChange → Applied
  | [] => .ok text
  | change :: changes =>
    match change.range with
    | none => applyDocumentChanges change.text changes
    | some range =>
      match replaceRange text range change.text with
      | .ok text => applyDocumentChanges text changes
      | failed => failed

/-- `did_change`: the text that the server has of a document afterwards. -/
def didChange (document : Option Text) (changes : List ContentChange) : Option Text :=
  document.map fun current =>
    match applyDocumentChanges current changes with
    | .ok text => text
    | _ => current

end lsp
