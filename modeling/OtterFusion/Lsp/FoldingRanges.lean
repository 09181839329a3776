-- The folding ranges of a document (`server.rs`): the scanner `collect_folding_ranges`, and what
-- the tokens and comments of the lexer give. A text is the list of its characters; the scanner
-- walks over its bytes, and stops at bytes that are ASCII characters only. Lines and columns do not
-- wrap around: that takes a text of 4 GiB.
import OtterFusion.Compiler.Lexer
import OtterFusion.Lsp.Offsets

open compiler.lexer

namespace lsp

/-! ## Ranges -/

inductive FoldingRangeKind
  | comment | region
  deriving DecidableEq

/-- `FoldingRange`, without the text that a collapsed range shows. -/
structure FoldingRange where
  startLine : Nat
  startCharacter : Nat
  endLine : Nat
  endCharacter : Nat
  kind : FoldingRangeKind
  deriving DecidableEq

/-- The order by which the ranges are sorted. -/
def FoldingRange.le (a b : FoldingRange) : Bool :=
  a.startLine < b.startLine || a.startLine == b.startLine &&
    (a.startCharacter < b.startCharacter || a.startCharacter == b.startCharacter &&
      (a.endLine < b.endLine || a.endLine == b.endLine && a.endCharacter ≤ b.endCharacter))

/-! ## The scanner -/

/-- `Open`: where something that is open begins. -/
structure Open where
  line : Nat
  character : Nat
  deriving DecidableEq

/-- The state of `collect_folding_ranges`. What was opened last stands first. -/
structure Folding where
  cur : Cursor
  line : Nat
  character : Nat
  braces : List Open
  blockComments : List Open
  ranges : List FoldingRange
  deriving DecidableEq

/-- The loop over a string or a character literal, once its opening quote is skipped: it ends behind
the next quote, or at a line feed. -/
def quotedEnd (quote : Char) : Nat → List Char → Cursor
  | pos, [] => { pos, rest := [] }
  | pos, [c] => if c = '\n' then { pos, rest := [c] } else { pos := pos + c.utf8Size, rest := [] }
  | pos, c :: d :: cs =>
    if c = '\n' then { pos, rest := c :: d :: cs }
    else if c = '\\' then quotedEnd quote (pos + c.utf8Size + d.utf8Size) cs
    else if c = quote then { pos := pos + c.utf8Size, rest := d :: cs }
    else quotedEnd quote (pos + c.utf8Size) (d :: cs)

namespace Folding

def here (s : Folding) : Open := { line := s.line, character := s.character }

/-- The scanner passes over bytes of a line, each a column. -/
def moveTo (s : Folding) (cur : Cursor) : Folding :=
  { s with cur, character := s.character + (cur.pos - s.cur.pos) }

/-- The scanner passes over a line feed. -/
def newline (s : Folding) : Folding :=
  { s with cur := s.cur.bump, line := s.line + 1, character := 0 }

/-- A range from what was open to `character` of this line, if it has more than a line. -/
def close (s : Folding) (start : Open) (kind : FoldingRangeKind) (character : Nat) : Folding :=
  if start.line < s.line then
    { s with ranges := s.ranges ++ [⟨start.line, start.character, s.line, character, kind⟩] }
  else s

/-- One turn of the loop in a block comment, which begins at `start` if it is the only one open. -/
def stepComment (s : Folding) (start : Open) (b : Char) : Folding :=
  if b = '\n' then s.newline
  else if b = '/' ∧ s.cur.peekAt 1 = some '*' then
    { s with blockComments := s.here :: s.blockComments }.moveTo s.cur.bump.bump
  else if b = '*' ∧ s.cur.peekAt 1 = some '/' then
    let s := { s with blockComments := s.blockComments.tail }
    let s := if s.blockComments = [] then s.close start .comment (s.character + 2) else s
    s.moveTo s.cur.bump.bump
  else s.moveTo s.cur.bump

/-- One turn of the loop elsewhere. -/
def stepCode (s : Folding) (b : Char) : Folding :=
  if b = '\n' then s.newline
  else if b = '/' ∧ s.cur.peekAt 1 = some '/' then s.moveTo (s.cur.eatWhile (· != '\n'))
  else if b = '/' ∧ s.cur.peekAt 1 = some '*' then
    { s with blockComments := s.here :: s.blockComments }.moveTo s.cur.bump.bump
  else if b = '"' then s.moveTo (quotedEnd '"' s.cur.bump.pos s.cur.bump.rest)
  else if b = '\'' then s.moveTo (quotedEnd '\'' s.cur.bump.pos s.cur.bump.rest)
  else if b = '{' then { s with braces := s.here :: s.braces }.moveTo s.cur.bump
  else if b = '}' then
    let s :=
      match s.braces with
      | [] => s
      | start :: braces => { s with braces }.close start .region (s.character + 1)
    s.moveTo s.cur.bump
  else s.moveTo s.cur.bump

/-- One turn of the loop. -/
def step (s : Folding) : Folding :=
  match s.cur.peek with
  | none => s
  | some b =>
    match s.blockComments with
    | start :: _ => s.stepComment start b
    | [] => s.stepCode b

/-- The loop. -/
def loop : Nat → Folding → Folding
  | 0, s => s
  | n + 1, s => if s.cur.rest = [] then s else loop n s.step

def new (src : List Char) : Folding :=
  { cur := { pos := 0, rest := src }, line := 0, character := 0, braces := [], blockComments := [],
    ranges := [] }

end Folding

/-- `collect_folding_ranges`. Each turn of the loop takes a character. -/
def collectFoldingRanges (src : List Char) : List FoldingRange :=
  ((Folding.new src).loop src.length).ranges.mergeSort FoldingRange.le

/-! ## What the tokens give -/

/-- The line that a text ends on, without its line feeds. -/
def lastLine (text : List Char) : List Char :=
  text.foldl (fun line c => if c = '\n' then [] else line ++ [c]) []

/-- The text before an offset. -/
def textBefore (src : List Char) (offset : Nat) : List Char :=
  ((splitAt src offset).map Prod.fst).getD []

/-- The line at an offset. -/
def lineAt (src : List Char) (offset : Nat) : Nat := feeds (textBefore src offset)

/-- The characters before an offset on its line. -/
def lineBefore (src : List Char) (offset : Nat) : List Char := lastLine (textBefore src offset)

/-- The braces of a text that match: what is open, with `none` for an interpolation, and the pairs.
-/
structure Matching where
  opened : List (Option Span)
  pairs : List (Span × Span)
  deriving DecidableEq

def Matching.take (m : Matching) (t : Token) : Matching :=
  match t.kind with
  | .lBrace => { m with opened := some t.span :: m.opened }
  | .dollarLBrace => { m with opened := none :: m.opened }
  | .rBrace =>
    match m.opened with
    | [] => m
    | none :: opened => { m with opened }
    | some start :: opened => { opened, pairs := m.pairs ++ [(start, t.span)] }
  | _ => m

/-- The matched braces of some tokens. -/
def matching (tokens : List Token) : Matching := tokens.foldl Matching.take ⟨[], []⟩

/-- What has folds: pairs of braces and block comments, with the offsets where they begin and end.
-/
structure Delimited where
  kind : FoldingRangeKind
  lo : Nat
  hi : Nat
  deriving DecidableEq

/-- The matched pairs of braces of the lexer, and its block comments. -/
def delimited (x : Xid) (src : List Char) : List Delimited :=
  ((matching (lex x src).tokens).pairs.map fun p => ⟨.region, p.1.lo, p.2.hi⟩) ++
    (((lexOrdinaryComments src).comments.filter fun c => c.kind = .block).map fun c =>
      ⟨.comment, c.span.lo, c.span.hi⟩)

/-- Those that are on different lines. -/
def folded (x : Xid) (src : List Char) : List Delimited :=
  (delimited x src).filter fun d => lineAt src d.lo < lineAt src d.hi

/-- The range of something delimited, with the columns by a measure of characters. -/
def Delimited.range (src : List Char) (measure : Char → Nat) (d : Delimited) : FoldingRange where
  startLine := lineAt src d.lo
  startCharacter := ((lineBefore src d.lo).map measure).sum
  endLine := lineAt src d.hi
  endCharacter := ((lineBefore src d.hi).map measure).sum
  kind := d.kind

/-- The ranges that a text has, with columns in UTF-16 units. -/
def foldingRanges (x : Xid) (src : List Char) : List FoldingRange :=
  (folded x src).map (Delimited.range src fun c => (lenUtf16 c).toNat)

/-! ## Strings -/

/-- The string literals of a text: the tokens that open strings, and the outermost literals with the
offsets where they begin and end. -/
structure Literals where
  opened : List Span
  literals : List (Nat × Nat)

def Literals.take (l : Literals) (t : Token) : Literals :=
  match t.kind with
  | .strStart => { l with opened := t.span :: l.opened }
  | .strEnd =>
    match l.opened with
    | [start] => { opened := [], literals := l.literals ++ [(start.lo, t.span.hi)] }
    | _ => { l with opened := l.opened.tail }
  | _ => l

def literalsOf (tokens : List Token) : Literals := tokens.foldl Literals.take ⟨[], []⟩

/-- A string literal is plain: it is on one line, and no quote before its last one ends it for a
scan that knows escapes only. -/
def PlainLiteral (src : List Char) (lo hi : Nat) : Prop :=
  ∃ before literal after, src = before ++ '"' :: literal ++ after ∧ byteLen before = lo ∧
    quotedEnd '"' (lo + 1) (literal ++ after) = { pos := hi, rest := after } ∧ '\n' ∉ literal

/-- All string literals are plain. -/
def PlainStrings (x : Xid) (src : List Char) : Prop :=
  ∀ l ∈ (literalsOf (lex x src).tokens).literals, PlainLiteral src l.1 l.2

/-- Before the delimiters of the folds there are ASCII characters only. -/
def AsciiColumns (x : Xid) (src : List Char) : Prop :=
  ∀ d ∈ folded x src, (∀ c ∈ lineBefore src d.lo, c.toNat < 128) ∧
    ∀ c ∈ lineBefore src d.hi, c.toNat < 128

end lsp
