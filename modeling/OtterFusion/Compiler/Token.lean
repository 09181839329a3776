-- Tokens, comments and errors of the scanners, with their spans (`token.rs`, `span.rs`,
-- `diag.rs`). A position is a `u32`, so the cast of an offset wraps.
import Mathlib.Algebra.Order.Ring.Nat

namespace compiler.lexer

/-! ## Spans -/

def posSpace : Nat := 2 ^ 32

/-- `Span`, a range of bytes in one file. The id of the file is left out. -/
structure Span where
  lo : Nat
  hi : Nat
  deriving DecidableEq, Repr

/-- A span between two offsets: each is cast to a `BytePos`. -/
def Span.new (lo hi : Nat) : Span := { lo := lo % posSpace, hi := hi % posSpace }

/-! ## Kinds of tokens -/

/-- `Keyword`. -/
inductive Keyword
  | var | function | struct | interface | type | mod | extend | extern_ | import_ | pub | async
  | spawn | selfLower | selfUpper
  | if | else | match | return | for | in | while | loop | break | continue | await
  | as | is
  | true | false | null
  | yield
  deriving DecidableEq, Repr

/-- The reserved words with their keywords. -/
def keywords : List (String × Keyword) :=
  [("var", .var), ("function", .function), ("struct", .struct), ("interface", .interface),
    ("type", .type), ("mod", .mod), ("extend", .extend), ("extern", .extern_),
    ("import", .import_), ("pub", .pub), ("async", .async), ("spawn", .spawn),
    ("self", .selfLower), ("Self", .selfUpper), ("if", .if), ("else", .else),
    ("match", .match), ("return", .return), ("for", .for), ("in", .in), ("while", .while),
    ("loop", .loop), ("break", .break), ("continue", .continue), ("await", .await),
    ("as", .as), ("is", .is), ("true", .true), ("false", .false), ("null", .null),
    ("yield", .yield)]

/-- `Keyword::from_str`. -/
def Keyword.fromStr (s : String) : Option Keyword := keywords.lookup s

/-- `IntBase`. -/
inductive IntBase
  | dec | hex | oct | bin
  deriving DecidableEq, Repr

/-- `TokenKind`. -/
inductive TokenKind
  | ident
  | kw (word : Keyword)
  | underscore
  | int (base : IntBase) (hasSuffix : Bool)
  | float (hasSuffix : Bool)
  | char
  | strStart | strText | dollarIdent | dollarLBrace | strEnd
  | docOuter | docInner
  | lBrace | rBrace | lParen | rParen | lBracket | rBracket
  | comma | semi | colon | dot | dotDot | at | question
  | eq | eqEq | bang | bangEq | lt | ltEq | gt | gtEq | plus | minus | star | slash | percent
  | ampAmp | pipePipe | amp | pipe | caret | tilde | shl | shr | fatArrow
  | unknown
  | eof
  deriving DecidableEq, Repr

structure Token where
  kind : TokenKind
  span : Span
  deriving DecidableEq, Repr

/-- `LexErrorKind`. -/
inductive LexErrorKind
  | unknownChar | unterminatedBlockComment | unterminatedString | unterminatedChar | emptyChar
  | charTooLong | emptyIntLiteral | invalidDigit | invalidEscape | invalidUnicodeEscape
  | badInterpolation | unbalancedInterpolation
  deriving DecidableEq, Repr

structure LexError where
  kind : LexErrorKind
  span : Span
  deriving DecidableEq, Repr

/-! ## Comments -/

inductive CommentKind
  | line | block
  deriving DecidableEq, Repr

/-- An ordinary comment, kept for tooling. -/
structure CommentTrivia where
  kind : CommentKind
  span : Span
  deriving DecidableEq, Repr

/-- `Mode` of the lexer, and `CommentMode` of the comment scanner. -/
inductive Mode
  | normal
  | string
  | interp (braceDepth : Nat)
  deriving DecidableEq, Repr

/-! ## The bytes of a text -/

/-- The length of a text in UTF-8. -/
def byteLen (cs : List Char) : Nat := (cs.map Char.utf8Size).sum

@[simp] theorem byteLen_nil : byteLen [] = 0 := rfl

@[simp] theorem byteLen_cons (c : Char) (cs : List Char) :
    byteLen (c :: cs) = c.utf8Size + byteLen cs := by
  simp [byteLen]

@[simp] theorem byteLen_append (xs ys : List Char) :
    byteLen (xs ++ ys) = byteLen xs + byteLen ys := by
  simp [byteLen]

/-- A place in the text: its offset, and what is left to scan. The scanners look at single bytes
only to find ASCII characters, and such a byte of a text is a character of its own. -/
structure Cursor where
  pos : Nat
  rest : List Char
  deriving DecidableEq, Repr

namespace Cursor

/-- `peek_byte` and `peek_char`. -/
def peek (c : Cursor) : Option Char := c.rest.head?

/-- `peek_byte_at`. -/
def peekAt (c : Cursor) (n : Nat) : Option Char := c.rest[n]?

/-- `bump`, and a step past one byte where that is a character. -/
def bump (c : Cursor) : Cursor :=
  match c.rest with
  | [] => c
  | ch :: cs => { pos := c.pos + ch.utf8Size, rest := cs }

/-- A loop that bumps while the next character is one of a class. -/
def skipWhile (p : Char → Bool) : Nat → List Char → Cursor
  | pos, [] => { pos, rest := [] }
  | pos, c :: cs => if p c then skipWhile p (pos + c.utf8Size) cs else { pos, rest := c :: cs }

def eatWhile (p : Char → Bool) (c : Cursor) : Cursor := skipWhile p c.pos c.rest

/-- The text between two places. -/
def text (lo hi : Cursor) : String :=
  String.ofList (lo.rest.take (lo.rest.length - hi.rest.length))

end Cursor

end compiler.lexer
