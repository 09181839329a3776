-- The lexer (`lexer.rs`) and its comment scanner. Both walk the text with a stack of modes, the
-- lexer token by token, the comment scanner character by character.
import OtterFusion.Compiler.Token

namespace compiler.lexer

/-! ## Classes of characters -/

/-- The crate `unicode_xid`. -/
structure Xid where
  isStart : Char → Bool
  isContinue : Char → Bool

/-- `is_ident_start`. -/
def Xid.isIdentStart (x : Xid) (c : Char) : Bool := c == '_' || x.isStart c

/-- `is_ident_continue`. -/
def Xid.isIdentContinue (x : Xid) (c : Char) : Bool := x.isContinue c

/-- `u8::is_ascii_hexdigit`. -/
def isHexDigit (c : Char) : Bool :=
  c.isDigit || (97 ≤ c.toNat && c.toNat ≤ 102) || (65 ≤ c.toNat && c.toNat ≤ 70)

/-- `is_digit_for_base`. -/
def isDigitForBase (base : IntBase) (c : Char) : Bool :=
  match base with
  | .dec => c.isDigit
  | .hex => isHexDigit c
  | .oct => 48 ≤ c.toNat && c.toNat ≤ 55
  | .bin => c == '0' || c == '1'

/-- `char::is_whitespace`: the characters with the property White_Space. -/
def isWhitespace (c : Char) : Bool :=
  let n := c.toNat
  (9 ≤ n && n ≤ 13) || n == 0x20 || n == 0x85 || n == 0xA0 || n == 0x1680 ||
    (0x2000 ≤ n && n ≤ 0x200A) || n == 0x2028 || n == 0x2029 || n == 0x202F || n == 0x205F ||
    n == 0x3000

/-- `is_ascii_whitespace`, which leaves out the vertical tab. -/
def isAsciiWhitespace (c : Char) : Bool :=
  c == ' ' || c == '\t' || c == '\n' || c == '\r' || c.toNat == 12

/-- The whitespace that the lexer skips. -/
def isSpace (c : Char) : Bool :=
  if c.toNat < 128 then isAsciiWhitespace c else isWhitespace c

/-! ## The state of the lexer -/

/-- A token, or a comment that was skipped. -/
inductive Item
  | token (t : Token)
  | comment (c : CommentTrivia)
  deriving DecidableEq, Repr

def Item.span : Item → Span
  | .token t => t.span
  | .comment c => c.span

def Item.token? : Item → Option Token
  | .token t => some t
  | .comment _ => none

def Item.comment? : Item → Option CommentTrivia
  | .token _ => none
  | .comment c => some c

/-- `Lexer`. The mode on top stands first. `out` holds the tokens, and, as history, the ordinary
comments that were skipped between them. -/
structure Lexer where
  cur : Cursor
  modes : List Mode
  out : List Item
  errors : List LexError
  deriving DecidableEq, Repr

namespace Lexer

def tokens (lx : Lexer) : List Token := lx.out.filterMap Item.token?

def skipped (lx : Lexer) : List CommentTrivia := lx.out.filterMap Item.comment?

def bump (lx : Lexer) : Lexer := { lx with cur := lx.cur.bump }

def emit (lx : Lexer) (kind : TokenKind) (lo : Nat) : Lexer :=
  { lx with out := lx.out ++ [.token { kind, span := .new lo lx.cur.pos }] }

def error (lx : Lexer) (kind : LexErrorKind) (lo hi : Nat) : Lexer :=
  { lx with errors := lx.errors ++ [{ kind, span := .new lo hi }] }

/-- A comment up to a place is skipped. -/
def skipTo (lx : Lexer) (kind : CommentKind) (cur : Cursor) : Lexer :=
  { lx with
    cur
    out := lx.out ++ [.comment { kind, span := .new lx.cur.pos cur.pos }] }

def push (lx : Lexer) (m : Mode) : Lexer := { lx with modes := m :: lx.modes }

def pop (lx : Lexer) : Lexer := { lx with modes := lx.modes.tail }

end Lexer

/-! ## Loops over the text -/

namespace Cursor

theorem bump_lt {c : Cursor} (h : c.rest ≠ []) : c.bump.rest.length < c.rest.length := by
  unfold bump
  cases hr : c.rest with
  | nil => exact absurd hr h
  | cons ch cs => simp

theorem bump_le (c : Cursor) : c.bump.rest.length ≤ c.rest.length := by
  by_cases h : c.rest = []
  · unfold bump
    rw [h]
    simp [h]
  · exact Nat.le_of_lt (bump_lt h)

theorem skipWhile_le (p : Char → Bool) (pos : Nat) (cs : List Char) :
    (skipWhile p pos cs).rest.length ≤ cs.length := by
  induction cs generalizing pos with
  | nil => exact Nat.le_refl _
  | cons c cs ih =>
    unfold skipWhile
    split
    · exact Nat.le_succ_of_le (ih _)
    · exact Nat.le_refl _

theorem eatWhile_le (p : Char → Bool) (c : Cursor) :
    (c.eatWhile p).rest.length ≤ c.rest.length := skipWhile_le p c.pos c.rest

end Cursor

/-- The loop over a block comment: the place where it ends, and whether it is closed. -/
def blockEnd (depth pos : Nat) (rest : List Char) : Cursor × Bool :=
  if depth = 0 then ({ pos, rest }, true)
  else match rest with
    | [] => ({ pos, rest := [] }, false)
    | [c] => blockEnd depth (pos + c.utf8Size) []
    | c :: d :: cs =>
      if c = '/' ∧ d = '*' then blockEnd ((depth + 1) % posSpace) (pos + c.utf8Size + d.utf8Size) cs
      else if c = '*' ∧ d = '/' then blockEnd (depth - 1) (pos + c.utf8Size + d.utf8Size) cs
      else blockEnd depth (pos + c.utf8Size) (d :: cs)

theorem blockEnd_le (depth pos : Nat) (rest : List Char) :
    (blockEnd depth pos rest).1.rest.length ≤ rest.length := by
  fun_induction blockEnd depth pos rest with
  | case1 => exact Nat.le_refl _
  | case2 => exact Nat.le_refl _
  | case3 pos depth _ c ih => exact Nat.le_succ_of_le ih
  | case4 => simp only [List.length_cons] at *; omega
  | case5 => simp only [List.length_cons] at *; omega
  | case6 => simp only [List.length_cons] at *; omega

/-- The loop over at most so many hexadecimal digits: how many there are, and where they end. -/
def hexDigits : Nat → Nat → List Char → Nat × Cursor
  | 0, pos, cs => (0, { pos, rest := cs })
  | _ + 1, pos, [] => (0, { pos, rest := [] })
  | n + 1, pos, c :: cs =>
    if isHexDigit c then
      let r := hexDigits n (pos + c.utf8Size) cs
      (r.1 + 1, r.2)
    else (0, { pos, rest := c :: cs })

theorem hexDigits_le (n pos : Nat) (cs : List Char) :
    (hexDigits n pos cs).2.rest.length ≤ cs.length := by
  induction n generalizing pos cs with
  | zero => exact Nat.le_refl _
  | succ n ih =>
    cases cs with
    | nil => exact Nat.le_refl _
    | cons c cs =>
      unfold hexDigits
      split
      · exact Nat.le_succ_of_le (ih _ _)
      · exact Nat.le_refl _

/-! ## Normal mode -/

namespace Lexer

/-- `skip_whitespace_and_ordinary_comments`. -/
def skipWhitespaceAndOrdinaryComments (lx : Lexer) : Lexer :=
  match _hrest : lx.cur.rest with
  | [] => lx
  | c :: _ =>
    if isSpace c then lx.bump.skipWhitespaceAndOrdinaryComments
    else if c = '/' ∧ lx.cur.peekAt 1 = some '/' then
      -- `///` and `//!` are tokens
      if lx.cur.peekAt 2 = some '/' ∨ lx.cur.peekAt 2 = some '!' then lx
      else
        (lx.skipTo .line (lx.cur.bump.bump.eatWhile (· != '\n'))).skipWhitespaceAndOrdinaryComments
    else if c = '/' ∧ lx.cur.peekAt 1 = some '*' then
      let r := blockEnd 1 lx.cur.bump.bump.pos lx.cur.bump.bump.rest
      if r.2 then (lx.skipTo .block r.1).skipWhitespaceAndOrdinaryComments
      else (lx.skipTo .block r.1).error .unterminatedBlockComment lx.cur.pos r.1.pos
    else lx
termination_by lx.cur.rest.length
decreasing_by
  all_goals
    have hlt := Cursor.bump_lt (c := lx.cur) (by rw [_hrest]; exact List.cons_ne_nil _ _)
    have hle := Cursor.bump_le lx.cur.bump
    have hline := Cursor.eatWhile_le (· != '\n') lx.cur.bump.bump
    have hblock := blockEnd_le 1 lx.cur.bump.bump.pos lx.cur.bump.bump.rest
    simp only [bump, skipTo]
    omega

/-- `scan_line_doc`. -/
def scanLineDoc (lx : Lexer) (lo : Nat) (kind : TokenKind) : Lexer :=
  { lx with cur := lx.cur.bump.bump.bump.eatWhile (· != '\n') }.emit kind lo

/-- `scan_ident_or_keyword`. -/
def scanIdentOrKeyword (x : Xid) (lx : Lexer) (lo : Nat) : Lexer :=
  let cur := lx.cur.bump.eatWhile x.isIdentContinue
  let text := Cursor.text lx.cur cur
  let kind :=
    if text = "_" then TokenKind.underscore
    else match Keyword.fromStr text with
      | some kw => .kw kw
      | none => .ident
  { lx with cur }.emit kind lo

end Lexer

/-! ## Numbers -/

/-- `eat_decimal_digits`. -/
def Cursor.eatDecimalDigits (c : Cursor) : Cursor := c.eatWhile fun d => d.isDigit || d == '_'

/-- `eat_numeric_suffix`. -/
def Cursor.eatNumericSuffix (x : Xid) (c : Cursor) : Cursor :=
  if c.peek = some 'i' ∨ c.peek = some 'u' ∨ c.peek = some 'f' then
    c.bump.eatWhile x.isIdentContinue
  else c

/-- The fraction of a number, and whether there is one. -/
def Cursor.eatFraction (c : Cursor) : Cursor × Bool :=
  if c.peek = some '.' ∧ (c.peekAt 1).any Char.isDigit then (c.bump.eatDecimalDigits, true)
  else (c, false)

/-- The exponent of a number, and whether there is one. -/
def Cursor.eatExponent (c : Cursor) : Cursor × Bool :=
  if c.peek = some 'e' ∨ c.peek = some 'E' then
    let c := c.bump
    let c := if c.peek = some '+' ∨ c.peek = some '-' then c.bump else c
    (c.eatDecimalDigits, true)
  else (c, false)

/-- What the loop of `finish_based_int` leaves: whether it saw a digit, the place and the errors. -/
structure BasedDigits where
  sawDigit : Bool
  cur : Cursor
  errors : List LexError

/-- The loop of `finish_based_int`. -/
def basedDigits (base : IntBase) : Bool → Nat → List Char → BasedDigits
  | sawDigit, pos, [] => { sawDigit, cur := { pos, rest := [] }, errors := [] }
  | sawDigit, pos, c :: cs =>
    if c = '_' then basedDigits base sawDigit (pos + c.utf8Size) cs
    else if isDigitForBase base c then basedDigits base true (pos + c.utf8Size) cs
    else if sawDigit ∧ (c = 'i' ∨ c = 'u' ∨ c = 'f') then
      { sawDigit, cur := { pos, rest := c :: cs }, errors := [] }
    else if c.isAlphanum then
      let r := basedDigits base true (pos + c.utf8Size) cs
      { r with errors :=
        { kind := .invalidDigit, span := .new pos (pos + c.utf8Size) } :: r.errors }
    else { sawDigit, cur := { pos, rest := c :: cs }, errors := [] }

namespace Lexer

/-- `finish_based_int`. -/
def finishBasedInt (x : Xid) (lx : Lexer) (lo : Nat) (base : IntBase) : Lexer :=
  let r := basedDigits base false lx.cur.pos lx.cur.rest
  let next := { lx with cur := r.cur, errors := lx.errors ++ r.errors }
  let next := if r.sawDigit then next else next.error .emptyIntLiteral lo lx.cur.pos
  let cur := next.cur.eatNumericSuffix x
  { next with cur }.emit (.int base (next.cur.pos < cur.pos)) lo

/-- The decimal case of `scan_number`. -/
def scanDecimal (x : Xid) (lx : Lexer) (lo : Nat) : Lexer :=
  let fraction := lx.cur.eatDecimalDigits.eatFraction
  let exponent := fraction.1.eatExponent
  let cur := exponent.1.eatNumericSuffix x
  let hasSuffix : Bool := exponent.1.pos < cur.pos
  { lx with cur }.emit
    (if fraction.2 || exponent.2 then .float hasSuffix else .int .dec hasSuffix) lo

/-- `scan_number`. -/
def scanNumber (x : Xid) (lx : Lexer) (lo : Nat) : Lexer :=
  if lx.cur.peek = some '0' then
    match lx.cur.peekAt 1 with
    | some 'x' | some 'X' => lx.bump.bump.finishBasedInt x lo .hex
    | some 'o' | some 'O' => lx.bump.bump.finishBasedInt x lo .oct
    | some 'b' | some 'B' => lx.bump.bump.finishBasedInt x lo .bin
    | _ => lx.scanDecimal x lo
  else lx.scanDecimal x lo

end Lexer

/-! ## Escapes and character literals -/

namespace Lexer

/-- The escapes of one character. -/
def simpleEscapes : List Char := ['n', 'r', 't', '\\', '\'', '"', '$', '0']

/-- `consume_escape_body`. -/
def consumeEscapeBody (lx : Lexer) (escLo : Nat) : Lexer :=
  match lx.cur.peek with
  | none => lx.error .invalidEscape escLo lx.cur.pos
  | some c =>
    if c ∈ simpleEscapes then lx.bump
    else if c = 'x' then
      let r := hexDigits 2 lx.cur.bump.pos lx.cur.bump.rest
      let next := { lx with cur := r.2 }
      if r.1 = 2 then next else next.error .invalidEscape escLo r.2.pos
    else if c = 'u' then
      if lx.cur.bump.peek = some '{' then
        -- the loop goes on to a seventh digit
        let r := hexDigits 7 lx.cur.bump.bump.pos lx.cur.bump.bump.rest
        let next := { lx with cur := r.2 }
        if r.2.peek = some '}' then
          if r.1 = 0 ∨ r.1 > 6 then next.bump.error .invalidUnicodeEscape escLo next.bump.cur.pos
          else next.bump
        else next.error .invalidUnicodeEscape escLo r.2.pos
      else lx.bump.error .invalidUnicodeEscape escLo lx.cur.bump.pos
    else lx.bump.error .invalidEscape escLo lx.cur.bump.pos

theorem consumeEscapeBody_le (lx : Lexer) (escLo : Nat) :
    (lx.consumeEscapeBody escLo).cur.rest.length ≤ lx.cur.rest.length := by
  have hle := Cursor.bump_le lx.cur
  have hle' := Cursor.bump_le lx.cur.bump
  have hx := hexDigits_le 2 lx.cur.bump.pos lx.cur.bump.rest
  have hu := hexDigits_le 7 lx.cur.bump.bump.pos lx.cur.bump.bump.rest
  have hclose := Cursor.bump_le (hexDigits 7 lx.cur.bump.bump.pos lx.cur.bump.bump.rest).2
  unfold consumeEscapeBody
  cases lx.cur.peek with
  | none => exact Nat.le_refl _
  | some c =>
    simp only [bump, error]
    split_ifs <;> dsimp only <;> omega

/-- The loop of `scan_char`: the opening quote is behind it. -/
def scanCharLoop (lo scalars : Nat) (lx : Lexer) : Lexer :=
  match _hrest : lx.cur.rest with
  | [] => (lx.error .unterminatedChar lo lx.cur.pos).emit .char lo
  | c :: _ =>
    if c = '\n' then (lx.error .unterminatedChar lo lx.cur.pos).emit .char lo
    else if c = '\'' then
      let next := lx.bump
      let next :=
        if scalars = 0 then next.error .emptyChar lo next.cur.pos
        else if scalars > 1 then next.error .charTooLong lo next.cur.pos
        else next
      next.emit .char lo
    else if c = '\\' then
      scanCharLoop lo ((scalars + 1) % posSpace) (lx.bump.consumeEscapeBody lx.cur.pos)
    else scanCharLoop lo ((scalars + 1) % posSpace) lx.bump
termination_by lx.cur.rest.length
decreasing_by
  all_goals
    have hlt := Cursor.bump_lt (c := lx.cur) (by rw [_hrest]; exact List.cons_ne_nil _ _)
    have hesc := lx.bump.consumeEscapeBody_le lx.cur.pos
    simp only [bump] at hesc ⊢
    omega

/-- `scan_char`. -/
def scanChar (lx : Lexer) (lo : Nat) : Lexer := scanCharLoop lo 0 lx

end Lexer

/-! ## Tokens of normal mode -/

/-- The token of a punctuation character, and whether it takes the next character too. -/
def punct (next : Option Char) : Char → Option (TokenKind × Bool)
  | '(' => some (.lParen, false)
  | ')' => some (.rParen, false)
  | '[' => some (.lBracket, false)
  | ']' => some (.rBracket, false)
  | ',' => some (.comma, false)
  | ';' => some (.semi, false)
  | ':' => some (.colon, false)
  | '@' => some (.at, false)
  | '?' => some (.question, false)
  | '~' => some (.tilde, false)
  | '^' => some (.caret, false)
  | '%' => some (.percent, false)
  | '+' => some (.plus, false)
  | '-' => some (.minus, false)
  | '*' => some (.star, false)
  | '/' => some (.slash, false)
  | '.' => if next = some '.' then some (.dotDot, true) else some (.dot, false)
  | '=' =>
    if next = some '=' then some (.eqEq, true)
    else if next = some '>' then some (.fatArrow, true)
    else some (.eq, false)
  | '!' => if next = some '=' then some (.bangEq, true) else some (.bang, false)
  | '<' =>
    if next = some '=' then some (.ltEq, true)
    else if next = some '<' then some (.shl, true)
    else some (.lt, false)
  | '>' =>
    if next = some '=' then some (.gtEq, true)
    else if next = some '>' then some (.shr, true)
    else some (.gt, false)
  | '&' => if next = some '&' then some (.ampAmp, true) else some (.amp, false)
  | '|' => if next = some '|' then some (.pipePipe, true) else some (.pipe, false)
  | _ => none

namespace Lexer

/-- An opening brace, which an interpolation counts. -/
def openBrace (lx : Lexer) : Lexer :=
  match lx.modes with
  | .interp depth :: modes => { lx with modes := .interp ((depth + 1) % posSpace) :: modes }
  | _ => lx

/-- A closing brace, which may be the one of the surrounding interpolation. -/
def closeBrace (lx : Lexer) : Lexer :=
  match lx.modes with
  | .interp depth :: modes =>
    if depth = 0 then lx.pop else { lx with modes := .interp (depth - 1) :: modes }
  | _ => lx

/-- `lex_one_normal`, once the whitespace and the comments are skipped. -/
def lexToken (x : Xid) (lx : Lexer) (c : Char) : Lexer :=
  let lo := lx.cur.pos
  if c = '/' ∧ lx.cur.peekAt 1 = some '/' ∧ lx.cur.peekAt 2 = some '/' then
    lx.scanLineDoc lo .docOuter
  else if c = '/' ∧ lx.cur.peekAt 1 = some '/' ∧ lx.cur.peekAt 2 = some '!' then
    lx.scanLineDoc lo .docInner
  else if c.isDigit then lx.scanNumber x lo
  else if x.isIdentStart c then lx.scanIdentOrKeyword x lo
  else
    let lx := lx.bump
    if c = '{' then (lx.emit .lBrace lo).openBrace
    else if c = '}' then (lx.emit .rBrace lo).closeBrace
    else if c = '"' then (lx.emit .strStart lo).push .string
    else if c = '\'' then lx.scanChar lo
    else match punct lx.cur.peek c with
      | some (kind, two) => (if two then lx.bump else lx).emit kind lo
      | none => (lx.error .unknownChar lo lx.cur.pos).emit .unknown lo

/-- `lex_one_normal`. -/
def lexOneNormal (x : Xid) (lx : Lexer) : Lexer :=
  let lx := lx.skipWhitespaceAndOrdinaryComments
  match lx.cur.peek with
  | none => lx
  | some c => lx.lexToken x c

/-! ## String mode -/

/-- `scan_dollar`. -/
def scanDollar (x : Xid) (lx : Lexer) (lo : Nat) : Lexer :=
  let next := lx.bump
  if next.cur.peek = some '{' then (next.bump.emit .dollarLBrace lo).push (.interp 0)
  else if next.cur.peek.any x.isIdentStart then
    { next with cur := next.cur.eatWhile x.isIdentContinue }.emit .dollarIdent lo
  else (next.error .badInterpolation lo next.cur.pos).emit .unknown lo

/-- The loop of `scan_str_text`. -/
def strTextLoop (lx : Lexer) : Lexer :=
  match _hrest : lx.cur.rest with
  | [] => lx
  | c :: cs =>
    if c = '"' ∨ c = '$' then lx
    else if c = '\\' then
      if cs = [] then lx.bump else (lx.bump.consumeEscapeBody lx.cur.pos).strTextLoop
    else lx.bump.strTextLoop
termination_by lx.cur.rest.length
decreasing_by
  all_goals
    have hlt := Cursor.bump_lt (c := lx.cur) (by rw [_hrest]; exact List.cons_ne_nil _ _)
    have hesc := lx.bump.consumeEscapeBody_le lx.cur.pos
    simp only [bump] at hesc ⊢
    omega

/-- `scan_str_text`. -/
def scanStrText (lx : Lexer) (lo : Nat) : Lexer :=
  let next := lx.strTextLoop
  if next.cur.pos > lo then next.emit .strText lo else next

/-- `lex_one_string`. -/
def lexOneString (x : Xid) (lx : Lexer) : Lexer :=
  match lx.cur.peek with
  | none =>
    ((lx.error .unterminatedString lx.cur.pos lx.cur.pos).emit .strEnd lx.cur.pos).pop
  | some c =>
    if c = '"' then (lx.bump.emit .strEnd lx.cur.pos).pop
    else if c = '$' then lx.scanDollar x lx.cur.pos
    else lx.scanStrText lx.cur.pos

/-! ## The lexer -/

/-- The loop of `lex`. -/
def lexLoop (x : Xid) : Nat → Lexer → Lexer
  | 0, lx => lx
  | fuel + 1, lx =>
    if lx.cur.rest = [] ∧ lx.modes.length = 1 then lx
    else match lx.modes with
      | [] => lx
      | .normal :: _ => if lx.cur.rest = [] then lx else lexLoop x fuel (lx.lexOneNormal x)
      | .interp _ :: _ =>
        if lx.cur.rest = [] then
          lexLoop x fuel (lx.error .unbalancedInterpolation lx.cur.pos lx.cur.pos).pop
        else lexLoop x fuel (lx.lexOneNormal x)
      | .string :: _ => lexLoop x fuel (lx.lexOneString x)

/-- `Lexer::new`. -/
def new (src : List Char) : Lexer :=
  { cur := { pos := 0, rest := src }, modes := [.normal], out := [], errors := [] }

end Lexer

/-- `lex`. Each turn of the loop takes a character or, at the end, a mode, and adds at most one
mode, so the fuel is enough. -/
def lex (x : Xid) (src : List Char) : Lexer :=
  let lx := (Lexer.new src).lexLoop x (2 * src.length + 1)
  lx.emit .eof lx.cur.pos

/-! ## The comment scanner -/

/-- The state of `lex_ordinary_comments`. -/
structure CommentScan where
  cur : Cursor
  modes : List Mode
  comments : List CommentTrivia
  errors : List LexError
  deriving DecidableEq, Repr

/-- The loop of `skip_comment_char_literal`, once the opening quote is skipped. -/
def charLiteralEnd : Nat → List Char → Cursor
  | pos, [] => { pos, rest := [] }
  | pos, [c] =>
    if c = '\n' then { pos, rest := [c] } else { pos := pos + c.utf8Size, rest := [] }
  | pos, c :: d :: cs =>
    if c = '\n' then { pos, rest := c :: d :: cs }
    else if c = '\\' then charLiteralEnd (pos + c.utf8Size + d.utf8Size) cs
    else if c = '\'' then { pos := pos + c.utf8Size, rest := d :: cs }
    else charLiteralEnd (pos + c.utf8Size) (d :: cs)

/-- `skip_comment_char_literal`. -/
def skipCommentCharLiteral (c : Cursor) : Cursor := charLiteralEnd c.bump.pos c.bump.rest

/-- The loop over a block comment in `lex_ordinary_comments`. -/
def commentBlockEnd : Nat → Nat → List Char → Cursor × Bool
  | 0, pos, rest => ({ pos, rest }, true)
  | _ + 1, pos, [] => ({ pos, rest := [] }, false)
  | _ + 1, pos, [c] => ({ pos := pos + c.utf8Size, rest := [] }, false)
  | depth + 1, pos, c :: d :: cs =>
    if c = '/' ∧ d = '*' then
      commentBlockEnd ((depth + 2) % posSpace) (pos + c.utf8Size + d.utf8Size) cs
    else if c = '*' ∧ d = '/' then commentBlockEnd depth (pos + c.utf8Size + d.utf8Size) cs
    else commentBlockEnd (depth + 1) (pos + c.utf8Size) (d :: cs)

namespace CommentScan

def bump (s : CommentScan) : CommentScan := { s with cur := s.cur.bump }

/-- A comment up to a place is reported. -/
def report (s : CommentScan) (kind : CommentKind) (cur : Cursor) : CommentScan :=
  { s with
    cur
    comments := s.comments ++ [{ kind, span := .new s.cur.pos cur.pos }] }

/-- One turn of the loop outside of strings. -/
def stepNormal (s : CommentScan) (b : Char) : CommentScan :=
  if b = '/' ∧ s.cur.peekAt 1 = some '/' then
    let cur := s.cur.bump.bump.eatWhile (· != '\n')
    if s.cur.peekAt 2 ≠ some '/' ∧ s.cur.peekAt 2 ≠ some '!' then s.report .line cur
    else { s with cur }
  else if b = '/' ∧ s.cur.peekAt 1 = some '*' then
    let r := commentBlockEnd 1 s.cur.bump.bump.pos s.cur.bump.bump.rest
    let errors :=
      if r.2 then s.errors
      else s.errors ++ [{ kind := .unterminatedBlockComment, span := .new s.cur.pos r.1.pos }]
    { s.report .block r.1 with errors }
  else if b = '"' then { s.bump with modes := .string :: s.modes }
  else if b = '\'' then { s with cur := skipCommentCharLiteral s.cur }
  else match s.modes with
    | .interp depth :: modes =>
      if b = '{' then { s.bump with modes := .interp ((depth + 1) % posSpace) :: modes }
      else if b = '}' then
        { s.bump with modes := if depth = 0 then modes else .interp (depth - 1) :: modes }
      else s.bump
    | _ => s.bump

/-- One turn of the loop in a string. -/
def stepString (s : CommentScan) (b : Char) : CommentScan :=
  if b = '"' then { s.bump with modes := s.modes.tail }
  else if b = '\\' then s.bump.bump
  else if b = '$' ∧ s.cur.peekAt 1 = some '{' then
    { s.bump.bump with modes := .interp 0 :: s.modes }
  else s.bump

/-- One turn of the loop of `lex_ordinary_comments`. -/
def step (s : CommentScan) : CommentScan :=
  match s.cur.peek with
  | none => s
  | some b =>
    match s.modes with
    | .string :: _ => s.stepString b
    | _ => s.stepNormal b

/-- The loop of `lex_ordinary_comments`. -/
def loop : Nat → CommentScan → CommentScan
  | 0, s => s
  | fuel + 1, s => if s.cur.rest = [] then s else loop fuel s.step

def new (src : List Char) : CommentScan :=
  { cur := { pos := 0, rest := src }, modes := [.normal], comments := [], errors := [] }

end CommentScan

/-- `lex_ordinary_comments`. Each turn of the loop takes a character. -/
def lexOrdinaryComments (src : List Char) : CommentScan :=
  (CommentScan.new src).loop src.length

end compiler.lexer
