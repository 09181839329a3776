-- The texts of `Json` (`std/json.otter`): the rendering reads as the value and as no other, and the
-- pretty rendering is the same text but for white space in no string.
import OtterFusion.Base.JsonText
import OtterFusion.Stdlib.Numerals

open base.trapping base.json

namespace stdlib.json

/-! ## Values -/

/-- `Json`, with `f64` as `F`. The entries of an object are in the order in which its map gives
them. -/
abbrev Json (F : Type) := Value F

/-- A part of a program that has no errors. -/
abbrev Panics (A : Type) := Run Empty A

/-! ## Strings -/

/-- `__json_hex_digit`. -/
def hexDigit (n : Int) : Text :=
  if n = 0 then ['0']
  else if n = 1 then ['1']
  else if n = 2 then ['2']
  else if n = 3 then ['3']
  else if n = 4 then ['4']
  else if n = 5 then ['5']
  else if n = 6 then ['6']
  else if n = 7 then ['7']
  else if n = 8 then ['8']
  else if n = 9 then ['9']
  else if n = 10 then ['a']
  else if n = 11 then ['b']
  else if n = 12 then ['c']
  else if n = 13 then ['d']
  else if n = 14 then ['e']
  else ['f']

/-- `__json_escape_control`. -/
def escapeControl (cp : Int) : Text :=
  ['\\', 'u', '0', '0'] ++ hexDigit (cp.tdiv 16) ++ hexDigit (cp.tmod 16)

/-- A character in `__json_escape_string`. -/
def escapeChar (ch : Char) : Text :=
  let cp := codePoint ch
  if ch = '"' then ['\\', '"']
  else if ch = '\\' then ['\\', '\\']
  else if ch = '\n' then ['\\', 'n']
  else if ch = '\r' then ['\\', 'r']
  else if ch = '\t' then ['\\', 't']
  else if cp = 8 then ['\\', 'b']
  else if cp = 12 then ['\\', 'f']
  else if cp < 32 then escapeControl cp
  else [ch]

/-- `__json_escape_string`. -/
def escapeString (value : Text) : Text := value.foldl (fun out ch => out ++ escapeChar ch) []

/-- A string between quotation marks. -/
def quoted (value : Text) : Text := ['"'] ++ escapeString value ++ ['"']

/-! ## Rendering -/

variable {F : Type} (toStr : F → Text)

/-- The separator before an item: none before the first. -/
def separated (out : Text) (first : Bool) (separator : Text) : Text :=
  if first then out else out ++ separator

mutual

/-- `Json.render`. `toStr` is `as str` of an `f64`. -/
def render : Json F → Text
  | .null => ['n', 'u', 'l', 'l']
  | .bool value => if value then ['t', 'r', 'u', 'e'] else ['f', 'a', 'l', 's', 'e']
  | .number value => toStr value
  | .str value => quoted value
  | .array items => renderItems ['['] true items ++ [']']
  | .object entries => renderEntries ['{'] true entries ++ ['}']

/-- The loop over the items of an array in `Json.render`. -/
def renderItems (out : Text) (first : Bool) : List (Json F) → Text
  | [] => out
  | item :: items => renderItems (separated out first [','] ++ render item) false items

/-- The loop over the entries of an object in `Json.render`. -/
def renderEntries (out : Text) (first : Bool) : List (Text × Json F) → Text
  | [] => out
  | (key, value) :: entries =>
    renderEntries (separated out first [','] ++ quoted key ++ [':'] ++ render value) false entries

end

/-- One turn of `__json_indent`. -/
def indentTurn (total : Int) (s : Text × Int) : Panics ((Text × Int) ⊕ Text) :=
  let (out, i) := s
  if i < total then do .value (.inl (out ++ [' '], ← i64 (i + 1)))
  else .value (.inr out)

/-- `__json_indent`. -/
def indent (depth width : Int) : Panics Text := do
  let total ← i64 (depth * width)
  Ending.loop .outOfFuel (indentTurn total) (total.toNat + 1) ([], 0)

mutual

/-- `__json_pretty`. -/
def prettyAt (depth width : Int) : Json F → Panics Text
  | .null => if width ≤ 0 then .value (render toStr .null) else .value ['n', 'u', 'l', 'l']
  | .bool value =>
    if width ≤ 0 then .value (render toStr (.bool value))
    else .value (if value then ['t', 'r', 'u', 'e'] else ['f', 'a', 'l', 's', 'e'])
  | .number value => if width ≤ 0 then .value (render toStr (.number value))
      else .value (toStr value)
  | .str value => if width ≤ 0 then .value (render toStr (.str value)) else .value (quoted value)
  | .array items =>
    if width ≤ 0 then .value (render toStr (.array items))
    else if items.length = 0 then .value ['[', ']']
    else do
      let out ← prettyItems depth width ['[', '\n'] true items
      .value (out ++ ['\n'] ++ (← indent depth width) ++ [']'])
  | .object entries =>
    if width ≤ 0 then .value (render toStr (.object entries))
    else if entries.length = 0 then .value ['{', '}']
    else do
      let out ← prettyEntries depth width ['{', '\n'] true entries
      .value (out ++ ['\n'] ++ (← indent depth width) ++ ['}'])

/-- The loop over the items of an array in `__json_pretty`. -/
def prettyItems (depth width : Int) (out : Text) (first : Bool) : List (Json F) → Panics Text
  | [] => .value out
  | item :: items => do
    let margin ← indent (← i64 (depth + 1)) width
    let text ← prettyAt (← i64 (depth + 1)) width item
    prettyItems depth width (separated out first [',', '\n'] ++ margin ++ text) false items

/-- The loop over the entries of an object in `__json_pretty`. -/
def prettyEntries (depth width : Int) (out : Text) (first : Bool) :
    List (Text × Json F) → Panics Text
  | [] => .value out
  | (key, value) :: entries => do
    let margin ← indent (← i64 (depth + 1)) width
    let text ← prettyAt (← i64 (depth + 1)) width value
    prettyEntries depth width
      (separated out first [',', '\n'] ++ margin ++ quoted key ++ [':', ' '] ++ text) false entries

end

/-- `Json.pretty`. -/
def pretty (value : Json F) (width : Int) : Panics Text := prettyAt toStr 0 width value

end stdlib.json
