-- `DateTime.parse_iso8601` (`std/time.otter`). It cuts the text at fixed offsets and at offsets
-- that it counts in characters.
import OtterFusion.Stdlib.Strings

open base.trapping

namespace stdlib.time

/-! ## Data -/

/-- `TimeError`. -/
structure TimeError where
  message : String
  deriving DecidableEq, Repr

/-- A parser. -/
abbrev Parse (A : Type) := Run TimeError A

/-- `TimeZone`. -/
inductive TimeZone
  | utc
  | fixedOffset (seconds : Int)
  | namedTimeZone (name : Text)
  deriving DecidableEq, Repr

/-- `DateTime`. -/
structure DateTime where
  year : Int
  month : Int
  day : Int
  hour : Int
  minute : Int
  second : Int
  nanos : Int
  tz : TimeZone
  deriving DecidableEq, Repr

/-- `__time_parse_error`, returned. -/
def timeParseError {A : Type} (message : String) : Parse A := .error ⟨message⟩

/-! ## Digits and separators -/

/-- `__time_digit_value`. -/
def timeDigitValue (ch : Char) : Parse Int :=
  let cp := codePoint ch
  if 48 ≤ cp ∧ cp ≤ 57 then i64 (cp - 48) else timeParseError "expected decimal digit"

/-- The digit of the last character of a text, or an error with this message. -/
def lastDigit (one : Text) (message : String) : Parse Int :=
  (one.foldl (fun _ ch => timeDigitValue ch) (timeParseError message)).orElse
    fun _ => timeParseError message

/-- One turn of `__time_parse_digits`. -/
def digitsTurn (text : Text) (start count : Int) (message : String) (s : Int × Int) :
    Parse ((Int × Int) ⊕ Int) :=
  let (value, i) := s
  if i < count then do
    let one ← substring text (← i64 (start + i)) (← i64 ((← i64 (start + i)) + 1))
    let digit ← lastDigit one message
    let value ← i64 ((← i64 (value * 10)) + digit)
    .value (.inl (value, ← i64 (i + 1)))
  else .value (.inr value)

/-- `__time_parse_digits`. -/
def timeParseDigits (text : Text) (start count : Int) (message : String) : Parse Int :=
  if start < 0 ∨ count < 0 then timeParseError message
  else do
    if size text < (← i64 (start + count)) then timeParseError message
    else Ending.loop .outOfFuel (digitsTurn text start count message) (count.toNat + 1) (0, 0)

/-- `__time_expect`. -/
def timeExpect (text : Text) (pos : Int) (token : Text) (message : String) : Parse Unit :=
  if pos < 0 then timeParseError message
  else do
    let stop ← i64 (pos + size token)
    if size text < stop then timeParseError message
    else do
      if (← substring text pos stop) ≠ token then timeParseError message
      else .value ()

/-! ## Dates -/

/-- `DateTime.is_leap_year`. -/
def isLeapYear (year : Int) : Bool :=
  year.tmod 4 == 0 && year.tmod 100 != 0 || year.tmod 400 == 0

/-- `DateTime.days_in_month`. -/
def daysInMonth (year month : Int) : Int :=
  if month = 2 then if isLeapYear year then 29 else 28
  else if month = 4 ∨ month = 6 ∨ month = 9 ∨ month = 11 then 30
  else 31

/-- `DateTime.new`. -/
def DateTime.new (year month day hour minute second nanos : Int) (tz : TimeZone) : Parse DateTime :=
  if month < 1 ∨ 12 < month then timeParseError "month out of range"
  else if day < 1 ∨ daysInMonth year month < day then timeParseError "day out of range"
  else if hour < 0 ∨ 23 < hour then timeParseError "hour out of range"
  else if minute < 0 ∨ 59 < minute then timeParseError "minute out of range"
  else if second < 0 ∨ 59 < second then timeParseError "second out of range"
  else if 999999999 < nanos then timeParseError "nanosecond out of range"
  else .value ⟨year, month, day, hour, minute, second, nanos, tz⟩

/-! ## `DateTime.parse_iso8601` -/

/-- One turn of the loop over the digits of a fraction. -/
def fractionTurn (s : Text) (pos : Int) : Parse (Int ⊕ Int) :=
  if pos < size s then do
    let chText ← substring s pos (← i64 (pos + 1))
    let isDigit := chText.foldl (fun _ ch => decide (48 ≤ codePoint ch ∧ codePoint ch ≤ 57)) false
    if isDigit then do .value (.inl (← i64 (pos + 1)))
    else .value (.inr pos)
  else .value (.inr pos)

/-- One turn of the loop that fills nanoseconds up to nine digits. -/
def scaleTurn (s : Int × Int) : Parse ((Int × Int) ⊕ Int) :=
  let (nanos, digits) := s
  if digits < 9 then do .value (.inl (← i64 (nanos * 10), ← i64 (digits + 1)))
  else .value (.inr nanos)

/-- The nanoseconds, and where the time zone starts. -/
def parseFraction (s : Text) : Parse (Int × Int) := do
  let pos := 19
  let dot ← if pos < size s then do .value (decide ((← substring s pos (← i64 (pos + 1))) = ['.']))
    else .value false
  if dot then do
    let start ← i64 (pos + 1)
    let pos ← Ending.loop .outOfFuel (fractionTurn s) (s.length + 1) start
    let digits ← i64 (pos - start)
    if digits = 0 ∨ 9 < digits then timeParseError "expected fractional nanoseconds"
    else do
      let nanos ← timeParseDigits s start digits "expected fractional nanoseconds"
      .value (← Ending.loop .outOfFuel scaleTurn 10 (nanos, digits), pos)
  else .value (0, pos)

/-- An offset such as `+02:00`. -/
def parseOffset (s : Text) (pos : Int) (sign : Int) : Parse TimeZone := do
  if (← i64 (pos + 6)) ≠ size s then timeParseError "expected timezone offset"
  else do
    let oh ← timeParseDigits s (← i64 (pos + 1)) 2 "expected timezone hour"
    timeExpect s (← i64 (pos + 3)) [':'] "expected timezone separator"
    let om ← timeParseDigits s (← i64 (pos + 4)) 2 "expected timezone minute"
    if 23 < oh ∨ 59 < om then timeParseError "timezone offset out of range"
    else do
      let minutes ← i64 ((← i64 (oh * 3600)) + (← i64 (om * 60)))
      .value (.fixedOffset (asI32 (← i64 (sign * minutes))))

/-- The time zone. -/
def parseTimeZone (s : Text) (pos : Int) : Parse TimeZone :=
  if size s ≤ pos then timeParseError "expected timezone"
  else do
    let mark ← substring s pos (← i64 (pos + 1))
    if mark = ['Z'] then do
      if (← i64 (pos + 1)) ≠ size s then timeParseError "trailing datetime data"
      else .value .utc
    else if mark = ['+'] ∨ mark = ['-'] then parseOffset s pos (if mark = ['-'] then -1 else 1)
    else if mark = ['['] then do
      if !endsWith s [']'] then timeParseError "expected timezone name"
      else do
        if (← i64 (size s - 1)) ≤ (← i64 (pos + 1)) then timeParseError "expected timezone name"
        else do
          .value (.namedTimeZone (← substring s (← i64 (pos + 1)) (← i64 (size s - 1))))
    else timeParseError "expected timezone"

/-- `DateTime.parse_iso8601`. -/
def parseIso8601 (s : Text) : Parse DateTime :=
  if size s < 20 then timeParseError "expected ISO-8601 datetime"
  else do
    let year ← timeParseDigits s 0 4 "expected year"
    timeExpect s 4 ['-'] "expected date separator"
    let month ← timeParseDigits s 5 2 "expected month"
    timeExpect s 7 ['-'] "expected date separator"
    let day ← timeParseDigits s 8 2 "expected day"
    timeExpect s 10 ['T'] "expected time separator"
    let hour ← timeParseDigits s 11 2 "expected hour"
    timeExpect s 13 [':'] "expected time separator"
    let minute ← timeParseDigits s 14 2 "expected minute"
    timeExpect s 16 [':'] "expected time separator"
    let second ← timeParseDigits s 17 2 "expected second"
    let (nanos, pos) ← parseFraction s
    let tz ← parseTimeZone s pos
    DateTime.new (asI32 year) (asUnsigned 8 month) (asUnsigned 8 day) (asUnsigned 8 hour)
      (asUnsigned 8 minute) (asUnsigned 8 second) (asUnsigned 32 nanos) tz

end stdlib.time
