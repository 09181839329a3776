-- Numbers spelled with digits: the number that a text of digits stands for in a base, and the
-- parser that stops at a limit (the documented behaviour of `from_str_radix`).
import Mathlib.Algebra.Order.Ring.Nat
import Mathlib.Data.List.Basic

namespace base.numerals

/-- `char::to_digit`. -/
def digit (radix : Nat) (c : Char) : Option Nat :=
  let n :=
    if c.isDigit then c.toNat - 48
    else if 97 ≤ c.toNat ∧ c.toNat ≤ 122 then c.toNat - 87
    else if 65 ≤ c.toNat ∧ c.toNat ≤ 90 then c.toNat - 55
    else radix
  if n < radix then some n else none

/-- The number of a text of digits, after the number of the digits before. -/
def number (radix n : Nat) (ds : List Char) : Nat :=
  ds.foldl (fun n c => n * radix + (digit radix c).getD 0) n

/-- The number of a text of digits: of one digit at least, and of no other character. -/
def value (radix : Nat) (cs : List Char) : Option Nat :=
  if cs ≠ [] ∧ cs.all fun c => (digit radix c).isSome then some (number radix 0 cs) else none

/-- One more digit, unless the number reaches the limit. -/
def addDigit (limit radix n : Nat) (c : Char) : Option Nat :=
  match digit radix c with
  | none => none
  | some d => if n * radix + d < limit then some (n * radix + d) else none

/-- `from_str_radix` of an unsigned type with so many values. -/
def parse (limit radix : Nat) (cs : List Char) : Option Nat :=
  let ds := if cs.head? = some '+' then cs.tail else cs
  if ds = [] then none else ds.foldlM (addDigit limit radix) 0

variable {limit radix n : Nat} {c : Char} {ds : List Char}

end base.numerals
