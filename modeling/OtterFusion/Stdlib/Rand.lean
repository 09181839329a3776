-- Selection with a random generator (`std/rand.otter`): numbers of a range, weighted indices,
-- samples and shuffles, for any generator. Arithmetic panics on an overflow in a debug build and
-- wraps in a release build.
import OtterFusion.Stdlib.Hashes

open base.trapping stdlib.hash

namespace stdlib.rand

/-! ## Arithmetic of both builds -/

/-- How a program is built. -/
inductive Build
  | debug | release
  deriving DecidableEq, Repr

/-- `as i64` of a whole number. -/
def asI64 (n : Int) : Int := n.bmod (2 ^ 64)

/-- `as u64` of a whole number. -/
def asU64 (n : Int) : Int := n % 2 ^ 64

/-- A result in `i64`. -/
def Build.i64 : Build → Int → Panics Int
  | .debug, n => stdlib.i64 n
  | .release, n => .value (asI64 n)

/-- A result in `u64`. -/
def Build.u64 : Build → Int → Panics Int
  | .debug, n => hash.u64 n
  | .release, n => .value (asU64 n)

/-- `%` on `u64`. -/
def remU64 (x y : Int) : Panics Int := if y = 0 then .trap .divideByZero else .value (x % y)

/-! ## Lists -/

/-- A `List` in memory: its slots of 8 bytes are one object, whose size is an `isize`. -/
structure Listed (A : Type) where
  slots : List A
  fits : 8 * slots.length < 2 ^ 63

/-- `List.set`. -/
def setSlot {A : Type} (slots : List A) (i : Int) (value : A) : Panics (List A) :=
  if i < 0 ∨ (slots.length : Int) ≤ i then .trap .index else .value (slots.set i.toNat value)

/-! ## Ranges -/

/-- Any `Rng`, by the numbers that it is going to give. -/
structure Rng where
  numbers : Nat → BitVec 64

/-- `Rng.next_u64`. -/
def Rng.nextU64 (rng : Rng) : Int × Rng :=
  ((rng.numbers 0).toNat, ⟨fun n => rng.numbers (n + 1)⟩)

/-- `gen_range_i64`. -/
def genRangeI64 (b : Build) (rng : Rng) (low high : Int) : Panics (Int × Rng) :=
  if high ≤ low then .value (low, rng)
  else do
    let width := asU64 (← b.i64 (high - low))
    let drawn := rng.nextU64
    let value ← b.i64 (low + asI64 (← remU64 drawn.1 width))
    .value (value, drawn.2)

/-- `gen_range_u64`. -/
def genRangeU64 (b : Build) (rng : Rng) (low high : Int) : Panics (Int × Rng) :=
  if high ≤ low then .value (low, rng)
  else do
    let drawn := rng.nextU64
    let value ← b.u64 (low + (← remU64 drawn.1 (← b.u64 (high - low))))
    .value (value, drawn.2)

/-! ## Weights -/

/-- One turn of the loop in `weighted_total`. -/
def totalTurn (b : Build) (weights : List (BitVec 64)) (s : Int × Int) :
    Panics ((Int × Int) ⊕ Option Int) :=
  let (total, i) := s
  if i < weights.length then do
    let weight : Int := (← get weights i).toNat
    if 0 < weight then do
      if (← b.u64 (18446744073709551615 - total)) < weight then .value (.inr none)
      else do
        let total ← b.u64 (total + weight)
        .value (.inl (total, ← b.i64 (i + 1)))
    else do .value (.inl (total, ← b.i64 (i + 1)))
  else .value (.inr (if total = 0 then none else some total))

/-- `weighted_total`. -/
def weightedTotal (b : Build) (weights : Listed (BitVec 64)) : Panics (Option Int) :=
  Ending.loop .outOfFuel (totalTurn b weights.slots) (weights.slots.length + 1) (0, 0)

/-- One turn of the loop in `weighted_index`. -/
def indexTurn (b : Build) (weights : List (BitVec 64)) (s : Int × Int) :
    Panics ((Int × Int) ⊕ Option Int) :=
  let (remaining, i) := s
  if i < weights.length then do
    let weight : Int := (← get weights i).toNat
    if 0 < weight then
      if remaining < weight then .value (.inr (some i))
      else do
        let remaining ← b.u64 (remaining - weight)
        .value (.inl (remaining, ← b.i64 (i + 1)))
    else do .value (.inl (remaining, ← b.i64 (i + 1)))
  else .value (.inr none)

/-- `weighted_index`. -/
def weightedIndex (b : Build) (rng : Rng) (weights : Listed (BitVec 64)) :
    Panics (Option Int × Rng) := do
  match ← weightedTotal b weights with
  | none => .value (none, rng)
  | some total => do
    let (remaining, rng) ← genRangeU64 b rng 0 total
    let index ← Ending.loop .outOfFuel (indexTurn b weights.slots) (weights.slots.length + 1)
      (remaining, 0)
    .value (index, rng)

/-! ## Samples and shuffles -/

/-- One turn of the loop in `sample_indices` that fills the pool. -/
def fillTurn (b : Build) (len : Int) (s : List Int × Int) : Panics ((List Int × Int) ⊕ List Int) :=
  let (pool, i) := s
  if i < len then do .value (.inl (pool ++ [i], ← b.i64 (i + 1)))
  else .value (.inr pool)

/-- One turn of the loop in `sample_indices` that takes an index out of the pool. -/
def drawTurn (b : Build) (count : Int) (s : Rng × List Int × List Int) :
    Panics ((Rng × List Int × List Int) ⊕ (List Int × Rng)) :=
  let (rng, out, pool) := s
  if out.length < count ∧ 0 < pool.length then do
    let (index, rng) ← genRangeI64 b rng 0 pool.length
    .value (.inl (rng, out ++ [← get pool index], pool.eraseIdx index.toNat))
  else .value (.inr (out, rng))

/-- `sample_indices`. -/
def sampleIndices (b : Build) (rng : Rng) (len count : Int) : Panics (List Int × Rng) :=
  if len ≤ 0 ∨ count ≤ 0 then .value ([], rng)
  else do
    let pool ← Ending.loop .outOfFuel (fillTurn b len) (len.toNat + 1) ([], 0)
    Ending.loop .outOfFuel (drawTurn b count) (len.toNat + 1) (rng, [], pool)

/-- One turn of the loop in `shuffle`. -/
def shuffleTurn {T : Type} (b : Build) (s : Rng × List T × Int) :
    Panics ((Rng × List T × Int) ⊕ (List T × Rng)) :=
  let (rng, list, i) := s
  if 0 < i then do
    let (j, rng) ← genRangeI64 b rng 0 (← b.i64 (i + 1))
    let x ← get list i
    let y ← get list j
    let list ← setSlot list i y
    let list ← setSlot list j x
    .value (.inl (rng, list, ← b.i64 (i - 1)))
  else .value (.inr (list, rng))

/-- `shuffle`. -/
def shuffle {T : Type} (b : Build) (rng : Rng) (list : Listed T) : Panics (List T × Rng) := do
  let i ← b.i64 (list.slots.length - 1)
  Ending.loop .outOfFuel (shuffleTurn b) (list.slots.length + 1) (rng, list.slots, i)

end stdlib.rand
