-- Arithmetic on `u64` that panics on an overflow (`checked_arith`), the hash of a `str`
-- (`hash.rs`), and the two ways in which the standard library combines hashes.
import OtterFusion.Base.Utf8
import OtterFusion.Stdlib.Strings

open base.trapping base.utf8

namespace stdlib.hash

/-- A part of a program that has no errors. -/
abbrev Panics (A : Type) := Run Empty A

/-! ## Arithmetic -/

/-- A result in `u64`. -/
def u64 (n : Int) : Panics Int := inRange 0 (2 ^ 64 - 1) n

theorem u64_ok {n : Int} (hlo : 0 ≤ n) (hhi : n < 2 ^ 64) : u64 n = .value n := by
  unfold u64 inRange
  exact if_pos (by omega)

theorem u64_trap {n : Int} (h : 2 ^ 64 ≤ n) : u64 n = .trap .overflow := by
  unfold u64 inRange
  exact if_neg (by omega)

theorem u64_value {n m : Int} (h : u64 n = .value m) : m = n := by
  unfold u64 inRange at h
  split at h
  · cases h
    rfl
  · cases h

/-! ## The hash of a text -/

/-- `hash_str_bytes`: FNV-1a. -/
def hashStrBytes (s : Text) : Nat :=
  (textOctets s).foldl (fun h b => ((h ^^^ b.toNat) * 0x100000001b3) % 2 ^ 64) 0xcbf29ce484222325

/-! ## Combined hashes -/

/-- The modulus of the combined hashes. -/
def modulus : Int := 4294967291

/-- `__json_hash_add`, `__net_hash_add` and `__http_hash_add`. -/
def hashAdd (left right : Int) : Panics Int := do
  .value ((← u64 (left % modulus + right % modulus)) % modulus)

/-- `__json_hash_mix` and `__http_hash_mix`. -/
def hashMix (left right : Int) : Panics Int := do
  .value ((← u64 ((← u64 (left % modulus * 16777619)) + right % modulus)) % modulus)

theorem mod_bounds (n : Int) : 0 ≤ n % modulus ∧ n % modulus < 4294967291 :=
  ⟨Int.emod_nonneg n (by decide), Int.emod_lt_of_pos n (by decide)⟩

theorem hashAdd_ok (left right : Int) : hashAdd left right = .value ((left + right) % modulus) := by
  obtain ⟨hlo, hhi⟩ := mod_bounds left
  obtain ⟨hlo', hhi'⟩ := mod_bounds right
  unfold hashAdd
  rw [u64_ok (by omega) (by omega), Ending.value_bind, ← Int.add_emod]

theorem hashMix_ok (left right : Int) :
    hashMix left right = .value ((left * 16777619 + right) % modulus) := by
  obtain ⟨hlo, hhi⟩ := mod_bounds left
  obtain ⟨hlo', hhi'⟩ := mod_bounds right
  unfold hashMix
  rw [u64_ok (by omega) (by omega), Ending.value_bind, u64_ok (by omega) (by omega),
    Ending.value_bind, Int.add_emod_emod, Int.add_emod, Int.mul_emod, Int.emod_emod,
    ← Int.mul_emod, ← Int.add_emod]

end stdlib.hash
