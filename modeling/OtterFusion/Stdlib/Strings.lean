-- What the text parsers of the standard library use of the language: the operations on `str` of
-- the runtime (`strings.rs`), lists, casts, and the arithmetic that panics on an overflow.
import Mathlib.Algebra.Order.Ring.Nat
import Mathlib.Algebra.Order.BigOperators.Group.List
import OtterFusion.Base.Trapping

open base.trapping

namespace stdlib

/-! ## Panics -/

/-- Why a program stops. The last one is of the model: the fuel of a loop is used up. -/
inductive Trap
  | substring (start stop : Int) (size : Nat)
  | index
  | overflow
  | divideByZero
  | notAChar
  | outOfFuel
  deriving DecidableEq, Repr

/-- A part of a program with errors in `E`. -/
abbrev Run (E A : Type) := Ending Trap E A

/-- A text is the list of its Unicode scalars. -/
abbrev Text := List Char

variable {E : Type}

/-! ## Texts -/

/-- `lang_str_byte_size`. -/
def byteSize (s : Text) : Nat := (s.map Char.utf8Size).sum

/-- A `str` in memory: its bytes, their number in 8 bytes and a header of 16 are one object, whose
size is an `isize`. -/
structure Str where
  text : Text
  fits : 16 + (8 + byteSize text) < 2 ^ 63

/-- `lang_str_size`. -/
def size (s : Text) : Int := s.length

/-- `lang_str_substring`. -/
def substring (s : Text) (start stop : Int) : Run E Text :=
  if start < 0 ∨ stop < 0 ∨ stop < start ∨ size s < stop then .trap (.substring start stop s.length)
  else .value ((s.take stop.toNat).drop start.toNat)

/-- The number of characters before the first place where `needle` stands. -/
def place (needle : Text) : Text → Option Nat
  | [] => if needle = [] then some 0 else none
  | c :: cs => if needle.isPrefixOf (c :: cs) then some 0 else (place needle cs).map (· + 1)

/-- `lang_str_index_of`: the bytes before the first place where `needle` stands. -/
def indexOf (s needle : Text) : Option Int :=
  (place needle s).map fun k => (byteSize (s.take k) : Int)

/-- `lang_str_split` at a separator of one character. -/
def split (s : Text) (separator : Char) : List Text := s.splitOn separator

/-- `lang_str_starts_with`. -/
def startsWith (s front : Text) : Bool := front.isPrefixOf s

/-- `lang_str_ends_with`. -/
def endsWith (s back : Text) : Bool := back.isSuffixOf s

/-- The last character of a text, after a loop that takes one after another. -/
def lastChar (s : Text) (ch : Char) : Char := s.foldl (fun _ c => c) ch

/-! ## Lists, numbers and casts -/

/-- `xs[i]`. -/
def get {A : Type} (xs : List A) (i : Int) : Run E A :=
  if i < 0 then .trap .index
  else match xs[i.toNat]? with
    | some x => .value x
    | none => .trap .index

/-- The sum, difference or product of two numbers of the type with the least number `lo` and the
greatest number `hi`. It is irreducible, since comparing numbers of 64 bits by unfolding is slow. -/
@[irreducible] def inRange (lo hi n : Int) : Run E Int := if lo ≤ n ∧ n ≤ hi then .value n
    else .trap .overflow

/-- A result in `i64`. -/
def i64 (n : Int) : Run E Int := inRange (-2 ^ 63) (2 ^ 63 - 1) n

/-- A result in `u16`. -/
def u16 (n : Int) : Run E Int := inRange 0 (2 ^ 16 - 1) n

/-- `/` on `i64`. -/
def div (a b : Int) : Run E Int := if b = 0 then .trap .divideByZero else i64 (a.tdiv b)

/-- `%` on `i64`. -/
def rem (a b : Int) : Run E Int := if b = 0 then .trap .divideByZero else i64 (a.tmod b)

/-- `as u8` and `as u16` keep the lower bits. -/
def asUnsigned (bits : Nat) (n : Int) : Int := n % 2 ^ bits

/-- `as i32`. -/
def asI32 (n : Int) : Int := (n + 2 ^ 31) % 2 ^ 32 - 2 ^ 31

/-- `guard_valid_char`. -/
def asChar (n : Int) : Run E Char :=
  let cp := asUnsigned 32 n
  if 0x10FFFF < cp ∨ 0xD800 ≤ cp ∧ cp ≤ 0xDFFF then .trap .notAChar
  else .value (Char.ofNat cp.toNat)

/-- `as i64` of a character. -/
def codePoint (c : Char) : Int := c.toNat

/-! ## When they do not panic -/

theorem byteSize_nil : byteSize [] = 0 := rfl

theorem byteSize_append (s t : Text) : byteSize (s ++ t) = byteSize s + byteSize t := by
  unfold byteSize
  rw [List.map_append, List.sum_append]

theorem length_le_byteSize (s : Text) : s.length ≤ byteSize s := by
  induction s with
  | nil => exact Nat.le_refl 0
  | cons c s ih =>
    have hpos := Char.utf8Size_pos c
    show s.length + 1 ≤ c.utf8Size + byteSize s
    omega

theorem byteSize_take_drop (s : Text) (k : Nat) :
    byteSize (s.take k) + byteSize (s.drop k) = byteSize s := by
  rw [← byteSize_append, List.take_append_drop]

theorem byteSize_take_le (s : Text) (k : Nat) : byteSize (s.take k) ≤ byteSize s := by
  have := byteSize_take_drop s k
  omega

theorem byteSize_drop_le (s : Text) (k : Nat) : byteSize (s.drop k) ≤ byteSize s := by
  have := byteSize_take_drop s k
  omega

theorem substring_ok {s : Text} {a b : Int} (ha : 0 ≤ a) (hab : a ≤ b) (hb : b ≤ size s) :
    (substring s a b : Run E Text) = .value ((s.take b.toNat).drop a.toNat) :=
  if_neg (by omega)

theorem substring_safe {s : Text} {a b : Int} : (substring s a b : Run E Text).Safe ↔
    0 ≤ a ∧ a ≤ b ∧ b ≤ size s := by
  unfold substring
  split
  · constructor
    · intro h
      exact absurd h (Ending.safe_trap _)
    · intro h
      omega
  · constructor
    · intro _
      omega
    · intro _
      exact Ending.safe_value _

theorem i64_ok {n : Int} (hlo : -2 ^ 63 ≤ n) (hhi : n < 2 ^ 63) :
    (i64 n : Run E Int) = .value n := by
  unfold i64 inRange
  exact if_pos (by omega)

theorem i64_bind {A : Type} {n : Int} {f : Int → Run E A} (h : -2 ^ 63 ≤ n ∧ n < 2 ^ 63) :
    (i64 n >>= f) = f n := by
  rw [i64_ok h.1 h.2, Ending.value_bind]

theorem i64_trap {n : Int} (h : n < -2 ^ 63 ∨ 2 ^ 63 ≤ n) :
    (i64 n : Run E Int) = .trap .overflow := by
  unfold i64 inRange
  exact if_neg (by omega)

theorem i64_iff {n m : Int} :
    (i64 n : Run E Int) = .value m ↔ m = n ∧ -2 ^ 63 ≤ n ∧ n < 2 ^ 63 := by
  by_cases h : -2 ^ 63 ≤ n ∧ n < 2 ^ 63
  · rw [i64_ok h.1 h.2]
    constructor
    · intro hm
      cases hm
      exact ⟨rfl, h⟩
    · rintro ⟨rfl, _⟩
      rfl
  · rw [i64_trap (by omega)]
    constructor
    · intro hm
      cases hm
    · intro hm
      exact absurd hm.2 h

/-- The quotient of a number that is not negative. -/
theorem div_ok {a b : Int} (ha : 0 ≤ a) (hhi : a < 2 ^ 63) (hb : 0 < b) :
    (div a b : Run E Int) = .value (a / b) := by
  have hle : a / b ≤ a := Int.ediv_le_self b ha
  have hpos : 0 ≤ a / b := Int.ediv_nonneg ha (by omega)
  unfold div
  rw [if_neg (by omega), Int.tdiv_eq_ediv_of_nonneg ha]
  exact i64_ok (by omega) (by omega)

theorem div_bind {A : Type} {a b : Int} {f : Int → Run E A} (h : 0 ≤ a ∧ a < 2 ^ 63 ∧ 0 < b) :
    (div a b >>= f) = f (a / b) := by
  rw [div_ok h.1 h.2.1 h.2.2, Ending.value_bind]

/-- The remainder of a number that is not negative. -/
theorem rem_ok {a b : Int} (ha : 0 ≤ a) (hhi : a < 2 ^ 63) (hb : 0 < b) :
    (rem a b : Run E Int) = .value (a % b) := by
  have hparts := Int.mul_ediv_add_emod a b
  have hquotient := Int.mul_nonneg (Int.le_of_lt hb) (Int.ediv_nonneg ha (Int.le_of_lt hb))
  have hpos : 0 ≤ a % b := Int.emod_nonneg a (by omega)
  unfold rem
  rw [if_neg (by omega), Int.tmod_eq_emod_of_nonneg ha]
  exact i64_ok (by omega) (by omega)

theorem rem_bind {A : Type} {a b : Int} {f : Int → Run E A} (h : 0 ≤ a ∧ a < 2 ^ 63 ∧ 0 < b) :
    (rem a b >>= f) = f (a % b) := by
  rw [rem_ok h.1 h.2.1 h.2.2, Ending.value_bind]

section steps

variable {A : Type} {P : A → Prop} {Q : E → Prop}

/-- A sequence that starts with arithmetic in range. -/
theorem ends_i64 {n : Int} {f : Int → Run E A} (hlo : -2 ^ 63 ≤ n) (hhi : n < 2 ^ 63)
    (h : (f n).Ends P Q) : (i64 n >>= f).Ends P Q := by
  rw [i64_bind ⟨hlo, hhi⟩]
  exact h

/-- A sequence that starts with a cut inside the text. -/
theorem ends_substring {s : Text} {a b : Int} {f : Text → Run E A} (ha : 0 ≤ a) (hab : a ≤ b)
    (hb : b ≤ size s) (h : (f ((s.take b.toNat).drop a.toNat)).Ends P Q) :
    (substring s a b >>= f).Ends P Q := by
  rw [substring_ok ha hab hb]
  exact h

end steps

theorem u16_ok {n : Int} (hlo : 0 ≤ n) (hhi : n < 2 ^ 16) : (u16 n : Run E Int) = .value n := by
  unfold u16 inRange
  exact if_pos (by omega)

theorem get_ok {A : Type} {xs : List A} {i : Int} (hlo : 0 ≤ i) (hhi : i < xs.length) :
    ∃ x ∈ xs, (get xs i : Run E A) = .value x := by
  have hlt : i.toNat < xs.length := by omega
  refine ⟨xs[i.toNat], List.getElem_mem hlt, ?_⟩
  unfold get
  rw [if_neg (by omega), List.getElem?_eq_getElem hlt]

theorem get_drop {A : Type} {xs rest : List A} {x : A} {i : Nat} (h : xs.drop i = x :: rest) :
    (get xs (i : Int) : Run E A) = .value x := by
  have hget : xs[i]? = some x := by
    rw [← List.head?_drop, h]
    rfl
  unfold get
  rw [if_neg (by omega), Int.toNat_natCast, hget]

theorem asChar_ok {n : Int} (hlo : 0 ≤ n) (hhi : n ≤ 0x10FFFF)
    (hsurrogate : n < 0xD800 ∨ 0xDFFF < n) :
    (asChar n : Run E Char) = .value (Char.ofNat n.toNat) := by
  have hcp : asUnsigned 32 n = n := Int.emod_eq_of_lt hlo (by omega)
  unfold asChar
  rw [hcp]
  exact if_neg (by omega)

/-! ## Searches -/

/-- Where the search finds the needle, it stands. -/
theorem place_spec {needle s : Text} {k : Nat} (h : place needle s = some k) :
    ∃ rest, s = s.take k ++ (needle ++ rest) ∧ k + needle.length + rest.length = s.length := by
  induction s generalizing k with
  | nil =>
    unfold place at h
    split at h
    · rename_i hneedle
      cases h
      subst hneedle
      exact ⟨[], rfl, rfl⟩
    · cases h
  | cons c s ih =>
    unfold place at h
    split at h
    · rename_i hprefix
      cases h
      obtain ⟨rest, hrest⟩ := List.isPrefixOf_iff_prefix.mp hprefix
      refine ⟨rest, hrest.symm, ?_⟩
      rw [← hrest, List.length_append, Nat.zero_add]
    · obtain ⟨j, hj, rfl⟩ := Option.map_eq_some_iff.mp h
      obtain ⟨rest, hs, hlen⟩ := ih hj
      refine ⟨rest, ?_, ?_⟩
      · rw [List.take_succ_cons, List.cons_append, ← hs]
      · rw [List.length_cons]
        omega

/-- A search passes a text without the first character of the needle. -/
theorem place_append_of_not_mem {c : Char} {needle s : Text} (h : c ∉ s) (rest : Text) :
    place (c :: needle) (s ++ rest) = (place (c :: needle) rest).map (· + s.length) := by
  induction s with
  | nil => simp
  | cons d s ih =>
    have hd := List.ne_of_not_mem_cons h
    have hs := List.not_mem_of_not_mem_cons h
    rw [List.cons_append, place, if_neg (by simp [List.isPrefixOf, hd]), ih hs, Option.map_map,
      List.length_cons]
    congr 1

theorem place_self (needle rest : Text) : place needle (needle ++ rest) = some 0 := by
  cases needle with
  | nil => cases rest <;> simp [place]
  | cons c needle => simp [place]

/-- The first place of a character. -/
theorem place_char_iff {c : Char} {s : Text} {k : Nat} : place [c] s = some k ↔
    ∃ left right, s = left ++ c :: right ∧ c ∉ left ∧ k = left.length := by
  constructor
  · intro h
    induction s generalizing k with
    | nil => cases h
    | cons d s ih =>
      unfold place at h
      split at h
      · rename_i hd
        cases h
        simp only [List.isPrefixOf, Bool.and_true, beq_iff_eq] at hd
        exact ⟨[], s, by rw [hd]; rfl, List.not_mem_nil, rfl⟩
      · rename_i hd
        obtain ⟨j, hj, rfl⟩ := Option.map_eq_some_iff.mp h
        obtain ⟨left, right, rfl, hleft, rfl⟩ := ih hj
        simp only [List.isPrefixOf, Bool.and_true, beq_iff_eq] at hd
        exact ⟨d :: left, right, rfl, List.not_mem_cons_of_ne_of_not_mem hd hleft, rfl⟩
  · rintro ⟨left, right, rfl, hleft, rfl⟩
    rw [place_append_of_not_mem hleft, show c :: right = [c] ++ right from rfl, place_self]
    simp

theorem place_char_none {c : Char} {s : Text} : place [c] s = none ↔ c ∉ s := by
  constructor
  · intro h hc
    obtain ⟨left, right, hs, hleft⟩ := List.eq_append_cons_of_mem hc
    rw [place_char_iff.mpr ⟨left, right, hs, hleft, rfl⟩] at h
    cases h
  · intro h
    have := @place_append_of_not_mem _ [] _ h []
    rwa [List.append_nil] at this

/-! ## Splits -/

/-- The parts of a split, each with a separator after it, are as long as the text and one
separator. -/
theorem split_total (s : Text) (c : Char) :
    ((split s c).map fun p => p.length + 1).sum = s.length + 1 := by
  unfold split
  induction s with
  | nil => rfl
  | cons d s ih =>
    rw [List.splitOn, List.splitOnP_cons_eq_if_modifyHead]
    rw [List.splitOn] at ih
    split
    · simp only [List.map_cons, List.sum_cons, List.length_nil, List.length_cons, ih]
      omega
    · obtain ⟨p, ps, hps⟩ := List.exists_cons_of_ne_nil (List.splitOnP_ne_nil (· == c) s)
      rw [hps] at ih ⊢
      simp only [List.modifyHead_cons, List.map_cons, List.sum_cons, List.length_cons] at ih ⊢
      omega

/-- The characters of a part are characters of the text, and none is the separator. -/
theorem mem_of_mem_split {s : Text} {separator : Char} : ∀ {part : Text}, part ∈ split s separator →
    ∀ c ∈ part, c ∈ s ∧ c ≠ separator := by
  unfold split
  induction s with
  | nil =>
    intro part hpart
    rw [List.mem_singleton.mp hpart]
    exact List.forall_mem_nil _
  | cons d s ih =>
    intro part hpart c hc
    rw [List.splitOn, List.splitOnP_cons_eq_if_modifyHead] at hpart
    rw [List.splitOn] at ih
    have hrest : ∀ part ∈ s.splitOnP (· == separator), c ∈ part → c ∈ d :: s ∧ c ≠ separator := by
      intro part hpart hc
      obtain ⟨hmem, hne⟩ := ih hpart c hc
      exact ⟨List.mem_cons_of_mem d hmem, hne⟩
    split at hpart
    · rcases List.mem_cons.mp hpart with rfl | hpart
      · exact absurd hc List.not_mem_nil
      · exact hrest part hpart hc
    · rename_i hd
      obtain ⟨p, ps, hps⟩ := List.exists_cons_of_ne_nil (List.splitOnP_ne_nil (· == separator) s)
      rw [hps] at hpart hrest
      rw [List.modifyHead_cons] at hpart
      rcases List.mem_cons.mp hpart with rfl | hpart
      · rcases List.mem_cons.mp hc with rfl | hc
        · exact ⟨List.mem_cons_self, fun h => hd (beq_iff_eq.mpr h)⟩
        · exact hrest p List.mem_cons_self hc
      · exact hrest part (List.mem_cons_of_mem p hpart) hc

end stdlib
