-- The value types that serve as keys of a `Map` and elements of a `Set`: where `eq` and `hash`
-- agree.
import OtterFusion.Stdlib.Collections
import OtterFusion.Stdlib.JsonKeys
import OtterFusion.Stdlib.TimeKeys

open base.trapping base.json base.equality stdlib.hash

namespace stdlib.keys

open json (Tree F64 Alike ZeroTexts deepHash negativeZeros)
open time (Zone Time)

/-- The hashes of `"0"` and `"-0"` differ by a unit of the modulus. -/
theorem gap_unit : json.gap hashStrBytes * 3591544990 ≡ 1 [ZMOD modulus] := by decide +kernel

/-- Equal values of `Json` have one hash exactly when their negative zeros weigh the same, and equal
date-times have one hash and are one instant exactly when zones of one text are one zone. Equal
zones, sets and deques have one hash. Each `eq` is an equivalence relation. -/
theorem eq_and_hash_agree_iff (toStr : F64 → Text) (htexts : ZeroTexts toStr) :
    (Lawful Tree.eq ∧ ∀ x y : Tree,
      ((x.eq y = true → ∀ h h', deepHash hashStrBytes toStr x.value = .value h →
          deepHash hashStrBytes toStr y.value = .value h' → h = h') ↔
        (Alike x.value y.value → negativeZeros x.value ≡ negativeZeros y.value [ZMOD modulus]))) ∧
    (time.Returns (fun x y : Zone => x.1.eq y.1) ∧ ∀ x y : Zone, x.1.eq y.1 = .value true →
      x.1.hash hashStrBytes = y.1.hash hashStrBytes) ∧
    (time.Returns (fun x y : Time => x.1.eq y.1) ∧ ∀ x y : Time,
      ((x.1.eq y.1 = .value true →
          (∀ h h', x.1.hash hashStrBytes = .value h → y.1.hash hashStrBytes = .value h' → h = h') ∧
            x.1.instant = y.1.instant) ↔
        (x.1.SameFields y.1 → x.1.tz.toStr = y.1.tz.toStr → x.1.tz = y.1.tz))) ∧
    ∀ (T : Type) (eqT : T → T → Bool) (hashT : T → Panics Int), Lawful eqT → Respected eqT hashT →
      (Lawful (collections.Set.eq : collections.Set eqT → collections.Set eqT → Bool) ∧
        ∀ (s t : collections.Set eqT) (h h' : Int), s.eq t = true → s.hash hashT = .value h →
          t.hash hashT = .value h' → h = h') ∧
      (Lawful (collections.Deque.eq eqT) ∧
        ∀ (d e : collections.Deque T), d.eq eqT e = true → d.hash hashT = e.hash hashT) := by
  refine ⟨⟨Tree.lawful, fun x y => ?_⟩, ⟨time.zone_returns, fun x y => time.zone_hash⟩,
    ⟨time.time_returns, time.time_agrees_iff⟩, fun T eqT hashT heq hhash =>
      ⟨⟨collections.Set.lawful heq, fun s t h h' hst hs ht =>
        collections.Set.hash_eq heq hhash hst hs ht⟩,
        collections.Deque.lawful heq, fun d e => collections.Deque.hash_eq hhash⟩⟩
  rw [Tree.eq_iff, json.deepHash_eq, json.deepHash_eq]
  constructor
  · intro h halike
    rw [← halike.digest_eq_iff htexts gap_unit x.plain.keyed]
    exact h halike _ _ rfl rfl
  · intro h halike hash hash' hx hy
    rw [← Ending.value.inj hx, ← Ending.value.inj hy,
      halike.digest_eq_iff htexts gap_unit x.plain.keyed]
    exact h halike

/-- The texts of the zeros. -/
def zeroText (x : F64) : Text := if x = json.negativeZero then ['-', '0'] else ['0']

/-- A number as a value. -/
def numberTree (x : F64) (h : x.isNaN = false) : Tree where
  value := .number x
  plain := ⟨fun y hy => by rwa [List.mem_singleton.mp hy], trivial⟩

theorem eq_and_hash_agree_iff_at :
    (∀ x y : Tree,
      ((x.eq y = true → ∀ h h', deepHash hashStrBytes zeroText x.value = .value h →
          deepHash hashStrBytes zeroText y.value = .value h' → h = h') ↔
        (Alike x.value y.value → negativeZeros x.value ≡ negativeZeros y.value [ZMOD modulus]))) ∧
    ∀ (s t : collections.Set fun a b : Int => decide (a = b)) (h h' : Int), s.eq t = true →
      s.hash (fun a => .value (a % 2 ^ 64)) = .value h →
        t.hash (fun a => .value (a % 2 ^ 64)) = .value h' → h = h' := by
  have hall := eq_and_hash_agree_iff zeroText ⟨rfl, rfl⟩
  refine ⟨hall.1.2, (hall.2.2.2 Int (fun a b => decide (a = b)) (fun a => .value (a % 2 ^ 64))
    (lawful_image fun a => a) fun a b hab => ?_).1.2⟩
  rw [of_decide_eq_true hab]

/-- A date-time in a zone. -/
def newYear (tz : time.TimeZone) (htyped : tz.Typed) : Time :=
  ⟨⟨2024, 1, 1, 0, 0, 0, 0, tz⟩, htyped⟩

/-- The zeros are equal and have two hashes, so do a date-time in UTC and one in a zone that is
named `UTC`, and two offsets of one text make two instants. -/
theorem equal_but_unlike :
    (¬∀ x y : Tree, x.eq y = true → ∀ h h', deepHash hashStrBytes zeroText x.value = .value h →
      deepHash hashStrBytes zeroText y.value = .value h' → h = h') ∧
    (¬∀ x y : Time, x.1.eq y.1 = .value true →
      ∀ h h', x.1.hash hashStrBytes = .value h → y.1.hash hashStrBytes = .value h' → h = h') ∧
    ¬∀ x y : Time, x.1.eq y.1 = .value true → x.1.instant = y.1.instant := by
  refine ⟨fun h => ?_, fun h => ?_, fun h => ?_⟩
  · have hsame := h (numberTree json.zero rfl) (numberTree json.negativeZero rfl) rfl _ _
      (json.deepHash_eq _) (json.deepHash_eq _)
    revert hsame
    decide
  · have hsame := h (newYear .utc trivial) (newYear (.namedTimeZone ['U', 'T', 'C']) trivial)
      (by decide) 2338625761137430639 11810552748146522325 (by decide)
      (by decide +kernel)
    omega
  · have hsame := h (newYear (.fixedOffset 0) ⟨by decide, by decide⟩)
      (newYear (.fixedOffset 30) ⟨by decide, by decide⟩) (by decide +kernel)
    revert hsame
    decide

end stdlib.keys
