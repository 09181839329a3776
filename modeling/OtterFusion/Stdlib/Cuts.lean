-- A search counts bytes and a cut counts characters: what a text is cut into when the offset of a
-- delimiter is used for a cut, and when such a cut is inside the text.
import OtterFusion.Stdlib.Strings

open base.trapping

namespace stdlib

/-! ## ASCII -/

/-- Each character is one byte. -/
def Ascii (s : Text) : Prop := ∀ c ∈ s, c.utf8Size = 1

instance (s : Text) : Decidable (Ascii s) := List.decidableBAll _ s

theorem Ascii.byteSize {s : Text} (h : Ascii s) : byteSize s = s.length := by
  induction s with
  | nil => rfl
  | cons c s ih =>
    have hc := h c List.mem_cons_self
    have hs := ih fun d hd => h d (List.mem_cons_of_mem c hd)
    show c.utf8Size + stdlib.byteSize s = s.length + 1
    omega

theorem ascii_append {s t : Text} : Ascii (s ++ t) ↔ Ascii s ∧ Ascii t := by
  unfold Ascii
  constructor
  · intro h
    exact ⟨fun c hc => h c (List.mem_append_left t hc), fun c hc =>
      h c (List.mem_append_right s hc)⟩
  · rintro ⟨hs, ht⟩ c hc
    rcases List.mem_append.mp hc with hc | hc
    · exact hs c hc
    · exact ht c hc

theorem Ascii.take {s : Text} (h : Ascii s) (n : Nat) : Ascii (s.take n) :=
  fun c hc => h c (List.mem_of_mem_take hc)

theorem Ascii.drop {s : Text} (h : Ascii s) (n : Nat) : Ascii (s.drop n) :=
  fun c hc => h c (List.mem_of_mem_drop hc)

theorem utf8Size_of_lt {c : Char} (h : codePoint c < 128) : c.utf8Size = 1 := by
  have hval : c.val.toNat ≤ 127 := by
    have : (c.val.toNat : Int) < 128 := h
    omega
  exact if_pos hval

/-- A text in ASCII parts around an ASCII separator is ASCII. -/
theorem ascii_of_split {s : Text} (separator : Char) (hseparator : separator.utf8Size = 1)
    (h : ∀ p ∈ split s separator, Ascii p) : Ascii s := by
  unfold split at h
  induction s with
  | nil => exact fun _ hc => by cases hc
  | cons d s ih =>
    rw [List.splitOn, List.splitOnP_cons_eq_if_modifyHead] at h
    rw [List.splitOn] at ih
    obtain ⟨p, ps, hps⟩ := List.exists_cons_of_ne_nil (List.splitOnP_ne_nil (· == separator) s)
    have hds : d.utf8Size = 1 ∧ Ascii s := by
      split at h
      · rename_i hd
        rw [eq_of_beq hd]
        exact ⟨hseparator, ih fun p hp => h p (List.mem_cons_of_mem [] hp)⟩
      · rw [hps, List.modifyHead_cons] at h
        have hhead := h (d :: p) List.mem_cons_self
        refine ⟨hhead d List.mem_cons_self, ih ?_⟩
        rw [hps]
        intro q hq
        rcases List.mem_cons.mp hq with rfl | hq
        · exact fun c hc => hhead c (List.mem_cons_of_mem d hc)
        · exact h q (List.mem_cons_of_mem (d :: p) hq)
    exact List.forall_mem_cons.mpr hds

/-- The parts of a split of an ASCII text. -/
theorem ascii_split {s : Text} (h : Ascii s) (separator : Char) :
    ∀ part ∈ split s separator, Ascii part :=
  fun _ hpart c hc => h c (mem_of_mem_split hpart c hc).1

/-- The bytes of the parts of a split, and one for the separator after each. -/
theorem split_bytes (s : Text) (separator : Char) (hseparator : separator.utf8Size = 1) :
    ((split s separator).map fun p => byteSize p + 1).sum = byteSize s + 1 := by
  unfold split
  induction s with
  | nil => rfl
  | cons d s ih =>
    rw [List.splitOn, List.splitOnP_cons_eq_if_modifyHead]
    rw [List.splitOn] at ih
    have hcons : ∀ t : Text, byteSize (d :: t) = d.utf8Size + byteSize t := fun _ => rfl
    split
    · rename_i hd
      rw [List.map_cons, List.sum_cons, ih, byteSize_nil, hcons, eq_of_beq hd]
      omega
    · obtain ⟨p, ps, hps⟩ := List.exists_cons_of_ne_nil (List.splitOnP_ne_nil (· == separator) s)
      rw [hps] at ih ⊢
      simp only [List.modifyHead_cons, List.map_cons, List.sum_cons, hcons] at ih ⊢
      omega

/-! ## Offsets -/

/-- `index_of` as a number: the bytes before the first `needle`. -/
def offset (needle s : Text) : Option Nat := (place needle s).map fun k => byteSize (s.take k)

theorem indexOf_eq (s needle : Text) :
    indexOf s needle = (offset needle s).map fun i : Nat => (i : Int) := by
  unfold indexOf offset
  rw [Option.map_map]
  rfl

/-- A cut that needs room for `room` characters at the offset of the first `needle` is inside the
text. -/
def Within (room : Nat) (needle s : Text) : Prop :=
  match offset needle s with
  | none => True
  | some i => i + room ≤ s.length

instance (room : Nat) (needle s : Text) : Decidable (Within room needle s) := by
  unfold Within
  split <;> infer_instance

/-- What a cut at the offset of the first `needle` leaves before it. -/
def before (needle s : Text) : Text :=
  match offset needle s with
  | none => s
  | some i => s.take i

/-- What a cut behind the offset of the first `needle` leaves. -/
def after (needle s : Text) : Text :=
  match offset needle s with
  | none => []
  | some i => s.drop (i + needle.length)

variable {needle s : Text} {i : Nat}

/-- The offset counts the characters before the needle at least once. -/
theorem offset_spec (h : offset needle s = some i) :
    ∃ k rest, s = s.take k ++ (needle ++ rest) ∧ k ≤ i ∧ i = byteSize (s.take k) ∧
      k + needle.length + rest.length = s.length := by
  obtain ⟨k, hk, rfl⟩ := Option.map_eq_some_iff.mp h
  obtain ⟨rest, hs, hlen⟩ := place_spec hk
  refine ⟨k, rest, hs, ?_, rfl, hlen⟩
  have hbytes := length_le_byteSize (s.take k)
  rwa [List.length_take, Nat.min_eq_left (by omega)] at hbytes

/-- What a cut leaves behind the needle and the offset are no more bytes than the text. -/
theorem offset_bytes (h : offset needle s = some i) :
    i + needle.length + byteSize (s.drop (i + needle.length)) ≤ byteSize s := by
  obtain ⟨k, rest, hs, hki, hi, hlen⟩ := offset_spec h
  have hneedle := length_le_byteSize needle
  have hsplit : byteSize s = i + (byteSize needle + byteSize rest) := by
    rw [hi, ← byteSize_append, ← byteSize_append, ← hs]
  have hdrop : s.drop (i + needle.length) = rest.drop (i - k) := by
    have hrest : s.drop (k + needle.length) = rest := by
      rw [hs, ← List.append_assoc, List.drop_left' ?_]
      rw [List.length_append, List.length_take]
      omega
    rw [← hrest, List.drop_drop]
    congr 1
    omega
  have := byteSize_drop_le rest (i - k)
  rw [hdrop]
  omega

/-- When what a cut leaves before the needle is ASCII, the offset counts characters. -/
theorem place_of_offset (h : offset needle s = some i) (hbefore : Ascii (s.take i)) :
    place needle s = some i := by
  obtain ⟨k, hk, rfl⟩ := Option.map_eq_some_iff.mp h
  obtain ⟨_, _, hlen⟩ := place_spec hk
  have hki := length_le_byteSize (s.take k)
  rw [List.length_take, Nat.min_eq_left (by omega)] at hki
  have htake : Ascii (s.take k) := by
    have : s.take k = (s.take (byteSize (s.take k))).take k := by
      rw [List.take_take, Nat.min_eq_left hki]
    rw [this]
    exact hbefore.take k
  rw [hk, htake.byteSize, List.length_take, Nat.min_eq_left (by omega)]

/-- When what a cut leaves before the needle is ASCII, the cut is at the needle. -/
theorem offset_of_ascii (h : offset needle s = some i) (hbefore : Ascii (s.take i)) :
    ∃ rest, s = s.take i ++ (needle ++ rest) ∧ i + needle.length ≤ s.length ∧
      s.drop (i + needle.length) = rest := by
  obtain ⟨rest, hs, hlen⟩ := place_spec (place_of_offset h hbefore)
  refine ⟨rest, hs, by omega, ?_⟩
  rw [hs, ← List.append_assoc, List.drop_left' ?_]
  rw [List.length_append, List.length_take]
  omega

/-- In ASCII the offset counts characters. -/
theorem Ascii.offset_eq (h : Ascii s) (needle : Text) : offset needle s = place needle s := by
  cases hplace : place needle s with
  | none =>
    unfold offset
    rw [hplace]
    rfl
  | some k =>
    obtain ⟨_, _, hlen⟩ := place_spec hplace
    unfold offset
    rw [hplace, Option.map_some, (h.take k).byteSize, List.length_take, Nat.min_eq_left (by omega)]

/-- ASCII before and behind the needle. -/
theorem ascii_of_cut (h : offset needle s = some i) (hneedle : Ascii needle)
    (hbefore : Ascii (s.take i)) (hafter : Ascii (s.drop (i + needle.length))) : Ascii s := by
  obtain ⟨rest, hs, _, hrest⟩ := offset_of_ascii h hbefore
  rw [hrest] at hafter
  rw [hs]
  exact ascii_append.mpr ⟨hbefore, ascii_append.mpr ⟨hneedle, hafter⟩⟩

theorem Ascii.before (h : Ascii s) (needle : Text) : Ascii (before needle s) := by
  unfold stdlib.before
  split
  · exact h
  · exact h.take _

theorem Ascii.after (h : Ascii s) (needle : Text) : Ascii (after needle s) := by
  unfold stdlib.after
  split
  · exact List.forall_mem_nil _
  · exact h.drop _

theorem within_of_ascii {room : Nat} (h : Ascii s) (hroom : room ≤ needle.length) :
    Within room needle s := by
  unfold Within
  split
  · trivial
  · rename_i i hi
    obtain ⟨_, _, hlen, _⟩ := offset_of_ascii hi (h.take i)
    omega

/-! ## Cuts -/

theorem substring_head {E : Type} {a : Int} {i : Nat} (ha : a = i) (h : i ≤ s.length) :
    (substring s 0 a : Run E Text) = .value (s.take i) := by
  subst ha
  rw [substring_ok (Int.le_refl 0) (by omega) (by unfold size; omega)]
  rfl

theorem substring_tail {E : Type} {a : Int} {i : Nat} (ha : a = i) (h : i ≤ s.length) :
    (substring s a (size s) : Run E Text) = .value (s.drop i) := by
  subst ha
  rw [substring_ok (by omega) (by unfold size; omega) (Int.le_refl _)]
  unfold size
  rw [Int.toNat_natCast, Int.toNat_natCast, List.take_length]

/-- A text behind an offset of its characters, to its end. -/
theorem take_size_drop (s : Text) (n : Int) :
    (s.take (size s).toNat).drop n.toNat = s.drop n.toNat := by
  unfold size
  rw [Int.toNat_natCast, List.take_length]

/-! ## Traps -/

variable {A : Type} {E : Type}

/-- A cut is safe exactly when it is inside the text. -/
theorem safe_substring {a b : Int} {f : Text → Run E A} : (substring s a b >>= f).Safe ↔
    (0 ≤ a ∧ a ≤ b ∧ b ≤ size s) ∧ (f ((s.take b.toNat).drop a.toNat)).Safe := by
  rw [Ending.safe_bind, substring_safe]
  constructor
  · rintro ⟨hbounds, hf⟩
    exact ⟨hbounds, hf _ (substring_ok hbounds.1 hbounds.2.1 hbounds.2.2)⟩
  · rintro ⟨hbounds, hf⟩
    refine ⟨hbounds, fun t ht => ?_⟩
    rw [substring_ok hbounds.1 hbounds.2.1 hbounds.2.2] at ht
    cases ht
    exact hf

theorem safe_i64 {n : Int} {f : Int → Run E A} (hlo : -2 ^ 63 ≤ n) (hhi : n < 2 ^ 63) :
    (i64 n >>= f).Safe ↔ (f n).Safe := by
  rw [i64_ok hlo hhi]
  rfl

end stdlib
