-- What `offset_at` and `position_at` compute, on the characters of a text: the loops over bytes see
-- a line feed where the text has one, and nowhere else.
import OtterFusion.Lsp.Positions

namespace lsp

/-! ## Lengths -/

/-- The UTF-16 units of a text. -/
def units (text : Text) : Nat := (text.map fun c => (lenUtf16 c).toNat).sum

@[simp] theorem units_nil : units [] = 0 := rfl

@[simp] theorem units_cons (c : Char) (text : Text) :
    units (c :: text) = (lenUtf16 c).toNat + units text := by
  simp [units]

@[simp] theorem units_append (a b : Text) : units (a ++ b) = units a + units b := by
  simp [units]

theorem lenUtf16_pos (c : Char) : 0 < (lenUtf16 c).toNat := by
  unfold lenUtf16
  split <;> decide

@[simp] theorem utf8_cons (c : Char) (text : Text) :
    utf8 (c :: text) = String.utf8EncodeChar c ++ utf8 text := by
  simp [utf8]

@[simp] theorem len_nil : len [] = 0 := rfl

@[simp] theorem len_cons (c : Char) (text : Text) : len (c :: text) = c.utf8Size + len text := by
  simp [len]

@[simp] theorem len_append (a b : Text) : len (a ++ b) = len a + len b := by
  simp [len, utf8]

theorem len_pos {text : Text} (h : text ≠ []) : 0 < len text := by
  cases text with
  | nil => exact absurd rfl h
  | cons c text =>
    rw [len_cons]
    exact Nat.add_pos_left (Char.utf8Size_pos c) _

theorem splitAt_append (a b : Text) : splitAt (a ++ b) (len a) = some (a, b) := by
  induction a with
  | nil => simp [splitAt]
  | cons c a ih =>
    obtain ⟨n, hn⟩ := Nat.exists_eq_succ_of_ne_zero (Nat.ne_of_gt (Char.utf8Size_pos c))
    have hlen : len (c :: a) = (n + len a) + 1 := by
      rw [len_cons]
      omega
    have hle : c.utf8Size ≤ (n + len a) + 1 := by omega
    have hrest : (n + len a) + 1 - c.utf8Size = len a := by omega
    rw [hlen, List.cons_append, splitAt, if_pos hle, hrest, ih]
    rfl

theorem splitAt_some {text a b : Text} {n : Nat} (h : splitAt text n = some (a, b)) :
    text = a ++ b ∧ len a = n := by
  induction text generalizing n a with
  | nil =>
    cases n with
    | zero =>
      cases h
      exact ⟨rfl, rfl⟩
    | succ n => cases h
  | cons c text ih =>
    cases n with
    | zero =>
      cases h
      exact ⟨rfl, rfl⟩
    | succ n =>
      rw [splitAt] at h
      split at h
      · obtain ⟨⟨a', b'⟩, hsplit, hab⟩ := Option.map_eq_some_iff.mp h
        cases hab
        obtain ⟨rfl, hlen⟩ := ih hsplit
        refine ⟨rfl, ?_⟩
        rw [len_cons]
        omega
      · cases h

/-! ## Line feeds -/

/-- A character other than the line feed has no byte of it. -/
theorem lf_not_mem {c : Char} (h : c ≠ '\n') : (0x0A : UInt8) ∉ String.utf8EncodeChar c := by
  intro hmem
  have hoctet : (10 : Int) ∈ base.utf8.octets c := by
    rw [base.utf8.octets_eq]
    exact List.mem_map.mpr ⟨_, hmem, rfl⟩
  rcases base.utf8.octets_cases c with ⟨a, ho, _, hc⟩ | ⟨a, b, ho, ha, hb, _⟩ |
    ⟨a, b, d, ho, ha, hb, hd, _⟩ | ⟨a, b, d, e, ho, ha, hb, hd, he, _⟩
  · rw [ho, List.mem_singleton] at hoctet
    refine h (Char.toNat_inj.mp ?_)
    have hten : c.toNat = 10 := by omega
    rw [hten]
    rfl
  · unfold base.utf8.Tail at hb
    rw [ho] at hoctet
    simp only [List.mem_cons, List.not_mem_nil, or_false] at hoctet
    omega
  · unfold base.utf8.Second3 base.utf8.Tail at hb
    unfold base.utf8.Tail at hd
    rw [ho] at hoctet
    simp only [List.mem_cons, List.not_mem_nil, or_false] at hoctet
    omega
  · unfold base.utf8.Second4 base.utf8.Tail at hb
    unfold base.utf8.Tail at hd he
    rw [ho] at hoctet
    simp only [List.mem_cons, List.not_mem_nil, or_false] at hoctet
    omega

/-- The line feeds of a text. -/
def feeds (text : Text) : Nat := text.count '\n'

@[simp] theorem feeds_nil : feeds [] = 0 := rfl

@[simp] theorem feeds_append (a b : Text) : feeds (a ++ b) = feeds a + feeds b := by
  simp [feeds]

@[simp] theorem feeds_cons (c : Char) (text : Text) :
    feeds (c :: text) = feeds text + if c = '\n' then 1 else 0 := by
  simp [feeds, List.count_cons]

theorem feeds_eq_zero {text : Text} : feeds text = 0 ↔ '\n' ∉ text := List.count_eq_zero

/-- A text that is nothing, or ends with a line feed. -/
def WholeLines (text : Text) : Prop := text = [] ∨ ∃ a, text = a ++ ['\n']

theorem WholeLines.cons {text : Text} (h : WholeLines text) (hne : text ≠ []) (c : Char) :
    WholeLines (c :: text) := by
  rcases h with h | ⟨a, rfl⟩
  · exact absurd h hne
  · exact .inr ⟨c :: a, rfl⟩

theorem WholeLines.of_cons {c : Char} {text : Text} (h : WholeLines (c :: text)) :
    (text = [] ∧ c = '\n') ∨ (text ≠ [] ∧ WholeLines text) := by
  rcases h with h | ⟨a, h⟩
  · cases h
  · cases a with
    | nil =>
      cases h
      exact .inl ⟨rfl, rfl⟩
    | cons d a =>
      cases h
      exact .inr ⟨by simp, .inr ⟨a, rfl⟩⟩

/-- A text is whole lines and what follows them. -/
theorem exists_wholeLines (text : Text) :
    ∃ a b, text = a ++ b ∧ WholeLines a ∧ '\n' ∉ b := by
  induction text with
  | nil => exact ⟨[], [], rfl, .inl rfl, by simp⟩
  | cons c text ih =>
    obtain ⟨a, b, rfl, ha, hb⟩ := ih
    by_cases hne : a = []
    · subst hne
      by_cases hc : c = '\n'
      · exact ⟨[c], b, rfl, .inr ⟨[], by rw [hc]; rfl⟩, hb⟩
      · exact ⟨[], c :: b, rfl, .inl rfl, by simp [hb, Ne.symm hc]⟩
    · exact ⟨c :: a, b, rfl, ha.cons hne c, hb⟩

/-- The text up to the `n`th line feed, and what follows it. -/
def afterFeeds : Nat → Text → Option (Text × Text)
  | 0, text => some ([], text)
  | _ + 1, [] => none
  | n + 1, c :: text =>
    (afterFeeds (if c = '\n' then n else n + 1) text).map fun (a, b) => (c :: a, b)

theorem afterFeeds_some {n : Nat} {text a b : Text} (h : afterFeeds n text = some (a, b)) :
    text = a ++ b ∧ feeds a = n := by
  induction text generalizing n a with
  | nil =>
    cases n with
    | zero =>
      cases h
      exact ⟨rfl, rfl⟩
    | succ n => cases h
  | cons c text ih =>
    cases n with
    | zero =>
      cases h
      exact ⟨rfl, rfl⟩
    | succ n =>
      obtain ⟨⟨a', b'⟩, hrest, hab⟩ := Option.map_eq_some_iff.mp h
      cases hab
      obtain ⟨rfl, hfeeds⟩ := ih hrest
      refine ⟨rfl, ?_⟩
      rw [feeds_cons, hfeeds]
      split <;> rfl

/-- The text up to a line feed is whole lines. -/
theorem wholeLines_afterFeeds {n : Nat} {text a b : Text} (h : afterFeeds n text = some (a, b)) :
    WholeLines a := by
  induction text generalizing n a with
  | nil =>
    cases n with
    | zero =>
      cases h
      exact .inl rfl
    | succ n => cases h
  | cons c text ih =>
    cases n with
    | zero =>
      cases h
      exact .inl rfl
    | succ n =>
      obtain ⟨⟨a', b'⟩, hrest, hab⟩ := Option.map_eq_some_iff.mp h
      cases hab
      by_cases hne : a' = []
      · subst hne
        have hfeeds := (afterFeeds_some hrest).2
        by_cases hc : c = '\n'
        · exact .inr ⟨[], by rw [hc]; rfl⟩
        · rw [if_neg hc] at hfeeds
          cases hfeeds
      · exact (ih hrest).cons hne c

theorem afterFeeds_wholeLines {a : Text} (h : WholeLines a) (b : Text) :
    afterFeeds (feeds a) (a ++ b) = some (a, b) := by
  induction a with
  | nil => simp [afterFeeds]
  | cons c a ih =>
    rcases h.of_cons with ⟨rfl, rfl⟩ | ⟨hne, hwhole⟩
    · simp [afterFeeds]
    · have hih := ih hwhole
      by_cases hc : c = '\n'
      · simp [hc, afterFeeds, hih]
      · have hpos : feeds a ≠ 0 := by
          rcases hwhole with h | ⟨a', rfl⟩
          · exact absurd h hne
          · simp
        obtain ⟨n, hn⟩ := Nat.exists_eq_succ_of_ne_zero hpos
        rw [hn] at hih
        simp [hc, hn, afterFeeds, hih]

theorem afterFeeds_none {n : Nat} {text : Text} : afterFeeds n text = none ↔ feeds text < n := by
  induction text generalizing n with
  | nil => cases n <;> simp [afterFeeds]
  | cons c text ih =>
    cases n with
    | zero => simp [afterFeeds]
    | succ n =>
      rw [afterFeeds, Option.map_eq_none_iff, ih, feeds_cons]
      split <;> omega

/-! ## `offset_at` -/

/-- Bytes without a line feed are passed over. -/
theorem findLine_skip {line seen : UInt32} {i : Nat} {bytes rest : List UInt8}
    (h : (0x0A : UInt8) ∉ bytes) :
    findLine line seen i (bytes ++ rest) = findLine line seen (i + bytes.length) rest := by
  induction bytes generalizing i with
  | nil => rfl
  | cons b bytes ih =>
    rw [List.mem_cons, not_or] at h
    rw [List.cons_append, findLine, if_neg (Ne.symm h.1), ih h.2, List.length_cons,
      Nat.add_right_comm, Nat.add_assoc]

theorem utf8_lf (text : Text) : utf8 ('\n' :: text) = 0x0A :: utf8 text := rfl

theorem findLine_eq {line seen : UInt32} {n i : Nat} {text : Text}
    (h : seen.toNat + (n + 1) = line.toNat) :
    findLine line seen i (utf8 text) = (afterFeeds (n + 1) text).map fun p => i + len p.1 := by
  induction text generalizing seen n i with
  | nil => rfl
  | cons c text ih =>
    rw [afterFeeds, Option.map_map]
    by_cases hc : c = '\n'
    · subst hc
      have hnext : (seen + 1).toNat = seen.toNat + 1 := by
        rw [UInt32.toNat_add, UInt32.toNat_one, Nat.mod_eq_of_lt]
        have hlt := line.toNat_lt
        omega
      rw [utf8_lf, findLine, if_pos rfl, if_pos rfl]
      cases n with
      | zero =>
        have hline : seen + 1 = line := UInt32.toNat_inj.mp (by omega)
        rw [if_pos hline, afterFeeds]
        rfl
      | succ n =>
        have hline : seen + 1 ≠ line := fun heq => by
          have hnat := congrArg UInt32.toNat heq
          omega
        rw [if_neg hline, ih (n := n) (by omega)]
        congr 1
        funext p
        simp [Nat.add_assoc, Char.utf8Size]
    · rw [utf8_cons, findLine_skip (lf_not_mem hc), ih h, if_neg hc]
      congr 1
      funext p
      simp [Nat.add_assoc]

/-- The position's line is looked for, and then the column. -/
theorem offsetAt_eq (text : Text) (pos : Position) :
    offsetAt text pos = some (match afterFeeds pos.line.toNat text with
      | none => len text
      | some (a, b) => len a + walk pos.character 0 b) := by
  unfold offsetAt lineStart
  split_ifs with hline
  · obtain ⟨n, hn⟩ : ∃ n, pos.line.toNat = n + 1 :=
      Nat.exists_eq_succ_of_ne_zero (Nat.ne_of_gt (UInt32.lt_iff_toNat_lt.mp hline))
    rw [findLine_eq (n := n) (by rw [hn]; exact Nat.zero_add _), ← hn]
    cases hafter : afterFeeds pos.line.toNat text with
    | none => rfl
    | some p =>
      obtain ⟨rfl, -⟩ := afterFeeds_some (a := p.1) (b := p.2) hafter
      rw [Option.map_some]
      dsimp only
      rw [Nat.zero_add, splitAt_append]
      rfl
  · have hzero : pos.line.toNat = 0 := by
      have hnot := mt UInt32.lt_iff_toNat_lt.mpr hline
      rw [UInt32.toNat_zero] at hnot
      omega
    rw [hzero]
    cases text <;> simp [splitAt, afterFeeds]

/-- The walk passes over characters that are on the line and before the column. -/
theorem walk_append {character u : UInt32} {p rest : Text} (hp : '\n' ∉ p)
    (hunits : u.toNat + units p ≤ character.toNat) :
    ∃ v : UInt32, v.toNat = u.toNat + units p ∧
      walk character u (p ++ rest) = len p + walk character v rest := by
  induction p generalizing u with
  | nil => exact ⟨u, rfl, by simp⟩
  | cons c p ih =>
    rw [List.mem_cons, not_or] at hp
    rw [units_cons] at hunits
    have hpos := lenUtf16_pos c
    have hlt := character.toNat_lt
    have hnext : (u + lenUtf16 c).toNat = u.toNat + (lenUtf16 c).toNat := by
      rw [UInt32.toNat_add, Nat.mod_eq_of_lt]
      omega
    have hgoes : ¬ (c = '\n' ∨ character ≤ u) := by
      rintro (hc | hle)
      · exact hp.1 hc.symm
      · have hle := UInt32.le_iff_toNat_le.mp hle
        omega
    obtain ⟨v, hv, hwalk⟩ := ih (u := u + lenUtf16 c) hp.2 (by omega)
    refine ⟨v, by rw [hv, hnext, units_cons, Nat.add_assoc], ?_⟩
    rw [List.cons_append, walk, if_neg hgoes, hwalk, len_cons, Nat.add_assoc]

/-- The walk ends where the column is reached. -/
theorem walk_of_le {character u : UInt32} (h : character ≤ u) (text : Text) :
    walk character u text = 0 := by
  cases text with
  | nil => rfl
  | cons c text => exact if_pos (.inr h)

/-- The walk ends at the column. -/
theorem walk_column {character : UInt32} {p rest : Text} (hp : '\n' ∉ p)
    (hunits : units p = character.toNat) : walk character 0 (p ++ rest) = len p := by
  obtain ⟨v, hv, hwalk⟩ := @walk_append character 0 p rest hp
    (by simp [hunits])
  have hle : character ≤ v := by
    rw [UInt32.le_iff_toNat_le, hv, hunits]
    simp
  rw [hwalk, walk_of_le hle, Nat.add_zero]

/-- A column beyond what is there: the walk ends with the line, or goes on over what is no line
feed. -/
theorem walk_beyond {character : UInt32} {p rest : Text} (hp : '\n' ∉ p)
    (hunits : units p < character.toNat) :
    ((rest = [] ∨ ∃ r, rest = '\n' :: r) → walk character 0 (p ++ rest) = len p) ∧
    ((∃ c r, rest = c :: r ∧ c ≠ '\n') → len p < walk character 0 (p ++ rest)) := by
  obtain ⟨v, hv, hwalk⟩ := @walk_append character 0 p rest hp (by
    rw [UInt32.toNat_zero]
    omega)
  rw [UInt32.toNat_zero, Nat.zero_add] at hv
  rw [hwalk]
  constructor
  · rintro (rfl | ⟨r, rfl⟩)
    · simp [walk]
    · simp [walk]
  · rintro ⟨c, r, rfl, hc⟩
    have hgoes : ¬ (c = '\n' ∨ character ≤ v) := by
      rintro (h | hle)
      · exact hc h
      · have hle := UInt32.le_iff_toNat_le.mp hle
        omega
    have hpos := Char.utf8Size_pos c
    rw [walk, if_neg hgoes]
    omega

/-! ## `position_at` -/

theorem countLines_skip {found : UInt32 × Nat} {i : Nat} {bytes rest : List UInt8}
    (h : (0x0A : UInt8) ∉ bytes) :
    countLines found i (bytes ++ rest) = countLines found (i + bytes.length) rest := by
  induction bytes generalizing i with
  | nil => rfl
  | cons b bytes ih =>
    rw [List.mem_cons, not_or] at h
    rw [List.cons_append, countLines, if_neg (Ne.symm h.1), ih h.2, List.length_cons,
      Nat.add_right_comm, Nat.add_assoc]

theorem countLines_cons {found : UInt32 × Nat} {i : Nat} (c : Char) (text : Text) :
    countLines found i (utf8 (c :: text)) =
      countLines (if c = '\n' then (found.1 + 1, i + 1) else found) (i + c.utf8Size)
        (utf8 text) := by
  by_cases hc : c = '\n'
  · subst hc
    rfl
  · rw [utf8_cons, countLines_skip (lf_not_mem hc), if_neg hc, String.length_utf8EncodeChar]

/-- The lines are counted by their line feeds, and the last one begins after the last of these. -/
theorem countLines_eq {a b : Text} (ha : WholeLines a) (hb : '\n' ∉ b) (found : UInt32 × Nat)
    (i : Nat) : countLines found i (utf8 (a ++ b)) =
      (found.1 + UInt32.ofNat (feeds a), if a = [] then found.2 else i + len a) := by
  induction a generalizing found i with
  | nil =>
    induction b generalizing i with
    | nil => simp [utf8, countLines]
    | cons c b ih =>
      rw [List.mem_cons, not_or] at hb
      have hih := ih hb.2 (i + c.utf8Size)
      rw [List.nil_append] at hih ⊢
      rw [countLines_cons, if_neg (Ne.symm hb.1), hih]
      simp
  | cons c a ih =>
    rw [List.cons_append, countLines_cons]
    rcases ha.of_cons with ⟨rfl, rfl⟩ | ⟨hne, hwhole⟩
    · rw [ih (.inl rfl)]
      simp [Char.utf8Size]
    · rw [ih hwhole, if_neg hne, if_neg (List.cons_ne_nil c a), feeds_cons, len_cons, Nat.add_assoc]
      by_cases hc : c = '\n'
      · simp only [hc, if_true, UInt32.ofNat_add, UInt32.add_assoc]
        rw [UInt32.add_comm 1]
        rfl
      · simp [hc]

theorem foldl_lenUtf16 (text : Text) (u : UInt32) :
    text.foldl (fun character c => character + lenUtf16 c) u = u + UInt32.ofNat (units text) := by
  induction text generalizing u with
  | nil => simp
  | cons c text ih =>
    rw [List.foldl_cons, ih, units_cons, UInt32.ofNat_add, UInt32.ofNat_toNat, UInt32.add_assoc]

/-- The position of an offset is what is before it: the line feeds, and the units after the last
one. -/
theorem positionAt_eq {a b : Text} (ha : WholeLines a) (hb : '\n' ∉ b) (post : Text) :
    positionAt (a ++ b ++ post) (len (a ++ b)) =
      some ⟨UInt32.ofNat (feeds a), UInt32.ofNat (units b)⟩ := by
  have hmin : min (len (a ++ b)) (len (a ++ b ++ post)) = len (a ++ b) := by
    rw [len_append (a ++ b)]
    omega
  have hstart : (if a = [] then 0 else 0 + len a) = len a := by
    split
    next h => rw [h, len_nil]
    next => exact Nat.zero_add _
  unfold positionAt
  rw [hmin, splitAt_append, Option.bind_eq_bind, Option.bind_some]
  dsimp only
  rw [countLines_eq ha hb, hstart]
  dsimp only
  rw [splitAt_append, Option.bind_some]
  dsimp only
  rw [foldl_lenUtf16, UInt32.zero_add, UInt32.zero_add]

end lsp
