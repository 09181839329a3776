-- What the lexer takes from the text. Each turn of its loop takes whitespace, ordinary comments
-- and at most one token, one after the other, so tokens and comments lie side by side and only
-- whitespace lies between them.
import OtterFusion.Compiler.Lexer

namespace compiler.lexer

/-! ## What a scan takes -/

/-- A scan from one place to another takes these characters. -/
structure Cursor.Takes (a : Cursor) (taken : List Char) (b : Cursor) : Prop where
  rest : a.rest = taken ++ b.rest
  pos : b.pos = a.pos + byteLen taken

theorem Cursor.Takes.trans {a b c : Cursor} {xs ys : List Char} (h : a.Takes xs b)
    (h' : b.Takes ys c) : a.Takes (xs ++ ys) c := by
  refine ⟨?_, ?_⟩
  · rw [h.rest, h'.rest, List.append_assoc]
  · rw [h'.pos, h.pos, byteLen_append, Nat.add_assoc]

/-- A scan takes characters of one kind only. -/
def Cursor.Ate (p : Char → Prop) (a b : Cursor) : Prop :=
  ∃ taken, a.Takes taken b ∧ ∀ c ∈ taken, p c

namespace Cursor.Ate

variable {p q : Char → Prop} {a b c : Cursor}

theorem refl (a : Cursor) : a.Ate p a :=
  ⟨[], ⟨rfl, rfl⟩, fun _ h => by cases h⟩

theorem trans (h : a.Ate p b) (h' : b.Ate p c) : a.Ate p c := by
  obtain ⟨xs, hx, hpx⟩ := h
  obtain ⟨ys, hy, hpy⟩ := h'
  refine ⟨xs ++ ys, hx.trans hy, fun ch hch => ?_⟩
  rcases List.mem_append.mp hch with hch | hch
  · exact hpx ch hch
  · exact hpy ch hch

theorem mono (h : a.Ate p b) (hpq : ∀ ch, p ch → q ch) : a.Ate q b := by
  obtain ⟨xs, hx, hp⟩ := h
  exact ⟨xs, hx, fun ch hch => hpq ch (hp ch hch)⟩

theorem any (h : a.Ate p b) : a.Ate (fun _ => True) b := h.mono fun _ _ => trivial

theorem le (h : a.Ate p b) : b.rest.length ≤ a.rest.length := by
  obtain ⟨xs, hx, _⟩ := h
  rw [hx.rest, List.length_append]
  omega

end Cursor.Ate

theorem peek_of_rest {a : Cursor} {c : Char} {cs : List Char} (h : a.rest = c :: cs) :
    a.peek = some c := by
  unfold Cursor.peek
  rw [h]
  rfl

theorem takes_bump {a : Cursor} {ch : Char} {cs : List Char} (h : a.rest = ch :: cs) :
    a.Takes [ch] a.bump := by
  unfold Cursor.bump
  rw [h]
  exact ⟨h, by simp⟩

theorem ate_bump {p : Char → Prop} {a : Cursor} (h : ∀ ch, a.peek = some ch → p ch) :
    a.Ate p a.bump := by
  cases hr : a.rest with
  | nil =>
    have hb : a.bump = a := by
      unfold Cursor.bump
      rw [hr]
    rw [hb]
    exact .refl a
  | cons ch cs =>
    refine ⟨[ch], takes_bump hr, fun c hc => ?_⟩
    rw [List.mem_singleton.mp hc]
    apply h
    unfold Cursor.peek
    rw [hr]
    rfl

theorem peek_bump (a : Cursor) : a.bump.peek = a.peekAt 1 := by
  unfold Cursor.bump
  cases h : a.rest with
  | nil => simp [Cursor.peek, Cursor.peekAt, h]
  | cons c cs => cases cs <;> simp [Cursor.peek, Cursor.peekAt, h]

theorem ate_skipWhile (p : Char → Bool) (pos : Nat) (cs : List Char) :
    Cursor.Ate (fun c => p c = true) { pos, rest := cs } (Cursor.skipWhile p pos cs) := by
  induction cs generalizing pos with
  | nil => exact .refl _
  | cons c cs ih =>
    unfold Cursor.skipWhile
    split
    · rename_i hc
      refine .trans (b := { pos := pos + c.utf8Size, rest := cs }) ?_ (ih _)
      refine ⟨[c], ⟨rfl, by simp⟩, fun d hd => ?_⟩
      rw [List.mem_singleton.mp hd]
      exact hc
    · exact .refl _

theorem ate_eatWhile (p : Char → Bool) (a : Cursor) :
    a.Ate (fun c => p c = true) (a.eatWhile p) := ate_skipWhile p a.pos a.rest

theorem ate_hexDigits (n pos : Nat) (cs : List Char) :
    Cursor.Ate (fun c => isHexDigit c = true) { pos, rest := cs } (hexDigits n pos cs).2 := by
  induction n generalizing pos cs with
  | zero => exact .refl _
  | succ n ih =>
    cases cs with
    | nil => exact .refl _
    | cons c cs =>
      unfold hexDigits
      split
      · rename_i hc
        refine .trans (b := { pos := pos + c.utf8Size, rest := cs }) ?_ (ih _ _)
        refine ⟨[c], ⟨rfl, by simp⟩, fun d hd => ?_⟩
        rw [List.mem_singleton.mp hd]
        exact hc
      · exact .refl _

theorem ate_blockEnd (depth pos : Nat) (rest : List Char) :
    Cursor.Ate (fun _ => True) { pos, rest } (blockEnd depth pos rest).1 := by
  fun_induction blockEnd depth pos rest with
  | case1 => exact .refl _
  | case2 => exact .refl _
  | case3 pos depth _ c ih =>
    exact .trans ⟨[c], ⟨rfl, by simp⟩, fun _ _ => trivial⟩ ih
  | case4 pos depth _ c d cs _ ih =>
    exact .trans ⟨[c, d], ⟨rfl, by simp [Nat.add_assoc]⟩, fun _ _ => trivial⟩ ih
  | case5 pos depth _ c d cs _ _ ih =>
    exact .trans ⟨[c, d], ⟨rfl, by simp [Nat.add_assoc]⟩, fun _ _ => trivial⟩ ih
  | case6 pos depth _ c d cs _ _ ih =>
    exact .trans ⟨[c], ⟨rfl, by simp⟩, fun _ _ => trivial⟩ ih

/-! ## Characters of words -/

/-- The characters that end a plain stretch of one of the modes. -/
def specials : List Char := ['/', '"', '\'', '{', '}', '\\', '$', '\n']

/-- A character of a word or a number: no mode stops at it. -/
def Word (c : Char) : Prop := c ∉ specials

instance : DecidablePred Word := fun c => inferInstanceAs (Decidable (c ∉ specials))

theorem word_of_alphanum {c : Char} (h : c.isAlphanum = true) : Word c := by
  intro hc
  simp only [specials, List.mem_cons, List.not_mem_nil, or_false] at hc
  rcases hc with rfl | rfl | rfl | rfl | rfl | rfl | rfl | rfl <;> exact absurd h (by decide)

theorem word_of_digit {c : Char} (h : c.isDigit = true) : Word c := by
  apply word_of_alphanum
  simp [Char.isAlphanum, h]

theorem word_of_not_ascii {c : Char} (h : ¬c.toNat < 128) : Word c := by
  intro hc
  simp only [specials, List.mem_cons, List.not_mem_nil, or_false] at hc
  rcases hc with rfl | rfl | rfl | rfl | rfl | rfl | rfl | rfl <;> exact h (by decide)

theorem word_of_hexDigit {c : Char} (h : isHexDigit c = true) : Word c := by
  intro hc
  simp only [specials, List.mem_cons, List.not_mem_nil, or_false] at hc
  rcases hc with rfl | rfl | rfl | rfl | rfl | rfl | rfl | rfl <;> exact absurd h (by decide)

/-- What the crate documents for ASCII: letters start an identifier, letters, digits and the
underscore go on with it. -/
structure Xid.Documented (x : Xid) : Prop where
  start : ∀ c, c.toNat < 128 → (x.isStart c = true ↔ c.isAlpha = true)
  continues : ∀ c, c.toNat < 128 → (x.isContinue c = true ↔ c.isAlphanum = true ∨ c = '_')

section words

variable {x : Xid} (hx : x.Documented)
include hx

theorem Xid.Documented.word_of_start {c : Char} (h : x.isIdentStart c = true) : Word c := by
  unfold Xid.isIdentStart at h
  rw [Bool.or_eq_true, beq_iff_eq] at h
  rcases h with rfl | h
  · decide
  · by_cases hc : c.toNat < 128
    · apply word_of_alphanum
      simp [Char.isAlphanum, (hx.start c hc).mp h]
    · exact word_of_not_ascii hc

theorem Xid.Documented.word_of_continue {c : Char} (h : x.isIdentContinue c = true) :
    Word c := by
  by_cases hc : c.toNat < 128
  · rcases (hx.continues c hc).mp h with h | rfl
    · exact word_of_alphanum h
    · decide
  · exact word_of_not_ascii hc

end words

/-! ## Scans that add no token -/

/-- A scan takes characters of one kind and changes no more than the place and the errors. -/
structure Lexer.Reads (p : Char → Prop) (lx lx' : Lexer) : Prop where
  ate : lx.cur.Ate p lx'.cur
  modes : lx'.modes = lx.modes
  out : lx'.out = lx.out

namespace Lexer.Reads

variable {p q : Char → Prop} {a b c : Lexer}

theorem refl (a : Lexer) : a.Reads p a := ⟨.refl _, rfl, rfl⟩

theorem trans (h : a.Reads p b) (h' : b.Reads p c) : a.Reads p c :=
  ⟨h.ate.trans h'.ate, h'.modes.trans h.modes, h'.out.trans h.out⟩

theorem mono (h : a.Reads p b) (hpq : ∀ ch, p ch → q ch) : a.Reads q b :=
  ⟨h.ate.mono hpq, h.modes, h.out⟩

theorem any (h : a.Reads p b) : a.Reads (fun _ => True) b := h.mono fun _ _ => trivial

theorem error (h : a.Reads p b) (kind : LexErrorKind) (lo hi : Nat) :
    a.Reads p (b.error kind lo hi) := ⟨h.ate, h.modes, h.out⟩

theorem bump (a : Lexer) (h : ∀ ch, a.cur.peek = some ch → p ch) : a.Reads p a.bump :=
  ⟨ate_bump h, rfl, rfl⟩

end Lexer.Reads

/-- A character that neither ends a string nor a character literal, nor starts an escape. -/
def InEscape (c : Char) : Prop := c ∉ ['"', '$', '\\', '\'', '\n']

instance : DecidablePred InEscape :=
  fun c => inferInstanceAs (Decidable (c ∉ ['"', '$', '\\', '\'', '\n']))

theorem Word.inEscape {c : Char} (h : Word c) : InEscape c := by
  intro hc
  apply h
  simp only [specials, List.mem_cons, List.not_mem_nil, or_false] at hc ⊢
  tauto

theorem ate_hex (n : Nat) (a : Cursor) : a.Ate InEscape (hexDigits n a.pos a.rest).2 :=
  (ate_hexDigits n a.pos a.rest).mono fun _ h => (word_of_hexDigit h).inEscape

/-- An escape takes one character, whatever it is, and after that only characters that mean
nothing to the mode. -/
theorem consumeEscapeBody_reads {lx : Lexer} {ch : Char} (h : lx.cur.peek = some ch)
    (escLo : Nat) : lx.bump.Reads InEscape (lx.consumeEscapeBody escLo) := by
  unfold Lexer.consumeEscapeBody
  rw [h]
  dsimp only
  split
  · exact .refl _
  · split
    · have hread : lx.bump.Reads InEscape
          { lx with cur := (hexDigits 2 lx.cur.bump.pos lx.cur.bump.rest).2 } :=
        ⟨ate_hex 2 lx.cur.bump, rfl, rfl⟩
      split
      · exact hread
      · exact hread.error _ _ _
    · split
      · split
        · rename_i hopen
          have hbrace : lx.bump.cur.Ate InEscape lx.cur.bump.bump := by
            apply ate_bump
            intro c hc
            obtain rfl : '{' = c := Option.some.inj (hopen.symm.trans hc)
            decide
          have hread : lx.bump.Reads InEscape
              { lx with cur := (hexDigits 7 lx.cur.bump.bump.pos lx.cur.bump.bump.rest).2 } :=
            ⟨hbrace.trans (ate_hex 7 lx.cur.bump.bump), rfl, rfl⟩
          split
          · rename_i hclose
            have hend := hread.trans (.bump _ fun c hc => by
              obtain rfl : '}' = c := Option.some.inj (hclose.symm.trans hc)
              decide)
            split
            · exact hend.error _ _ _
            · exact hend
          · exact hread.error _ _ _
        · exact (Lexer.Reads.refl _).error _ _ _
      · exact (Lexer.Reads.refl _).error _ _ _

theorem consumeEscapeBody_any (lx : Lexer) (escLo : Nat) :
    lx.Reads (fun _ => True) (lx.consumeEscapeBody escLo) := by
  cases h : lx.cur.peek with
  | none =>
    unfold Lexer.consumeEscapeBody
    rw [h]
    exact (Lexer.Reads.refl lx).error _ _ _
  | some ch =>
    have hread := (consumeEscapeBody_reads h escLo).any
    exact (Lexer.Reads.bump lx fun _ _ => trivial).trans hread

/-! ## Tokens -/

/-- A scan from a place adds one token, which spans what it takes. -/
structure Lexer.Emits (p : Char → Prop) (a : Cursor) (lx lx' : Lexer) : Prop where
  ate : a.Ate p lx'.cur
  lt : lx'.cur.rest.length < a.rest.length
  modes : lx'.modes = lx.modes
  out : ∃ kind, lx'.out = lx.out ++ [.token { kind, span := .new a.pos lx'.cur.pos }]

/-- The token of a scan that has ended at some place. -/
theorem emits_of {p : Char → Prop} {a : Cursor} {lx lx' : Lexer} (kind : TokenKind)
    (hate : a.Ate p lx'.cur) (hlt : lx'.cur.rest.length < a.rest.length)
    (hmodes : lx'.modes = lx.modes) (hout : lx'.out = lx.out) :
    Lexer.Emits p a lx (lx'.emit kind a.pos) :=
  ⟨hate, hlt, hmodes, kind, by rw [← hout]; rfl⟩

theorem Cursor.Ate.lt {p : Char → Prop} {a b : Cursor} {c : Char} (h : a.bump.Ate p b)
    (hc : a.peek = some c) : b.rest.length < a.rest.length := by
  refine Nat.lt_of_le_of_lt h.le (Cursor.bump_lt fun hnil => ?_)
  unfold Cursor.peek at hc
  rw [hnil] at hc
  cases hc

theorem Lexer.Emits.mono {p q : Char → Prop} {a : Cursor} {lx lx' : Lexer}
    (h : Lexer.Emits p a lx lx') (hpq : ∀ ch, p ch → q ch) : Lexer.Emits q a lx lx' :=
  ⟨h.ate.mono hpq, h.lt, h.modes, h.out⟩

theorem scanLineDoc_emits {lx : Lexer} {c : Char} (hc : lx.cur.peek = some c)
    (kind : TokenKind) :
    Lexer.Emits (fun _ => True) lx.cur lx (lx.scanLineDoc lx.cur.pos kind) := by
  have hbump : ∀ a : Cursor, a.Ate (fun _ => True) a.bump := fun a => ate_bump fun _ _ => trivial
  have hline := ((hbump lx.cur.bump).trans (hbump _)).trans (ate_eatWhile (· != '\n') _).any
  apply emits_of
  · exact (hbump _).trans hline
  · exact hline.lt hc
  · rfl
  · rfl

/-- The loop of a character literal ends where the literal does. -/
theorem scanCharLoop_emits {a : Cursor} (lo scalars : Nat) (lx : Lexer)
    (hlo : lo = a.pos) (ha : a.Ate (fun _ => True) lx.cur)
    (hlt : lx.cur.rest.length < a.rest.length) :
    Lexer.Emits (fun _ => True) a lx (Lexer.scanCharLoop lo scalars lx) := by
  subst hlo
  fun_induction Lexer.scanCharLoop a.pos scalars lx with
  | case1 => exact emits_of _ ha hlt rfl rfl
  | case2 => exact emits_of _ ha hlt rfl rfl
  | case3 scalars lx =>
    rename_i _ opened closed _ _
    have hquote : lx.Reads (fun _ => True) lx.bump := .bump lx fun _ _ => trivial
    have hclosed : lx.Reads (fun _ => True) closed := by
      dsimp only [closed, opened]
      split
      · exact hquote.error _ _ _
      · split
        · exact hquote.error _ _ _
        · exact hquote
    exact emits_of _ (ha.trans hclosed.ate) (Nat.lt_of_le_of_lt hclosed.ate.le hlt)
      hclosed.modes hclosed.out
  | case4 scalars lx =>
    rename_i ih
    have hesc := (Lexer.Reads.bump lx fun _ _ => trivial).trans
      (consumeEscapeBody_any lx.bump lx.cur.pos)
    have hrest := ih (ha.trans hesc.ate) (Nat.lt_of_le_of_lt hesc.ate.le hlt)
    exact ⟨hrest.ate, hrest.lt, hrest.modes.trans hesc.modes, hesc.out ▸ hrest.out⟩
  | case5 scalars lx =>
    rename_i ih
    have hrest := ih (ha.trans (ate_bump fun _ _ => trivial))
      (Nat.lt_of_le_of_lt (Cursor.bump_le _) hlt)
    exact ⟨hrest.ate, hrest.lt, hrest.modes, hrest.out⟩

/-! ### Words and numbers -/

theorem bump_word {a : Cursor} {ch : Char} (h : a.peek = some ch) (hw : Word ch) :
    a.Ate Word a.bump := by
  apply ate_bump
  intro c hc
  obtain rfl : ch = c := Option.some.inj (h.symm.trans hc)
  exact hw

theorem ate_eatDecimalDigits (a : Cursor) : a.Ate Word a.eatDecimalDigits := by
  refine (ate_eatWhile _ a).mono fun c hc => ?_
  rw [Bool.or_eq_true, beq_iff_eq] at hc
  rcases hc with hc | rfl
  · exact word_of_digit hc
  · decide

theorem ate_eatFraction (a : Cursor) : a.Ate Word a.eatFraction.1 := by
  unfold Cursor.eatFraction
  split
  · rename_i h
    exact (bump_word h.1 (by decide)).trans (ate_eatDecimalDigits _)
  · exact .refl a

theorem ate_eatExponent (a : Cursor) : a.Ate Word a.eatExponent.1 := by
  unfold Cursor.eatExponent
  split
  · rename_i h
    have hletter : a.Ate Word a.bump := by
      rcases h with h | h
      · exact bump_word h (by decide)
      · exact bump_word h (by decide)
    have hsign : a.bump.Ate Word
        (if a.bump.peek = some '+' ∨ a.bump.peek = some '-' then a.bump.bump else a.bump) := by
      split
      · rename_i hs
        rcases hs with hs | hs
        · exact bump_word hs (by decide)
        · exact bump_word hs (by decide)
      · exact .refl _
    exact (hletter.trans hsign).trans (ate_eatDecimalDigits _)
  · exact .refl a

theorem ate_basedDigits (base : IntBase) (sawDigit : Bool) (pos : Nat) (cs : List Char) :
    Cursor.Ate Word { pos, rest := cs } (basedDigits base sawDigit pos cs).cur := by
  induction cs generalizing sawDigit pos with
  | nil => exact .refl _
  | cons c cs ih =>
    have hone : Word c → Cursor.Ate Word { pos, rest := c :: cs }
        { pos := pos + c.utf8Size, rest := cs } := by
      intro hw
      refine ⟨[c], ⟨rfl, by simp⟩, fun d hd => ?_⟩
      rw [List.mem_singleton.mp hd]
      exact hw
    unfold basedDigits
    split
    · rename_i hc
      exact (hone (hc ▸ by decide)).trans (ih _ _)
    · split
      · rename_i hc
        refine (hone ?_).trans (ih _ _)
        cases base with
        | dec => exact word_of_digit hc
        | hex => exact word_of_hexDigit hc
        | oct =>
          intro hw
          simp only [specials, List.mem_cons, List.not_mem_nil, or_false] at hw
          rcases hw with rfl | rfl | rfl | rfl | rfl | rfl | rfl | rfl <;>
            exact absurd hc (by decide)
        | bin =>
          unfold isDigitForBase at hc
          rw [Bool.or_eq_true, beq_iff_eq, beq_iff_eq] at hc
          rcases hc with rfl | rfl <;> decide
      · split
        · exact .refl _
        · split
          · rename_i hc
            exact (hone (word_of_alphanum hc)).trans (ih _ _)
          · exact .refl _

section words

variable {x : Xid} (hx : x.Documented)
include hx

theorem ate_identContinue (a : Cursor) : a.Ate Word (a.eatWhile x.isIdentContinue) :=
  (ate_eatWhile _ a).mono fun _ hc => hx.word_of_continue hc

theorem ate_eatNumericSuffix (a : Cursor) : a.Ate Word (a.eatNumericSuffix x) := by
  unfold Cursor.eatNumericSuffix
  split
  · rename_i h
    refine Cursor.Ate.trans ?_ (ate_identContinue hx _)
    rcases h with h | h | h
    · exact bump_word h (by decide)
    · exact bump_word h (by decide)
    · exact bump_word h (by decide)
  · exact .refl a

theorem scanIdentOrKeyword_emits {lx : Lexer} {c : Char} (h : lx.cur.peek = some c)
    (hc : x.isIdentStart c = true) :
    Lexer.Emits Word lx.cur lx (lx.scanIdentOrKeyword x lx.cur.pos) := by
  have hrest := ate_identContinue hx lx.cur.bump
  apply emits_of
  · exact (bump_word h (hx.word_of_start hc)).trans hrest
  · exact hrest.lt h
  · rfl
  · rfl

theorem finishBasedInt_emits {a : Cursor} {lx lx' : Lexer} (base : IntBase)
    (h : a.Ate Word lx'.cur) (hlt : lx'.cur.rest.length < a.rest.length)
    (hm : lx'.modes = lx.modes) (ho : lx'.out = lx.out) :
    Lexer.Emits Word a lx (lx'.finishBasedInt x a.pos base) := by
  have hdigits := (ate_basedDigits base false lx'.cur.pos lx'.cur.rest).trans
    (ate_eatNumericSuffix hx _)
  have hend := Nat.lt_of_le_of_lt hdigits.le hlt
  unfold Lexer.finishBasedInt
  dsimp only
  split
  · exact emits_of _ (h.trans hdigits) hend hm ho
  · exact emits_of _ (h.trans hdigits) hend hm ho

theorem scanDecimal_emits {lx : Lexer} {c : Char} (hc : lx.cur.peek = some c)
    (hdigit : c.isDigit = true) : Lexer.Emits Word lx.cur lx (lx.scanDecimal x lx.cur.pos) := by
  have hfirst : lx.cur.eatDecimalDigits = lx.cur.bump.eatDecimalDigits := by
    cases hrest : lx.cur.rest with
    | nil =>
      unfold Cursor.peek at hc
      rw [hrest] at hc
      cases hc
    | cons d ds =>
      obtain rfl : d = c := Option.some.inj ((peek_of_rest hrest).symm.trans hc)
      unfold Cursor.eatDecimalDigits Cursor.eatWhile Cursor.bump
      rw [hrest]
      simp [Cursor.skipWhile, hdigit]
  have hrest := ((ate_eatDecimalDigits lx.cur.bump).trans (ate_eatFraction _)).trans
    ((ate_eatExponent _).trans (ate_eatNumericSuffix hx _))
  rw [← hfirst] at hrest
  apply emits_of
  · exact (bump_word hc (word_of_digit hdigit)).trans hrest
  · exact hrest.lt hc
  · rfl
  · rfl

theorem scanNumber_emits {lx : Lexer} {c : Char} (hc : lx.cur.peek = some c)
    (hdigit : c.isDigit = true) : Lexer.Emits Word lx.cur lx (lx.scanNumber x lx.cur.pos) := by
  unfold Lexer.scanNumber
  split
  · rename_i hzero
    have hprefixed : ∀ {d : Char} (base : IntBase), lx.cur.peekAt 1 = some d → Word d →
        Lexer.Emits Word lx.cur lx (lx.bump.bump.finishBasedInt x lx.cur.pos base) := by
      intro d base hd hw
      have htwo : lx.cur.bump.Ate Word lx.bump.bump.cur :=
        bump_word ((peek_bump lx.cur).trans hd) hw
      exact finishBasedInt_emits hx base ((bump_word hzero (by decide)).trans htwo)
        (htwo.lt hzero) rfl rfl
    split
    all_goals first
      | exact scanDecimal_emits hx hc hdigit
      | rename_i hbase
        exact hprefixed _ hbase (by decide)
  · exact scanDecimal_emits hx hc hdigit

end words

/-! ### Punctuation -/

/-- A second character of a punctuation token is itself punctuation. -/
theorem punct_next {next : Option Char} {c : Char} {kind : TokenKind}
    (h : punct next c = some (kind, true)) : ∃ d, next = some d ∧ Word d := by
  unfold punct at h
  split at h
  all_goals try split at h
  all_goals try split at h
  all_goals first
    | (cases h; done)
    | (rename_i hd; exact ⟨_, hd, by decide⟩)

/-! ## One turn of normal mode -/

/-- A character that the comment scanner steps over outside of strings. -/
def Outside (c : Char) : Prop := c ∉ ['/', '"', '\'', '{', '}']

instance : DecidablePred Outside :=
  fun c => inferInstanceAs (Decidable (c ∉ ['/', '"', '\'', '{', '}']))

theorem Word.outside {c : Char} (h : Word c) : Outside c := by
  intro hc
  apply h
  simp only [specials, List.mem_cons, List.not_mem_nil, or_false] at hc ⊢
  tauto

namespace Lexer

/-- What `skip_whitespace_and_ordinary_comments` skips, piece by piece. -/
inductive Skipped : Lexer → Lexer → Prop
  | done (lx : Lexer) : Skipped lx lx
  | space {lx t : Lexer} {c : Char} {cs : List Char} : lx.cur.rest = c :: cs →
      isSpace c = true → Skipped lx.bump t → Skipped lx t
  | line {lx t : Lexer} : lx.cur.peek = some '/' → lx.cur.peekAt 1 = some '/' →
      ¬(lx.cur.peekAt 2 = some '/' ∨ lx.cur.peekAt 2 = some '!') →
      Skipped (lx.skipTo .line (lx.cur.bump.bump.eatWhile (· != '\n'))) t → Skipped lx t
  | block {lx t : Lexer} {r : Cursor × Bool} : lx.cur.peek = some '/' →
      lx.cur.peekAt 1 = some '*' → blockEnd 1 lx.cur.bump.bump.pos lx.cur.bump.bump.rest = r →
      r.2 = true → Skipped (lx.skipTo .block r.1) t → Skipped lx t
  | unclosed {lx : Lexer} {r : Cursor × Bool} (lo hi : Nat) : lx.cur.peek = some '/' →
      lx.cur.peekAt 1 = some '*' → blockEnd 1 lx.cur.bump.bump.pos lx.cur.bump.bump.rest = r →
      r.2 = false →
      Skipped lx ((lx.skipTo .block r.1).error .unterminatedBlockComment lo hi)

/-- The next character, if there is one, starts a token. -/
def AtToken (lx : Lexer) : Prop :=
  ∀ c, lx.cur.peek = some c → isSpace c = false ∧
    (c = '/' → lx.cur.peekAt 1 = some '/' →
      lx.cur.peekAt 2 = some '/' ∨ lx.cur.peekAt 2 = some '!') ∧
    ¬(c = '/' ∧ lx.cur.peekAt 1 = some '*')

end Lexer

/-- A block comment that is not closed goes on to the end of the text. -/
theorem blockEnd_unclosed {depth pos : Nat} {rest : List Char}
    (h : (blockEnd depth pos rest).2 = false) : (blockEnd depth pos rest).1.rest = [] := by
  fun_induction blockEnd depth pos rest with
  | case1 => cases h
  | case2 => rfl
  | case3 pos depth _ c ih => exact ih h
  | case4 pos depth _ c d cs _ ih => exact ih h
  | case5 pos depth _ c d cs _ _ ih => exact ih h
  | case6 pos depth _ c d cs _ _ ih => exact ih h

theorem skip_spec (lx : Lexer) : lx.Skipped lx.skipWhitespaceAndOrdinaryComments ∧
    lx.skipWhitespaceAndOrdinaryComments.AtToken := by
  fun_induction Lexer.skipWhitespaceAndOrdinaryComments lx with
  | case1 lx hrest =>
    refine ⟨.done lx, fun c hc => ?_⟩
    unfold Cursor.peek at hc
    rw [hrest] at hc
    cases hc
  | case2 lx c cs hrest hspace ih => exact ⟨.space hrest hspace ih.1, ih.2⟩
  | case3 lx c cs hrest hspace hslash hdoc =>
    refine ⟨.done lx, fun d hd => ?_⟩
    obtain rfl : c = d := Option.some.inj ((peek_of_rest hrest).symm.trans hd)
    refine ⟨by simpa using hspace, fun _ _ => hdoc, fun h => ?_⟩
    rw [hslash.2] at h
    exact absurd h.2 (by decide)
  | case4 lx c cs hrest hspace hslash hdoc ih =>
    have hpeek := peek_of_rest hrest
    rw [hslash.1] at hpeek
    exact ⟨.line hpeek hslash.2 hdoc ih.1, ih.2⟩
  | case5 lx c cs hrest hspace hslash hstar r hclosed ih =>
    have hpeek := peek_of_rest hrest
    rw [hstar.1] at hpeek
    exact ⟨.block hpeek hstar.2 rfl hclosed ih.1, ih.2⟩
  | case6 lx c cs hrest hspace hslash hstar r hclosed =>
    have hpeek := peek_of_rest hrest
    rw [hstar.1] at hpeek
    have hopen : r.2 = false := by simpa using hclosed
    refine ⟨.unclosed _ _ hpeek hstar.2 rfl hopen, fun d hd => ?_⟩
    have hnil : r.1.rest = [] := blockEnd_unclosed hopen
    change r.1.peek = some d at hd
    unfold Cursor.peek at hd
    rw [hnil] at hd
    cases hd
  | case7 lx c cs hrest hspace hslash hstar =>
    refine ⟨.done lx, fun d hd => ?_⟩
    obtain rfl : c = d := Option.some.inj ((peek_of_rest hrest).symm.trans hd)
    exact ⟨by simpa using hspace, fun h1 h2 => absurd ⟨h1, h2⟩ hslash, hstar⟩

/-! ### Character literals -/

theorem charLiteralEnd_plain {c : Char} (h : InEscape c) (pos : Nat) (cs : List Char) :
    charLiteralEnd pos (c :: cs) = charLiteralEnd (pos + c.utf8Size) cs := by
  simp only [InEscape, List.mem_cons, List.not_mem_nil, or_false, not_or] at h
  obtain ⟨_, _, hback, hquote, hline⟩ := h
  cases cs with
  | nil => rw [charLiteralEnd, charLiteralEnd, if_neg hline]
  | cons d ds => rw [charLiteralEnd, if_neg hline, if_neg hback, if_neg hquote]

theorem charLiteralEnd_ate {a b : Cursor} (h : a.Ate InEscape b) :
    charLiteralEnd a.pos a.rest = charLiteralEnd b.pos b.rest := by
  obtain ⟨taken, ⟨hrest, hpos⟩, hall⟩ := h
  rw [hrest, hpos]
  clear hrest hpos
  generalize a.pos = pos
  induction taken generalizing pos with
  | nil => rfl
  | cons c cs ih =>
    rw [List.cons_append, charLiteralEnd_plain (hall c List.mem_cons_self),
      ih (fun d hd => hall d (List.mem_cons_of_mem _ hd)), byteLen_cons, Nat.add_assoc]

/-- Both scanners find the same end of a character literal. -/
theorem scanCharLoop_cur (lo scalars : Nat) (lx : Lexer) :
    (Lexer.scanCharLoop lo scalars lx).cur = charLiteralEnd lx.cur.pos lx.cur.rest := by
  have hcur : ∀ {lx : Lexer} {cs : List Char}, lx.cur.rest = cs →
      lx.cur = { pos := lx.cur.pos, rest := cs } := fun h => by rw [← h]
  fun_induction Lexer.scanCharLoop lo scalars lx with
  | case1 scalars lx hrest =>
    rw [hrest, charLiteralEnd]
    exact hcur hrest
  | case2 scalars lx cs hrest =>
    have hend : charLiteralEnd lx.cur.pos ('\n' :: cs) =
        { pos := lx.cur.pos, rest := '\n' :: cs } := by
      cases cs with
      | nil => rw [charLiteralEnd, if_pos rfl]
      | cons d ds => rw [charLiteralEnd, if_pos rfl]
    rw [hrest, hend]
    exact hcur hrest
  | case3 scalars lx cs opened closed hrest =>
    have hend : charLiteralEnd lx.cur.pos ('\'' :: cs)
        = { pos := lx.cur.pos + '\''.utf8Size, rest := cs } := by
      cases cs with
      | nil => rw [charLiteralEnd, if_neg (by decide)]
      | cons d ds => rw [charLiteralEnd, if_neg (by decide), if_neg (by decide), if_pos rfl]
    have hbump : lx.bump.cur = { pos := lx.cur.pos + '\''.utf8Size, rest := cs } := by
      unfold Lexer.bump Cursor.bump
      rw [hrest]
    rw [hrest, hend, ← hbump]
    dsimp only [closed, opened]
    split
    · rfl
    · split <;> rfl
  | case4 scalars lx cs hrest _ _ ih =>
    rw [ih, hrest]
    have hone := takes_bump hrest
    cases hcs : cs with
    | nil =>
      have hnil : lx.bump.cur.rest = [] := by
        have h1 := hone.rest
        rw [hrest, hcs] at h1
        exact (List.cons.inj h1).2.symm
      have hsame : (lx.bump.consumeEscapeBody lx.cur.pos).cur = lx.bump.cur := by
        unfold Lexer.consumeEscapeBody Cursor.peek
        rw [hnil]
        rfl
      rw [hsame, hnil, charLiteralEnd, charLiteralEnd, if_neg (by decide)]
      have hpos := hone.pos
      simp only [byteLen_cons, byteLen_nil, Nat.add_zero] at hpos
      exact congrArg (Cursor.mk · []) hpos
    | cons d ds =>
      have hnext : lx.bump.cur.rest = d :: ds := by
        have h1 := hone.rest
        rw [hrest, hcs] at h1
        exact (List.cons.inj h1).2.symm
      have hread := consumeEscapeBody_reads (peek_of_rest hnext) lx.cur.pos
      rw [← charLiteralEnd_ate hread.ate, charLiteralEnd, if_neg (by decide), if_pos rfl]
      have htwo := takes_bump hnext
      have hrest' : lx.bump.bump.cur.rest = ds := by
        have h1 := htwo.rest
        rw [hnext] at h1
        exact (List.cons.inj h1).2.symm
      have hpos : lx.bump.bump.cur.pos = lx.cur.pos + '\\'.utf8Size + d.utf8Size := by
        have h1 := hone.pos
        have h2 := htwo.pos
        simp only [byteLen_cons, byteLen_nil, Nat.add_zero] at h1 h2
        rw [← h1]
        exact h2
      rw [hrest', hpos]
  | case5 scalars lx c cs hrest hline hquote hback ih =>
    rw [ih, hrest]
    have hone : lx.bump.cur = { pos := lx.cur.pos + c.utf8Size, rest := cs } := by
      unfold Lexer.bump Cursor.bump
      rw [hrest]
    rw [hone]
    cases cs with
    | nil => rw [charLiteralEnd, charLiteralEnd, if_neg hline]
    | cons d ds => rw [charLiteralEnd, if_neg hline, if_neg hback, if_neg hquote]

/-! ### The token of a turn -/

/-- The modes after an opening brace. -/
def openModes : List Mode → List Mode
  | .interp depth :: modes => .interp ((depth + 1) % posSpace) :: modes
  | modes => modes

/-- The modes after a closing brace. -/
def closeModes : List Mode → List Mode
  | .interp depth :: modes => if depth = 0 then modes else .interp (depth - 1) :: modes
  | modes => modes

/-- One character is taken, as a token, and the modes change. -/
structure Lexer.Single (c : Char) (modes : List Mode) (lx lx' : Lexer) : Prop where
  peek : lx.cur.peek = some c
  cur : lx'.cur = lx.cur.bump
  modes : lx'.modes = modes
  out : ∃ kind, lx'.out = lx.out ++ [.token { kind, span := .new lx.cur.pos lx'.cur.pos }]

/-- What one turn of normal mode does at the start of a token. -/
inductive Lexer.TokenTurn (lx lx' : Lexer) : Prop
  | plain : Lexer.Emits Outside lx.cur lx lx' → TokenTurn lx lx'
  | slash : lx.cur.peekAt 1 ≠ some '/' → lx.cur.peekAt 1 ≠ some '*' →
      Lexer.Single '/' lx.modes lx lx' → TokenTurn lx lx'
  | doc : lx.cur.peek = some '/' → lx.cur.peekAt 1 = some '/' →
      (lx.cur.peekAt 2 = some '/' ∨ lx.cur.peekAt 2 = some '!') →
      lx'.cur = lx.cur.bump.bump.eatWhile (· != '\n') →
      Lexer.Emits (fun _ => True) lx.cur lx lx' → TokenTurn lx lx'
  | openBrace : Lexer.Single '{' (openModes lx.modes) lx lx' → TokenTurn lx lx'
  | closeBrace : Lexer.Single '}' (closeModes lx.modes) lx lx' → TokenTurn lx lx'
  | quote : Lexer.Single '"' (.string :: lx.modes) lx lx' → TokenTurn lx lx'
  | charLiteral : lx.cur.peek = some '\'' → lx'.cur = skipCommentCharLiteral lx.cur →
      Lexer.Emits (fun _ => True) lx.cur lx lx' → TokenTurn lx lx'

theorem openBrace_modes (lx : Lexer) : lx.openBrace.cur = lx.cur ∧ lx.openBrace.out = lx.out ∧
    lx.openBrace.modes = openModes lx.modes := by
  unfold Lexer.openBrace
  cases hm : lx.modes with
  | nil => exact ⟨rfl, rfl, hm⟩
  | cons m modes =>
    cases m with
    | interp depth => exact ⟨rfl, rfl, rfl⟩
    | _ => exact ⟨rfl, rfl, hm⟩

theorem closeBrace_modes (lx : Lexer) : lx.closeBrace.cur = lx.cur ∧
    lx.closeBrace.out = lx.out ∧ lx.closeBrace.modes = closeModes lx.modes := by
  unfold Lexer.closeBrace Lexer.pop
  cases hm : lx.modes with
  | nil => exact ⟨rfl, rfl, hm⟩
  | cons m modes =>
    cases m with
    | interp depth =>
      unfold closeModes
      dsimp only
      split <;> exact ⟨rfl, rfl, rfl⟩
    | _ => exact ⟨rfl, rfl, hm⟩

/-- The third character of a doc comment is no end of line. -/
theorem eatWhile_third {a : Cursor} (h : a.peekAt 2 = some '/' ∨ a.peekAt 2 = some '!') :
    a.bump.bump.bump.eatWhile (· != '\n') = a.bump.bump.eatWhile (· != '\n') := by
  obtain ⟨c, cs, hrest, hc⟩ : ∃ c cs, a.bump.bump.rest = c :: cs ∧ c ≠ '\n' := by
    unfold Cursor.peekAt at h
    unfold Cursor.bump
    cases hr : a.rest with
    | nil => simp [hr] at h
    | cons c cs =>
      cases cs with
      | nil => simp [hr] at h
      | cons d ds =>
        cases ds with
        | nil => simp [hr] at h
        | cons e es =>
          refine ⟨e, es, rfl, ?_⟩
          simp only [hr, List.getElem?_cons_succ, List.getElem?_cons_zero, Option.some.injEq] at h
          rcases h with rfl | rfl <;> decide
  generalize a.bump.bump = b at hrest ⊢
  unfold Cursor.eatWhile Cursor.bump
  rw [hrest]
  simp [Cursor.skipWhile, hc]

theorem lexToken_spec {x : Xid} (hx : x.Documented) {lx : Lexer} {c : Char}
    (hc : lx.cur.peek = some c) (hat : lx.AtToken) : lx.TokenTurn (lx.lexToken x c) := by
  obtain ⟨_, hline, hblock⟩ := hat c hc
  have hone : ∀ p : Char → Prop, p c → lx.cur.Ate p lx.bump.cur := by
    intro p hp
    apply ate_bump
    intro d hd
    rw [← Option.some.inj (hc.symm.trans hd)]
    exact hp
  have hlt : lx.bump.cur.rest.length < lx.cur.rest.length :=
    (Cursor.Ate.refl (p := fun _ => True) lx.cur.bump).lt hc
  unfold Lexer.lexToken
  dsimp only
  split
  · rename_i h
    obtain ⟨rfl, h1, h2⟩ := h
    exact .doc hc h1 (.inl h2) (eatWhile_third (.inl h2)) (scanLineDoc_emits hc _)
  · split
    · rename_i h
      obtain ⟨rfl, h1, h2⟩ := h
      exact .doc hc h1 (.inr h2) (eatWhile_third (.inr h2)) (scanLineDoc_emits hc _)
    · rename_i hnotOuter hnotInner
      split
      · rename_i hdigit
        exact .plain ((scanNumber_emits hx hc hdigit).mono fun _ => Word.outside)
      · split
        · rename_i hstart
          exact .plain ((scanIdentOrKeyword_emits hx hc hstart).mono fun _ => Word.outside)
        · split
          · rename_i h
            subst h
            obtain ⟨hcur, hout, hmodes⟩ := openBrace_modes (lx.bump.emit .lBrace lx.cur.pos)
            exact .openBrace ⟨hc, hcur, hmodes, .lBrace, by rw [hout, hcur]; rfl⟩
          · split
            · rename_i h
              subst h
              obtain ⟨hcur, hout, hmodes⟩ := closeBrace_modes (lx.bump.emit .rBrace lx.cur.pos)
              exact .closeBrace ⟨hc, hcur, hmodes, .rBrace, by rw [hout, hcur]; rfl⟩
            · split
              · rename_i h
                subst h
                exact .quote ⟨hc, rfl, rfl, .strStart, rfl⟩
              · split
                · rename_i h
                  subst h
                  have hemit := scanCharLoop_emits lx.cur.pos 0 lx.bump rfl (hone _ trivial) hlt
                  exact .charLiteral hc (scanCharLoop_cur _ _ _)
                    ⟨hemit.ate, hemit.lt, hemit.modes, hemit.out⟩
                · rename_i hopen hclose hquote hchar
                  have hout : c ≠ '/' → Outside c := by
                    intro hslash hmem
                    simp only [List.mem_cons, List.not_mem_nil, or_false] at hmem
                    tauto
                  split
                  · rename_i kind two hpunct
                    by_cases hslash : c = '/'
                    · subst hslash
                      have htwo : two = false := by
                        unfold punct at hpunct
                        simp only [Option.some.injEq, Prod.mk.injEq] at hpunct
                        exact hpunct.2.symm
                      subst htwo
                      refine .slash (fun h => ?_) (fun h => hblock ⟨rfl, h⟩)
                        ⟨hc, rfl, rfl, kind, rfl⟩
                      rcases hline rfl h with h2 | h2
                      · exact hnotOuter ⟨rfl, h, h2⟩
                      · exact hnotInner ⟨rfl, h, h2⟩
                    · cases two with
                      | false => exact .plain (emits_of kind (hone _ (hout hslash)) hlt rfl rfl)
                      | true =>
                        obtain ⟨d, hd, hw⟩ := punct_next hpunct
                        have htwo : lx.cur.Ate Outside lx.bump.bump.cur :=
                          (hone _ (hout hslash)).trans
                            ((bump_word hd hw).mono fun _ => Word.outside)
                        exact .plain (emits_of kind htwo
                          (Nat.lt_of_le_of_lt (Cursor.bump_le _) hlt) rfl rfl)
                  · rename_i hpunct
                    have hslash : c ≠ '/' := by
                      rintro rfl
                      cases hpunct
                    exact .plain (emits_of .unknown (hone _ (hout hslash)) hlt rfl rfl)

end compiler.lexer
