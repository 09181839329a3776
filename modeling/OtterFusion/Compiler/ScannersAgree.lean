-- The two scanners see the same text. Each turn of the lexer is some turns of the comment
-- scanner, which leave it at the same place, in the same modes and with the same comments.
import OtterFusion.Compiler.LexerCovers

namespace compiler.lexer

/-! ## Turns of the comment scanner -/

namespace CommentScan

/-- One turn, while there is text. -/
def Turn (s t : CommentScan) : Prop := s.cur.rest ≠ [] ∧ t = s.step

/-- Some turns. -/
def Scans (s t : CommentScan) : Prop := Relation.ReflTransGen Turn s t

variable {s t : CommentScan}

theorem Scans.one (hne : s.cur.rest ≠ []) (h : s.step = t) : s.Scans t :=
  .single ⟨hne, h.symm⟩

theorem Scans.trans {u : CommentScan} (h : s.Scans t) (h' : t.Scans u) : s.Scans u :=
  Relation.ReflTransGen.trans h h'

theorem step_outside {b : Char} (hm : ∀ modes, s.modes ≠ .string :: modes)
    (hb : s.cur.peek = some b) : s.step = s.stepNormal b := by
  unfold step
  rw [hb]
  dsimp only
  split
  · rename_i modes h
    exact absurd h (hm modes)
  · rfl

theorem step_string {b : Char} {modes : List Mode} (hm : s.modes = .string :: modes)
    (hb : s.cur.peek = some b) : s.step = s.stepString b := by
  unfold step
  rw [hb, hm]

/-! ### Every turn takes a character -/

theorem eatWhile_lt {p : Char → Bool} {a : Cursor} (h : a.rest ≠ []) :
    (a.bump.bump.eatWhile p).rest.length < a.rest.length := by
  have h1 := Cursor.bump_lt h
  have h2 := Cursor.bump_le a.bump
  have h3 := Cursor.eatWhile_le p a.bump.bump
  omega

end CommentScan

/-- Both scanners find the same end of a block comment. -/
theorem commentBlockEnd_eq (depth pos : Nat) (rest : List Char) :
    commentBlockEnd depth pos rest = blockEnd depth pos rest := by
  fun_induction commentBlockEnd depth pos rest with
  | case1 pos rest => rw [blockEnd.eq_def, if_pos rfl]
  | case2 depth pos => rw [blockEnd.eq_def, if_neg (by omega)]
  | case3 depth pos c =>
    rw [blockEnd.eq_def, if_neg (by omega)]
    dsimp only
    rw [blockEnd.eq_def, if_neg (by omega)]
  | case4 depth pos c d cs h ih =>
    rw [ih, blockEnd.eq_def (depth + 1), if_neg (by omega)]
    dsimp only
    rw [if_pos h]
  | case5 depth pos c d cs h h' ih =>
    rw [ih, blockEnd.eq_def (depth + 1), if_neg (by omega)]
    dsimp only
    rw [if_neg h, if_pos h']
    rfl
  | case6 depth pos c d cs h h' ih =>
    rw [ih, blockEnd.eq_def (depth + 1) pos, if_neg (by omega)]
    dsimp only
    rw [if_neg h, if_neg h']

theorem charLiteralEnd_le (pos : Nat) (rest : List Char) :
    (charLiteralEnd pos rest).rest.length ≤ rest.length := by
  fun_induction charLiteralEnd pos rest with
  | case1 => exact Nat.le_refl _
  | case2 => exact Nat.le_refl _
  | case3 => exact Nat.zero_le _
  | case4 => exact Nat.le_refl _
  | case5 => simp only [List.length_cons] at *; omega
  | case6 => simp only [List.length_cons] at *; omega
  | case7 => simp only [List.length_cons] at *; omega

namespace CommentScan

theorem step_lt {s : CommentScan} (hne : s.cur.rest ≠ []) :
    s.step.cur.rest.length < s.cur.rest.length := by
  obtain ⟨b, bs, hrest⟩ := List.exists_cons_of_ne_nil hne
  have hone := Cursor.bump_lt hne
  have htwo := Cursor.bump_le s.cur.bump
  have hline := eatWhile_lt (p := (· != '\n')) hne
  have hblock : (commentBlockEnd 1 s.cur.bump.bump.pos s.cur.bump.bump.rest).1.rest.length
      < s.cur.rest.length := by
    rw [commentBlockEnd_eq]
    have hle := blockEnd_le 1 s.cur.bump.bump.pos s.cur.bump.bump.rest
    omega
  have hchar : (skipCommentCharLiteral s.cur).rest.length < s.cur.rest.length :=
    Nat.lt_of_le_of_lt (charLiteralEnd_le _ _) hone
  unfold step
  rw [peek_of_rest hrest]
  dsimp only
  split
  · unfold stepString bump
    split_ifs <;> dsimp only <;> omega
  · unfold stepNormal bump report
    dsimp only
    split_ifs
    any_goals assumption
    all_goals
      split
      · exact hone
      · exact hone

/-- The loop of the scanner makes every turn it can. -/
theorem loop_scans {s t : CommentScan} (h : s.Scans t) (hnil : t.cur.rest = []) (fuel : Nat)
    (hfuel : s.cur.rest.length ≤ fuel) : loop fuel s = t := by
  induction h using Relation.ReflTransGen.head_induction_on generalizing fuel with
  | refl =>
    cases fuel with
    | zero => rfl
    | succ fuel => rw [loop, if_pos hnil]
  | head hturn _ ih =>
    obtain ⟨hne, rfl⟩ := hturn
    have hlt := step_lt hne
    cases fuel with
    | zero => omega
    | succ fuel =>
      rw [loop, if_neg hne]
      exact ih fuel (by omega)

end CommentScan

/-! ## The scanner follows the lexer -/

/-- The scanners stand at one place and have seen the same comments. At the end of the text the
lexer alone closes what is open. -/
structure Follows (lx : Lexer) (s : CommentScan) : Prop where
  cur : s.cur = lx.cur
  comments : s.comments = lx.skipped
  modes : s.modes = lx.modes ∨ lx.cur.rest = []

namespace Follows

variable {lx t : Lexer} {s : CommentScan}

/-- A token is no comment. -/
theorem skipped_token (h : ∃ kind, t.out = lx.out ++
    [.token { kind, span := .new lx.cur.pos t.cur.pos }]) : t.skipped = lx.skipped := by
  obtain ⟨kind, hout⟩ := h
  unfold Lexer.skipped
  rw [hout, List.filterMap_append]
  simp [Item.comment?]

theorem skipped_comment (kind : CommentKind) (cur : Cursor) : (lx.skipTo kind cur).skipped =
    lx.skipped ++ [{ kind, span := .new lx.cur.pos cur.pos }] := by
  unfold Lexer.skipped Lexer.skipTo
  rw [List.filterMap_append]
  rfl

end Follows

theorem takes_nil {a b : Cursor} (h : a.Takes [] b) : b = a := by
  obtain ⟨pos, rest⟩ := b
  obtain ⟨hrest, hpos⟩ := h
  cases a
  dsimp only [List.nil_append] at hrest
  subst hrest
  exact congrArg (Cursor.mk · _) hpos

namespace CommentScan

variable {s : CommentScan}

/-- The scanner walks over characters that mean nothing to it. -/
theorem scans_plain {p : Char → Prop} {b : Cursor} (h : s.cur.Ate p b)
    (hstep : ∀ t : CommentScan, t.modes = s.modes → ∀ c, t.cur.peek = some c → p c →
      t.step = t.bump) : s.Scans { s with cur := b } := by
  obtain ⟨taken, ⟨hrest, hpos⟩, hall⟩ := h
  induction taken generalizing s with
  | nil =>
    rw [takes_nil ⟨hrest, hpos⟩]
    exact .refl
  | cons c cs ih =>
    have hcons : s.cur.rest = c :: (cs ++ b.rest) := hrest
    have hone := takes_bump hcons
    have htail : s.bump.cur.rest = cs ++ b.rest := by
      have h1 := hone.rest
      rw [hcons] at h1
      exact (List.cons.inj h1).2.symm
    have hturn := hstep s rfl c (peek_of_rest hcons) (hall c List.mem_cons_self)
    have hend : b.pos = s.bump.cur.pos + byteLen cs := by
      have h1 : s.bump.cur.pos = s.cur.pos + byteLen [c] := hone.pos
      simp only [byteLen_cons, byteLen_nil] at h1 hpos
      omega
    have hmore := ih (s := s.bump) hstep (fun d hd => hall d (List.mem_cons_of_mem _ hd))
      htail hend
    exact (Scans.one (by rw [hcons]; exact List.cons_ne_nil _ _) hturn).trans hmore

/-- Outside of strings the scanner stops at slashes, quotes and braces only. -/
theorem step_plain {c : Char} (hm : ∀ modes, s.modes ≠ .string :: modes)
    (hc : s.cur.peek = some c) (hout : Outside c) : s.step = s.bump := by
  have hne := hout
  simp only [Outside, List.mem_cons, List.not_mem_nil, or_false, not_or] at hne
  rw [step_outside hm hc]
  unfold stepNormal
  rw [if_neg (by tauto), if_neg (by tauto), if_neg (by tauto), if_neg (by tauto)]
  split
  · rw [if_neg (by tauto), if_neg (by tauto)]
  · rfl

/-- In a string it stops at quotes, escapes and dollars. -/
theorem step_text {c : Char} {modes : List Mode} (hm : s.modes = .string :: modes)
    (hc : s.cur.peek = some c) (hout : c ∉ ['"', '$', '\\']) : s.step = s.bump := by
  simp only [List.mem_cons, List.not_mem_nil, or_false, not_or] at hout
  rw [step_string hm hc]
  unfold stepString
  rw [if_neg (by tauto), if_neg (by tauto), if_neg (by tauto)]

end CommentScan

/-! ### One turn of the lexer -/

/-- No string is open on top. -/
def Outermost (modes : List Mode) : Prop := ∀ rest, modes ≠ .string :: rest

namespace Follows

variable {lx t : Lexer} {s : CommentScan}

theorem peek_eq (h : Follows lx s) (n : Nat) : s.cur.peekAt n = lx.cur.peekAt n := by
  rw [h.cur]

/-- The scanner has text to read when the lexer does, and then the modes are the same. -/
theorem reading (h : Follows lx s) {c : Char} (hc : lx.cur.peek = some c) :
    s.cur.peek = some c ∧ s.cur.rest ≠ [] ∧ s.modes = lx.modes := by
  have hne := ne_nil_of_peek hc
  refine ⟨by rw [h.cur]; exact hc, by rw [h.cur]; exact hne, ?_⟩
  exact h.modes.resolve_right hne

/-- One turn of the scanner for one of the lexer. -/
theorem turn {s' : CommentScan} (h : Follows lx s) {c : Char} (hc : lx.cur.peek = some c)
    (hstep : s.step = s') (hfollows : Follows t s') : ∃ s', s.Scans s' ∧ Follows t s' :=
  ⟨s', .one (h.reading hc).2.1 hstep, hfollows⟩

theorem ate_outside (h : Follows lx s) {b : Cursor} (hout : Outermost lx.modes)
    (hb : lx.cur.Ate Outside b) : s.Scans { s with cur := b } := by
  rcases h.modes with hm | hnil
  · rw [← h.cur] at hb
    refine CommentScan.scans_plain hb fun u hu c hc hout' => ?_
    exact CommentScan.step_plain (by rw [hu, hm]; exact hout) hc hout'
  · obtain ⟨taken, hb, _⟩ := hb
    have hrest := hb.rest
    rw [hnil] at hrest
    obtain ⟨rfl, hnil'⟩ := List.append_eq_nil_iff.mp hrest.symm
    rw [takes_nil hb, ← h.cur]
    exact .refl

/-- Both report one comment. -/
theorem report (h : Follows lx s) (hm : s.modes = lx.modes) (kind : CommentKind) (cur : Cursor)
    (errors : List LexError) :
    Follows (lx.skipTo kind cur) { s.report kind cur with errors } := by
  refine ⟨rfl, ?_, .inl hm⟩
  rw [skipped_comment, ← h.comments, ← h.cur]
  rfl

/-- The turn of the scanner over a block comment. -/
theorem block (h : Follows lx s) (hout : Outermost lx.modes) {r : Cursor × Bool}
    (hc : lx.cur.peek = some '/') (h1 : lx.cur.peekAt 1 = some '*')
    (hr : blockEnd 1 lx.cur.bump.bump.pos lx.cur.bump.bump.rest = r) :
    s.cur.rest ≠ [] ∧ s.step = { s.report .block r.1 with
      errors := if r.2 then s.errors
        else s.errors ++
          [{ kind := .unterminatedBlockComment, span := .new s.cur.pos r.1.pos }] } := by
  obtain ⟨hs, hne, hm⟩ := h.reading hc
  refine ⟨hne, ?_⟩
  rw [CommentScan.step_outside (by rw [hm]; exact hout) hs]
  unfold CommentScan.stepNormal
  rw [h.peek_eq 1, h1, if_neg (by decide), if_pos (by decide)]
  dsimp only
  rw [commentBlockEnd_eq, h.cur, hr]

/-- What is skipped before a token. -/
theorem skipped (h : Follows lx s) (hskip : lx.Skipped t) (hout : Outermost lx.modes) :
    ∃ s', s.Scans s' ∧ Follows t s' := by
  induction hskip generalizing s with
  | done => exact ⟨s, .refl, h⟩
  | @space lx t c cs hrest hspace _ ih =>
    have hc := peek_of_rest hrest
    obtain ⟨hs, hne, hm⟩ := h.reading hc
    have hplain : Outside c := by
      intro hmem
      simp only [List.mem_cons, List.not_mem_nil, or_false] at hmem
      rcases hmem with rfl | rfl | rfl | rfl | rfl <;> exact absurd hspace (by decide)
    have hstep := CommentScan.step_plain (by rw [hm]; exact hout) hs hplain
    have hnext : Follows lx.bump s.bump := by
      refine ⟨?_, h.comments, .inl hm⟩
      unfold CommentScan.bump Lexer.bump
      rw [h.cur]
    obtain ⟨s', hscan, hend⟩ := ih hnext hout
    exact ⟨s', (CommentScan.Scans.one hne hstep).trans hscan, hend⟩
  | @line lx t hc h1 h2 _ ih =>
    obtain ⟨hs, hne, hm⟩ := h.reading hc
    have hstep := CommentScan.step_outside (by rw [hm]; exact hout) hs
    have hreport : s.stepNormal '/' =
        s.report .line (s.cur.bump.bump.eatWhile (· != '\n')) := by
      unfold CommentScan.stepNormal
      rw [if_pos ⟨rfl, (h.peek_eq 1).trans h1⟩]
      dsimp only
      rw [h.peek_eq 2, if_pos (not_or.mp h2)]
    obtain ⟨s', hscan, hend⟩ := ih (h.report hm .line _ s.errors) hout
    rw [h.cur] at hreport
    exact ⟨s', (CommentScan.Scans.one hne (hstep.trans hreport)).trans hscan, hend⟩
  | @block lx t r hc h1 hr _ _ ih =>
    obtain ⟨hne, hstep⟩ := h.block hout hc h1 hr
    obtain ⟨s', hscan, hend⟩ := ih (h.report (h.reading hc).2.2 .block r.1 _) hout
    exact ⟨s', (CommentScan.Scans.one hne hstep).trans hscan, hend⟩
  | @unclosed lx r lo hi hc h1 hr _ =>
    obtain ⟨hne, hstep⟩ := h.block hout hc h1 hr
    obtain ⟨hcur, hcomments, hmodes⟩ := h.report (h.reading hc).2.2 .block r.1 _
    exact ⟨_, .one hne hstep, hcur, hcomments, hmodes⟩

/-- A token that leaves the modes alone. -/
theorem token (h : Follows lx s) (hm : s.modes = lx.modes) (hmodes : t.modes = lx.modes)
    (hout : ∃ kind, t.out = lx.out ++ [.token { kind, span := .new lx.cur.pos t.cur.pos }]) :
    Follows t { s with cur := t.cur } :=
  ⟨rfl, h.comments.trans (skipped_token hout).symm, .inl (hm.trans hmodes.symm)⟩

/-- A token of one character. -/
theorem single (h : Follows lx s) {c : Char} {modes : List Mode}
    (hone : Lexer.Single c modes lx t) (hstep : s.step = { s.bump with modes }) :
    ∃ s', s.Scans s' ∧ Follows t s' := by
  refine h.turn hone.peek hstep ⟨?_, ?_, .inl hone.modes.symm⟩
  · rw [hone.cur, ← h.cur]
    rfl
  · rw [skipped_token hone.out, ← h.comments]
    rfl

/-- A brace, which an interpolation counts. -/
theorem step_brace {c : Char} {modes : List Mode} (h : Follows lx s)
    (hc : lx.cur.peek = some c) (hout : Outermost lx.modes)
    (hmodes : c = '{' ∧ modes = openModes lx.modes ∨ c = '}' ∧ modes = closeModes lx.modes) :
    s.step = { s.bump with modes } := by
  obtain ⟨hs, _, hm⟩ := h.reading hc
  rw [CommentScan.step_outside (by rw [hm]; exact hout) hs]
  unfold CommentScan.stepNormal
  rw [← hm] at hmodes
  clear h hs hm
  obtain ⟨cur, ms, comments, errors⟩ := s
  rcases hmodes with ⟨rfl, rfl⟩ | ⟨rfl, rfl⟩
  · rw [if_neg (by simp), if_neg (by simp), if_neg (by decide), if_neg (by decide)]
    rcases ms with _ | ⟨_ | _ | depth, ms⟩ <;> rfl
  · rw [if_neg (by simp), if_neg (by simp), if_neg (by decide), if_neg (by decide)]
    rcases ms with _ | ⟨_ | _ | depth, ms⟩ <;> rfl

/-- One token outside of strings. -/
theorem tokenTurn (h : Follows lx s) (hturn : lx.TokenTurn t) (hout : Outermost lx.modes) :
    ∃ s', s.Scans s' ∧ Follows t s' := by
  cases hturn with
  | plain hemit =>
    have hscan := h.ate_outside hout hemit.ate
    rcases h.modes with hm | hnil
    · exact ⟨_, hscan, h.token hm hemit.modes hemit.out⟩
    · have hlt := hemit.lt
      rw [hnil, List.length_nil] at hlt
      omega
  | slash h1 h2 hone =>
    obtain ⟨hs, _, hm⟩ := h.reading hone.peek
    apply h.single hone
    rw [CommentScan.step_outside (by rw [hm]; exact hout) hs, ← hm]
    unfold CommentScan.stepNormal
    rw [h.peek_eq 1, if_neg (by tauto), if_neg (by tauto), if_neg (by decide),
      if_neg (by decide)]
    clear h hs hm
    obtain ⟨cur, modes, comments, errors⟩ := s
    rcases modes with _ | ⟨_ | _ | depth, modes⟩ <;> rfl
  | doc hc h1 h2 hcur hemit =>
    obtain ⟨hs, _, hm⟩ := h.reading hc
    refine h.turn hc ?_ (h.token hm hemit.modes hemit.out)
    rw [CommentScan.step_outside (by rw [hm]; exact hout) hs, hcur]
    unfold CommentScan.stepNormal
    rw [h.peek_eq 1, if_pos ⟨rfl, h1⟩]
    dsimp only
    rw [h.peek_eq 2, if_neg (by tauto), h.cur]
  | openBrace hone => exact h.single hone (h.step_brace hone.peek hout (.inl ⟨rfl, rfl⟩))
  | closeBrace hone => exact h.single hone (h.step_brace hone.peek hout (.inr ⟨rfl, rfl⟩))
  | quote hone =>
    obtain ⟨hs, _, hm⟩ := h.reading hone.peek
    apply h.single hone
    rw [CommentScan.step_outside (by rw [hm]; exact hout) hs, ← hm]
    unfold CommentScan.stepNormal
    rw [if_neg (by simp), if_neg (by simp), if_pos rfl]
  | charLiteral hc hcur hemit =>
    obtain ⟨hs, _, hm⟩ := h.reading hc
    refine h.turn hc ?_ (h.token hm hemit.modes hemit.out)
    rw [CommentScan.step_outside (by rw [hm]; exact hout) hs, hcur]
    unfold CommentScan.stepNormal
    rw [if_neg (by simp), if_neg (by simp), if_neg (by decide), if_pos rfl, h.cur]

/-- The scanner walks over literal text of a string, escapes included. -/
theorem scans_text {s : CommentScan} {modes : List Mode} {b : Cursor}
    (hm : s.modes = .string :: modes) (h : StrText s.cur b) : s.Scans { s with cur := b } := by
  generalize ha : s.cur = a at h
  induction h generalizing s with
  | done =>
    subst ha
    exact .refl
  | char hc hplain _ ih =>
    subst ha
    have hstep := CommentScan.step_text hm hc hplain
    exact (CommentScan.Scans.one (ne_nil_of_peek hc) hstep).trans (ih (s := s.bump) hm rfl)
  | @escape a m b c hc _ hesc _ ih =>
    subst ha
    have hstep : s.step = s.bump.bump := by
      rw [CommentScan.step_string hm hc]
      rfl
    have hplain : s.bump.bump.Scans { s with cur := m } := by
      refine CommentScan.scans_plain (s := s.bump.bump) hesc fun u hu d hd hin => ?_
      refine CommentScan.step_text (hu.trans hm) hd fun hmem => hin ?_
      simp only [List.mem_cons, List.not_mem_nil, or_false] at hmem ⊢
      tauto
    exact ((CommentScan.Scans.one (ne_nil_of_peek hc) hstep).trans hplain).trans
      (ih (s := { s with cur := m }) hm rfl)
  | last hrest =>
    subst ha
    refine .one (by rw [hrest]; exact List.cons_ne_nil _ _) ?_
    have hend : s.cur.bump.bump = s.cur.bump := by
      have hnil : s.cur.bump.rest = [] := by
        have h1 := (takes_bump hrest).rest
        rw [hrest] at h1
        exact (List.cons.inj h1).2.symm
      rw [Cursor.bump.eq_def s.cur.bump, hnil]
    rw [CommentScan.step_string hm (peek_of_rest hrest)]
    change { s with cur := s.cur.bump.bump } = _
    rw [hend]

/-- One turn of string mode. -/
theorem stringTurn (h : Follows lx s) {modes : List Mode} (hturn : lx.StringTurn t)
    (hstring : lx.modes = .string :: modes) : ∃ s', s.Scans s' ∧ Follows t s' := by
  cases hturn with
  | eof hnil hcur hmodes hout =>
    exact ⟨s, .refl, h.cur.trans hcur.symm, h.comments.trans (skipped_token hout).symm,
      .inr (by rw [hcur]; exact hnil)⟩
  | close hone =>
    obtain ⟨hs, _, hm⟩ := h.reading hone.peek
    apply h.single hone
    rw [CommentScan.step_string (hm.trans hstring) hs, ← hm]
    rfl
  | interp hc hopen hcur hmodes hout =>
    obtain ⟨hs, _, hm⟩ := h.reading hc
    have hstep : s.step = { s.bump.bump with modes := .interp 0 :: s.modes } := by
      rw [CommentScan.step_string (hm.trans hstring) hs]
      unfold CommentScan.stepString
      rw [if_neg (by decide), if_neg (by decide), h.peek_eq 1, if_pos ⟨rfl, hopen⟩]
    refine h.turn hc hstep ⟨?_, h.comments.trans (skipped_token hout).symm,
      .inl (by rw [hmodes, ← hm])⟩
    rw [hcur, ← h.cur]
    rfl
  | dollar hc hopen hword hemit =>
    obtain ⟨hs, hne, hm⟩ := h.reading hc
    have hstep : s.step = s.bump := by
      rw [CommentScan.step_string (hm.trans hstring) hs]
      unfold CommentScan.stepString
      rw [if_neg (by decide), if_neg (by decide), h.peek_eq 1, if_neg (by tauto)]
    have hplain : s.bump.Scans { s with cur := t.cur } := by
      refine CommentScan.scans_plain (s := s.bump) (by rw [← h.cur] at hword; exact hword)
        fun u hu d hd hd' => ?_
      refine CommentScan.step_text (hu.trans (hm.trans hstring)) hd fun hmem => hd' ?_
      simp only [specials, List.mem_cons, List.not_mem_nil, or_false] at hmem ⊢
      tauto
    exact ⟨_, (CommentScan.Scans.one hne hstep).trans hplain, h.token hm hemit.modes hemit.out⟩
  | text htext hemit =>
    have hlt := hemit.lt
    have hne : lx.cur.rest ≠ [] := fun hnil => by
      rw [hnil, List.length_nil] at hlt
      omega
    have hm := h.modes.resolve_right hne
    rw [← h.cur] at htext
    exact ⟨_, scans_text (hm.trans hstring) htext, h.token hm hemit.modes hemit.out⟩

/-- One turn of normal mode. -/
theorem normalTurn (h : Follows lx s) {x : Xid} (hx : x.Documented) (hout : Outermost lx.modes) :
    ∃ s', s.Scans s' ∧ Follows (lx.lexOneNormal x) s' := by
  obtain ⟨mid, hskip, _, hend⟩ := Lexer.lexOneNormal_spec hx lx
  obtain ⟨s₁, hscan, h₁⟩ := h.skipped hskip hout
  rcases hend with ⟨_, hmid⟩ | hturn
  · rw [hmid]
    exact ⟨s₁, hscan, h₁⟩
  · obtain ⟨s₂, hscan', h₂⟩ := h₁.tokenTurn hturn (by rw [hskip.laid.2]; exact hout)
    exact ⟨s₂, hscan.trans hscan', h₂⟩

/-- A whole run. -/
theorem loop {x : Xid} (hx : x.Documented) (fuel : Nat) (h : Follows lx s) :
    ∃ s', s.Scans s' ∧ Follows (lx.lexLoop x fuel) s' := by
  induction fuel generalizing lx s with
  | zero => exact ⟨s, .refl, h⟩
  | succ fuel ih =>
    have hnext : ∀ t, (∃ s', s.Scans s' ∧ Follows t s') →
        ∃ s', s.Scans s' ∧ Follows (t.lexLoop x fuel) s' := by
      rintro t ⟨s₁, hscan, h₁⟩
      obtain ⟨s₂, hscan', h₂⟩ := ih h₁
      exact ⟨s₂, hscan.trans hscan', h₂⟩
    unfold Lexer.lexLoop
    split
    · exact ⟨s, .refl, h⟩
    · split
      · exact ⟨s, .refl, h⟩
      · rename_i hm
        split
        · exact ⟨s, .refl, h⟩
        · exact hnext _ (h.normalTurn hx fun modes hs => by rw [hm] at hs; cases hs)
      · rename_i hm
        split
        · rename_i hnil
          exact hnext _ ⟨s, .refl, h.cur, h.comments, .inr hnil⟩
        · exact hnext _ (h.normalTurn hx fun modes hs => by rw [hm] at hs; cases hs)
      · rename_i hm
        exact hnext _ (h.stringTurn (lexOneString_spec hx lx) hm)

end Follows

/-! ## The law -/

/-- The scanners see one structure: what they see covers the text, and the comments reported
are the ones that the lexer skips. -/
def Agree (x : Xid) (src : List Char) : Prop :=
  Covers src (lex x src).tokens (lexOrdinaryComments src).comments ∧
    (lexOrdinaryComments src).comments = (lex x src).skipped

/-- The pieces of a whole text lie side by side. -/
theorem lex_laid {x : Xid} (hx : x.Documented) (src : List Char) :
    Laid { pos := 0, rest := src } [] (lex x src).cur (lex x src).out ∧
      (lex x src).cur.rest = [] := by
  obtain ⟨hlaid, hnil⟩ := Lexer.lexLoop_spec hx (2 * src.length + 1) (Lexer.new src) rfl
    (Nat.le_refl _)
  exact ⟨hlaid.trans (laid_token (.refl _) ⟨.eof, rfl⟩), hnil⟩

/-- A comment is reported just when the lexer skips it, in texts of any length. -/
theorem reported_skipped {x : Xid} (hx : x.Documented) (src : List Char) :
    (lexOrdinaryComments src).comments = (lex x src).skipped := by
  have hstart : Follows (Lexer.new src) (CommentScan.new src) := ⟨rfl, rfl, .inl rfl⟩
  obtain ⟨s, hscan, hend⟩ := hstart.loop hx (2 * src.length + 1)
  have hnil : s.cur.rest = [] := by
    rw [hend.cur]
    exact (lex_laid hx src).2
  have hrun : lexOrdinaryComments src = s := CommentScan.loop_scans hscan hnil _ (Nat.le_refl _)
  rw [hrun, hend.comments]
  exact (Follows.skipped_token ⟨.eof, rfl⟩).symm

/-- The end of a span is a `u32`. -/
theorem Laid.wraps {a b : Cursor} {out out' : List Item} (h : Laid a out b out')
    (hout : ∀ i ∈ out, i.span.hi < posSpace) : ∀ i ∈ out', i.span.hi < posSpace := by
  induction h with
  | done => exact hout
  | space _ _ _ ih => exact ih hout
  | @item a m b out out' i _ hi _ ih =>
    refine ih fun j hj => ?_
    rcases List.mem_append.mp hj with hj | hj
    · exact hout j hj
    · rw [List.mem_singleton.mp hj, hi]
      exact Nat.mod_lt _ (by decide)

/-- A character that ends past the last position is in no span. -/
theorem far_uncovered {x : Xid} (hx : x.Documented) {src before after : List Char} {c : Char}
    (hsrc : src = before ++ c :: after) (hc : isSpace c = false)
    (hfar : posSpace ≤ byteLen before + c.utf8Size) : ¬Agree x src := by
  intro h
  have hwraps := (lex_laid hx src).1.wraps fun i hi => by cases hi
  rcases h.1.covered before c after hsrc hc with ⟨t, ht, _, hhi⟩ | ⟨d, hd, _, hhi⟩
  · obtain ⟨i, hi, hsome⟩ := List.mem_filterMap.mp ht
    have hlt := hwraps i hi
    cases i with
    | token u =>
      obtain rfl := Option.some.inj hsome
      change u.span.hi < posSpace at hlt
      omega
    | comment _ => cases hsome
  · rw [h.2] at hd
    obtain ⟨i, hi, hsome⟩ := List.mem_filterMap.mp hd
    have hlt := hwraps i hi
    cases i with
    | token _ => cases hsome
    | comment e =>
      obtain rfl := Option.some.inj hsome
      change e.span.hi < posSpace at hlt
      omega

/-- The scanners agree on every text below 4 GiB, and on none where something other than
whitespace lies beyond that. -/
theorem scanners_agree_below_4_gib {x : Xid} (hx : x.Documented) (src : List Char) :
    (byteLen src < posSpace → Agree x src) ∧
      ((∃ before c after, src = before ++ c :: after ∧ isSpace c = false ∧
        posSpace ≤ byteLen before + c.utf8Size) → ¬Agree x src) := by
  refine ⟨fun hlen => ?_, ?_⟩
  · obtain ⟨hlaid, hnil⟩ := lex_laid hx src
    have hreported := reported_skipped hx src
    refine ⟨?_, hreported⟩
    rw [hreported]
    exact (hlaid.spread hlen (spread_start src)).covers hnil
  · rintro ⟨before, c, after, hsrc, hc, hfar⟩
    exact far_uncovered hx hsrc hc hfar

/-- The classes of the crate on ASCII. -/
def asciiXid : Xid where
  isStart c := c.isAlpha
  isContinue c := c.isAlphanum || c == '_'

theorem asciiXid_documented : asciiXid.Documented := by
  refine ⟨fun c _ => Iff.rfl, fun c _ => ?_⟩
  simp [asciiXid]

theorem scanners_agree_on_a_comment_in_an_interpolation :
    Agree asciiXid "\"a$\x7bb /* \" */\x7d\\\"\" // c".toList :=
  (scanners_agree_below_4_gib asciiXid_documented _).1 (by decide)

theorem byteLen_replicate (n : Nat) (c : Char) :
    byteLen (List.replicate n c) = n * c.utf8Size := by
  simp [byteLen]

/-- The last of 2³² plus signs has a span that ends at 0. -/
theorem plus_signs_of_4_gib_uncovered : ¬Agree asciiXid (List.replicate (2 ^ 32) '+') := by
  have hlast : List.replicate (2 ^ 32) '+' = List.replicate (2 ^ 32 - 1) '+' ++ '+' :: [] :=
    List.replicate_succ'
  apply far_uncovered asciiXid_documented hlast
  · decide
  · rw [byteLen_replicate]
    decide

end compiler.lexer
