-- How the folding scanner walks: it knows its place in the text by line and column, and here is
-- what a piece of the text makes of its braces and its ranges. Columns are bytes.
import OtterFusion.Compiler.LexerKinds
import OtterFusion.Lsp.FoldingRanges

open compiler.lexer

namespace lsp

/-! ## Places -/

theorem len_eq_byteLen (text : List Char) : len text = byteLen text := by
  induction text with
  | nil => rfl
  | cons c text ih => rw [len_cons, byteLen_cons, ih]

theorem textBefore_append (before rest : List Char) :
    textBefore (before ++ rest) (byteLen before) = before := by
  unfold textBefore
  rw [← len_eq_byteLen, splitAt_append]
  rfl

/-- A text has one start of each length. -/
theorem start_unique {a b c d : List Char} (h : a ++ b = c ++ d) (hlen : byteLen a = byteLen c) :
    a = c ∧ b = d := by
  have hac : a = c := by
    rw [← textBefore_append a b, ← textBefore_append c d, h, hlen]
  exact ⟨hac, List.append_cancel_left (hac ▸ h)⟩

theorem lastLine_feed (before : List Char) : lastLine (before ++ ['\n']) = [] := by
  simp [lastLine]

theorem lastLine_append {line : List Char} (h : '\n' ∉ line) (before : List Char) :
    lastLine (before ++ line) = lastLine before ++ line := by
  induction line generalizing before with
  | nil => simp
  | cons c line ih =>
    rw [List.mem_cons, not_or] at h
    have hone : lastLine (before ++ [c]) = lastLine before ++ [c] := by
      simp [lastLine, Ne.symm h.1]
    rw [List.append_cons, ih h.2, hone, List.append_assoc]
    rfl

theorem ate_line {a : Cursor} {c : Char} (hc : a.peek = some c) (hline : c ≠ '\n') :
    a.Ate (· ≠ '\n') a.bump := by
  refine ate_bump fun d hd => ?_
  rwa [← Option.some.inj (hc.symm.trans hd)]

/-- The line and the column of an offset, in bytes. -/
def openAt (src : List Char) (offset : Nat) : Open :=
  { line := lineAt src offset, character := byteLen (lineBefore src offset) }

/-- The ranges of what is on more than a line, with columns in bytes. -/
def foldsOf (src : List Char) (ds : List Delimited) : List FoldingRange :=
  (ds.filter fun d => lineAt src d.lo < lineAt src d.hi).map (Delimited.range src Char.utf8Size)

theorem foldsOf_append (src : List Char) (ds es : List Delimited) :
    foldsOf src (ds ++ es) = foldsOf src ds ++ foldsOf src es := by
  simp [foldsOf]

/-- What begins and ends on one line has no range. -/
theorem foldsOf_flat {src : List Char} {ds : List Delimited}
    (h : ∀ d ∈ ds, lineAt src d.hi ≤ lineAt src d.lo) : foldsOf src ds = [] := by
  unfold foldsOf
  rw [List.map_eq_nil_iff, List.filter_eq_nil_iff]
  intro d hd
  have hle := h d hd
  simp only [decide_eq_true_eq]
  omega

namespace Folding

/-- The scanner knows its place. -/
def Stands (src : List Char) (s : Folding) : Prop :=
  ∃ before, src = before ++ s.cur.rest ∧ s.cur.pos = byteLen before ∧ s.line = feeds before ∧
    s.character = byteLen (lastLine before)

variable {src : List Char} {s t : Folding}

theorem Stands.here (h : Stands src s) : s.here = openAt src s.cur.pos := by
  obtain ⟨before, hsrc, hpos, hline, hcharacter⟩ := h
  have htext : textBefore src s.cur.pos = before := by
    rw [hsrc, hpos, textBefore_append]
  unfold Folding.here openAt lineAt lineBefore
  rw [htext, hline, hcharacter]

theorem Stands.le (h : Stands src s) : s.cur.pos + byteLen s.cur.rest = byteLen src := by
  obtain ⟨before, hsrc, hpos, -, -⟩ := h
  rw [hsrc, byteLen_append, hpos]

theorem Stands.newline (h : Stands src s) (hc : s.cur.peek = some '\n') : Stands src s.newline := by
  obtain ⟨before, hsrc, hpos, hline, -⟩ := h
  have hone := takes_bump (rest_of_peek hc)
  refine ⟨before ++ ['\n'], ?_, ?_, ?_, ?_⟩
  · rw [hsrc, rest_of_peek hc, List.append_assoc]
    rfl
  · rw [byteLen_append, ← hpos]
    exact hone.pos
  · rw [feeds_append, ← hline]
    rfl
  · rw [lastLine_feed]
    rfl

theorem Stands.moveTo (h : Stands src s) {b : Cursor} (hb : s.cur.Ate (· ≠ '\n') b) :
    Stands src (s.moveTo b) := by
  obtain ⟨before, hsrc, hpos, hline, hcharacter⟩ := h
  obtain ⟨taken, ⟨hrest, hend⟩, hall⟩ := hb
  have hfeed : '\n' ∉ taken := fun hmem => hall _ hmem rfl
  refine ⟨before ++ taken, ?_, ?_, ?_, ?_⟩
  · rw [hsrc, hrest, List.append_assoc]
    rfl
  · rw [byteLen_append, ← hpos]
    exact hend
  · rw [feeds_append, feeds_eq_zero.mpr hfeed, ← hline]
    rfl
  · rw [lastLine_append hfeed, byteLen_append, ← hcharacter]
    change s.character + (b.pos - s.cur.pos) = _
    rw [hend, Nat.add_sub_cancel_left]

/-! ## Turns of the scanner -/

/-- One turn, while there is text. -/
def Turn (s t : Folding) : Prop := s.cur.rest ≠ [] ∧ t = s.step

/-- Some turns. -/
def Scans (s t : Folding) : Prop := Relation.ReflTransGen Turn s t

theorem Scans.one (hne : s.cur.rest ≠ []) (h : s.step = t) : s.Scans t :=
  .single ⟨hne, h.symm⟩

theorem Scans.trans {u : Folding} (h : s.Scans t) (h' : t.Scans u) : s.Scans u :=
  Relation.ReflTransGen.trans h h'

theorem step_code {b : Char} (hcomments : s.blockComments = []) (hb : s.cur.peek = some b) :
    s.step = s.stepCode b := by
  unfold step
  rw [hb, hcomments]

theorem step_comment {b : Char} {start : Open} {opens : List Open}
    (hcomments : s.blockComments = start :: opens) (hb : s.cur.peek = some b) :
    s.step = s.stepComment start b := by
  unfold step
  rw [hb, hcomments]

end Folding

theorem ate_quotedEnd (quote : Char) (pos : Nat) (rest : List Char) :
    Cursor.Ate (fun _ => True) { pos, rest } (quotedEnd quote pos rest) := by
  fun_induction quotedEnd quote pos rest with
  | case1 => exact .refl _
  | case2 pos => exact .refl _
  | case3 pos c h => exact bump_any { pos, rest := [c] }
  | case4 => exact .refl _
  | case5 pos d cs h ih =>
    exact ((bump_any { pos, rest := '\\' :: d :: cs }).trans (bump_any _)).trans ih
  | case6 pos d cs h h' => exact bump_any { pos, rest := quote :: d :: cs }
  | case7 pos c d cs h h' h'' ih => exact (bump_any { pos, rest := c :: d :: cs }).trans ih

/-- Of a character literal all scanners find the same end. -/
theorem quotedEnd_char (pos : Nat) (rest : List Char) :
    quotedEnd '\'' pos rest = charLiteralEnd pos rest := by
  fun_induction quotedEnd '\'' pos rest with
  | case1 => rfl
  | case2 pos => rw [charLiteralEnd, if_pos rfl]
  | case3 pos c h => rw [charLiteralEnd, if_neg h]
  | case4 pos d cs => rw [charLiteralEnd, if_pos rfl]
  | case5 pos d cs h ih => rw [charLiteralEnd, if_neg (by decide), if_pos rfl, ih]
  | case6 pos d cs h h' => rw [charLiteralEnd, if_neg (by decide), if_neg (by decide), if_pos rfl]
  | case7 pos c d cs h h' h'' ih => rw [charLiteralEnd, if_neg h, if_neg h', if_neg h'', ih]

namespace Folding

variable {src : List Char} {s t : Folding}

theorem close_cur (s : Folding) (start : Open) (kind : FoldingRangeKind) (character : Nat) :
    (s.close start kind character).cur = s.cur := by
  unfold close
  split <;> rfl

/-- Every turn takes a character. -/
theorem step_lt (hne : s.cur.rest ≠ []) : s.step.cur.rest.length < s.cur.rest.length := by
  obtain ⟨b, bs, hrest⟩ := List.exists_cons_of_ne_nil hne
  have hpeek := peek_of_rest hrest
  have hone := Cursor.bump_lt hne
  have htwo := Cursor.bump_le s.cur.bump
  have hquoted : ∀ quote, (quotedEnd quote s.cur.bump.pos s.cur.bump.rest).rest.length
      < s.cur.rest.length := fun quote => (ate_quotedEnd quote _ _).lt hpeek
  cases hcomments : s.blockComments with
  | cons start opens =>
    rw [step_comment hcomments hpeek]
    unfold stepComment
    split_ifs
    · exact hone
    · exact Nat.lt_of_le_of_lt htwo hone
    · dsimp only
      split
      · change (close _ _ _ _).cur.bump.bump.rest.length < _
        rw [close_cur]
        exact Nat.lt_of_le_of_lt htwo hone
      · exact Nat.lt_of_le_of_lt htwo hone
    · exact hone
  | nil =>
    rw [step_code hcomments hpeek]
    unfold stepCode
    split_ifs with hline hslash
    · exact hone
    · have hate := ate_eatWhile (· != '\n') s.cur.bump
      have hsame : s.cur.eatWhile (· != '\n') = s.cur.bump.eatWhile (· != '\n') := by
        unfold Cursor.eatWhile Cursor.bump
        rw [hrest]
        simp [Cursor.skipWhile, hline]
      change (s.cur.eatWhile (· != '\n')).rest.length < _
      rw [hsame]
      exact hate.lt hpeek
    · exact Nat.lt_of_le_of_lt htwo hone
    · exact hquoted _
    · exact hquoted _
    · exact hone
    · dsimp only
      split
      · exact hone
      · change (close _ _ _ _).cur.bump.rest.length < _
        rw [close_cur]
        exact hone
    · exact hone

/-- The loop makes every turn it can. -/
theorem loop_scans (h : s.Scans t) (hnil : t.cur.rest = []) (fuel : Nat)
    (hfuel : s.cur.rest.length ≤ fuel) : loop fuel s = t := by
  induction h using Relation.ReflTransGen.head_induction_on generalizing fuel with
  | refl =>
    cases fuel with
    | zero => rfl
    | succ fuel => rw [loop, if_pos hnil]
  | head hturn _ ih =>
    obtain ⟨hne, rfl⟩ := hturn
    have hlt := step_lt hne
    cases fuel with
    | zero => omega
    | succ fuel =>
      rw [loop, if_neg hne]
      exact ih fuel (by omega)

/-! ## What a piece makes of the braces and the ranges -/

/-- The scanner comes to a place outside of comments. -/
def Arrives (src : List Char) (s : Folding) (b : Cursor) (braces : List Open)
    (ranges : List FoldingRange) : Prop :=
  ∃ t, s.Scans t ∧ t.cur = b ∧ Stands src t ∧ t.blockComments = [] ∧ t.braces = braces ∧
    t.ranges = ranges

/-- One turn over part of a line. -/
theorem Arrives.one {c : Char} {b : Cursor} {braces : List Open} {ranges : List FoldingRange}
    (hc : s.cur.peek = some c) (hstep : s.step = t.moveTo b) (hstands : Stands src (t.moveTo b))
    (hcomments : t.blockComments = []) (hbraces : t.braces = braces) (hranges : t.ranges = ranges) :
    Arrives src s b braces ranges :=
  ⟨t.moveTo b, .one (ne_nil_of_peek hc) hstep, rfl, hstands, hcomments, hbraces, hranges⟩

theorem Arrives.after {u : Folding} {b : Cursor} {braces : List Open} {ranges : List FoldingRange}
    (h : s.Scans u) (h' : Arrives src u b braces ranges) : Arrives src s b braces ranges := by
  obtain ⟨t, hscans, hrest⟩ := h'
  exact ⟨t, h.trans hscans, hrest⟩

variable (hs : Stands src s) (hcomments : s.blockComments = [])
include hs hcomments

/-- Outside of comments the scanner stops at line feeds, slashes, quotes and braces only. -/
theorem arrives_plain {b : Cursor} (hb : s.cur.Ate Outside b) :
    Arrives src s b s.braces s.ranges := by
  obtain ⟨taken, ⟨hrest, hpos⟩, hall⟩ := hb
  induction taken generalizing s with
  | nil => exact ⟨s, .refl, (takes_nil ⟨hrest, hpos⟩).symm, hs, hcomments, rfl, rfl⟩
  | cons c cs ih =>
    have hc : s.cur.peek = some c := peek_of_rest hrest
    have hone := takes_bump hrest
    have htail : s.cur.bump.rest = cs ++ b.rest := by
      have h1 := hone.rest
      rw [hrest] at h1
      exact (List.cons.inj h1).2.symm
    have hend : b.pos = s.cur.bump.pos + byteLen cs := by
      have h1 := hone.pos
      simp only [byteLen_cons, byteLen_nil] at h1 hpos
      omega
    have hout := hall c List.mem_cons_self
    have hne : c ≠ '/' ∧ c ≠ '"' ∧ c ≠ '\'' ∧ c ≠ '{' ∧ c ≠ '}' := by
      simpa [Outside] using hout
    have hmore := fun d hd => hall d (List.mem_cons_of_mem _ hd)
    have hstep := step_code hcomments hc
    unfold stepCode at hstep
    by_cases hline : c = '\n'
    · subst hline
      rw [if_pos rfl] at hstep
      refine Arrives.after (.one (ne_nil_of_peek hc) hstep) ?_
      exact ih (s := s.newline) (hs.newline hc) hcomments hmore htail hend
    · rw [if_neg hline, if_neg (by tauto), if_neg (by tauto), if_neg (by tauto), if_neg (by tauto),
        if_neg (by tauto), if_neg (by tauto)] at hstep
      have hstands := hs.moveTo (ate_line hc hline)
      refine Arrives.after (.one (ne_nil_of_peek hc) hstep) ?_
      exact ih (s := s.moveTo s.cur.bump) hstands hcomments hmore htail hend

/-- A line comment, or a doc comment. -/
theorem arrives_line (hc : s.cur.peek = some '/') (h1 : s.cur.peekAt 1 = some '/') :
    Arrives src s (s.cur.bump.bump.eatWhile (· != '\n')) s.braces s.ranges := by
  have hsame : s.cur.eatWhile (· != '\n') = s.cur.bump.bump.eatWhile (· != '\n') := by
    have hone := rest_of_peek hc
    have htwo := rest_of_peek ((peek_bump s.cur).trans h1)
    have hskip : ∀ {a : Cursor}, a.rest = '/' :: a.bump.rest →
        a.eatWhile (· != '\n') = a.bump.eatWhile (· != '\n') := by
      intro a ha
      unfold Cursor.eatWhile Cursor.bump
      rw [ha]
      simp [Cursor.skipWhile]
    rw [hskip hone, hskip htwo]
  have hate : s.cur.Ate (· ≠ '\n') (s.cur.bump.bump.eatWhile (· != '\n')) := by
    rw [← hsame]
    exact (ate_eatWhile _ _).mono fun d hd => by simpa using hd
  refine .one hc ?_ (hs.moveTo hate) hcomments rfl rfl
  rw [step_code hcomments hc]
  unfold stepCode
  rw [if_neg (by decide), if_pos ⟨rfl, h1⟩, hsame]

/-- A slash that begins no comment. -/
theorem arrives_slash (hc : s.cur.peek = some '/') (h1 : s.cur.peekAt 1 ≠ some '/')
    (h2 : s.cur.peekAt 1 ≠ some '*') : Arrives src s s.cur.bump s.braces s.ranges := by
  refine .one hc ?_ (hs.moveTo (ate_line hc (by decide))) hcomments rfl rfl
  rw [step_code hcomments hc]
  unfold stepCode
  rw [if_neg (by decide), if_neg (by tauto), if_neg (by tauto), if_neg (by decide),
    if_neg (by decide),
    if_neg (by decide), if_neg (by decide)]

/-- A character literal on one line. -/
theorem arrives_char (hc : s.cur.peek = some '\'')
    (hline : s.cur.Ate (· ≠ '\n') (skipCommentCharLiteral s.cur)) :
    Arrives src s (skipCommentCharLiteral s.cur) s.braces s.ranges := by
  refine .one hc ?_ (hs.moveTo hline) hcomments rfl rfl
  rw [step_code hcomments hc]
  unfold stepCode skipCommentCharLiteral
  rw [if_neg (by decide), if_neg (by simp), if_neg (by simp), if_neg (by decide), if_pos rfl,
    quotedEnd_char]

/-- A plain string literal. -/
theorem arrives_literal {hi : Nat} (hplain : PlainLiteral src s.cur.pos hi) :
    ∃ b, Arrives src s b s.braces s.ranges ∧ b.pos = hi ∧ s.cur.Ate (· ≠ '\n') b := by
  obtain ⟨before, literal, after, hsrc, hlo, hend, hfeed⟩ := hplain
  obtain ⟨before', hsrc', hpos, -⟩ := id hs
  have hrest : s.cur.rest = '"' :: (literal ++ after) := by
    have heq : before ++ ('"' :: (literal ++ after)) = before' ++ s.cur.rest := by
      rw [← hsrc', hsrc, List.append_assoc, List.cons_append]
    exact (start_unique heq (by omega)).2.symm
  have hc := peek_of_rest hrest
  have hbump : s.cur.bump = { pos := s.cur.pos + 1, rest := literal ++ after } := by
    unfold Cursor.bump
    rw [hrest]
    rfl
  have hate : s.cur.Ate (· ≠ '\n') { pos := hi, rest := after } := by
    have htakes := ate_quotedEnd '"' (s.cur.pos + 1) (literal ++ after)
    rw [hend] at htakes
    obtain ⟨taken, ⟨htaken, hhi⟩, -⟩ := htakes
    obtain rfl : literal = taken := List.append_cancel_right htaken
    refine (ate_line hc (by decide)).trans ?_
    rw [hbump]
    exact ⟨literal, ⟨rfl, hhi⟩, fun c hmem => fun heq => hfeed (heq ▸ hmem)⟩
  refine ⟨{ pos := hi, rest := after }, ?_, rfl, hate⟩
  refine .one hc ?_ (hs.moveTo hate) hcomments rfl rfl
  rw [step_code hcomments hc]
  unfold stepCode
  rw [if_neg (by decide), if_neg (by simp), if_neg (by simp), if_pos rfl, hbump, hend]

/-- An opening brace. -/
theorem arrives_open (hc : s.cur.peek = some '{') :
    Arrives src s s.cur.bump (openAt src s.cur.pos :: s.braces) s.ranges := by
  have hstands : Stands src ({ s with braces := s.here :: s.braces }.moveTo s.cur.bump) :=
    hs.moveTo (ate_line hc (by decide))
  refine .one (t := { s with braces := s.here :: s.braces }) hc ?_ hstands hcomments ?_ rfl
  · rw [step_code hcomments hc]
    unfold stepCode
    rw [if_neg (by decide), if_neg (by simp), if_neg (by simp), if_neg (by decide),
      if_neg (by decide),
      if_pos rfl]
  · exact congrArg (· :: s.braces) hs.here

/-- A closing brace with nothing to close. -/
theorem arrives_unmatched (hc : s.cur.peek = some '}') (hbraces : s.braces = []) :
    Arrives src s s.cur.bump s.braces s.ranges := by
  refine .one hc ?_ (hs.moveTo (ate_line hc (by decide))) hcomments rfl rfl
  rw [step_code hcomments hc]
  unfold stepCode
  rw [if_neg (by decide), if_neg (by simp), if_neg (by simp), if_neg (by decide),
    if_neg (by decide),
    if_neg (by decide), if_pos rfl, hbraces]

omit hcomments in
/-- The end of something delimited is where the scanner comes to. -/
theorem close_spec (lo : Nat) (kind : FoldingRangeKind) {n : Nat} {b : Cursor}
    (hb : s.cur.Ate (· ≠ '\n') b)
    (hn : b.pos = s.cur.pos + n) : s.close (openAt src lo) kind (s.character + n) =
      { s with ranges := s.ranges ++ foldsOf src [⟨kind, lo, b.pos⟩] } := by
  have hplace : (s.moveTo b).here = openAt src b.pos := (hs.moveTo hb).here
  have hline : s.line = lineAt src b.pos := congrArg Open.line hplace
  have hcharacter : s.character + n = byteLen (lineBefore src b.pos) := by
    have heq : s.character + (b.pos - s.cur.pos) = byteLen (lineBefore src b.pos) :=
      congrArg Open.character hplace
    rwa [hn, Nat.add_sub_cancel_left, ← hn] at heq
  have hfolds : foldsOf src [⟨kind, lo, b.pos⟩] = if (openAt src lo).line < s.line then
      [⟨(openAt src lo).line, (openAt src lo).character, s.line, s.character + n, kind⟩]
        else [] := by
    unfold foldsOf
    rw [hcharacter, hline, List.filter_singleton]
    change List.map _ (bif decide ((openAt src lo).line < lineAt src b.pos) then _ else _) = _
    by_cases hlt : (openAt src lo).line < lineAt src b.pos
    · rw [if_pos hlt, decide_eq_true hlt]
      rfl
    · rw [if_neg hlt, decide_eq_false hlt]
      rfl
  unfold close
  rw [hfolds]
  split
  · rfl
  · simp

/-- A closing brace. -/
theorem arrives_close {lo : Nat} {braces : List Open} (hc : s.cur.peek = some '}')
    (hbraces : s.braces = openAt src lo :: braces) : Arrives src s s.cur.bump braces
      (s.ranges ++ foldsOf src [⟨.region, lo, s.cur.bump.pos⟩]) := by
  have hate := ate_line hc (by decide)
  have hpos : s.cur.bump.pos = s.cur.pos + 1 := (takes_bump (rest_of_peek hc)).pos
  have hclose := close_spec (s := { s with braces }) hs lo .region hate hpos
  refine .one (t := { s with
    braces, ranges := s.ranges ++ foldsOf src [⟨.region, lo, s.cur.bump.pos⟩] }) hc ?_
    (hs.moveTo hate) hcomments rfl rfl
  rw [step_code hcomments hc]
  unfold stepCode
  rw [if_neg (by decide), if_neg (by simp), if_neg (by simp), if_neg (by decide),
    if_neg (by decide),
    if_neg (by decide), if_pos rfl, hbraces]
  dsimp only at hclose ⊢
  rw [hclose]

end Folding

namespace Folding

variable {src : List Char}

theorem reads_two {s : Folding} {pos : Nat} {c d : Char} {cs : List Char}
    (h : s.cur = { pos, rest := c :: d :: cs }) : s.cur.peek = some c ∧ s.cur.peekAt 1 = some d ∧
      s.cur.bump.bump = { pos := pos + c.utf8Size + d.utf8Size, rest := cs } := by
  rw [h]
  exact ⟨rfl, rfl, rfl⟩

/-- The rest of a block comment, by the comments that are open. -/
theorem arrives_blockEnd {m : Cursor} {depth pos lo : Nat} {rest : List Char}
    (hlen : byteLen src < posSpace) (hend : blockEnd depth pos rest = (m, true)) {s : Folding}
    (hs : Stands src s) (hcur : s.cur = { pos, rest }) (hdepth : s.blockComments.length = depth)
    (hpos : depth ≤ pos) (hstart : s.blockComments.getLast? = some (openAt src lo)) :
    Arrives src s m s.braces (s.ranges ++ foldsOf src [⟨.comment, lo, m.pos⟩]) := by
  obtain ⟨start, opens, hopens⟩ : ∃ start opens, s.blockComments = start :: opens := by
    cases hb : s.blockComments with
    | nil =>
      rw [hb] at hstart
      cases hstart
    | cons start opens => exact ⟨start, opens, rfl⟩
  have hle := hs.le
  rw [hcur] at hle
  fun_induction blockEnd depth pos rest generalizing s start opens with
  | case1 pos rest =>
    rw [hopens] at hdepth
    cases hdepth
  | case2 => cases hend
  | case3 depth pos hne c ih =>
    rw [blockEnd.eq_def, if_neg hne] at hend
    cases hend
  | case4 depth pos hne c d cs h ih =>
    obtain ⟨rfl, rfl⟩ := h
    obtain ⟨hc, h1, hbump⟩ := reads_two hcur
    simp only [byteLen_cons] at hle
    have hone := Char.utf8Size_pos '*'
    have hwrap : (depth + 1) % posSpace = depth + 1 := Nat.mod_eq_of_lt (by omega)
    rw [hwrap] at hend ih
    have hstep := step_comment hopens hc
    unfold stepComment at hstep
    rw [if_neg (by decide), if_pos ⟨rfl, h1⟩] at hstep
    have hate := (ate_line hc (by decide)).trans (ate_line ((peek_bump s.cur).trans h1) (by decide))
    have hlast : (s.here :: s.blockComments).getLast? = some (openAt src lo) := by
      rw [hopens, List.getLast?_cons_cons, ← hopens]
      exact hstart
    refine Arrives.after (.one (ne_nil_of_peek hc) hstep) ?_
    exact ih hend (s :=
      Folding.moveTo { s with blockComments := s.here :: s.blockComments } s.cur.bump.bump)
      (hs.moveTo hate) hbump (congrArg (· + 1) hdepth) (by omega) hlast s.here s.blockComments rfl
      (by dsimp only; omega)
  | case5 depth pos hne c d cs h h' ih =>
    obtain ⟨rfl, rfl⟩ := h'
    obtain ⟨hc, h1, hbump⟩ := reads_two hcur
    simp only [byteLen_cons] at hle
    have hstep := step_comment hopens hc
    unfold stepComment at hstep
    rw [if_neg (by decide), if_neg (by simp), if_pos ⟨rfl, h1⟩, hopens] at hstep
    have hate := (ate_line hc (by decide)).trans (ate_line ((peek_bump s.cur).trans h1) (by decide))
    rw [hopens, List.length_cons] at hdepth
    cases opens with
    | nil =>
      rw [hopens] at hstart
      obtain rfl : start = openAt src lo := Option.some.inj hstart
      obtain rfl : depth = 1 := hdepth.symm
      rw [blockEnd.eq_def, if_pos rfl] at hend
      obtain rfl : s.cur.bump.bump = m := hbump.trans (Prod.mk.inj hend).1
      have hpos : s.cur.bump.bump.pos = s.cur.pos + 2 := by
        rw [hbump, hcur]
        rfl
      have hclose := close_spec (s := { s with blockComments := [] }) hs lo .comment hate hpos
      refine .one (t := { s with
        blockComments := [], ranges :=
          s.ranges ++ foldsOf src [⟨.comment, lo, s.cur.bump.bump.pos⟩] })
        hc ?_ (hs.moveTo hate) rfl rfl rfl
      rw [hstep]
      simp only [List.tail_cons, ↓reduceIte] at hclose ⊢
      rw [hclose]
    | cons start' opens =>
      have hlast : (start' :: opens).getLast? = some (openAt src lo) := by
        rw [hopens, List.getLast?_cons_cons] at hstart
        exact hstart
      simp only [List.tail_cons, reduceCtorEq, ↓reduceIte] at hstep
      refine Arrives.after (.one (ne_nil_of_peek hc) hstep) ?_
      exact ih hend (s :=
        Folding.moveTo { s with blockComments := start' :: opens } s.cur.bump.bump)
        (hs.moveTo hate) hbump (by rw [← hdepth]; rfl)
        (by omega) hlast start' opens rfl (by dsimp only; omega)
  | case6 depth pos hne c d cs h h' ih =>
    obtain ⟨hc, h1, -⟩ := reads_two hcur
    rw [byteLen_cons] at hle
    dsimp only at hle
    have hbump : s.cur.bump = { pos := pos + c.utf8Size, rest := d :: cs } := by
      rw [hcur]
      rfl
    have hstep := step_comment hopens hc
    unfold stepComment at hstep
    by_cases hline : c = '\n'
    · subst hline
      rw [if_pos rfl] at hstep
      refine Arrives.after (.one (ne_nil_of_peek hc) hstep) ?_
      exact ih hend (hs.newline hc) hbump hdepth (by omega)
        hstart start opens hopens (by dsimp only; omega)
    · rw [if_neg hline, h1, if_neg (by simpa using h), if_neg (by simpa using h')] at hstep
      refine Arrives.after (.one (ne_nil_of_peek hc) hstep) ?_
      exact ih hend (hs.moveTo (ate_line hc hline)) hbump hdepth (by omega)
        hstart start opens hopens
        (by dsimp only; omega)

/-- A block comment. -/
theorem arrives_block {s : Folding} {m : Cursor} (hlen : byteLen src < posSpace) (hs : Stands src s)
    (hcomments : s.blockComments = []) (hc : s.cur.peek = some '/') (h1 : s.cur.peekAt 1 = some '*')
    (hend : blockEnd 1 s.cur.bump.bump.pos s.cur.bump.bump.rest = (m, true)) :
    Arrives src s m s.braces (s.ranges ++ foldsOf src [⟨.comment, s.cur.pos, m.pos⟩]) := by
  have hstep := step_code hcomments hc
  unfold stepCode at hstep
  rw [if_neg (by decide), h1, if_neg (by decide), if_pos (by decide), hcomments] at hstep
  have hone := ate_line hc (by decide)
  have hate := hone.trans (ate_line ((peek_bump s.cur).trans h1) (by decide))
  have hpos : 1 ≤ s.cur.bump.bump.pos := by
    have hfirst := (takes_bump (rest_of_peek hc)).pos
    obtain ⟨taken, htaken, -⟩ := ate_line ((peek_bump s.cur).trans h1) (by decide)
    have hsecond := htaken.pos
    simp only [byteLen_cons, byteLen_nil] at hfirst
    have hsize := Char.utf8Size_pos '/'
    omega
  refine Arrives.after (.one (ne_nil_of_peek hc) hstep) ?_
  exact arrives_blockEnd hlen hend (s :=
    Folding.moveTo { s with blockComments := [s.here] } s.cur.bump.bump)
    (hs.moveTo hate) rfl rfl hpos (congrArg some hs.here)

end Folding

end lsp
