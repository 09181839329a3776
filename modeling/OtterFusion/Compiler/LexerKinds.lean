-- What the lexer reads in a text without errors, piece by piece: whitespace, comments, and tokens
-- with their kinds and what they do to the modes. Errors stay, so there were none on the way.
import OtterFusion.Compiler.ScannersAgree

namespace compiler.lexer

/-! ## Errors stay -/

namespace Lexer

/-- The errors so far are still there. -/
def Keeps (lx t : Lexer) : Prop := lx.errors <+: t.errors

theorem Keeps.refl (lx : Lexer) : Keeps lx lx := List.prefix_rfl

theorem Keeps.trans {a b c : Lexer} (h : Keeps a b) (h' : Keeps b c) : Keeps a c :=
  List.IsPrefix.trans h h'

theorem Keeps.nil {lx t : Lexer} (h : Keeps lx t) (ht : t.errors = []) : lx.errors = [] := by
  unfold Keeps at h
  rw [ht] at h
  exact List.prefix_nil.mp h

theorem keeps_error (lx : Lexer) (kind : LexErrorKind) (lo hi : Nat) :
    Keeps lx (lx.error kind lo hi) :=
  List.prefix_append _ _

theorem error_ne_nil (lx : Lexer) (kind : LexErrorKind) (lo hi : Nat) :
    (lx.error kind lo hi).errors ≠ [] :=
  List.append_ne_nil_of_right_ne_nil _ (List.cons_ne_nil _ _)

theorem keeps_consumeEscapeBody (lx : Lexer) (escLo : Nat) :
    Keeps lx (lx.consumeEscapeBody escLo) := by
  unfold consumeEscapeBody
  cases lx.cur.peek with
  | none => exact keeps_error lx _ _ _
  | some c =>
    dsimp only
    split_ifs
    · exact .refl lx
    · exact .refl lx
    · exact keeps_error { lx with cur := _ } _ _ _
    · exact keeps_error { lx with cur := _ } _ _ _
    · exact .refl lx
    · exact keeps_error { lx with cur := _ } _ _ _
    · exact keeps_error { lx with cur := _ } _ _ _
    · exact keeps_error { lx with cur := _ } _ _ _

/-- An escape without an error is on one line. -/
theorem consumeEscapeBody_line {lx : Lexer} {escLo : Nat}
    (h : (lx.consumeEscapeBody escLo).errors = []) :
    lx.cur.Ate (· ≠ '\n') (lx.consumeEscapeBody escLo).cur := by
  cases hc : lx.cur.peek with
  | none =>
    unfold consumeEscapeBody at h
    rw [hc] at h
    exact absurd h (error_ne_nil _ _ _ _)
  | some c =>
    have hread : lx.bump.cur.Ate (· ≠ '\n') (lx.consumeEscapeBody escLo).cur := by
      refine (consumeEscapeBody_reads hc escLo).ate.mono fun d hd => ?_
      rintro rfl
      exact hd (by decide)
    refine Cursor.Ate.trans (ate_bump fun d hd => ?_) hread
    obtain rfl : c = d := Option.some.inj (hc.symm.trans hd)
    rintro rfl
    unfold consumeEscapeBody at h
    rw [hc] at h
    dsimp only at h
    rw [if_neg (by decide), if_neg (by decide), if_neg (by decide)] at h
    exact error_ne_nil _ _ _ _ h

theorem keeps_scanCharLoop (lo scalars : Nat) (lx : Lexer) :
    Keeps lx (scanCharLoop lo scalars lx) := by
  fun_induction scanCharLoop lo scalars lx with
  | case1 scalars lx => exact keeps_error lx _ _ _
  | case2 scalars lx => exact keeps_error lx _ _ _
  | case3 scalars lx cs opened closed hrest =>
    dsimp only [closed, opened]
    split_ifs
    · exact keeps_error lx.bump _ _ _
    · exact keeps_error lx.bump _ _ _
    · exact .refl lx
  | case4 scalars lx cs hrest _ _ ih =>
    exact (keeps_consumeEscapeBody lx.bump lx.cur.pos).trans ih
  | case5 scalars lx c cs hrest hline hquote hback ih => exact ih

/-- A character literal without an error is on one line. -/
theorem scanCharLoop_line (lo scalars : Nat) (lx : Lexer)
    (h : (scanCharLoop lo scalars lx).errors = []) :
    lx.cur.Ate (· ≠ '\n') (scanCharLoop lo scalars lx).cur := by
  have hone : ∀ {lx : Lexer} {c : Char} {cs : List Char}, lx.cur.rest = c :: cs → c ≠ '\n' →
      lx.cur.Ate (· ≠ '\n') lx.bump.cur := by
    intro lx c cs hrest hc
    apply ate_bump
    intro d hd
    obtain rfl : c = d := Option.some.inj ((peek_of_rest hrest).symm.trans hd)
    exact hc
  fun_induction scanCharLoop lo scalars lx with
  | case1 scalars lx => exact absurd h (error_ne_nil lx _ _ _)
  | case2 scalars lx => exact absurd h (error_ne_nil lx _ _ _)
  | case3 scalars lx cs opened closed hrest =>
    have hcur : closed.cur = lx.bump.cur := by
      dsimp only [closed, opened]
      split_ifs <;> rfl
    have hemit : (closed.emit .char lo).cur = lx.bump.cur := hcur
    rw [hemit]
    exact hone hrest (by decide)
  | case4 scalars lx cs hrest _ _ ih =>
    have hesc := (keeps_scanCharLoop lo _ (lx.bump.consumeEscapeBody lx.cur.pos)).nil h
    exact ((hone hrest (by decide)).trans (consumeEscapeBody_line hesc)).trans (ih h)
  | case5 scalars lx c cs hrest hline hquote hback ih => exact (hone hrest hline).trans (ih h)

theorem keeps_skip (lx : Lexer) : Keeps lx lx.skipWhitespaceAndOrdinaryComments := by
  fun_induction skipWhitespaceAndOrdinaryComments lx with
  | case1 => exact .refl _
  | case2 lx c cs hrest hspace ih => exact ih
  | case3 => exact .refl _
  | case4 lx c cs hrest hspace hslash hdoc ih => exact ih
  | case5 lx c cs hrest hspace hslash hstar r hclosed ih => exact ih
  | case6 lx c cs hrest hspace hslash hstar r hclosed => exact keeps_error (lx.skipTo _ _) _ _ _
  | case7 => exact .refl _

theorem keeps_scanNumber (x : Xid) (lx : Lexer) (lo : Nat) : Keeps lx (lx.scanNumber x lo) := by
  have hbased : ∀ base, Keeps lx (lx.bump.bump.finishBasedInt x lo base) := by
    intro base
    unfold finishBasedInt
    dsimp only
    split
    · exact List.prefix_append _ _
    · exact (List.prefix_append _ _).trans (List.prefix_append _ _)
  unfold scanNumber
  split
  · split
    · exact hbased _
    · exact hbased _
    · exact hbased _
    · exact hbased _
    · exact hbased _
    · exact hbased _
    · exact .refl lx
  · exact .refl lx

theorem keeps_lexToken (x : Xid) (lx : Lexer) (c : Char) : Keeps lx (lx.lexToken x c) := by
  have hopen : ∀ lx : Lexer, Keeps lx lx.openBrace := by
    intro lx
    unfold openBrace
    split <;> exact .refl lx
  have hclose : ∀ lx : Lexer, Keeps lx lx.closeBrace := by
    intro lx
    unfold closeBrace
    split
    · split <;> exact .refl lx
    · exact .refl lx
  unfold lexToken
  dsimp only
  split_ifs
  · exact .refl lx
  · exact .refl lx
  · exact keeps_scanNumber x lx _
  · exact .refl lx
  · exact hopen (lx.bump.emit .lBrace lx.cur.pos)
  · exact hclose (lx.bump.emit .rBrace lx.cur.pos)
  · exact .refl lx
  · exact keeps_scanCharLoop _ _ lx.bump
  · split
    · split <;> exact .refl lx
    · exact keeps_error lx.bump _ _ _

theorem keeps_lexOneNormal (x : Xid) (lx : Lexer) : Keeps lx (lx.lexOneNormal x) := by
  unfold lexOneNormal
  dsimp only
  split
  · exact keeps_skip lx
  · exact (keeps_skip lx).trans (keeps_lexToken x _ _)

theorem keeps_strTextLoop (lx : Lexer) : Keeps lx lx.strTextLoop := by
  fun_induction strTextLoop lx with
  | case1 => exact .refl _
  | case2 => exact .refl _
  | case3 lx => exact .refl lx
  | case4 lx cs hne hrest _ ih => exact (keeps_consumeEscapeBody lx.bump lx.cur.pos).trans ih
  | case5 lx c cs hrest hend hback ih => exact ih

theorem keeps_lexOneString (x : Xid) (lx : Lexer) : Keeps lx (lx.lexOneString x) := by
  unfold lexOneString
  split
  · exact keeps_error lx _ _ _
  · split_ifs
    · exact .refl lx
    · unfold scanDollar
      dsimp only
      split_ifs
      · exact .refl lx
      · exact .refl lx
      · exact keeps_error lx.bump _ _ _
    · unfold scanStrText
      dsimp only
      split_ifs
      · exact keeps_strTextLoop lx
      · exact keeps_strTextLoop lx

theorem keeps_lexLoop (x : Xid) (n : Nat) (lx : Lexer) : Keeps lx (lx.lexLoop x n) := by
  induction n generalizing lx with
  | zero => exact .refl lx
  | succ n ih =>
    unfold lexLoop
    split
    · exact .refl lx
    · split
      · exact .refl lx
      · split
        · exact .refl lx
        · exact (keeps_lexOneNormal x lx).trans (ih _)
      · split
        · exact (keeps_error lx _ _ _).trans
            (ih (lx.error .unbalancedInterpolation lx.cur.pos lx.cur.pos).pop)
        · exact (keeps_lexOneNormal x lx).trans (ih _)
      · exact (keeps_lexOneString x lx).trans (ih _)

/-! ## Kinds -/

end Lexer

/-- A token that leaves the modes as they are. -/
def TokenKind.Neutral (kind : TokenKind) : Prop :=
  kind ∉ [.lBrace, .rBrace, .strStart, .strEnd, .dollarLBrace]

instance : DecidablePred TokenKind.Neutral :=
  fun kind =>
    inferInstanceAs (Decidable (kind ∉ [.lBrace, .rBrace, .strStart, .strEnd, .dollarLBrace]))

/-- The kind of a token of normal mode, by its first character. -/
def KindOf (c : Char) (kind : TokenKind) : Prop :=
  (c = '{' ∧ kind = .lBrace) ∨ (c = '}' ∧ kind = .rBrace) ∨ (c = '"' ∧ kind = .strStart) ∨
    (c ∉ ['{', '}', '"'] ∧ kind.Neutral)

namespace Lexer

/-- A token of a kind is added. -/
def Adds (p : TokenKind → Prop) (lx t : Lexer) : Prop :=
  ∃ kind span, t.out = lx.out ++ [.token { kind, span }] ∧ p kind

theorem adds_scanCharLoop (lo scalars : Nat) (lx : Lexer) :
    Adds TokenKind.Neutral lx (scanCharLoop lo scalars lx) := by
  fun_induction scanCharLoop lo scalars lx with
  | case1 => exact ⟨.char, _, rfl, by decide⟩
  | case2 => exact ⟨.char, _, rfl, by decide⟩
  | case3 scalars lx cs opened closed hrest =>
    have hout : closed.out = lx.out := by
      dsimp only [closed, opened]
      split_ifs <;> rfl
    exact ⟨.char, _, congrArg (· ++ _) hout, by decide⟩
  | case4 scalars lx cs hrest _ _ ih =>
    obtain ⟨kind, span, hout, hkind⟩ := ih
    have hesc := (consumeEscapeBody_any lx.bump lx.cur.pos).out
    exact ⟨kind, span, by rw [hout, hesc]; rfl, hkind⟩
  | case5 scalars lx c cs hrest hline hquote hback ih => exact ih

theorem adds_scanNumber (x : Xid) (lx : Lexer) (lo : Nat) :
    Adds TokenKind.Neutral lx (lx.scanNumber x lo) := by
  have hbased : ∀ base, Adds TokenKind.Neutral lx (lx.bump.bump.finishBasedInt x lo base) := by
    intro base
    unfold finishBasedInt
    dsimp only
    split
    · exact ⟨_, _, rfl, by simp [TokenKind.Neutral]⟩
    · exact ⟨_, _, rfl, by simp [TokenKind.Neutral]⟩
  have hdecimal : Adds TokenKind.Neutral lx (lx.scanDecimal x lo) := by
    refine ⟨_, _, rfl, ?_⟩
    split <;> simp [TokenKind.Neutral]
  unfold scanNumber
  split
  · split
    · exact hbased _
    · exact hbased _
    · exact hbased _
    · exact hbased _
    · exact hbased _
    · exact hbased _
    · exact hdecimal
  · exact hdecimal

theorem adds_scanIdentOrKeyword (x : Xid) (lx : Lexer) (lo : Nat) :
    Adds TokenKind.Neutral lx (lx.scanIdentOrKeyword x lo) := by
  refine ⟨_, _, rfl, ?_⟩
  split
  · simp [TokenKind.Neutral]
  · split <;> simp [TokenKind.Neutral]

end Lexer

theorem punct_neutral {next : Option Char} {c : Char} {r : TokenKind × Bool}
    (h : punct next c = some r) : r.1.Neutral := by
  unfold punct at h
  split at h
  all_goals try split at h
  all_goals try split at h
  all_goals
    cases h
    try decide

namespace Lexer

theorem adds_lexToken {x : Xid} (hx : x.Documented) (lx : Lexer) (c : Char) :
    Adds (KindOf c) lx (lx.lexToken x c) := by
  have hother : c ∉ ['{', '}', '"'] → ∀ {t : Lexer}, Adds TokenKind.Neutral lx t →
      Adds (KindOf c) lx t := by
    rintro hc t ⟨kind, span, hout, hkind⟩
    exact ⟨kind, span, hout, .inr (.inr (.inr ⟨hc, hkind⟩))⟩
  unfold lexToken
  dsimp only
  split
  · rename_i h
    exact hother (by rw [h.1]; decide) ⟨.docOuter, _, rfl, by decide⟩
  · split
    · rename_i h
      exact hother (by rw [h.1]; decide) ⟨.docInner, _, rfl, by decide⟩
    · split
      · rename_i hdigit
        refine hother (fun hmem => ?_) (adds_scanNumber x lx _)
        exact word_of_digit hdigit (by simp at hmem; rcases hmem with rfl | rfl | rfl <;> decide)
      · split
        · rename_i hstart
          refine hother (fun hmem => ?_) (adds_scanIdentOrKeyword x lx _)
          exact hx.word_of_start hstart
            (by simp at hmem; rcases hmem with rfl | rfl | rfl <;> decide)
        · split
          · rename_i hc
            have hout := (openBrace_modes (lx.bump.emit .lBrace lx.cur.pos)).2.1
            exact ⟨.lBrace, _, hout, .inl ⟨hc, rfl⟩⟩
          · split
            · rename_i hc
              have hout := (closeBrace_modes (lx.bump.emit .rBrace lx.cur.pos)).2.1
              exact ⟨.rBrace, _, hout, .inr (.inl ⟨hc, rfl⟩)⟩
            · split
              · rename_i hc
                exact ⟨.strStart, _, rfl, .inr (.inr (.inl ⟨hc, rfl⟩))⟩
              · rename_i hopen hclose hquote
                have hc : c ∉ ['{', '}', '"'] := by simp [hopen, hclose, hquote]
                split
                · exact hother hc (adds_scanCharLoop lx.cur.pos 0 lx.bump)
                · split
                  · rename_i kind two hpunct
                    have hneutral : kind.Neutral := punct_neutral hpunct
                    cases two with
                    | false => exact hother hc ⟨kind, _, rfl, hneutral⟩
                    | true => exact hother hc ⟨kind, _, rfl, hneutral⟩
                  · exact hother hc ⟨.unknown, _, rfl, by decide⟩

end Lexer

/-! ## What is read -/

/-- A token of a text without errors, by the modes before it: its kind, where it ends, and the modes
after it. -/
inductive Taken (a : Cursor) (modes : List Mode) : TokenKind → Cursor → List Mode → Prop
  | plain {kind : TokenKind} {b : Cursor} : Outermost modes → kind.Neutral → a.Ate Outside b →
      Taken a modes kind b modes
  | slash {kind : TokenKind} : Outermost modes → kind.Neutral → a.peek = some '/' →
      a.peekAt 1 ≠ some '/' → a.peekAt 1 ≠ some '*' → Taken a modes kind a.bump modes
  | doc {kind : TokenKind} : Outermost modes → kind.Neutral → a.peek = some '/' →
      a.peekAt 1 = some '/' → Taken a modes kind (a.bump.bump.eatWhile (· != '\n')) modes
  | charLiteral {kind : TokenKind} : Outermost modes → kind.Neutral → a.peek = some '\'' →
      a.Ate (· ≠ '\n') (skipCommentCharLiteral a) →
        Taken a modes kind (skipCommentCharLiteral a) modes
  | openBrace : Outermost modes → a.peek = some '{' → Taken a modes .lBrace a.bump (openModes modes)
  | closeBrace : Outermost modes → a.peek = some '}' →
      Taken a modes .rBrace a.bump (closeModes modes)
  | quote : Outermost modes → a.peek = some '"' → Taken a modes .strStart a.bump (.string :: modes)
  | text {kind : TokenKind} {b : Cursor} {below : List Mode} : modes = .string :: below →
      kind.Neutral → a.Ate (fun _ => True) b → Taken a modes kind b modes
  | interp {below : List Mode} : modes = .string :: below → a.peek = some '$' →
      Taken a modes .dollarLBrace a.bump.bump (.interp 0 :: modes)
  | close {below : List Mode} : modes = .string :: below → a.peek = some '"' →
      Taken a modes .strEnd a.bump below

theorem KindOf.neutral {c : Char} {kind : TokenKind} (h : KindOf c kind)
    (hc : c ∉ ['{', '}', '"']) :
    kind.Neutral := by
  rcases h with ⟨rfl, _⟩ | ⟨rfl, _⟩ | ⟨rfl, _⟩ | ⟨_, h⟩
  · exact absurd (by decide) hc
  · exact absurd (by decide) hc
  · exact absurd (by decide) hc
  · exact h

theorem Cursor.Ate.head {p : Char → Prop} {a b : Cursor} {c : Char} (h : a.Ate p b)
    (hlt : b.rest.length < a.rest.length) (hc : a.peek = some c) : p c := by
  obtain ⟨taken, ⟨hrest, -⟩, hall⟩ := h
  cases taken with
  | nil =>
    rw [List.nil_append] at hrest
    rw [hrest] at hlt
    exact absurd hlt (Nat.lt_irrefl _)
  | cons d ds =>
    obtain rfl : d = c := Option.some.inj ((peek_of_rest hrest).symm.trans hc)
    exact hall d List.mem_cons_self

namespace Lexer

/-- A turn takes a token. -/
def Takes (lx t : Lexer) : Prop :=
  ∃ kind, t.out = lx.out ++ [.token { kind, span := .new lx.cur.pos t.cur.pos }] ∧
    Taken lx.cur lx.modes kind t.cur t.modes

/-- The kind of the token that is added. -/
theorem Adds.kind {p : TokenKind → Prop} {lx t : Lexer} {span : Span} (h : Adds p lx t)
    (hout : ∃ kind, t.out = lx.out ++ [.token { kind, span }]) :
    ∃ kind, t.out = lx.out ++ [.token { kind, span }] ∧ p kind := by
  obtain ⟨kind, hkind⟩ := hout
  obtain ⟨kind', span', hout', hp⟩ := h
  have heq := List.append_cancel_left (hkind.symm.trans hout')
  cases heq
  exact ⟨kind, hkind, hp⟩

theorem lexToken_char {x : Xid} (hx : x.Documented) (lx : Lexer) :
    lx.lexToken x '\'' = lx.bump.scanChar lx.cur.pos := by
  unfold lexToken
  dsimp only
  rw [if_neg (by simp), if_neg (by simp), if_neg (by decide), if_neg, if_neg (by decide),
    if_neg (by decide), if_neg (by decide), if_pos rfl]
  exact fun h => hx.word_of_start h (by decide)

theorem lexToken_takes {x : Xid} (hx : x.Documented) {lx : Lexer} {c : Char}
    (hc : lx.cur.peek = some c) (hat : lx.AtToken) (hmodes : Outermost lx.modes)
    (herr : (lx.lexToken x c).errors = []) : Takes lx (lx.lexToken x c) := by
  have hadds := adds_lexToken hx lx c
  cases lexToken_spec hx hc hat with
  | plain h =>
    obtain ⟨kind, hout, hkind⟩ := hadds.kind h.out
    have hplain : c ∉ ['{', '}', '"'] := fun hmem => h.ate.head h.lt hc (by simp at hmem ⊢; tauto)
    refine ⟨kind, hout, ?_⟩
    rw [h.modes]
    exact .plain hmodes (hkind.neutral hplain) h.ate
  | slash h1 h2 h =>
    obtain ⟨kind, hout, hkind⟩ := hadds.kind h.out
    obtain rfl : '/' = c := Option.some.inj (h.peek.symm.trans hc)
    refine ⟨kind, hout, ?_⟩
    rw [h.modes, h.cur]
    exact .slash hmodes (hkind.neutral (by decide)) hc h1 h2
  | doc h0 h1 h2 hcur h =>
    obtain ⟨kind, hout, hkind⟩ := hadds.kind h.out
    obtain rfl : '/' = c := Option.some.inj (h0.symm.trans hc)
    refine ⟨kind, hout, ?_⟩
    rw [h.modes, hcur]
    exact .doc hmodes (hkind.neutral (by decide)) hc h1
  | openBrace h =>
    obtain ⟨kind, hout, hkind⟩ := hadds.kind h.out
    obtain rfl : '{' = c := Option.some.inj (h.peek.symm.trans hc)
    obtain rfl : kind = .lBrace := by simpa [KindOf] using hkind
    refine ⟨_, hout, ?_⟩
    rw [h.modes, h.cur]
    exact .openBrace hmodes hc
  | closeBrace h =>
    obtain ⟨kind, hout, hkind⟩ := hadds.kind h.out
    obtain rfl : '}' = c := Option.some.inj (h.peek.symm.trans hc)
    obtain rfl : kind = .rBrace := by simpa [KindOf] using hkind
    refine ⟨_, hout, ?_⟩
    rw [h.modes, h.cur]
    exact .closeBrace hmodes hc
  | quote h =>
    obtain ⟨kind, hout, hkind⟩ := hadds.kind h.out
    obtain rfl : '"' = c := Option.some.inj (h.peek.symm.trans hc)
    obtain rfl : kind = .strStart := by simpa [KindOf] using hkind
    refine ⟨_, hout, ?_⟩
    rw [h.modes, h.cur]
    exact .quote hmodes hc
  | charLiteral h0 hcur h =>
    obtain ⟨kind, hout, hkind⟩ := hadds.kind h.out
    obtain rfl : '\'' = c := Option.some.inj (h0.symm.trans hc)
    have hline : lx.cur.Ate (· ≠ '\n') (lx.lexToken x '\'').cur := by
      rw [lexToken_char hx] at herr ⊢
      refine Cursor.Ate.trans (ate_bump fun d hd => ?_)
        (scanCharLoop_line lx.cur.pos 0 lx.bump herr)
      obtain rfl : '\'' = d := Option.some.inj (hc.symm.trans hd)
      decide
    refine ⟨kind, hout, ?_⟩
    rw [hcur] at hline
    rw [h.modes, hcur]
    exact .charLiteral hmodes (hkind.neutral (by decide)) hc hline

theorem lexOneString_takes {x : Xid} {lx : Lexer} {below : List Mode}
    (hmodes : lx.modes = .string :: below) (herr : (lx.lexOneString x).errors = []) :
    Takes lx (lx.lexOneString x) := by
  unfold lexOneString at herr ⊢
  cases hc : lx.cur.peek with
  | none =>
    rw [hc] at herr
    exact absurd herr (error_ne_nil _ _ _ _)
  | some c =>
    rw [hc] at herr
    dsimp only at herr ⊢
    split at herr
    · rename_i h
      subst h
      rw [if_pos rfl]
      refine ⟨.strEnd, rfl, ?_⟩
      have hpop : (lx.bump.emit .strEnd lx.cur.pos).pop.modes = below := congrArg List.tail hmodes
      rw [hpop]
      exact .close hmodes hc
    · rename_i hquote
      rw [if_neg hquote]
      split at herr
      · rename_i h
        subst h
        rw [if_pos rfl]
        unfold scanDollar at herr ⊢
        dsimp only at herr ⊢
        split at herr
        · rename_i hopen
          rw [if_pos hopen]
          exact ⟨.dollarLBrace, rfl, .interp hmodes hc⟩
        · rename_i hopen
          rw [if_neg hopen]
          split at herr
          · rename_i hstart
            rw [if_pos hstart]
            exact ⟨.dollarIdent, rfl,
              .text hmodes (by decide) ((bump_any _).trans (ate_eatWhile _ _).any)⟩
          · exact absurd herr (error_ne_nil _ _ _ _)
      · rename_i hdollar
        rw [if_neg hdollar]
        obtain ⟨htext, hread⟩ := strTextLoop_spec lx
        have hpos := (htext.lt hc (strTextLoop_ne hc hquote hdollar)).2
        unfold scanStrText
        dsimp only
        rw [if_pos hpos]
        refine ⟨.strText, by rw [← hread.out]; rfl, ?_⟩
        have hsame : (lx.strTextLoop.emit .strText lx.cur.pos).modes = lx.modes := hread.modes
        rw [hsame]
        exact .text hmodes (by decide) hread.ate

end Lexer

/-- What is read from one place to another in a text without errors, with the modes and what has
been added, before and after. -/
inductive Reading : Cursor → List Mode → List Item → Cursor → List Mode → List Item → Prop
  | done (a : Cursor) (modes : List Mode) (out : List Item) : Reading a modes out a modes out
  | space {a b : Cursor} {modes modes' : List Mode} {out out' : List Item} {c : Char} :
      Outermost modes → a.peek = some c → isSpace c = true →
      Reading a.bump modes out b modes' out' → Reading a modes out b modes' out'
  | line {a b : Cursor} {modes modes' : List Mode} {out out' : List Item} {span : Span} :
      Outermost modes → a.peek = some '/' → a.peekAt 1 = some '/' →
      Reading (a.bump.bump.eatWhile (· != '\n')) modes (out ++ [.comment { kind := .line, span }]) b
        modes' out' → Reading a modes out b modes' out'
  | block {a m b : Cursor} {modes modes' : List Mode} {out out' : List Item} :
      Outermost modes → a.peek = some '/' → a.peekAt 1 = some '*' →
      blockEnd 1 a.bump.bump.pos a.bump.bump.rest = (m, true) →
      Reading m modes (out ++ [.comment { kind := .block, span := .new a.pos m.pos }])
        b modes' out' →
      Reading a modes out b modes' out'
  | token {a m b : Cursor} {modes modes' modes'' : List Mode} {out out' : List Item}
      {kind : TokenKind} : Taken a modes kind m modes' →
      Reading m modes' (out ++ [.token { kind, span := .new a.pos m.pos }]) b modes'' out' →
      Reading a modes out b modes'' out'

theorem Reading.trans {a b c : Cursor} {modes modes' modes'' : List Mode} {x y z : List Item}
    (h : Reading a modes x b modes' y) (h' : Reading b modes' y c modes'' z) :
    Reading a modes x c modes'' z := by
  induction h with
  | done => exact h'
  | space hm hc hs _ ih => exact .space hm hc hs (ih h')
  | line hm hc h1 _ ih => exact .line hm hc h1 (ih h')
  | block hm hc h1 hr _ ih => exact .block hm hc h1 hr (ih h')
  | token ht _ ih => exact .token ht (ih h')

/-- What has been added stays. -/
theorem Reading.grows {a b : Cursor} {modes modes' : List Mode} {out out' : List Item}
    (h : Reading a modes out b modes' out') : out <+: out' := by
  induction h with
  | done => exact List.prefix_rfl
  | space _ _ _ _ ih => exact ih
  | line _ _ _ _ ih => exact (List.prefix_append _ _).trans ih
  | block _ _ _ _ _ ih => exact (List.prefix_append _ _).trans ih
  | token _ _ ih => exact (List.prefix_append _ _).trans ih

namespace Lexer

/-- From one state of the lexer to another. -/
def Goes (lx t : Lexer) : Prop := Reading lx.cur lx.modes lx.out t.cur t.modes t.out

theorem Skipped.goes {lx t : Lexer} (h : lx.Skipped t) (hmodes : Outermost lx.modes)
    (herr : t.errors = []) : Goes lx t := by
  induction h with
  | done => exact .done _ _ _
  | space hrest hspace _ ih => exact .space hmodes (peek_of_rest hrest) hspace (ih hmodes herr)
  | line hc h1 _ _ ih => exact .line hmodes hc h1 (ih hmodes herr)
  | block hc h1 hr hclosed _ ih =>
    exact .block hmodes hc h1 (hr.trans (Prod.ext rfl hclosed)) (ih hmodes herr)
  | unclosed lo hi _ _ _ _ => exact absurd herr (error_ne_nil _ _ _ _)

theorem Takes.goes {lx t : Lexer} (h : Takes lx t) : Goes lx t := by
  obtain ⟨kind, hout, htaken⟩ := h
  refine .token htaken ?_
  rw [← hout]
  exact .done _ _ _

theorem lexOneNormal_goes {x : Xid} (hx : x.Documented) {lx : Lexer} (hmodes : Outermost lx.modes)
    (herr : (lx.lexOneNormal x).errors = []) : Goes lx (lx.lexOneNormal x) := by
  obtain ⟨hskip, hat⟩ := skip_spec lx
  unfold lexOneNormal at herr ⊢
  dsimp only at herr ⊢
  cases hc : lx.skipWhitespaceAndOrdinaryComments.cur.peek with
  | none =>
    rw [hc] at herr
    exact hskip.goes hmodes herr
  | some c =>
    rw [hc] at herr
    have hsame := hskip.laid.2
    have hbefore := (keeps_lexToken x _ c).nil herr
    have htakes := lexToken_takes hx hc hat (hsame ▸ hmodes) herr
    exact (hskip.goes hmodes hbefore).trans htakes.goes

/-- A run without errors reads up to the end, where no string is open. -/
theorem lexLoop_goes {x : Xid} (hx : x.Documented) (fuel : Nat) (lx : Lexer) (hb : Based lx.modes)
    (hfuel : 2 * lx.cur.rest.length + lx.modes.length ≤ fuel)
    (herr : (lx.lexLoop x fuel).errors = []) :
    Goes lx (lx.lexLoop x fuel) ∧ ∃ below, (lx.lexLoop x fuel).modes = .normal :: below := by
  induction fuel generalizing lx with
  | zero =>
    have hpos := List.length_pos_iff.mpr hb.ne_nil
    omega
  | succ fuel ih =>
    have hnext : ∀ t, Turned lx t → (t.lexLoop x fuel).errors = [] → (t.errors = [] → Goes lx t) →
        Goes lx (t.lexLoop x fuel) ∧ ∃ below, (t.lexLoop x fuel).modes = .normal :: below := by
      intro t ht herr hgoes
      have hless := ht.less hb
      obtain ⟨hrest, hend⟩ := ih t (ht.based hb) (by omega) herr
      exact ⟨(hgoes ((keeps_lexLoop x fuel t).nil herr)).trans hrest, hend⟩
    unfold lexLoop at herr ⊢
    split at herr
    · rename_i hend
      rw [if_pos hend]
      refine ⟨.done _ _ _, [], ?_⟩
      obtain ⟨m, hm⟩ := List.length_eq_one_iff.mp hend.2
      rw [hm] at hb
      rw [hm]
      exact congrArg (· :: []) (Option.some.inj hb)
    · rename_i hend
      rw [if_neg hend]
      split at herr
      · rename_i hm
        exact absurd hm hb.ne_nil
      · rename_i below hm
        have hout : Outermost lx.modes := fun rest h => by
          rw [hm] at h
          cases h
        split at herr
        · rename_i hnil
          rw [if_pos hnil]
          exact ⟨.done _ _ _, below, hm⟩
        · rename_i hne
          rw [if_neg hne]
          exact hnext _ (lexOneNormal_turned hx hne) herr (lexOneNormal_goes hx hout)
      · rename_i depth below hm
        have hout : Outermost lx.modes := fun rest h => by
          rw [hm] at h
          cases h
        split at herr
        · have hpop := (keeps_lexLoop x fuel _).nil herr
          exact absurd hpop (error_ne_nil _ _ _ _)
        · rename_i hne
          rw [if_neg hne]
          exact hnext _ (lexOneNormal_turned hx hne) herr (lexOneNormal_goes hx hout)
      · rename_i below hm
        exact hnext _ ((lexOneString_spec hx lx).turned hm) herr fun h =>
          (lexOneString_takes hm h).goes

/-- A text without errors is read from its start to its end. -/
theorem lex_reading {x : Xid} (hx : x.Documented) {src : List Char}
    (herr : (lex x src).errors = []) :
    ∃ a below out, Reading { pos := 0, rest := src } [.normal] [] a (.normal :: below) out ∧
      a.rest = [] ∧
        (lex x src).out = out ++ [.token { kind := .eof, span := .new a.pos a.pos }] := by
  have hnil := (lexLoop_spec hx (2 * src.length + 1) (new src) rfl (Nat.le_refl _)).2
  obtain ⟨hgoes, below, hbelow⟩ :=
    lexLoop_goes hx (2 * src.length + 1) (new src) rfl (Nat.le_refl _) herr
  unfold Goes at hgoes
  rw [hbelow] at hgoes
  exact ⟨_, below, _, hgoes, hnil, rfl⟩

end Lexer

end compiler.lexer
