-- The turns of the lexer's loop. A turn of normal mode skips whitespace and ordinary comments
-- and takes one token, a turn of string mode takes one token. Over a whole run the pieces lie
-- side by side from the start of the text to its end.
import OtterFusion.Compiler.LexerLayout

namespace compiler.lexer

/-! ## One turn of string mode -/

/-- A stretch of literal text in a string: plain characters and escapes. -/
inductive StrText : Cursor → Cursor → Prop
  | done (a : Cursor) : StrText a a
  | char {a b : Cursor} {c : Char} : a.peek = some c → c ∉ ['"', '$', '\\'] →
      StrText a.bump b → StrText a b
  | escape {a m b : Cursor} {c : Char} : a.peek = some '\\' → a.peekAt 1 = some c →
      a.bump.bump.Ate InEscape m → StrText m b → StrText a b
  /-- A backslash at the end of the text. -/
  | last {a : Cursor} : a.rest = ['\\'] → StrText a a.bump

/-- What one turn of string mode does. -/
inductive Lexer.StringTurn (lx lx' : Lexer) : Prop
  | eof : lx.cur.rest = [] → lx'.cur = lx.cur → lx'.modes = lx.modes.tail →
      (∃ kind, lx'.out = lx.out ++ [.token { kind, span := .new lx.cur.pos lx'.cur.pos }]) →
      StringTurn lx lx'
  | close : Lexer.Single '"' lx.modes.tail lx lx' → StringTurn lx lx'
  | interp : lx.cur.peek = some '$' → lx.cur.peekAt 1 = some '{' →
      lx'.cur = lx.cur.bump.bump → lx'.modes = .interp 0 :: lx.modes →
      (∃ kind, lx'.out = lx.out ++ [.token { kind, span := .new lx.cur.pos lx'.cur.pos }]) →
      StringTurn lx lx'
  | dollar : lx.cur.peek = some '$' → lx.cur.peekAt 1 ≠ some '{' →
      lx.cur.bump.Ate Word lx'.cur → Lexer.Emits (fun _ => True) lx.cur lx lx' → StringTurn lx lx'
  | text : StrText lx.cur lx'.cur → Lexer.Emits (fun _ => True) lx.cur lx lx' → StringTurn lx lx'

theorem bump_any (a : Cursor) : a.Ate (fun _ => True) a.bump := ate_bump fun _ _ => trivial

theorem ne_nil_of_peek {a : Cursor} {c : Char} (h : a.peek = some c) : a.rest ≠ [] := by
  intro hnil
  unfold Cursor.peek at h
  rw [hnil] at h
  cases h

theorem rest_of_peek {a : Cursor} {c : Char} (h : a.peek = some c) :
    a.rest = c :: a.bump.rest := by
  cases hr : a.rest with
  | nil => exact absurd hr (ne_nil_of_peek h)
  | cons d ds =>
    have hd : d = c := Option.some.inj ((peek_of_rest hr).symm.trans h)
    have hrest := (takes_bump hr).rest
    rw [hr] at hrest
    rw [hd, (List.cons.inj hrest).2]
    rfl

theorem strTextLoop_spec (lx : Lexer) :
    StrText lx.cur lx.strTextLoop.cur ∧ lx.Reads (fun _ => True) lx.strTextLoop := by
  fun_induction Lexer.strTextLoop lx with
  | case1 lx => exact ⟨.done _, .refl _⟩
  | case2 lx => exact ⟨.done _, .refl _⟩
  | case3 lx _ hrest => exact ⟨.last hrest, .bump lx fun _ _ => trivial⟩
  | case4 lx cs hne hrest _ ih =>
    obtain ⟨c, hc⟩ : ∃ c, lx.bump.cur.peek = some c := by
      have hcs := (takes_bump hrest).rest
      rw [hrest] at hcs
      have hcs' : cs = lx.bump.cur.rest := (List.cons.inj hcs).2
      cases hcs'' : cs with
      | nil => exact absurd hcs'' hne
      | cons d ds => exact ⟨d, peek_of_rest (hcs'.symm.trans hcs'')⟩
    have hread := consumeEscapeBody_reads hc lx.cur.pos
    have hany := (Lexer.Reads.bump lx fun _ _ => trivial).trans
      (consumeEscapeBody_any lx.bump lx.cur.pos)
    exact ⟨.escape (peek_of_rest hrest) ((peek_bump lx.cur).symm.trans hc) hread.ate ih.1,
      hany.trans ih.2⟩
  | case5 lx c cs hrest hend hback ih =>
    refine ⟨.char (peek_of_rest hrest) ?_ ih.1, (Lexer.Reads.bump lx fun _ _ => trivial).trans ih.2⟩
    simp only [List.mem_cons, List.not_mem_nil, or_false]
    tauto

/-- Literal text that starts with a character of its own takes at least that. -/
theorem StrText.lt {a b : Cursor} (h : StrText a b) {c : Char} (hc : a.peek = some c)
    (hstart : a ≠ b) : b.rest.length < a.rest.length ∧ a.pos < b.pos := by
  have hlen : ∀ {a b : Cursor}, StrText a b → a.Ate (fun _ => True) b := by
    intro a b h
    induction h with
    | done a => exact .refl a
    | char _ _ _ ih => exact (bump_any _).trans ih
    | escape _ _ hesc _ ih => exact ((bump_any _).trans (bump_any _)).trans (hesc.any.trans ih)
    | last => exact bump_any _
  have hrest : a.bump.Ate (fun _ => True) b := by
    cases h with
    | done => exact absurd rfl hstart
    | char _ _ h => exact hlen h
    | escape _ _ hesc h => exact (bump_any _).trans (hesc.any.trans (hlen h))
    | last => exact .refl _
  refine ⟨hrest.lt hc, ?_⟩
  obtain ⟨taken, htaken, _⟩ := hrest
  have hone := (takes_bump (rest_of_peek hc)).pos
  have hpos := Char.utf8Size_pos c
  rw [htaken.pos, hone]
  simp only [byteLen_cons, byteLen_nil]
  omega

theorem strTextLoop_ne {lx : Lexer} {c : Char} (hc : lx.cur.peek = some c) (hquote : c ≠ '"')
    (hdollar : c ≠ '$') : lx.cur ≠ lx.strTextLoop.cur := by
  have hrest := rest_of_peek hc
  have hread : lx.cur.bump.Ate (fun _ => True) lx.strTextLoop.cur := by
    rw [Lexer.strTextLoop]
    split
    · rename_i hnil
      exact absurd hnil (ne_nil_of_peek hc)
    · rename_i d ds hd
      obtain rfl : d = c := Option.some.inj ((peek_of_rest hd).symm.trans hc)
      rw [if_neg (by tauto)]
      split
      · split
        · exact .refl _
        · exact (consumeEscapeBody_any lx.bump lx.cur.pos).ate.trans (strTextLoop_spec _).2.ate
      · exact (strTextLoop_spec lx.bump).2.ate
  intro heq
  have hlt := hread.lt hc
  rw [← heq] at hlt
  exact Nat.lt_irrefl _ hlt

theorem lexOneString_spec {x : Xid} (hx : x.Documented) (lx : Lexer) :
    lx.StringTurn (lx.lexOneString x) := by
  unfold Lexer.lexOneString
  cases hc : lx.cur.peek with
  | none =>
    refine .eof ?_ rfl rfl ⟨.strEnd, rfl⟩
    unfold Cursor.peek at hc
    exact List.head?_eq_none_iff.mp hc
  | some c =>
    dsimp only
    split
    · rename_i h
      subst h
      exact .close ⟨hc, rfl, rfl, .strEnd, rfl⟩
    · rename_i hquote
      split
      · rename_i h
        subst h
        unfold Lexer.scanDollar
        dsimp only
        have hnext : lx.bump.cur.peek = lx.cur.peekAt 1 := peek_bump lx.cur
        split
        · rename_i hopen
          exact .interp hc (hnext.symm.trans hopen) rfl rfl ⟨.dollarLBrace, rfl⟩
        · rename_i hopen
          rw [hnext] at hopen
          split
          · have hword := ate_identContinue hx lx.bump.cur
            exact .dollar hc hopen hword
              (emits_of _ ((bump_any _).trans hword.any) (hword.lt hc) rfl rfl)
          · exact .dollar hc hopen (.refl _) (emits_of _ (bump_any _)
              ((Cursor.Ate.refl (p := Word) lx.cur.bump).lt hc) rfl rfl)
      · rename_i hdollar
        obtain ⟨htext, hread⟩ := strTextLoop_spec lx
        obtain ⟨hlt, hpos⟩ := htext.lt hc (strTextLoop_ne hc hquote hdollar)
        unfold Lexer.scanStrText
        dsimp only
        rw [if_pos hpos]
        exact .text htext (emits_of _ hread.ate hlt hread.modes hread.out)

/-! ## Pieces side by side -/

/-- From one place to another the text is whitespace that nothing covers, and tokens and
comments, each of which spans just what it takes. -/
inductive Laid : Cursor → List Item → Cursor → List Item → Prop
  | done (a : Cursor) (out : List Item) : Laid a out a out
  | space {a b : Cursor} {out out' : List Item} {c : Char} : a.peek = some c →
      isSpace c = true → Laid a.bump out b out' → Laid a out b out'
  | item {a m b : Cursor} {out out' : List Item} {i : Item} : a.Ate (fun _ => True) m →
      i.span = .new a.pos m.pos → Laid m (out ++ [i]) b out' → Laid a out b out'

theorem Laid.trans {a b c : Cursor} {x y z : List Item} (h : Laid a x b y) (h' : Laid b y c z) :
    Laid a x c z := by
  induction h with
  | done => exact h'
  | space hc hs _ ih => exact .space hc hs (ih h')
  | item ha hi _ ih => exact .item ha hi (ih h')

theorem Laid.le {a b : Cursor} {x y : List Item} (h : Laid a x b y) :
    b.rest.length ≤ a.rest.length := by
  induction h with
  | done => exact Nat.le_refl _
  | space _ _ _ ih => exact Nat.le_trans ih (Cursor.bump_le _)
  | item ha _ _ ih => exact Nat.le_trans ih ha.le

/-- A token that spans what it takes. -/
theorem laid_token {a b : Cursor} {out out' : List Item} (ha : a.Ate (fun _ => True) b)
    (hout : ∃ kind, out' = out ++ [.token { kind, span := .new a.pos b.pos }]) :
    Laid a out b out' := by
  obtain ⟨kind, rfl⟩ := hout
  exact .item ha rfl (.done b _)

namespace Lexer

variable {lx t : Lexer}

theorem Skipped.laid (h : lx.Skipped t) : Laid lx.cur lx.out t.cur t.out ∧ t.modes = lx.modes := by
  have hblock : ∀ {lx : Lexer} {r : Cursor × Bool},
      blockEnd 1 lx.cur.bump.bump.pos lx.cur.bump.bump.rest = r →
      lx.cur.Ate (fun _ => True) r.1 := by
    rintro lx _ rfl
    have hend := ate_blockEnd 1 lx.cur.bump.bump.pos lx.cur.bump.bump.rest
    exact ((bump_any _).trans (bump_any _)).trans hend
  induction h with
  | done => exact ⟨.done _ _, rfl⟩
  | space hrest hspace _ ih => exact ⟨.space (peek_of_rest hrest) hspace ih.1, ih.2⟩
  | line _ _ _ _ ih =>
    have hend : ∀ a : Cursor, a.Ate (fun _ => True) (a.eatWhile (· != '\n')) :=
      fun a => (ate_eatWhile _ a).any
    exact ⟨.item (((bump_any _).trans (bump_any _)).trans (hend _)) rfl ih.1, ih.2⟩
  | block _ _ hr _ _ ih => exact ⟨.item (hblock hr) rfl ih.1, ih.2⟩
  | unclosed lo hi _ _ hr _ => exact ⟨.item (hblock hr) rfl (.done _ _), rfl⟩

theorem Emits.laid {p : Char → Prop} (h : Lexer.Emits p lx.cur lx t) :
    Laid lx.cur lx.out t.cur t.out := laid_token h.ate.any h.out

theorem Single.laid {c : Char} {modes : List Mode} (h : Lexer.Single c modes lx t) :
    Laid lx.cur lx.out t.cur t.out := by
  apply laid_token
  · rw [h.cur]
    exact bump_any _
  · exact h.out

theorem Single.lt {c : Char} {modes : List Mode} (h : Lexer.Single c modes lx t) :
    t.cur.rest.length < lx.cur.rest.length := by
  rw [h.cur]
  exact (Cursor.Ate.refl (p := fun _ => True) lx.cur.bump).lt h.peek

/-- The stack of modes stands on the normal mode. -/
def Based (modes : List Mode) : Prop := modes.getLast? = some .normal

theorem Based.ne_nil {modes : List Mode} (h : Based modes) : modes ≠ [] := by
  rintro rfl
  cases h

theorem Based.tail {m : Mode} {modes : List Mode} (h : Based (m :: modes)) (hm : m ≠ .normal) :
    Based modes := by
  unfold Based at h ⊢
  cases modes with
  | nil => exact absurd (Option.some.inj h) hm
  | cons => rwa [List.getLast?_cons_cons] at h

theorem Based.cons {modes : List Mode} (h : Based modes) (m : Mode) : Based (m :: modes) := by
  unfold Based at h ⊢
  cases modes with
  | nil => cases h
  | cons => rwa [List.getLast?_cons_cons]

theorem Based.open {modes : List Mode} (h : Based modes) :
    Based (openModes modes) ∧ (openModes modes).length = modes.length := by
  unfold openModes
  split
  · exact ⟨(h.tail (by simp)).cons _, rfl⟩
  · exact ⟨h, rfl⟩

theorem Based.close {modes : List Mode} (h : Based modes) :
    Based (closeModes modes) ∧ (closeModes modes).length ≤ modes.length := by
  unfold closeModes
  split
  · split
    · exact ⟨h.tail (by simp), Nat.le_succ _⟩
    · exact ⟨(h.tail (by simp)).cons _, Nat.le_refl _⟩
  · exact ⟨h, Nat.le_refl _⟩

/-- What a turn of the loop keeps: the pieces lie side by side, the modes stand on the normal
mode, and a character or a mode is gone for good. -/
structure Turned (lx t : Lexer) : Prop where
  laid : Laid lx.cur lx.out t.cur t.out
  based : Based lx.modes → Based t.modes
  less : Based lx.modes →
    2 * t.cur.rest.length + t.modes.length < 2 * lx.cur.rest.length + lx.modes.length

theorem Emits.turned {p : Char → Prop} (h : Lexer.Emits p lx.cur lx t) : Turned lx t := by
  refine ⟨h.laid, fun hb => h.modes ▸ hb, fun _ => ?_⟩
  have hlt := h.lt
  rw [h.modes]
  omega

theorem Single.turned {c : Char} {modes : List Mode} (h : Lexer.Single c modes lx t)
    (hb : Based lx.modes → Based modes ∧ modes.length ≤ lx.modes.length + 1) : Turned lx t := by
  refine ⟨h.laid, fun hbase => ?_, fun hbase => ?_⟩
  · rw [h.modes]
    exact (hb hbase).1
  · have hlt := h.lt
    have hle := (hb hbase).2
    rw [h.modes]
    omega

theorem TokenTurn.turned (h : lx.TokenTurn t) : Turned lx t := by
  cases h with
  | plain h => exact h.turned
  | slash _ _ h => exact h.turned fun hb => ⟨hb, Nat.le_succ _⟩
  | doc _ _ _ _ h => exact h.turned
  | openBrace h => exact h.turned fun hb => ⟨hb.open.1, by rw [hb.open.2]; exact Nat.le_succ _⟩
  | closeBrace h => exact h.turned fun hb => ⟨hb.close.1, Nat.le_succ_of_le hb.close.2⟩
  | quote h => exact h.turned fun hb => ⟨hb.cons _, Nat.le_refl _⟩
  | charLiteral _ _ h => exact h.turned

theorem StringTurn.turned {modes : List Mode} (h : lx.StringTurn t)
    (hm : lx.modes = .string :: modes) : Turned lx t := by
  have htail : Based lx.modes → Based lx.modes.tail ∧
      lx.modes.tail.length + 1 = lx.modes.length := by
    rw [hm]
    exact fun hb => ⟨hb.tail (by simp), rfl⟩
  cases h with
  | eof hnil hcur hmodes hout =>
    refine ⟨laid_token (by rw [hcur]; exact .refl _) hout, fun hb => ?_, fun hb => ?_⟩
    · rw [hmodes]
      exact (htail hb).1
    · have hlen := (htail hb).2
      rw [hcur, hmodes]
      omega
  | close h => exact h.turned fun hb => ⟨(htail hb).1, by have := (htail hb).2; omega⟩
  | interp hc hopen hcur hmodes hout =>
    have htwo : lx.cur.Ate (fun _ => True) t.cur := by
      rw [hcur]
      exact (bump_any _).trans (bump_any _)
    refine ⟨laid_token htwo hout, fun hb => ?_, fun _ => ?_⟩
    · rw [hmodes]
      exact hb.cons _
    · have h1 := (Cursor.Ate.refl (p := fun _ => True) lx.cur.bump).lt hc
      have h2 := Cursor.bump_le lx.cur.bump
      rw [hmodes, hcur, List.length_cons]
      omega
  | dollar _ _ _ h => exact h.turned
  | text _ h => exact h.turned

/-- One turn of normal mode: what is skipped, and then a token or the end of the text. -/
theorem lexOneNormal_spec {x : Xid} (hx : x.Documented) (lx : Lexer) :
    ∃ mid, lx.Skipped mid ∧ mid.AtToken ∧
      ((mid.cur.rest = [] ∧ lx.lexOneNormal x = mid) ∨ mid.TokenTurn (lx.lexOneNormal x)) := by
  obtain ⟨hskip, hat⟩ := skip_spec lx
  refine ⟨_, hskip, hat, ?_⟩
  unfold lexOneNormal
  dsimp only
  cases hc : lx.skipWhitespaceAndOrdinaryComments.cur.peek with
  | none => exact .inl ⟨List.head?_eq_none_iff.mp hc, rfl⟩
  | some c => exact .inr (lexToken_spec hx hc hat)

theorem lexOneNormal_turned {x : Xid} (hx : x.Documented) {lx : Lexer}
    (hne : lx.cur.rest ≠ []) : Turned lx (lx.lexOneNormal x) := by
  obtain ⟨mid, hskip, _, hend⟩ := lexOneNormal_spec hx lx
  obtain ⟨hlaid, hmodes⟩ := hskip.laid
  have hle := hlaid.le
  rcases hend with ⟨hnil, hmid⟩ | hturn
  · rw [hmid]
    refine ⟨hlaid, fun hb => hmodes ▸ hb, fun _ => ?_⟩
    have hpos := List.length_pos_iff.mpr hne
    rw [hmodes, hnil, List.length_nil]
    omega
  · have ht := hturn.turned
    refine ⟨hlaid.trans ht.laid, fun hb => ht.based (hmodes ▸ hb), fun hb => ?_⟩
    have hless := ht.less (hmodes ▸ hb)
    rw [hmodes] at hless
    omega

/-- The loop goes on to the end of the text. -/
theorem lexLoop_spec {x : Xid} (hx : x.Documented) (fuel : Nat) (lx : Lexer)
    (hb : Based lx.modes) (hfuel : 2 * lx.cur.rest.length + lx.modes.length ≤ fuel) :
    Laid lx.cur lx.out (lx.lexLoop x fuel).cur (lx.lexLoop x fuel).out ∧
      (lx.lexLoop x fuel).cur.rest = [] := by
  induction fuel generalizing lx with
  | zero =>
    have hpos := List.length_pos_iff.mpr hb.ne_nil
    omega
  | succ fuel ih =>
    have hnext : ∀ t, Turned lx t → Laid lx.cur lx.out (t.lexLoop x fuel).cur
        (t.lexLoop x fuel).out ∧ (t.lexLoop x fuel).cur.rest = [] := by
      intro t ht
      have hless := ht.less hb
      obtain ⟨hlaid, hnil⟩ := ih t (ht.based hb) (by omega)
      exact ⟨ht.laid.trans hlaid, hnil⟩
    unfold lexLoop
    split
    · rename_i hend
      exact ⟨.done _ _, hend.1⟩
    · split
      · rename_i hm
        exact absurd hm hb.ne_nil
      · split
        · rename_i hnil
          exact ⟨.done _ _, hnil⟩
        · rename_i hne
          exact hnext _ (lexOneNormal_turned hx hne)
      · rename_i depth modes hm
        split
        · refine hnext _ ⟨.done _ _, fun hb => ?_, fun hb => ?_⟩
          · unfold pop error
            rw [hm] at hb ⊢
            exact hb.tail (by simp)
          · unfold pop error
            rw [hm]
            simp
        · rename_i hne
          exact hnext _ (lexOneNormal_turned hx hne)
      · rename_i modes hm
        exact hnext _ ((lexOneString_spec hx lx).turned hm)

end Lexer

end compiler.lexer
