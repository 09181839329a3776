-- The folding scanner against the lexer, on texts whose string literals are plain. The scanner
-- follows the lexer outside of string literals, and passes a literal when the lexer closes it; all
-- that the lexer finds in between is on one line and has no fold.
import OtterFusion.Lsp.FoldingScans

open compiler.lexer

namespace lsp

/-! ## What the lexer has found so far -/

def tokensOf (out : List Item) : List Token := out.filterMap Item.token?

/-- The braces that are open. -/
def opens (out : List Item) : List (Option Span) := (matching (tokensOf out)).opened

/-- The strings that are open. -/
def strs (out : List Item) : List Span := (literalsOf (tokensOf out)).opened

/-- The pairs of braces. -/
def pairs (out : List Item) : List Delimited :=
  (matching (tokensOf out)).pairs.map fun p => ⟨.region, p.1.lo, p.2.hi⟩

/-- The block comments. -/
def blocks (out : List Item) : List Delimited :=
  ((out.filterMap Item.comment?).filter fun c => c.kind = .block).map fun c =>
    ⟨.comment, c.span.lo, c.span.hi⟩

theorem tokensOf_token (out : List Item) (t : Token) :
    tokensOf (out ++ [.token t]) = tokensOf out ++ [t] := List.filterMap_append

theorem matching_token (out : List Item) (t : Token) :
    matching (tokensOf (out ++ [.token t])) = (matching (tokensOf out)).take t := by
  rw [tokensOf_token]
  exact List.foldl_append

theorem literalsOf_token (out : List Item) (t : Token) :
    literalsOf (tokensOf (out ++ [.token t])) = (literalsOf (tokensOf out)).take t := by
  rw [tokensOf_token]
  exact List.foldl_append

/-- What a piece adds: the braces and the strings that are open now, and what has been closed by it.
-/
structure Adds (out out' : List Item) (opened : List (Option Span)) (strings : List Span)
    (ds : List Delimited) : Prop where
  opens : opens out' = opened
  strs : strs out' = strings
  seen : (pairs out' ++ blocks out').Perm ((pairs out ++ blocks out) ++ ds)

section Adds

variable (out : List Item) (span : Span)

theorem adds_token {t : Token} {opened : List (Option Span)} {strings : List Span}
    {ds : List Delimited}
    (hopened : ((matching (tokensOf out)).take t).opened = opened)
    (hstrings : ((literalsOf (tokensOf out)).take t).opened = strings)
    (hpairs : (((matching (tokensOf out)).take t).pairs.map fun p =>
      (⟨.region, p.1.lo, p.2.hi⟩ : Delimited)) = pairs out ++ ds) :
    Adds out (out ++ [.token t]) opened strings ds := by
  have hblocks : blocks (out ++ [.token t]) = blocks out := by
    unfold blocks
    rw [List.filterMap_append]
    exact congrArg (fun cs => (List.filter _ cs).map _) (List.append_nil _)
  refine ⟨?_, ?_, ?_⟩
  · unfold opens
    rw [matching_token, hopened]
  · unfold strs
    rw [literalsOf_token, hstrings]
  · have hnow : pairs (out ++ [.token t]) = pairs out ++ ds := by
      rw [← hpairs, ← matching_token]
      rfl
    rw [hnow, hblocks, List.append_assoc, List.append_assoc]
    exact List.Perm.append_left _ List.perm_append_comm

theorem adds_neutral {kind : TokenKind} (h : kind.Neutral) :
    Adds out (out ++ [.token { kind, span }]) (opens out) (strs out) [] := by
  have hmatching : (matching (tokensOf out)).take { kind, span } = matching (tokensOf out) := by
    unfold Matching.take
    cases kind <;> first | rfl | exact absurd h (by decide)
  have hliterals : (literalsOf (tokensOf out)).take { kind, span } = literalsOf (tokensOf out) := by
    unfold Literals.take
    cases kind <;> first | rfl | exact absurd h (by decide)
  apply adds_token
  · rw [hmatching]
    rfl
  · rw [hliterals]
    rfl
  · rw [hmatching, List.append_nil]
    rfl

theorem adds_open : Adds out (out ++ [.token { kind := .lBrace, span }]) (some span :: opens out)
    (strs out) [] :=
  adds_token out rfl rfl (List.append_nil _).symm

theorem adds_interp : Adds out (out ++ [.token { kind := .dollarLBrace, span }]) (none :: opens out)
    (strs out) [] :=
  adds_token out rfl rfl (List.append_nil _).symm

theorem adds_quote : Adds out (out ++ [.token { kind := .strStart, span }]) (opens out)
    (span :: strs out) [] :=
  adds_token out rfl rfl (List.append_nil _).symm

theorem adds_strEnd : Adds out (out ++ [.token { kind := .strEnd, span }]) (opens out)
    (strs out).tail [] := by
  refine adds_token out rfl ?_ (List.append_nil _).symm
  unfold Literals.take strs
  dsimp only
  split
  · rename_i h
    rw [h]
    rfl
  · rfl

theorem adds_unmatched (h : opens out = []) :
    Adds out (out ++ [.token { kind := .rBrace, span }]) []
    (strs out) [] := by
  have htake : (matching (tokensOf out)).take { kind := .rBrace, span } =
      matching (tokensOf out) := by
    unfold opens at h
    simp only [Matching.take, h]
  apply adds_token
  · rw [htake]
    exact h
  · rfl
  · rw [htake, List.append_nil]
    rfl

theorem adds_close_interp {opened : List (Option Span)} (h : opens out = none :: opened) :
    Adds out (out ++ [.token { kind := .rBrace, span }]) opened (strs out) [] := by
  have htake : (matching (tokensOf out)).take { kind := .rBrace, span } =
      { opened, pairs := (matching (tokensOf out)).pairs } := by
    unfold opens at h
    simp only [Matching.take, h]
  apply adds_token
  · rw [htake]
  · rfl
  · rw [htake, List.append_nil]
    rfl

theorem adds_close {start : Span} {opened : List (Option Span)}
    (h : opens out = some start :: opened) :
    Adds out (out ++ [.token { kind := .rBrace, span }]) opened (strs out)
      [⟨.region, start.lo, span.hi⟩] := by
  have htake : (matching (tokensOf out)).take { kind := .rBrace, span } =
      { opened, pairs := (matching (tokensOf out)).pairs ++ [(start, span)] } := by
    unfold opens at h
    simp only [Matching.take, h]
  apply adds_token
  · rw [htake]
  · rfl
  · rw [htake]
    exact List.map_append

theorem adds_comment (kind : CommentKind) :
    Adds out (out ++ [.comment { kind, span }]) (opens out) (strs out)
      (if kind = .block then [⟨.comment, span.lo, span.hi⟩] else []) := by
  have htokens : tokensOf (out ++ [.comment { kind, span }]) = tokensOf out :=
    List.filterMap_append.trans (List.append_nil _)
  have hpairs : pairs (out ++ [.comment { kind, span }]) = pairs out := by
    unfold pairs
    rw [htokens]
  refine ⟨?_, ?_, ?_⟩
  · unfold opens
    rw [htokens]
  · unfold strs
    rw [htokens]
  · rw [hpairs, List.append_assoc]
    refine List.Perm.append_left _ (.of_eq ?_)
    unfold blocks
    rw [List.filterMap_append, List.filter_append, List.map_append]
    cases kind <;> rfl

end Adds

/-! ## Modes, braces and strings -/

/-- The modes of the lexer, with the braces and the strings that are open. Below are those outside
of string literals; the outermost literal begins at `lo`, on a line, and the braces in it are no
higher. -/
inductive Nests (src : List Char) (lo line : Nat) (base : List Span) :
    List Mode → List (Option Span) → List Span → Prop
  | normal : Nests src lo line base [.normal] (base.map some) []
  | string {modes : List Mode} {opened : List (Option Span)} {strings : List Span} {start : Span} :
      Nests src lo line base modes opened strings → (strings = [] → start.lo = lo) →
      Nests src lo line base (.string :: modes) opened (start :: strings)
  | interp {modes : List Mode} {opened : List (Option Span)} {strings : List Span}
      (inner : List Span) : Nests src lo line base modes opened strings → strings ≠ [] →
      (∀ p ∈ inner, line ≤ lineAt src p.lo) →
      Nests src lo line base (.interp inner.length :: modes)
        (inner.map some ++ none :: opened) strings

namespace Nests

variable {src : List Char} {lo line : Nat} {base : List Span} {modes : List Mode}
  {opened : List (Option Span)} {strings : List Span}

theorem outside (h : Nests src lo line base modes opened []) :
    modes = [.normal] ∧ opened = base.map some := by
  generalize hstrings : ([] : List Span) = strings at h
  cases h with
  | normal => exact ⟨rfl, rfl⟩
  | string => cases hstrings
  | interp _ _ hne => exact absurd hstrings.symm hne

theorem of_normal {below : List Mode}
    (h : Nests src lo line base (.normal :: below) opened strings) :
    strings = [] := by
  cases h
  rfl

theorem of_string {below : List Mode}
    (h : Nests src lo line base (.string :: below) opened strings) :
    ∃ start rest, strings = start :: rest ∧ Nests src lo line base below opened rest ∧
      (rest = [] → start.lo = lo) := by
  cases h with
  | string h hstart => exact ⟨_, _, rfl, h, hstart⟩

/-- An opening brace in an interpolation. -/
theorem open_brace (h : Nests src lo line base modes opened strings) (hmodes : Outermost modes)
    (hne : strings ≠ []) (hdepth : opened.length + 1 < posSpace) (span : Span)
    (hspan : line ≤ lineAt src span.lo) :
    Nests src lo line base (openModes modes) (some span :: opened) strings := by
  cases h with
  | normal => exact absurd rfl hne
  | string => exact absurd rfl (hmodes _)
  | interp inner hnests hstrings hinner =>
    rw [List.length_append, List.length_map] at hdepth
    have hwrap : (inner.length + 1) % posSpace = (span :: inner).length :=
      Nat.mod_eq_of_lt (by omega)
    unfold openModes
    dsimp only
    rw [hwrap]
    refine .interp (span :: inner) hnests hstrings fun p hp => ?_
    rcases List.mem_cons.mp hp with rfl | hp
    · exact hspan
    · exact hinner p hp

/-- A closing brace in an interpolation: it closes a brace of the interpolation, or the
interpolation. -/
theorem close_brace (h : Nests src lo line base modes opened strings) (hmodes : Outermost modes)
    (hne : strings ≠ []) : ∃ start rest, opened = start :: rest ∧
      Nests src lo line base (closeModes modes) rest strings ∧
      ∀ p, start = some p → line ≤ lineAt src p.lo := by
  cases h with
  | normal => exact absurd rfl hne
  | string => exact absurd rfl (hmodes _)
  | @interp below opened _ inner hnests hstrings hinner =>
    cases inner with
    | nil => exact ⟨none, opened, rfl, hnests, fun p hp => by cases hp⟩
    | cons p inner =>
      refine ⟨some p, inner.map some ++ none :: opened, rfl, ?_, fun q hq => ?_⟩
      · exact .interp inner hnests hstrings fun q hq => hinner q (List.mem_cons_of_mem _ hq)
      · obtain rfl := Option.some.inj hq
        exact hinner p List.mem_cons_self

end Nests

/-! ## The scanner follows the lexer -/

/-- A place in a text. -/
def Placed (src : List Char) (a : Cursor) : Prop := ∃ before, src = before ++ a.rest ∧
    a.pos = byteLen before

theorem Placed.ate {src : List Char} {a b : Cursor} {p : Char → Prop} (h : Placed src a)
    (hb : a.Ate p b) :
    Placed src b ∧ lineAt src a.pos ≤ lineAt src b.pos ∧ a.pos ≤ b.pos := by
  obtain ⟨before, hsrc, hpos⟩ := h
  obtain ⟨taken, ⟨hrest, hend⟩, -⟩ := hb
  have hall : src = (before ++ taken) ++ b.rest := by rw [hsrc, hrest, List.append_assoc]
  have hlast : b.pos = byteLen (before ++ taken) := by rw [hend, hpos, byteLen_append]
  refine ⟨⟨before ++ taken, hall, hlast⟩, ?_, ?_⟩
  · have hfirst : textBefore src a.pos = before := by rw [hsrc, hpos, textBefore_append]
    have hthen : textBefore src b.pos = before ++ taken := by
      rw [hlast, hall, textBefore_append]
    unfold lineAt
    rw [hfirst, hthen, feeds_append]
    omega
  · omega

theorem Placed.line {src : List Char} {a b : Cursor} (h : Placed src a) (hb : a.Ate (· ≠ '\n') b) :
    lineAt src b.pos = lineAt src a.pos := by
  obtain ⟨before, hsrc, hpos⟩ := h
  obtain ⟨taken, ⟨hrest, hend⟩, hall⟩ := hb
  have hfirst : textBefore src a.pos = before := by rw [hsrc, hpos, textBefore_append]
  have hthen : textBefore src b.pos = before ++ taken := by
    rw [hsrc, hrest, hend, hpos, ← byteLen_append, ← List.append_assoc, textBefore_append]
  unfold lineAt
  rw [hfirst, hthen, feeds_append, feeds_eq_zero.mpr fun hmem => hall _ hmem rfl, Nat.add_zero]

theorem Placed.unique {src : List Char} {a b : Cursor} (h : Placed src a) (h' : Placed src b)
    (hpos : a.pos = b.pos) : a = b := by
  obtain ⟨before, hsrc, ha⟩ := h
  obtain ⟨before', hsrc', hb⟩ := h'
  have hrest := (start_unique (hsrc.symm.trans hsrc') (by omega)).2
  cases a
  cases b
  dsimp only at hpos hrest
  rw [hpos, hrest]

theorem Placed.le {src : List Char} {a : Cursor} (h : Placed src a) :
    a.pos + byteLen a.rest = byteLen src := by
  obtain ⟨before, hsrc, hpos⟩ := h
  rw [hsrc, byteLen_append, hpos]

theorem Folding.Stands.placed {src : List Char} {s : Folding} (h : s.Stands src) :
    Placed src s.cur := by
  obtain ⟨before, hsrc, hpos, -⟩ := h
  exact ⟨before, hsrc, hpos⟩

/-- The scanner stands where the lexer does, or before the outermost string literal that the lexer
is in. It has the braces outside of literals, and the ranges of what has been closed, but for what
has been closed in that literal. -/
structure Follows (src : List Char) (a : Cursor) (modes : List Mode) (out : List Item) (s : Folding)
    (base : List Span) : Prop where
  stands : s.Stands src
  comments : s.blockComments = []
  ate : s.cur.Ate (fun _ => True) a
  nests : Nests src s.cur.pos (lineAt src s.cur.pos) base modes (opens out) (strs out)
  depth : (opens out).length ≤ a.pos
  outside : strs out = [] → s.cur = a
  braces : s.braces = base.map fun p => openAt src p.lo
  ranges : ∃ ds inside, (pairs out ++ blocks out).Perm (ds ++ inside) ∧
    s.ranges.Perm (foldsOf src ds) ∧
    ∀ d ∈ inside, lineAt src s.cur.pos ≤ lineAt src d.lo ∧ lineAt src d.hi ≤ lineAt src a.pos

theorem foldsOf_perm {src : List Char} {ds es : List Delimited} (h : ds.Perm es) :
    (foldsOf src ds).Perm (foldsOf src es) := (h.filter _).map _

/-- The scanner catches up with the lexer. -/
def Catches (src : List Char) (s : Folding) (m : Cursor) (modes : List Mode)
    (out : List Item) : Prop :=
  ∃ s' base, s.Scans s' ∧ Follows src m modes out s' base

theorem literals_grow {out out' : List Item} (h : out <+: out') {l : Nat × Nat}
    (hl : l ∈ (literalsOf (tokensOf out)).literals) :
    l ∈ (literalsOf (tokensOf out')).literals := by
  obtain ⟨more, rfl⟩ := h
  unfold literalsOf tokensOf at hl ⊢
  rw [List.filterMap_append, List.foldl_append]
  generalize List.foldl Literals.take _ (out.filterMap Item.token?) = found at hl ⊢
  induction more.filterMap Item.token? generalizing found with
  | nil => exact hl
  | cons t ts ih =>
    apply ih
    unfold Literals.take
    split
    · exact hl
    · split
      · exact List.mem_append_left _ hl
      · exact hl
    · exact hl

theorem Catches.next {src : List Char} {s : Folding} {m b : Cursor} {modes modes' : List Mode}
    {out out' : List Item}
    (hgoes : ∀ {s base}, Follows src m modes out s base → Catches src s b modes' out')
    (h : Catches src s m modes out) : Catches src s b modes' out' := by
  obtain ⟨s', base, hscans, hfollows⟩ := h
  obtain ⟨s'', base', hscans', hend⟩ := hgoes hfollows
  exact ⟨s'', base', hscans.trans hscans', hend⟩

namespace Follows

variable {src : List Char} {a m : Cursor} {modes modes' : List Mode} {out out' : List Item}
  {s : Folding}
  {base : List Span}

/-- What has been closed in a literal on one line has no fold. -/
theorem folds (h : Follows src a modes out s base)
    (hline : lineAt src a.pos = lineAt src s.cur.pos) :
    s.ranges.Perm (foldsOf src (pairs out ++ blocks out)) := by
  obtain ⟨ds, inside, hseen, hranges, hinside⟩ := h.ranges
  have hflat : foldsOf src inside = [] := foldsOf_flat fun d hd => by
    have hd := hinside d hd
    omega
  refine hranges.trans (.trans (.of_eq ?_) (foldsOf_perm hseen.symm))
  rw [foldsOf_append, hflat, List.append_nil]

/-- The scanner goes on outside of literals. -/
theorem arrive (h : Follows src a modes out s base)
    (hline : lineAt src a.pos = lineAt src s.cur.pos)
    (base' : List Span) {new : List Delimited} (hadds : Adds out out' (base'.map some) [] new)
    (harrives : s.Arrives src m (base'.map fun p => openAt src p.lo) (s.ranges ++ foldsOf src new))
    (hdepth : base'.length ≤ m.pos) : Catches src s m [.normal] out' := by
  obtain ⟨t, hscans, rfl, hstands, hcomments, hbraces, hranges⟩ := harrives
  refine ⟨t, base', hscans, hstands, hcomments, .refl _, ?_, ?_, fun _ => rfl, hbraces, ?_⟩
  · rw [hadds.opens, hadds.strs]
    exact .normal
  · rw [hadds.opens, List.length_map]
    exact hdepth
  · refine ⟨pairs out' ++ blocks out', [], by rw [List.append_nil], ?_, fun d hd => by cases hd⟩
    rw [hranges]
    refine .trans ?_ (foldsOf_perm hadds.seen.symm)
    rw [foldsOf_append src (pairs out ++ blocks out)]
    exact (h.folds hline).append_right _

/-- The scanner waits before a literal. -/
theorem stay (h : Follows src a modes out s base) {p : Char → Prop} (hm : a.Ate p m)
    {opened : List (Option Span)} {strings : List Span} {new : List Delimited}
    (hadds : Adds out out' opened strings new) (hne : strings ≠ [])
    (hnests : Nests src s.cur.pos (lineAt src s.cur.pos) base modes' opened strings)
    (hdepth : opened.length ≤ m.pos)
    (hnew : ∀ d ∈ new, lineAt src s.cur.pos ≤ lineAt src d.lo ∧
      lineAt src d.hi ≤ lineAt src m.pos) :
    Catches src s m modes' out' := by
  obtain ⟨ds, inside, hseen, hranges, hinside⟩ := h.ranges
  have hlines := ((h.stands.placed.ate h.ate).1.ate hm).2.1
  refine ⟨s, base, .refl, h.stands, h.comments, h.ate.trans hm.any, ?_, ?_,
    fun hnil => ?_, h.braces,
    ds, inside ++ new, ?_, hranges, fun d hd => ?_⟩
  · rw [hadds.opens, hadds.strs]
    exact hnests
  · rw [hadds.opens]
    exact hdepth
  · rw [hadds.strs] at hnil
    exact absurd hnil hne
  · rw [← List.append_assoc]
    exact hadds.seen.trans (hseen.append_right _)
  · rcases List.mem_append.mp hd with hd | hd
    · have hd := hinside d hd
      omega
    · exact hnew d hd

theorem placed (h : Follows src a modes out s base) : Placed src a := (h.stands.placed.ate h.ate).1

theorem line_outside (h : Follows src a modes out s base) (hout : strs out = []) :
    lineAt src a.pos = lineAt src s.cur.pos := by
  rw [h.outside hout]

/-- A piece that means nothing to the braces. -/
theorem quiet (h : Follows src a modes out s base) {p : Char → Prop} (hm : a.Ate p m)
    (hadds : Adds out out' (opens out) (strs out) [])
    (harrives : strs out = [] → s.Arrives src m s.braces s.ranges) :
    Catches src s m modes out' := by
  have hpos := (h.placed.ate hm).2.2
  have hdepth := h.depth
  by_cases hout : strs out = []
  · have hnests := h.nests
    rw [hout] at hnests
    obtain ⟨rfl, hopens⟩ := hnests.outside
    have harrives := harrives hout
    rw [h.braces, ← List.append_nil s.ranges] at harrives
    rw [hopens, hout] at hadds
    rw [hopens, List.length_map] at hdepth
    exact h.arrive (h.line_outside hout) base hadds harrives (by omega)
  · exact h.stay hm hadds hout h.nests (by omega) fun d hd => by cases hd

/-- A block comment. -/
theorem block (h : Follows src a modes out s base) (hlen : byteLen src < posSpace)
    (hc : a.peek = some '/') (h1 : a.peekAt 1 = some '*')
    (hend : blockEnd 1 a.bump.bump.pos a.bump.bump.rest = (m, true)) :
    Catches src s m modes (out ++ [.comment { kind := .block, span := .new a.pos m.pos }]) := by
  have hm : a.Ate (fun _ => True) m := by
    have hate := ate_blockEnd 1 a.bump.bump.pos a.bump.bump.rest
    rw [hend] at hate
    exact ((bump_any _).trans (bump_any _)).trans hate
  obtain ⟨hplaced, -, hpos⟩ := h.placed.ate hm
  have hle := hplaced.le
  have hspan : Span.new a.pos m.pos = { lo := a.pos, hi := m.pos } := by
    unfold Span.new
    rw [Nat.mod_eq_of_lt (by omega), Nat.mod_eq_of_lt (by omega)]
  have hadds := adds_comment out (.new a.pos m.pos) .block
  rw [if_pos rfl, hspan] at hadds
  rw [hspan]
  have hdepth := h.depth
  by_cases hout : strs out = []
  · have hnests := h.nests
    rw [hout] at hnests
    obtain ⟨rfl, hopens⟩ := hnests.outside
    have hcur := h.outside hout
    subst hcur
    have harrives := Folding.arrives_block hlen h.stands h.comments hc h1 hend
    rw [h.braces] at harrives
    rw [hopens, hout] at hadds
    rw [hopens, List.length_map] at hdepth
    exact h.arrive rfl base hadds harrives (by omega)
  · refine h.stay hm hadds hout h.nests (by omega) fun d hd => ?_
    obtain rfl := List.mem_singleton.mp hd
    exact ⟨(h.stands.placed.ate h.ate).2.1, Nat.le_refl _⟩

/-- An opening brace. -/
theorem openBrace (h : Follows src a modes out s base) (hlen : byteLen src < posSpace)
    (hmodes : Outermost modes) (hc : a.peek = some '{') :
    Catches src s a.bump (openModes modes)
      (out ++ [.token { kind := .lBrace, span := .new a.pos a.bump.pos }]) := by
  have hm := ate_line hc (by decide)
  have hle := (h.placed.ate hm).1.le
  have hone : a.bump.pos = a.pos + 1 := (takes_bump (rest_of_peek hc)).pos
  have hspan : Span.new a.pos a.bump.pos = { lo := a.pos, hi := a.bump.pos } := by
    unfold Span.new
    rw [Nat.mod_eq_of_lt (by omega), Nat.mod_eq_of_lt (by omega)]
  rw [hspan]
  have hadds := adds_open out { lo := a.pos, hi := a.bump.pos }
  have hdepth := h.depth
  by_cases hout : strs out = []
  · have hnests := h.nests
    rw [hout] at hnests
    obtain ⟨rfl, hopens⟩ := hnests.outside
    have hcur := h.outside hout
    subst hcur
    have harrives := Folding.arrives_open h.stands h.comments hc
    rw [h.braces, ← List.append_nil s.ranges] at harrives
    rw [hopens, hout] at hadds
    rw [hopens, List.length_map] at hdepth
    refine h.arrive rfl ({ lo := s.cur.pos, hi := s.cur.bump.pos } :: base) hadds harrives ?_
    rw [List.length_cons]
    omega
  · have hnests := h.nests.open_brace hmodes hout (by omega) { lo := a.pos, hi := a.bump.pos }
      (h.stands.placed.ate h.ate).2.1
    refine h.stay hm hadds hout hnests ?_ fun d hd => by cases hd
    rw [List.length_cons]
    omega

/-- A closing brace. -/
theorem closeBrace (h : Follows src a modes out s base) (hlen : byteLen src < posSpace)
    (hmodes : Outermost modes) (hc : a.peek = some '}') :
    Catches src s a.bump (closeModes modes)
      (out ++ [.token { kind := .rBrace, span := .new a.pos a.bump.pos }]) := by
  have hm := ate_line hc (by decide)
  have hle := (h.placed.ate hm).1.le
  have hone : a.bump.pos = a.pos + 1 := (takes_bump (rest_of_peek hc)).pos
  have hspan : Span.new a.pos a.bump.pos = { lo := a.pos, hi := a.bump.pos } := by
    unfold Span.new
    rw [Nat.mod_eq_of_lt (by omega), Nat.mod_eq_of_lt (by omega)]
  rw [hspan]
  have hdepth := h.depth
  by_cases hout : strs out = []
  · have hnests := h.nests
    rw [hout] at hnests
    obtain ⟨rfl, hopens⟩ := hnests.outside
    have hcur := h.outside hout
    subst hcur
    have hbraces := h.braces
    rw [hopens, List.length_map] at hdepth
    cases base with
    | nil =>
      have hadds := adds_unmatched out { lo := s.cur.pos, hi := s.cur.bump.pos } hopens
      have harrives := Folding.arrives_unmatched h.stands h.comments hc hbraces
      rw [hbraces, ← List.append_nil s.ranges] at harrives
      rw [hout] at hadds
      exact h.arrive rfl [] hadds harrives (Nat.zero_le _)
    | cons start base =>
      have hadds := adds_close out { lo := s.cur.pos, hi := s.cur.bump.pos } hopens
      have harrives := Folding.arrives_close h.stands h.comments hc hbraces
      rw [hout] at hadds
      rw [List.length_cons] at hdepth
      exact h.arrive rfl base hadds harrives (by omega)
  · obtain ⟨start, rest, hopens, hnests, hstart⟩ := h.nests.close_brace hmodes hout
    rw [hopens, List.length_cons] at hdepth
    cases start with
    | none =>
      have hadds := adds_close_interp out { lo := a.pos, hi := a.bump.pos } hopens
      exact h.stay hm hadds hout hnests (by omega) fun d hd => by cases hd
    | some start =>
      have hadds := adds_close out { lo := a.pos, hi := a.bump.pos } hopens
      refine h.stay hm hadds hout hnests (by omega) fun d hd => ?_
      obtain rfl := List.mem_singleton.mp hd
      exact ⟨hstart start rfl, Nat.le_refl _⟩

/-- The end of a string literal. -/
theorem close {below : List Mode} (h : Follows src a (.string :: below) out s base)
    (hlen : byteLen src < posSpace) (hc : a.peek = some '"')
    (hplain : ∀ l ∈ (literalsOf (tokensOf
      (out ++ [.token { kind := .strEnd, span := .new a.pos a.bump.pos }]))).literals,
      PlainLiteral src l.1 l.2) :
    Catches src s a.bump below
      (out ++ [.token { kind := .strEnd, span := .new a.pos a.bump.pos }]) := by
  have hm := ate_line hc (by decide)
  obtain ⟨hplaced, -, hpos⟩ := h.placed.ate hm
  have hle := hplaced.le
  have hspan : Span.new a.pos a.bump.pos = { lo := a.pos, hi := a.bump.pos } := by
    unfold Span.new
    rw [Nat.mod_eq_of_lt (by omega), Nat.mod_eq_of_lt (by omega)]
  rw [hspan] at hplain ⊢
  have hdepth := h.depth
  have hadds := adds_strEnd out { lo := a.pos, hi := a.bump.pos }
  obtain ⟨start, rest, hstrs, hnests, hstart⟩ := h.nests.of_string
  rw [hstrs, List.tail_cons] at hadds
  cases rest with
  | cons start' rest =>
    exact h.stay hm hadds (List.cons_ne_nil _ _) hnests (by omega) fun d hd => by cases hd
  | nil =>
    obtain ⟨rfl, hopens⟩ := hnests.outside
    have hliteral : PlainLiteral src s.cur.pos a.bump.pos := by
      rw [← hstart rfl]
      refine hplain (start.lo, a.bump.pos) ?_
      unfold strs at hstrs
      rw [literalsOf_token]
      simp [Literals.take, hstrs]
    obtain ⟨b, harrives, hb, hline⟩ := Folding.arrives_literal h.stands h.comments hliteral
    obtain rfl : b = a.bump := (h.stands.placed.ate hline).1.unique hplaced hb
    have hsame : lineAt src a.pos = lineAt src s.cur.pos := by
      have hend := h.stands.placed.line hline
      have hbefore := (h.stands.placed.ate h.ate).2.1
      have hafter := (h.placed.ate hm).2.1
      omega
    rw [h.braces, ← List.append_nil s.ranges] at harrives
    rw [hopens] at hadds
    rw [hopens, List.length_map] at hdepth
    exact h.arrive hsame base hadds harrives (by omega)

/-- A token. -/
theorem token {kind : TokenKind} (h : Follows src a modes out s base)
    (hlen : byteLen src < posSpace)
    (htaken : Taken a modes kind m modes')
    (hplain : ∀ l ∈ (literalsOf (tokensOf
      (out ++ [.token { kind, span := .new a.pos m.pos }]))).literals, PlainLiteral src l.1 l.2) :
    Catches src s m modes' (out ++ [.token { kind, span := .new a.pos m.pos }]) := by
  have hdepth := h.depth
  cases htaken with
  | plain hmodes hkind hate =>
    refine h.quiet hate (adds_neutral out _ hkind) fun hout => ?_
    have hcur := h.outside hout
    subst hcur
    exact Folding.arrives_plain h.stands h.comments hate
  | slash hmodes hkind hc h1 h2 =>
    refine h.quiet (bump_any a) (adds_neutral out _ hkind) fun hout => ?_
    have hcur := h.outside hout
    subst hcur
    exact Folding.arrives_slash h.stands h.comments hc h1 h2
  | doc hmodes hkind hc h1 =>
    have hate :=
      ((bump_any a).trans (bump_any a.bump)).trans (ate_eatWhile (· != '\n') a.bump.bump).any
    refine h.quiet hate (adds_neutral out _ hkind) fun hout => ?_
    have hcur := h.outside hout
    subst hcur
    exact Folding.arrives_line h.stands h.comments hc h1
  | charLiteral hmodes hkind hc hline =>
    refine h.quiet hline (adds_neutral out _ hkind) fun hout => ?_
    have hcur := h.outside hout
    subst hcur
    exact Folding.arrives_char h.stands h.comments hc hline
  | openBrace hmodes hc => exact h.openBrace hlen hmodes hc
  | closeBrace hmodes hc => exact h.closeBrace hlen hmodes hc
  | quote hmodes hc =>
    obtain ⟨hplaced, -, hpos⟩ := h.placed.ate (bump_any a)
    have hle := hplaced.le
    have hlo : (Span.new a.pos a.bump.pos).lo = a.pos := Nat.mod_eq_of_lt (by omega)
    have hnests : Nests src s.cur.pos (lineAt src s.cur.pos) base (.string :: modes) (opens out)
        (.new a.pos a.bump.pos :: strs out) := h.nests.string fun hout => by
          rw [hlo, h.outside hout]
    exact h.stay (bump_any a) (adds_quote out _) (List.cons_ne_nil _ _) hnests (by omega)
      fun d hd => by cases hd
  | text hmodes hkind hate =>
    refine h.quiet hate (adds_neutral out _ hkind) fun hout => ?_
    obtain ⟨start, rest, hstrs, -⟩ := (hmodes ▸ h.nests).of_string
    rw [hout] at hstrs
    cases hstrs
  | interp hmodes hc =>
    have hone := (takes_bump (rest_of_peek hc)).pos
    have hate := (bump_any a).trans (bump_any a.bump)
    have hpos := ((h.placed.ate (bump_any a)).1.ate (bump_any a.bump)).2.2
    obtain ⟨start, rest, hstrs, -⟩ := (hmodes ▸ h.nests).of_string
    have hne : strs out ≠ [] := by
      rw [hstrs]
      exact List.cons_ne_nil _ _
    have hnests := Nests.interp [] h.nests hne fun p hp => by cases hp
    refine h.stay hate (adds_interp out _) hne hnests ?_ fun d hd => by cases hd
    have hsize : byteLen ['$'] = 1 := rfl
    rw [List.length_cons]
    omega
  | close hmodes hc =>
    subst hmodes
    exact h.close hlen hc hplain

/-- What is read from one place to another. -/
theorem reading (hlen : byteLen src < posSpace) {b : Cursor}
    (hread : Reading a modes out b modes' out')
    (hplain : ∀ l ∈ (literalsOf (tokensOf out')).literals, PlainLiteral src l.1 l.2)
    (h : Follows src a modes out s base) : Catches src s b modes' out' := by
  induction hread generalizing s base with
  | done => exact ⟨s, base, .refl, h⟩
  | @space a b modes modes' out out' c hmodes hc hspace hrest ih =>
    have hone : a.Ate Outside a.bump := by
      refine ate_bump fun d hd hmem => ?_
      obtain rfl : c = d := Option.some.inj (hc.symm.trans hd)
      simp only [List.mem_cons, List.not_mem_nil, or_false] at hmem
      rcases hmem with rfl | rfl | rfl | rfl | rfl <;> exact absurd hspace (by decide)
    refine Catches.next (ih hplain)
      (h.quiet hone ⟨rfl, rfl, by rw [List.append_nil]⟩ fun hout => ?_)
    have hcur := h.outside hout
    subst hcur
    exact Folding.arrives_plain h.stands h.comments hone
  | @line a b modes modes' out out' span hmodes hc h1 hrest ih =>
    have hate :=
      ((bump_any a).trans (bump_any a.bump)).trans (ate_eatWhile (· != '\n') a.bump.bump).any
    refine Catches.next (ih hplain) (h.quiet hate (adds_comment out span .line) fun hout => ?_)
    have hcur := h.outside hout
    subst hcur
    exact Folding.arrives_line h.stands h.comments hc h1
  | block hmodes hc h1 hend hrest ih => exact .next (ih hplain) (h.block hlen hc h1 hend)
  | token htaken hrest ih =>
    exact .next (ih hplain) (h.token hlen htaken fun l hl =>
      hplain l (literals_grow hrest.grows hl))

end Follows

/-- The scanner finds what the lexer finds, with columns in bytes. -/
theorem collected {x : Xid} (hx : x.Documented) {src : List Char} (hlen : byteLen src < posSpace)
    (hlexes : (lex x src).errors = []) (hplain : PlainStrings x src) :
    (collectFoldingRanges src).Perm ((folded x src).map (Delimited.range src Char.utf8Size)) := by
  obtain ⟨a, below, out, hread, hnil, hout⟩ := Lexer.lex_reading hx hlexes
  have hadds := adds_neutral out (.new a.pos a.pos) (by decide : TokenKind.Neutral .eof)
  have hliterals : literalsOf (tokensOf out) = literalsOf (lex x src).tokens := by
    change _ = literalsOf (tokensOf (lex x src).out)
    rw [hout, literalsOf_token]
    rfl
  have hstart : Follows src { pos := 0, rest := src } [.normal] [] (Folding.new src) [] := by
    refine ⟨⟨[], rfl, rfl, rfl, rfl⟩, rfl, .refl _, .normal, Nat.le_refl _, fun _ => rfl, rfl,
      [], [], .refl _, .refl _, fun d hd => by cases hd⟩
  obtain ⟨s, base, hscans, hfollows⟩ := hstart.reading hlen hread fun l hl =>
    hplain l (hliterals ▸ hl)
  have hcur := hfollows.outside hfollows.nests.of_normal
  have hrun : (Folding.new src).loop src.length = s :=
    Folding.loop_scans hscans (hcur ▸ hnil) _ (Nat.le_refl _)
  have hseen : pairs (lex x src).out ++ blocks (lex x src).out = delimited x src := by
    unfold delimited
    rw [reported_skipped hx]
    rfl
  unfold collectFoldingRanges
  rw [hrun]
  refine (List.mergeSort_perm _ _).trans ((hfollows.folds (by rw [hcur])).trans ?_)
  change (foldsOf src (pairs out ++ blocks out)).Perm (foldsOf src (delimited x src))
  rw [← hseen, hout]
  have hsame := hadds.seen
  rw [List.append_nil] at hsame
  exact foldsOf_perm hsame.symm

/-! ## Columns -/

/-- A character has no more UTF-16 units than bytes, and as many just when it is ASCII. -/
theorem units_le (c : Char) :
    (lenUtf16 c).toNat ≤ c.utf8Size ∧ ((lenUtf16 c).toNat = c.utf8Size ↔ c.toNat < 128) := by
  have hsize : c.utf8Size = if c.toNat ≤ 0x7F then 1 else if c.toNat ≤ 0x7FF then 2
      else if c.toNat ≤ 0xFFFF then 3 else 4 := rfl
  unfold lenUtf16
  rw [hsize]
  split_ifs <;> simp <;> omega

/-- Where no weight grows and the sum is the same, each weight is the same. -/
theorem sum_le_of_le {α : Type} {f g : α → Nat} {l : List α} (h : ∀ a ∈ l, f a ≤ g a) :
    (l.map f).sum ≤ (l.map g).sum ∧ ((l.map f).sum = (l.map g).sum ↔ ∀ a ∈ l, f a = g a) := by
  induction l with
  | nil => simp
  | cons a l ih =>
    obtain ⟨hle, hiff⟩ := ih fun b hb => h b (List.mem_cons_of_mem _ hb)
    have hone := h a List.mem_cons_self
    simp only [List.map_cons, List.sum_cons, List.forall_mem_cons]
    refine ⟨by omega, fun heq => ?_, fun hall => ?_⟩
    · have htail : (l.map f).sum = (l.map g).sum := by omega
      exact ⟨by omega, hiff.mp htail⟩
    · rw [hall.1, hiff.mpr hall.2]

theorem columns_le (line : List Char) :
    (line.map fun c => (lenUtf16 c).toNat).sum ≤ (line.map Char.utf8Size).sum ∧
      ((line.map fun c => (lenUtf16 c).toNat).sum = (line.map Char.utf8Size).sum ↔
        ∀ c ∈ line, c.toNat < 128) := by
  obtain ⟨hle, hiff⟩ := sum_le_of_le (l := line) fun c _ => (units_le c).1
  exact ⟨hle, hiff.trans (forall₂_congr fun c _ => (units_le c).2)⟩

def FoldingRange.columns (r : FoldingRange) : Nat := r.startCharacter + r.endCharacter

/-- The folding ranges agree with the lexer on a text whose string literals are plain just when
there are ASCII characters only before the delimiters of what is folded. -/
theorem folds_agree_iff {x : Xid} (hx : x.Documented) {src : List Char}
    (hlen : byteLen src < posSpace)
    (hlexes : (lex x src).errors = []) (hplain : PlainStrings x src) :
    (collectFoldingRanges src).Perm (foldingRanges x src) ↔ AsciiColumns x src := by
  have hbytes := collected hx hlen hlexes hplain
  have hsum : ∀ d ∈ folded x src, (d.range src fun c => (lenUtf16 c).toNat).columns ≤
      (d.range src Char.utf8Size).columns := by
    intro d _
    exact Nat.add_le_add (columns_le _).1 (columns_le _).1
  constructor
  · intro hperm d hd
    have hsame := ((hperm.symm.trans hbytes).map FoldingRange.columns).sum_nat
    unfold foldingRanges at hsame
    rw [List.map_map, List.map_map] at hsame
    have heq := ((sum_le_of_le hsum).2.mp hsame) d hd
    obtain ⟨hlo, hloiff⟩ := columns_le (lineBefore src d.lo)
    obtain ⟨hhi, hhiiff⟩ := columns_le (lineBefore src d.hi)
    dsimp only [FoldingRange.columns, Delimited.range] at heq
    exact ⟨hloiff.mp (by omega), hhiiff.mp (by omega)⟩
  · intro hascii
    refine hbytes.trans (.of_eq (List.map_congr_left fun d hd => ?_))
    obtain ⟨hlo, hhi⟩ := hascii d hd
    unfold Delimited.range
    rw [(columns_le _).2.mpr hlo, (columns_le _).2.mpr hhi]

theorem folds_agree_on_a_quoted_brace :
    (collectFoldingRanges "f \x7b /*\n*/ \"\\\" \x7d\"\n\x7d".toList).Perm
      (foldingRanges asciiXid "f \x7b /*\n*/ \"\\\" \x7d\"\n\x7d".toList) := by
  refine (folds_agree_iff asciiXid_documented (by decide) (by decide +kernel) ?_).mpr ?_
  · have hliterals :
        (literalsOf (lex asciiXid "f \x7b /*\n*/ \"\\\" \x7d\"\n\x7d".toList).tokens).literals
        = [(10, 16)] := by decide +kernel
    unfold PlainStrings
    rw [hliterals]
    intro l hl
    obtain rfl := List.mem_singleton.mp hl
    exact ⟨"f \x7b /*\n*/ ".toList, "\\\" \x7d\"".toList,
      "\n\x7d".toList, by decide, by decide, by decide,
      by decide⟩
  · have hfolded : folded asciiXid "f \x7b /*\n*/ \"\\\" \x7d\"\n\x7d".toList =
        [⟨.region, 2, 18⟩, ⟨.comment, 4, 9⟩] := by decide +kernel
    have hlines : [2, 18, 4, 9].all fun n =>
        (lineBefore "f \x7b /*\n*/ \"\\\" \x7d\"\n\x7d".toList n).all fun c =>
          c.toNat < 128 := by decide
    unfold AsciiColumns
    rw [hfolded]
    simpa only [List.all_cons, List.all_nil, Bool.and_true, Bool.and_eq_true, List.all_eq_true,
      decide_eq_true_eq, List.forall_mem_cons, List.not_mem_nil, false_imp_iff,
        implies_true, and_true,
      and_assoc] using hlines

/-- A column after a character that is not ASCII is too far, and a brace on the second line of a
string literal is taken for a brace of the program. -/
theorem folds_disagree :
    ((lex asciiXid "/* é */ \x7b\n\x7d".toList).errors = [] ∧
      ¬(collectFoldingRanges "/* é */ \x7b\n\x7d".toList).Perm
        (foldingRanges asciiXid "/* é */ \x7b\n\x7d".toList)) ∧
    (lex asciiXid "\"\n\x7b\n\x7d\"".toList).errors = [] ∧
      ¬(collectFoldingRanges "\"\n\x7b\n\x7d\"".toList).Perm
        (foldingRanges asciiXid "\"\n\x7b\n\x7d\"".toList) := by
  decide +kernel

end lsp
