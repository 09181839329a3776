-- Tokens and comments cover a text. A run of the lexer lays them side by side, and their spans
-- say where they lie: a position is a `u32`, so they do so only in texts below 4 GiB.
import Mathlib.Data.List.Pairwise
import OtterFusion.Compiler.LexerTurns

namespace compiler.lexer

/-! ## What the law says -/

/-- Tokens and comments lie in order and apart in a text, and cover all but whitespace. -/
structure Covers (src : List Char) (tokens : List Token) (comments : List CommentTrivia) :
    Prop where
  tokensInOrder : tokens.Pairwise fun t u => t.span.hi ≤ u.span.lo
  commentsInOrder : comments.Pairwise fun c d => c.span.hi ≤ d.span.lo
  disjoint : ∀ t ∈ tokens, ∀ c ∈ comments, t.span.hi ≤ c.span.lo ∨ c.span.hi ≤ t.span.lo
  tokensInside : ∀ t ∈ tokens, t.span.lo ≤ t.span.hi ∧ t.span.hi ≤ byteLen src
  commentsInside : ∀ c ∈ comments, c.span.lo ≤ c.span.hi ∧ c.span.hi ≤ byteLen src
  covered : ∀ before c after, src = before ++ c :: after → isSpace c = false →
    (∃ t ∈ tokens, t.span.lo ≤ byteLen before ∧ byteLen before + c.utf8Size ≤ t.span.hi) ∨
      ∃ d ∈ comments, d.span.lo ≤ byteLen before ∧ byteLen before + c.utf8Size ≤ d.span.hi

/-! ## The layout of a run -/

/-- The items so far lie in order up to a place, and cover the text before it. -/
structure Spread (src : List Char) (a : Cursor) (out : List Item) : Prop where
  place : ∃ before, src = before ++ a.rest ∧ a.pos = byteLen before ∧
    ∀ xs c ys, before = xs ++ c :: ys → isSpace c = false →
      ∃ i ∈ out, i.span.lo ≤ byteLen xs ∧ byteLen xs + c.utf8Size ≤ i.span.hi
  sorted : out.Pairwise fun i j => i.span.hi ≤ j.span.lo
  inside : ∀ i ∈ out, i.span.lo ≤ i.span.hi ∧ i.span.hi ≤ a.pos

theorem spread_start (src : List Char) : Spread src { pos := 0, rest := src } [] := by
  refine ⟨⟨[], rfl, rfl, fun xs c ys h => ?_⟩, List.Pairwise.nil, fun i hi => by cases hi⟩
  cases xs <;> cases h

theorem Spread.le {src : List Char} {a : Cursor} {out : List Item} (h : Spread src a out) :
    a.pos ≤ byteLen src := by
  obtain ⟨before, hsrc, hpos, _⟩ := h.place
  rw [hsrc, byteLen_append, hpos]
  omega

/-- Whitespace need not be covered. -/
theorem Spread.space {src : List Char} {a : Cursor} {out : List Item} {c : Char}
    (h : Spread src a out) (hc : a.peek = some c) (hspace : isSpace c = true) :
    Spread src a.bump out := by
  obtain ⟨before, hsrc, hpos, hcovered⟩ := h.place
  have hone := takes_bump (rest_of_peek hc)
  have hend : a.bump.pos = byteLen (before ++ [c]) := by
    rw [hone.pos, hpos, byteLen_append]
  refine ⟨⟨before ++ [c], ?_, hend, fun xs d ys hxs hd => ?_⟩, h.sorted, fun i hi => ?_⟩
  · rw [hsrc, rest_of_peek hc, List.append_assoc]
    rfl
  · rcases List.append_eq_append_iff.mp hxs with ⟨zs, hx, hz⟩ | ⟨zs, hb, hz⟩
    · cases zs with
      | nil =>
        obtain rfl := (List.cons.inj hz).1
        rw [hspace] at hd
        cases hd
      | cons z zs =>
        have htail := (List.cons.inj hz).2
        simp at htail
    · cases zs with
      | nil =>
        obtain rfl := (List.cons.inj hz).1
        rw [hspace] at hd
        cases hd
      | cons z zs =>
        obtain ⟨rfl, _⟩ := List.cons.inj hz
        exact hcovered xs d zs hb hd
  · have hle := h.inside i hi
    rw [hone.pos]
    exact ⟨hle.1, Nat.le_trans hle.2 (Nat.le_add_right _ _)⟩

/-- An item covers what it takes. -/
theorem Spread.item {src : List Char} {a b : Cursor} {out : List Item} {i : Item}
    (h : Spread src a out) (hlen : byteLen src < posSpace) (hb : a.Ate (fun _ => True) b)
    (hi : i.span = .new a.pos b.pos) : Spread src b (out ++ [i]) := by
  obtain ⟨before, hsrc, hpos, hcovered⟩ := h.place
  obtain ⟨taken, ⟨hrest, hend⟩, _⟩ := hb
  have hall : src = (before ++ taken) ++ b.rest := by
    rw [hsrc, hrest, List.append_assoc]
  have hfits : b.pos ≤ byteLen src := by
    rw [hall, byteLen_append, byteLen_append, hend, hpos]
    omega
  have hspan : i.span = { lo := a.pos, hi := b.pos } := by
    rw [hi]
    unfold Span.new
    rw [Nat.mod_eq_of_lt (by omega), Nat.mod_eq_of_lt (by omega)]
  refine ⟨⟨before ++ taken, hall, by rw [hend, hpos, byteLen_append], fun xs d ys hxs hd => ?_⟩,
    ?_, fun j hj => ?_⟩
  · rcases List.append_eq_append_iff.mp hxs with ⟨zs, rfl, hz⟩ | ⟨zs, hb', hz⟩
    · refine ⟨i, List.mem_append_right _ (List.mem_singleton_self _), ?_⟩
      rw [hspan]
      simp only [byteLen_append, hz, byteLen_cons] at hend ⊢
      omega
    · cases zs with
      | nil =>
        refine ⟨i, List.mem_append_right _ (List.mem_singleton_self _), ?_⟩
        rw [hspan]
        rw [List.append_nil] at hb'
        subst hb'
        rw [List.nil_append] at hz
        rw [← hz] at hend
        simp only [byteLen_cons] at hend
        dsimp only
        omega
      | cons z zs =>
        obtain ⟨rfl, _⟩ := List.cons.inj hz
        obtain ⟨j, hj, hcov⟩ := hcovered xs d zs hb' hd
        exact ⟨j, List.mem_append_left _ hj, hcov⟩
  · rw [List.pairwise_append]
    refine ⟨h.sorted, List.pairwise_singleton _ _, fun j hj k hk => ?_⟩
    rw [List.mem_singleton.mp hk, hspan]
    exact (h.inside j hj).2
  · rcases List.mem_append.mp hj with hj | hj
    · have hle := h.inside j hj
      exact ⟨hle.1, by omega⟩
    · rw [List.mem_singleton.mp hj, hspan]
      dsimp only
      omega

theorem Laid.spread {src : List Char} (hlen : byteLen src < posSpace) {a b : Cursor}
    {out out' : List Item} (h : Laid a out b out') (hs : Spread src a out) :
    Spread src b out' := by
  induction h with
  | done => exact hs
  | space hc hspace _ ih => exact ih (hs.space hc hspace)
  | item hb hi _ ih => exact ih (hs.item hlen hb hi)

/-- Items that are spread over a whole text cover it. -/
theorem Spread.covers {src : List Char} {a : Cursor} {out : List Item} (h : Spread src a out)
    (hnil : a.rest = []) :
    Covers src (out.filterMap Item.token?) (out.filterMap Item.comment?) := by
  have htoken : ∀ t, t ∈ out.filterMap Item.token? ↔ Item.token t ∈ out := by
    intro t
    rw [List.mem_filterMap]
    constructor
    · rintro ⟨i, hi, ht⟩
      cases i with
      | token u => rwa [← Option.some.inj ht]
      | comment c => cases ht
    · exact fun ht => ⟨_, ht, rfl⟩
  have hcomment : ∀ c, c ∈ out.filterMap Item.comment? ↔ Item.comment c ∈ out := by
    intro c
    rw [List.mem_filterMap]
    constructor
    · rintro ⟨i, hi, hc⟩
      cases i with
      | token t => cases hc
      | comment d => rwa [← Option.some.inj hc]
    · exact fun hc => ⟨_, hc, rfl⟩
  have hle := h.le
  constructor
  · refine h.sorted.filterMap _ fun i j hij t ht u hu => ?_
    cases i with
    | comment c => cases ht
    | token t' =>
      cases j with
      | comment c => cases hu
      | token u' =>
        obtain rfl := Option.some.inj ht
        obtain rfl := Option.some.inj hu
        exact hij
  · refine h.sorted.filterMap _ fun i j hij c hc d hd => ?_
    cases i with
    | token t => cases hc
    | comment c' =>
      cases j with
      | token t => cases hd
      | comment d' =>
        obtain rfl := Option.some.inj hc
        obtain rfl := Option.some.inj hd
        exact hij
  · intro t ht c hc
    have hboth : out.Pairwise fun i j =>
        i = j ∨ i.span.hi ≤ j.span.lo ∨ j.span.hi ≤ i.span.lo :=
      h.sorted.imp fun hij => .inr (.inl hij)
    have : Std.Symm fun i j : Item =>
        i = j ∨ i.span.hi ≤ j.span.lo ∨ j.span.hi ≤ i.span.lo :=
      ⟨fun i j hij => by tauto⟩
    have hall := hboth.forall_of_forall fun i _ => .inl rfl
    rcases hall ((htoken t).mp ht) ((hcomment c).mp hc) with heq | hlt
    · cases heq
    · exact hlt
  · intro t ht
    have hin := h.inside _ ((htoken t).mp ht)
    exact ⟨hin.1, Nat.le_trans hin.2 hle⟩
  · intro c hc
    have hin := h.inside _ ((hcomment c).mp hc)
    exact ⟨hin.1, Nat.le_trans hin.2 hle⟩
  · intro before c after hsrc hc
    obtain ⟨all, hall, _, hcovered⟩ := h.place
    rw [hnil, List.append_nil] at hall
    obtain ⟨i, hi, hlo, hhi⟩ := hcovered before c after (hall ▸ hsrc) hc
    cases i with
    | token t => exact .inl ⟨t, (htoken t).mpr hi, hlo, hhi⟩
    | comment d => exact .inr ⟨d, (hcomment d).mpr hi, hlo, hhi⟩

end compiler.lexer
