-- The editor's text and the server's: which positions both take for the same place, and that the
-- texts stay the same while the editor sends no others.
import OtterFusion.Lsp.Offsets

namespace lsp

/-! ## The editor -/

/-- What ends a line in the protocol. -/
inductive Eol
  | lf
  | crlf
  | cr
  deriving DecidableEq

def Eol.text : Eol → Text
  | .lf => ['\n']
  | .crlf => ['\r', '\n']
  | .cr => ['\r']

/-- The first line, what ends it, and the text after that. -/
def breakLine : Text → Option (Text × Eol × Text)
  | [] => none
  | c :: text =>
    if c = '\n' then some ([], .lf, text)
    else if c = '\r' then
      if text.head? = some '\n' then some ([], .crlf, text.tail) else some ([], .cr, text)
    else (breakLine text).map fun (line, eol, rest) => (c :: line, eol, rest)

/-- The lines before a line, and the text from there on, if there are so many. -/
def linesBefore : Nat → Text → Option (List (Text × Eol) × Text)
  | 0, text => some ([], text)
  | n + 1, text => do
    let (line, eol, rest) ← breakLine text
    let (lines, post) ← linesBefore n rest
    some ((line, eol) :: lines, post)

/-- The text of whole lines. -/
def textOf (lines : List (Text × Eol)) : Text := lines.flatMap fun l => l.1 ++ l.2.text

/-- The text of a line up to a column, or all of it where the column is beyond its end, and the text
from there on. There is none where the column is inside a character. -/
def takeColumns : Nat → Text → Option (Text × Text)
  | 0, text => some ([], text)
  | _ + 1, [] => some ([], [])
  | n + 1, c :: text =>
    if c = '\r' ∨ c = '\n' then some ([], c :: text)
    else if (lenUtf16 c).toNat ≤ n + 1 then
      (takeColumns (n + 1 - (lenUtf16 c).toNat) text).map fun (a, b) => (c :: a, b)
    else none

/-- The text before a position and the text from it on. A line that is not there is the end. -/
def clientSplit (text : Text) (pos : Position) : Option (Text × Text) :=
  match linesBefore pos.line.toNat text with
  | none => some (text, [])
  | some (lines, post) =>
    (takeColumns pos.character.toNat post).map fun (a, b) => (textOf lines ++ a, b)

/-- The editor's text after a change. There is none where a position of the range is inside a
character, or the end is before the start. -/
def clientChange (text : Text) (change : ContentChange) : Option Text :=
  match change.range with
  | none => some change.text
  | some range => do
    let (before, _) ← clientSplit text range.start
    let (upTo, after) ← clientSplit text range.stop
    if upTo.length < before.length then none else some (before ++ change.text ++ after)

/-- The editor's text after changes. -/
def clientChanges (text : Text) : List ContentChange → Option Text
  | [] => some text
  | change :: changes => do
    let text ← clientChange text change
    clientChanges text changes

/-! ## Where they agree -/

/-- A position that the server takes for the same place: the end of the text; or no line before it
ends with a lone CR, and it is not beyond the end of a line that ends with a CR. -/
def Agrees (text : Text) (pos : Position) : Prop :=
  match linesBefore pos.line.toNat text with
  | none => True
  | some (lines, post) =>
    match takeColumns pos.character.toNat post with
    | none => True
    | some (a, b) => b = [] ∨
      (∀ l ∈ lines, l.2 ≠ .cr) ∧ (b.head? = some '\r' → units a = pos.character.toNat)

/-- Each position of each change is one that the server takes for the same place in the text it is
for. -/
def InStep (text : Text) : List ContentChange → Prop
  | [] => True
  | change :: changes =>
    (∀ range, change.range = some range → Agrees text range.start ∧ Agrees text range.stop) ∧
    ∀ next, clientChange text change = some next → InStep next changes

/-! ## The lines of the editor -/

/-- A line has no line end in it. -/
def Plain (line : Text) : Prop := '\r' ∉ line ∧ '\n' ∉ line

theorem breakLine_some {text line rest : Text} {eol : Eol}
    (h : breakLine text = some (line, eol, rest)) :
    text = line ++ (eol.text ++ rest) ∧ Plain line := by
  induction text generalizing line with
  | nil => cases h
  | cons c text ih =>
    rw [breakLine] at h
    split_ifs at h with hlf hcr hhead
    · cases h
      rw [hlf]
      exact ⟨rfl, by simp, by simp⟩
    · cases h
      rw [hcr]
      obtain ⟨rest, rfl⟩ := List.head?_eq_some_iff.mp hhead
      exact ⟨rfl, by simp, by simp⟩
    · cases h
      rw [hcr]
      exact ⟨rfl, by simp, by simp⟩
    · obtain ⟨⟨line', eol', rest'⟩, hbreak, heq⟩ := Option.map_eq_some_iff.mp h
      cases heq
      obtain ⟨rfl, hplain⟩ := ih hbreak
      refine ⟨rfl, ?_, ?_⟩
      · simp [hplain.1, Ne.symm hcr]
      · simp [hplain.2, Ne.symm hlf]

theorem breakLine_none {text : Text} (h : breakLine text = none) : feeds text = 0 := by
  induction text with
  | nil => rfl
  | cons c text ih =>
    rw [breakLine] at h
    split_ifs at h with hlf hcr hhead
    rw [feeds_cons, if_neg hlf, ih (Option.map_eq_none_iff.mp h)]

@[simp] theorem textOf_nil : textOf [] = [] := rfl

@[simp] theorem textOf_cons (l : Text × Eol) (lines : List (Text × Eol)) :
    textOf (l :: lines) = l.1 ++ (l.2.text ++ textOf lines) := by
  simp [textOf]

theorem linesBefore_some {n : Nat} {text post : Text} {lines : List (Text × Eol)}
    (h : linesBefore n text = some (lines, post)) :
    text = textOf lines ++ post ∧ lines.length = n ∧ ∀ l ∈ lines, Plain l.1 := by
  induction n generalizing text lines with
  | zero =>
    cases h
    exact ⟨rfl, rfl, by simp⟩
  | succ n ih =>
    obtain ⟨⟨line, eol, rest⟩, hbreak, h⟩ := Option.bind_eq_some_iff.mp h
    obtain ⟨⟨lines', post'⟩, hlines, h⟩ := Option.bind_eq_some_iff.mp h
    cases h
    obtain ⟨rfl, hplain⟩ := breakLine_some hbreak
    obtain ⟨rfl, rfl, hplains⟩ := ih hlines
    refine ⟨by simp, rfl, List.forall_mem_cons.mpr ⟨hplain, hplains⟩⟩

theorem feeds_plain {line : Text} (h : Plain line) : feeds line = 0 := feeds_eq_zero.mpr h.2

/-- A line end has one line feed, or none when it is a lone CR. -/
theorem feeds_eol (eol : Eol) : feeds eol.text = if eol = .cr then 0 else 1 := by
  cases eol <;> rfl

/-- An editor that has fewer lines than the position has no more line feeds. -/
theorem linesBefore_none {n : Nat} {text : Text} (h : linesBefore n text = none) :
    feeds text < n := by
  induction n generalizing text with
  | zero => cases h
  | succ n ih =>
    cases hbreak : breakLine text with
    | none => rw [breakLine_none hbreak]; exact Nat.succ_pos n
    | some l =>
      obtain ⟨line, eol, rest⟩ := l
      obtain ⟨rfl, hplain⟩ := breakLine_some hbreak
      have hrest : linesBefore n rest = none := by
        rw [linesBefore, hbreak] at h
        cases hlines : linesBefore n rest with
        | none => rfl
        | some p => simp [hlines] at h
      have hfeeds := ih hrest
      rw [feeds_append, feeds_append, feeds_plain hplain, feeds_eol]
      split <;> omega

/-- As many lines, as many line feeds, but for the lone CRs. -/
theorem feeds_textOf {lines : List (Text × Eol)} (h : ∀ l ∈ lines, Plain l.1) :
    feeds (textOf lines) ≤ lines.length ∧
      (feeds (textOf lines) = lines.length ↔ ∀ l ∈ lines, l.2 ≠ .cr) := by
  induction lines with
  | nil => simp
  | cons l lines ih =>
    obtain ⟨hplain, hplains⟩ := List.forall_mem_cons.mp h
    obtain ⟨hle, hiff⟩ := ih hplains
    rw [textOf_cons, feeds_append, feeds_append, feeds_plain hplain, feeds_eol, List.length_cons,
      List.forall_mem_cons, ← hiff]
    by_cases hcr : l.2 = .cr
    · rw [if_pos hcr]
      refine ⟨by omega, ?_, ?_⟩
      · intro heq
        omega
      · intro hne
        exact absurd hcr hne.1
    · rw [if_neg hcr]
      refine ⟨by omega, ?_, ?_⟩
      · intro heq
        exact ⟨hcr, by omega⟩
      · intro hne
        omega

theorem wholeLines_textOf {lines : List (Text × Eol)} (h : ∀ l ∈ lines, l.2 ≠ .cr) :
    WholeLines (textOf lines) := by
  rcases List.eq_nil_or_concat lines with rfl | ⟨lines, l, rfl⟩
  · exact .inl rfl
  · have hcr := h l (by simp)
    refine .inr ?_
    cases heol : l.2 with
    | lf => exact ⟨textOf lines ++ l.1, by simp [textOf, heol, Eol.text]⟩
    | crlf => exact ⟨textOf lines ++ l.1 ++ ['\r'], by simp [textOf, heol, Eol.text]⟩
    | cr => exact absurd heol hcr

/-- The column is reached on the line, or the line ends before it. -/
theorem takeColumns_some {n : Nat} {text a b : Text} (h : takeColumns n text = some (a, b)) :
    text = a ++ b ∧ Plain a ∧ (units a = n ∨
      units a < n ∧ (b = [] ∨ ∃ c r, b = c :: r ∧ (c = '\r' ∨ c = '\n'))) := by
  induction text generalizing n a with
  | nil =>
    cases n with
    | zero =>
      cases h
      exact ⟨rfl, ⟨by simp, by simp⟩, .inl rfl⟩
    | succ n =>
      cases h
      exact ⟨rfl, ⟨by simp, by simp⟩, .inr ⟨Nat.succ_pos n, .inl rfl⟩⟩
  | cons c text ih =>
    cases n with
    | zero =>
      cases h
      exact ⟨rfl, ⟨by simp, by simp⟩, .inl rfl⟩
    | succ n =>
      rw [takeColumns] at h
      split_ifs at h with hend hle
      · cases h
        exact ⟨rfl, ⟨by simp, by simp⟩, .inr ⟨Nat.succ_pos n, .inr ⟨c, text, rfl, hend⟩⟩⟩
      · obtain ⟨⟨a', b'⟩, hrest, heq⟩ := Option.map_eq_some_iff.mp h
        cases heq
        obtain ⟨rfl, hplain, hunits⟩ := ih hrest
        rw [not_or] at hend
        refine ⟨rfl, ⟨?_, ?_⟩, ?_⟩
        · simp [hplain.1, Ne.symm hend.1]
        · simp [hplain.2, Ne.symm hend.2]
        · rw [units_cons]
          rcases hunits with hunits | ⟨hunits, hb⟩
          · exact .inl (by omega)
          · exact .inr ⟨by omega, hb⟩

/-! ## One position -/

theorem clientSplit_append {text p q : Text} {pos : Position}
    (h : clientSplit text pos = some (p, q)) : text = p ++ q := by
  unfold clientSplit at h
  split at h
  · cases h
    exact (List.append_nil text).symm
  next lines post hlines =>
    obtain ⟨⟨a, b⟩, hcolumns, heq⟩ := Option.map_eq_some_iff.mp h
    cases heq
    rw [(linesBefore_some hlines).1, (takeColumns_some hcolumns).1, List.append_assoc]

/-- A text up to a place is shorter than one that has more line feeds. -/
theorem len_lt_of_feeds_lt {p q a b : Text} (h : p ++ q = a ++ b) (hfeeds : feeds p < feeds a) :
    len p < len a := by
  rcases Nat.le_total p.length a.length with hle | hle
  · obtain ⟨x, rfl⟩ := List.prefix_of_prefix_length_le (List.prefix_append p q)
      (h ▸ List.prefix_append a b) hle
    have hx : x ≠ [] := by
      rintro rfl
      simp at hfeeds
    have hpos := len_pos hx
    rw [len_append]
    omega
  · obtain ⟨x, rfl⟩ := List.prefix_of_prefix_length_le (List.prefix_append a b)
      (h ▸ List.prefix_append p q) hle
    rw [feeds_append] at hfeeds
    omega

/-- The server finds the editor's place where the two agree on the position, and only there. -/
theorem offsetAt_iff {text p q : Text} {pos : Position} (h : clientSplit text pos = some (p, q)) :
    offsetAt text pos = some (len p) ↔ Agrees text pos := by
  have htext := clientSplit_append h
  unfold clientSplit at h
  unfold Agrees
  rw [offsetAt_eq, Option.some.injEq]
  cases hlines : linesBefore pos.line.toNat text with
  | none =>
    rw [hlines] at h
    cases h
    rw [afterFeeds_none.mpr (linesBefore_none hlines)]
    exact iff_of_true rfl trivial
  | some l =>
    obtain ⟨lines, post⟩ := l
    rw [hlines] at h
    obtain ⟨⟨a, b⟩, hcolumns, heq⟩ := Option.map_eq_some_iff.mp h
    cases heq
    dsimp only
    rw [hcolumns]
    dsimp only
    obtain ⟨hpost, hlength, hplains⟩ := linesBefore_some hlines
    obtain ⟨rfl, hplain, hunits⟩ := takeColumns_some hcolumns
    obtain ⟨hle, hiff⟩ := feeds_textOf hplains
    by_cases hcr : ∀ l ∈ lines, l.2 ≠ .cr
    · rw [hpost, ← hlength, ← hiff.mpr hcr, afterFeeds_wholeLines (wholeLines_textOf hcr)]
      dsimp only
      rw [len_append, Nat.add_left_cancel_iff]
      rcases hunits with hunits | ⟨hunits, rfl | ⟨c, r, rfl, rfl | rfl⟩⟩
      · exact iff_of_true (walk_column hplain.2 hunits) (.inr ⟨hcr, fun _ => hunits⟩)
      · exact iff_of_true ((walk_beyond hplain.2 hunits).1 (.inl rfl)) (.inl rfl)
      · refine iff_of_false (Nat.ne_of_gt ?_) ?_
        · exact (walk_beyond hplain.2 hunits).2 ⟨'\r', r, rfl, by decide⟩
        · rintro (hnil | ⟨-, hcolumn⟩)
          · cases hnil
          · exact Nat.ne_of_lt hunits (hcolumn rfl)
      · refine iff_of_true ((walk_beyond hplain.2 hunits).1 (.inr ⟨r, rfl⟩)) (.inr ⟨hcr, ?_⟩)
        intro hhead
        simp at hhead
    · have hlt : feeds (textOf lines ++ a) < pos.line.toNat := by
        have hne := mt hiff.mp hcr
        rw [feeds_append, feeds_plain hplain]
        omega
      have hq : (q = [] ∨ (∀ l ∈ lines, l.2 ≠ .cr) ∧
          (q.head? = some '\r' → units a = pos.character.toNat)) ↔ q = [] :=
        ⟨fun h => h.resolve_right fun hright => hcr hright.1, .inl⟩
      rw [hq]
      cases hafter : afterFeeds pos.line.toNat text with
      | none =>
        dsimp only
        rw [htext, len_append _ q]
        constructor
        · intro heq
          by_contra hne
          have hpos := len_pos hne
          omega
        · rintro rfl
          simp
      | some r =>
        obtain ⟨a', b'⟩ := r
        obtain ⟨htext', hfeeds⟩ := afterFeeds_some hafter
        have hshort := len_lt_of_feeds_lt (htext.symm.trans htext') (by omega)
        refine iff_of_false ?_ ?_
        · exact Nat.ne_of_gt (Nat.lt_of_lt_of_le hshort (Nat.le_add_right _ _))
        · rintro rfl
          have htotal := congrArg feeds (htext.symm.trans htext')
          rw [List.append_nil, feeds_append a'] at htotal
          omega

/-! ## Changes -/

/-- Two places of a text, the first not after the second. -/
theorem splits_le {text p q p' q' : Text} (h : text = p ++ q) (h' : text = p' ++ q')
    (hle : p.length ≤ p'.length) : len p ≤ len p' := by
  obtain ⟨x, rfl⟩ := List.prefix_of_prefix_length_le (List.prefix_append p q)
    ((h.symm.trans h') ▸ List.prefix_append p' q') hle
  rw [len_append]
  exact Nat.le_add_right _ _

/-- What the editor replaces, the server replaces, when they agree on both ends. -/
theorem replaceRange_eq {text p q p' q' new : Text} {range : Range}
    (hstart : clientSplit text range.start = some (p, q))
    (hstop : clientSplit text range.stop = some (p', q')) (hle : p.length ≤ p'.length)
    (hagrees : Agrees text range.start ∧ Agrees text range.stop) :
    replaceRange text range new = .ok (p ++ new ++ q') := by
  have htext := clientSplit_append hstart
  have htext' := clientSplit_append hstop
  have hnot := Nat.not_lt.mpr (splits_le htext htext' hle)
  have hsplit := htext ▸ splitAt_append p q
  have hsplit' := htext' ▸ splitAt_append p' q'
  unfold replaceRange
  rw [(offsetAt_iff hstart).mpr hagrees.1, (offsetAt_iff hstop).mpr hagrees.2]
  dsimp only
  rw [if_neg hnot, hsplit, hsplit']

/-- Texts that are the same around all that can be put between them. -/
theorem around_eq {x y p q : Text} (h : ∀ new, x ++ new ++ y = p ++ new ++ q) : x = p ∧ y = q := by
  have hshorter : ∀ {x y p q : Text}, (∀ new, x ++ new ++ y = p ++ new ++ q) →
      ¬ x.length < p.length := by
    intro x y p q h hlt
    have hempty := h []
    rw [List.append_nil, List.append_nil] at hempty
    obtain ⟨z, rfl⟩ := List.prefix_of_prefix_length_le (hempty ▸ List.prefix_append x y)
      (List.prefix_append p q) (Nat.le_of_lt hlt)
    cases z with
    | nil => simp at hlt
    | cons c z =>
      have hother : ∃ d : Char, d ≠ c := by
        by_cases hc : c = 'a'
        · exact ⟨'b', by rw [hc]; decide⟩
        · exact ⟨'a', Ne.symm hc⟩
      obtain ⟨d, hd⟩ := hother
      have hd' := h [d]
      simp only [List.append_assoc, List.cons_append, List.nil_append] at hd'
      exact hd (List.head_eq_of_cons_eq (List.append_cancel_left hd'))
  have hlength : x.length = p.length := by
    have h1 := hshorter h
    have h2 := hshorter fun new => (h new).symm
    omega
  have hempty := h []
  rw [List.append_nil, List.append_nil] at hempty
  exact List.append_inj hempty hlength

/-- The server does what the editor does, whatever the range is replaced by, where they agree on
both ends and only there. -/
theorem replaceRange_iff {text p q p' q' : Text} {range : Range}
    (hstart : clientSplit text range.start = some (p, q))
    (hstop : clientSplit text range.stop = some (p', q')) (hle : p.length ≤ p'.length) :
    (∀ new, replaceRange text range new = .ok (p ++ new ++ q')) ↔
      Agrees text range.start ∧ Agrees text range.stop := by
  constructor
  · intro h
    have htext' := clientSplit_append hstop
    obtain ⟨start, hs⟩ : ∃ start, offsetAt text range.start = some start :=
      ⟨_, offsetAt_eq text range.start⟩
    obtain ⟨stop, he⟩ : ∃ stop, offsetAt text range.stop = some stop :=
      ⟨_, offsetAt_eq text range.stop⟩
    unfold replaceRange at h
    rw [hs, he] at h
    dsimp only at h
    by_cases hlt : stop < start
    · simp [if_pos hlt] at h
    · simp only [if_neg hlt] at h
      rcases hx : splitAt text start with _ | ⟨x, x'⟩
      · simp [hx] at h
      · rcases hy : splitAt text stop with _ | ⟨y', y⟩
        · simp [hx, hy] at h
        · simp only [hx, hy, Applied.ok.injEq] at h
          obtain ⟨rfl, rfl⟩ := around_eq h
          obtain ⟨-, rfl⟩ := splitAt_some hx
          obtain ⟨hy', rfl⟩ := splitAt_some hy
          have hsame := List.append_cancel_right (hy'.symm.trans htext')
          rw [hsame] at he
          exact ⟨(offsetAt_iff hstart).mp hs, (offsetAt_iff hstop).mp he⟩
  · exact fun hagrees new => replaceRange_eq hstart hstop hle hagrees

/-- A change that the editor makes with a range. -/
theorem clientChange_range {text new next : Text} {range : Range}
    (h : clientChange text ⟨some range, new⟩ = some next) :
    ∃ p q p' q', clientSplit text range.start = some (p, q) ∧
      clientSplit text range.stop = some (p', q') ∧ p.length ≤ p'.length ∧
      next = p ++ new ++ q' := by
  obtain ⟨⟨p, q⟩, hstart, h⟩ := Option.bind_eq_some_iff.mp h
  obtain ⟨⟨p', q'⟩, hstop, h⟩ := Option.bind_eq_some_iff.mp h
  dsimp only at h
  split_ifs at h with hlt
  cases h
  exact ⟨p, q, p', q', hstart, hstop, Nat.not_lt.mp hlt, rfl⟩

/-- The texts stay the same over changes that are in step. -/
theorem applyDocumentChanges_eq {text next : Text} {changes : List ContentChange}
    (h : clientChanges text changes = some next) (hstep : InStep text changes) :
    applyDocumentChanges text changes = .ok next := by
  induction changes generalizing text with
  | nil =>
    cases h
    rfl
  | cons change changes ih =>
    obtain ⟨mid, hchange, h⟩ := Option.bind_eq_some_iff.mp h
    have hih := ih h (hstep.2 mid hchange)
    obtain ⟨range, new⟩ := change
    cases range with
    | none =>
      cases hchange
      exact hih
    | some range =>
      obtain ⟨p, q, p', q', hstart, hstop, hle, rfl⟩ := clientChange_range hchange
      have hagrees := hstep.1 range rfl
      rw [applyDocumentChanges]
      dsimp only
      rw [replaceRange_eq hstart hstop hle hagrees]
      exact hih

/-! ## Offsets and positions -/

/-- The lines and the columns of a text are numbers of 32 bits. -/
def Fits (text : Text) : Prop :=
  feeds text < 2 ^ 32 ∧ ∀ a line b, text = a ++ line ++ b → '\n' ∉ line → units line < 2 ^ 32

/-- `is_char_boundary`. -/
def IsCharBoundary (text : Text) (o : Nat) : Prop := (splitAt text o).isSome

/-- A position before another one. -/
def Position.Before (p q : Position) : Prop :=
  p.line < q.line ∨ p.line = q.line ∧ p.character < q.character

/-- Before a boundary are whole lines and a part of the next one. -/
theorem IsCharBoundary.exists {text : Text} {o : Nat} (h : IsCharBoundary text o) :
    ∃ a b post, text = a ++ b ++ post ∧ len (a ++ b) = o ∧ WholeLines a ∧ '\n' ∉ b := by
  obtain ⟨⟨before, post⟩, hsplit⟩ := Option.isSome_iff_exists.mp h
  obtain ⟨rfl, rfl⟩ := splitAt_some hsplit
  obtain ⟨a, b, rfl, ha, hb⟩ := exists_wholeLines before
  exact ⟨a, b, post, rfl, rfl, ha, hb⟩

/-- The numbers of a position in a text that fits. -/
theorem Fits.toNat {a b post : Text} (h : Fits (a ++ b ++ post)) (hb : '\n' ∉ b) :
    (UInt32.ofNat (feeds a)).toNat = feeds a ∧ (UInt32.ofNat (units b)).toNat = units b := by
  refine ⟨UInt32.toNat_ofNat_of_lt' ?_, UInt32.toNat_ofNat_of_lt' (h.2 a b post rfl hb)⟩
  have hfeeds := h.1
  rw [feeds_append, feeds_append] at hfeeds
  exact Nat.lt_of_le_of_lt (by omega) hfeeds

/-- The position of a boundary is the position of no other offset. -/
theorem offsetAt_positionAt {text : Text} (h : Fits text) {o : Nat} (ho : IsCharBoundary text o) :
    ∃ pos, positionAt text o = some pos ∧ offsetAt text pos = some o := by
  obtain ⟨a, b, post, rfl, rfl, ha, hb⟩ := ho.exists
  obtain ⟨hline, hcharacter⟩ := h.toNat hb
  refine ⟨_, positionAt_eq ha hb post, ?_⟩
  rw [offsetAt_eq, hline, List.append_assoc, afterFeeds_wholeLines ha]
  dsimp only
  rw [walk_column hb hcharacter.symm, len_append]

/-- A later boundary has a later position. -/
theorem positionAt_before {text : Text} (h : Fits text) {o o' : Nat} (ho : IsCharBoundary text o)
    (ho' : IsCharBoundary text o') (hlt : o < o') :
    ∃ pos pos', positionAt text o = some pos ∧ positionAt text o' = some pos' ∧
      pos.Before pos' := by
  obtain ⟨a, b, post, htext, rfl, ha, hb⟩ := ho.exists
  obtain ⟨⟨before, post'⟩, hsplit⟩ := Option.isSome_iff_exists.mp ho'
  obtain ⟨htext', rfl⟩ := splitAt_some hsplit
  have hprefix : a ++ b <+: before := by
    rcases Nat.le_total (a ++ b).length before.length with hle | hle
    · exact List.prefix_of_prefix_length_le (htext ▸ List.prefix_append (a ++ b) post)
        (htext' ▸ List.prefix_append before post') hle
    · have hge := splits_le htext' htext hle
      omega
  obtain ⟨x, rfl⟩ := hprefix
  have hx : x ≠ [] := by
    rintro rfl
    rw [List.append_nil] at hlt
    exact Nat.lt_irrefl _ hlt
  have hposition : positionAt text (len (a ++ b)) =
      some ⟨UInt32.ofNat (feeds a), UInt32.ofNat (units b)⟩ := by
    rw [htext]
    exact positionAt_eq ha hb post
  obtain ⟨hline, hcharacter⟩ := (htext ▸ h : Fits (a ++ b ++ post)).toNat hb
  by_cases hfeed : '\n' ∈ x
  · obtain ⟨c, d, hcd, hc, hd⟩ := exists_wholeLines (a ++ b ++ x)
    rw [hcd] at htext' ⊢
    have hposition' : positionAt text (len (c ++ d)) =
        some ⟨UInt32.ofNat (feeds c), UInt32.ofNat (units d)⟩ := by
      rw [htext']
      exact positionAt_eq hc hd post'
    obtain ⟨hline', -⟩ := (htext' ▸ h : Fits (c ++ d ++ post')).toNat hd
    refine ⟨_, _, hposition, hposition', .inl ?_⟩
    have hfeeds := congrArg feeds hcd
    have hzero := feeds_eq_zero.mpr hb
    have hzero' := feeds_eq_zero.mpr hd
    have hpos : feeds x ≠ 0 := fun h0 => feeds_eq_zero.mp h0 hfeed
    simp only [feeds_append] at hfeeds
    rw [UInt32.lt_iff_toNat_lt, hline, hline']
    omega
  · have hbx : '\n' ∉ b ++ x := by simp [hb, hfeed]
    have hassoc : text = a ++ (b ++ x) ++ post' := by
      rw [htext', List.append_assoc a b x]
    rw [List.append_assoc]
    have hposition' : positionAt text (len (a ++ (b ++ x))) =
        some ⟨UInt32.ofNat (feeds a), UInt32.ofNat (units (b ++ x))⟩ := by
      rw [hassoc]
      exact positionAt_eq ha hbx post'
    obtain ⟨-, hcharacter'⟩ := (hassoc ▸ h : Fits (a ++ (b ++ x) ++ post')).toNat hbx
    refine ⟨_, _, hposition, hposition', .inr ⟨rfl, ?_⟩⟩
    have hpos : 0 < units x := by
      cases x with
      | nil => exact absurd rfl hx
      | cons c x =>
        rw [units_cons]
        exact Nat.add_pos_left (lenUtf16_pos c) _
    rw [UInt32.lt_iff_toNat_lt, hcharacter, hcharacter', units_append]
    exact Nat.lt_add_of_pos_right hpos

/-- A part of a text with so many units, or one more. -/
theorem exists_units (n : Nat) (text : Text) (h : n ≤ units text) :
    ∃ p r, text = p ++ r ∧ n ≤ units p ∧ units p ≤ n + 1 := by
  induction text generalizing n with
  | nil => exact ⟨[], [], rfl, h, Nat.zero_le _⟩
  | cons c text ih =>
    rw [units_cons] at h
    have htwo : (lenUtf16 c).toNat ≤ 2 := by
      unfold lenUtf16
      split <;> decide
    by_cases hn : n ≤ (lenUtf16 c).toNat
    · by_cases hzero : n = 0
      · exact ⟨[], c :: text, rfl, Nat.le_of_eq hzero, Nat.zero_le _⟩
      · refine ⟨[c], text, rfl, ?_, ?_⟩
        · rw [units_cons, units_nil]
          omega
        · rw [units_cons, units_nil]
          omega
    · obtain ⟨p, r, rfl, hle, hge⟩ := ih (n - (lenUtf16 c).toNat) (by omega)
      refine ⟨c :: p, r, rfl, ?_, ?_⟩
      · rw [units_cons]
        omega
      · rw [units_cons]
        omega

/-- At column zero or one the walk takes one character at most. -/
theorem walk_le_one {character : UInt32} (h : character.toNat ≤ 1) (c : Char) (text : Text) :
    walk character 0 (c :: text) ≤ c.utf8Size := by
  have hle : character ≤ 0 + lenUtf16 c := by
    rw [UInt32.zero_add, UInt32.le_iff_toNat_le]
    exact Nat.le_trans h (lenUtf16_pos c)
  rw [walk, walk_of_le hle]
  split
  · exact Nat.zero_le _
  · exact Nat.le_refl _

/-- A boundary with whole lines and a part of a line before it. -/
theorem isCharBoundary_append (a b : Text) : IsCharBoundary (a ++ b) (len a) := by
  unfold IsCharBoundary
  rw [splitAt_append]
  rfl

/-- Where every boundary comes back from its position, the lines and columns fit. -/
theorem fits_of_offsetAt_positionAt {text : Text} (h : ∀ o, IsCharBoundary text o →
    ∃ pos, positionAt text o = some pos ∧ offsetAt text pos = some o) : Fits text := by
  have hback : ∀ (a b post : Text), text = a ++ b ++ post → WholeLines a → '\n' ∉ b →
      offsetAt text ⟨UInt32.ofNat (feeds a), UInt32.ofNat (units b)⟩ = some (len (a ++ b)) := by
    intro a b post htext ha hb
    obtain ⟨pos, hpos, hoffset⟩ := h _ (htext ▸ isCharBoundary_append (a ++ b) post)
    rw [htext, positionAt_eq ha hb post] at hpos
    cases hpos
    exact hoffset
  have hfeeds : feeds text < 2 ^ 32 := by
    by_contra hge
    cases hafter : afterFeeds (2 ^ 32) text with
    | none => exact hge (afterFeeds_none.mp hafter)
    | some p =>
      obtain ⟨a, b⟩ := p
      obtain ⟨htext, hcount⟩ := afterFeeds_some hafter
      have hoffset := hback _ [] b (by rw [htext, List.append_nil])
        (wholeLines_afterFeeds hafter) (by simp)
      have hzero : UInt32.ofNat (feeds a) = 0 := by
        rw [hcount]
        rfl
      have hne : a ≠ [] := by
        rintro rfl
        cases hcount
      have hpos := len_pos hne
      rw [hzero, offsetAt_eq, List.append_nil, Option.some.injEq] at hoffset
      have hstart : afterFeeds (0 : UInt32).toNat text = some ([], text) := by
        cases text <;> rfl
      rw [hstart] at hoffset
      dsimp only at hoffset
      rw [units_nil, len_nil, Nat.zero_add] at hoffset
      exact Nat.ne_of_lt hpos ((walk_of_le UInt32.zero_le text).symm.trans hoffset)
  refine ⟨hfeeds, fun x line y htext hline => ?_⟩
  by_contra hge
  obtain ⟨a, b, rfl, ha, hb⟩ := exists_wholeLines x
  obtain ⟨p, r, hp, hlo, hhi⟩ := exists_units (2 ^ 32) (b ++ line) (by
    rw [units_append]
    omega)
  have hplain : '\n' ∉ p := fun hmem => by
    have hin : '\n' ∈ b ++ line := hp ▸ List.mem_append_left r hmem
    rcases List.mem_append.mp hin with hin | hin
    · exact hb hin
    · exact hline hin
  have hsplit : text = a ++ p ++ (r ++ y) := by
    rw [htext, List.append_assoc a b, hp]
    simp
  have hoffset := hback _ _ _ hsplit ha hplain
  have hline : (UInt32.ofNat (feeds a)).toNat = feeds a := by
    refine UInt32.toNat_ofNat_of_lt' (Nat.lt_of_le_of_lt ?_ hfeeds)
    rw [hsplit, feeds_append, feeds_append]
    omega
  have hcharacter : (UInt32.ofNat (units p)).toNat ≤ 1 := by
    rw [UInt32.toNat_ofNat']
    omega
  rw [offsetAt_eq, hline, hsplit, List.append_assoc, afterFeeds_wholeLines ha] at hoffset
  dsimp only at hoffset
  rw [Option.some.injEq, len_append, Nat.add_left_cancel_iff] at hoffset
  rcases p with _ | ⟨c, _ | ⟨d, p⟩⟩
  · simp at hlo
  · rw [units_cons, units_nil] at hlo
    have htwo := (lenUtf16 c).toNat_lt
    omega
  · have hle : walk _ 0 (c :: d :: p ++ (r ++ y)) ≤ c.utf8Size := walk_le_one hcharacter c _
    have hpos := Char.utf8Size_pos d
    rw [hoffset, len_cons, len_cons] at hle
    omega

/-- One range, whatever it is replaced by: the server does what the editor does where they agree on
both ends, and only there. All changes: the texts stay the same while they are in step. And offsets
and positions are of each other, in order, where the numbers fit, and only there. -/
theorem document_in_step_iff (text : Text) :
    (∀ range, clientChange text ⟨some range, []⟩ ≠ none →
      ((∀ new next, clientChange text ⟨some range, new⟩ = some next →
          applyDocumentChanges text [⟨some range, new⟩] = .ok next) ↔
        Agrees text range.start ∧ Agrees text range.stop)) ∧
    (∀ changes next, clientChanges text changes = some next → InStep text changes →
      applyDocumentChanges text changes = .ok next) ∧
    (((∀ o, IsCharBoundary text o →
          ∃ pos, positionAt text o = some pos ∧ offsetAt text pos = some o) ∧
        ∀ o o', IsCharBoundary text o → IsCharBoundary text o' → o < o' →
          ∃ pos pos', positionAt text o = some pos ∧ positionAt text o' = some pos' ∧
            pos.Before pos') ↔
      Fits text) := by
  refine ⟨fun range hrange => ?_, fun changes next => applyDocumentChanges_eq, ?_⟩
  · obtain ⟨next, hnext⟩ := Option.ne_none_iff_exists'.mp hrange
    obtain ⟨p, q, p', q', hstart, hstop, hle, -⟩ := clientChange_range hnext
    rw [← replaceRange_iff hstart hstop hle]
    have happly : ∀ new, applyDocumentChanges text [⟨some range, new⟩] =
        replaceRange text range new := by
      intro new
      rw [applyDocumentChanges]
      dsimp only
      cases replaceRange text range new <;> rfl
    have hclient : ∀ new, clientChange text ⟨some range, new⟩ = some (p ++ new ++ q') := by
      intro new
      simp [clientChange, hstart, hstop, Nat.not_lt.mpr hle]
    constructor
    · intro h new
      rw [← happly]
      exact h new _ (hclient new)
    · intro h new next hnext
      rw [hclient] at hnext
      cases hnext
      rw [happly]
      exact h new
  · constructor
    · exact fun h => fits_of_offsetAt_positionAt h.1
    · exact fun h => ⟨fun o => offsetAt_positionAt h, fun o o' => positionAt_before h⟩

/-- The notifications of a session: what the editor makes of its text, while all of it is in step.
-/
inductive Session : Text → List (List ContentChange) → Text → Prop
  | nil (text : Text) : Session text [] text
  | cons {text mid next : Text} {changes : List ContentChange} {notes : List (List ContentChange)} :
    clientChanges text changes = some mid → InStep text changes → Session mid notes next →
      Session text (changes :: notes) next

/-- After each notification of a session the server has the text of the editor. -/
theorem Session.in_step {text next : Text} {notes : List (List ContentChange)}
    (h : Session text notes next) : notes.foldl didChange (some text) = some next := by
  induction h with
  | nil text => rfl
  | cons hclient hstep _ ih =>
    rw [List.foldl_cons, didChange, Option.map_some, applyDocumentChanges_eq hclient hstep]
    exact ih

/-- With a lone CR the server looks for the second line in the first. -/
theorem lone_cr_drifts : ∃ text changes next, clientChanges text changes = some next ∧
    applyDocumentChanges text changes ≠ .ok next :=
  ⟨['a', '\r', 'b'], [⟨some ⟨⟨1, 0⟩, ⟨1, 0⟩⟩, ['x']⟩], ['a', '\r', 'x', 'b'], by decide, by decide⟩

end lsp
