-- The pretty rendering of a `Json` is its rendering but for white space in no string, and it
-- returns where its margins are no wider than an `i64`.
import OtterFusion.Stdlib.JsonRender

open base.trapping base.json

namespace stdlib.json

variable {F : Type} {toStr : F → Text}

/-! ## Strings and numbers keep their text -/

theorem strip_escapeChar (c : Char) (s : Text) :
    strip .inside (escapeChar c ++ s) = escapeChar c ++ strip .inside s := by
  rcases escapeChar_cases c with ⟨hquote, hslash, _, heq⟩ | ⟨e, heq, _, _⟩ | ⟨a, b, heq, hunit, _⟩
  · rw [heq, List.singleton_append, strip, if_neg hquote, if_neg hslash]
    rfl
  · rw [heq]
    rfl
  · rw [heq]
    have hchar : ∀ d : Char, ((base.json.hexDigit d).isSome = true) → d ≠ '"' ∧ d ≠ '\\' := by
      intro d hd
      refine ⟨?_, ?_⟩
      · rintro rfl
        cases hd
      · rintro rfl
        cases hd
    have hdigits : (base.json.hexDigit a).isSome = true ∧ (base.json.hexDigit b).isSome = true := by
      unfold codeUnit at hunit
      cases ha : base.json.hexDigit a with
      | none =>
        rw [ha] at hunit
        cases hunit
      | some n =>
        cases hb : base.json.hexDigit b with
        | none =>
          rw [ha, hb] at hunit
          cases hunit
        | some m => exact ⟨rfl, rfl⟩
    obtain ⟨haq, has⟩ := hchar a hdigits.1
    obtain ⟨hbq, hbs⟩ := hchar b hdigits.2
    simp [strip, haq, has, hbq, hbs]

theorem stripsTo_quoted (s : Text) : StripsTo (quoted s) (quoted s) := by
  have hinside : ∀ (s r : Text), strip .inside (escapeString s ++ '"' :: r) =
      escapeString s ++ '"' :: strip .outside r := by
    intro s r
    induction s with
    | nil => rfl
    | cons c s ih =>
      rw [escapeString_cons, List.append_assoc, strip_escapeChar, ih, List.append_assoc]
  intro r
  rw [reads_quoted, reads_quoted]
  exact congrArg ('"' :: ·) (hinside s r)

theorem stripsTo_number {t : Text} (h : NumberText t) : StripsTo t t := by
  refine stripsTo_self fun c hc => ?_
  have hnumber := h.chars c hc
  refine ⟨?_, ?_⟩
  · cases hblank : isBlank c with
    | false => rfl
    | true =>
      rcases isBlank_cases hblank with rfl | rfl | rfl | rfl <;> cases hnumber
  · rintro rfl
    cases hnumber

/-- A text without white space and strings. -/
theorem stripsTo_mark {t : Text} (h : ∀ c ∈ t, isBlank c = false ∧ c ≠ '"') {s s' : Text}
    (hs : StripsTo s s') : StripsTo (s ++ t) (s' ++ t) := hs.append (stripsTo_self h)

/-! ## The rendering -/

theorem stripsTo_separated {out out' blank : Text} (hout : StripsTo out out')
    (hblank : ∀ c ∈ blank, isBlank c = true) (first : Bool) :
    StripsTo (separated out first (',' :: blank)) (separated out' first [',']) := by
  cases first with
  | true => exact hout
  | false =>
    have hcomma :=
      (stripsTo_mark (t := [',']) (by simp [isBlank]) hout).append (stripsTo_blank hblank)
    rwa [List.append_nil, List.append_assoc] at hcomma

theorem stripsTo_items {items : List (Json F)}
    (hitems : ∀ v ∈ items, StripsTo (render toStr v) (render toStr v)) {out : Text} {first : Bool}
    (hout : StripsTo out out) :
    StripsTo (renderItems toStr out first items) (renderItems toStr out first items) := by
  induction items generalizing out first with
  | nil => exact hout
  | cons v items ih =>
    obtain ⟨hv, hrest⟩ := List.forall_mem_cons.mp hitems
    rw [renderItems]
    exact ih hrest ((stripsTo_separated hout (by simp [isBlank]) first).append hv)

theorem stripsTo_entries {entries : List (Text × Json F)}
    (hentries : ∀ m ∈ entries, StripsTo (render toStr m.2) (render toStr m.2)) {out : Text}
    {first : Bool}
    (hout : StripsTo out out) :
    StripsTo (renderEntries toStr out first entries) (renderEntries toStr out first entries) := by
  induction entries generalizing out first with
  | nil => exact hout
  | cons m entries ih =>
    obtain ⟨key, v⟩ := m
    obtain ⟨hv, hrest⟩ := List.forall_mem_cons.mp hentries
    rw [renderEntries]
    exact ih hrest ((stripsTo_mark (by simp [isBlank])
      ((stripsTo_separated hout (by simp [isBlank]) first).append (stripsTo_quoted key))).append hv)

/-- A rendering has white space in strings only. -/
theorem stripsTo_render {finite : F → Prop} (hnumber : ∀ x, finite x → NumberText (toStr x))
    (v : Json F) (hv : ∀ x ∈ numbers v, finite x) : StripsTo (render toStr v) (render toStr v) := by
  induction v using Value.induct with
  | null =>
    have hmark : ∀ c ∈ ['n', 'u', 'l', 'l'], isBlank c = false ∧ c ≠ '"' := by simp [isBlank]
    exact stripsTo_self hmark
  | bool b =>
    have htrue : ∀ c ∈ ['t', 'r', 'u', 'e'], isBlank c = false ∧ c ≠ '"' := by simp [isBlank]
    have hfalse : ∀ c ∈ ['f', 'a', 'l', 's', 'e'], isBlank c = false ∧ c ≠ '"' := by simp [isBlank]
    cases b with
    | true => exact stripsTo_self htrue
    | false => exact stripsTo_self hfalse
  | number x => exact stripsTo_number (hnumber x (hv x (List.mem_singleton_self x)))
  | str s => exact stripsTo_quoted s
  | array items ih =>
    refine stripsTo_mark (by simp [isBlank]) (stripsTo_items ?_ (stripsTo_self (by simp [isBlank])))
    exact fun v hmem => ih v hmem fun x hx => hv x (mem_itemNumbers.mpr ⟨v, hmem, hx⟩)
  | object entries ih =>
    refine stripsTo_mark (by simp [isBlank])
      (stripsTo_entries ?_ (stripsTo_self (by simp [isBlank])))
    exact fun m hmem => ih m hmem fun x hx => hv x (mem_entryNumbers.mpr ⟨m, hmem, hx⟩)

/-! ## Margins -/

theorem indent_ends {depth width : Int} (hlo : -2 ^ 63 ≤ depth * width)
    (hhi : depth * width < 2 ^ 63) :
    (indent depth width).Ends (fun margin => ∀ c ∈ margin, isBlank c = true) (fun _ => False) := by
  refine ends_i64 hlo hhi (@Ending.loop_ends _ _ _ _ _ _ _ (indentTurn (depth * width))
    (fun s => 0 ≤ s.2 ∧ ∀ c ∈ s.1, isBlank c = true) (fun s => (depth * width - s.2).toNat) ?_ _ _
    ⟨Int.le_refl 0, List.forall_mem_nil _⟩ ?_)
  · rintro ⟨out, i⟩ ⟨hi, hout⟩
    unfold indentTurn
    dsimp only at hi hout ⊢
    split
    · rw [i64_bind (by omega)]
      refine ⟨⟨by omega, fun c hc => ?_⟩, by omega⟩
      rcases List.mem_append.mp hc with hc | hc
      · exact hout c hc
      · rw [List.mem_singleton.mp hc]
        rfl
    · exact hout
  · show (depth * width - 0).toNat < _
    omega

theorem indent_blank {depth width : Int} {margin : Text} (h : indent depth width = .value margin) :
    ∀ c ∈ margin, isBlank c = true := by
  obtain ⟨total, htotal, _⟩ := Ending.value_of_bind.mp h
  obtain ⟨_, hlo, hhi⟩ := i64_iff.mp htotal
  exact (indent_ends hlo hhi).of_value h

/-! ## The pretty rendering -/

/-- Each pretty rendering of the value, at each depth, is its rendering but for white space. -/
def PrettyStrips (toStr : F → Text) (v : Json F) : Prop :=
  ∀ {depth width : Int} {t : Text}, prettyAt toStr depth width v = .value t →
    StripsTo t (render toStr v)

section pretty

attribute [local simp] prettyAt prettyItems prettyEntries

variable {depth width : Int}

theorem prettyItems_strips {items : List (Json F)} (hitems : ∀ v ∈ items, PrettyStrips toStr v)
    {out out' t : Text} {first : Bool} (hout : StripsTo out out')
    (h : prettyItems toStr depth width out first items = .value t) :
    StripsTo t (renderItems toStr out' first items) := by
  induction items generalizing out out' first with
  | nil =>
    cases h
    exact hout
  | cons v items ih =>
    obtain ⟨hv, hrest⟩ := List.forall_mem_cons.mp hitems
    rw [prettyItems] at h
    obtain ⟨_, _, h⟩ := Ending.value_of_bind.mp h
    obtain ⟨margin, hmargin, h⟩ := Ending.value_of_bind.mp h
    obtain ⟨_, _, h⟩ := Ending.value_of_bind.mp h
    obtain ⟨text, htext, h⟩ := Ending.value_of_bind.mp h
    have hturn := ((@stripsTo_separated _ _ ['\n'] hout (by simp [isBlank]) first).append
      (stripsTo_blank (indent_blank hmargin))).append (hv htext)
    rw [List.append_nil] at hturn
    rw [renderItems]
    exact ih hrest hturn h

theorem prettyEntries_strips {entries : List (Text × Json F)}
    (hentries : ∀ m ∈ entries, PrettyStrips toStr m.2) {out out' t : Text} {first : Bool}
    (hout : StripsTo out out') (h : prettyEntries toStr depth width out first entries = .value t) :
    StripsTo t (renderEntries toStr out' first entries) := by
  induction entries generalizing out out' first with
  | nil =>
    cases h
    exact hout
  | cons m entries ih =>
    obtain ⟨key, v⟩ := m
    obtain ⟨hv, hrest⟩ := List.forall_mem_cons.mp hentries
    rw [prettyEntries] at h
    obtain ⟨_, _, h⟩ := Ending.value_of_bind.mp h
    obtain ⟨margin, hmargin, h⟩ := Ending.value_of_bind.mp h
    obtain ⟨_, _, h⟩ := Ending.value_of_bind.mp h
    obtain ⟨text, htext, h⟩ := Ending.value_of_bind.mp h
    have hmargin' := (@stripsTo_separated _ _ ['\n'] hout (by simp [isBlank]) first).append
      (stripsTo_blank (indent_blank hmargin))
    rw [List.append_nil] at hmargin'
    have hcolon : StripsTo [':', ' '] [':'] := fun r => by simp [strip, isBlank]
    have hturn := ((hmargin'.append (stripsTo_quoted key)).append hcolon).append (hv htext)
    rw [renderEntries]
    exact ih hrest hturn h

/-- A value without items, and each value without a width, is rendered as before. -/
theorem prettyAt_narrow (hwidth : width ≤ 0) (v : Json F) :
    prettyAt toStr depth width v = .value (render toStr v) := by
  cases v <;> exact if_pos hwidth

theorem prettyAt_scalar {v : Json F} (harray : ∀ items, v ≠ .array items)
    (hobject : ∀ entries, v ≠ .object entries) :
    prettyAt toStr depth width v = .value (render toStr v) := by
  by_cases hwidth : width ≤ 0
  · exact prettyAt_narrow hwidth v
  · cases v with
    | array items => exact absurd rfl (harray items)
    | object entries => exact absurd rfl (hobject entries)
    | null => exact if_neg hwidth
    | bool b => exact if_neg hwidth
    | number x => exact if_neg hwidth
    | str s => exact if_neg hwidth

/-- The text of a value with items: they stand between brackets and line breaks. -/
theorem prettyAt_array {items : List (Json F)} {t : Text}
    (h : prettyAt toStr depth width (.array items) = .value t) :
    t = render toStr (.array items) ∨ ∃ out margin,
      prettyItems toStr depth width ['[', '\n'] true items = .value out ∧
      indent depth width = .value margin ∧ t = out ++ ['\n'] ++ margin ++ [']'] := by
  rw [prettyAt] at h
  split at h
  · cases h
    exact .inl rfl
  split at h
  · rename_i hempty
    rw [List.length_eq_zero_iff] at hempty
    subst hempty
    cases h
    exact .inl rfl
  · obtain ⟨out, hout, h⟩ := Ending.value_of_bind.mp h
    obtain ⟨margin, hmargin, h⟩ := Ending.value_of_bind.mp h
    cases h
    exact .inr ⟨out, margin, hout, hmargin, rfl⟩

theorem prettyAt_object {entries : List (Text × Json F)} {t : Text}
    (h : prettyAt toStr depth width (.object entries) = .value t) :
    t = render toStr (.object entries) ∨ ∃ out margin,
      prettyEntries toStr depth width ['{', '\n'] true entries = .value out ∧
      indent depth width = .value margin ∧ t = out ++ ['\n'] ++ margin ++ ['}'] := by
  rw [prettyAt] at h
  split at h
  · cases h
    exact .inl rfl
  split at h
  · rename_i hempty
    rw [List.length_eq_zero_iff] at hempty
    subst hempty
    cases h
    exact .inl rfl
  · obtain ⟨out, hout, h⟩ := Ending.value_of_bind.mp h
    obtain ⟨margin, hmargin, h⟩ := Ending.value_of_bind.mp h
    cases h
    exact .inr ⟨out, margin, hout, hmargin, rfl⟩

theorem stripsTo_closed {out out' margin close : Text} (hout : StripsTo out out')
    (hmargin : ∀ c ∈ margin, isBlank c = true) (hclose : ∀ c ∈ close, isBlank c = false ∧ c ≠ '"') :
    StripsTo (out ++ ['\n'] ++ margin ++ close) (out' ++ close) := by
  have hbreak : StripsTo ['\n'] [] := stripsTo_blank (by simp [isBlank])
  have hall := stripsTo_mark hclose ((hout.append hbreak).append (stripsTo_blank hmargin))
  rwa [List.append_nil, List.append_nil] at hall

theorem prettyStrips {finite : F → Prop} (hnumber : ∀ x, finite x → NumberText (toStr x))
    (v : Json F) (hv : ∀ x ∈ numbers v, finite x) : PrettyStrips toStr v := by
  induction v using Value.induct with
  | array items ih =>
    have hitems : ∀ v ∈ items, PrettyStrips toStr v :=
      fun v hmem => ih v hmem fun x hx => hv x (mem_itemNumbers.mpr ⟨v, hmem, hx⟩)
    intro depth width t h
    rcases prettyAt_array h with rfl | ⟨out, margin, hout, hmargin, rfl⟩
    · exact stripsTo_render hnumber _ hv
    · have hopen : StripsTo ['[', '\n'] ['['] := fun r => by simp [strip, isBlank]
      exact stripsTo_closed (prettyItems_strips hitems hopen hout) (indent_blank hmargin)
        (by simp [isBlank])
  | object entries ih =>
    have hentries : ∀ m ∈ entries, PrettyStrips toStr m.2 :=
      fun m hmem => ih m hmem fun x hx => hv x (mem_entryNumbers.mpr ⟨m, hmem, hx⟩)
    intro depth width t h
    rcases prettyAt_object h with rfl | ⟨out, margin, hout, hmargin, rfl⟩
    · exact stripsTo_render hnumber _ hv
    · have hopen : StripsTo ['{', '\n'] ['{'] := fun r => by simp [strip, isBlank]
      exact stripsTo_closed (prettyEntries_strips hentries hopen hout) (indent_blank hmargin)
        (by simp [isBlank])
  | _ =>
    intro depth width t h
    rw [prettyAt_scalar (fun _ h => by cases h) (fun _ h => by cases h)] at h
    cases h
    exact stripsTo_render hnumber _ hv

/-! ## Where it returns -/

mutual

/-- How many arrays and objects stand around the innermost item. -/
def nesting : Json F → Nat
  | .null => 0
  | .bool _ => 0
  | .number _ => 0
  | .str _ => 0
  | .array items => itemNesting items
  | .object entries => entryNesting entries

def itemNesting : List (Json F) → Nat
  | [] => 0
  | item :: items => max (nesting item + 1) (itemNesting items)

def entryNesting : List (Text × Json F) → Nat
  | [] => 0
  | (_, value) :: entries => max (nesting value + 1) (entryNesting entries)

end

attribute [local simp] nesting itemNesting entryNesting

/-- No margin down to the innermost item of the value is wider than an `i64`. -/
def Narrow (depth width : Int) (nesting : Nat) : Prop :=
  0 ≤ depth ∧ (depth + nesting) * width < 2 ^ 63

variable {n m : Nat}

theorem Narrow.mono (h : Narrow depth width n) (hwidth : 0 < width) (hle : m ≤ n) :
    Narrow depth width m :=
  ⟨h.1, Int.lt_of_le_of_lt
    (Int.mul_le_mul_of_nonneg_right (show depth + (m : Int) ≤ depth + n by omega)
      (Int.le_of_lt hwidth))
    h.2⟩

theorem Narrow.deeper (h : Narrow depth width (n + 1)) : Narrow (depth + 1) width n := by
  obtain ⟨hdepth, hlt⟩ := h
  refine ⟨by omega, ?_⟩
  rwa [show depth + ((n + 1 : Nat) : Int) = depth + 1 + (n : Int) by omega] at hlt

theorem Narrow.indent (h : Narrow depth width n) (hwidth : 0 < width) :
    (indent depth width).Safe := by
  obtain ⟨hdepth, hlt⟩ := h.mono hwidth (Nat.zero_le n)
  rw [Int.natCast_zero, Int.add_zero] at hlt
  have hpos := Int.mul_nonneg hdepth (Int.le_of_lt hwidth)
  exact (indent_ends (by omega) hlt).safe

theorem Narrow.depth_lt (h : Narrow depth width n) (hwidth : 0 < width) : depth < 2 ^ 63 := by
  obtain ⟨hdepth, hlt⟩ := h.mono hwidth (Nat.zero_le n)
  rw [Int.natCast_zero, Int.add_zero] at hlt
  have hle := Int.mul_le_mul_of_nonneg_left (show 1 ≤ width by omega) hdepth
  omega

/-- The margin and the text of an item, for the turn of a loop over the items. -/
theorem item_safe {v : Json F} {B : Type} {f : Text → Text → Panics B}
    (hwidth : 0 < width) (hnarrow : Narrow depth width (nesting v + 1))
    (hv : (prettyAt toStr (depth + 1) width v).Safe) (hf : ∀ margin text, (f margin text).Safe) :
    (do
      let margin ← indent (← i64 (depth + 1)) width
      let text ← prettyAt toStr (← i64 (depth + 1)) width v
      f margin text : Panics B).Safe := by
  have hdeep := hnarrow.deeper
  have hfits := hdeep.depth_lt hwidth
  have hpos := hdeep.1
  rw [i64_bind ⟨by omega, hfits⟩, Ending.safe_bind]
  refine ⟨hdeep.indent hwidth, fun margin _ => ?_⟩
  rw [i64_bind ⟨by omega, hfits⟩, Ending.safe_bind]
  exact ⟨hv, fun text _ => hf margin text⟩

theorem prettyItems_safe {items : List (Json F)} (hwidth : 0 < width)
    (hitems : ∀ v ∈ items, ∀ {depth : Int}, Narrow depth width (nesting v) →
      (prettyAt toStr depth width v).Safe)
    (hnarrow : Narrow depth width (itemNesting items)) {out : Text} {first : Bool} :
    (prettyItems toStr depth width out first items).Safe := by
  induction items generalizing out first with
  | nil => exact Ending.safe_value out
  | cons v items ih =>
    obtain ⟨hv, hrest⟩ := List.forall_mem_cons.mp hitems
    have hitem : Narrow depth width (nesting v + 1) := hnarrow.mono hwidth (Nat.le_max_left _ _)
    rw [prettyItems]
    exact item_safe hwidth hitem (hv hitem.deeper)
      fun _ _ => ih hrest (hnarrow.mono hwidth (Nat.le_max_right _ _))

theorem prettyEntries_safe {entries : List (Text × Json F)} (hwidth : 0 < width)
    (hentries : ∀ m ∈ entries, ∀ {depth : Int}, Narrow depth width (nesting m.2) →
      (prettyAt toStr depth width m.2).Safe)
    (hnarrow : Narrow depth width (entryNesting entries)) {out : Text} {first : Bool} :
    (prettyEntries toStr depth width out first entries).Safe := by
  induction entries generalizing out first with
  | nil => exact Ending.safe_value out
  | cons m entries ih =>
    obtain ⟨key, v⟩ := m
    obtain ⟨hv, hrest⟩ := List.forall_mem_cons.mp hentries
    have hitem : Narrow depth width (nesting v + 1) := hnarrow.mono hwidth (Nat.le_max_left _ _)
    rw [prettyEntries]
    exact item_safe hwidth hitem (hv hitem.deeper)
      fun _ _ => ih hrest (hnarrow.mono hwidth (Nat.le_max_right _ _))

theorem prettyAt_safe (hwidth : 0 < width) (v : Json F) :
    ∀ {depth : Int}, Narrow depth width (nesting v) → (prettyAt toStr depth width v).Safe := by
  induction v using Value.induct with
  | array items ih =>
    intro depth hnarrow
    rw [prettyAt, if_neg (by omega)]
    split
    · exact Ending.safe_value _
    · rw [Ending.safe_bind]
      refine ⟨prettyItems_safe hwidth ih hnarrow, fun _ _ => ?_⟩
      rw [Ending.safe_bind]
      exact ⟨hnarrow.indent hwidth, fun _ _ => Ending.safe_value _⟩
  | object entries ih =>
    intro depth hnarrow
    rw [prettyAt, if_neg (by omega)]
    split
    · exact Ending.safe_value _
    · rw [Ending.safe_bind]
      refine ⟨prettyEntries_safe hwidth ih hnarrow, fun _ _ => ?_⟩
      rw [Ending.safe_bind]
      exact ⟨hnarrow.indent hwidth, fun _ _ => Ending.safe_value _⟩
  | _ =>
    intro depth _
    rw [prettyAt_scalar (fun _ h => by cases h) (fun _ h => by cases h)]
    exact Ending.safe_value _

theorem pretty_returns (v : Json F) (h : nesting v * width < 2 ^ 63) :
    ∃ t, pretty toStr v width = .value t := by
  have hsafe : (pretty toStr v width).Safe := by
    by_cases hwidth : width ≤ 0
    · unfold pretty
      rw [prettyAt_narrow hwidth]
      exact Ending.safe_value _
    · exact prettyAt_safe (by omega) v ⟨Int.le_refl 0, by rwa [Int.zero_add]⟩
  cases hpretty : pretty toStr v width with
  | value t => exact ⟨t, rfl⟩
  | error e => exact e.elim
  | trap t => exact absurd hpretty (hsafe t)

end pretty

/-! ## What a rendering denotes -/

/-- The rendering of a value whose numbers are finite is a text of the grammar and denotes the value
only, escaping is undone by reading, and the pretty rendering is the rendering but for white space
in no string. -/
theorem render_denotes {finite : F → Prop} {read : Text → F}
    (hnumber : ∀ x, finite x → NumberText (toStr x)) (hread : ∀ x, finite x → read (toStr x) = x)
    (v : Json F) (hv : ∀ x ∈ numbers v, finite x) :
    (∀ w, Denotes read (render toStr v) w ↔ w = v) ∧
    (∀ s r, readChars (escapeString s ++ '"' :: r) = some (s, r)) ∧
    (∀ s t, escapeString s = escapeString t → s = t) ∧
    (∀ width t, pretty toStr v width = .value t →
      strip .outside t = strip .outside (render toStr v) ∧
      strip .outside (render toStr v) = render toStr v) ∧
    (∀ width : Int, nesting v * width < 2 ^ 63 → ∃ t, pretty toStr v width = .value t) := by
  have hdenotes : Denotes read (render toStr v) v := by
    have hreads := reads_render hnumber hread v hv [] (fun _ h => by cases h)
    rw [List.append_nil] at hreads
    refine ⟨[], ?_, rfl⟩
    rwa [skip_of_reads hreads]
  have hall : ∀ {s t : Text}, StripsTo s t → strip .outside s = t := by
    intro s t h
    have hend := h []
    rwa [List.append_nil, show strip .outside [] = [] from rfl, List.append_nil] at hend
  have hself := hall (stripsTo_render hnumber v hv)
  refine ⟨fun w => ⟨fun h => h.unique hdenotes, ?_⟩, readChars_escapeString,
    fun s t => escapeString_injective, fun width t h => ⟨?_, hself⟩, fun width => pretty_returns v⟩
  · rintro rfl
    exact hdenotes
  · rw [hself]
    exact hall (prettyStrips hnumber v hv h)

/-- The text of a number of one digit. -/
def oneDigit (n : Fin 10) : Text := [Char.ofNat (48 + n.val)]

/-- The number of a text of one digit. -/
def readDigit (t : Text) : Fin 10 := Fin.ofNat 10 ((t.headD '0').toNat - 48)

/-- An array with an object whose key has a quotation mark and a control character. -/
def nested : Json (Fin 10) :=
  .array [.object [(['a', '"', Char.ofNat 1], .number 7)], .null, .str ['\n', '😀'], .array []]

theorem render_denotes_at :
    (∀ w, Denotes readDigit (render oneDigit nested) w ↔ w = nested) ∧
    (∀ s r, readChars (escapeString s ++ '"' :: r) = some (s, r)) ∧
    (∀ s t, escapeString s = escapeString t → s = t) ∧
    (∀ width t, pretty oneDigit nested width = .value t →
      strip .outside t = strip .outside (render oneDigit nested) ∧
      strip .outside (render oneDigit nested) = render oneDigit nested) ∧
    (∀ width : Int, nesting nested * width < 2 ^ 63 → ∃ t, pretty oneDigit nested width =
      .value t) := by
  refine @render_denotes (Fin 10) oneDigit (fun _ => True) readDigit ?_ (by decide) nested
    fun _ _ => trivial
  intro x _
  have hdigit : ∀ x : Fin 10, (oneDigit x = ['0'] ∨ (oneDigit x).head? ≠ some '0') ∧
      (oneDigit x).all Char.isDigit = true := by decide
  obtain ⟨hhead, hchars⟩ := hdigit x
  exact ⟨[], oneDigit x, [],
    [], by simp, .inl rfl, ⟨⟨List.cons_ne_nil _ _, List.all_eq_true.mp hchars⟩, hhead⟩,
    .inl rfl, .inl rfl⟩

end stdlib.json
