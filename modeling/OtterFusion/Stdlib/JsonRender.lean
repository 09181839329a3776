-- The rendering of a `Json` reads as that value and as no other, and its pretty rendering is the
-- same text but for white space in no string.
import Mathlib.Tactic.IntervalCases
import OtterFusion.Stdlib.Json

open base.trapping base.json

namespace stdlib.json

/-! ## Strings -/

theorem escapeString_nil : escapeString [] = [] := rfl

theorem escapeString_cons (c : Char) (s : Text) :
    escapeString (c :: s) = escapeChar c ++ escapeString s := by
  have hout : ∀ (s out : Text), s.foldl (fun out ch => out ++ escapeChar ch) out =
      out ++ escapeString s := by
    intro s
    induction s with
    | nil => simp [escapeString]
    | cons d s ih =>
      intro out
      unfold escapeString
      rw [List.foldl_cons, List.foldl_cons, ih, ih, List.nil_append, List.append_assoc]
  exact hout s (escapeChar c)

/-- Each digit is read back. -/
theorem hexDigit_reads {n : Nat} (h : n < 16) :
    ∃ c, hexDigit n = [c] ∧ base.json.hexDigit c = some n ∧ isBlank c = false := by
  interval_cases n <;> exact ⟨_, rfl, rfl, rfl⟩

/-- A control character is written as its code unit. -/
theorem escapeControl_reads {n : Nat} (h : n < 32) :
    ∃ a b, escapeControl n = ['\\', 'u', '0', '0', a, b] ∧ codeUnit '0' '0' a b = some n := by
  obtain ⟨a, ha, hread, _⟩ := hexDigit_reads (show n / 16 < 16 by omega)
  obtain ⟨b, hb, hread', _⟩ := hexDigit_reads (show n % 16 < 16 by omega)
  refine ⟨a, b, ?_, ?_⟩
  · unfold escapeControl
    rw [Int.tdiv_eq_ediv_of_nonneg (by omega), Int.tmod_eq_emod_of_nonneg (by omega)]
    rw [show ((n : Int) / 16) = ((n / 16 : Nat) : Int) by omega,
      show ((n : Int) % 16) = ((n % 16 : Nat) : Int) by omega, ha, hb]
    rfl
  · unfold codeUnit
    rw [hread, hread']
    show some (0 * 4096 + 0 * 256 + n / 16 * 16 + n % 16) = some n
    congr 1
    omega

/-- What a character is written as. -/
theorem escapeChar_cases (c : Char) :
    (c ≠ '"' ∧ c ≠ '\\' ∧ 32 ≤ c.toNat ∧ escapeChar c = [c]) ∨
    (∃ e, escapeChar c = ['\\', e] ∧ e ≠ 'u' ∧ escaped e = some c) ∨
    (∃ a b, escapeChar c = ['\\', 'u', '0', '0', a, b] ∧ codeUnit '0' '0' a b = some c.toNat ∧
      c.toNat < 32) := by
  unfold escapeChar
  dsimp only
  split
  · subst_vars
    exact .inr (.inl ⟨_, rfl, by decide, rfl⟩)
  split
  · subst_vars
    exact .inr (.inl ⟨_, rfl, by decide, rfl⟩)
  split
  · subst_vars
    exact .inr (.inl ⟨_, rfl, by decide, rfl⟩)
  split
  · subst_vars
    exact .inr (.inl ⟨_, rfl, by decide, rfl⟩)
  split
  · subst_vars
    exact .inr (.inl ⟨_, rfl, by decide, rfl⟩)
  rename_i hquote hslash _ _ _
  have hofNat : ∀ {n : Nat}, codePoint c = n → Char.ofNat n = c := by
    intro n hn
    have hc : c.toNat = n := Int.ofNat.inj hn
    rw [← hc, Char.ofNat_toNat]
  split
  · rename_i hcp
    exact .inr (.inl ⟨'b', rfl, by decide, congrArg some (hofNat hcp)⟩)
  split
  · rename_i hcp
    exact .inr (.inl ⟨'f', rfl, by decide, congrArg some (hofNat hcp)⟩)
  split
  · rename_i hcontrol
    have hlt : c.toNat < 32 := by
      unfold codePoint at hcontrol
      omega
    obtain ⟨a, b, heq, hunit⟩ := escapeControl_reads hlt
    exact .inr (.inr ⟨a, b, heq, hunit, hlt⟩)
  · rename_i hplain
    unfold codePoint at hplain
    exact .inl ⟨hquote, hslash, by omega, rfl⟩

theorem readChars_escapeChar (c : Char) (s : Text) :
    readChars (escapeChar c ++ s) = base.json.before c (readChars s) := by
  rcases escapeChar_cases c with ⟨hquote, hslash, hplain, heq⟩ | ⟨e, heq, hu, he⟩ |
    ⟨a, b, heq, hunit, hlt⟩
  · rw [heq]
    exact readChars_plain hquote hslash hplain
  · rw [heq]
    exact readChars_escape hu he
  · rw [heq]
    have hread := readChars_unit (s := s) hunit (.inl (by omega))
    rwa [Char.ofNat_toNat] at hread

/-- An escaped string reads as the string. -/
theorem readChars_escapeString (s r : Text) :
    readChars (escapeString s ++ '"' :: r) = some (s, r) := by
  induction s with
  | nil => exact readChars_quote
  | cons c s ih =>
    rw [escapeString_cons, List.append_assoc, readChars_escapeChar, ih]
    rfl

theorem escapeString_injective {s t : Text} (h : escapeString s = escapeString t) : s = t := by
  have hs := readChars_escapeString s []
  rw [h, readChars_escapeString] at hs
  cases hs
  rfl

/-! ## Items and entries -/

variable {F : Type} {toStr : F → Text}

attribute [local simp] render renderItems renderEntries

theorem separated_append (out out' : Text) (first : Bool) (separator : Text) :
    separated (out ++ out') first separator = out ++ separated out' first separator := by
  cases first with
  | true => rfl
  | false => exact List.append_assoc out out' separator

theorem renderItems_append (out out' : Text) (first : Bool) (items : List (Json F)) :
    renderItems toStr (out ++ out') first items = out ++ renderItems toStr out' first items := by
  induction items generalizing out' first with
  | nil => rfl
  | cons item items ih =>
    rw [renderItems, renderItems, separated_append, List.append_assoc, ih]

theorem renderItems_first (item : Json F) (items : List (Json F)) :
    renderItems toStr [] true (item :: items) =
      render toStr item ++ renderItems toStr [] false items := by
  rw [renderItems]
  have hout := @renderItems_append F toStr (render toStr item) [] false items
  rwa [List.append_nil] at hout

theorem renderItems_next (item : Json F) (items : List (Json F)) :
    renderItems toStr [] false (item :: items) =
      ',' :: render toStr item ++ renderItems toStr [] false items := by
  rw [renderItems]
  have hout := @renderItems_append F toStr (',' :: render toStr item) [] false items
  rwa [List.append_nil] at hout

theorem renderEntries_append (out out' : Text) (first : Bool) (entries : List (Text × Json F)) :
    renderEntries toStr (out ++ out') first entries = out ++
      renderEntries toStr out' first entries := by
  induction entries generalizing out' first with
  | nil => rfl
  | cons entry entries ih =>
    obtain ⟨key, value⟩ := entry
    rw [renderEntries, renderEntries, separated_append]
    simp only [List.append_assoc]
    exact ih _ false

theorem renderEntries_first (key : Text) (value : Json F) (entries : List (Text × Json F)) :
    renderEntries toStr [] true ((key, value) :: entries) =
      quoted key ++ [':'] ++ render toStr value ++ renderEntries toStr [] false entries := by
  rw [renderEntries]
  have hout := @renderEntries_append F toStr (quoted key ++ [':'] ++ render toStr value) []
    false entries
  rwa [List.append_nil] at hout

theorem renderEntries_next (key : Text) (value : Json F) (entries : List (Text × Json F)) :
    renderEntries toStr [] false ((key, value) :: entries) =
      ',' :: quoted key ++ [':'] ++ render toStr value ++ renderEntries toStr [] false entries := by
  rw [renderEntries]
  have hout := @renderEntries_append F toStr (',' :: quoted key ++ [':'] ++ render toStr value)
    [] false entries
  rwa [List.append_nil] at hout

theorem render_array (items : List (Json F)) :
    render toStr (.array items) = '[' :: (renderItems toStr [] true items ++ [']']) := by
  rw [render]
  have hout := @renderItems_append F toStr ['['] [] true items
  rw [List.append_nil] at hout
  rw [hout]
  rfl

theorem render_object (entries : List (Text × Json F)) :
    render toStr (.object entries) = '{' :: (renderEntries toStr [] true entries ++ ['}']) := by
  rw [render]
  have hout := @renderEntries_append F toStr ['{'] [] true entries
  rw [List.append_nil] at hout
  rw [hout]
  rfl

/-! ## The text of a value -/

mutual

/-- The numbers of a value. -/
def numbers : Json F → List F
  | .null => []
  | .bool _ => []
  | .number x => [x]
  | .str _ => []
  | .array items => itemNumbers items
  | .object entries => entryNumbers entries

def itemNumbers : List (Json F) → List F
  | [] => []
  | item :: items => numbers item ++ itemNumbers items

def entryNumbers : List (Text × Json F) → List F
  | [] => []
  | (_, value) :: entries => numbers value ++ entryNumbers entries

end

attribute [local simp] numbers itemNumbers entryNumbers

theorem mem_itemNumbers {x : F} {items : List (Json F)} :
    x ∈ itemNumbers items ↔ ∃ v ∈ items, x ∈ numbers v := by
  induction items with
  | nil => simp [itemNumbers]
  | cons v items ih => simp [itemNumbers, ih]

theorem mem_entryNumbers {x : F} {entries : List (Text × Json F)} :
    x ∈ entryNumbers entries ↔ ∃ m ∈ entries, x ∈ numbers m.2 := by
  induction entries with
  | nil => simp [entryNumbers]
  | cons m entries ih =>
    obtain ⟨key, v⟩ := m
    simp [entryNumbers, ih]

theorem skip_cons {c : Char} (s : Text) (h : isBlank c = false) : skip (c :: s) = c :: s :=
  List.dropWhile_cons_of_neg (by rw [h]; decide)

theorem stops_cons {c : Char} (s : Text) (h : isNumberChar c = false) : Stops (c :: s) := by
  intro d hd
  cases hd
  exact h

variable {read : Text → F}

theorem isBlank_cases {c : Char} (h : isBlank c = true) : c = ' ' ∨ c = '\t' ∨ c = '\n' ∨
    c = '\r' := by
  simpa [isBlank, or_assoc] using h

/-- White space starts no value. -/
theorem kindAt_blank {c : Char} (h : isBlank c = true) : kindAt c = none := by
  rcases isBlank_cases h with rfl | rfl | rfl | rfl <;> rfl

theorem skip_of_reads {v : Json F} {s r : Text} (h : Reads read v s r) : skip s = s := by
  obtain ⟨c, rest, rfl, hc⟩ := h.starts
  refine skip_cons rest ?_
  cases hblank : isBlank c with
  | false => rfl
  | true =>
    rw [kindAt_blank hblank] at hc
    cases hc

theorem reads_quoted (s r : Text) : quoted s ++ r = '"' :: (escapeString s ++ '"' :: r) := by
  simp [quoted]

/-- A value is read from its rendering, before a text where a number ends. -/
def RendersBack (toStr : F → Text) (read : Text → F) (v : Json F) : Prop :=
  ∀ r, Stops r → Reads read v (render toStr v ++ r) r

theorem readsItems_render {v : Json F} {items : List (Json F)} (hv : RendersBack toStr read v)
    (hitems : ∀ w ∈ items, RendersBack toStr read w) (r : Text) :
    ReadsItems read (v :: items)
      (render toStr v ++ (renderItems toStr [] false items ++ ']' :: r)) r := by
  induction items generalizing v with
  | nil =>
    have hread := hv (']' :: r) (stops_cons r rfl)
    refine ⟨']' :: r, ?_, .inl ⟨rfl, skip_cons r rfl⟩⟩
    rw [renderItems, List.nil_append, skip_of_reads hread]
    exact hread
  | cons w items ih =>
    obtain ⟨hw, hrest⟩ := List.forall_mem_cons.mp hitems
    have hnext := ih hw hrest
    rw [renderItems_next]
    simp only [List.cons_append, List.append_assoc]
    have hread := hv (',' :: (render toStr w ++ (renderItems toStr [] false items ++ ']' :: r)))
      (stops_cons _ rfl)
    refine ⟨_, ?_, .inr ⟨_, skip_cons _ rfl, hnext⟩⟩
    rw [skip_of_reads hread]
    exact hread

theorem readsMembers_render {key : Text} {v : Json F} {entries : List (Text × Json F)}
    (hv : RendersBack toStr read v) (hentries : ∀ m ∈ entries, RendersBack toStr read m.2)
    (r : Text) :
    ReadsMembers read ((key, v) :: entries)
      (quoted key ++ ':' :: (render toStr v ++ (renderEntries toStr [] false entries ++ '}' :: r)))
        r := by
  induction entries generalizing key v with
  | nil =>
    have hread := hv ('}' :: r) (stops_cons r rfl)
    rw [renderEntries, List.nil_append, reads_quoted]
    refine ⟨_, _, _, _, skip_cons _ rfl, readChars_escapeString key _, skip_cons _ rfl, ?_,
      .inl ⟨rfl, skip_cons r rfl⟩⟩
    rw [skip_of_reads hread]
    exact hread
  | cons m entries ih =>
    obtain ⟨key', w⟩ := m
    obtain ⟨hw, hrest⟩ := List.forall_mem_cons.mp hentries
    have hnext := @ih key' w hw hrest
    rw [renderEntries_next, reads_quoted]
    simp only [List.cons_append, List.append_assoc, List.nil_append]
    have hread := hv (',' :: (quoted key' ++ ':' :: (render toStr w ++
      (renderEntries toStr [] false entries ++ '}' :: r)))) (stops_cons _ rfl)
    refine ⟨_, _, _, _, skip_cons _ rfl, readChars_escapeString key _, skip_cons _ rfl, ?_,
      .inr ⟨_, skip_cons _ rfl, hnext⟩⟩
    rw [skip_of_reads hread]
    exact hread

/-- The rendering reads as the value. `hnumber` and `hread` are what the runtime gives for the text
of a finite number: it has the form of a number, and it is read back. -/
theorem reads_render {finite : F → Prop} (hnumber : ∀ x, finite x → NumberText (toStr x))
    (hread : ∀ x, finite x → read (toStr x) = x) (v : Json F) (hv : ∀ x ∈ numbers v, finite x) :
    RendersBack toStr read v := by
  induction v using Value.induct with
  | null => exact fun r _ => rfl
  | bool b =>
    intro r _
    cases b with
    | true => rfl
    | false => rfl
  | number x =>
    have hx := hv x (List.mem_singleton_self x)
    exact fun r hr => ⟨toStr x, rfl, hnumber x hx, hr, hread x hx⟩
  | str s => exact fun r _ => ⟨_, reads_quoted s r, readChars_escapeString s r⟩
  | array items ih =>
    intro r _
    have hitems : ∀ v ∈ items, RendersBack toStr read v :=
      fun v hmem => ih v hmem fun x hx => hv x (mem_itemNumbers.mpr ⟨v, hmem, hx⟩)
    rw [render_array]
    refine ⟨renderItems toStr [] true items ++ ']' :: r, by simp, ?_⟩
    cases items with
    | nil => exact .inl ⟨rfl, skip_cons r rfl⟩
    | cons v items =>
      obtain ⟨hfirst, hrest⟩ := List.forall_mem_cons.mp hitems
      rw [renderItems_first, List.append_assoc]
      exact .inr (readsItems_render hfirst hrest r)
  | object entries ih =>
    intro r _
    have hentries : ∀ m ∈ entries, RendersBack toStr read m.2 :=
      fun m hmem => ih m hmem fun x hx => hv x (mem_entryNumbers.mpr ⟨m, hmem, hx⟩)
    rw [render_object]
    refine ⟨renderEntries toStr [] true entries ++ '}' :: r, by simp, ?_⟩
    cases entries with
    | nil => exact .inl ⟨rfl, skip_cons r rfl⟩
    | cons m entries =>
      obtain ⟨key, v⟩ := m
      obtain ⟨hfirst, hrest⟩ := List.forall_mem_cons.mp hentries
      rw [renderEntries_first]
      simp only [List.append_assoc, List.cons_append, List.nil_append]
      exact .inr (readsMembers_render hfirst hrest r)

/-! ## One line -/

/-- No character is a control character. -/
def Printable (s : Text) : Prop := ∀ c ∈ s, 0x20 ≤ c.toNat

theorem Printable.append {s t : Text} (hs : Printable s) (ht : Printable t) :
    Printable (s ++ t) := by
  intro c hc
  rcases List.mem_append.mp hc with hc | hc
  · exact hs c hc
  · exact ht c hc

theorem escaped_printable {c e : Char} (h : escaped e = some c) : 0x20 ≤ e.toNat := by
  unfold escaped at h
  repeat' split at h
  all_goals cases h
  all_goals subst_vars
  all_goals decide

theorem hexDigit_printable {c : Char} {n : Nat} (h : base.json.hexDigit c = some n) :
    0x20 ≤ c.toNat := by
  by_contra hlt
  have hzero : ¬ '0' ≤ c := fun hle => hlt (Nat.le_trans (by decide) (Char.le_def.mp hle))
  have hupper : ¬ 'A' ≤ c := fun hle => hlt (Nat.le_trans (by decide) (Char.le_def.mp hle))
  have hlower : ¬ 'a' ≤ c := fun hle => hlt (Nat.le_trans (by decide) (Char.le_def.mp hle))
  simp [base.json.hexDigit, hzero, hupper, hlower] at h

theorem printable_escapeChar (c : Char) : Printable (escapeChar c) := by
  rcases escapeChar_cases c with ⟨_, _, hplain, heq⟩ | ⟨e, heq, _, he⟩ | ⟨a, b, heq, hunit, _⟩
  · rw [heq]
    simpa [Printable] using hplain
  · rw [heq]
    simpa [Printable] using escaped_printable he
  · rw [heq]
    obtain ⟨_, ha, hunit⟩ := Option.bind_eq_some_iff.mp hunit
    obtain ⟨_, hb, _⟩ := Option.bind_eq_some_iff.mp hunit
    simpa [Printable] using ⟨hexDigit_printable ha, hexDigit_printable hb⟩

theorem printable_quoted (s : Text) : Printable (quoted s) := by
  have hescape : Printable (escapeString s) := by
    induction s with
    | nil => simp [Printable, escapeString_nil]
    | cons c s ih =>
      rw [escapeString_cons]
      exact (printable_escapeChar c).append ih
  have hquote : Printable ['"'] := by simp [Printable]
  exact (hquote.append hescape).append hquote

theorem printable_separated {out : Text} (hout : Printable out) (first : Bool) :
    Printable (separated out first [',']) := by
  have hcomma : Printable [','] := by simp [Printable]
  cases first with
  | true => exact hout
  | false => exact hout.append hcomma

/-- A rendering is on one line. -/
theorem printable_render (hnumber : ∀ x, Printable (toStr x)) (v : Json F) :
    Printable (render toStr v) := by
  induction v using Value.induct with
  | null => simp [Printable, render]
  | bool b => cases b <;> simp [Printable, render]
  | number x => exact hnumber x
  | str s => exact printable_quoted s
  | array items ih =>
    have hitems : ∀ (items : List (Json F)), (∀ v ∈ items, Printable (render toStr v)) →
        ∀ {out : Text} {first : Bool}, Printable out →
          Printable (renderItems toStr out first items) := by
      intro items hitems
      induction items with
      | nil => exact fun hout => hout
      | cons v items ih =>
        obtain ⟨hv, hrest⟩ := List.forall_mem_cons.mp hitems
        intro out first hout
        rw [renderItems]
        exact ih hrest ((printable_separated hout first).append hv)
    have hbrackets : Printable ['['] ∧ Printable [']'] := by simp [Printable]
    exact (hitems items ih hbrackets.1).append hbrackets.2
  | object entries ih =>
    have hentries : ∀ (entries : List (Text × Json F)),
        (∀ m ∈ entries, Printable (render toStr m.2)) →
        ∀ {out : Text} {first : Bool}, Printable out →
          Printable (renderEntries toStr out first entries) := by
      intro entries hentries
      induction entries with
      | nil => exact fun hout => hout
      | cons m entries ih =>
        obtain ⟨key, v⟩ := m
        obtain ⟨hv, hrest⟩ := List.forall_mem_cons.mp hentries
        intro out first hout
        have hcolon : Printable [':'] := by simp [Printable]
        rw [renderEntries]
        exact ih hrest
          ((((printable_separated hout first).append (printable_quoted key)).append hcolon).append
            hv)
    have hbraces : Printable ['{'] ∧ Printable ['}'] := by simp [Printable]
    exact (hentries entries ih hbraces.1).append hbraces.2

end stdlib.json
