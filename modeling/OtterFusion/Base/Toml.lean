-- A reader of TOML documents made of comments, headers of array tables, and bare keys with an
-- integer or a basic string. It tells what such a document means, which texts are no TOML, and
-- which ones use more of TOML than it reads.
import Mathlib.Algebra.Order.Ring.Nat
import Mathlib.Data.List.TakeWhile
import OtterFusion.Base.Trapping

open base.trapping

namespace base.toml

/-! ## Documents -/

/-- A value of a key. -/
inductive Value
  | integer (n : Nat)
  | string (s : List Char)
  deriving DecidableEq

/-- The keys of a table in their order. -/
abbrev Table := List (List Char × Value)

/-- A document: the keys of the root, and the array tables with their names, the last one first. -/
structure Document where
  root : Table
  tables : List (List Char × Table)
  deriving DecidableEq

/-- Why a text is no TOML. -/
inductive Malformed
  | control (c : Char)
  | unclosed
  | duplicate (key : List Char)
  deriving DecidableEq

/-- The text may be TOML, but not of this form. -/
inductive Beyond
  | beyond
  deriving DecidableEq

/-- What the reader finds. -/
abbrev Reading (A : Type) := Ending Beyond Malformed A

/-- A value under a new key. -/
def Table.set (t : Table) (key : List Char) (v : Value) : Reading Table :=
  if key ∈ t.map Prod.fst then .error (.duplicate key) else .value (t ++ [(key, v)])

/-- A key of the current table. -/
def Document.addKey (d : Document) (key : List Char) (v : Value) : Reading Document :=
  match d.tables with
  | [] => do .value { d with root := ← d.root.set key v }
  | (name, t) :: ts => do .value { d with tables := (name, ← t.set key v) :: ts }

/-- The next table of an array. -/
def Document.addTable (d : Document) (name : List Char) : Reading Document :=
  if name ∈ d.root.map Prod.fst then .error (.duplicate name)
  else .value { d with tables := (name, []) :: d.tables }

/-! ## Characters -/

/-- The control characters that stand in no string and, but for a carriage return at the end of a
line, in no comment. -/
def isControl (c : Char) : Bool := c.toNat < 0x20 && c != '\t' || c.toNat == 0x7F

def isSpace (c : Char) : Bool := c == ' ' || c == '\t'

/-- The characters of a bare key. -/
def isBare (c : Char) : Bool := c.isAlphanum || c == '-' || c == '_'

/-- The escapes of one character. -/
def unescape (c : Char) : Option Char :=
  match c with
  | 'b' => some '\x08'
  | 't' => some '\t'
  | 'n' => some '\n'
  | 'f' => some '\x0c'
  | 'r' => some '\r'
  | '"' => some '"'
  | '\\' => some '\\'
  | _ => none

/-! ## Lines -/

/-- A basic string after its opening quote, and what follows its closing quote. -/
def readBasic : List Char → Reading (List Char × List Char)
  | [] => .error .unclosed
  | '"' :: rest => .value ([], rest)
  | ['\\'] => .error .unclosed
  | '\\' :: c :: rest =>
    match unescape c with
    | some c => do
      let (s, rest) ← readBasic rest
      .value (c :: s, rest)
    | none => .trap .beyond
  | c :: rest =>
    if isControl c then .error (.control c)
    else do
      let (s, rest) ← readBasic rest
      .value (c :: s, rest)

/-- A value, and what follows it. A reader need not read an integer outside 64 bits. -/
def readValue (text : List Char) : Reading (Value × List Char) :=
  match text with
  | '"' :: '"' :: '"' :: _ => .trap .beyond
  | '"' :: rest => do
    let (s, rest) ← readBasic rest
    .value (.string s, rest)
  | _ =>
    let digits := text.takeWhile Char.isDigit
    if digits = [] ∨ digits.head? = some '0' ∧ digits ≠ ['0'] ∨
        2 ^ 63 ≤ Nat.ofDigitChars 10 digits 0 then .trap .beyond
    else .value (.integer (Nat.ofDigitChars 10 digits 0), text.dropWhile Char.isDigit)

/-- The end of a line. -/
def readEnd (text : List Char) : Reading Unit :=
  match text.dropWhile isSpace with
  | [] => .value ()
  | '#' :: comment => if comment.any isControl then .trap .beyond else .value ()
  | _ => .trap .beyond

/-- A key and its value. -/
def readKey (d : Document) (text : List Char) : Reading Document :=
  if text.takeWhile isBare = [] then .trap .beyond
  else match (text.dropWhile isBare).dropWhile isSpace with
    | '=' :: rest => do
      let (v, rest) ← readValue (rest.dropWhile isSpace)
      readEnd rest
      d.addKey (text.takeWhile isBare) v
    | _ => .trap .beyond

/-- The header of an array table, after its opening brackets. -/
def readHeader (d : Document) (text : List Char) : Reading Document :=
  if text.takeWhile isBare = [] then .trap .beyond
  else match text.dropWhile isBare with
    | ']' :: ']' :: rest => do
      readEnd rest
      d.addTable (text.takeWhile isBare)
    | _ => .trap .beyond

/-- One line. -/
def readLine (d : Document) (line : List Char) : Reading Document :=
  match line.dropWhile isSpace with
  | '[' :: '[' :: rest => readHeader d rest
  | [] => do
    readEnd []
    .value d
  | '#' :: comment => do
    readEnd ('#' :: comment)
    .value d
  | text => readKey d text

/-- The lines of a text, after what was read before. -/
def readFrom (d : Document) (text : List Char) : Reading Document :=
  (text.splitOn '\n').foldlM readLine d

/-- A text. -/
def read (text : List Char) : Reading Document := readFrom ⟨[], []⟩ text

/-! ## One line after another -/

variable {d : Document} {line rest : List Char}

theorem readFrom_line (h : '\n' ∉ line) :
    readFrom d (line ++ '\n' :: rest) = readLine d line >>= fun d => readFrom d rest := by
  have hsplit : (line ++ '\n' :: rest).splitOn '\n' = line :: rest.splitOn '\n' := by
    refine List.splitOnP_append_cons_of_forall_mem (fun c hc => ?_) '\n' rfl rest
    rw [beq_eq_false_iff_ne]
    exact fun hnewline => h (hnewline ▸ hc)
  unfold readFrom
  rw [hsplit, List.foldlM_cons]

/-- The first part of a text is what stands before its first newline. -/
theorem splitOn_head (text : List Char) :
    ∃ more, text.splitOn '\n' = text.takeWhile (· ≠ '\n') :: more := by
  induction text with
  | nil => exact ⟨[], rfl⟩
  | cons c text ih =>
    obtain ⟨more, hmore⟩ := ih
    rw [List.splitOn, List.splitOnP_cons_eq_if_modifyHead]
    rw [List.splitOn] at hmore
    by_cases hc : c = '\n'
    · rw [if_pos (beq_iff_eq.mpr hc), List.takeWhile_cons_of_neg (by simpa using hc)]
      exact ⟨_, rfl⟩
    · rw [if_neg (by simpa using hc), hmore, List.modifyHead_cons,
        List.takeWhile_cons_of_pos (by simpa using hc)]
      exact ⟨more, rfl⟩

/-- A text whose first line is no TOML. -/
theorem readFrom_error {text : List Char} {e : Malformed}
    (h : readLine d (text.takeWhile (· ≠ '\n')) = .error e) : readFrom d text = .error e := by
  obtain ⟨more, hmore⟩ := splitOn_head text
  unfold readFrom
  rw [hmore, List.foldlM_cons, h]
  rfl

/-! ## Basic strings -/

/-- A text with its quotes and backslashes escaped. -/
def escaped (s : List Char) : List Char :=
  s.flatMap fun c => if c = '"' ∨ c = '\\' then ['\\', c] else [c]

theorem escaped_cons (c : Char) (s : List Char) :
    escaped (c :: s) = (if c = '"' ∨ c = '\\' then ['\\', c] else [c]) ++ escaped s := rfl

theorem readBasic_escape (c : Char) (hc : c = '"' ∨ c = '\\') (text : List Char) :
    readBasic ('\\' :: c :: text) = readBasic text >>= fun r => .value (c :: r.1, r.2) := by
  rcases hc with rfl | rfl
  · rfl
  · rfl

theorem readBasic_plain {c : Char} (hquote : c ≠ '"') (hbackslash : c ≠ '\\') (text : List Char) :
    readBasic (c :: text) = if isControl c then .error (.control c)
      else readBasic text >>= fun r => .value (c :: r.1, r.2) := by
  rw [readBasic.eq_def]
  split
  · rename_i h
    cases h
  · rename_i h
    exact absurd (List.cons.inj h).1 hquote
  · rename_i h
    exact absurd (List.cons.inj h).1 hbackslash
  · rename_i h
    exact absurd (List.cons.inj h).1 hbackslash
  · rename_i h
    cases h
    rfl

/-- An escaped text without control characters is read back. -/
theorem readBasic_escaped {s : List Char} (h : ∀ c ∈ s, isControl c = false) (tail : List Char) :
    readBasic (escaped s ++ '"' :: tail) = .value (s, tail) := by
  induction s with
  | nil => rfl
  | cons c s ih =>
    obtain ⟨hc, hs⟩ := List.forall_mem_cons.mp h
    rw [escaped_cons]
    split
    · rename_i hquote
      rw [List.append_assoc, List.cons_append, List.singleton_append, readBasic_escape c hquote,
        ih hs]
      rfl
    · rename_i hplain
      obtain ⟨hquote, hbackslash⟩ := not_or.mp hplain
      rw [List.append_assoc, List.singleton_append, readBasic_plain hquote hbackslash, ih hs,
        if_neg (by rw [hc]; exact Bool.false_ne_true)]
      rfl

/-- The first line of an escaped text with a control character is no string. -/
theorem readBasic_control {s : List Char} (h : ∃ c ∈ s, isControl c = true) (tail : List Char) :
    ∃ e, readBasic ((escaped s ++ tail).takeWhile (· ≠ '\n')) = .error e := by
  induction s with
  | nil =>
    obtain ⟨c, hc, _⟩ := h
    cases hc
  | cons c s ih =>
    rw [escaped_cons]
    split
    · rename_i hquote
      have hs : ∃ c ∈ s, isControl c = true := by
        obtain ⟨e, he, hcontrol⟩ := h
        rcases List.mem_cons.mp he with rfl | he
        · rcases hquote with rfl | rfl
          · exact absurd hcontrol (by decide)
          · exact absurd hcontrol (by decide)
        · exact ⟨e, he, hcontrol⟩
      have hline : c ≠ '\n' := by
        rintro rfl
        exact absurd hquote (by decide)
      obtain ⟨e, he⟩ := ih hs
      refine ⟨e, ?_⟩
      rw [List.append_assoc, List.cons_append, List.singleton_append,
        List.takeWhile_cons_of_pos (by decide), List.takeWhile_cons_of_pos (by simpa using hline),
        readBasic_escape c hquote, he]
      rfl
    · rename_i hplain
      obtain ⟨hquote, hbackslash⟩ := not_or.mp hplain
      rw [List.append_assoc, List.singleton_append]
      by_cases hline : c = '\n'
      · rw [List.takeWhile_cons_of_neg (by simpa using hline)]
        exact ⟨.unclosed, rfl⟩
      · rw [List.takeWhile_cons_of_pos (by simpa using hline), readBasic_plain hquote hbackslash]
        cases hc : isControl c with
        | true => exact ⟨.control c, if_pos rfl⟩
        | false =>
          obtain ⟨e, he, hcontrol⟩ := h
          rcases List.mem_cons.mp he with rfl | he
          · rw [hc] at hcontrol
            cases hcontrol
          · obtain ⟨e', he'⟩ := ih ⟨e, he, hcontrol⟩
            refine ⟨e', ?_⟩
            rw [if_neg Bool.false_ne_true, he']
            rfl

/-! ## Lines with a string -/

/-- A bare key. -/
def IsKey (key : List Char) : Prop := key ≠ [] ∧ ∀ c ∈ key, isBare c = true

/-- Spaces between a key and its sign. -/
def IsPad (pad : List Char) : Prop := ∀ c ∈ pad, isSpace c = true

instance (key : List Char) : Decidable (IsKey key) :=
  @instDecidableAnd _ _ inferInstance (List.decidableBAll _ key)

instance (pad : List Char) : Decidable (IsPad pad) := List.decidableBAll _ pad

/-- A line that starts with a key is read as a key. -/
theorem readLine_key {key tail : List Char} (hkey : IsKey key) :
    readLine d (key ++ tail) = readKey d (key ++ tail) := by
  obtain ⟨c, key, rfl⟩ := List.exists_cons_of_ne_nil hkey.1
  have hc := hkey.2 c List.mem_cons_self
  have hspace : isSpace c = false := by
    unfold isSpace
    rw [Bool.or_eq_false_iff, beq_eq_false_iff_ne, beq_eq_false_iff_ne]
    constructor
    · rintro rfl
      exact absurd hc (by decide)
    · rintro rfl
      exact absurd hc (by decide)
  unfold readLine
  rw [List.cons_append, List.dropWhile_cons_of_neg (by rw [hspace]; exact Bool.false_ne_true)]
  split
  · rename_i h
    obtain rfl := (List.cons.inj h).1
    exact absurd hc (by decide)
  · rename_i h
    cases h
  · rename_i h
    obtain rfl := (List.cons.inj h).1
    exact absurd hc (by decide)
  · rfl

/-- What stands behind a key and its sign. -/
theorem readKey_value {key pad value : List Char} (hkey : IsKey key) (hpad : IsPad pad) :
    readKey d (key ++ (pad ++ '=' :: ' ' :: value)) =
      readValue (value.dropWhile isSpace) >>= fun r => readEnd r.2 >>= fun _ =>
        d.addKey key r.1 := by
  have hbare : ∀ tail, (key ++ (pad ++ '=' :: tail)).takeWhile isBare = key ∧
      ((key ++ (pad ++ '=' :: tail)).dropWhile isBare).dropWhile isSpace = '=' :: tail := by
    intro tail
    rw [List.takeWhile_append_of_pos hkey.2, List.dropWhile_append_of_pos hkey.2]
    cases pad with
    | nil =>
      rw [List.nil_append, List.takeWhile_cons_of_neg (by decide), List.append_nil,
        List.dropWhile_cons_of_neg (by decide), List.dropWhile_cons_of_neg (by decide)]
      exact ⟨rfl, rfl⟩
    | cons p pad =>
      have hp : isBare p = false := by
        have hp := hpad p List.mem_cons_self
        unfold isSpace at hp
        rcases Bool.or_eq_true_iff.mp hp with hp | hp
        · rw [eq_of_beq hp]
          decide
        · rw [eq_of_beq hp]
          decide
      have hneg : ¬isBare p = true := by
        rw [hp]
        exact Bool.false_ne_true
      rw [List.cons_append, List.takeWhile_cons_of_neg hneg, List.append_nil,
        List.dropWhile_cons_of_neg hneg, ← List.cons_append, List.dropWhile_append_of_pos hpad,
        List.dropWhile_cons_of_neg (by decide)]
      exact ⟨rfl, rfl⟩
  obtain ⟨htake, hdrop⟩ := hbare (' ' :: value)
  unfold readKey
  rw [htake, hdrop, if_neg hkey.1]
  rfl

/-- A key with an escaped text. -/
theorem readLine_string {key pad s : List Char} (hkey : IsKey key) (hpad : IsPad pad)
    (h : ∀ c ∈ s, isControl c = false) :
    readLine d (key ++ (pad ++ '=' :: ' ' :: '"' :: (escaped s ++ ['"']))) =
      d.addKey key (.string s) := by
  have hvalue : readValue ('"' :: (escaped s ++ ['"'])) = .value (.string s, []) := by
    have hbasic : readBasic (escaped s ++ ['"']) = .value (s, []) := readBasic_escaped h []
    unfold readValue
    split
    · rename_i heq
      have heq := (List.cons.inj heq).2
      cases s with
      | nil => cases heq
      | cons c s =>
        rw [escaped_cons] at heq
        split at heq
        · exact absurd (List.cons.inj heq).1 (by decide)
        · rename_i hplain
          exact absurd (.inl (List.cons.inj heq).1) hplain
    · rename_i heq
      rw [← (List.cons.inj heq).2, hbasic]
      rfl
    · rename_i hne
      exact absurd rfl (hne _)
  rw [readLine_key hkey, readKey_value hkey hpad, List.dropWhile_cons_of_neg (by decide), hvalue]
  rfl

/-- A string whose line is not one. -/
theorem readValue_error {text : List Char} {e : Malformed} (h : readBasic text = .error e) :
    readValue ('"' :: text) = .error e := by
  unfold readValue
  split
  · rename_i heq
    rw [(List.cons.inj heq).2] at h
    cases h
  · rename_i heq
    rw [← (List.cons.inj heq).2, h]
    rfl
  · rename_i hne
    exact absurd rfl (hne _)

/-- A first line with a key and an escaped text with a control character is no TOML. -/
theorem readLine_control {key pad s : List Char} (hkey : IsKey key) (hpad : IsPad pad)
    (h : ∃ c ∈ s, isControl c = true) (tail : List Char) :
    ∃ e, readLine d ((key ++ (pad ++ '=' :: ' ' :: '"' :: (escaped s ++ tail))).takeWhile
      (· ≠ '\n')) = .error e := by
  obtain ⟨e, he⟩ := readBasic_control h tail
  have hkeyLine : ∀ c ∈ key, decide (c ≠ '\n') = true := by
    intro c hc
    rw [decide_eq_true_iff]
    rintro rfl
    exact absurd (hkey.2 _ hc) (by decide)
  have hpadLine : ∀ c ∈ pad, decide (c ≠ '\n') = true := by
    intro c hc
    rw [decide_eq_true_iff]
    rintro rfl
    exact absurd (hpad _ hc) (by decide)
  refine ⟨e, ?_⟩
  rw [List.takeWhile_append_of_pos hkeyLine, List.takeWhile_append_of_pos hpadLine,
    List.takeWhile_cons_of_pos (by decide), List.takeWhile_cons_of_pos (by decide),
    List.takeWhile_cons_of_pos (by decide), readLine_key hkey, readKey_value hkey hpad,
    List.dropWhile_cons_of_neg (by decide), readValue_error he]
  rfl

/-- A line with a key and an escaped text. -/
def stringLine (key pad s : List Char) : List Char :=
  key ++ (pad ++ '=' :: ' ' :: '"' :: (escaped s ++ ['"']))

theorem mem_escaped {s : List Char} {c : Char} (h : c ∈ escaped s) : c ∈ s ∨ c = '\\' := by
  obtain ⟨d, hd, hc⟩ := List.mem_flatMap.mp h
  split at hc
  · rcases List.mem_cons.mp hc with rfl | hc
    · exact .inr rfl
    · rw [List.mem_singleton.mp hc]
      exact .inl hd
  · rw [List.mem_singleton.mp hc]
    exact .inl hd

/-- Such a line is one line when the text has no control characters. -/
theorem newline_stringLine {key pad s : List Char} (hkey : IsKey key) (hpad : IsPad pad)
    (h : ∀ c ∈ s, isControl c = false) : '\n' ∉ stringLine key pad s := by
  unfold stringLine
  simp only [List.mem_append, List.mem_cons, List.not_mem_nil, or_false, not_or]
  refine ⟨fun hc => ?_, fun hc => ?_, by decide, by decide, by decide, fun hc => ?_, by decide⟩
  · exact absurd (hkey.2 _ hc) (by decide)
  · exact absurd (hpad _ hc) (by decide)
  · rcases mem_escaped hc with hc | hc
    · exact absurd (h _ hc) (by decide)
    · exact absurd hc (by decide)

/-- A key with an escaped text without control characters, and what follows. -/
theorem readFrom_string {key pad s : List Char} (hkey : IsKey key) (hpad : IsPad pad)
    (h : ∀ c ∈ s, isControl c = false) : readFrom d (stringLine key pad s ++ '\n' :: rest) =
      d.addKey key (.string s) >>= fun d => readFrom d rest := by
  rw [readFrom_line (newline_stringLine hkey hpad h)]
  unfold stringLine
  rw [readLine_string hkey hpad h]

/-- A key with an escaped text with a control character. -/
theorem readFrom_control {key pad s : List Char} (hkey : IsKey key) (hpad : IsPad pad)
    (h : ∃ c ∈ s, isControl c = true) :
    ∃ e, readFrom d (stringLine key pad s ++ '\n' :: rest) = .error e := by
  obtain ⟨e, he⟩ := readLine_control (d := d) hkey hpad h ('"' :: '\n' :: rest)
  refine ⟨e, readFrom_error ?_⟩
  unfold stringLine
  simp only [List.append_assoc, List.cons_append, List.nil_append]
  exact he

/-- A key, the spaces behind it, and its text. -/
structure Entry where
  key : List Char
  pad : List Char
  text : List Char

/-- Entries one under the other. -/
def entryLines (entries : List Entry) : List Char :=
  entries.flatMap fun e => stringLine e.key e.pad e.text ++ ['\n']

theorem entryLines_cons (e : Entry) (entries : List Entry) :
    entryLines (e :: entries) ++ rest =
      stringLine e.key e.pad e.text ++ '\n' :: (entryLines entries ++ rest) := by
  unfold entryLines
  rw [List.flatMap_cons, List.append_assoc, List.append_assoc]
  rfl

section entries

variable {root t : Table} {name : List Char} {ts : List (List Char × Table)} {entries : List Entry}

/-- Entries without control characters are the keys of the current table. -/
theorem readFrom_entries (hentries : ∀ e ∈ entries, IsKey e.key ∧ IsPad e.pad)
    (hnew : (t.map Prod.fst ++ entries.map Entry.key).Nodup)
    (h : ∀ e ∈ entries, ∀ c ∈ e.text, isControl c = false) :
    readFrom ⟨root, (name, t) :: ts⟩ (entryLines entries ++ rest) =
      readFrom ⟨root, (name, t ++ entries.map fun e => (e.key, .string e.text)) :: ts⟩ rest := by
  induction entries generalizing t with
  | nil =>
    rw [List.map_nil, List.append_nil]
    rfl
  | cons e entries ih =>
    obtain ⟨he, hrest⟩ := List.forall_mem_cons.mp hentries
    obtain ⟨hclean, hcleanRest⟩ := List.forall_mem_cons.mp h
    have hfresh : e.key ∉ t.map Prod.fst := fun hmem =>
      (List.nodup_append.mp hnew).2.2 _ hmem _ List.mem_cons_self rfl
    have hset : (⟨root, (name, t) :: ts⟩ : Document).addKey e.key (.string e.text) =
        .value ⟨root, (name, t ++ [(e.key, .string e.text)]) :: ts⟩ := by
      unfold Document.addKey Table.set
      dsimp only
      rw [if_neg hfresh]
      rfl
    rw [entryLines_cons, readFrom_string he.1 he.2 hclean, hset, Ending.value_bind, ih hrest ?_
      hcleanRest, List.append_assoc, List.map_cons, List.singleton_append]
    rw [List.map_append, List.append_assoc]
    exact hnew

/-- Entries with a control character are no TOML. -/
theorem readFrom_entries_control (hentries : ∀ e ∈ entries, IsKey e.key ∧ IsPad e.pad)
    (hnew : (t.map Prod.fst ++ entries.map Entry.key).Nodup)
    (h : ∃ e ∈ entries, ∃ c ∈ e.text, isControl c = true) :
    ∃ x, readFrom ⟨root, (name, t) :: ts⟩ (entryLines entries ++ rest) = .error x := by
  induction entries generalizing t with
  | nil =>
    obtain ⟨e, he, _⟩ := h
    cases he
  | cons e entries ih =>
    obtain ⟨he, hrest⟩ := List.forall_mem_cons.mp hentries
    by_cases hdirty : ∃ c ∈ e.text, isControl c = true
    · rw [entryLines_cons]
      exact readFrom_control he.1 he.2 hdirty
    · have hclean : ∀ e' ∈ [e], ∀ c ∈ e'.text, isControl c = false := by
        intro e' he' c hc
        rw [List.mem_singleton.mp he'] at hc
        exact Bool.eq_false_iff.mpr fun hcontrol => hdirty ⟨c, hc, hcontrol⟩
      have hfirst : readFrom ⟨root, (name, t) :: ts⟩ (entryLines (e :: entries) ++ rest) =
          readFrom ⟨root, (name, t ++ [(e.key, .string e.text)]) :: ts⟩
            (entryLines entries ++ rest) := by
        have hkeys : (t.map Prod.fst ++ [e].map Entry.key).Nodup :=
          hnew.sublist (List.Sublist.append_left
            (List.Sublist.cons_cons e.key (List.nil_sublist _)) _)
        have hone :
            readFrom ⟨root, (name, t) :: ts⟩ (entryLines [e] ++ (entryLines entries ++ rest)) =
            readFrom ⟨root, (name, t ++ [(e.key, .string e.text)]) :: ts⟩
              (entryLines entries ++ rest) :=
          readFrom_entries (List.forall_mem_singleton.mpr he) hkeys hclean
        rw [entryLines_cons] at hone ⊢
        exact hone
      have hmore : ∃ e ∈ entries, ∃ c ∈ e.text, isControl c = true := by
        obtain ⟨e', he', hc⟩ := h
        rcases List.mem_cons.mp he' with rfl | he'
        · exact absurd hc hdirty
        · exact ⟨e', he', hc⟩
      obtain ⟨x, hx⟩ := ih hrest (t := t ++ [(e.key, .string e.text)])
        (by rw [List.map_append, List.append_assoc]; exact hnew) hmore
      exact ⟨x, by rw [hfirst, hx]⟩

end entries

/-! ## Other lines -/

theorem readFrom_blank : readFrom d ('\n' :: rest) = readFrom d rest :=
  readFrom_line List.not_mem_nil

theorem readEnd_comment (comment : List Char) : readEnd ('#' :: comment) =
    if comment.any isControl then .trap .beyond else .value () := rfl

/-- A comment without control characters. -/
theorem readFrom_comment {comment : List Char} (h : ∀ c ∈ comment, isControl c = false) :
    readFrom d ('#' :: (comment ++ '\n' :: rest)) = readFrom d rest := by
  have hline : '\n' ∉ '#' :: comment := by
    intro hc
    rcases List.mem_cons.mp hc with hc | hc
    · exact absurd hc (by decide)
    · exact absurd (h _ hc) (by decide)
  have hnone : comment.any isControl = false :=
    List.any_eq_false.mpr fun c hc => by rw [h c hc]; exact Bool.false_ne_true
  have hread : readLine d ('#' :: comment) = .value d := by
    show readEnd ('#' :: comment) >>= (fun _ => .value d) = .value d
    rw [readEnd_comment, hnone]
    rfl
  rw [← List.cons_append, readFrom_line hline, hread]
  rfl

/-- The header of an array table. -/
theorem readFrom_header {name : List Char} (hname : IsKey name) :
    readFrom d ('[' :: '[' :: (name ++ ']' :: ']' :: '\n' :: rest)) =
      d.addTable name >>= fun d => readFrom d rest := by
  have hline : '\n' ∉ '[' :: '[' :: (name ++ [']', ']']) := by
    simp only [List.mem_append, List.mem_cons, List.not_mem_nil, or_false, not_or]
    exact ⟨by decide, by decide, fun hc => absurd (hname.2 _ hc) (by decide), by decide, by decide⟩
  have hread : readLine d ('[' :: '[' :: (name ++ [']', ']'])) = d.addTable name := by
    show readHeader d (name ++ [']', ']']) = _
    unfold readHeader
    rw [List.takeWhile_append_of_pos hname.2, List.dropWhile_append_of_pos hname.2,
      List.takeWhile_cons_of_neg (by decide), List.append_nil,
      List.dropWhile_cons_of_neg (by decide), if_neg hname.1]
    rfl
  have hlist : '[' :: '[' :: (name ++ ']' :: ']' :: '\n' :: rest) =
      ('[' :: '[' :: (name ++ [']', ']'])) ++ '\n' :: rest := by
    simp only [List.cons_append, List.append_assoc, List.nil_append]
  rw [hlist, readFrom_line hline, hread]

/-- Only zero is written with a zero in front. -/
theorem toDigits_head (n : Nat) (h : (Nat.toDigits 10 n).head? = some '0') : n = 0 := by
  induction n using Nat.strongRecOn with
  | ind n ih =>
    rw [Nat.toDigits_eq_if (by omega)] at h
    split at h
    · rename_i hlt
      have hall : ∀ k, k < 10 → Nat.digitChar k = '0' → k = 0 := by decide
      exact hall n hlt (Option.some.inj h)
    · rename_i hge
      obtain ⟨c, digits, hdigits⟩ := List.exists_cons_of_ne_nil
        (Nat.toDigits_ne_nil (b := 10) (n := n / 10))
      rw [hdigits, List.cons_append, List.head?_cons] at h
      have := ih (n / 10) (by omega) (by rw [hdigits, List.head?_cons, h])
      omega

theorem readValue_digits {n : Nat} (hn : n < 2 ^ 63) : readValue (Nat.toDigits 10 n) =
    .value (.integer n, []) := by
  have hdigit : ∀ c ∈ Nat.toDigits 10 n, c.isDigit = true := fun c hc =>
    Nat.isDigit_of_mem_toDigits (by omega) (Nat.le_refl 10) hc
  have hquote : ∀ rest, Nat.toDigits 10 n ≠ '"' :: rest := by
    intro rest h
    exact absurd (hdigit '"' (h ▸ List.mem_cons_self)) (by decide)
  have htake : (Nat.toDigits 10 n).takeWhile Char.isDigit = Nat.toDigits 10 n :=
    List.takeWhile_eq_self_iff.mpr hdigit
  have hdrop : (Nat.toDigits 10 n).dropWhile Char.isDigit = [] :=
    List.dropWhile_eq_nil_iff.mpr hdigit
  unfold readValue
  split
  · rename_i heq
    exact absurd heq (hquote _)
  · rename_i heq
    exact absurd heq (hquote _)
  · dsimp only
    rw [htake, hdrop, Nat.ofDigitChars_ten_toDigits, if_neg]
    rintro (hnil | ⟨hhead, hne⟩ | hlarge)
    · exact Nat.toDigits_ne_nil hnil
    · rw [toDigits_head n hhead] at hne
      exact hne rfl
    · exact absurd hn (Nat.not_lt.mpr hlarge)

/-- A key with a number. -/
theorem readFrom_integer {key : List Char} (hkey : IsKey key) {n : Nat} (hn : n < 2 ^ 63) :
    readFrom d (key ++ (' ' :: '=' :: ' ' :: (Nat.toDigits 10 n ++ '\n' :: rest))) =
      d.addKey key (.integer n) >>= fun d => readFrom d rest := by
  have hdigit : ∀ c ∈ Nat.toDigits 10 n, c.isDigit = true := fun c hc =>
    Nat.isDigit_of_mem_toDigits (by omega) (Nat.le_refl 10) hc
  have hline : '\n' ∉ key ++ ([' '] ++ '=' :: ' ' :: Nat.toDigits 10 n) := by
    simp only [List.mem_append, List.mem_cons, List.not_mem_nil, or_false, not_or]
    exact ⟨fun hc => absurd (hkey.2 _ hc) (by decide), by decide, by decide, by decide,
      fun hc => absurd (hdigit _ hc) (by decide)⟩
  have hspaces : (Nat.toDigits 10 n).dropWhile isSpace = Nat.toDigits 10 n := by
    obtain ⟨c, digits, hdigits⟩ :=
      List.exists_cons_of_ne_nil (Nat.toDigits_ne_nil (b := 10) (n := n))
    rw [hdigits, List.dropWhile_cons_of_neg]
    intro hspace
    have hc := hdigit c (hdigits ▸ List.mem_cons_self)
    rcases Bool.or_eq_true_iff.mp hspace with h | h
    · rw [eq_of_beq h] at hc
      exact absurd hc (by decide)
    · rw [eq_of_beq h] at hc
      exact absurd hc (by decide)
  have hlist : key ++ (' ' :: '=' :: ' ' :: (Nat.toDigits 10 n ++ '\n' :: rest)) =
      (key ++ ([' '] ++ '=' :: ' ' :: Nat.toDigits 10 n)) ++ '\n' :: rest := by
    simp only [List.cons_append, List.append_assoc, List.nil_append]
  have hpad : IsPad [' '] := by
    intro c hc
    rw [List.mem_singleton.mp hc]
    rfl
  rw [hlist, readFrom_line hline, readLine_key hkey, readKey_value hkey hpad, hspaces,
    readValue_digits hn]
  rfl

end base.toml
