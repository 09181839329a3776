-- JSON texts (RFC 8259): what a text reads as, and that it reads as one value only.
import Mathlib.Data.List.Basic

namespace base.json

/-! ## Values -/

abbrev Text := List Char

/-- A JSON value with numbers in `N`. -/
inductive Value (N : Type)
  | null
  | bool (b : Bool)
  | number (x : N)
  | str (s : Text)
  | array (items : List (Value N))
  | object (members : List (Text × Value N))

variable {N : Type}

/-- Induction over a value with a hypothesis for each item and member. -/
theorem Value.induct {P : Value N → Prop} (null : P .null) (bool : ∀ b, P (.bool b))
    (number : ∀ x, P (.number x)) (str : ∀ s, P (.str s))
    (array : ∀ items, (∀ v ∈ items, P v) → P (.array items))
    (object : ∀ members, (∀ m ∈ members, P m.2) → P (.object members)) (v : Value N) : P v := by
  refine @Value.rec N P (fun items => ∀ v ∈ items, P v) (fun members => ∀ m ∈ members, P m.2)
    (fun m => P m.2) null bool number str array object ?_ ?_ ?_ ?_ ?_ v
  · exact List.forall_mem_nil _
  · exact fun _ _ h hs => List.forall_mem_cons.mpr ⟨h, hs⟩
  · exact List.forall_mem_nil _
  · exact fun _ _ h hs => List.forall_mem_cons.mpr ⟨h, hs⟩
  · exact fun _ _ h => h

mutual

/-- How many arrays and objects a value has inside each other. -/
def Value.depth : Value N → Nat
  | .null => 0
  | .bool _ => 0
  | .number _ => 0
  | .str _ => 0
  | .array items => itemsDepth items + 1
  | .object members => membersDepth members + 1

def Value.itemsDepth : List (Value N) → Nat
  | [] => 0
  | v :: items => max v.depth (itemsDepth items)

def Value.membersDepth : List (Text × Value N) → Nat
  | [] => 0
  | (_, v) :: members => max v.depth (membersDepth members)

end

theorem Value.itemsDepth_le {items : List (Value N)} {n : Nat} (h : ∀ v ∈ items, v.depth ≤ n) :
    itemsDepth items ≤ n := by
  induction items with
  | nil => simp [itemsDepth]
  | cons v items ih =>
    obtain ⟨hv, hrest⟩ := List.forall_mem_cons.mp h
    rw [itemsDepth]
    exact Nat.max_le.mpr ⟨hv, ih hrest⟩

theorem Value.membersDepth_le {members : List (Text × Value N)} {n : Nat}
    (h : ∀ m ∈ members, m.2.depth ≤ n) : membersDepth members ≤ n := by
  induction members with
  | nil => simp [membersDepth]
  | cons m members ih =>
    obtain ⟨hm, hrest⟩ := List.forall_mem_cons.mp h
    rw [membersDepth]
    exact Nat.max_le.mpr ⟨hm, ih hrest⟩

/-! ## Characters -/

/-- White space. -/
def isBlank (c : Char) : Bool := c == ' ' || c == '\t' || c == '\n' || c == '\r'

/-- A text behind its white space. -/
def skip (s : Text) : Text := s.dropWhile isBlank

/-- The value of a hexadecimal digit. -/
def hexDigit (c : Char) : Option Nat :=
  if '0' ≤ c ∧ c ≤ '9' then some (c.toNat - 48)
  else if 'A' ≤ c ∧ c ≤ 'F' then some (c.toNat - 55)
  else if 'a' ≤ c ∧ c ≤ 'f' then some (c.toNat - 87)
  else none

/-- The code unit of four hexadecimal digits. -/
def codeUnit (a b c d : Char) : Option Nat := do
  some ((← hexDigit a) * 4096 + (← hexDigit b) * 256 + (← hexDigit c) * 16 + (← hexDigit d))

/-- A character behind a backslash. -/
def escaped (c : Char) : Option Char :=
  if c = '"' then some '"'
  else if c = '\\' then some '\\'
  else if c = '/' then some '/'
  else if c = 'b' then some (Char.ofNat 8)
  else if c = 'f' then some (Char.ofNat 12)
  else if c = 'n' then some '\n'
  else if c = 'r' then some '\r'
  else if c = 't' then some '\t'
  else none

/-- A character before the others of a string. -/
def before (c : Char) (rest : Option (Text × Text)) : Option (Text × Text) :=
  rest.map fun p => (c :: p.1, p.2)

/-- The string up to its closing quotation mark, unescaped, and the text behind it. A surrogate is
read in a pair. -/
def readChars : Text → Option (Text × Text)
  | [] => none
  | '\\' :: 'u' :: a :: b :: c :: d :: s =>
    match codeUnit a b c d with
    | none => none
    | some n =>
      if 0xD800 ≤ n ∧ n < 0xDC00 then
        match s with
        | '\\' :: 'u' :: e :: f :: g :: h :: s =>
          match codeUnit e f g h with
          | none => none
          | some m =>
            if 0xDC00 ≤ m ∧ m < 0xE000 then
              before (Char.ofNat (0x10000 + (n - 0xD800) * 1024 + (m - 0xDC00))) (readChars s)
            else none
        | _ => none
      else if 0xDC00 ≤ n ∧ n < 0xE000 then none
      else before (Char.ofNat n) (readChars s)
  | '\\' :: c :: s =>
    match escaped c with
    | none => none
    | some e => before e (readChars s)
  | c :: s =>
    if c = '"' then some ([], s)
    else if c = '\\' ∨ c.toNat < 0x20 then none
    else before c (readChars s)

/-! ## Numbers -/

/-- One digit or more. -/
def Digits (s : Text) : Prop := s ≠ [] ∧ ∀ c ∈ s, c.isDigit = true

/-- The text of a number: a sign, an integer without a zero in front, a fraction and an exponent. -/
def NumberText (s : Text) : Prop :=
  ∃ sign int frac exp, s = sign ++ int ++ frac ++ exp ∧ (sign = [] ∨ sign = ['-']) ∧
    (Digits int ∧ (int = ['0'] ∨ int.head? ≠ some '0')) ∧
    (frac = [] ∨ ∃ ds, frac = '.' :: ds ∧ Digits ds) ∧
    (exp = [] ∨ ∃ e mark ds, exp = e :: mark ++ ds ∧ (e = 'e' ∨ e = 'E') ∧
      (mark = [] ∨ mark = ['+'] ∨ mark = ['-']) ∧ Digits ds)

/-- The characters of numbers. -/
def isNumberChar (c : Char) : Bool :=
  c.isDigit || c == '-' || c == '+' || c == '.' || c == 'e' || c == 'E'

/-- A number ends before this text. -/
def Stops (s : Text) : Prop := ∀ c ∈ s.head?, isNumberChar c = false

/-! ## Texts of values -/

variable (number : Text → N)

mutual

/-- A text starts with a value, whose number texts are read by `number`, and goes on with another
text. -/
def Reads : Value N → Text → Text → Prop
  | .null, s, r => s = 'n' :: 'u' :: 'l' :: 'l' :: r
  | .bool true, s, r => s = 't' :: 'r' :: 'u' :: 'e' :: r
  | .bool false, s, r => s = 'f' :: 'a' :: 'l' :: 's' :: 'e' :: r
  | .number x, s, r => ∃ t, s = t ++ r ∧ NumberText t ∧ Stops r ∧ number t = x
  | .str t, s, r => ∃ s', s = '"' :: s' ∧ readChars s' = some (t, r)
  | .array items, s, r => ∃ s', s = '[' :: s' ∧
      (items = [] ∧ skip s' = ']' :: r ∨ ReadsItems items s' r)
  | .object members, s, r => ∃ s', s = '{' :: s' ∧
      (members = [] ∧ skip s' = '}' :: r ∨ ReadsMembers members s' r)

/-- The items of an array, one or more, up to the closing bracket. -/
def ReadsItems : List (Value N) → Text → Text → Prop
  | [], _, _ => False
  | v :: items, s, r => ∃ s', Reads v (skip s) s' ∧
      (items = [] ∧ skip s' = ']' :: r ∨ ∃ next, skip s' = ',' :: next ∧ ReadsItems items next r)

/-- The members of an object, one or more, up to the closing brace. -/
def ReadsMembers : List (Text × Value N) → Text → Text → Prop
  | [], _, _ => False
  | (key, v) :: members, s, r => ∃ s1 s2 s3 s4, skip s = '"' :: s1 ∧ readChars s1 = some (key, s2) ∧
      skip s2 = ':' :: s3 ∧ Reads v (skip s3) s4 ∧
      (members = [] ∧ skip s4 = '}' :: r ∨ ∃ next, skip s4 = ',' :: next ∧
        ReadsMembers members next r)

end

/-- A JSON text: a value between white space. -/
def Denotes (s : Text) (v : Value N) : Prop := ∃ r, Reads number v (skip s) r ∧ skip r = []

/-! ## Strings -/

section strings

variable {c e : Char} {s : Text}

attribute [local simp] readChars

theorem readChars_quote : readChars ('"' :: s) = some ([], s) := by
  rw [readChars]
  · rfl
  · intro _ _ _ _ _ h
    cases h
  · intro _ _ h
    cases h

theorem readChars_plain (hquote : c ≠ '"') (hslash : c ≠ '\\') (hcontrol : 0x20 ≤ c.toNat) :
    readChars (c :: s) = before c (readChars s) := by
  rw [readChars, if_neg hquote, if_neg]
  · rintro (h | h)
    · exact hslash h
    · omega
  · intro _ _ _ _ _ h _
    exact hslash h
  · intro _ _ h _
    exact hslash h

theorem readChars_escape (hu : c ≠ 'u') (h : escaped c = some e) :
    readChars ('\\' :: c :: s) = before e (readChars s) := by
  rw [readChars, h]
  intro _ _ _ _ _ hc _
  exact hu hc

theorem readChars_unit {a b c d : Char} {n : Nat} (h : codeUnit a b c d = some n)
    (hn : n < 0xD800 ∨ 0xE000 ≤ n) :
    readChars ('\\' :: 'u' :: a :: b :: c :: d :: s) = before (Char.ofNat n) (readChars s) := by
  rw [readChars, h]
  dsimp only
  rw [if_neg (by omega), if_neg (by omega)]

end strings

/-! ## Numbers end where they stop -/

theorem isNumberChar_of_isDigit {c : Char} (h : c.isDigit = true) : isNumberChar c = true := by
  simp [isNumberChar, h]

theorem NumberText.chars {s : Text} (h : NumberText s) : ∀ c ∈ s, isNumberChar c = true := by
  obtain ⟨sign, int, frac, exp, rfl, hsign, ⟨hint, _⟩, hfrac, hexp⟩ := h
  have hdigits : ∀ {ds : Text}, Digits ds → ∀ c ∈ ds, isNumberChar c = true :=
    fun h c hc => isNumberChar_of_isDigit (h.2 c hc)
  intro c hc
  rcases List.mem_append.mp hc with hc | hc
  · rcases List.mem_append.mp hc with hc | hc
    · rcases List.mem_append.mp hc with hc | hc
      · rcases hsign with rfl | rfl
        · cases hc
        · rw [List.mem_singleton.mp hc]
          rfl
      · exact hdigits hint c hc
    · rcases hfrac with rfl | ⟨ds, rfl, hds⟩
      · cases hc
      · rcases List.mem_cons.mp hc with rfl | hc
        · rfl
        · exact hdigits hds c hc
  · rcases hexp with rfl | ⟨e, mark, ds, rfl, he, hmark, hds⟩
    · cases hc
    · rcases List.mem_append.mp hc with hc | hc
      · rcases List.mem_cons.mp hc with rfl | hc
        · rcases he with rfl | rfl <;> rfl
        · rcases hmark with rfl | rfl | rfl
          · cases hc
          · rw [List.mem_singleton.mp hc]
            rfl
          · rw [List.mem_singleton.mp hc]
            rfl
      · exact hdigits hds c hc

/-- A number starts with its sign or a digit. -/
theorem NumberText.head {s : Text} (h : NumberText s) :
    ∃ c rest, s = c :: rest ∧ (c = '-' ∨ c.isDigit = true) := by
  obtain ⟨sign, int, frac, exp, rfl, hsign, ⟨⟨hne, hint⟩, _⟩, _⟩ := h
  obtain ⟨c, int, rfl⟩ := List.exists_cons_of_ne_nil hne
  rcases hsign with rfl | rfl
  · exact ⟨c, _, rfl, .inr (hint c List.mem_cons_self)⟩
  · exact ⟨'-', _, rfl, .inl rfl⟩

theorem takeWhile_number {t r : Text} (ht : NumberText t) (hr : Stops r) :
    (t ++ r).takeWhile isNumberChar = t := by
  rw [List.takeWhile_append_of_pos fun c hc => ht.chars c hc]
  cases r with
  | nil => simp
  | cons c r =>
    rw [List.takeWhile_cons_of_neg (by rw [hr c rfl]; decide), List.append_nil]

/-! ## One value only -/

/-- The kind of a value. -/
def Value.kind : Value N → Nat
  | .null => 0
  | .bool true => 1
  | .bool false => 2
  | .number _ => 3
  | .str _ => 4
  | .array _ => 5
  | .object _ => 6

/-- The kind of the value that a character starts. -/
def kindAt (c : Char) : Option Nat :=
  if c = '-' ∨ c.isDigit = true then some 3
  else if c = 'n' then some 0
  else if c = 't' then some 1
  else if c = 'f' then some 2
  else if c = '"' then some 4
  else if c = '[' then some 5
  else if c = '{' then some 6
  else none

variable {number} {v v' : Value N} {s r r' : Text}

theorem Reads.starts (h : Reads number v s r) :
    ∃ c rest, s = c :: rest ∧ kindAt c = some v.kind := by
  cases v with
  | null => exact ⟨_, _, h, rfl⟩
  | bool b =>
    cases b with
    | true => exact ⟨_, _, h, rfl⟩
    | false => exact ⟨_, _, h, rfl⟩
  | number x =>
    obtain ⟨t, rfl, ht, _⟩ := h
    obtain ⟨c, rest, rfl, hc⟩ := ht.head
    exact ⟨c, rest ++ r, rfl, if_pos hc⟩
  | str t =>
    obtain ⟨s', rfl, _⟩ := h
    exact ⟨_, _, rfl, rfl⟩
  | array items =>
    obtain ⟨s', rfl, _⟩ := h
    exact ⟨_, _, rfl, rfl⟩
  | object members =>
    obtain ⟨s', rfl, _⟩ := h
    exact ⟨_, _, rfl, rfl⟩

/-- A character that starts no value. -/
theorem Reads.ne {c : Char} {rest : Text} (h : Reads number v s r) (hc : kindAt c = none) :
    s ≠ c :: rest := by
  rintro rfl
  obtain ⟨d, rest', heq, hd⟩ := h.starts
  obtain ⟨rfl, _⟩ := List.cons_eq_cons.mp heq
  rw [hc] at hd
  cases hd

theorem Reads.kind_eq (h : Reads number v s r) (h' : Reads number v' s r') : v.kind = v'.kind := by
  obtain ⟨c, rest, rfl, hc⟩ := h.starts
  obtain ⟨c', rest', heq, hc'⟩ := h'.starts
  obtain ⟨rfl, _⟩ := List.cons_eq_cons.mp heq
  rw [hc] at hc'
  exact Option.some.inj hc'

/-- No other value is read from a text from which this one is, and it ends at one place. -/
def Unique (number : Text → N) (v : Value N) : Prop :=
  ∀ {v' : Value N} {s r r' : Text}, Reads number v s r → Reads number v' s r' → v = v' ∧ r = r'

theorem readsItems_unique {items items' : List (Value N)} (hitems : ∀ v ∈ items, Unique number v)
    (h : ReadsItems number items s r) (h' : ReadsItems number items' s r') :
    items = items' ∧ r = r' := by
  induction items generalizing items' s with
  | nil => exact h.elim
  | cons v items ih =>
    obtain ⟨hv, hrest⟩ := List.forall_mem_cons.mp hitems
    cases items' with
    | nil => exact h'.elim
    | cons v' items' =>
      obtain ⟨s', hread, hend⟩ := h
      obtain ⟨s'', hread', hend'⟩ := h'
      obtain ⟨rfl, rfl⟩ := hv hread hread'
      rcases hend with ⟨rfl, hclose⟩ | ⟨next, hcomma, hnext⟩
      · rcases hend' with ⟨rfl, hclose'⟩ | ⟨next', hcomma', _⟩
        · rw [hclose] at hclose'
          exact ⟨rfl, (List.cons_eq_cons.mp hclose').2⟩
        · rw [hclose] at hcomma'
          cases hcomma'
      · rcases hend' with ⟨_, hclose'⟩ | ⟨next', hcomma', hnext'⟩
        · rw [hclose'] at hcomma
          cases hcomma
        · rw [hcomma] at hcomma'
          cases hcomma'
          obtain ⟨rfl, rfl⟩ := ih hrest hnext hnext'
          exact ⟨rfl, rfl⟩

theorem readsMembers_unique {members members' : List (Text × Value N)}
    (hmembers : ∀ m ∈ members, Unique number m.2)
    (h : ReadsMembers number members s r) (h' : ReadsMembers number members' s r') :
    members = members' ∧ r = r' := by
  induction members generalizing members' s with
  | nil => exact h.elim
  | cons m members ih =>
    obtain ⟨key, v⟩ := m
    obtain ⟨hv, hrest⟩ := List.forall_mem_cons.mp hmembers
    cases members' with
    | nil => exact h'.elim
    | cons m' members' =>
      obtain ⟨key', v'⟩ := m'
      obtain ⟨s1, s2, s3, s4, hquote, hkey, hcolon, hread, hend⟩ := h
      obtain ⟨t1, t2, t3, t4, hquote', hkey', hcolon', hread', hend'⟩ := h'
      rw [hquote] at hquote'
      cases hquote'
      rw [hkey] at hkey'
      cases hkey'
      rw [hcolon] at hcolon'
      cases hcolon'
      obtain ⟨rfl, rfl⟩ := hv hread hread'
      rcases hend with ⟨rfl, hclose⟩ | ⟨next, hcomma, hnext⟩
      · rcases hend' with ⟨rfl, hclose'⟩ | ⟨next', hcomma', _⟩
        · rw [hclose] at hclose'
          exact ⟨rfl, (List.cons_eq_cons.mp hclose').2⟩
        · rw [hclose] at hcomma'
          cases hcomma'
      · rcases hend' with ⟨_, hclose'⟩ | ⟨next', hcomma', hnext'⟩
        · rw [hclose'] at hcomma
          cases hcomma
        · rw [hcomma] at hcomma'
          cases hcomma'
          obtain ⟨rfl, rfl⟩ := ih hrest hnext hnext'
          exact ⟨rfl, rfl⟩

/-- An array or object without items is not read as one with items. -/
theorem ReadsItems.ne {items : List (Value N)} {rest : Text} (h : ReadsItems number items s r) :
    skip s ≠ ']' :: rest := by
  cases items with
  | nil => exact h.elim
  | cons v items =>
    obtain ⟨s', hread, _⟩ := h
    exact hread.ne rfl

theorem ReadsMembers.ne {members : List (Text × Value N)} {rest : Text}
    (h : ReadsMembers number members s r) : skip s ≠ '}' :: rest := by
  cases members with
  | nil => exact h.elim
  | cons m members =>
    obtain ⟨s1, _, _, _, hquote, _⟩ := h
    rw [hquote]
    intro heq
    cases heq

/-- A text starts with at most one value. -/
theorem reads_unique (number : Text → N) (v : Value N) : Unique number v := by
  induction v using Value.induct with
  | null =>
    intro v' s r r' h h'
    have hkind := h.kind_eq h'
    cases v' with
    | null =>
      have heq : 'n' :: 'u' :: 'l' :: 'l' :: r = 'n' :: 'u' :: 'l' :: 'l' :: r' := h.symm.trans h'
      cases heq
      exact ⟨rfl, rfl⟩
    | bool b => cases b <;> cases hkind
    | _ => cases hkind
  | bool b =>
    intro v' s r r' h h'
    have hkind := h.kind_eq h'
    cases v' with
    | bool b' =>
      cases b with
      | true =>
        cases b' with
        | true =>
          have heq : 't' :: 'r' :: 'u' :: 'e' :: r = 't' :: 'r' :: 'u' :: 'e' :: r' :=
            h.symm.trans h'
          cases heq
          exact ⟨rfl, rfl⟩
        | false => cases hkind
      | false =>
        cases b' with
        | true => cases hkind
        | false =>
          have heq : 'f' :: 'a' :: 'l' :: 's' :: 'e' :: r = 'f' :: 'a' :: 'l' :: 's' :: 'e' :: r' :=
            h.symm.trans h'
          cases heq
          exact ⟨rfl, rfl⟩
    | _ => cases b <;> cases hkind
  | number x =>
    intro v' s r r' h h'
    have hkind := h.kind_eq h'
    cases v' with
    | number x' =>
      obtain ⟨t, rfl, ht, hr, rfl⟩ := h
      obtain ⟨t', heq, ht', hr', rfl⟩ := h'
      have hsame : t = t' := by rw [← takeWhile_number ht hr, heq, takeWhile_number ht' hr']
      subst hsame
      exact ⟨rfl, List.append_cancel_left heq⟩
    | bool b => cases b <;> cases hkind
    | _ => cases hkind
  | str t =>
    intro v' s r r' h h'
    have hkind := h.kind_eq h'
    cases v' with
    | str t' =>
      obtain ⟨s1, rfl, hchars⟩ := h
      obtain ⟨s1', heq, hchars'⟩ := h'
      cases heq
      rw [hchars] at hchars'
      cases hchars'
      exact ⟨rfl, rfl⟩
    | bool b => cases b <;> cases hkind
    | _ => cases hkind
  | array items ih =>
    intro v' s r r' h h'
    have hkind := h.kind_eq h'
    cases v' with
    | array items' =>
      obtain ⟨s1, rfl, hitems⟩ := h
      obtain ⟨s1', heq, hitems'⟩ := h'
      cases heq
      rcases hitems with ⟨rfl, hclose⟩ | hitems
      · rcases hitems' with ⟨rfl, hclose'⟩ | hitems'
        · rw [hclose] at hclose'
          cases hclose'
          exact ⟨rfl, rfl⟩
        · exact absurd hclose hitems'.ne
      · rcases hitems' with ⟨_, hclose'⟩ | hitems'
        · exact absurd hclose' hitems.ne
        · obtain ⟨rfl, rfl⟩ := readsItems_unique ih hitems hitems'
          exact ⟨rfl, rfl⟩
    | bool b => cases b <;> cases hkind
    | _ => cases hkind
  | object members ih =>
    intro v' s r r' h h'
    have hkind := h.kind_eq h'
    cases v' with
    | object members' =>
      obtain ⟨s1, rfl, hmembers⟩ := h
      obtain ⟨s1', heq, hmembers'⟩ := h'
      cases heq
      rcases hmembers with ⟨rfl, hclose⟩ | hmembers
      · rcases hmembers' with ⟨rfl, hclose'⟩ | hmembers'
        · rw [hclose] at hclose'
          cases hclose'
          exact ⟨rfl, rfl⟩
        · exact absurd hclose hmembers'.ne
      · rcases hmembers' with ⟨_, hclose'⟩ | hmembers'
        · exact absurd hclose' hmembers.ne
        · obtain ⟨rfl, rfl⟩ := readsMembers_unique ih hmembers hmembers'
          exact ⟨rfl, rfl⟩
    | bool b => cases b <;> cases hkind
    | _ => cases hkind

/-- A JSON text denotes at most one value. -/
theorem Denotes.unique {s : Text} {v v' : Value N} (h : Denotes number s v)
    (h' : Denotes number s v') :
    v = v' := by
  obtain ⟨r, hread, _⟩ := h
  obtain ⟨r', hread', _⟩ := h'
  exact (reads_unique number v hread hread').1

/-! ## White space outside strings -/

/-- Where a character stands. -/
inductive Place
  | outside
  | inside
  | behindSlash

/-- The text without the white space that is in no string. -/
def strip : Place → Text → Text
  | _, [] => []
  | .outside, c :: s =>
    if c = '"' then c :: strip .inside s
    else if isBlank c then strip .outside s
    else c :: strip .outside s
  | .inside, c :: s =>
    c :: strip (if c = '"' then .outside else if c = '\\' then .behindSlash else .inside) s
  | .behindSlash, c :: s => c :: strip .inside s

/-- A text and its strings end together, and it is the second text but for white space in no
string. -/
def StripsTo (s t : Text) : Prop := ∀ r, strip .outside (s ++ r) = t ++ strip .outside r

theorem StripsTo.append {s t s' t' : Text} (h : StripsTo s t) (h' : StripsTo s' t') :
    StripsTo (s ++ s') (t ++ t') := by
  intro r
  rw [List.append_assoc, h, h', List.append_assoc]

theorem stripsTo_blank {s : Text} (h : ∀ c ∈ s, isBlank c = true) : StripsTo s [] := by
  intro r
  induction s with
  | nil => rfl
  | cons c s ih =>
    obtain ⟨hc, hs⟩ := List.forall_mem_cons.mp h
    have hquote : c ≠ '"' := by
      rintro rfl
      cases hc
    rw [List.cons_append, strip, if_neg hquote, if_pos hc]
    exact ih hs

theorem stripsTo_self {s : Text} (h : ∀ c ∈ s, isBlank c = false ∧ c ≠ '"') : StripsTo s s := by
  intro r
  induction s with
  | nil => rfl
  | cons c s ih =>
    obtain ⟨⟨hblank, hquote⟩, hs⟩ := List.forall_mem_cons.mp h
    rw [List.cons_append, strip, if_neg hquote, if_neg (by rw [hblank]; decide), ih hs]
    rfl

end base.json
