-- TOML documents that are read, edited and written again: what a document means, the tree that
-- keeps its spelling, and what is asked of a library that reads and writes such trees.
import Mathlib.Data.List.Nodup
import Mathlib.Data.Nat.Pairing

namespace base.tomlDoc

/-! ## Entries -/

/-- The keys of a table with what stands under them. -/
abbrev Entries (A : Type) := List (String × A)

variable {A B : Type}

/-- What stands under a key. -/
def get (key : String) : Entries A → Option A
  | [] => none
  | e :: es => if e.1 = key then some e.2 else get key es

/-- A key with something new under it. -/
def set (key : String) (a : A) : Entries A → Entries A
  | [] => [(key, a)]
  | e :: es => if e.1 = key then (key, a) :: es else e :: set key a es

/-- The entries without a key. -/
def remove (key : String) (es : Entries A) : Entries A := es.filter fun e => e.1 ≠ key

/-- The keys are different. -/
def Distinct (es : Entries A) : Prop := (es.map Prod.fst).Nodup

variable {key k : String} {a : A} {es : Entries A}

@[simp] theorem get_nil : get key ([] : Entries A) = none := rfl

theorem get_cons {e : String × A} :
    get key (e :: es) = if e.1 = key then some e.2 else get key es := rfl

theorem set_cons {e : String × A} :
    set key a (e :: es) = if e.1 = key then (key, a) :: es else e :: set key a es := rfl

theorem get_set : get k (set key a es) = if k = key then some a else get k es := by
  induction es with
  | nil =>
    unfold set
    rw [get_cons, get_nil]
    simp only [eq_comm]
  | cons e es ih =>
    rw [set_cons]
    by_cases he : e.1 = key
    · rw [if_pos he, get_cons, get_cons, he]
      by_cases hk : k = key
      · simp [hk]
      · simp [hk, Ne.symm hk]
    · rw [if_neg he, get_cons, get_cons, ih]
      by_cases hk : e.1 = k
      · rw [if_pos hk, if_neg fun h => he (hk.trans h), if_pos hk]
      · rw [if_neg hk, if_neg hk]

theorem set_set {b : A} : set key a (set key b es) = set key a es := by
  induction es with
  | nil => simp [set]
  | cons e es ih =>
    rw [set_cons]
    split
    · rw [set_cons, if_pos rfl, set_cons, if_pos (by assumption)]
    · rw [set_cons, if_neg (by assumption), ih, set_cons, if_neg (by assumption)]

theorem get_remove : get k (remove key es) = if k = key then none else get k es := by
  induction es with
  | nil => simp [remove]
  | cons e es ih =>
    unfold remove at ih ⊢
    rw [List.filter_cons, get_cons]
    by_cases he : e.1 = key
    · rw [if_neg (by simpa using he), ih, he]
      by_cases hk : k = key
      · simp [hk]
      · simp [hk, Ne.symm hk]
    · rw [if_pos (by simpa using he), get_cons, ih]
      by_cases hk : e.1 = k
      · rw [if_pos hk, if_neg fun h => he (hk.trans h), if_pos hk]
      · rw [if_neg hk, if_neg hk]

theorem get_map (f : A → B) : get k (es.map fun e => (e.1, f e.2)) = (get k es).map f := by
  induction es with
  | nil => rfl
  | cons e es ih =>
    rw [List.map_cons, get_cons, get_cons, ih]
    by_cases hk : e.1 = k
    · rw [if_pos hk, if_pos hk]
      rfl
    · rw [if_neg hk, if_neg hk]

theorem map_set (f : A → B) :
    (set key a es).map (fun e => (e.1, f e.2)) = set key (f a) (es.map fun e => (e.1, f e.2)) := by
  induction es with
  | nil => rfl
  | cons e es ih =>
    rw [set_cons, List.map_cons, set_cons]
    by_cases he : e.1 = key
    · rw [if_pos he, if_pos he, List.map_cons]
    · rw [if_neg he, if_neg he, List.map_cons, ih]

theorem map_remove (f : A → B) :
    (remove key es).map (fun e => (e.1, f e.2)) = remove key (es.map fun e => (e.1, f e.2)) := by
  unfold remove
  rw [List.filter_map]
  rfl

theorem mem_set {e : String × A} (h : e ∈ set key a es) : e = (key, a) ∨ e ∈ es := by
  induction es with
  | nil => exact .inl (List.mem_singleton.mp h)
  | cons e' es ih =>
    rw [set_cons] at h
    split at h
    · rcases List.mem_cons.mp h with rfl | h
      · exact .inl rfl
      · exact .inr (List.mem_cons_of_mem _ h)
    · rcases List.mem_cons.mp h with rfl | h
      · exact .inr List.mem_cons_self
      · exact (ih h).imp id (List.mem_cons_of_mem _)

theorem mem_of_get (h : get key es = some a) : (key, a) ∈ es := by
  induction es with
  | nil => cases h
  | cons e es ih =>
    rw [get_cons] at h
    split at h
    · rename_i he
      cases h
      rw [← he]
      exact List.mem_cons_self
    · exact List.mem_cons_of_mem _ (ih h)

theorem distinct_set (h : Distinct es) : Distinct (set key a es) := by
  unfold Distinct at *
  induction es with
  | nil => exact List.nodup_singleton key
  | cons e es ih =>
    rw [List.map_cons, List.nodup_cons] at h
    rw [set_cons]
    split
    · rename_i he
      rw [List.map_cons, List.nodup_cons, ← he]
      exact h
    · rename_i he
      rw [List.map_cons, List.nodup_cons]
      refine ⟨fun hmem => ?_, ih h.2⟩
      obtain ⟨e', he', hkey⟩ := List.mem_map.mp hmem
      rcases mem_set he' with rfl | he'
      · exact he hkey.symm
      · exact h.1 (hkey ▸ List.mem_map_of_mem he')

theorem distinct_remove (h : Distinct es) : Distinct (remove key es) :=
  h.sublist (List.filter_sublist.map _)

/-! ## Meanings -/

/-- What a piece of a document means: a table is known by what stands under its keys. -/
inductive Data
  | string (s : String)
  | integer (n : Int)
  | boolean (b : Bool)
  | other (text : String)
  | array (items : List Data)
  | table (entries : List (String × Data))

/-! ## Trees -/

/-- A table with a format, which says how it is spelled, or a value: an inline table is a value. -/
inductive Item (V F : Type)
  | value (v : V)
  | table (format : F) (entries : List (String × Item V F))

variable {V F : Type} {i : Item V F}

mutual

/-- What an item means, from what its values mean. -/
def Item.data (meaning : V → Data) : Item V F → Data
  | .value v => meaning v
  | .table _ entries => .table (entriesData meaning entries)

def entriesData (meaning : V → Data) : List (String × Item V F) → List (String × Data)
  | [] => []
  | e :: es => (e.1, e.2.data meaning) :: entriesData meaning es

end

theorem entriesData_eq (meaning : V → Data) (es : Entries (Item V F)) :
    entriesData meaning es = es.map fun e => (e.1, e.2.data meaning) := by
  induction es with
  | nil => rfl
  | cons e es ih =>
    unfold entriesData
    rw [ih, List.map_cons]

mutual

/-- The item as it is written: a table of a hidden format has no header of its own, so that without
entries nothing is written for it. -/
def Item.written (hidden : F → Bool) : Item V F → Option (Item V F)
  | .value v => some (.value v)
  | .table format entries =>
    let entries := entriesWritten hidden entries
    if hidden format && entries.isEmpty then none else some (.table format entries)

def entriesWritten (hidden : F → Bool) : List (String × Item V F) → List (String × Item V F)
  | [] => []
  | e :: es =>
    match e.2.written hidden with
    | some i => (e.1, i) :: entriesWritten hidden es
    | none => entriesWritten hidden es

end

/-- In no table a key stands twice. -/
inductive Item.Valid : Item V F → Prop
  | value (v : V) : Item.Valid (.value v)
  | table (format : F) {entries : List (String × Item V F)} : Distinct entries →
      (∀ e ∈ entries, Item.Valid e.2) → Item.Valid (.table format entries)

/-- The entries of a table, which an inline table has not. -/
def Item.asTable : Item V F → Option (F × Entries (Item V F))
  | .table format entries => some (format, entries)
  | .value _ => none

/-- A document: its root. -/
structure Document (V F : Type) where
  format : F
  entries : Entries (Item V F)

namespace Document

def Valid (d : Document V F) : Prop := (Item.table d.format d.entries).Valid

def data (meaning : V → Data) (d : Document V F) : Entries Data := entriesData meaning d.entries

/-- The document with an item under a key of the root. -/
def put (d : Document V F) (key : String) (i : Item V F) : Document V F :=
  { d with entries := set key i d.entries }

end Document

theorem Document.get_data (meaning : V → Data) (d : Document V F) :
    get k (d.data meaning) = (get k d.entries).map (Item.data meaning) := by
  unfold Document.data
  rw [entriesData_eq]
  exact get_map _

theorem Item.Valid.distinct {format : F} {es : Entries (Item V F)}
    (h : (Item.table format es).Valid) :
    Distinct es := by
  cases h with
  | table _ hdistinct _ => exact hdistinct

theorem Item.Valid.set {format : F} {es : Entries (Item V F)} (h : (Item.table format es).Valid)
    (hi : i.Valid) : (Item.table format (set key i es)).Valid := by
  cases h with
  | table _ hdistinct hes =>
    refine .table format (distinct_set hdistinct) fun e he => ?_
    rcases mem_set he with rfl | he
    · exact hi
    · exact hes e he

theorem Item.Valid.remove {format : F} {es : Entries (Item V F)}
    (h : (Item.table format es).Valid) :
    (Item.table format (remove key es)).Valid := by
  cases h with
  | table _ hdistinct hes =>
    exact .table format (distinct_remove hdistinct) fun e he => hes e (List.mem_of_mem_filter he)

theorem Item.Valid.of_get {format : F} {es : Entries (Item V F)} (h : (Item.table format es).Valid)
    (hi : get key es = some i) : i.Valid := by
  cases h with
  | table _ _ hes => exact hes _ (mem_of_get hi)

/-! ## What is written -/

section written

variable {hidden : F → Bool} {format : F} {es : Entries (Item V F)}

theorem written_table : (Item.table format es).written hidden =
    if hidden format && (entriesWritten hidden es).isEmpty then none
      else some (.table format (entriesWritten hidden es)) := rfl

theorem entriesWritten_nil : entriesWritten hidden ([] : Entries (Item V F)) = [] := rfl

theorem entriesWritten_cons {e : String × Item V F} :
    entriesWritten hidden (e :: es) =
      match e.2.written hidden with
      | some i => (e.1, i) :: entriesWritten hidden es
      | none => entriesWritten hidden es := rfl

theorem length_written : (entriesWritten hidden es).length ≤ es.length := by
  induction es with
  | nil => exact Nat.le_refl 0
  | cons e es ih =>
    rw [entriesWritten_cons]
    cases e.2.written hidden with
    | some i => exact Nat.succ_le_succ ih
    | none => exact Nat.le_succ_of_le ih

/-- Every entry is written as it is. -/
def Complete (hidden : F → Bool) (es : Entries (Item V F)) : Prop := entriesWritten hidden es = es

theorem complete_iff : Complete hidden es ↔ ∀ e ∈ es, e.2.written hidden = some e.2 := by
  unfold Complete
  induction es with
  | nil => simp [entriesWritten_nil]
  | cons e es ih =>
    rw [entriesWritten_cons, List.forall_mem_cons, ← ih]
    cases hi : e.2.written hidden with
    | some i => simp [Prod.ext_iff]
    | none =>
      have hlen : (entriesWritten hidden es).length ≤ es.length := length_written
      simp only [reduceCtorEq, false_and, iff_false]
      intro h
      rw [h] at hlen
      exact absurd hlen (by simp)

theorem Complete.set (h : Complete hidden es) (hi : i.written hidden = some i) :
    Complete hidden (set key i es) := by
  refine complete_iff.mpr fun e he => ?_
  rcases mem_set he with rfl | he
  · exact hi
  · exact complete_iff.mp h e he

theorem Complete.remove (h : Complete hidden es) : Complete hidden (remove key es) :=
  complete_iff.mpr fun e he => complete_iff.mp h e (List.mem_of_mem_filter he)

theorem Complete.of_get (h : Complete hidden es) (hi : get key es = some i) :
    i.written hidden = some i :=
  complete_iff.mp h _ (mem_of_get hi)

theorem Complete.of_table {es' : Entries (Item V F)} (hes : Complete hidden es)
    (hget : get key es = some (.table format es')) : Complete hidden es' := by
  have h := hes.of_get hget
  rw [written_table] at h
  split at h
  · cases h
  · exact (Item.table.inj (Option.some.inj h)).2

/-- A table with its entries is written, unless it is hidden and has none. -/
theorem Complete.table (h : Complete hidden es) :
    (Item.table format es).written hidden =
      if hidden format && es.isEmpty then none else some (.table format es) := by
  rw [written_table, h]

theorem get_written (h : Distinct es) :
    get k (entriesWritten hidden es) = (get k es).bind (Item.written hidden) := by
  unfold Distinct at h
  induction es with
  | nil => rfl
  | cons e es ih =>
    rw [List.map_cons, List.nodup_cons] at h
    rw [entriesWritten_cons, get_cons]
    by_cases hk : e.1 = k
    · have hnone : get k es = none := by
        by_contra hsome
        obtain ⟨i, hi⟩ := Option.ne_none_iff_exists'.mp hsome
        exact h.1 (hk ▸ List.mem_map_of_mem (mem_of_get hi))
      rw [if_pos hk, Option.bind_some]
      cases e.2.written hidden with
      | some i => exact if_pos hk
      | none => exact (ih h.2).trans (by rw [hnone]; rfl)
    · rw [if_neg hk, ← ih h.2]
      cases e.2.written hidden with
      | some i => exact if_neg hk
      | none => rfl

/-- Where no format is hidden everything is written. -/
theorem entriesWritten_none (h : ∀ f, hidden f = false) : ∀ es : Entries (Item V F),
    entriesWritten hidden es = es
  | [] => rfl
  | (name, .value v) :: es => by
    rw [entriesWritten_cons]
    exact congrArg _ (entriesWritten_none h es)
  | (name, .table format entries) :: es => by
    rw [entriesWritten_cons]
    dsimp only
    rw [Complete.table (entriesWritten_none h entries), h format]
    exact congrArg _ (entriesWritten_none h es)

end written

/-! ## Libraries -/

/-- A library that reads a document, builds values, and writes a document. -/
structure Editor where
  Value : Type
  Format : Type
  /-- The format of a new table. -/
  fresh : Format
  /-- The formats of tables without a header: implicit tables and those of dotted keys. -/
  hidden : Format → Bool
  meaning : Value → Data
  ofString : String → Value
  /-- An inline table of strings. -/
  ofInline : Entries String → Value
  parse : String → Except String (Document Value Format)
  print : Document Value Format → String

/-- The library implements TOML: what is built means what it is built of, a text that is read is a
valid document which is written in full, and a valid document is written as a text of the meaning of
what is written. -/
structure Editor.Implements (ed : Editor) : Prop where
  string : ∀ s, ed.meaning (ed.ofString s) = .string s
  inline : ∀ es : Entries String, Distinct es →
    ed.meaning (ed.ofInline es) = .table (es.map fun e => (e.1, .string e.2))
  valid : ∀ {text doc}, ed.parse text = .ok doc → doc.Valid
  complete : ∀ {text doc}, ed.parse text = .ok doc → Complete ed.hidden doc.entries
  print : ∀ {doc : Document ed.Value ed.Format}, doc.Valid →
    ∃ doc', ed.parse (ed.print doc) = .ok doc' ∧
      doc'.data ed.meaning = entriesData ed.meaning (entriesWritten ed.hidden doc.entries)

/-! ## A library that numbers documents -/

namespace numbered

/-- The number of a list, from the numbers of its elements. -/
def listCode (f : A → Nat) : List A → Nat
  | [] => 0
  | a :: as => Nat.pair (f a) (listCode f as) + 1

attribute [local simp] listCode

theorem listCode_injective {f : A → Nat} (hf : f.Injective) : (listCode f).Injective := by
  intro as
  induction as with
  | nil =>
    intro bs h
    cases bs with
    | nil => rfl
    | cons b bs => simp [listCode] at h
  | cons a as ih =>
    intro bs h
    cases bs with
    | nil => simp [listCode] at h
    | cons b bs =>
      simp only [listCode, Nat.add_right_cancel_iff, Nat.pair_eq_pair] at h
      rw [hf h.1, ih h.2]

def textCode (s : String) : Nat := listCode Char.toNat s.toList

theorem textCode_injective : textCode.Injective := fun _ _ h =>
  String.toList_inj.mp (listCode_injective (fun _ _ => Char.toNat_inj.mp) h)

def pairCode (e : String × String) : Nat := Nat.pair (textCode e.1) (textCode e.2)

theorem pairCode_injective : pairCode.Injective := fun _ _ h =>
  have h := Nat.pair_eq_pair.mp h
  Prod.ext (textCode_injective h.1) (textCode_injective h.2)

/-- A string, or an inline table of strings. -/
inductive Value
  | string (s : String)
  | inline (entries : Entries String)

def Value.meaning : Value → Data
  | string s => .string s
  | inline entries => .table (entries.map fun e => (e.1, .string e.2))

def Value.code : Value → Nat
  | string s => Nat.pair 0 (textCode s)
  | inline entries => Nat.pair 1 (listCode pairCode entries)

attribute [local simp] Value.code

theorem Value.code_injective : Value.code.Injective := by
  intro v w h
  cases v <;> cases w <;> simp only [Value.code, Nat.pair_eq_pair] at h <;> try omega
  case string.string s t => rw [textCode_injective h.2]
  case inline.inline s t => rw [listCode_injective pairCode_injective h.2]

mutual

def itemCode : Item Value Unit → Nat
  | .value v => Nat.pair 0 v.code
  | .table _ entries => Nat.pair 1 (entriesCode entries)

def entriesCode : List (String × Item Value Unit) → Nat
  | [] => 0
  | e :: es => Nat.pair (Nat.pair (textCode e.1) (itemCode e.2)) (entriesCode es) + 1

end

attribute [local simp] itemCode entriesCode

mutual

theorem itemCode_inj (i j : Item Value Unit) (h : itemCode i = itemCode j) : i = j := by
  cases i <;> cases j <;> simp only [itemCode, Nat.pair_eq_pair] at h <;> try omega
  case value.value v w => rw [Value.code_injective h.2]
  case table.table f es g es' => rw [entriesCode_inj es es' h.2]

theorem entriesCode_inj (es es' : List (String × Item Value Unit))
    (h : entriesCode es = entriesCode es') : es = es' := by
  cases es with
  | nil =>
    cases es' with
    | nil => rfl
    | cons e' es' => simp [entriesCode] at h
  | cons e es =>
    cases es' with
    | nil => simp [entriesCode] at h
    | cons e' es' =>
      simp only [entriesCode, Nat.add_right_cancel_iff, Nat.pair_eq_pair] at h
      have he : e = e' := Prod.ext (textCode_injective h.1.1) (itemCode_inj e.2 e'.2 h.1.2)
      rw [he, entriesCode_inj es es' h.2]

end

/-- The text of a number: so many marks. -/
def marks (n : Nat) : String := String.ofList (List.replicate n '#')

theorem marks_injective : marks.Injective := fun m n h => by
  have h := String.ofList_injective h
  rw [← List.length_replicate (n := m), h, List.length_replicate]

/-- One document has a spelling of its own, every other is written as the marks of its number. -/
noncomputable def spell (d : Document Value Unit) (text : String) (doc : Document Value Unit) :
  String :=
  open Classical in if doc = d then text else marks (entriesCode doc.entries)

variable {d : Document Value Unit} {text : String}

theorem spell_injective (htext : ∀ n, marks n ≠ text) : (spell d text).Injective := by
  intro doc doc' h
  unfold spell at h
  split at h <;> split at h
  · rw [‹doc = d›, ‹doc' = d›]
  · exact absurd h.symm (htext _)
  · exact absurd h (htext _)
  · have hes := entriesCode_inj _ _ (marks_injective h)
    cases doc
    cases doc'
    cases hes
    rfl

/-- The library that writes documents so, and reads what it writes. -/
noncomputable def editor (d : Document Value Unit) (text : String) : Editor where
  Value := Value
  Format := Unit
  fresh := ()
  hidden := fun _ => false
  meaning := Value.meaning
  ofString := .string
  ofInline := .inline
  parse := fun s => open Classical in
    if h : ∃ doc : Document Value Unit, doc.Valid ∧ spell d text doc = s then .ok h.choose
    else .error "no document"
  print := spell d text

theorem editor_parse (htext : ∀ n, marks n ≠ text) {doc : Document Value Unit} (hdoc : doc.Valid) :
    (editor d text).parse (spell d text doc) = .ok doc := by
  have h : ∃ doc' : Document Value Unit, doc'.Valid ∧ spell d text doc' = spell d text doc :=
    ⟨doc, hdoc, rfl⟩
  unfold editor
  dsimp only
  rw [dif_pos h]
  exact congrArg _ (spell_injective htext h.choose_spec.2)

theorem editor_implements (htext : ∀ n, marks n ≠ text) : (editor d text).Implements where
  string _ := rfl
  inline _ _ := rfl
  valid := by
    intro s doc h
    unfold editor at h
    dsimp only at h
    split at h
    · rename_i hex
      cases h
      exact hex.choose_spec.1
    · cases h
  complete _ := entriesWritten_none (fun _ => rfl) _
  print := by
    intro doc hdoc
    refine ⟨doc, editor_parse htext hdoc, ?_⟩
    exact congrArg _ (entriesWritten_none (fun _ => rfl) doc.entries).symm

/-- The document with a spelling of its own is read from it. -/
theorem editor_parse_self (htext : ∀ n, marks n ≠ text) (hd : d.Valid) :
    (editor d text).parse text = .ok d := by
  have hspell : spell d text d = text := by
    unfold spell
    rw [if_pos rfl]
  have h : (editor d text).parse (spell d text d) = .ok d := editor_parse htext hd
  rwa [hspell] at h

end numbered

end base.tomlDoc
