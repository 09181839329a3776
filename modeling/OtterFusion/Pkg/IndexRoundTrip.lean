-- What `parse_index` reads of a text that `write_entries` wrote: the entries, each with the
-- features of a map that has the same lists.
import OtterFusion.Base.Shelves
import OtterFusion.Pkg.IndexText

open Std (TreeMap)
open base.json (Value Denotes)
open base.shelves (Row)

namespace pkg

/-! ## What is published -/

/-- What is published of a version. Its features are a function, so that maps with the same lists
are the same. -/
structure Record (R : Type) where
  deps : List (IndexDep R)
  features : String → Option (List String)
  cksum : String
  yanked : Bool

variable {V R : Type} {lib : Library V R}

/-- A record with another flag. -/
def Record.flag (yanked : Bool) (r : Record R) : Record R := { r with yanked := yanked }

/-- The record of a version that is published. -/
def PublishMetadata.record (metadata : PublishMetadata R) (cksum : String) : Record R where
  deps := metadata.deps
  features := fun f => metadata.features[f]?
  cksum := cksum
  yanked := false

/-- What an index entry publishes. -/
def IndexEntry.published (e : IndexEntry V R) : Row String V (Record R) where
  name := e.name
  vers := e.vers
  data := { deps := e.deps, features := fun f => e.features[f]?, cksum := e.cksum, yanked :=
    e.yanked }

/-! ## Shapes -/

/-- A dependency as it is read. -/
def IndexDep.raw (lib : Library V R) (d : IndexDep R) : RawIndexDep where
  name := d.name
  req := lib.sem.showReq d.req
  optional := d.optional
  defaultFeatures := d.defaultFeatures
  features := d.features
  registry := d.registry

section

attribute [local simp] asString asVec asNullable asBool string strings

@[simp] theorem asString_string (s : String) : asString (string s) = some s := by
  simp

@[simp] theorem asNullable_string (s : String) : asNullable (string s) = some (some s) := by
  simp

end

@[simp] theorem asVec_strings (l : List String) : asVec asString (strings l) = some l := by
  have hall : (l.map string).mapM asString = some l := by
    induction l with
    | nil => rfl
    | cons s l ih => simp [ih]
  exact hall

@[simp] theorem asNullable_null : asNullable .null = some none := rfl

@[simp] theorem asBool_bool (b : Bool) : asBool (.bool b) = some b := rfl

@[simp] theorem ofValue_toValue (d : IndexDep R) :
    RawIndexDep.ofValue (d.toValue lib) = some (d.raw lib) := by
  cases hregistry : d.registry <;>
    simp [RawIndexDep.ofValue, IndexDep.toValue, required, orDefault, field, IndexDep.raw,
      hregistry]

theorem asVec_deps (deps : List (IndexDep R)) :
    asVec RawIndexDep.ofValue (.array (deps.map fun d => d.toValue lib)) =
      some (deps.map fun d => d.raw lib) := by
  have hall : (deps.map fun d => d.toValue lib).mapM RawIndexDep.ofValue =
      some (deps.map fun d => d.raw lib) := by
    induction deps with
    | nil => rfl
    | cons d deps ih => simp [ih]
  exact hall

/-- The members of a map are put one after another. -/
theorem readMembers (l : List (String × List String)) (m : TreeMap String (List String)) :
    (l.map fun p => (p.1.toList, strings p.2)).foldlM readMember m = some (m.insertMany l) := by
  induction l generalizing m with
  | nil => rfl
  | cons p l ih =>
    obtain ⟨f, features⟩ := p
    simp [readMember, ih, TreeMap.insertMany_cons]

/-- A map is the map of its list. -/
theorem insertMany_toList (m : TreeMap String (List String)) (f : String) :
    ((∅ : TreeMap String (List String)).insertMany m.toList)[f]? = m[f]? := by
  cases hf : m[f]? with
  | some l =>
    have hmem : (f, l) ∈ m.toList := TreeMap.mem_toList_iff_getElem?_eq_some.mpr hf
    exact TreeMap.getElem?_insertMany_list_of_mem (by simp) TreeMap.distinct_keys_toList hmem
  | none =>
    rw [TreeMap.getElem?_insertMany_list_of_contains_eq_false]
    · simp
    · apply Bool.eq_false_iff.mpr
      intro hcontains
      obtain ⟨p, hp, rfl⟩ := List.mem_map.mp (List.contains_iff_mem.mp hcontains)
      have hsome : m[p.1]? = some p.2 := TreeMap.mem_toList_iff_getElem?_eq_some.mp hp
      rw [hsome] at hf
      cases hf

/-- An entry as it is read, but for its features. -/
def IndexEntry.raw (lib : Library V R) (e : IndexEntry V R) : RawIndexLine where
  name := e.name
  vers := lib.sem.showVersion e.vers
  deps := e.deps.map fun d => d.raw lib
  features := (∅ : TreeMap String (List String)).insertMany e.features.toList
  cksum := e.cksum
  yanked := e.yanked

theorem ofMembers_members (e : IndexEntry V R) :
    RawIndexLine.ofMembers (e.members lib) = some (e.raw lib) := by
  have hmap : asMap (.object (e.features.toList.map fun p => (p.1.toList, strings p.2))) =
      some ((∅ : TreeMap String (List String)).insertMany e.features.toList) := readMembers _ _
  simp [RawIndexLine.ofMembers, IndexEntry.members, required, orDefault, field, IndexEntry.raw,
    asVec_deps, hmap]

/-! ## Depth -/

theorem depth_strings (l : List String) : (strings l).depth ≤ 1 := by
  have hitems : Value.itemsDepth (l.map string) ≤ 0 := by
    apply Value.itemsDepth_le
    intro v hv
    obtain ⟨s, _, rfl⟩ := List.mem_map.mp hv
    simp [string, Value.depth]
  simp [strings, Value.depth, Nat.le_zero.mp hitems]

theorem depth_toValue (d : IndexDep R) : (d.toValue lib).depth ≤ 2 := by
  have hstrings := depth_strings d.features
  cases hregistry : d.registry <;>
    simp [IndexDep.toValue, Value.depth, Value.membersDepth, string, hregistry, hstrings]

theorem depth_members (e : IndexEntry V R) : (Value.object (e.members lib)).depth < 128 := by
  have hdeps : Value.itemsDepth (e.deps.map fun d => d.toValue lib) ≤ 2 := by
    apply Value.itemsDepth_le
    intro v hv
    obtain ⟨d, _, rfl⟩ := List.mem_map.mp hv
    exact depth_toValue d
  have hfeatures :
      Value.membersDepth (e.features.toList.map fun p => (p.1.toList, strings p.2)) ≤ 1 := by
    apply Value.membersDepth_le
    intro m hm
    obtain ⟨p, _, rfl⟩ := List.mem_map.mp hm
    exact depth_strings p.2
  simp only [IndexEntry.members, Value.depth, Value.membersDepth, string]
  omega

/-! ## Lines -/

theorem mapError_eq_ok {A E E' : Type} {f : E → E'} {x : Except E A} {a : A} (h : x = .ok a) :
    x.mapError f = .ok a := by
  rw [h]
  rfl

theorem intoDep_raw (hlib : lib.Documented) (d : IndexDep R) : (d.raw lib).intoDep lib = .ok d := by
  unfold RawIndexDep.intoDep IndexDep.raw
  rw [mapError_eq_ok (hlib.requirement d.req)]
  rfl

/-- A line is read as an entry that publishes the same. -/
theorem intoEntry_raw (hlib : lib.Documented) (e : IndexEntry V R) :
    ∃ e', (e.raw lib).intoEntry lib = .ok e' ∧ e'.published = e.published := by
  have hdeps : (e.deps.map fun d => d.raw lib).mapM (fun d => d.intoDep lib) = .ok e.deps := by
    induction e.deps with
    | nil => rfl
    | cons d deps ih =>
      rw [List.map_cons, List.mapM_cons, intoDep_raw hlib, ih]
      rfl
  refine ⟨{ e with features := (∅ : TreeMap String (List String)).insertMany e.features.toList },
    ?_, ?_⟩
  · unfold RawIndexLine.intoEntry IndexEntry.raw
    rw [mapError_eq_ok ((hlib.version _ e.vers).mpr rfl), hdeps]
    rfl
  · simp [IndexEntry.published, insertMany_toList]

theorem fromStr_indexLine (hlib : lib.Documented) (e : IndexEntry V R) :
    lib.fromStr (indexLine lib e) = .ok (e.raw lib) :=
  hlib.reads _ _ _ (hlib.denotes _) (depth_members e) (ofMembers_members e)

/-- A line without control characters is a line of its own. -/
theorem lines_append {line : List Char} (hline : ∀ c ∈ line, 0x20 ≤ c.toNat) (rest : List Char) :
    lines (line ++ '\n' :: rest) = line :: lines rest := by
  induction line with
  | nil => rfl
  | cons c line ih =>
    obtain ⟨hc, hrest⟩ := List.forall_mem_cons.mp hline
    rw [List.cons_append, lines, ih hrest]
    · rintro rfl
      exact absurd hc (by decide)
    · rintro _ rfl
      exact absurd hc (by decide)

theorem trim_braces (inner : List Char) : trim ('{' :: (inner ++ ['}'])) =
    '{' :: (inner ++ ['}']) := by
  have hopen : compiler.lexer.isWhitespace '{' = false := by decide
  have hclose : compiler.lexer.isWhitespace '}' = false := by decide
  simp [trim, hopen, hclose]

theorem toList_indexText (entries : List (IndexEntry V R)) :
    (indexText lib entries).toList =
      entries.flatMap fun e => (indexLine lib e).toList ++ ['\n'] := by
  have hfold : ∀ text : String,
      (entries.foldl (fun text e => text ++ indexLine lib e ++ "\n") text).toList =
        text.toList ++ entries.flatMap fun e => (indexLine lib e).toList ++ ['\n'] := by
    induction entries with
    | nil => simp
    | cons e entries ih =>
      intro text
      rw [List.foldl_cons, ih]
      simp
  simpa [indexText] using hfold ""

/-- The turn of a line that was written. -/
theorem parseLine_indexLine (hlib : lib.Documented) (out : List (IndexEntry V R))
    (e : IndexEntry V R) :
    ∃ e', parseLine lib out (indexLine lib e).toList = .ok (out ++ [e']) ∧
      e'.published = e.published := by
  obtain ⟨e', hentry, hsame⟩ := intoEntry_raw hlib e
  obtain ⟨inner, hinner⟩ := hlib.braces (e.members lib)
  have htrim : trim (indexLine lib e).toList = (indexLine lib e).toList := by
    unfold indexLine
    rw [hinner, trim_braces]
  have hsome : (indexLine lib e).toList ≠ [] := by
    unfold indexLine
    simp [hinner]
  refine ⟨e', ?_, hsame⟩
  unfold parseLine
  rw [htrim, if_neg hsome, String.ofList_toList, mapError_eq_ok (fromStr_indexLine hlib e)]
  show (do return out ++ [← (e.raw lib).intoEntry lib]) = _
  rw [hentry]
  rfl

/-- The text of entries is parsed as entries that publish the same. -/
theorem parseIndex_indexText (hlib : lib.Documented) (entries : List (IndexEntry V R)) :
    ∃ entries', parseIndex lib (indexText lib entries) = .ok entries' ∧
      entries'.map IndexEntry.published = entries.map IndexEntry.published := by
  have hfold : ∀ out : List (IndexEntry V R), ∃ entries',
      (lines (entries.flatMap fun e => (indexLine lib e).toList ++ ['\n'])).foldlM
        (parseLine lib) out =
        .ok (out ++ entries') ∧
      entries'.map IndexEntry.published = entries.map IndexEntry.published := by
    induction entries with
    | nil => exact fun out => ⟨[], by simp [lines, pure, Except.pure], rfl⟩
    | cons e entries ih =>
      intro out
      obtain ⟨e', hline, hsame⟩ := parseLine_indexLine hlib out e
      obtain ⟨entries', hrest, hrest'⟩ := ih (out ++ [e'])
      have hchars : ∀ c ∈ (indexLine lib e).toList, 0x20 ≤ c.toNat := hlib.line _
      refine ⟨e' :: entries', ?_, by simp [hsame, hrest']⟩
      rw [List.flatMap_cons, List.append_assoc, List.singleton_append, lines_append hchars,
        List.foldlM_cons, hline]
      show List.foldlM _ _ _ = _
      rw [hrest]
      simp
  unfold parseIndex
  rw [toList_indexText]
  simpa using hfold []

end pkg
