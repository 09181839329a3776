-- `Json` as a key (`std/json.otter`): `deep_eq` is an equivalence relation on the values without a
-- NaN, and `deep_hash` agrees with it where the negative zeros of two equal values weigh the same.
import Mathlib.Data.Int.ModEq
import Mathlib.Tactic.Ring
import OtterFusion.Base.Equality
import OtterFusion.Stdlib.Hashes
import OtterFusion.Stdlib.JsonRender

open base.trapping base.json base.equality

namespace stdlib.json

/-! ## Numbers -/

/-- An `f64`. -/
structure F64 where
  sign : Bool
  exponent : BitVec 11
  fraction : BitVec 52
  deriving DecidableEq

def F64.isNaN (x : F64) : Bool := x.exponent == 2047 && x.fraction != 0

def F64.isZero (x : F64) : Bool := x.exponent == 0 && x.fraction == 0

/-- `==` of `f64`: the two zeros are equal. -/
def F64.eq (x y : F64) : Bool := !x.isNaN && !y.isNaN && (x == y || x.isZero && y.isZero)

def zero : F64 := ⟨false, 0, 0⟩

def negativeZero : F64 := ⟨true, 0, 0⟩

theorem F64.isZero_iff {x : F64} : x.isZero = true ↔ x = zero ∨ x = negativeZero := by
  obtain ⟨sign, exponent, fraction⟩ := x
  cases sign <;> simp [F64.isZero, zero, negativeZero]

/-- The two numbers are the same, or both are zeros. -/
theorem F64.eq_iff {x y : F64} (hx : x.isNaN = false) (hy : y.isNaN = false) :
    x.eq y = true ↔ x = y ∨ x.isZero = true ∧ y.isZero = true := by
  simp [F64.eq, hx, hy]

/-! ## `Json.deep_eq` -/

mutual

/-- `Json.deep_eq`. -/
def deepEq : Json F64 → Json F64 → Bool
  | .null, other => match other with
    | .null => true
    | _ => false
  | .bool value, other => match other with
    | .bool value' => value == value'
    | _ => false
  | .number value, other => match other with
    | .number value' => value.eq value'
    | _ => false
  | .str value, other => match other with
    | .str value' => value == value'
    | _ => false
  | .array left, other => match other with
    | .array right => if left.length ≠ right.length then false else sameItems left right
    | _ => false
  | .object left, other => match other with
    | .object right => if left.length ≠ right.length then false else sameEntries left right
    | _ => false

/-- The loop over the items of two arrays in `deep_eq`. -/
def sameItems : List (Json F64) → List (Json F64) → Bool
  | l :: left, right => match right with
    | r :: right => if deepEq l r then sameItems left right else false
    | [] => true
  | [], _ => true

/-- The loop over the entries of an object in `deep_eq`. -/
def sameEntries : List (Text × Json F64) → List (Text × Json F64) → Bool
  | (key, value) :: left, right => match right.lookup key with
    | some r => if deepEq value r then sameEntries left right else false
    | none => false
  | [], _ => true

end

attribute [local simp] deepEq sameItems sameEntries

/-! ## `Json.deep_hash` -/

/-- `__json_hash_add`. -/
def hashAdd (left right : Int) : Panics Int := hash.hashAdd left right

/-- `__json_hash_mix`. -/
def hashMix (left right : Int) : Panics Int := hash.hashMix left right

section hashing

variable {F : Type} (strHash : Text → Nat) (toStr : F → Text)

mutual

/-- `Json.deep_hash`. -/
def deepHash : Json F → Panics Int
  | .null => .value (strHash "json:null".toList % 4294967291)
  | .bool value =>
    if value then .value (strHash "json:true".toList % 4294967291)
    else .value (strHash "json:false".toList % 4294967291)
  | .number value => hashAdd (strHash "json:number".toList) (strHash (toStr value))
  | .str value => hashAdd (strHash "json:str".toList) (strHash value)
  | .array items => hashItems (strHash "json:array".toList % 4294967291) items
  | .object entries => hashEntries (strHash "json:object".toList % 4294967291) entries

/-- The loop over the items of an array in `deep_hash`. -/
def hashItems (out : Int) : List (Json F) → Panics Int
  | [] => .value out
  | item :: items => do hashItems (← hashMix out (← deepHash item)) items

/-- The loop over the entries of an object in `deep_hash`. -/
def hashEntries (out : Int) : List (Text × Json F) → Panics Int
  | [] => .value out
  | (key, value) :: entries => do
    let entryHash ← hashAdd (strHash ("key:".toList ++ key)) (← deepHash value)
    hashEntries (← hashAdd out entryHash) entries

end

attribute [local simp] deepHash hashItems hashEntries

/-! ## The hash that is returned -/

mutual

/-- The number that `deep_hash` returns. -/
def digest : Json F → Int
  | .null => strHash "json:null".toList % 4294967291
  | .bool value =>
    if value then strHash "json:true".toList % 4294967291
    else strHash "json:false".toList % 4294967291
  | .number value => (strHash "json:number".toList + strHash (toStr value)) % hash.modulus
  | .str value => (strHash "json:str".toList + strHash value) % hash.modulus
  | .array items => digestItems (strHash "json:array".toList % 4294967291) items
  | .object entries => digestEntries (strHash "json:object".toList % 4294967291) entries

def digestItems (out : Int) : List (Json F) → Int
  | [] => out
  | item :: items => digestItems ((out * 16777619 + digest item) % hash.modulus) items

def digestEntries (out : Int) : List (Text × Json F) → Int
  | [] => out
  | (key, value) :: entries =>
    digestEntries ((out + (strHash ("key:".toList ++ key) + digest value) % hash.modulus) %
      hash.modulus) entries

end

attribute [local simp] digest digestItems digestEntries

variable {strHash toStr}

theorem hashItems_eq {items : List (Json F)}
    (h : ∀ v ∈ items, deepHash strHash toStr v = .value (digest strHash toStr v)) {out : Int} :
    hashItems strHash toStr out items = .value (digestItems strHash toStr out items) := by
  induction items generalizing out with
  | nil => rfl
  | cons v items ih =>
    obtain ⟨hv, hrest⟩ := List.forall_mem_cons.mp h
    rw [hashItems, hv, Ending.value_bind, hashMix, hash.hashMix_ok, Ending.value_bind, ih hrest,
      digestItems]

theorem hashEntries_eq {entries : List (Text × Json F)}
    (h : ∀ m ∈ entries, deepHash strHash toStr m.2 = .value (digest strHash toStr m.2))
    {out : Int} :
    hashEntries strHash toStr out entries = .value (digestEntries strHash toStr out entries) := by
  induction entries generalizing out with
  | nil => rfl
  | cons m entries ih =>
    obtain ⟨key, v⟩ := m
    obtain ⟨hv, hrest⟩ := List.forall_mem_cons.mp h
    rw [hashEntries, hv, Ending.value_bind, hashAdd, hash.hashAdd_ok, Ending.value_bind, hashAdd,
      hash.hashAdd_ok, Ending.value_bind, ih hrest, digestEntries]

/-- No sum or product in `deep_hash` overflows. -/
theorem deepHash_eq (v : Json F) : deepHash strHash toStr v = .value (digest strHash toStr v) := by
  induction v using Value.induct with
  | null => rfl
  | bool b =>
    cases b with
    | true => rfl
    | false => rfl
  | number x => exact hash.hashAdd_ok _ _
  | str s => exact hash.hashAdd_ok _ _
  | array items ih => exact hashItems_eq ih
  | object entries ih => exact hashEntries_eq ih

end hashing

/-! ## Values that are alike -/

mutual

/-- The keys of each object are different from each other, as those of a map are. -/
def Keyed : Json F64 → Prop
  | .null => True
  | .bool _ => True
  | .number _ => True
  | .str _ => True
  | .array items => ItemsKeyed items
  | .object entries => (entries.map Prod.fst).Nodup ∧ EntriesKeyed entries

def ItemsKeyed : List (Json F64) → Prop
  | [] => True
  | item :: items => Keyed item ∧ ItemsKeyed items

def EntriesKeyed : List (Text × Json F64) → Prop
  | [] => True
  | (_, value) :: entries => Keyed value ∧ EntriesKeyed entries

end

attribute [local simp] Keyed ItemsKeyed EntriesKeyed

mutual

/-- The values are the same but for the order of entries and the signs of zeros. -/
def Alike : Json F64 → Json F64 → Prop
  | .null, other => other = .null
  | .bool value, other => other = .bool value
  | .number x, other => ∃ y, other = .number y ∧ (x = y ∨ x.isZero = true ∧ y.isZero = true)
  | .str value, other => other = .str value
  | .array left, other => ∃ right, other = .array right ∧ ItemsAlike left right
  | .object left, other =>
    ∃ right, other = .object right ∧ left.length = right.length ∧ EntriesAlike left right

/-- Item by item. -/
def ItemsAlike : List (Json F64) → List (Json F64) → Prop
  | [], right => right = []
  | l :: left, right => ∃ r rest, right = r :: rest ∧ Alike l r ∧ ItemsAlike left rest

/-- Each entry has one of the same key. -/
def EntriesAlike : List (Text × Json F64) → List (Text × Json F64) → Prop
  | [], _ => True
  | (key, value) :: left, right => (∃ r, (key, r) ∈ right ∧ Alike value r) ∧ EntriesAlike left right

end

attribute [local simp] Alike ItemsAlike EntriesAlike

theorem itemsKeyed_iff {items : List (Json F64)} : ItemsKeyed items ↔ ∀ v ∈ items, Keyed v := by
  induction items with
  | nil => simp [ItemsKeyed]
  | cons v items ih => simp [ItemsKeyed, ih]

theorem entriesKeyed_iff {entries : List (Text × Json F64)} :
    EntriesKeyed entries ↔ ∀ m ∈ entries, Keyed m.2 := by
  induction entries with
  | nil => simp [EntriesKeyed]
  | cons m entries ih =>
    obtain ⟨key, v⟩ := m
    simp [EntriesKeyed, ih]

theorem itemsAlike_iff {left right : List (Json F64)} :
    ItemsAlike left right ↔ List.Forall₂ Alike left right := by
  induction left generalizing right with
  | nil => simp [ItemsAlike]
  | cons l left ih =>
    rw [List.forall₂_cons_left_iff]
    simp only [ItemsAlike, ih]
    constructor
    · rintro ⟨r, rest, rfl, hr, hrest⟩
      exact ⟨r, rest, hr, hrest, rfl⟩
    · rintro ⟨r, rest, hr, hrest, rfl⟩
      exact ⟨r, rest, rfl, hr, hrest⟩

theorem entriesAlike_iff {left right : List (Text × Json F64)} :
    EntriesAlike left right ↔ ∀ m ∈ left, ∃ r, (m.1, r) ∈ right ∧ Alike m.2 r := by
  induction left with
  | nil => simp [EntriesAlike]
  | cons m left ih =>
    obtain ⟨key, v⟩ := m
    simp [EntriesAlike, ih]

/-- A value as a program has it: no number is a NaN, and the keys of an object are those of a map.
-/
structure Plain (v : Json F64) : Prop where
  numbers : ∀ x ∈ numbers v, x.isNaN = false
  keyed : Keyed v

theorem Plain.item {items : List (Json F64)} (h : Plain (.array items)) {v : Json F64}
    (hv : v ∈ items) : Plain v :=
  ⟨fun x hx => h.numbers x (mem_itemNumbers.mpr ⟨v, hv, hx⟩), itemsKeyed_iff.mp h.keyed v hv⟩

theorem Plain.entry {entries : List (Text × Json F64)} (h : Plain (.object entries))
    {m : Text × Json F64} (hm : m ∈ entries) : Plain m.2 :=
  ⟨fun x hx => h.numbers x (mem_entryNumbers.mpr ⟨m, hm, hx⟩), entriesKeyed_iff.mp h.keyed.2 m hm⟩

theorem lookup_iff {entries : List (Text × Json F64)} (h : (entries.map Prod.fst).Nodup)
    {key : Text}
    {r : Json F64} : entries.lookup key = some r ↔ (key, r) ∈ entries := by
  induction entries with
  | nil => simp
  | cons m entries ih =>
    obtain ⟨key', v⟩ := m
    obtain ⟨hnot, hrest⟩ := List.nodup_cons.mp h
    rw [List.lookup_cons, List.mem_cons]
    by_cases heq : key = key'
    · subst heq
      have hno : (key, r) ∉ entries := fun hmem => hnot (List.mem_map.mpr ⟨_, hmem, rfl⟩)
      simp [hno, eq_comm]
    · rw [beq_false_of_ne heq]
      simp [heq, ih hrest]

theorem sameItems_iff {left right : List (Json F64)} (hlength : left.length = right.length)
    (h : ∀ l ∈ left, ∀ r ∈ right, deepEq l r = true ↔ Alike l r) :
    sameItems left right = true ↔ ItemsAlike left right := by
  induction left generalizing right with
  | nil =>
    obtain rfl := List.eq_nil_of_length_eq_zero hlength.symm
    simp [sameItems, ItemsAlike]
  | cons l left ih =>
    cases right with
    | nil => cases hlength
    | cons r right =>
      have hfirst := h l List.mem_cons_self r List.mem_cons_self
      have hrest := ih (Nat.succ.inj hlength) fun l hl r hr =>
        h l (List.mem_cons_of_mem _ hl) r (List.mem_cons_of_mem _ hr)
      simp [sameItems, ItemsAlike, hfirst, hrest]

theorem sameEntries_iff {left right : List (Text × Json F64)} (hright : (right.map Prod.fst).Nodup)
    (h : ∀ l ∈ left, ∀ r ∈ right, deepEq l.2 r.2 = true ↔ Alike l.2 r.2) :
    sameEntries left right = true ↔ EntriesAlike left right := by
  induction left with
  | nil => simp [sameEntries, EntriesAlike]
  | cons l left ih =>
    obtain ⟨key, v⟩ := l
    obtain ⟨hfirst, hrest⟩ := List.forall_mem_cons.mp h
    rw [sameEntries, EntriesAlike, ← ih hrest]
    cases hlookup : right.lookup key with
    | none =>
      have hno : ∀ r, (key, r) ∉ right := by
        intro r hr
        rw [(lookup_iff hright).mpr hr] at hlookup
        cases hlookup
      simp [hno]
    | some w =>
      have hw := (lookup_iff hright).mp hlookup
      have honly : (∃ r, (key, r) ∈ right ∧ Alike v r) ↔ deepEq v w = true := by
        rw [hfirst (key, w) hw]
        constructor
        · rintro ⟨r, hr, halike⟩
          rw [← lookup_iff hright, hlookup] at hr
          cases hr
          exact halike
        · exact fun halike => ⟨w, hw, halike⟩
      rw [honly]
      simp

/-- `deep_eq` tells which values are alike. -/
theorem deepEq_iff {x : Json F64} (hx : Plain x) :
    ∀ {y : Json F64}, Plain y → (deepEq x y = true ↔ Alike x y) := by
  induction x using Value.induct with
  | null =>
    intro y _
    cases y <;> simp [deepEq, Alike]
  | bool b =>
    intro y _
    cases y with
    | bool b' =>
      have hcomm : b = b' ↔ b' = b := eq_comm
      simpa [deepEq, Alike] using hcomm
    | _ => simp [deepEq, Alike]
  | number n =>
    intro y hy
    cases y with
    | number n' =>
      have hn := hx.numbers n (List.mem_singleton_self n)
      have hn' := hy.numbers n' (List.mem_singleton_self n')
      simp [deepEq, Alike, F64.eq_iff hn hn']
    | _ => simp [deepEq, Alike]
  | str s =>
    intro y _
    cases y with
    | str t =>
      have hcomm : s = t ↔ t = s := eq_comm
      simpa [deepEq, Alike] using hcomm
    | _ => simp [deepEq, Alike]
  | array left ih =>
    intro y hy
    cases y with
    | array right =>
      rw [deepEq, Alike]
      by_cases hlength : left.length = right.length
      · have hitems := sameItems_iff hlength fun l hl r hr => ih l hl (hx.item hl) (hy.item hr)
        simp [hlength, hitems]
      · have hno : ¬ItemsAlike left right := fun h => hlength (itemsAlike_iff.mp h).length_eq
        simp [hlength, hno]
    | _ => simp [deepEq, Alike]
  | object left ih =>
    intro y hy
    cases y with
    | object right =>
      rw [deepEq, Alike]
      have hentries := sameEntries_iff hy.keyed.1 fun l hl r hr =>
        ih l hl (hx.entry hl) (hy.entry hr)
      by_cases hlength : left.length = right.length
      · simp [hlength, hentries]
      · simp [hlength]
    | _ => simp [deepEq, Alike]

/-! ## `deep_eq` is an equivalence relation -/

/-- Entries have the same key. -/
def sameKey (m m' : Text × Json F64) : Bool := decide (m.1 = m'.1)

theorem lawful_sameKey : Lawful sameKey := lawful_image Prod.fst

theorem distinct_keys {entries : List (Text × Json F64)} (h : (entries.map Prod.fst).Nodup) :
    Distinct sameKey entries := by
  unfold List.Nodup at h
  rw [List.pairwise_map] at h
  exact h.imp fun hne => decide_eq_false hne.symm

/-- The entries of two objects that are alike match in some order. -/
theorem entries_matching {left right : List (Text × Json F64)} (hleft : (left.map Prod.fst).Nodup)
    (hlength : left.length = right.length) (h : EntriesAlike left right) :
    ∃ n, right.Perm n ∧ List.Forall₂ (fun l r => l.1 = r.1 ∧ Alike l.2 r.2) left n := by
  refine (distinct_keys hleft).matching lawful_sameKey (fun m hm => ?_) (Nat.le_of_eq hlength.symm)
  obtain ⟨r, hr, halike⟩ := entriesAlike_iff.mp h m hm
  exact ⟨(m.1, r), hr, decide_eq_true rfl, rfl, halike⟩

theorem Alike.refl (x : Json F64) : Alike x x := by
  induction x using Value.induct with
  | null => rfl
  | bool b => rfl
  | number n => exact ⟨n, rfl, .inl rfl⟩
  | str s => rfl
  | array items ih => exact ⟨items, rfl, itemsAlike_iff.mpr (List.forall₂_same.mpr ih)⟩
  | object entries ih =>
    exact ⟨entries, rfl, rfl, entriesAlike_iff.mpr fun m hm => ⟨m.2, hm, ih m hm⟩⟩

theorem Alike.symm {x : Json F64} (hx : Keyed x) : ∀ {y : Json F64}, Alike x y → Alike y x := by
  induction x using Value.induct with
  | null =>
    rintro _ rfl
    rfl
  | bool b =>
    rintro _ rfl
    rfl
  | number n =>
    rintro _ ⟨n', rfl, rfl | ⟨hn, hn'⟩⟩
    · exact ⟨n, rfl, .inl rfl⟩
    · exact ⟨n, rfl, .inr ⟨hn', hn⟩⟩
  | str s =>
    rintro _ rfl
    rfl
  | array left ih =>
    rintro _ ⟨right, rfl, h⟩
    refine ⟨left, rfl, itemsAlike_iff.mpr ?_⟩
    have hkeyed := itemsKeyed_iff.mp hx
    have hpairs := itemsAlike_iff.mp h
    clear h hx
    induction hpairs with
    | nil => exact .nil
    | cons hab _ ih' =>
      obtain ⟨hfirst, hrest⟩ := List.forall_mem_cons.mp ih
      obtain ⟨hkey, hkeys⟩ := List.forall_mem_cons.mp hkeyed
      exact .cons (hfirst hkey hab) (ih' hrest hkeys)
  | object left ih =>
    rintro _ ⟨right, rfl, hlength, h⟩
    refine ⟨left, rfl, hlength.symm, entriesAlike_iff.mpr fun m hm => ?_⟩
    obtain ⟨n, hperm, hpairs⟩ := entries_matching hx.1 hlength h
    obtain ⟨l, hl, hkey, halike⟩ := exists_left hpairs m (hperm.mem_iff.mp hm)
    refine ⟨l.2, ?_, ih l hl (entriesKeyed_iff.mp hx.2 l hl) halike⟩
    rwa [← hkey]

theorem Alike.trans {x : Json F64} :
    ∀ {y z : Json F64}, Alike x y → Alike y z → Alike x z := by
  induction x using Value.induct with
  | null =>
    rintro _ _ rfl h
    exact h
  | bool b =>
    rintro _ _ rfl h
    exact h
  | number n =>
    rintro _ _ ⟨n', rfl, hn⟩ ⟨n'', rfl, hn'⟩
    refine ⟨n'', rfl, ?_⟩
    rcases hn with rfl | ⟨hzero, hzero'⟩
    · exact hn'
    · rcases hn' with rfl | ⟨_, hzero''⟩
      · exact .inr ⟨hzero, hzero'⟩
      · exact .inr ⟨hzero, hzero''⟩
  | str s =>
    rintro _ _ rfl h
    exact h
  | array left ih =>
    rintro _ _ ⟨middle, rfl, h⟩ ⟨right, rfl, h'⟩
    refine ⟨right, rfl, itemsAlike_iff.mpr ?_⟩
    rw [itemsAlike_iff] at h h'
    induction h generalizing right with
    | nil => exact h'
    | cons hab _ ih' =>
      obtain ⟨hfirst, hrest⟩ := List.forall_mem_cons.mp ih
      cases h' with
      | cons hbc htail => exact .cons (hfirst hab hbc) (ih' hrest _ htail)
  | object left ih =>
    rintro _ _ ⟨middle, rfl, hlength, h⟩ ⟨right, rfl, hlength', h'⟩
    refine ⟨right, rfl, hlength.trans hlength', entriesAlike_iff.mpr fun m hm => ?_⟩
    obtain ⟨v, hv, halike⟩ := entriesAlike_iff.mp h m hm
    obtain ⟨w, hw, halike'⟩ := entriesAlike_iff.mp h' _ hv
    exact ⟨w, hw, ih m hm halike halike'⟩

/-- A value that a program can have. -/
structure Tree where
  value : Json F64
  plain : Plain value

/-- `Json.eq`. -/
def Tree.eq (x y : Tree) : Bool := deepEq x.value y.value

theorem Tree.eq_iff {x y : Tree} : x.eq y = true ↔ Alike x.value y.value :=
  deepEq_iff x.plain y.plain

theorem Tree.lawful : Lawful Tree.eq where
  refl x := Tree.eq_iff.mpr (.refl x.value)
  symm {x _} h := Tree.eq_iff.mpr ((Tree.eq_iff.mp h).symm x.plain.keyed)
  trans h h' := Tree.eq_iff.mpr ((Tree.eq_iff.mp h).trans (Tree.eq_iff.mp h'))

/-! ## Negative zeros -/

mutual

/-- The weight of the negative zeros of a value: one is 1, each further item of an array multiplies
the weight before it, and an object adds those of its entries. -/
def negativeZeros : Json F64 → Int
  | .null => 0
  | .bool _ => 0
  | .number x => if x = negativeZero then 1 else 0
  | .str _ => 0
  | .array items => itemZeros 0 items
  | .object entries => entryZeros entries

def itemZeros (weight : Int) : List (Json F64) → Int
  | [] => weight
  | item :: items => itemZeros (weight * 16777619 + negativeZeros item) items

def entryZeros : List (Text × Json F64) → Int
  | [] => 0
  | (_, value) :: entries => negativeZeros value + entryZeros entries

end

attribute [local simp] negativeZeros itemZeros entryZeros

section zeros

variable {strHash : Text → Nat} {toStr : F64 → Text}

/-- The difference between the hashes of the texts of the two zeros. -/
def gap (strHash : Text → Nat) : Int := strHash ['-', '0'] - strHash ['0']

/-- The hash without what its negative zeros add to it. -/
def settled (strHash : Text → Nat) (toStr : F64 → Text) (v : Json F64) : Int :=
  digest strHash toStr v - gap strHash * negativeZeros v

theorem settled_items {items items' : List (Json F64)}
    (h : List.Forall₂ (fun v w =>
      settled strHash toStr v ≡ settled strHash toStr w [ZMOD hash.modulus])
      items items') {out out' w w' : Int}
    (hout : out - gap strHash * w ≡ out' - gap strHash * w' [ZMOD hash.modulus]) :
    digestItems strHash toStr out items - gap strHash * itemZeros w items ≡
      digestItems strHash toStr out' items' - gap strHash * itemZeros w' items'
        [ZMOD hash.modulus] := by
  induction h generalizing out out' w w' with
  | nil => exact hout
  | @cons v v' items items' hv _ ih =>
    refine ih ?_
    have hmod : ∀ n : Int, n % hash.modulus ≡ n [ZMOD hash.modulus] := fun n => Int.mod_modEq n _
    have hturn : ∀ out w v : Int, ∀ d : Int,
        out * 16777619 + d - gap strHash * (w * 16777619 + v) =
          (out - gap strHash * w) * 16777619 + (d - gap strHash * v) := by
      intro out w v d
      ring
    calc (out * 16777619 + digest strHash toStr v) % hash.modulus -
          gap strHash * (w * 16777619 + negativeZeros v)
      _ ≡ out * 16777619 + digest strHash toStr v - gap strHash * (w * 16777619 + negativeZeros v)
          [ZMOD hash.modulus] := (hmod _).sub_right _
      _ = (out - gap strHash * w) * 16777619 + settled strHash toStr v := hturn _ _ _ _
      _ ≡ (out' - gap strHash * w') * 16777619 + settled strHash toStr v' [ZMOD hash.modulus] :=
          (hout.mul_right _).add hv
      _ = out' * 16777619 + digest strHash toStr v' - gap strHash *
        (w' * 16777619 + negativeZeros v') :=
          (hturn _ _ _ _).symm
      _ ≡ (out' * 16777619 + digest strHash toStr v') % hash.modulus -
          gap strHash * (w' * 16777619 + negativeZeros v') [ZMOD hash.modulus] :=
            ((hmod _).symm).sub_right _

/-- What an entry adds to the hash of its object, without negative zeros. -/
def share (strHash : Text → Nat) (toStr : F64 → Text) (m : Text × Json F64) : Int :=
  strHash ("key:".toList ++ m.1) + settled strHash toStr m.2

theorem settled_entries (out : Int) (entries : List (Text × Json F64)) :
    digestEntries strHash toStr out entries - gap strHash * entryZeros entries ≡
      out + (entries.map (share strHash toStr)).sum [ZMOD hash.modulus] := by
  induction entries generalizing out with
  | nil =>
    show out - gap strHash * 0 ≡ out + 0 [ZMOD hash.modulus]
    rw [Int.mul_zero, Int.sub_zero, Int.add_zero]
  | cons m entries ih =>
    obtain ⟨key, v⟩ := m
    rw [digestEntries, entryZeros, List.map_cons, List.sum_cons]
    have hrest :=
      (ih ((out + (strHash ("key:".toList ++ key) + digest strHash toStr v) % hash.modulus) %
      hash.modulus)).sub_right (gap strHash * negativeZeros v)
    have hout : (out + (strHash ("key:".toList ++ key) + digest strHash toStr v) % hash.modulus) %
        hash.modulus ≡ out + (strHash ("key:".toList ++ key) + digest strHash toStr v)
        [ZMOD hash.modulus] := (Int.mod_modEq _ _).trans ((Int.mod_modEq _ _).add_left out)
    have hsum := (hout.add_right (entries.map (share strHash toStr)).sum).sub_right
      (gap strHash * negativeZeros v)
    have hall := hrest.trans hsum
    unfold share settled at hall ⊢
    ring_nf at hall ⊢
    exact hall

/-- The runtime's texts of the two zeros. -/
structure ZeroTexts (toStr : F64 → Text) : Prop where
  zero : toStr zero = ['0']
  negativeZero : toStr negativeZero = ['-', '0']

theorem settled_zero (htexts : ZeroTexts toStr) {x : F64} (hx : x.isZero = true) :
    settled strHash toStr (.number x) ≡ strHash "json:number".toList + strHash ['0']
      [ZMOD hash.modulus] := by
  have hmod := Int.mod_modEq (strHash "json:number".toList + strHash (toStr x) : Int) hash.modulus
  refine (hmod.sub_right _).trans ?_
  rcases F64.isZero_iff.mp hx with rfl | rfl
  · rw [htexts.zero, negativeZeros, if_neg (by decide), Int.mul_zero, Int.sub_zero]
  · rw [htexts.negativeZero, negativeZeros, if_pos rfl, Int.mul_one, gap]
    ring_nf
    rfl

/-- Values that are alike have one hash, but for their negative zeros. -/
theorem Alike.settled_modEq (htexts : ZeroTexts toStr) {x : Json F64} (hx : Keyed x) :
    ∀ {y : Json F64}, Alike x y →
      settled strHash toStr x ≡ settled strHash toStr y [ZMOD hash.modulus] := by
  induction x using Value.induct with
  | null =>
    rintro _ rfl
    rfl
  | bool b =>
    rintro _ rfl
    rfl
  | number n =>
    rintro _ ⟨n', rfl, rfl | ⟨hn, hn'⟩⟩
    · rfl
    · exact (settled_zero htexts hn).trans (settled_zero htexts hn').symm
  | str s =>
    rintro _ rfl
    rfl
  | array left ih =>
    rintro _ ⟨right, rfl, h⟩
    refine settled_items ?_ rfl
    have hkeyed := itemsKeyed_iff.mp hx
    have hpairs := itemsAlike_iff.mp h
    clear h hx
    induction hpairs with
    | nil => exact .nil
    | cons hab _ ih' =>
      obtain ⟨hfirst, hrest⟩ := List.forall_mem_cons.mp ih
      obtain ⟨hkey, hkeys⟩ := List.forall_mem_cons.mp hkeyed
      exact .cons (hfirst hkey hab) (ih' hrest hkeys)
  | object left ih =>
    rintro _ ⟨right, rfl, hlength, h⟩
    obtain ⟨n, hperm, hpairs⟩ := entries_matching hx.1 hlength h
    have hkeyed := entriesKeyed_iff.mp hx.2
    have hsum : (left.map (share strHash toStr)).sum ≡ (n.map (share strHash toStr)).sum
        [ZMOD hash.modulus] := by
      clear h hperm hlength hx
      induction hpairs with
      | nil => rfl
      | cons hab _ ih' =>
        obtain ⟨hfirst, hrest⟩ := List.forall_mem_cons.mp ih
        obtain ⟨hkey, hkeys⟩ := List.forall_mem_cons.mp hkeyed
        rw [List.map_cons, List.map_cons, List.sum_cons, List.sum_cons]
        refine Int.ModEq.add ?_ (ih' hrest hkeys)
        unfold share
        rw [hab.1]
        exact (hfirst hkey hab.2).add_left _
    rw [← (hperm.map (share strHash toStr)).sum_eq] at hsum
    exact (settled_entries _ left).trans ((hsum.add_left _).trans (settled_entries _ right).symm)

theorem digestItems_mod (items : List (Json F64)) {out : Int} (hout : out % hash.modulus = out) :
    digestItems strHash toStr out items % hash.modulus = digestItems strHash toStr out items := by
  induction items generalizing out with
  | nil => exact hout
  | cons item items ih => exact ih (Int.emod_emod_of_dvd _ (Int.dvd_refl _))

theorem digestEntries_mod (entries : List (Text × Json F64)) {out : Int}
    (hout : out % hash.modulus = out) :
    digestEntries strHash toStr out entries % hash.modulus =
      digestEntries strHash toStr out entries := by
  induction entries generalizing out with
  | nil => exact hout
  | cons m entries ih =>
    obtain ⟨key, v⟩ := m
    exact ih (Int.emod_emod_of_dvd _ (Int.dvd_refl _))

/-- A hash is less than the modulus. -/
theorem digest_mod (v : Json F64) : digest strHash toStr v % hash.modulus =
    digest strHash toStr v := by
  have hmod : ∀ n : Int, n % hash.modulus % hash.modulus = n % hash.modulus :=
    fun n => Int.emod_emod_of_dvd n (Int.dvd_refl _)
  cases v with
  | null => exact hmod _
  | bool b =>
    cases b with
    | true => exact hmod _
    | false => exact hmod _
  | number x => exact hmod _
  | str s => exact hmod _
  | array items => exact digestItems_mod items (hmod _)
  | object entries => exact digestEntries_mod entries (hmod _)

/-- Two values that are alike have one hash exactly when their negative zeros weigh the same. -/
theorem Alike.digest_eq_iff (htexts : ZeroTexts toStr) {inverse : Int}
    (hinverse : gap strHash * inverse ≡ 1 [ZMOD hash.modulus]) {x y : Json F64} (hx : Keyed x)
    (h : Alike x y) : digest strHash toStr x = digest strHash toStr y ↔
      negativeZeros x ≡ negativeZeros y [ZMOD hash.modulus] := by
  have hsettled : settled strHash toStr x ≡ settled strHash toStr y [ZMOD hash.modulus] :=
    h.settled_modEq htexts hx
  have hsplit : ∀ v, digest strHash toStr v =
      settled strHash toStr v + gap strHash * negativeZeros v := by
    intro v
    unfold settled
    omega
  have hdigest : digest strHash toStr x = digest strHash toStr y ↔
      digest strHash toStr x ≡ digest strHash toStr y [ZMOD hash.modulus] := by
    unfold Int.ModEq
    rw [digest_mod, digest_mod]
  rw [hdigest, hsplit x, hsplit y]
  constructor
  · intro heq
    have hgap := (Int.ModEq.add_left_cancel hsettled heq).mul_left inverse
    rw [← Int.mul_assoc, ← Int.mul_assoc, Int.mul_comm inverse] at hgap
    have hone : ∀ n, gap strHash * inverse * n ≡ n [ZMOD hash.modulus] := by
      intro n
      have hn := hinverse.mul_right n
      rwa [Int.one_mul] at hn
    exact (hone _).symm.trans (hgap.trans (hone _))
  · exact fun heq => hsettled.add (heq.mul_left _)

end zeros

end stdlib.json
