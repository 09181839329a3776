-- The managed memory of the collector (`gc.rs`): each object has a header (its descriptor and
-- its mark word) before its field block, and the kind in the descriptor says where the field
-- block holds pointers.
import Mathlib.Data.List.Basic
import Mathlib.Logic.Relation

namespace runtime.gc

/-! ## The model -/

/-- `KIND_PLAIN`, `KIND_STR`, `KIND_LIST`, `KIND_MAP` and `KIND_REFCOUNTED`. -/
inductive Kind
  | plain
  | str
  | list
  | map
  | refCounted
  deriving DecidableEq

/-- A type descriptor: the kind, the type id of a registered `Drop` (or 0), the offsets of the
pointer fields, those of the owned `@RefCounted` fields, and those of the channel endpoints (with
true for a sender). -/
structure Desc where
  kind : Kind
  typeId : Nat
  ptrOffsets : List Nat
  rcOffsets : List Nat
  endpointOffsets : List (Nat × Bool)

/-- The size of the header. -/
def HEADER : Nat := 16

/-- The memory. The two header words are kept by the base of their object, and every other
word by its address. -/
structure Memory where
  desc : Nat → Desc
  mark : Nat → Nat
  word : Nat → Nat

/-- `is_obj`: the field-block pointer of an object whose base is known. -/
def isObj (bases : List Nat) (fb : Nat) : Bool :=
  fb != 0 && decide (HEADER ≤ fb) && bases.contains (fb - HEADER)

/-- The pointers of a map slot, `[state][key][val]`: only an occupied one has any. -/
def slotPointers (m : Memory) (keyIsPtr valIsPtr : Bool) (slot : Nat) : List Nat :=
  if m.word slot = 1 then
    (if keyIsPtr then [m.word (slot + 8)] else []) ++
      (if valIsPtr then [m.word (slot + 16)] else [])
  else []

/-- What `mark_reachable` reads as pointers from the object at `fb`, in the order it reads. -/
def scan (m : Memory) (fb : Nat) : List Nat :=
  match (m.desc (fb - HEADER)).kind with
  | .plain | .refCounted => (m.desc (fb - HEADER)).ptrOffsets.map fun off => m.word (fb + off)
  | .list =>
    -- the handle is [len][cap][buf][elem_is_ptr][endpoint_kind]
    let len := m.word fb
    let buf := m.word (fb + 16)
    let elemIsPtr := m.word (fb + 24) != 0
    buf :: if elemIsPtr && buf != 0 then
      (List.range len).map fun i => m.word (buf + i * 8) else []
  | .map =>
    -- the handle is [len][cap][buf][key_is_ptr][val_is_ptr]
    let cap := m.word (fb + 8)
    let buf := m.word (fb + 16)
    let keyIsPtr := m.word (fb + 24) != 0
    let valIsPtr := m.word (fb + 32) != 0
    buf :: if buf != 0 && (keyIsPtr || valIsPtr) then
      (List.range cap).flatMap fun i => slotPointers m keyIsPtr valIsPtr (buf + i * 24) else []
  | .str => []

/-- The objects that `mark_reachable` pushes for the object at `fb`. -/
def children (m : Memory) (bases : List Nat) (fb : Nat) : List Nat :=
  (scan m fb).filter (isObj bases)

/-! ## What an object holds -/

/-- The object at `fb` holds this pointer: in a traced field, as its buffer, as an element of
a list of pointers, or as the key or value of an occupied slot. -/
inductive Holds (m : Memory) (fb : Nat) : Nat → Prop
  | field {off : Nat} (hk : (m.desc (fb - HEADER)).kind = .plain ∨
      (m.desc (fb - HEADER)).kind = .refCounted)
      (hoff : off ∈ (m.desc (fb - HEADER)).ptrOffsets) : Holds m fb (m.word (fb + off))
  | listBuffer (hk : (m.desc (fb - HEADER)).kind = .list) : Holds m fb (m.word (fb + 16))
  | element {i : Nat} (hk : (m.desc (fb - HEADER)).kind = .list) (hptr : m.word (fb + 24) ≠ 0)
      (hbuf : m.word (fb + 16) ≠ 0) (hi : i < m.word fb) :
      Holds m fb (m.word (m.word (fb + 16) + i * 8))
  | mapBuffer (hk : (m.desc (fb - HEADER)).kind = .map) : Holds m fb (m.word (fb + 16))
  | key {i : Nat} (hk : (m.desc (fb - HEADER)).kind = .map) (hptr : m.word (fb + 24) ≠ 0)
      (hbuf : m.word (fb + 16) ≠ 0) (hi : i < m.word (fb + 8))
      (hstate : m.word (m.word (fb + 16) + i * 24) = 1) :
      Holds m fb (m.word (m.word (fb + 16) + i * 24 + 8))
  | value {i : Nat} (hk : (m.desc (fb - HEADER)).kind = .map) (hptr : m.word (fb + 32) ≠ 0)
      (hbuf : m.word (fb + 16) ≠ 0) (hi : i < m.word (fb + 8))
      (hstate : m.word (m.word (fb + 16) + i * 24) = 1) :
      Holds m fb (m.word (m.word (fb + 16) + i * 24 + 16))

/-- An object of the heap holds a pointer to another one; both are given by their bases. -/
def Edge (m : Memory) (bases : List Nat) (a b : Nat) : Prop :=
  b ∈ bases ∧ Holds m (a + HEADER) (b + HEADER)

theorem isObj_iff {bases : List Nat} {fb : Nat} :
    isObj bases fb = true ↔ HEADER ≤ fb ∧ fb - HEADER ∈ bases := by
  have hpos : HEADER ≤ fb → fb ≠ 0 := by unfold HEADER; omega
  simp only [isObj, Bool.and_eq_true, bne_iff_ne, decide_eq_true_eq, List.contains_iff_mem]
  exact ⟨fun h => ⟨h.1.2, h.2⟩, fun h => ⟨⟨hpos h.1, h.1⟩, h.2⟩⟩

@[simp] theorem isObj_base {bases : List Nat} {b : Nat} :
    isObj bases (b + HEADER) = true ↔ b ∈ bases := by
  rw [isObj_iff, Nat.add_sub_cancel]
  exact and_iff_right (Nat.le_add_left ..)

theorem mem_slotPointers {m : Memory} {keyIsPtr valIsPtr : Bool} {slot p : Nat} :
    p ∈ slotPointers m keyIsPtr valIsPtr slot ↔
      m.word slot = 1 ∧ ((keyIsPtr = true ∧ p = m.word (slot + 8)) ∨
        (valIsPtr = true ∧ p = m.word (slot + 16))) := by
  unfold slotPointers
  by_cases hs : m.word slot = 1
  · cases keyIsPtr <;> cases valIsPtr <;> simp [hs]
  · simp [hs]

/-- The scan misses no pointer of any kind of object, and reads nothing else. -/
theorem mem_scan {m : Memory} {fb p : Nat} : p ∈ scan m fb ↔ Holds m fb p := by
  constructor
  · intro h
    unfold scan at h
    split at h
    · rename_i hk
      obtain ⟨off, hoff, rfl⟩ := List.mem_map.mp h
      exact .field (Or.inl hk) hoff
    · rename_i hk
      obtain ⟨off, hoff, rfl⟩ := List.mem_map.mp h
      exact .field (Or.inr hk) hoff
    · rename_i hk
      rcases List.mem_cons.mp h with rfl | h
      · exact .listBuffer hk
      · split at h
        · rename_i hc
          simp only [Bool.and_eq_true, bne_iff_ne] at hc
          obtain ⟨i, hi, rfl⟩ := List.mem_map.mp h
          exact .element hk hc.1 hc.2 (List.mem_range.mp hi)
        · exact absurd h List.not_mem_nil
    · rename_i hk
      rcases List.mem_cons.mp h with rfl | h
      · exact .mapBuffer hk
      · split at h
        · rename_i hc
          simp only [Bool.and_eq_true, bne_iff_ne] at hc
          obtain ⟨i, hi, hp⟩ := List.mem_flatMap.mp h
          rw [mem_slotPointers] at hp
          obtain ⟨hstate, ⟨hkey, rfl⟩ | ⟨hval, rfl⟩⟩ := hp
          · exact .key hk (bne_iff_ne.mp hkey) hc.1 (List.mem_range.mp hi) hstate
          · exact .value hk (bne_iff_ne.mp hval) hc.1 (List.mem_range.mp hi) hstate
        · exact absurd h List.not_mem_nil
    · exact absurd h List.not_mem_nil
  · intro h
    unfold scan
    cases h with
    | field hk hoff =>
      rcases hk with hk | hk <;> rw [hk] <;> exact List.mem_map.mpr ⟨_, hoff, rfl⟩
    | listBuffer hk => rw [hk]; exact List.mem_cons_self
    | element hk hptr hbuf hi =>
      rw [hk]
      apply List.mem_cons_of_mem
      rw [if_pos (by simp [hptr, hbuf])]
      exact List.mem_map.mpr ⟨_, List.mem_range.mpr hi, rfl⟩
    | mapBuffer hk => rw [hk]; exact List.mem_cons_self
    | key hk hptr hbuf hi hstate =>
      rw [hk]
      apply List.mem_cons_of_mem
      rw [if_pos (by simp [hptr, hbuf])]
      refine List.mem_flatMap.mpr ⟨_, List.mem_range.mpr hi, mem_slotPointers.mpr ?_⟩
      exact ⟨hstate, Or.inl ⟨by simp [hptr], rfl⟩⟩
    | value hk hptr hbuf hi hstate =>
      rw [hk]
      apply List.mem_cons_of_mem
      rw [if_pos (by simp [hptr, hbuf])]
      refine List.mem_flatMap.mpr ⟨_, List.mem_range.mpr hi, mem_slotPointers.mpr ?_⟩
      exact ⟨hstate, Or.inr ⟨by simp [hptr], rfl⟩⟩

/-- The objects that an object leads to, by their bases. -/
def succ (m : Memory) (bases : List Nat) (base : Nat) : List Nat :=
  (children m bases (base + HEADER)).map (· - HEADER)

theorem mem_succ {m : Memory} {bases : List Nat} {a b : Nat} :
    b ∈ succ m bases a ↔ Edge m bases a b := by
  unfold succ children Edge
  constructor
  · intro h
    obtain ⟨p, hp, rfl⟩ := List.mem_map.mp h
    obtain ⟨hscan, hobj⟩ := List.mem_filter.mp hp
    obtain ⟨hle, hmem⟩ := isObj_iff.mp hobj
    rw [Nat.sub_add_cancel hle]
    exact ⟨hmem, mem_scan.mp hscan⟩
  · rintro ⟨hmem, hholds⟩
    apply List.mem_map.mpr
    exact ⟨b + HEADER, List.mem_filter.mpr ⟨mem_scan.mpr hholds, isObj_base.mpr hmem⟩, by simp⟩

end runtime.gc
