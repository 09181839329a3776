-- Hash tables with linear probing and tombstones: where a key may lie, and what it takes to put a
-- key in a slot, to overwrite it and to remove it.
import OtterFusion.Base.KeyedMaps

namespace base.probing

open base.keyed

variable {K V : Type}

/-! ## Slots -/

/-- A slot of a table. -/
inductive Slot (K V : Type)
  | empty
  | full (key : K) (value : V)
  | tombstone

/-- Whether a slot holds a key. -/
def Slot.isFull : Slot K V → Bool
  | .full _ _ => true
  | _ => false

/-- The place that is `d` slots after the home of a hash, in a table of `n` slots. -/
def place (n h d : Nat) : Nat := (h + d) % n

/-- Each place of a table lies at some distance from a home. -/
theorem exists_place {n : Nat} (h : Nat) {i : Nat} (hi : i < n) : ∃ d < n, place n h d = i := by
  have hn : 0 < n := by omega
  have hlt : h % n < n := Nat.mod_lt h hn
  refine ⟨(i + (n - h % n)) % n, Nat.mod_lt _ hn, ?_⟩
  have hdiv := Nat.div_add_mod h n
  have hsum : h + (i + (n - h % n)) = i + n * (h / n + 1) := by
    rw [Nat.mul_add, Nat.mul_one]
    omega
  unfold place
  rw [Nat.add_mod_mod, hsum, Nat.add_mul_mod_self_left, Nat.mod_eq_of_lt hi]

theorem place_lt {n : Nat} (hn : 0 < n) (h d : Nat) : place n h d < n := Nat.mod_lt _ hn

/-- The place after a place. -/
theorem place_succ (n h d : Nat) : (place n h d + 1) % n = place n h (d + 1) := by
  unfold place
  rw [Nat.mod_add_mod]
  rfl

/-! ## Tables -/

/-- A search from a home reaches a place: the slots before it are not empty. -/
def Reached (slots : List (Slot K V)) (h i : Nat) : Prop :=
  ∃ d < slots.length, place slots.length h d = i ∧
    ∀ e < d, slots[place slots.length h e]? ≠ some .empty

/-- What a table keeps: a search for a key reaches its slot, and no key has two slots. -/
structure Table (keys : Keys K) (slots : List (Slot K V)) : Prop where
  reached : ∀ (i : Nat) (k : K) (v : V), slots[i]? = some (.full k v) →
    Reached slots (keys.hash k).toNat i
  distinct : ∀ (i j : Nat) (k k' : K) (v v' : V), slots[i]? = some (.full k v) →
    slots[j]? = some (.full k' v') → keys.eq k k' = true → i = j

/-- The finite map that a table holds. -/
def Holds (keys : Keys K) (slots : List (Slot K V)) (m : Contents K V) : Prop :=
  ∀ (k : K) (v : V), m k = some v ↔
    ∃ (i : Nat) (k' : K), slots[i]? = some (.full k' v) ∧ keys.eq k' k = true

variable {keys : Keys K} {slots : List (Slot K V)} {m : Contents K V}

theorem table_empty (keys : Keys K) (n : Nat) :
    Table keys (List.replicate n (Slot.empty : Slot K V)) := by
  have hnone : ∀ (i : Nat) (k : K) (v : V),
      (List.replicate n (Slot.empty : Slot K V))[i]? ≠ some (.full k v) := by
    intro i k v h
    have hmem := List.mem_of_getElem? h
    cases List.eq_of_mem_replicate hmem
  exact ⟨fun i k v h => absurd h (hnone i k v), fun i j k k' v v' h => absurd h (hnone i k v)⟩

theorem holds_empty (keys : Keys K) (n : Nat) :
    Holds keys (List.replicate n (Slot.empty : Slot K V)) Contents.empty := by
  intro k v
  constructor
  · intro h
    cases h
  · rintro ⟨i, k', h, _⟩
    cases List.eq_of_mem_replicate (List.mem_of_getElem? h)

/-- Equal keys have equal values. -/
theorem Holds.respects (h : Holds keys slots m) : m.Respects keys := by
  have hone : ∀ k l v, keys.eq k l = true → m k = some v → m l = some v := by
    intro k l v hkl hv
    obtain ⟨i, k', hi, hk'⟩ := (h k v).mp hv
    exact (h l v).mpr ⟨i, k', hi, keys.trans hk' hkl⟩
  intro k l hkl
  apply Option.ext
  intro v
  exact ⟨hone k l v hkl, hone l k v (keys.symm hkl)⟩

/-- A key without a slot has no value. -/
theorem Holds.none (h : Holds keys slots m) {key : K}
    (hnot : ∀ (i : Nat) (k : K) (v : V), slots[i]? = some (.full k v) → keys.eq k key = false) :
    m key = none := by
  rw [Option.eq_none_iff_forall_ne_some]
  intro v hv
  obtain ⟨i, k', hi, hk'⟩ := (h key v).mp hv
  rw [hnot i k' v hi] at hk'
  cases hk'

/-- A search reaches the same places when no slot becomes empty. -/
theorem Reached.set {h i j : Nat} {s : Slot K V} (hr : Reached slots h i) (hs : s ≠ .empty) :
    Reached (slots.set j s) h i := by
  obtain ⟨d, hd, hi, hbefore⟩ := hr
  refine ⟨d, by rwa [List.length_set], by rwa [List.length_set], fun e he => ?_⟩
  rw [List.length_set, List.getElem?_set]
  split
  · split
    · intro heq
      exact hs (Option.some.inj heq)
    · simp
  · exact hbefore e he

/-- The slot is the one for a key: no other slot has the key, and this one has no other key. -/
def Only (keys : Keys K) (slots : List (Slot K V)) (key : K) (i : Nat) : Prop :=
  ∀ (j : Nat) (k : K) (v : V), slots[j]? = some (.full k v) → (keys.eq k key = true ↔ j = i)

/-- The slot of a key is the one for it. -/
theorem Table.only (h : Table keys slots) {i : Nat} {key k : K} {v : V}
    (hi : slots[i]? = some (.full k v)) (heq : keys.eq k key = true) : Only keys slots key i := by
  intro j k' v' hj
  constructor
  · intro hk'
    exact h.distinct j i k' k v' v hj hi (keys.trans hk' (keys.symm heq))
  · intro hji
    subst hji
    rw [hi] at hj
    cases hj
    exact heq

/-- A free slot is the one for a key that has none. -/
theorem only_of_free {i : Nat} {key : K}
    (hnot : ∀ (j : Nat) (k : K) (v : V), slots[j]? = some (.full k v) → keys.eq k key = false)
    (hfree : ∀ (k : K) (v : V), slots[i]? ≠ some (.full k v)) : Only keys slots key i := by
  intro j k v hj
  constructor
  · intro hk
    rw [hnot j k v hj] at hk
    cases hk
  · intro hji
    subst hji
    exact absurd hj (hfree k v)

/-- What a changed slot means for the full slots. -/
theorem full_of_set {i j : Nat} {s : Slot K V} {k : K} {v : V}
    (h : (slots.set i s)[j]? = some (.full k v)) :
    (j = i ∧ s = .full k v) ∨ (j ≠ i ∧ slots[j]? = some (.full k v)) := by
  by_cases hij : i = j
  · subst hij
    rw [List.getElem?_set] at h
    split at h
    · split at h
      · exact Or.inl ⟨rfl, Option.some.inj h⟩
      · cases h
    · exact Or.inl ⟨rfl, absurd rfl ‹_›⟩
  · rw [List.getElem?_set_ne hij] at h
    exact Or.inr ⟨Ne.symm hij, h⟩

/-- A key is stored in the slot for it. -/
theorem Table.store (h : Table keys slots) {i : Nat} {key : K} (value : V)
    (hr : Reached slots (keys.hash key).toNat i) (honly : Only keys slots key i) :
    Table keys (slots.set i (.full key value)) := by
  refine ⟨fun j k v hj => ?_, fun j j' k k' v v' hj hj' heq => ?_⟩
  · rcases full_of_set hj with ⟨rfl, hs⟩ | ⟨_, hj⟩
    · cases hs
      exact hr.set (by simp)
    · exact (h.reached j k v hj).set (by simp)
  · rcases full_of_set hj with ⟨rfl, hs⟩ | ⟨_, hold⟩
    · rcases full_of_set hj' with ⟨rfl, _⟩ | ⟨_, hold'⟩
      · rfl
      · cases hs
        exact ((honly j' k' v' hold').mp (keys.symm heq)).symm
    · rcases full_of_set hj' with ⟨rfl, hs⟩ | ⟨_, hold'⟩
      · cases hs
        exact (honly j k v hold).mp heq
      · exact h.distinct j j' k k' v v' hold hold' heq

theorem Holds.store (hm : Holds keys slots m) {i : Nat} {key : K} (value : V)
    (hi : i < slots.length) (honly : Only keys slots key i) :
    Holds keys (slots.set i (.full key value)) (m.put keys key value) := by
  intro k v
  unfold Contents.put
  constructor
  · intro hv
    split at hv
    · rename_i heq
      cases hv
      exact ⟨i, key, List.getElem?_set_self hi, heq⟩
    · rename_i hne
      obtain ⟨j, k', hj, hk'⟩ := (hm k v).mp hv
      have hji : i ≠ j := by
        intro hij
        have hkey := (honly j k' v hj).mpr hij.symm
        exact hne (keys.trans (keys.symm hkey) hk')
      exact ⟨j, k', (List.getElem?_set_ne hji).trans hj, hk'⟩
  · rintro ⟨j, k', hj, hk'⟩
    rcases full_of_set hj with ⟨rfl, hs⟩ | ⟨hne, hj⟩
    · cases hs
      rw [if_pos hk']
    · have hkey : ¬keys.eq key k = true := by
        intro hkey
        exact hne ((honly j k' v hj).mp (keys.trans hk' (keys.symm hkey)))
      rw [if_neg hkey]
      exact (hm k v).mpr ⟨j, k', hj, hk'⟩

/-- The slot of a key becomes a tombstone. -/
theorem Table.bury (h : Table keys slots) (i : Nat) : Table keys (slots.set i .tombstone) := by
  refine ⟨fun j k v hj => ?_, fun j j' k k' v v' hj hj' heq => ?_⟩
  · rcases full_of_set hj with ⟨_, hs⟩ | ⟨_, hj⟩
    · cases hs
    · exact (h.reached j k v hj).set (by simp)
  · rcases full_of_set hj with ⟨_, hs⟩ | ⟨_, hj⟩
    · cases hs
    · rcases full_of_set hj' with ⟨_, hs⟩ | ⟨_, hj'⟩
      · cases hs
      · exact h.distinct j j' k k' v v' hj hj' heq

theorem Holds.bury (hm : Holds keys slots m) {i : Nat} {key : K}
    (honly : Only keys slots key i) :
    Holds keys (slots.set i .tombstone) (m.erase keys key) := by
  intro k v
  unfold Contents.erase
  constructor
  · intro hv
    split at hv
    · cases hv
    · rename_i hne
      obtain ⟨j, k', hj, hk'⟩ := (hm k v).mp hv
      have hji : i ≠ j := by
        intro hij
        have hkey := (honly j k' v hj).mpr hij.symm
        exact hne (keys.trans (keys.symm hkey) hk')
      exact ⟨j, k', (List.getElem?_set_ne hji).trans hj, hk'⟩
  · rintro ⟨j, k', hj, hk'⟩
    rcases full_of_set hj with ⟨_, hs⟩ | ⟨hne, hj⟩
    · cases hs
    · have hkey : ¬keys.eq key k = true := by
        intro hkey
        exact hne ((honly j k' v hj).mp (keys.trans hk' (keys.symm hkey)))
      rw [if_neg hkey]
      exact (hm k v).mpr ⟨j, k', hj, hk'⟩

/-! ## Searches -/

/-- What a search for a key has seen when it is `d` slots from its home. -/
structure Seen (keys : Keys K) (slots : List (Slot K V)) (key : K) (d : Nat) : Prop where
  busy : ∀ e < d, slots[place slots.length (keys.hash key).toNat e]? ≠ some .empty
  other : ∀ e < d, ∀ (k : K) (v : V),
    slots[place slots.length (keys.hash key).toNat e]? = some (.full k v) → keys.eq k key = false

/-- A search that meets an empty slot, or that has seen all slots, has missed no slot of the key. -/
theorem Seen.not_found (h : Table keys slots) {key : K} {d : Nat} (hs : Seen keys slots key d)
    (hend : d = slots.length ∨
      slots[place slots.length (keys.hash key).toNat d]? = some .empty) :
    ∀ (j : Nat) (k : K) (v : V), slots[j]? = some (.full k v) → keys.eq k key = false := by
  intro j k v hj
  by_contra hne
  have heq : keys.eq k key = true := by simpa using hne
  obtain ⟨d', hd', hplace, hbusy⟩ := h.reached j k v hj
  rw [keys.hash_eq heq] at hplace hbusy
  rcases Nat.lt_trichotomy d' d with hlt | rfl | hlt
  · have hno := hs.other d' hlt k v (by rw [hplace]; exact hj)
    exact hne hno
  · rcases hend with hend | hend
    · omega
    · rw [hplace, hj] at hend
      cases hend
  · rcases hend with hend | hend
    · omega
    · exact hbusy d hlt hend

/-- In a table with a free slot, a search that has seen all slots has seen a tombstone. -/
theorem Seen.tombstone {key : K} (hs : Seen keys slots key slots.length)
    (hroom : slots.countP Slot.isFull < slots.length) :
    ∃ e < slots.length, slots[place slots.length (keys.hash key).toNat e]? = some .tombstone := by
  have hfree : ∃ s ∈ slots, s.isFull = false := by
    by_contra hall
    have hcount : slots.countP Slot.isFull = slots.length := by
      rw [List.countP_eq_length]
      intro s hs
      by_contra hne
      exact hall ⟨s, hs, by simpa using hne⟩
    omega
  obtain ⟨s, hmem, hfull⟩ := hfree
  obtain ⟨i, hi, hget⟩ := List.getElem_of_mem hmem
  obtain ⟨e, he, hplace⟩ := exists_place (keys.hash key).toNat hi
  have hslot : slots[place slots.length (keys.hash key).toNat e]? = some s := by
    rw [hplace, List.getElem?_eq_getElem hi, hget]
  refine ⟨e, he, ?_⟩
  cases s with
  | empty => exact absurd hslot (hs.busy e he)
  | full k v => cases hfull
  | tombstone => exact hslot

/-! ## The live keys -/

/-- The keys of the full slots with their values, from the first slot on. -/
def pairsOf (slots : List (Slot K V)) : List (K × V) :=
  slots.filterMap fun
    | .full k v => some (k, v)
    | _ => none

theorem mem_pairsOf {k : K} {v : V} :
    (k, v) ∈ pairsOf slots ↔ ∃ i : Nat, slots[i]? = some (.full k v) := by
  unfold pairsOf
  rw [List.mem_filterMap]
  constructor
  · rintro ⟨s, hs, hkv⟩
    cases s with
    | empty => cases hkv
    | full k' v' =>
      cases hkv
      exact List.mem_iff_getElem?.mp hs
    | tombstone => cases hkv
  · rintro ⟨i, hi⟩
    exact ⟨.full k v, List.mem_of_getElem? hi, rfl⟩

theorem length_pairsOf (slots : List (Slot K V)) :
    (pairsOf slots).length = slots.countP Slot.isFull := by
  induction slots with
  | nil => rfl
  | cons s slots ih =>
    cases s with
    | empty => exact ih
    | full k v =>
      rw [List.countP_cons_of_pos rfl, ← ih]
      rfl
    | tombstone => exact ih

/-- The keys of the full slots differ. -/
theorem Table.pairwise (h : Table keys slots) :
    (pairsOf slots).Pairwise fun p q => keys.eq p.1 q.1 = false := by
  unfold pairsOf
  rw [List.pairwise_filterMap, List.pairwise_iff_getElem]
  intro i j hi hj hij p hp q hq
  have hfull : ∀ (n : Nat) (hn : n < slots.length) (p : K × V), (match slots[n] with
      | .full k v => some (k, v)
      | _ => none) = some p → slots[n]? = some (.full p.1 p.2) := by
    intro n hn p hp
    rw [List.getElem?_eq_getElem hn]
    cases hs : slots[n] with
    | empty => rw [hs] at hp; cases hp
    | full k v => rw [hs] at hp; cases hp; rfl
    | tombstone => rw [hs] at hp; cases hp
  by_contra hne
  have hsame := h.distinct i j p.1 q.1 p.2 q.2 (hfull i hi p hp) (hfull j hj q hq)
    (by simpa using hne)
  omega

/-- The keys of the full slots are the live keys, each of them once. -/
theorem Table.lists (h : Table keys slots) (hm : Holds keys slots m) :
    m.Lists keys ((pairsOf slots).map Prod.fst) := by
  constructor
  · rw [List.pairwise_map]
    exact h.pairwise
  · intro k
    constructor
    · rintro ⟨v, hv⟩
      obtain ⟨i, k', hi, hk'⟩ := (hm k v).mp hv
      exact ⟨k', List.mem_map.mpr ⟨(k', v), mem_pairsOf.mpr ⟨i, hi⟩, rfl⟩, hk'⟩
    · rintro ⟨k', hk', heq⟩
      obtain ⟨⟨k', v⟩, hmem, rfl⟩ := List.mem_map.mp hk'
      obtain ⟨i, hi⟩ := mem_pairsOf.mp hmem
      exact ⟨v, (hm k v).mpr ⟨i, k', hi, heq⟩⟩

/-- The values of the full slots are the values of their keys, in the same order. -/
theorem Holds.values (hm : Holds keys slots m) :
    ((pairsOf slots).map Prod.fst).map m = ((pairsOf slots).map Prod.snd).map some := by
  rw [List.map_map, List.map_map]
  apply List.map_congr_left
  rintro ⟨k, v⟩ hmem
  obtain ⟨i, hi⟩ := mem_pairsOf.mp hmem
  exact (hm k v).mpr ⟨i, k, hi, keys.refl k⟩

/-- To put the pairs of a table one after another is to extend by what the table holds. -/
theorem Holds.putAll (h : Table keys slots) (hm : Holds keys slots m) (n : Contents K V) :
    n.putAll keys (pairsOf slots) = n.extend m := by
  funext k
  unfold Contents.extend
  cases hk : m k with
  | none =>
    refine Contents.putAll_other ?_
    rintro ⟨k', v⟩ hmem
    by_contra hne
    obtain ⟨i, hi⟩ := mem_pairsOf.mp hmem
    have hv := (hm k v).mpr ⟨i, k', hi, by simpa using hne⟩
    rw [hk] at hv
    cases hv
  | some v =>
    obtain ⟨i, k', hi, hk'⟩ := (hm k v).mp hk
    exact Contents.putAll_mem h.pairwise (mem_pairsOf.mpr ⟨i, hi⟩) hk'

end base.probing
