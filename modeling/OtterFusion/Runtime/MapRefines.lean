-- The runtime map refines a finite map (`map.rs`): a probe finds the slot for a key, so each call
-- does to the table what it is meant to do to the map, through all tombstones and resizes.
import OtterFusion.Runtime.Map

namespace runtime.map

open base.keyed base.probing

variable {K V : Type} {keys : Keys K}

/-! ## Probes -/

/-- What a probe for a key gives: the slot for the key, with or without it. -/
structure Probed (keys : Keys K) (slots : List (Slot K V)) (key : K) (r : Nat × Bool) : Prop where
  lt : r.1 < slots.length
  reached : Reached slots (keys.hash key).toNat r.1
  only : Only keys slots key r.1
  found : r.2 = true → ∃ (k : K) (v : V), slots[r.1]? = some (.full k v)
  missing : r.2 = false → ∀ (k : K) (v : V), slots[r.1]? ≠ some (.full k v)

/-- A table with a free slot, whose capacity is a power of two. -/
structure Ready (keys : Keys K) (m : Map K V) : Prop where
  table : Table keys m.slots
  pow : ∃ p, m.cap = 2 ^ p
  room : m.slots.countP Slot.isFull < m.cap

theorem mask_place {n p : Nat} (hn : n = 2 ^ p) (i : Nat) : i &&& (n - 1) = i % n := by
  rw [hn, Nat.and_two_pow_sub_one_eq_mod]

/-- A first free slot on the way of a search is the one for a key without a slot. -/
theorem probed_free {slots : List (Slot K V)} {key : K} {d e : Nat}
    (hs : Seen keys slots key d) (hnot : ∀ (j : Nat) (k : K) (v : V),
      slots[j]? = some (.full k v) → keys.eq k key = false)
    (he : e ≤ d) (hlt : e < slots.length)
    (hfree : ∀ (k : K) (v : V),
      slots[place slots.length (keys.hash key).toNat e]? ≠ some (.full k v)) :
    Probed keys slots key (place slots.length (keys.hash key).toNat e, false) where
  lt := place_lt (by omega) _ _
  reached := ⟨e, hlt, rfl, fun e' he' => hs.busy e' (by omega)⟩
  only := only_of_free hnot hfree
  found h := by cases h
  missing _ := hfree

/-- The tombstone that a probe remembers lies behind it. -/
def Remembers (slots : List (Slot K V)) (h d : Nat) (firstTomb : Option Nat) : Prop :=
  ∀ t, firstTomb = some t → ∃ e < d, place slots.length h e = t ∧ slots[t]? = some .tombstone

/-- No tombstone lies behind a probe that remembers none. -/
def Complete (slots : List (Slot K V)) (h d : Nat) (firstTomb : Option Nat) : Prop :=
  firstTomb = none → ∀ e < d, slots[place slots.length h e]? ≠ some .tombstone

/-- The loop of a probe: induction on the turns left. -/
theorem probeLoop_probed {m : Map K V} (hr : Ready keys m) {key : K} {n d i : Nat}
    {firstTomb : Option Nat} (hn : n + d = m.cap) (hi : i = place m.cap (keys.hash key).toNat d)
    (hs : Seen keys m.slots key d)
    (htomb : Remembers m.slots (keys.hash key).toNat d firstTomb)
    (hcomplete : Complete m.slots (keys.hash key).toNat d firstTomb) :
    Probed keys m.slots key (probeLoop keys m key n i firstTomb) := by
  obtain ⟨p, hp⟩ := hr.pow
  have hpos : 0 < m.cap := by
    rw [hp]
    exact Nat.two_pow_pos p
  induction n generalizing d i firstTomb with
  | zero =>
    have hd : d = m.slots.length := by
      unfold Map.cap at hn
      omega
    subst hd
    obtain ⟨e, he, hslot⟩ := hs.tombstone hr.room
    cases firstTomb with
    | none => exact absurd hslot (hcomplete rfl e he)
    | some t =>
      obtain ⟨e, he, hplace, htombstone⟩ := htomb t rfl
      unfold probeLoop
      rw [Option.getD_some, ← hplace]
      apply probed_free hs (hs.not_found hr.table (Or.inl rfl)) (by omega) he
      intro k v hfull
      rw [hplace, htombstone] at hfull
      cases hfull
  | succ n ih =>
    have hlt : i < m.slots.length := by
      rw [hi]
      exact place_lt hpos _ _
    have hnext : (i + 1) &&& (m.cap - 1) = place m.cap (keys.hash key).toNat (d + 1) := by
      rw [mask_place hp, hi, place_succ]
    have hslot : m.slots[place m.slots.length (keys.hash key).toNat d]? =
        some (m.slots.getD i .empty) := by
      rw [show place m.slots.length (keys.hash key).toNat d = i from hi.symm,
        List.getD_eq_getElem?_getD, List.getElem?_eq_getElem hlt, Option.getD_some]
    have hbefore : ∀ {P : Nat → Prop}, (∀ e < d, P e) → P d → ∀ e < d + 1, P e := by
      intro P hP hd e he
      rcases Nat.lt_succ_iff_lt_or_eq.mp he with he | rfl
      · exact hP e he
      · exact hd
    unfold probeLoop
    cases hat : m.slots.getD i .empty with
    | empty =>
      rw [hat] at hslot
      have hnot := hs.not_found hr.table (Or.inr hslot)
      cases firstTomb with
      | none =>
        show Probed keys m.slots key (i, false)
        rw [hi]
        apply probed_free hs hnot (le_refl d) (by unfold Map.cap at hn; omega)
        intro k v hfull
        rw [hslot] at hfull
        cases hfull
      | some t =>
        obtain ⟨e, he, hplace, htombstone⟩ := htomb t rfl
        show Probed keys m.slots key (t, false)
        rw [← hplace]
        apply probed_free hs hnot (by omega) (by unfold Map.cap at hn; omega)
        intro k v hfull
        rw [hplace, htombstone] at hfull
        cases hfull
    | tombstone =>
      rw [hat] at hslot
      apply ih (by omega) hnext
      · refine ⟨hbefore hs.busy ?_, hbefore hs.other ?_⟩
        · rw [hslot]
          simp
        · intro k v hfull
          rw [hslot] at hfull
          cases hfull
      · intro t ht
        cases firstTomb with
        | none =>
          cases ht
          exact ⟨d, by omega, hi.symm, by rw [hi]; exact hslot⟩
        | some t' =>
          obtain ⟨e, he, h⟩ := htomb t ht
          exact ⟨e, by omega, h⟩
      · intro hnone
        cases firstTomb <;> cases hnone
    | full k v =>
      rw [hat] at hslot
      dsimp only
      split
      · rename_i heq
        have hfull : m.slots[i]? = some (.full k v) := by
          rw [hi]
          exact hslot
        refine ⟨hlt, ?_, hr.table.only hfull heq, fun _ => ⟨k, v, hfull⟩, fun h => by cases h⟩
        rw [← keys.hash_eq heq]
        exact hr.table.reached i k v hfull
      · rename_i hne
        apply ih (by omega) hnext
        · refine ⟨hbefore hs.busy ?_, hbefore hs.other ?_⟩
          · rw [hslot]
            simp
          · intro k' v' hfull
            rw [hslot] at hfull
            cases hfull
            simpa using hne
        · intro t ht
          obtain ⟨e, he, h⟩ := htomb t ht
          exact ⟨e, by omega, h⟩
        · intro hnone
          apply hbefore (hcomplete hnone)
          rw [hslot]
          simp

theorem mapProbe_probed {m : Map K V} (hr : Ready keys m) (key : K) :
    Probed keys m.slots key (mapProbe keys m key) := by
  obtain ⟨p, hp⟩ := hr.pow
  unfold mapProbe
  apply probeLoop_probed hr (d := 0) rfl
  · rw [mask_place hp]
    rfl
  · exact ⟨fun e he => absurd he (Nat.not_lt_zero e), fun e he => absurd he (Nat.not_lt_zero e)⟩
  · intro t ht
    cases ht
  · intro _ e he
    exact absurd he (Nat.not_lt_zero e)

/-! ## One map -/

/-- What a map keeps: its table, the number of its keys, and a quarter of free slots. -/
structure Good (keys : Keys K) (m : Map K V) : Prop where
  table : Table keys m.slots
  pow : m.cap = 0 ∨ ∃ p, m.cap = 2 ^ p
  len : m.len = m.slots.countP Slot.isFull
  room : m.len * 4 ≤ m.cap * 3

/-- A map that stands for a finite map. -/
structure Stands (keys : Keys K) (m : Map K V) (c : Contents K V) : Prop where
  good : Good keys m
  holds : Holds keys m.slots c

theorem Good.ready {m : Map K V} (h : Good keys m) (hcap : m.cap ≠ 0) : Ready keys m where
  table := h.table
  pow := h.pow.resolve_left hcap
  room := by
    have hroom := h.room
    rw [← h.len]
    omega

theorem isFull_iff {slots : List (Slot K V)} {i : Nat} (hi : i < slots.length) :
    slots[i].isFull = true ↔ ∃ (k : K) (v : V), slots[i]? = some (.full k v) := by
  rw [List.getElem?_eq_getElem hi]
  constructor
  · intro h
    cases hs : slots[i] with
    | empty => rw [hs] at h; cases h
    | full k v => exact ⟨k, v, rfl⟩
    | tombstone => rw [hs] at h; cases h
  · rintro ⟨k, v, h⟩
    rw [Option.some.inj h]
    rfl

/-- A pair is written: the table holds it too, and it has one more key if the key was missing. -/
theorem write_spec {m : Map K V} {c : Contents K V} (hr : Ready keys m)
    (hm : Holds keys m.slots c) (key : K) (val : V) :
    Table keys (m.write keys key val).slots ∧
      Holds keys (m.write keys key val).slots (c.put keys key val) ∧
      (m.write keys key val).slots.countP Slot.isFull = m.slots.countP Slot.isFull +
        if (mapProbe keys m key).2 then 0 else 1 := by
  have hp := mapProbe_probed hr key
  refine ⟨hr.table.store val hp.reached hp.only, hm.store val hp.lt hp.only, ?_⟩
  show (m.slots.set _ _).countP Slot.isFull = _
  have hnew : (Slot.full key val).isFull = true := rfl
  have hlt := hp.lt
  rw [List.countP_set hp.lt]
  cases hfound : (mapProbe keys m key).2 with
  | true =>
    have hfull := (isFull_iff hp.lt).mpr (hp.found hfound)
    have hpos : 0 < m.slots.countP Slot.isFull :=
      List.countP_pos_iff.mpr ⟨_, List.getElem_mem hp.lt, hfull⟩
    rw [if_pos hfull, if_pos hnew, if_pos rfl]
    omega
  | false =>
    have hfree : ¬m.slots[(mapProbe keys m key).1].isFull = true := by
      intro hfull
      obtain ⟨k, v, hkv⟩ := (isFull_iff hp.lt).mp hfull
      exact hp.missing hfound k v hkv
    rw [if_neg hfree, if_pos hnew, if_neg Bool.false_ne_true]
    rfl

theorem write_cap (m : Map K V) (key : K) (val : V) : (m.write keys key val).cap = m.cap :=
  List.length_set

/-- A probe finds a key exactly when it has a value. -/
theorem Probed.found_iff {slots : List (Slot K V)} {c : Contents K V} {key : K} {r : Nat × Bool}
    (hp : Probed keys slots key r) (hm : Holds keys slots c) :
    (r.2 = true ∧ ∃ k v, slots[r.1]? = some (.full k v) ∧ c key = some v) ∨
      (r.2 = false ∧ c key = none) := by
  cases hfound : r.2 with
  | true =>
    obtain ⟨k, v, hkv⟩ := hp.found hfound
    have heq := (hp.only r.1 k v hkv).mpr rfl
    exact Or.inl ⟨rfl, k, v, hkv, (hm key v).mpr ⟨r.1, k, hkv, heq⟩⟩
  | false =>
    refine Or.inr ⟨rfl, hm.none ?_⟩
    intro i k v hkv
    by_contra hne
    have hi := (hp.only i k v hkv).mp (by simpa using hne)
    subst hi
    exact hp.missing hfound k v hkv

/-- The pairs of full slots are written one after another. -/
theorem foldl_full {A : Type} (f : A → K → V → A) (slots : List (Slot K V)) (a : A) :
    slots.foldl (fun a s =>
      match s with
      | .full k v => f a k v
      | _ => a) a = (pairsOf slots).foldl (fun a p => f a p.1 p.2) a := by
  induction slots generalizing a with
  | nil => rfl
  | cons s slots ih =>
    cases s with
    | empty => exact ih a
    | full k v => exact ih (f a k v)
    | tombstone => exact ih a

/-- Pairs with different keys are written into a table with room for them, which has none of their
keys. -/
theorem writes_spec {pairs : List (K × V)} {m : Map K V} {c : Contents K V}
    (hdiff : pairs.Pairwise fun p q => keys.eq p.1 q.1 = false)
    (hnew : ∀ p ∈ pairs, c p.1 = none) (htable : Table keys m.slots) (hpow : ∃ p, m.cap = 2 ^ p)
    (hm : Holds keys m.slots c) (hroom : m.slots.countP Slot.isFull + pairs.length < m.cap) :
    let new := pairs.foldl (fun m p => m.write keys p.1 p.2) m
    Table keys new.slots ∧ Holds keys new.slots (c.putAll keys pairs) ∧ new.cap = m.cap ∧
      new.slots.countP Slot.isFull = m.slots.countP Slot.isFull + pairs.length ∧
      new.len = m.len := by
  induction pairs generalizing m c with
  | nil => exact ⟨htable, hm, rfl, rfl, rfl⟩
  | cons p pairs ih =>
    obtain ⟨hp, hpairs⟩ := List.pairwise_cons.mp hdiff
    rw [List.length_cons] at hroom
    have hr : Ready keys m := ⟨htable, hpow, by omega⟩
    obtain ⟨htable', hm', hcount⟩ := write_spec hr hm p.1 p.2
    have hmissing : (mapProbe keys m p.1).2 = false := by
      rcases (mapProbe_probed hr p.1).found_iff hm with ⟨_, k, v, _, hv⟩ | ⟨hfound, _⟩
      · rw [hnew p List.mem_cons_self] at hv
        cases hv
      · exact hfound
    rw [hmissing, if_neg Bool.false_ne_true] at hcount
    have hnone : ∀ q ∈ pairs, (c.put keys p.1 p.2) q.1 = none := by
      intro q hq
      unfold Contents.put
      rw [hp q hq, if_neg Bool.false_ne_true]
      exact hnew q (List.mem_cons_of_mem p hq)
    have hcap : (m.write keys p.1 p.2).cap = m.cap := write_cap m p.1 p.2
    obtain ⟨h1, h2, h3, h4, h5⟩ := ih hpairs hnone htable' (by rwa [hcap]) hm'
      (by rw [hcap, hcount]; omega)
    refine ⟨h1, h2, h3.trans hcap, ?_, h5⟩
    rw [List.foldl_cons, h4, hcount, List.length_cons]
    omega

theorem mapResize_eq (m : Map K V) (newCap : Nat) : mapResize keys m newCap =
    (pairsOf m.slots).foldl (fun m p => m.write keys p.1 p.2) (m.fresh newCap) :=
  foldl_full (Map.write keys) m.slots (m.fresh newCap)

theorem langMapExtend_eq (d s : Map K V) : langMapExtend keys d s =
    (pairsOf s.slots).foldl (fun d p => langMapSet keys d p.1 p.2) d :=
  foldl_full (langMapSet keys) s.slots d

/-- A resize to a power of two with enough room keeps the map. -/
theorem mapResize_spec {m : Map K V} {c : Contents K V} (h : Stands keys m c) {newCap : Nat}
    (hpow : ∃ p, newCap = 2 ^ p) (hroom : m.len < newCap) :
    Table keys (mapResize keys m newCap).slots ∧ Holds keys (mapResize keys m newCap).slots c ∧
      (mapResize keys m newCap).cap = newCap ∧
      (mapResize keys m newCap).slots.countP Slot.isFull = m.len ∧
      (mapResize keys m newCap).len = m.len := by
  have hcap : (m.fresh newCap).cap = newCap := List.length_replicate
  have hzero : (m.fresh newCap).slots.countP Slot.isFull = 0 := by
    unfold Map.fresh
    rw [List.countP_replicate]
    rfl
  have hlength := length_pairsOf m.slots
  rw [← h.good.len] at hlength
  obtain ⟨h1, h2, h3, h4, h5⟩ := writes_spec (m := m.fresh newCap)
    h.good.table.pairwise (fun _ _ => rfl) (table_empty keys newCap) (by rwa [hcap])
    (holds_empty keys newCap) (by rw [hcap, hzero]; omega)
  rw [h.holds.putAll h.good.table] at h2
  have hextend : Contents.empty.extend c = c := by
    funext k
    exact Option.or_none
  rw [hextend] at h2
  rw [mapResize_eq]
  refine ⟨h1, h2, h3.trans hcap, ?_, h5⟩
  rw [h4, hzero, hlength, Nat.zero_add]

/-- After the growth there is room for one more key. -/
theorem grow_spec {m : Map K V} {c : Contents K V} (h : Stands keys m c) :
    Stands keys (grow keys m) c ∧ ((grow keys m).len + 1) * 4 ≤ (grow keys m).cap * 3 ∧
      (grow keys m).len = m.len := by
  unfold grow
  split
  · have hroom := h.good.room
    have hpow : ∃ p, (if m.cap = 0 then 8 else m.cap * 2) = 2 ^ p := by
      split
      · exact ⟨3, rfl⟩
      · rename_i hne
        obtain ⟨p, hp⟩ := h.good.pow.resolve_left hne
        exact ⟨p + 1, by rw [hp, Nat.pow_succ]⟩
    have hlt : m.len < if m.cap = 0 then 8 else m.cap * 2 := by
      split <;> omega
    obtain ⟨h1, h2, h3, h4, h5⟩ := mapResize_spec h hpow hlt
    refine ⟨⟨⟨h1, Or.inr (by rwa [h3]), by rw [h4, h5], ?_⟩, h2⟩, ?_, h5⟩
    · rw [h3, h5]
      split <;> omega
    · rw [h3, h5]
      split <;> omega
  · rename_i hsmall
    exact ⟨h, by omega, rfl⟩

theorem stands_new (keys : Keys K) : Stands keys (langMapNew : Map K V) Contents.empty where
  good := ⟨table_empty keys 0, Or.inl rfl, rfl, le_refl 0⟩
  holds := holds_empty keys 0

theorem Stands.set {m : Map K V} {c : Contents K V} (h : Stands keys m c) (key : K) (val : V) :
    Stands keys (langMapSet keys m key val) (c.put keys key val) := by
  obtain ⟨hg, hroom, _⟩ := grow_spec h
  have hr := hg.good.ready (by omega)
  obtain ⟨htable, hholds, hcount⟩ := write_spec hr hg.holds key val
  have hcap : ((grow keys m).write keys key val).cap = (grow keys m).cap :=
    write_cap (grow keys m) key val
  have hlen := hg.good.len
  have hpow : ∃ p, ((grow keys m).write keys key val).cap = 2 ^ p := by
    rw [hcap]
    exact hr.pow
  unfold langMapSet
  dsimp only
  split
  · rename_i hfound
    rw [if_pos hfound] at hcount
    refine ⟨⟨htable, Or.inr hpow, hlen.trans hcount.symm, ?_⟩, hholds⟩
    rw [hcap]
    exact hg.good.room
  · rename_i hmissing
    rw [if_neg hmissing, ← hlen] at hcount
    refine ⟨⟨htable, Or.inr hpow, hcount.symm, ?_⟩, hholds⟩
    show ((grow keys m).len + 1) * 4 ≤ ((grow keys m).write keys key val).cap * 3
    rw [hcap]
    exact hroom

theorem Stands.remove {m : Map K V} {c : Contents K V} (h : Stands keys m c) (key : K) :
    Stands keys (langMapRemove keys m key) (c.erase keys key) := by
  unfold langMapRemove
  split
  · rename_i hcap
    have hnone : c key = none := by
      apply h.holds.none
      intro i k v hi
      have hlt := (List.getElem?_eq_some_iff.mp hi).1
      unfold Map.cap at hcap
      omega
    rw [Contents.erase_none h.holds.respects hnone]
    exact h
  · rename_i hcap
    have hp := mapProbe_probed (h.good.ready hcap) key
    split
    · rename_i hfound
      have hfull := (isFull_iff hp.lt).mpr (hp.found hfound)
      have hcount : (m.slots.set (mapProbe keys m key).1 .tombstone).countP Slot.isFull =
          m.len - 1 := by
        rw [List.countP_set hp.lt, if_pos hfull, ← h.good.len]
        rfl
      refine ⟨⟨h.good.table.bury _, ?_, hcount.symm, ?_⟩, h.holds.bury hp.only⟩
      · show (m.slots.set _ _).length = 0 ∨ ∃ p, (m.slots.set _ _).length = 2 ^ p
        rw [List.length_set]
        exact h.good.pow
      · show (m.len - 1) * 4 ≤ (m.slots.set _ _).length * 3
        rw [List.length_set]
        have hroom := h.good.room
        unfold Map.cap at hroom
        omega
    · rename_i hmissing
      rcases hp.found_iff h.holds with ⟨hfound, _⟩ | ⟨_, hnone⟩
      · exact absurd hfound hmissing
      · rw [Contents.erase_none h.holds.respects hnone]
        exact h

theorem Stands.clear {m : Map K V} {c : Contents K V} (h : Stands keys m c) :
    Stands keys (langMapClear m) Contents.empty := by
  refine ⟨⟨table_empty keys m.cap, ?_, ?_, Nat.zero_le _⟩, holds_empty keys m.cap⟩
  · show (langMapClear m).slots.length = 0 ∨ ∃ p, (langMapClear m).slots.length = 2 ^ p
    unfold langMapClear
    rw [List.length_replicate]
    exact h.good.pow
  · unfold langMapClear
    rw [List.countP_replicate]
    rfl

theorem Stands.extend {d s : Map K V} {c e : Contents K V} (hd : Stands keys d c)
    (hs : Stands keys s e) : Stands keys (langMapExtend keys d s) (c.extend e) := by
  rw [langMapExtend_eq, ← hs.holds.putAll hs.good.table]
  generalize pairsOf s.slots = pairs
  induction pairs generalizing d c with
  | nil => exact hd
  | cons p pairs ih => exact ih (hd.set p.1 p.2)

/-- The value of a key, through its slot. -/
theorem Stands.find {m : Map K V} {c : Contents K V} (h : Stands keys m c) (key : K) :
    find keys m key = c key := by
  unfold map.find
  split
  · rename_i hcap
    symm
    apply h.holds.none
    intro i k v hi
    have hlt := (List.getElem?_eq_some_iff.mp hi).1
    unfold Map.cap at hcap
    omega
  · rename_i hcap
    have hp := mapProbe_probed (h.good.ready hcap) key
    rcases hp.found_iff h.holds with ⟨hfound, k, v, hkv, hc⟩ | ⟨hmissing, hc⟩
    · rw [if_pos hfound, List.getD_eq_getElem?_getD, hkv, hc]
      rfl
    · rw [hmissing, if_neg Bool.false_ne_true, hc]

theorem Stands.contains {m : Map K V} {c : Contents K V} (h : Stands keys m c) (key : K) :
    langMapContains keys m key = (c key).isSome := by
  rw [← h.find key]
  unfold langMapContains map.find
  split
  · rfl
  · rename_i hcap
    have hp := mapProbe_probed (h.good.ready hcap) key
    rcases hp.found_iff h.holds with ⟨hfound, k, v, hkv, _⟩ | ⟨hmissing, _⟩
    · rw [hfound, if_pos rfl, List.getD_eq_getElem?_getD, hkv]
      rfl
    · rw [hmissing]
      rfl

/-! ## Sequences of calls -/

/-- The maps of a heap stand for finite maps. -/
def HeapStands (keys : Keys K) (heap : Heap K V) (maps : List (Contents K V)) : Prop :=
  List.Forall₂ (Stands keys) heap maps

theorem HeapStands.get {heap : Heap K V} {maps : List (Contents K V)}
    (h : HeapStands keys heap maps) {i : Nat} {m : Map K V} (hm : heap[i]? = some m) :
    ∃ c, maps[i]? = some c ∧ Stands keys m c := by
  obtain ⟨hi, hget⟩ := List.getElem?_eq_some_iff.mp hm
  have hi' : i < maps.length := by
    rw [← h.length_eq]
    exact hi
  refine ⟨maps[i], List.getElem?_eq_getElem hi', ?_⟩
  have hboth := List.Forall₂.get h hi hi'
  rw [← hget]
  exact hboth

theorem HeapStands.set {heap : Heap K V} {maps : List (Contents K V)}
    (h : HeapStands keys heap maps) (i : Nat) {m : Map K V} {c : Contents K V}
    (hm : Stands keys m c) : HeapStands keys (heap.set i m) (maps.set i c) := by
  induction h generalizing i with
  | nil => exact List.Forall₂.nil
  | cons hhead htail ih =>
    cases i with
    | zero => exact List.Forall₂.cons hm htail
    | succ i => exact List.Forall₂.cons hhead (ih i)

theorem HeapStands.push {heap : Heap K V} {maps : List (Contents K V)}
    (h : HeapStands keys heap maps) {m : Map K V} {c : Contents K V} (hm : Stands keys m c) :
    HeapStands keys (heap ++ [m]) (maps ++ [c]) := by
  induction h with
  | nil => exact List.Forall₂.cons hm List.Forall₂.nil
  | cons hhead _ ih => exact List.Forall₂.cons hhead ih

section Calls

variable [Inhabited V]

/-- One call does what it is meant to do. -/
theorem exec_specifies {heap heap' : Heap K V} {maps : List (Contents K V)} {op : Op K V}
    {answer : Answer K V} (h : HeapStands keys heap maps)
    (hexec : exec keys heap op = some (heap', answer)) :
    ∃ maps', Specifies keys maps op answer maps' ∧ HeapStands keys heap' maps' := by
  have hlength : heap.length = maps.length := h.length_eq
  cases op with
  | new =>
    cases hexec
    exact ⟨_, ⟨by rw [hlength], rfl⟩, h.push (stands_new keys)⟩
  | set i key val =>
    obtain ⟨m, hm, heq⟩ := Option.map_eq_some_iff.mp hexec
    cases heq
    obtain ⟨c, hc, hs⟩ := h.get hm
    exact ⟨_, ⟨c, hc, rfl, rfl⟩, h.set i (hs.set key val)⟩
  | get i key =>
    obtain ⟨m, hm, heq⟩ := Option.map_eq_some_iff.mp hexec
    cases heq
    obtain ⟨c, hc, hs⟩ := h.get hm
    refine ⟨_, ⟨c, hc, ?_, rfl⟩, h⟩
    unfold langMapGet
    rw [hs.find]
  | index i key =>
    obtain ⟨m, hm, heq⟩ := Option.map_eq_some_iff.mp hexec
    cases heq
    obtain ⟨c, hc, hs⟩ := h.get hm
    refine ⟨_, ⟨c, hc, rfl, ?_⟩, h⟩
    unfold langMapIndex
    rw [hs.find]
  | contains i key =>
    obtain ⟨m, hm, heq⟩ := Option.map_eq_some_iff.mp hexec
    cases heq
    obtain ⟨c, hc, hs⟩ := h.get hm
    exact ⟨_, ⟨c, hc, by rw [hs.contains], rfl⟩, h⟩
  | remove i key =>
    obtain ⟨m, hm, heq⟩ := Option.map_eq_some_iff.mp hexec
    cases heq
    obtain ⟨c, hc, hs⟩ := h.get hm
    exact ⟨_, ⟨c, hc, rfl, rfl⟩, h.set i (hs.remove key)⟩
  | size i =>
    obtain ⟨m, hm, heq⟩ := Option.map_eq_some_iff.mp hexec
    cases heq
    obtain ⟨c, hc, hs⟩ := h.get hm
    refine ⟨_, ⟨c, hc, ?_, rfl⟩, h⟩
    rw [(hs.good.table.lists hs.holds).card, List.length_map, length_pairsOf, hs.good.len]
  | clear i =>
    obtain ⟨m, hm, heq⟩ := Option.map_eq_some_iff.mp hexec
    cases heq
    obtain ⟨c, hc, hs⟩ := h.get hm
    exact ⟨_, ⟨c, hc, rfl, rfl⟩, h.set i hs.clear⟩
  | clone i =>
    obtain ⟨m, hm, heq⟩ := Option.map_eq_some_iff.mp hexec
    cases heq
    obtain ⟨c, hc, hs⟩ := h.get hm
    exact ⟨_, ⟨c, hc, by rw [hlength], rfl⟩, h.push hs⟩
  | entries i wantKeys =>
    obtain ⟨m, hm, heq⟩ := Option.map_eq_some_iff.mp hexec
    cases heq
    obtain ⟨c, hc, hs⟩ := h.get hm
    exact ⟨_, ⟨c, _, _, hc, hs.good.table.lists hs.holds, hs.holds.values, rfl, rfl⟩, h⟩
  | extend i j =>
    obtain ⟨d, hd, hexec⟩ := Option.bind_eq_some_iff.mp hexec
    obtain ⟨s, hs, heq⟩ := Option.map_eq_some_iff.mp hexec
    cases heq
    obtain ⟨c, hc, hsd⟩ := h.get hd
    obtain ⟨e, he, hss⟩ := h.get hs
    exact ⟨_, ⟨c, e, hc, he, rfl, rfl⟩, h.set i (hsd.extend hss)⟩

theorem execAll_specifies {heap heap' : Heap K V} {maps : List (Contents K V)}
    {ops : List (Op K V)} {answers : List (Answer K V)} (h : HeapStands keys heap maps)
    (hexec : execAll keys heap ops = some (heap', answers)) :
    ∃ maps', SpecifiesAll keys maps ops answers maps' ∧ HeapStands keys heap' maps' := by
  induction ops generalizing heap maps answers with
  | nil =>
    cases hexec
    exact ⟨maps, rfl, h⟩
  | cons op ops ih =>
    obtain ⟨⟨next, answer⟩, hop, hexec⟩ := Option.bind_eq_some_iff.mp hexec
    obtain ⟨⟨last, rest⟩, hrest, heq⟩ := Option.map_eq_some_iff.mp hexec
    cases heq
    obtain ⟨maps', hspec, hnext⟩ := exec_specifies h hop
    obtain ⟨maps'', hspecs, hlast⟩ := ih hnext hrest
    exact ⟨maps'', ⟨maps', hspec, hspecs⟩, hlast⟩

/-- After any calls, each call has answered as on finite maps, the maps of the heap hold these, and
no key has two slots. -/
theorem the_map_refines_a_finite_map (keys : Keys K) {ops : List (Op K V)} {heap : Heap K V}
    {answers : List (Answer K V)} (hexec : execAll keys [] ops = some (heap, answers)) :
    (∃ maps, SpecifiesAll keys [] ops answers maps ∧
      List.Forall₂ (fun m c => Holds keys m.slots c) heap maps) ∧
    ∀ m ∈ heap, ∀ (i j : Nat) (k k' : K) (v v' : V), m.slots[i]? = some (.full k v) →
      m.slots[j]? = some (.full k' v') → keys.eq k k' = true → i = j := by
  obtain ⟨maps, hspecs, hstands⟩ :=
    execAll_specifies (List.Forall₂.nil : HeapStands keys [] []) hexec
  refine ⟨⟨maps, hspecs, hstands.imp fun _ _ h => h.holds⟩, ?_⟩
  intro m hm
  obtain ⟨i, hi⟩ := List.mem_iff_getElem?.mp hm
  obtain ⟨c, _, hs⟩ := hstands.get hi
  exact hs.good.table.distinct

theorem the_map_refines_a_finite_map_in_a_run :
    let ops : List (Op UInt64 Nat) := [.new, .set 0 1 10, .set 0 2 20, .remove 0 1, .clone 0,
      .set 0 1 30, .extend 1 0, .get 1 1, .size 1, .entries 0 true]
    ∃ heap answers maps, execAll intKeys [] ops = some (heap, answers) ∧
      SpecifiesAll intKeys [] ops answers maps := by
  intro ops
  obtain ⟨⟨heap, answers⟩, hexec⟩ := Option.isSome_iff_exists.mp
    (show (execAll intKeys [] ops).isSome = true by decide)
  obtain ⟨⟨maps, hspecs, _⟩, _⟩ := the_map_refines_a_finite_map intKeys hexec
  exact ⟨heap, answers, maps, hexec, hspecs⟩

/-- After any calls, each map counts its keys, its capacity is a power of two of which a quarter
holds no key, and a probe for a key passes no empty slot before it. -/
theorem a_map_keeps_room (keys : Keys K) {ops : List (Op K V)} {heap : Heap K V}
    {answers : List (Answer K V)} (hexec : execAll keys [] ops = some (heap, answers)) :
    ∀ m ∈ heap, m.len = m.slots.countP Slot.isFull ∧ m.len * 4 ≤ m.cap * 3 ∧
      (m.cap = 0 ∨ ∃ p, m.cap = 2 ^ p) ∧ ∀ (i : Nat) (k : K) (v : V),
        m.slots[i]? = some (.full k v) → Reached m.slots (keys.hash k).toNat i := by
  obtain ⟨maps, _, hstands⟩ := execAll_specifies (List.Forall₂.nil : HeapStands keys [] []) hexec
  intro m hm
  obtain ⟨i, hi⟩ := List.mem_iff_getElem?.mp hm
  obtain ⟨c, _, hs⟩ := hstands.get hi
  exact ⟨hs.good.len, hs.good.room, hs.good.pow, hs.good.table.reached⟩

theorem a_map_keeps_room_in_a_run : ∃ heap answers,
    execAll intKeys [] [.new, .set 0 1 10, .remove 0 1] = some (heap, answers) ∧
      ∀ m ∈ heap, m.len * 4 ≤ m.cap * 3 := by
  obtain ⟨⟨heap, answers⟩, hexec⟩ := Option.isSome_iff_exists.mp
    (show (execAll intKeys [] [Op.new, .set 0 1 10, .remove 0 1]).isSome = true by decide)
  exact ⟨heap, answers, hexec, fun m hm => (a_map_keeps_room intKeys hexec m hm).2.1⟩

end Calls

end runtime.map
