-- Maps whose keys are compared with an equality of their own: the finite map that a table stands
-- for, the list of its live keys, and how many there are.
import Mathlib.Data.Set.Card

namespace base.keyed

/-! ## Keys -/

/-- An equality of keys that is an equivalence, with a hash that respects it. -/
structure Keys (K : Type) where
  eq : K → K → Bool
  hash : K → UInt64
  refl : ∀ k, eq k k = true
  symm : ∀ {k l}, eq k l = true → eq l k = true
  trans : ∀ {k l m}, eq k l = true → eq l m = true → eq k m = true
  hash_eq : ∀ {k l}, eq k l = true → hash k = hash l

variable {K V : Type} (keys : Keys K)

/-- Keys up to their equality. -/
def Keys.setoid : Setoid K where
  r k l := keys.eq k l = true
  iseqv := ⟨keys.refl, keys.symm, keys.trans⟩

theorem Keys.mk_eq_iff (k l : K) :
    Quotient.mk keys.setoid k = Quotient.mk keys.setoid l ↔ keys.eq k l = true :=
  Quotient.eq (r := keys.setoid)

/-! ## Finite maps -/

/-- The value of each key. -/
abbrev Contents (K V : Type) := K → Option V

/-- No key has a value. -/
def Contents.empty : Contents K V := fun _ => none

/-- A key gets a value. -/
def Contents.put (m : Contents K V) (key : K) (value : V) : Contents K V := fun k =>
  if keys.eq key k then some value else m k

/-- A key loses its value. -/
def Contents.erase (m : Contents K V) (key : K) : Contents K V := fun k =>
  if keys.eq key k then none else m k

/-- The values of another map, and these for its other keys. -/
def Contents.extend (m n : Contents K V) : Contents K V := fun k => (n k).or (m k)

/-- Pairs are put one after another. -/
def Contents.putAll (m : Contents K V) (pairs : List (K × V)) : Contents K V :=
  pairs.foldl (fun m p => m.put keys p.1 p.2) m

/-- Equal keys have the same value. -/
def Contents.Respects (m : Contents K V) : Prop := ∀ k l, keys.eq k l = true → m k = m l

/-- The live keys, up to their equality. -/
def Contents.live (m : Contents K V) : Set (Quotient keys.setoid) :=
  {q | ∃ k v, Quotient.mk keys.setoid k = q ∧ m k = some v}

/-- A list of the live keys, each of them once. -/
structure Contents.Lists (m : Contents K V) (l : List K) : Prop where
  once : l.Pairwise fun k k' => keys.eq k k' = false
  all : ∀ k, (∃ v, m k = some v) ↔ ∃ k' ∈ l, keys.eq k' k = true

/-- The list is as long as there are live keys. -/
theorem Contents.Lists.card {keys : Keys K} {m : Contents K V} {l : List K} (h : m.Lists keys l) :
    (m.live keys).ncard = l.length := by
  classical
  have hnodup : (l.map (Quotient.mk keys.setoid)).Nodup := by
    unfold List.Nodup
    rw [List.pairwise_map]
    refine h.once.imp ?_
    intro k k' hk heq
    rw [keys.mk_eq_iff] at heq
    rw [heq] at hk
    cases hk
  have hlive : m.live keys = ((l.map (Quotient.mk keys.setoid)).toFinset : Set _) := by
    ext q
    rw [Finset.mem_coe, List.mem_toFinset, List.mem_map]
    constructor
    · rintro ⟨k, v, rfl, hv⟩
      obtain ⟨k', hk', heq⟩ := (h.all k).mp ⟨v, hv⟩
      exact ⟨k', hk', (keys.mk_eq_iff k' k).mpr heq⟩
    · rintro ⟨k, hk, rfl⟩
      obtain ⟨v, hv⟩ := (h.all k).mpr ⟨k, hk, keys.refl k⟩
      exact ⟨k, v, rfl, hv⟩
  rw [hlive, Set.ncard_coe_finset, List.toFinset_card_of_nodup hnodup, List.length_map]

section Pairs

variable {keys : Keys K} {m : Contents K V} {pairs : List (K × V)} {k : K}

/-- A key that is in none of the pairs keeps its value. -/
theorem Contents.putAll_other (h : ∀ p ∈ pairs, keys.eq p.1 k = false) :
    m.putAll keys pairs k = m k := by
  induction pairs generalizing m with
  | nil => rfl
  | cons p pairs ih =>
    show (m.put keys p.1 p.2).putAll keys pairs k = m k
    rw [ih fun q hq => h q (List.mem_cons_of_mem p hq)]
    unfold Contents.put
    rw [h p List.mem_cons_self]
    rfl

/-- A key of one of the pairs gets its value, when the keys of the pairs differ. -/
theorem Contents.putAll_mem (hdiff : pairs.Pairwise fun p q => keys.eq p.1 q.1 = false)
    {k' : K} {v : V} (hmem : (k', v) ∈ pairs) (heq : keys.eq k' k = true) :
    m.putAll keys pairs k = some v := by
  induction pairs generalizing m with
  | nil => cases hmem
  | cons p pairs ih =>
    obtain ⟨hp, hpairs⟩ := List.pairwise_cons.mp hdiff
    show (m.put keys p.1 p.2).putAll keys pairs k = some v
    rcases List.mem_cons.mp hmem with rfl | hmem
    · rw [Contents.putAll_other]
      · unfold Contents.put
        rw [heq]
        rfl
      · intro q hq
        by_contra hne
        have hq' : keys.eq q.1 k = true := by simpa using hne
        have hkq := keys.trans heq (keys.symm hq')
        rw [hp q hq] at hkq
        cases hkq
    · exact ih hpairs hmem

/-- The erasure of a key without a value changes nothing. -/
theorem Contents.erase_none (hm : m.Respects keys) (h : m k = none) : m.erase keys k = m := by
  funext l
  unfold Contents.erase
  split
  · rename_i heq
    rw [← hm k l heq, h]
  · rfl

end Pairs

end base.keyed
