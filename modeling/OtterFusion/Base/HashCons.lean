-- A table that numbers its keys in the order in which they come, and each key once.
import Mathlib.Data.List.Infix

namespace base.hashCons

/-- The keys by their numbers, and the number of each key. -/
structure Table (K : Type) where
  keys : List K
  number : K → Option Nat

namespace Table

variable {K : Type}

def empty : Table K := ⟨[], fun _ => none⟩

/-- The number of a key is where the key is. -/
def Agrees (t : Table K) : Prop := ∀ k n, t.number k = some n ↔ t.keys[n]? = some k

theorem Agrees.unique {t : Table K} {k : K} {m n : Nat} (h : t.Agrees) (hm : t.keys[m]? = some k)
    (hn : t.keys[n]? = some k) : m = n := by
  have hm := (h k m).mpr hm
  rw [(h k n).mpr hn] at hm
  exact (Option.some.inj hm).symm

theorem agrees_empty : (empty : Table K).Agrees := by
  intro k n
  simp [empty]

variable [DecidableEq K] {t : Table K} {k k' : K} {m n : Nat}

/-- The number of a key, which is added if it is not there. -/
def intern (t : Table K) (k : K) : Table K × Nat :=
  match t.number k with
  | some n => (t, n)
  | none => (⟨t.keys ++ [k], Function.update t.number k (some t.keys.length)⟩, t.keys.length)

/-- Keys that are added one after the other. -/
def internAll (t : Table K) : List K → Table K × List Nat
  | [] => (t, [])
  | k :: ks =>
    let r := t.intern k
    let rs := r.1.internAll ks
    (rs.1, r.2 :: rs.2)

/-- A key that is there keeps its number. -/
theorem Agrees.intern_eq (h : t.Agrees) (hn : t.keys[n]? = some k) : t.intern k = (t, n) := by
  unfold intern
  rw [(h k n).mpr hn]

theorem Agrees.intern_cases (h : t.Agrees) (k : K) :
    (∃ n : Nat, t.keys[n]? = some k ∧ t.intern k = (t, n)) ∨
    ((∀ n : Nat, t.keys[n]? ≠ some k) ∧ (t.intern k).1.keys = t.keys ++ [k] ∧
      (t.intern k).2 = t.keys.length) := by
  cases hnumber : t.number k with
  | some n =>
    have hn := (h k n).mp hnumber
    exact .inl ⟨n, hn, h.intern_eq hn⟩
  | none =>
    refine .inr ⟨fun n hn => ?_, ?_, ?_⟩
    · rw [(h k n).mpr hn] at hnumber
      cases hnumber
    · unfold intern
      rw [hnumber]
    · unfold intern
      rw [hnumber]

theorem Agrees.intern (h : t.Agrees) (k : K) : (t.intern k).1.Agrees := by
  unfold Table.intern
  split
  · exact h
  · rename_i hnew
    intro k' n
    dsimp only
    by_cases hk : k' = k
    · subst hk
      rw [Function.update_self, Option.some.injEq]
      constructor
      · rintro rfl
        simp
      · intro hn
        have hlt : n < t.keys.length + 1 := by
          obtain ⟨hlt, -⟩ := List.getElem?_eq_some_iff.mp hn
          simpa using hlt
        rcases Nat.lt_succ_iff_lt_or_eq.mp hlt with hlt | rfl
        · rw [List.getElem?_append_left hlt] at hn
          rw [(h k' n).mpr hn] at hnew
          cases hnew
        · rfl
    · rw [Function.update_of_ne hk, h k' n]
      constructor
      · intro hn
        obtain ⟨hlt, -⟩ := List.getElem?_eq_some_iff.mp hn
        rwa [List.getElem?_append_left hlt]
      · intro hn
        obtain ⟨hlt, -⟩ := List.getElem?_eq_some_iff.mp hn
        rw [List.length_append, List.length_singleton] at hlt
        rcases Nat.lt_succ_iff_lt_or_eq.mp hlt with hlt | rfl
        · rwa [List.getElem?_append_left hlt] at hn
        · simp only [List.getElem?_concat_length, Option.some.injEq] at hn
          exact absurd hn.symm hk

theorem Agrees.internAll (h : t.Agrees) (ks : List K) : (t.internAll ks).1.Agrees := by
  induction ks generalizing t with
  | nil => exact h
  | cons k ks ih => exact ih (h.intern k)

/-- The keys that were there keep their numbers. -/
theorem intern_prefix (t : Table K) (k : K) : t.keys <+: (t.intern k).1.keys := by
  unfold intern
  split
  · exact List.prefix_rfl
  · exact List.prefix_append _ _

/-- What holds of the keys and of the new one holds of the keys afterwards. -/
theorem forall_intern {p : K → Prop} (h : ∀ x ∈ t.keys, p x) (hk : p k) :
    ∀ x ∈ (t.intern k).1.keys, p x := by
  unfold intern
  split
  · exact h
  · intro x hx
    rcases List.mem_append.mp hx with hx | hx
    · exact h x hx
    · rw [List.mem_singleton.mp hx]
      exact hk

theorem forall_internAll {p : K → Prop} {ks : List K} (h : ∀ x ∈ t.keys, p x)
    (hks : ∀ k ∈ ks, p k) : ∀ x ∈ (t.internAll ks).1.keys, p x := by
  induction ks generalizing t with
  | nil => exact h
  | cons k ks ih =>
    rw [List.forall_mem_cons] at hks
    exact ih (forall_intern h hks.1) hks.2

theorem Agrees.get_intern (h : t.Agrees) (k : K) : (t.intern k).1.keys[(t.intern k).2]? =
    some k := by
  rcases h.intern_cases k with ⟨n, hn, heq⟩ | ⟨-, hkeys, hnumber⟩
  · rw [heq]
    exact hn
  · rw [hkeys, hnumber]
    simp

/-- What is in the table afterwards was there, or is the key. -/
theorem Agrees.of_get_intern (h : t.Agrees) (hn : (t.intern k).1.keys[n]? = some k') :
    t.keys[n]? = some k' ∨ k' = k := by
  rcases h.intern_cases k with ⟨m, -, heq⟩ | ⟨-, hkeys, -⟩
  · rw [heq] at hn
    exact .inl hn
  · rw [hkeys] at hn
    obtain ⟨hlt, -⟩ := List.getElem?_eq_some_iff.mp hn
    rw [List.length_append, List.length_singleton] at hlt
    rcases Nat.lt_succ_iff_lt_or_eq.mp hlt with hlt | rfl
    · rw [List.getElem?_append_left hlt] at hn
      exact .inl hn
    · simp only [List.getElem?_concat_length, Option.some.injEq] at hn
      exact .inr hn.symm

end Table

/-! ## Lists that stand for sets -/

/-- One of equal neighbours. -/
def dedup : List Nat → List Nat
  | a :: b :: l => if a = b then dedup (b :: l) else a :: dedup (b :: l)
  | l => l

/-- The numbers of a list in their order, each once. -/
def sorted (l : List Nat) : List Nat := dedup (l.mergeSort fun a b => a ≤ b)

theorem mem_dedup {a : Nat} {l : List Nat} : a ∈ dedup l ↔ a ∈ l := by
  fun_induction dedup l with
  | case1 b l ih => rw [ih]; simp
  | case2 b c l hne ih => rw [List.mem_cons, List.mem_cons, ih]
  | case3 l => rfl

theorem dedup_lt {l : List Nat} (h : l.Pairwise (· ≤ ·)) : (dedup l).Pairwise (· < ·) := by
  fun_induction dedup l with
  | case1 b l ih => exact ih h.of_cons
  | case2 b c l hne ih =>
    refine List.pairwise_cons.mpr ⟨fun a ha => ?_, ih h.of_cons⟩
    have hbc : b < c := Nat.lt_of_le_of_ne ((List.pairwise_cons.mp h).1 c List.mem_cons_self) hne
    rcases List.mem_cons.mp (mem_dedup.mp ha) with rfl | ha
    · exact hbc
    · exact Nat.lt_of_lt_of_le hbc ((List.pairwise_cons.mp h.of_cons).1 a ha)
  | case3 l hshort =>
    cases l with
    | nil => exact .nil
    | cons a l =>
      cases l with
      | nil => exact List.pairwise_singleton _ a
      | cons b l => exact absurd rfl (hshort a b l)

theorem mem_sorted {a : Nat} {l : List Nat} : a ∈ sorted l ↔ a ∈ l := by
  unfold sorted
  rw [mem_dedup, List.mem_mergeSort]

theorem sorted_lt (l : List Nat) : (sorted l).Pairwise (· < ·) := by
  refine dedup_lt ?_
  have hpairwise := @List.pairwise_mergeSort _ (fun a b : Nat => decide (a ≤ b))
    (fun a b c hab hbc => by
      simp only [decide_eq_true_eq] at hab hbc ⊢
      exact Nat.le_trans hab hbc)
    (fun a b => by simpa using Nat.le_total a b) l
  exact hpairwise.imp fun h => of_decide_eq_true h

/-- Lists in strict order with the same numbers are the same. -/
theorem eq_of_mem_iff {l l' : List Nat} (h : l.Pairwise (· < ·)) (h' : l'.Pairwise (· < ·))
    (hmem : ∀ a, a ∈ l ↔ a ∈ l') : l = l' := by
  have hperm : l.Perm l' :=
    (List.perm_ext_iff_of_nodup (h.imp Nat.ne_of_lt) (h'.imp Nat.ne_of_lt)).mpr hmem
  exact hperm.eq_of_pairwise (fun a b _ _ hab hba => absurd hba (Nat.lt_asymm hab)) h h'

theorem sorted_congr {l l' : List Nat} (h : ∀ a, a ∈ l ↔ a ∈ l') : sorted l = sorted l' :=
  eq_of_mem_iff (sorted_lt l) (sorted_lt l') fun a => (mem_sorted.trans (h a)).trans mem_sorted.symm

end base.hashCons
