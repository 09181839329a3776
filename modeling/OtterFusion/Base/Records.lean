-- Lists of records with keys of their own: the first record with a key is changed, and the records
-- with a key are one record or none.
import Mathlib.Data.List.Nodup

namespace base.records

variable {A B K : Type} [DecidableEq K] {key : A → K} {k : K} {f : A → A} {l l' : List A}

/-- The list with its first record with the key changed, or none when it has no such record. -/
def change (key : A → K) (k : K) (f : A → A) : List A → Option (List A)
  | [] => none
  | a :: l => if key a = k then some (f a :: l) else (change key k f l).map (a :: ·)

/-- No record has the key. -/
def Absent (key : A → K) (k : K) (l : List A) : Prop := ∀ a ∈ l, key a ≠ k

theorem change_eq_none : change key k f l = none ↔ Absent key k l := by
  induction l with
  | nil => simp [change, Absent]
  | cons a l ih =>
    by_cases ha : key a = k
    · simp [change, Absent, ha]
    · simp [change, Absent, ha, ih]

/-- Where the keys differ, no other record is changed. -/
theorem change_eq_map (hl : (l.map key).Nodup) (h : change key k f l = some l') :
    l' = l.map fun a => if key a = k then f a else a := by
  induction l generalizing l' with
  | nil => cases h
  | cons a l ih =>
    rw [List.map_cons, List.nodup_cons] at hl
    obtain ⟨ha, hl⟩ := hl
    by_cases hk : key a = k
    · simp only [change, hk, if_true, Option.some.injEq] at h
      have hrest : ∀ b ∈ l, (if key b = k then f b else b) = id b := by
        intro b hb
        apply if_neg
        intro hkb
        apply ha
        rw [hk, ← hkb]
        exact List.mem_map_of_mem hb
      rw [← h, List.map_cons, if_pos hk, List.map_congr_left hrest, List.map_id]
    · simp only [change, hk, if_false, Option.map_eq_some_iff] at h
      obtain ⟨rest, hrest, rfl⟩ := h
      rw [List.map_cons, if_neg hk, ih hl hrest]

theorem exists_of_change (h : change key k f l = some l') : ∃ a ∈ l, key a = k := by
  by_contra habsent
  have hnone : change key k f l = none :=
    change_eq_none.mpr fun a ha hk => habsent ⟨a, ha, hk⟩
  rw [hnone] at h
  cases h

/-- Of records whose keys differ, one only has the key of this one. -/
theorem filter_eq_singleton {a : A} (hl : (l.map key).Nodup) (ha : a ∈ l) :
    l.filter (fun b => key b = key a) = [a] := by
  induction l with
  | nil => cases ha
  | cons b l ih =>
    rw [List.map_cons, List.nodup_cons] at hl
    obtain ⟨hb, hl⟩ := hl
    rcases List.mem_cons.mp ha with rfl | ha
    · rw [List.filter_cons_of_pos (by simp), List.filter_eq_nil_iff.mpr]
      intro c hc hk
      apply hb
      rw [← of_decide_eq_true hk]
      exact List.mem_map_of_mem hc
    · have hk : key b ≠ key a := fun hk => hb (hk ▸ List.mem_map_of_mem ha)
      rw [List.filter_cons_of_neg (by simp [hk]), ih hl ha]

theorem filter_eq_nil (h : Absent key k l) : l.filter (fun b => key b = k) = [] := by
  apply List.filter_eq_nil_iff.mpr
  intro a ha
  simp [h a ha]

end base.records
