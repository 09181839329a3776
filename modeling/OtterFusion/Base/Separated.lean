-- Pairs of a key and a value in a row, with a separator after each part: which pairs such a row of
-- symbols gives back when the keys, or the keys and the values, are free of the separator.
import Mathlib.Data.List.Basic

namespace base.separated

variable {α : Type} (sep : α)

/-- A pair: its key and its value, each with the separator after it. -/
def part (p : List α × List α) : List α := p.1 ++ sep :: (p.2 ++ [sep])

/-- The pairs, one after another. -/
def parts (l : List (List α × List α)) : List α := l.flatMap (part sep)

variable {sep}

@[simp] theorem parts_nil : parts sep [] = [] := rfl

theorem parts_cons (p : List α × List α) (l : List (List α × List α)) :
    parts sep (p :: l) = p.1 ++ sep :: (p.2 ++ sep :: parts sep l) := by
  simp [parts, part]

theorem parts_cons_ne_nil (p : List α × List α) (l : List (List α × List α)) :
    parts sep (p :: l) ≠ [] := by
  simp [parts_cons]

/-- What is before the first separator. -/
theorem split_first {k k' v v' : List α} (hk : sep ∉ k) (hk' : sep ∉ k')
    (h : k ++ sep :: v = k' ++ sep :: v') : k = k' ∧ v = v' := by
  induction k generalizing k' with
  | nil =>
    cases k' with
    | nil => exact ⟨rfl, List.tail_eq_of_cons_eq h⟩
    | cons a k' =>
      rw [List.nil_append, List.cons_append, List.cons.injEq] at h
      exact absurd (h.1 ▸ List.mem_cons_self) hk'
  | cons a k ih =>
    cases k' with
    | nil =>
      rw [List.nil_append, List.cons_append, List.cons.injEq] at h
      exact absurd (h.1 ▸ List.mem_cons_self) hk
    | cons a' k' =>
      rw [List.cons_append, List.cons_append, List.cons.injEq] at h
      rw [List.mem_cons, not_or] at hk hk'
      obtain ⟨rfl, rfl⟩ := ih hk.2 hk'.2 h.2
      exact ⟨by rw [h.1], rfl⟩

/-- Where no key has the separator, the first keys are the same, and so is what follows them. -/
theorem parts_head {p q : List α × List α} {l m : List (List α × List α)} (hp : sep ∉ p.1)
    (hq : sep ∉ q.1) (h : parts sep (p :: l) = parts sep (q :: m)) :
    p.1 = q.1 ∧ p.2 ++ sep :: parts sep l = q.2 ++ sep :: parts sep m := by
  rw [parts_cons, parts_cons] at h
  exact split_first hp hq h

/-- The separator is in no key and in no value. -/
def Free (sep : α) (l : List (List α × List α)) : Prop := ∀ p ∈ l, sep ∉ p.1 ∧ sep ∉ p.2

theorem Free.tail {p : List α × List α} {l : List (List α × List α)} (h : Free sep (p :: l)) :
    Free sep l :=
  fun q hq => h q (List.mem_cons_of_mem p hq)

/-- Where nothing has the separator, the row gives the pairs back. -/
theorem parts_injective {l m : List (List α × List α)} (hl : Free sep l) (hm : Free sep m)
    (h : parts sep l = parts sep m) : l = m := by
  induction l generalizing m with
  | nil =>
    cases m with
    | nil => rfl
    | cons q m => exact absurd h.symm (parts_cons_ne_nil q m)
  | cons p l ih =>
    cases m with
    | nil => exact absurd h (parts_cons_ne_nil p l)
    | cons q m =>
      obtain ⟨hp1, hp2⟩ := hl p List.mem_cons_self
      obtain ⟨hq1, hq2⟩ := hm q List.mem_cons_self
      obtain ⟨hkey, hrest⟩ := parts_head hp1 hq1 h
      obtain ⟨hvalue, hrest⟩ := split_first hp2 hq2 hrest
      rw [ih hl.tail hm.tail hrest, Prod.ext hkey hvalue]

/-- Two pairs or more are the row of one pair too: its value has the other pairs in it. -/
theorem parts_merge (p q : List α × List α) (l : List (List α × List α)) :
    parts sep (p :: q :: l) =
      parts sep [(p.1, p.2 ++ sep :: (parts sep (q :: l)).dropLast)] := by
  have hlast : (parts sep (q :: l)).dropLast ++ [sep] = parts sep (q :: l) := by
    have hends : ∃ r, parts sep (q :: l) = r ++ [sep] := by
      induction l generalizing q with
      | nil => exact ⟨q.1 ++ sep :: q.2, by simp [parts_cons]⟩
      | cons q' l ih =>
        obtain ⟨r, hr⟩ := ih q'
        exact ⟨q.1 ++ sep :: (q.2 ++ sep :: r), by simp [parts_cons q, hr]⟩
    obtain ⟨r, hr⟩ := hends
    rw [hr, List.dropLast_concat]
  rw [parts_cons p, parts_cons (p.1, _), parts_nil, List.append_assoc, List.cons_append, hlast]

/-- The pairs that are the row of one pair: this one, or others with the same first key that its
value has in it. -/
theorem parts_eq_single {p : List α × List α} {l : List (List α × List α)} (hp : sep ∉ p.1)
    (hl : ∀ q ∈ l, sep ∉ q.1) (h : parts sep l = parts sep [p]) :
    l = [p] ∨ ∃ v q m rest, l = (p.1, v) :: q :: m ∧ p.2 = v ++ sep :: (q.1 ++ sep :: rest) := by
  cases l with
  | nil => exact absurd h.symm (parts_cons_ne_nil p [])
  | cons a l =>
    cases l with
    | nil =>
      obtain ⟨hkey, hvalue⟩ := parts_head (hl a List.mem_cons_self) hp h
      exact .inl (by rw [Prod.ext hkey (List.append_cancel_right hvalue)])
    | cons q m =>
      rw [parts_merge] at h
      have hfirst : sep ∉ a.1 := hl a List.mem_cons_self
      obtain ⟨hkey, hvalue⟩ :=
        parts_head (p := (a.1, a.2 ++ sep :: (parts sep (q :: m)).dropLast)) hfirst hp h
      have hvalue := List.append_cancel_right hvalue
      refine .inr ⟨a.2, q, m, (q.2 ++ sep :: parts sep m).dropLast, ?_, ?_⟩
      · rw [← hkey]
      · rw [← hvalue, parts_cons, List.dropLast_append_of_ne_nil (by simp),
          List.dropLast_cons_of_ne_nil (by simp)]

end base.separated
