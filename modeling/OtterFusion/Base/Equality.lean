-- Equality tests that a program defines itself: what makes one lawful, lists whose elements are
-- equal one by one, and lists without equal elements that match in some order.
import Mathlib.Data.List.Perm.Basic

namespace base.equality

variable {A B : Type}

/-- The test is an equivalence relation. -/
structure Lawful (eq : A → A → Bool) : Prop where
  refl : ∀ a, eq a a = true
  symm : ∀ {a b}, eq a b = true → eq b a = true
  trans : ∀ {a b c}, eq a b = true → eq b c = true → eq a c = true

/-- Equal values have one image, as with a hash. -/
def Respected (eq : A → A → Bool) (f : A → B) : Prop := ∀ a b, eq a b = true → f a = f b

/-- The test for an equivalence relation is lawful. -/
theorem lawful_decide {R : A → A → Prop} [DecidableRel R] (h : Equivalence R) :
    Lawful fun a b => decide (R a b) where
  refl a := decide_eq_true (h.refl a)
  symm hab := decide_eq_true (h.symm (of_decide_eq_true hab))
  trans hab hbc := decide_eq_true (h.trans (of_decide_eq_true hab) (of_decide_eq_true hbc))

/-- A test of images is lawful. -/
theorem lawful_image [DecidableEq B] (f : A → B) : Lawful fun a b => decide (f a = f b) :=
  lawful_decide ⟨fun _ => rfl, Eq.symm, Eq.trans⟩

variable {eq : A → A → Bool} {l m n : List A}

/-! ## Equal one by one -/

/-- The elements of two lists are equal, place by place. -/
abbrev Same (eq : A → A → Bool) (l m : List A) : Prop := List.Forall₂ (fun a b => eq a b = true) l m

theorem Same.refl (h : Lawful eq) (l : List A) : Same eq l l :=
  List.forall₂_same.mpr fun a _ => h.refl a

theorem Same.symm (h : Lawful eq) (hs : Same eq l m) : Same eq m l := by
  induction hs with
  | nil => exact .nil
  | cons hab _ ih => exact .cons (h.symm hab) ih

theorem Same.trans (h : Lawful eq) (hs : Same eq l m) (hs' : Same eq m n) : Same eq l n := by
  induction hs generalizing n with
  | nil => exact hs'
  | cons hab _ ih =>
    cases hs' with
    | cons hbc hrest => exact .cons (h.trans hab hbc) (ih hrest)

theorem Same.map_eq {f : A → B} (hf : Respected eq f) (hs : Same eq l m) : l.map f = m.map f := by
  induction hs with
  | nil => rfl
  | cons hab _ ih => rw [List.map_cons, List.map_cons, hf _ _ hab, ih]

/-! ## Lists without equal elements -/

/-- No element is equal to one before it. -/
def Distinct (eq : A → A → Bool) (l : List A) : Prop := l.Pairwise fun a b => eq b a = false

instance (eq : A → A → Bool) (l : List A) : Decidable (Distinct eq l) :=
  inferInstanceAs (Decidable (List.Pairwise _ l))

/-- Each element of the one list is equal to one of the other. -/
def Covered (eq : A → A → Bool) (l m : List A) : Prop := ∀ a ∈ l, ∃ b ∈ m, eq a b = true

/-- A list without equal elements that is related to equal elements of a list no longer is related
to it in some order. -/
theorem Distinct.matching {R : A → A → Prop} (h : Lawful eq) (hl : Distinct eq l)
    (hrelated : ∀ a ∈ l, ∃ b ∈ m, eq a b = true ∧ R a b) (hlength : m.length ≤ l.length) :
    ∃ n, m.Perm n ∧ List.Forall₂ R l n := by
  induction l generalizing m with
  | nil =>
    obtain rfl := List.eq_nil_of_length_eq_zero (Nat.le_zero.mp hlength)
    exact ⟨[], .nil, .nil⟩
  | cons a l ih =>
    obtain ⟨hhead, htail⟩ := List.pairwise_cons.mp hl
    obtain ⟨b, hb, hab, hR⟩ := hrelated a List.mem_cons_self
    obtain ⟨s, t, rfl⟩ := List.append_of_mem hb
    have hrest : ∀ c ∈ l, ∃ d ∈ s ++ t, eq c d = true ∧ R c d := by
      intro c hc
      obtain ⟨d, hd, hcd⟩ := hrelated c (List.mem_cons_of_mem a hc)
      rcases List.mem_append.mp hd with hd | hd
      · exact ⟨d, List.mem_append_left t hd, hcd⟩
      rcases List.mem_cons.mp hd with rfl | hd
      · have hne := hhead c hc
        rw [h.trans hcd.1 (h.symm hab)] at hne
        cases hne
      · exact ⟨d, List.mem_append_right s hd, hcd⟩
    simp only [List.length_append, List.length_cons] at hlength
    obtain ⟨n, hperm, hsame⟩ := ih htail hrest (by rw [List.length_append]; omega)
    exact ⟨b :: n, List.perm_middle.trans (hperm.cons b), .cons hR hsame⟩

/-- A list without equal elements that is covered by one no longer is equal to it in some order. -/
theorem Covered.matching (h : Lawful eq) (hl : Distinct eq l) (hcovered : Covered eq l m)
    (hlength : m.length ≤ l.length) : ∃ n, m.Perm n ∧ Same eq l n := by
  refine hl.matching h (fun a ha => ?_) hlength
  obtain ⟨b, hb, hab⟩ := hcovered a ha
  exact ⟨b, hb, hab, hab⟩

/-- Each element of the second list is related to one of the first. -/
theorem exists_left {R : A → B → Prop} {l : List A} {m : List B} (h : List.Forall₂ R l m) :
    ∀ b ∈ m, ∃ a ∈ l, R a b := by
  induction h with
  | nil => exact fun _ h => by cases h
  | cons hab _ ih =>
    intro c hc
    rcases List.mem_cons.mp hc with rfl | hc
    · exact ⟨_, List.mem_cons_self, hab⟩
    · obtain ⟨d, hd, hdc⟩ := ih c hc
      exact ⟨d, List.mem_cons_of_mem _ hd, hdc⟩

/-- The covering list is covered. -/
theorem Covered.symm (h : Lawful eq) (hl : Distinct eq l) (hcovered : Covered eq l m)
    (hlength : m.length ≤ l.length) : Covered eq m l := by
  obtain ⟨n, hperm, hsame⟩ := hcovered.matching h hl hlength
  intro b hb
  obtain ⟨a, ha, hab⟩ := exists_left hsame b (hperm.mem_iff.mp hb)
  exact ⟨a, ha, h.symm hab⟩

theorem Covered.refl (h : Lawful eq) (l : List A) : Covered eq l l := fun a ha => ⟨a, ha, h.refl a⟩

theorem Covered.trans (h : Lawful eq) (hlm : Covered eq l m) (hmn : Covered eq m n) :
    Covered eq l n := by
  intro a ha
  obtain ⟨b, hb, hab⟩ := hlm a ha
  obtain ⟨c, hc, hbc⟩ := hmn b hb
  exact ⟨c, hc, h.trans hab hbc⟩

/-- The images of two such lists are the same in some order. -/
theorem Covered.map_perm (h : Lawful eq) {f : A → B} (hf : Respected eq f) (hl : Distinct eq l)
    (hcovered : Covered eq l m) (hlength : m.length ≤ l.length) : (l.map f).Perm (m.map f) := by
  obtain ⟨n, hperm, hsame⟩ := hcovered.matching h hl hlength
  rw [hsame.map_eq hf]
  exact (hperm.map f).symm

end base.equality
