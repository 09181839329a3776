-- Comparisons given by two tests, for equality and for less: their laws, and the lexicographic
-- comparison by one after the other.
import OtterFusion.Base.Equality

namespace base.ordering

open base.equality

variable {A B : Type}

/-- A test for equality and one for less. -/
structure Comparison (A : Type) where
  eq : A → A → Bool
  lt : A → A → Bool

namespace Comparison

/-- Less is a strict total order of the values, up to equality. -/
structure Ordered (c : Comparison A) : Prop where
  lawful : Lawful c.eq
  irrefl : ∀ {a b}, c.lt a b = true → c.eq a b = false
  asymm : ∀ {a b}, c.lt a b = true → c.lt b a = false
  trans : ∀ {a b d}, c.lt a b = true → c.lt b d = true → c.lt a d = true
  total : ∀ a b, c.lt a b = true ∨ c.eq a b = true ∨ c.lt b a = true

variable {c d : Comparison A}

/-- Equal values compare alike. -/
theorem Ordered.lt_of_eq_of_lt (h : c.Ordered) {a a' b : A} (heq : c.eq a a' = true)
    (hlt : c.lt a b = true) : c.lt a' b = true := by
  rcases h.total a' b with hlt' | heq' | hgt
  · exact hlt'
  · have := h.irrefl hlt
    rw [h.lawful.trans heq heq'] at this
    cases this
  · have := h.irrefl (h.trans hlt hgt)
    rw [heq] at this
    cases this

theorem Ordered.lt_of_lt_of_eq (h : c.Ordered) {a b b' : A} (hlt : c.lt a b = true)
    (heq : c.eq b b' = true) : c.lt a b' = true := by
  rcases h.total a b' with hlt' | heq' | hgt
  · exact hlt'
  · have := h.irrefl hlt
    rw [h.lawful.trans heq' (h.lawful.symm heq)] at this
    cases this
  · have := h.irrefl (h.trans hgt hlt)
    rw [h.lawful.symm heq] at this
    cases this

theorem Ordered.not_lt_of_eq (h : c.Ordered) {a b : A} (heq : c.eq a b = true) :
    c.lt a b = false := by
  apply Bool.eq_false_iff.mpr
  intro hlt
  rw [h.irrefl hlt] at heq
  cases heq

/-- What is neither less nor equal is greater. -/
theorem Ordered.gt_iff (h : c.Ordered) (a b : A) :
    c.lt b a = true ↔ ¬(c.lt a b = true ∨ c.eq a b = true) := by
  constructor
  · rintro hgt (hlt | heq)
    · rw [h.asymm hlt] at hgt
      cases hgt
    · rw [h.not_lt_of_eq (h.lawful.symm heq)] at hgt
      cases hgt
  · intro hno
    rcases h.total a b with hlt | heq | hgt
    · exact absurd (.inl hlt) hno
    · exact absurd (.inr heq) hno
    · exact hgt

/-- The comparison of images. -/
def on (c : Comparison B) (f : A → B) : Comparison A :=
  ⟨fun a b => c.eq (f a) (f b), fun a b => c.lt (f a) (f b)⟩

theorem Ordered.on {c : Comparison B} (h : c.Ordered) (f : A → B) : (c.on f).Ordered where
  lawful := ⟨fun a => h.lawful.refl (f a), h.lawful.symm, h.lawful.trans⟩
  irrefl := h.irrefl
  asymm := h.asymm
  trans := h.trans
  total a b := h.total (f a) (f b)

/-- All values are equal. -/
def trivial (A : Type) : Comparison A := ⟨fun _ _ => true, fun _ _ => false⟩

/-- By one comparison, and among equals by another. -/
def andThen (c d : Comparison A) : Comparison A :=
  ⟨fun a b => c.eq a b && d.eq a b, fun a b => c.lt a b || (c.eq a b && d.lt a b)⟩

/-- One comparison after the other. -/
def lexicographic (cs : List (Comparison A)) : Comparison A := cs.foldr andThen (trivial A)

theorem ordered_trivial : (trivial A).Ordered where
  lawful := ⟨fun _ => rfl, id, fun _ => id⟩
  irrefl h := nomatch h
  asymm h := nomatch h
  trans h := nomatch h
  total _ _ := .inr (.inl rfl)

theorem andThen_lt {a b : A} : (c.andThen d).lt a b = true ↔
    c.lt a b = true ∨ c.eq a b = true ∧ d.lt a b = true := by
  simp [andThen]

theorem andThen_eq {a b : A} : (c.andThen d).eq a b = true ↔ c.eq a b = true ∧ d.eq a b = true := by
  simp [andThen]

theorem lawful_andThen (hc : Lawful c.eq) (hd : Lawful d.eq) : Lawful (c.andThen d).eq where
  refl a := andThen_eq.mpr ⟨hc.refl a, hd.refl a⟩
  symm h := andThen_eq.mpr ⟨hc.symm (andThen_eq.mp h).1, hd.symm (andThen_eq.mp h).2⟩
  trans h h' := andThen_eq.mpr
    ⟨hc.trans (andThen_eq.mp h).1 (andThen_eq.mp h').1,
      hd.trans (andThen_eq.mp h).2 (andThen_eq.mp h').2⟩

theorem Ordered.andThen (hc : c.Ordered) (hd : d.Ordered) : (c.andThen d).Ordered where
  lawful := lawful_andThen hc.lawful hd.lawful
  irrefl {a b} h := by
    apply Bool.eq_false_iff.mpr
    intro heq
    obtain ⟨heqc, heqd⟩ := andThen_eq.mp heq
    rcases andThen_lt.mp h with hlt | ⟨-, hlt⟩
    · rw [hc.not_lt_of_eq heqc] at hlt
      cases hlt
    · rw [hd.not_lt_of_eq heqd] at hlt
      cases hlt
  asymm {a b} h := by
    apply Bool.eq_false_iff.mpr
    intro hgt
    rcases andThen_lt.mp h with hlt | ⟨heq, hlt⟩
    · rcases andThen_lt.mp hgt with hgt | ⟨heq, -⟩
      · rw [hc.asymm hlt] at hgt
        cases hgt
      · rw [hc.not_lt_of_eq (hc.lawful.symm heq)] at hlt
        cases hlt
    · rcases andThen_lt.mp hgt with hgt | ⟨-, hgt⟩
      · rw [hc.not_lt_of_eq (hc.lawful.symm heq)] at hgt
        cases hgt
      · rw [hd.asymm hlt] at hgt
        cases hgt
  trans {a b e} h h' := by
    apply andThen_lt.mpr
    rcases andThen_lt.mp h with hlt | ⟨heq, hlt⟩
    · rcases andThen_lt.mp h' with hlt' | ⟨heq', -⟩
      · exact .inl (hc.trans hlt hlt')
      · exact .inl (hc.lt_of_lt_of_eq hlt heq')
    · rcases andThen_lt.mp h' with hlt' | ⟨heq', hlt'⟩
      · exact .inl (hc.lt_of_eq_of_lt (hc.lawful.symm heq) hlt')
      · exact .inr ⟨hc.lawful.trans heq heq', hd.trans hlt hlt'⟩
  total a b := by
    rw [andThen_lt, andThen_lt, andThen_eq]
    rcases hc.total a b with hlt | heq | hgt
    · exact .inl (.inl hlt)
    · rcases hd.total a b with hlt | heq' | hgt
      · exact .inl (.inr ⟨heq, hlt⟩)
      · exact .inr (.inl ⟨heq, heq'⟩)
      · exact .inr (.inr (.inr ⟨hc.lawful.symm heq, hgt⟩))
    · exact .inr (.inr (.inl hgt))

/-! ## One after the other -/

variable {cs : List (Comparison A)}

/-- Equal is equal by each. -/
theorem lexicographic_eq {a b : A} :
    (lexicographic cs).eq a b = true ↔ ∀ c ∈ cs, c.eq a b = true := by
  induction cs with
  | nil => simp [lexicographic, trivial]
  | cons c cs ih =>
    rw [List.forall_mem_cons, ← ih]
    exact andThen_eq

/-- Less is less by one, and equal by those before it. -/
theorem lexicographic_lt {a b : A} :
    (lexicographic cs).lt a b = true ↔
      ∃ (i : Nat) (c : Comparison A), cs[i]? = some c ∧
        (∀ j < i, ∀ d : Comparison A, cs[j]? = some d → d.eq a b = true) ∧
        c.lt a b = true := by
  induction cs with
  | nil => simp [lexicographic, trivial]
  | cons c cs ih =>
    refine (andThen_lt (d := lexicographic cs)).trans ?_
    rw [ih]
    constructor
    · rintro (hlt | ⟨heq, i, d, hd, hbefore, hlt⟩)
      · exact ⟨0, c, rfl, fun j hj => absurd hj (Nat.not_lt_zero j), hlt⟩
      · refine ⟨i + 1, d, hd, fun j hj e he => ?_, hlt⟩
        cases j with
        | zero =>
          cases he
          exact heq
        | succ j => exact hbefore j (Nat.lt_of_succ_lt_succ hj) e he
    · rintro ⟨i, d, hd, hbefore, hlt⟩
      cases i with
      | zero =>
        cases hd
        exact .inl hlt
      | succ i =>
        refine .inr ⟨hbefore 0 (Nat.succ_pos i) c rfl, i, d, hd, fun j hj e he => ?_, hlt⟩
        exact hbefore (j + 1) (Nat.succ_lt_succ hj) e he

theorem lawful_lexicographic (h : ∀ c ∈ cs, Lawful c.eq) : Lawful (lexicographic cs).eq := by
  induction cs with
  | nil => exact ordered_trivial.lawful
  | cons c cs ih =>
    obtain ⟨hc, hcs⟩ := List.forall_mem_cons.mp h
    exact lawful_andThen hc (ih hcs)

theorem ordered_lexicographic (h : ∀ c ∈ cs, c.Ordered) : (lexicographic cs).Ordered := by
  induction cs with
  | nil => exact ordered_trivial
  | cons c cs ih =>
    obtain ⟨hc, hcs⟩ := List.forall_mem_cons.mp h
    exact hc.andThen (ih hcs)

end Comparison

end base.ordering
