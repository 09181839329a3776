-- Computations that may stop with an error: what a success says about the parts, and the rule
-- for a loop over a list.
import Mathlib.Logic.Basic

namespace base.outcome

variable {E A B S : Type}

/-- A sequence succeeds when both parts do. -/
theorem bind_ok {x : Except E A} {f : A → Except E B} {b : B} :
    (x >>= f) = .ok b ↔ ∃ a, x = .ok a ∧ f a = .ok b := by
  cases x with
  | error e =>
    constructor
    · intro h
      cases h
    · rintro ⟨a, h, _⟩
      cases h
  | ok a =>
    constructor
    · intro h
      exact ⟨a, rfl, h⟩
    · rintro ⟨_, ha, h⟩
      cases ha
      exact h

/-- Another text for the error does not make a success. -/
theorem mapError_ok {E' : Type} {x : Except E A} {f : E → E'} {a : A} :
    x.mapError f = .ok a ↔ x = .ok a := by
  cases x with
  | error e =>
    constructor <;>
      · intro h
        cases h
  | ok a =>
    constructor <;>
      · intro h
        cases h
        rfl

/-- A success, and a property of its result, found by evaluation. -/
theorem exists_ok_of_decide {x : Except E A} {P : A → Prop} [DecidablePred P]
    (h : (match x with | .ok a => decide (P a) | .error _ => false) = true) :
    ∃ a, x = .ok a ∧ P a := by
  cases x with
  | error e => cases h
  | ok a => exact ⟨a, rfl, of_decide_eq_true h⟩

/-- A property that each turn of a loop keeps. -/
theorem foldlM_keeps {I : S → Prop} {f : S → A → Except E S} {l : List A}
    (hf : ∀ s, ∀ a ∈ l, ∀ t, I s → f s a = .ok t → I t) {s t : S} (hs : I s)
    (h : l.foldlM f s = .ok t) : I t := by
  induction l generalizing s with
  | nil =>
    cases h
    exact hs
  | cons a l ih =>
    rw [List.foldlM_cons, bind_ok] at h
    obtain ⟨u, hu, hrest⟩ := h
    refine ih (fun s b hb t => hf s b (List.mem_cons_of_mem a hb) t) ?_ hrest
    exact hf s a List.mem_cons_self u hs hu

/-- A property of the state before each turn of a loop, and of what the turn is about. -/
def EachTurn (P : S → A → Prop) (f : S → A → Except E S) : S → List A → Prop
  | _, [] => True
  | s, a :: l => P s a ∧ ∀ t, f s a = .ok t → EachTurn P f t l

/-- A property that each turn keeps when its condition holds. -/
theorem EachTurn.keeps {P : S → A → Prop} {I : S → Prop} {f : S → A → Except E S} {l : List A}
    (hf : ∀ s a t, P s a → I s → f s a = .ok t → I t) {s t : S} (hs : EachTurn P f s l) (hi : I s)
    (h : l.foldlM f s = .ok t) : I t := by
  induction l generalizing s with
  | nil =>
    cases h
    exact hi
  | cons a l ih =>
    rw [List.foldlM_cons, bind_ok] at h
    obtain ⟨u, hu, hrest⟩ := h
    exact ih (hs.2 u hu) (hf s a u hs.1 hi hu) hrest

/-- A condition that follows from what each turn keeps. -/
theorem EachTurn.of_keeps {P : S → A → Prop} {I : S → Prop} {f : S → A → Except E S}
    (hP : ∀ s a, I s → P s a) (hf : ∀ s a t, I s → f s a = .ok t → I t) {l : List A} {s : S}
    (h : I s) : EachTurn P f s l := by
  induction l generalizing s with
  | nil => trivial
  | cons a l ih => exact ⟨hP s a h, fun t ht => ih (hf s a t h ht)⟩

theorem EachTurn.of_forall {P : S → A → Prop} {f : S → A → Except E S} {l : List A}
    (h : ∀ s, ∀ a ∈ l, P s a) (s : S) : EachTurn P f s l := by
  induction l generalizing s with
  | nil => trivial
  | cons a l ih =>
    exact ⟨h s a List.mem_cons_self, fun t _ =>
      ih (fun s b hb => h s b (List.mem_cons_of_mem a hb)) t⟩

end base.outcome
