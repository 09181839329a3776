-- Computations that end with a value, with an error, or in a trap: which of the three a sequence
-- ends with, and the rules for loops.
import Mathlib.Logic.Basic

namespace base.trapping

/-- How a computation ends. -/
inductive Ending (T E A : Type)
  | value (a : A)
  | error (e : E)
  | trap (t : T)
  deriving DecidableEq

variable {T E F A B S : Type}

namespace Ending

/-- One computation after another; an error or a trap ends the sequence. -/
def andThen : Ending T E A → (A → Ending T E B) → Ending T E B
  | value a, f => f a
  | error e, _ => error e
  | trap t, _ => trap t

/-- Another computation in the place of an error. -/
def orElse : Ending T E A → (E → Ending T F A) → Ending T F A
  | value a, _ => value a
  | error e, f => f e
  | trap t, _ => trap t

instance : Monad (Ending T E) where
  pure := value
  bind := andThen

/-- The end is no trap. -/
def Safe (x : Ending T E A) : Prop := ∀ t, x ≠ trap t

/-- The end is no trap, a value has the one property and an error the other. -/
def Ends (x : Ending T E A) (P : A → Prop) (Q : E → Prop) : Prop :=
  match x with
  | value a => P a
  | error e => Q e
  | trap _ => False

instance (x : Ending T E A) : Decidable x.Safe :=
  match x with
  | value _ => .isTrue fun _ h => by cases h
  | error _ => .isTrue fun _ h => by cases h
  | trap t => .isFalse fun h => h t rfl

variable {x : Ending T E A} {f : A → Ending T E B} {P : A → Prop} {Q : E → Prop}

/-! ## Sequences -/

@[simp] theorem value_bind (a : A) (f : A → Ending T E B) : (value a >>= f) = f a := rfl

@[simp] theorem error_bind (e : E) (f : A → Ending T E B) : (error e >>= f) = error e := rfl

@[simp] theorem trap_bind (t : T) (f : A → Ending T E B) : (trap t >>= f) = trap t := rfl

@[simp] theorem pure_eq (a : A) : (pure a : Ending T E A) = value a := rfl

@[simp] theorem safe_value (a : A) : (value a : Ending T E A).Safe := fun _ h => by cases h

@[simp] theorem safe_error (e : E) : (error e : Ending T E A).Safe := fun _ h => by cases h

@[simp] theorem safe_trap (t : T) : ¬(trap t : Ending T E A).Safe := fun h => h t rfl

/-- A sequence has no trap exactly when no part of it that is reached has one. -/
theorem safe_bind : (x >>= f).Safe ↔ x.Safe ∧ ∀ a, x = value a → (f a).Safe := by
  cases x with
  | value a =>
    constructor
    · intro h
      refine ⟨safe_value a, fun b hb => ?_⟩
      cases hb
      exact h
    · intro h
      exact h.2 a rfl
  | error e =>
    constructor
    · intro _
      exact ⟨safe_error e, fun a ha => by cases ha⟩
    · intro _
      exact safe_error e
  | trap t =>
    constructor
    · intro h
      exact absurd h (safe_trap t)
    · intro h
      exact absurd h.1 (safe_trap t)

theorem value_of_bind {b : B} : (x >>= f) = value b ↔ ∃ a, x = value a ∧ f a = value b := by
  cases x with
  | value a =>
    constructor
    · intro h
      exact ⟨a, rfl, h⟩
    · rintro ⟨_, ha, h⟩
      cases ha
      exact h
  | error e =>
    constructor
    · intro h
      cases h
    · rintro ⟨_, ha, _⟩
      cases ha
  | trap t =>
    constructor
    · intro h
      cases h
    · rintro ⟨_, ha, _⟩
      cases ha

theorem Ends.safe (h : x.Ends P Q) : x.Safe := by
  rintro t rfl
  exact h

theorem Ends.mono {P' : A → Prop} {Q' : E → Prop} (h : x.Ends P Q) (hP : ∀ a, P a → P' a)
    (hQ : ∀ e, Q e → Q' e) : x.Ends P' Q' := by
  cases x with
  | value a => exact hP a h
  | error e => exact hQ e h
  | trap t => exact h

theorem Ends.bind {R : B → Prop} (h : x.Ends P Q) (hf : ∀ a, P a → (f a).Ends R Q) :
    (x >>= f).Ends R Q := by
  cases x with
  | value a => exact hf a h
  | error e => exact h
  | trap t => exact h

theorem Ends.of_value {a : A} (h : x.Ends P Q) (ha : x = .value a) : P a := by
  subst ha
  exact h

theorem Ends.of_error {e : E} (h : x.Ends P Q) (he : x = .error e) : Q e := by
  subst he
  exact h

theorem ends_of_safe (h : x.Safe) (hP : ∀ a, x = .value a → P a) (hQ : ∀ e, x = .error e → Q e) :
    x.Ends P Q := by
  cases x with
  | value a => exact hP a rfl
  | error e => exact hQ e rfl
  | trap t => exact absurd h (safe_trap t)

theorem safe_orElse {g : E → Ending T F A} :
    (x.orElse g).Safe ↔ x.Safe ∧ ∀ e, x = .error e → (g e).Safe := by
  cases x with
  | value a =>
    constructor
    · intro _
      exact ⟨safe_value a, fun e he => by cases he⟩
    · intro _
      exact safe_value a
  | error e =>
    constructor
    · intro h
      refine ⟨safe_error e, fun e' he => ?_⟩
      cases he
      exact h
    · intro h
      exact h.2 e rfl
  | trap t =>
    constructor
    · intro h
      exact absurd h (safe_trap t)
    · intro h
      exact absurd h.1 (safe_trap t)

/-- A stage of a sequence and the rest: the stage is safe under one condition, and the rest under
another, which no error of the stage contradicts. -/
theorem safe_stage {C D : Prop} (hx : x.Safe ↔ C)
    (hvalue : C → ∀ a, x = .value a → ((f a).Safe ↔ D)) (herror : C → ∀ e, x = .error e → D) :
    (x >>= f).Safe ↔ C ∧ D := by
  rw [safe_bind, hx]
  constructor
  · rintro ⟨hC, hf⟩
    refine ⟨hC, ?_⟩
    cases x with
    | value a => exact (hvalue hC a rfl).mp (hf a rfl)
    | error e => exact herror hC e rfl
    | trap t => exact absurd (hx.mpr hC) (safe_trap t)
  · rintro ⟨hC, hD⟩
    exact ⟨hC, fun a ha => (hvalue hC a ha).mpr hD⟩

theorem value_of_orElse {g : E → Ending T F A} {a : A} (hg : ∀ e, g e ≠ .value a) :
    x.orElse g = .value a ↔ x = .value a := by
  cases x with
  | value b =>
    constructor
    · intro h
      cases h
      rfl
    · intro h
      cases h
      rfl
  | error e =>
    constructor
    · intro h
      exact absurd h (hg e)
    · intro h
      cases h
  | trap t =>
    constructor
    · intro h
      cases h
    · intro h
      cases h

/-! ## Loops -/

/-- A loop: a turn gives the next state, or ends the loop with a result. Without fuel it traps. -/
def loop (outOfFuel : T) (turn : S → Ending T E (S ⊕ A)) : Nat → S → Ending T E A
  | 0, _ => trap outOfFuel
  | n + 1, s => turn s >>= fun
    | .inl t => loop outOfFuel turn n t
    | .inr a => value a

/-- A loop ends when each turn keeps an invariant and lessens a measure `m` that the fuel exceeds.
-/
theorem loop_ends {outOfFuel : T} {turn : S → Ending T E (S ⊕ A)} {I : S → Prop} {m : S → Nat}
    (hturn : ∀ s, I s → (turn s).Ends
      (fun r => match r with
        | .inl t => I t ∧ m t < m s
        | .inr a => P a) Q) :
    ∀ {n : Nat} {s : S}, I s → m s < n → (loop outOfFuel turn n s).Ends P Q
  | 0, _, _, hn => absurd hn (Nat.not_lt_zero _)
  | n + 1, s, hs, hn => by
    refine (hturn s hs).bind fun r hr => ?_
    cases r with
    | inl t => exact loop_ends hturn hr.1 (by omega)
    | inr a => exact hr

/-- A loop over a list: an invariant of the state and of what is still to come. -/
theorem foldlM_ends {f : S → A → Ending T E S} {I : S → List A → Prop}
    (hf : ∀ s a l, I s (a :: l) → (f s a).Ends (fun t => I t l) Q) :
    ∀ {s : S} {l : List A}, I s l → (l.foldlM f s).Ends (fun t => I t []) Q
  | _, [], h => h
  | s, a :: l, h => by
    rw [List.foldlM_cons]
    exact (hf s a l h).bind fun t ht => foldlM_ends hf ht

/-! ## Two ways to compute -/

/-- Where the one computation does not trap, the other one ends as it does. -/
def Follows (x y : Ending T E A) : Prop := x.Safe → y = x

theorem Follows.refl (x : Ending T E A) : x.Follows x := fun _ => rfl

theorem Follows.bind {y : Ending T E A} {g : A → Ending T E B} (hxy : x.Follows y)
    (hfg : ∀ a, (f a).Follows (g a)) : (x >>= f).Follows (y >>= g) := by
  intro hsafe
  obtain ⟨hx, hf⟩ := safe_bind.mp hsafe
  rw [hxy hx]
  cases x with
  | value a => exact hfg a (hf a rfl)
  | error e => rfl
  | trap t => exact absurd hx (safe_trap t)

theorem Follows.ite {c : Prop} [Decidable c] {x y x' y' : Ending T E A} (h : x.Follows y)
    (h' : x'.Follows y') : (if c then x else x').Follows (if c then y else y') := by
  split
  · exact h
  · exact h'

theorem Follows.foldlM {f g : S → A → Ending T E S} (h : ∀ s a, (f s a).Follows (g s a)) (s : S)
    (l : List A) : (l.foldlM f s).Follows (l.foldlM g s) := by
  induction l generalizing s with
  | nil => exact .refl _
  | cons a l ih => exact .bind (h s a) ih

theorem Follows.value {y : Ending T E A} {a : A} (h : x.Follows y) (hx : x = .value a) :
    y = .value a := by
  subst hx
  exact h (safe_value a)

/-- What the one computation ends with, the other one does too. -/
theorem Follows.ends {y : Ending T E A} (h : x.Follows y) (hx : x.Ends P Q) : y.Ends P Q :=
  h hx.safe ▸ hx

end Ending

end base.trapping
