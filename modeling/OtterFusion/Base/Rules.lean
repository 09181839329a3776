-- Rules for what a computation in a monad returns: a predicate on computations that a value and a
-- sequence keep. A proof by the shape of a program needs these rules and nothing of the monad.
import Mathlib.Data.List.Forall2

namespace base.rules

/-- `Holds x P`: whatever the computation returns has the property, as far as the rules look. -/
structure Rules (m : Type → Type) [Monad m] where
  Holds : ∀ {A : Type}, m A → (A → Prop) → Prop
  value : ∀ {A : Type} {a : A} {P : A → Prop}, P a → Holds (pure a) P
  seq : ∀ {A B : Type} {x : m A} {f : A → m B} {P : A → Prop} {Q : B → Prop},
    Holds x P → (∀ a, P a → Holds (f a) Q) → Holds (x >>= f) Q

namespace Rules

variable {m : Type → Type} [Monad m] {A B C : Type} (R : Rules m)

/-- A property that follows from one that holds. -/
theorem weaken [LawfulMonad m] {x : m A} {P Q : A → Prop} (h : R.Holds x P)
    (hpq : ∀ a, P a → Q a) : R.Holds x Q := by
  rw [← bind_pure x]
  exact R.seq h fun a ha => R.value (hpq a ha)

/-- A constructor around a computation. -/
theorem one {x : m A} {f : A → B} {P : A → Prop} {Q : B → Prop} (h : R.Holds x P)
    (hq : ∀ a, P a → Q (f a)) : R.Holds (do return f (← x)) Q :=
  R.seq h fun a ha => R.value (hq a ha)

/-- A constructor around two computations, the one after the other. -/
theorem two {x : m A} {y : m B} {f : A → B → C} {P : A → Prop} {P' : B → Prop} {Q : C → Prop}
    (h : R.Holds x P) (h' : R.Holds y P') (hq : ∀ a b, P a → P' b → Q (f a b)) :
    R.Holds (do let a ← x; return f a (← y)) Q :=
  R.seq h fun a ha => R.one h' fun b hb => hq a b ha hb

/-- A constructor around three computations. -/
theorem three {D : Type} {x : m A} {y : m B} {z : m C} {f : A → B → C → D} {P : A → Prop}
    {P' : B → Prop} {P'' : C → Prop} {Q : D → Prop} (h : R.Holds x P) (h' : R.Holds y P')
    (h'' : R.Holds z P'') (hq : ∀ a b c, P a → P' b → P'' c → Q (f a b c)) :
    R.Holds (do let a ← x; let b ← y; return f a b (← z)) Q :=
  R.seq h fun a ha => R.two h' h'' fun b c hb hc => hq a b c ha hb hc

/-- A computation for each element of a list. -/
theorem each [LawfulMonad m] {f : A → m B} {P : A → B → Prop} :
    ∀ l : List A, (∀ a ∈ l, R.Holds (f a) (P a)) → R.Holds (l.mapM f) (List.Forall₂ P l)
  | [], _ => by
    rw [List.mapM_nil]
    exact R.value .nil
  | a :: l, h => by
    rw [List.mapM_cons]
    apply R.two (h a (by simp)) (each l fun b hb => h b (by simp [hb]))
    intro b bs hb hbs
    exact .cons hb hbs

end Rules

end base.rules
