-- Locks with one holder. A thread may be at a point of its code where it holds the lock; what
-- the lock gives is that two threads are never at such points together.
import Mathlib.Logic.Basic

namespace base.mutex

variable {T : Type} {H H' : T → Prop} {o o' : Option T} {t u : T}

/-- The threads of which `holds` is true hold the lock. The lock may have a holder of which it
is not. -/
def Guarded (holds : T → Prop) (holder : Option T) : Prop := ∀ t, holds t → holder = some t

/-- What a step of the thread `t` does to a lock: it leaves it, takes it free, or gives it back.
`before` and `after` say whether the thread is then at a point that holds it. -/
def Handed (t : T) (before after : Prop) (o o' : Option T) : Prop :=
  o' = o ∧ (after → before) ∨ o = none ∧ o' = some t ∨
    o' = none ∧ (before ∨ o = some t) ∧ ¬ after

/-- A lock that nobody holds is free. -/
theorem Guarded.free (h : ∀ t, ¬ H t) : Guarded H o := fun t ht => absurd ht (h t)

/-- Two threads are not both at a point that holds the lock. -/
theorem Guarded.exclusive (h : Guarded H o) (ht : H t) (hu : H u) : t = u :=
  Option.some.inj ((h t ht).symm.trans (h u hu))

/-- Nobody is at a point that holds a free lock. -/
theorem Guarded.none (h : Guarded H none) (t : T) : ¬ H t := fun ht => nomatch h t ht

/-- A step of one thread keeps the lock with its holder. -/
theorem Guarded.handed (h : Guarded H o) (hother : ∀ u, u ≠ t → H' u → H u)
    (hmove : Handed t (H t) (H' t) o o') : Guarded H' o' := by
  intro u hu
  by_cases hut : u = t
  · subst hut
    obtain ⟨rfl, hk⟩ | ⟨-, rfl⟩ | ⟨-, -, hn⟩ := hmove
    · exact h u (hk hu)
    · rfl
    · exact absurd hu hn
  · have hold := hother u hut hu
    obtain ⟨rfl, -⟩ | ⟨rfl, -⟩ | ⟨-, ht, -⟩ := hmove
    · exact h u hold
    · exact absurd hold (h.none u)
    · have hholder : o = some t := ht.elim (h t) id
      exact absurd (Option.some.inj ((h u hold).symm.trans hholder)) hut

end base.mutex
