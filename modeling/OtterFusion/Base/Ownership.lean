-- Who owns which part of a line of addresses. A history variable gives each address an owner; a
-- region belongs to an owner when each of its addresses does. Regions of different owners are
-- apart, and a region changes its owner without touching those of the others.
import Mathlib.Tactic.ByContra

namespace base.ownership

variable {Tag : Type} {own : Nat → Tag} {tag tag' : Tag} {base size base' size' : Nat}

/-- Each address of the region has this owner. -/
def Owns (own : Nat → Tag) (tag : Tag) (base size : Nat) : Prop :=
  ∀ a, base ≤ a → a < base + size → own a = tag

/-- Two regions without a common address. -/
def Apart (base size base' size' : Nat) : Prop := base + size ≤ base' ∨ base' + size' ≤ base

/-- The region goes to a new owner. -/
def retag (own : Nat → Tag) (base size : Nat) (tag : Tag) : Nat → Tag :=
  fun a => if base ≤ a ∧ a < base + size then tag else own a

/-- Regions of different owners are apart, unless one is empty. -/
theorem Owns.apart (h : Owns own tag base size) (h' : Owns own tag' base' size')
    (hne : tag ≠ tag') (hsize : 0 < size) (hsize' : 0 < size') :
    Apart base size base' size' := by
  by_contra hover
  unfold Apart at hover
  have hin : own (max base base') = tag := h _ (by omega) (by omega)
  have hin' : own (max base base') = tag' := h' _ (by omega) (by omega)
  exact hne (hin.symm.trans hin')

theorem Owns.first (h : Owns own tag base size) (hsize : 0 < size) : own base = tag :=
  h base (Nat.le_refl _) (by omega)

/-- A part of a region has the owner of the region. -/
theorem Owns.part (h : Owns own tag base size) (hlo : base ≤ base')
    (hhi : base' + size' ≤ base + size) : Owns own tag base' size' :=
  fun a hle hlt => h a (by omega) (by omega)

theorem retag_in {a : Nat} (hle : base ≤ a) (hlt : a < base + size) :
    retag own base size tag a = tag := if_pos ⟨hle, hlt⟩

theorem retag_out {a : Nat} (h : ¬ (base ≤ a ∧ a < base + size)) :
    retag own base size tag a = own a := if_neg h

theorem owns_retag : Owns (retag own base size tag) tag base size :=
  fun _ hle hlt => retag_in hle hlt

/-- A region that is apart from the one that changes its owner keeps its own. -/
theorem Owns.retag_apart (h : Owns own tag' base' size') (hapart : Apart base size base' size') :
    Owns (retag own base size tag) tag' base' size' := by
  intro a hle hlt
  rw [retag_out]
  · exact h a hle hlt
  · unfold Apart at hapart
    omega

/-- So does a region of any other owner. -/
theorem Owns.retag_other {old : Tag} (h : Owns own tag' base' size')
    (hold : Owns own old base size) (hne : tag' ≠ old) :
    Owns (retag own base size tag) tag' base' size' := by
  intro a hle hlt
  rw [retag_out]
  · exact h a hle hlt
  · rintro ⟨hin, hin'⟩
    exact hne ((h a hle hlt).symm.trans (hold a hin hin'))

/-- Owners may be renamed: a region has the new name of its owner. -/
theorem Owns.rename (f : Tag → Tag) (h : Owns own tag base size) :
    Owns (fun a => f (own a)) (f tag) base size :=
  fun a hle hlt => congrArg f (h a hle hlt)

end base.ownership
