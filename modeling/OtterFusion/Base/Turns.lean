-- Loops that take turns, and two loops whose turns are alike.
import Mathlib.Data.List.Basic

namespace base.turns

/-- What a turn of a loop does: it tells something, and there is another turn or the loop is left.
-/
inductive Turn (E S T : Type)
  | again (told : List E) (s : S)
  | leave (told : List E) (t : T)

variable {E S S' T T' : Type}

/-- A turn that tells something first. -/
def Turn.telling (told : List E) : Turn E S T → Turn E S T
  | again told' s => again (told ++ told') s
  | leave told' t => leave (told ++ told') t

/-- At most `n` turns, with what is left when there are no more. -/
def takeTurns (turn : S → Turn E S T) (out : S → T) : Nat → S → List E × T
  | 0, s => ([], out s)
  | n + 1, s =>
    match turn s with
    | .again told s' => (told ++ (takeTurns turn out n s').1, (takeTurns turn out n s').2)
    | .leave told t => (told, t)

/-- Turns that tell the same and go on alike. -/
inductive Alike (R : S → S' → Prop) (Q : T → T' → Prop) : Turn E S T → Turn E S' T' → Prop
  | again {told : List E} {s : S} {s' : S'} : R s s' → Alike R Q (.again told s) (.again told s')
  | leave {told : List E} {t : T} {t' : T'} : Q t t' → Alike R Q (.leave told t) (.leave told t')

variable {R : S → S' → Prop} {Q : T → T' → Prop} {a : Turn E S T} {b : Turn E S' T'}

theorem Alike.telling (h : Alike R Q a b) (told : List E) :
    Alike R Q (a.telling told) (b.telling told) := by
  cases h with
  | again h => exact .again h
  | leave h => exact .leave h

/-- Loops whose turns are alike tell the same, and they are left alike. -/
theorem takeTurns_alike {turn : S → Turn E S T} {turn' : S' → Turn E S' T'} {out : S → T}
    {out' : S' → T'}
    (hturn : ∀ s s', R s s' → Alike R Q (turn s) (turn' s'))
    (hout : ∀ s s', R s s' → Q (out s) (out' s'))
    (n : Nat) {s : S} {s' : S'} (h : R s s') :
    (takeTurns turn out n s).1 = (takeTurns turn' out' n s').1 ∧
      Q (takeTurns turn out n s).2 (takeTurns turn' out' n s').2 := by
  induction n generalizing s s' with
  | zero => exact ⟨rfl, hout s s' h⟩
  | succ n ih =>
    have halike := hturn s s' h
    unfold takeTurns
    generalize turn s = a at halike
    generalize turn' s' = b at halike
    cases halike with
    | again hnext =>
      obtain ⟨htold, hleft⟩ := ih hnext
      exact ⟨congrArg _ htold, hleft⟩
    | leave hleft => exact ⟨rfl, hleft⟩

end base.turns
