-- Runs of a system that takes labelled steps. A run may be held to a condition on each of
-- its steps; an invariant that such a step keeps holds in every state the run reaches.
import Mathlib.Logic.Basic

namespace base.runs

variable {S L : Type} {step : S → L → Option S} {init : S → Prop} {ok : S → L → Prop}

/-- The state after the steps `ls`, or none when one of them cannot be taken. -/
def run (step : S → L → Option S) : S → List L → Option S
  | s, [] => some s
  | s, l :: ls => (step s l).bind fun t => run step t ls

/-- The states that a run reaches when each of its steps meets `ok`. -/
inductive Reaches (step : S → L → Option S) (init : S → Prop) (ok : S → L → Prop) : S → Prop
  | start {s : S} : init s → Reaches step init ok s
  | next {s t : S} {l : L} : Reaches step init ok s → ok s l → step s l = some t →
      Reaches step init ok t

/-- The states that any run reaches. -/
abbrev Reachable (step : S → L → Option S) (init : S → Prop) : S → Prop :=
  Reaches step init fun _ _ => True

/-- A property that starts true and that each step keeps is true in every state. -/
theorem Reaches.invariant {I : S → Prop} (h0 : ∀ s, init s → I s)
    (hstep : ∀ s l t, I s → ok s l → step s l = some t → I t)
    {s : S} (h : Reaches step init ok s) : I s := by
  induction h with
  | start h => exact h0 _ h
  | next _ hok hst ih => exact hstep _ _ _ ih hok hst

/-- The same rule for a property whose steps lean on an invariant shown before. -/
theorem Reaches.invariant_with {I J : S → Prop} (hI : ∀ s, Reaches step init ok s → I s)
    (h0 : ∀ s, init s → J s)
    (hstep : ∀ s l t, I s → J s → ok s l → step s l = some t → J t)
    {s : S} (h : Reaches step init ok s) : J s := by
  induction h with
  | start h => exact h0 _ h
  | next hs hok hst ih => exact hstep _ _ _ (hI _ hs) ih hok hst

/-- A looser condition on the steps reaches more states. -/
theorem Reaches.mono {ok' : S → L → Prop} (hle : ∀ s l, ok s l → ok' s l)
    {s : S} (h : Reaches step init ok s) : Reaches step init ok' s := by
  induction h with
  | start h => exact .start h
  | next _ hok hst ih => exact .next ih (hle _ _ hok) hst

theorem run_cons (s : S) (l : L) (ls : List L) :
    run step s (l :: ls) = (step s l).bind fun t => run step t ls := rfl

/-- What a list of steps reaches when each of them meets the condition, wherever it is taken. -/
theorem Reaches.of_run_ok {s t : S} {ls : List L} (hs : Reaches step init ok s)
    (hok : ∀ l ∈ ls, ∀ u, ok u l) (h : run step s ls = some t) : Reaches step init ok t := by
  induction ls generalizing s with
  | nil => simp only [run, Option.some.injEq] at h; exact h ▸ hs
  | cons l ls ih =>
    rw [run_cons, Option.bind_eq_some_iff] at h
    obtain ⟨u, hu, hrest⟩ := h
    exact ih (.next hs (hok l List.mem_cons_self s) hu)
      (fun l' hl => hok l' (List.mem_cons_of_mem l hl)) hrest

/-- What a list of steps reaches, a run reaches. -/
theorem Reaches.of_run {s t : S} {ls : List L} (hs : Reachable step init s)
    (h : run step s ls = some t) : Reachable step init t :=
  hs.of_run_ok (fun _ _ _ => trivial) h

/-- What a list of steps reaches when a test is true before each of them. -/
theorem Reaches.of_tested_run {test : S → L → Bool} (htest : ∀ s l, test s l = true → ok s l)
    {s t : S} {ls : List L} (hs : Reaches step init ok s)
    (h : run (fun s l => if test s l then step s l else none) s ls = some t) :
    Reaches step init ok t := by
  induction ls generalizing s with
  | nil => simp only [run, Option.some.injEq] at h; exact h ▸ hs
  | cons l ls ih =>
    rw [run_cons, Option.bind_eq_some_iff] at h
    obtain ⟨u, hu, hrest⟩ := h
    split at hu
    · rename_i hl
      exact ih (.next hs (htest s l hl) hu) hrest
    · cases hu

end base.runs
