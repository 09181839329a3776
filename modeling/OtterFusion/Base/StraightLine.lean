-- Straight-line code over values, each written once, and variables: how it runs, and what it leaves
-- as it was.
import Mathlib.Data.List.Basic

namespace base.straightline

/-! ## Code -/

/-- An instruction: an operation on values, the definition of a variable, or the use of one. -/
inductive Instr (Op : Type)
  | op (dst : Nat) (o : Op) (args : List Nat)
  | define (x v : Nat)
  | use (dst x : Nat)

/-- What the values and the variables hold. -/
structure Frame where
  vals : Nat → Nat
  vars : Nat → Nat

/-- A computation comes to its end, or stops before. -/
inductive Outcome (S A W : Type)
  | done (a : A) (w : W)
  | stopped (s : S) (w : W)

namespace Outcome

variable {S A B W : Type}

def bind (o : Outcome S A W) (f : A → W → Outcome S B W) : Outcome S B W :=
  match o with
  | done a w => f a w
  | stopped s w => stopped s w

@[simp] theorem bind_done (a : A) (w : W) (f : A → W → Outcome S B W) :
    (done a w : Outcome S A W).bind f = f a w := rfl

@[simp] theorem bind_stopped (s : S) (w : W) (f : A → W → Outcome S B W) :
    (stopped s w : Outcome S A W).bind f = stopped s w := rfl

/-- A computation behind which nothing happens. -/
theorem bind_pure (o : Outcome S A W) : o.bind .done = o := by
  cases o <;> rfl

theorem bind_assoc {C : Type} (o : Outcome S A W) (f : A → W → Outcome S B W)
    (g : B → W → Outcome S C W) : (o.bind f).bind g = o.bind fun a w => (f a w).bind g := by
  cases o <;> rfl

end Outcome

/-- The function with another value at one place. -/
def put (f : Nat → Nat) (i a : Nat) : Nat → Nat := fun j => if j = i then a else f j

@[simp] theorem put_self (f : Nat → Nat) (i a : Nat) : put f i a i = a := if_pos rfl

theorem put_of_ne {f : Nat → Nat} {i j a : Nat} (h : j ≠ i) : put f i a j = f j := if_neg h

/-! ## Runs -/

section Runs

variable {Op S W : Type} (sem : Op → List Nat → W → Outcome S Nat W)

/-- One instruction. -/
def step (i : Instr Op) (f : Frame) (w : W) : Outcome S Frame W :=
  match i with
  | .op dst o args => (sem o (args.map f.vals) w).bind fun a w' =>
      .done ⟨put f.vals dst a, f.vars⟩ w'
  | .define x v => .done ⟨f.vals, put f.vars x (f.vals v)⟩ w
  | .use dst x => .done ⟨put f.vals dst (f.vars x), f.vars⟩ w

/-- The instructions in their order. -/
def run : List (Instr Op) → Frame → W → Outcome S Frame W
  | [], f, w => .done f w
  | i :: code, f, w => (step sem i f w).bind (run code)

theorem run_append (code code' : List (Instr Op)) (f : Frame) (w : W) :
    run sem (code ++ code') f w = (run sem code f w).bind (run sem code') := by
  induction code generalizing f w with
  | nil => rfl
  | cons i code ih =>
    rw [List.cons_append, run, run]
    cases step sem i f w with
    | done f' w' =>
      rw [Outcome.bind_done, Outcome.bind_done]
      apply ih
    | stopped s w' => simp

theorem run_single (i : Instr Op) (f : Frame) (w : W) : run sem [i] f w = step sem i f w := by
  rw [run]
  cases step sem i f w <;> simp [run]

end Runs

/-! ## What is left as it was -/

/-- Two frames with the same first `n` values and `m` variables. -/
structure Agree (n m : Nat) (f f' : Frame) : Prop where
  vals : ∀ v, v < n → f'.vals v = f.vals v
  vars : ∀ x, x < m → f'.vars x = f.vars x

namespace Agree

variable {n m n' m' : Nat} {f f' f'' : Frame}

theorem refl (n m : Nat) (f : Frame) : Agree n m f f := ⟨fun _ _ => rfl, fun _ _ => rfl⟩

theorem trans (h : Agree n m f f') (h' : Agree n' m' f' f'') (hn : n ≤ n') (hm : m ≤ m') :
    Agree n m f f'' :=
  ⟨fun v hv => (h'.vals v (Nat.lt_of_lt_of_le hv hn)).trans (h.vals v hv),
    fun x hx => (h'.vars x (Nat.lt_of_lt_of_le hx hm)).trans (h.vars x hx)⟩

theorem put_val (f : Frame) {dst : Nat} (a : Nat) (h : n ≤ dst) :
    Agree n m f ⟨put f.vals dst a, f.vars⟩ :=
  ⟨fun _ hv => put_of_ne (by omega), fun _ _ => rfl⟩

theorem put_var (f : Frame) {x : Nat} (a : Nat) (h : m ≤ x) :
    Agree n m f ⟨f.vals, put f.vars x a⟩ :=
  ⟨fun _ _ => rfl, fun _ hx => put_of_ne (by omega)⟩

end Agree

/-! ## What code computes -/

section Refines

variable {Op S A B W : Type}

/-- Code does what a computation does: it stops in the same way, or ends in a frame that has the
result. -/
def Refines (R : A → Frame → Prop) : Outcome S A W → Outcome S Frame W → Prop
  | .done a w, .done f w' => w' = w ∧ R a f
  | .stopped s w, .stopped s' w' => s' = s ∧ w' = w
  | _, _ => False

theorem Refines.done {R : A → Frame → Prop} {a : A} {f : Frame} (w : W) (h : R a f) :
    Refines (S := S) R (.done a w) (.done f w) := ⟨rfl, h⟩

/-- One part after another. -/
theorem Refines.bind {R : A → Frame → Prop} {R' : B → Frame → Prop} {o : Outcome S A W}
    {r : Outcome S Frame W} {g : A → W → Outcome S B W} {k : Frame → W → Outcome S Frame W}
    (h : Refines R o r) (hnext : ∀ a f w, R a f → Refines R' (g a w) (k f w)) :
    Refines R' (o.bind g) (r.bind k) := by
  cases o with
  | done a w =>
    cases r with
    | done f w' =>
      obtain ⟨rfl, hR⟩ := h
      apply hnext
      exact hR
    | stopped s w' => cases h
  | stopped s w =>
    cases r with
    | done f w' => cases h
    | stopped s' w' => exact h

/-- A weaker relation of results and frames. -/
theorem Refines.imp {R R' : A → Frame → Prop} {o : Outcome S A W} {r : Outcome S Frame W}
    (h : Refines R o r) (himp : ∀ a f, R a f → R' a f) : Refines R' o r := by
  cases o <;> cases r
  case done.done => exact ⟨h.1, himp _ _ h.2⟩
  case done.stopped => cases h
  case stopped.done => cases h
  case stopped.stopped => exact h

/-- What is read from the frame at the end is the result. -/
theorem Refines.bind_eq {R : A → Frame → Prop} {o : Outcome S A W} {r : Outcome S Frame W}
    {g : A → W → Outcome S B W} {k : Frame → W → Outcome S B W} (h : Refines R o r)
    (hread : ∀ a f w, R a f → k f w = g a w) : r.bind k = o.bind g := by
  cases o <;> cases r
  case done.done =>
    obtain ⟨rfl, hR⟩ := h
    apply hread
    exact hR
  case done.stopped => cases h
  case stopped.done => cases h
  case stopped.stopped =>
    obtain ⟨rfl, rfl⟩ := h
    rfl

end Refines

end base.straightline
