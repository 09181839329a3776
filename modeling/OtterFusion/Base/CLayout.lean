-- Layouts by the rule of C: members placed one after the other, each at the next multiple of its
-- alignment, or all of them at the start; a cap on their alignments and a least alignment of the
-- whole.
import Mathlib.Algebra.Order.Ring.Nat
import Mathlib.Data.List.Basic

namespace base.clayout

/-! ## Multiples -/

/-- The quotient, rounded up. -/
def divCeil (n a : Nat) : Nat := (n + a - 1) / a

/-- The least multiple of `a` from `n` on. -/
def roundUp (n a : Nat) : Nat := divCeil n a * a

variable {n m a b : Nat}

theorem dvd_roundUp : a ∣ roundUp n a := Nat.dvd_mul_left a _

theorem le_roundUp (ha : 0 < a) : n ≤ roundUp n a := by
  have hparts := Nat.div_add_mod' (n + a - 1) a
  have hmod := Nat.mod_lt (n + a - 1) ha
  unfold roundUp divCeil
  omega

theorem roundUp_lt (ha : 0 < a) : roundUp n a < n + a := by
  have hparts := Nat.div_add_mod' (n + a - 1) a
  unfold roundUp divCeil
  omega

/-- No multiple lies between. -/
theorem roundUp_le (ha : 0 < a) (hm : a ∣ m) (h : n ≤ m) : roundUp n a ≤ m := by
  obtain ⟨k, rfl⟩ := hm
  obtain ⟨j, hj⟩ := dvd_roundUp (n := n) (a := a)
  have hlt := roundUp_lt (n := n) ha
  rw [hj] at hlt ⊢
  have hjk : a * j < a * (k + 1) := by
    rw [Nat.mul_succ]
    omega
  exact Nat.mul_le_mul_left a (Nat.le_of_lt_succ (Nat.lt_of_mul_lt_mul_left hjk))

theorem roundUp_mono (ha : 0 < a) (h : n ≤ m) : roundUp n a ≤ roundUp m a :=
  roundUp_le ha dvd_roundUp (Nat.le_trans h (le_roundUp ha))

@[simp] theorem roundUp_zero (ha : 0 < a) : roundUp 0 a = 0 :=
  Nat.le_zero.mp (roundUp_le ha (Nat.dvd_zero a) (Nat.le_refl 0))

/-- A number that is not zero and not above the divisor is rounded up to it. -/
theorem roundUp_of_le (hn : 0 < n) (h : n ≤ a) : roundUp n a = a := by
  have ha : 0 < a := Nat.lt_of_lt_of_le hn h
  refine Nat.le_antisymm (roundUp_le ha (Nat.dvd_refl a) h) ?_
  exact Nat.le_of_dvd (Nat.lt_of_lt_of_le hn (le_roundUp ha)) dvd_roundUp

/-! ## One after the other -/

/-- A member: its size and its alignment. -/
@[ext] structure SizeAlign where
  size : Nat
  align : Nat
  deriving DecidableEq, Repr

/-- The offsets of members one after the other. -/
def offsetsFrom : Nat → List SizeAlign → List Nat
  | _, [] => []
  | n, x :: xs => roundUp n x.align :: offsetsFrom (roundUp n x.align + x.size) xs

/-- Where the last of them ends. -/
def extentFrom : Nat → List SizeAlign → Nat
  | n, [] => n
  | n, x :: xs => extentFrom (roundUp n x.align + x.size) xs

/-- The greatest of some numbers and of one more. -/
def greatest (n : Nat) (l : List Nat) : Nat := l.foldl max n

variable {x : SizeAlign} {xs : List SizeAlign} {l : List Nat}

/-- No alignment is zero. -/
def Aligned (xs : List SizeAlign) : Prop := ∀ x ∈ xs, 0 < x.align

theorem offsetsFrom_length : (offsetsFrom n xs).length = xs.length := by
  induction xs generalizing n with
  | nil => rfl
  | cons x xs ih => exact congrArg (· + 1) ih

theorem le_extentFrom (h : Aligned xs) : n ≤ extentFrom n xs := by
  induction xs generalizing n with
  | nil => exact Nat.le_refl n
  | cons x xs ih =>
    obtain ⟨hx, hxs⟩ := List.forall_mem_cons.mp h
    have hround := le_roundUp (n := n) hx
    have hrest := ih (n := roundUp n x.align + x.size) hxs
    rw [extentFrom]
    omega

/-- A member is at a multiple of its alignment. -/
theorem offsetsFrom_dvd : ∀ p ∈ (offsetsFrom n xs).zip xs, p.2.align ∣ p.1 := by
  induction xs generalizing n with
  | nil =>
    intro p hp
    cases hp
  | cons x xs ih =>
    rw [offsetsFrom, List.zip_cons_cons, List.forall_mem_cons]
    exact ⟨dvd_roundUp, ih⟩

theorem offsetsFrom_inside (h : Aligned xs) :
    ∀ p ∈ (offsetsFrom n xs).zip xs, n ≤ p.1 ∧ p.1 + p.2.size ≤ extentFrom n xs := by
  induction xs generalizing n with
  | nil =>
    intro p hp
    cases hp
  | cons x xs ih =>
    obtain ⟨hx, hxs⟩ := List.forall_mem_cons.mp h
    have hround := le_roundUp (n := n) hx
    rw [offsetsFrom, List.zip_cons_cons, List.forall_mem_cons, extentFrom]
    refine ⟨⟨hround, le_extentFrom hxs⟩, fun p hp => ?_⟩
    have hp' := ih hxs p hp
    omega

/-- A member ends before the next one starts. -/
theorem offsetsFrom_apart (h : Aligned xs) :
    ((offsetsFrom n xs).zip xs).Pairwise fun p q => p.1 + p.2.size ≤ q.1 := by
  induction xs generalizing n with
  | nil => exact List.Pairwise.nil
  | cons x xs ih =>
    obtain ⟨hx, hxs⟩ := List.forall_mem_cons.mp h
    rw [offsetsFrom, List.zip_cons_cons]
    exact List.pairwise_cons.mpr ⟨fun p hp => (offsetsFrom_inside hxs p hp).1, ih hxs⟩

theorem le_greatest_base : n ≤ greatest n l := by
  induction l generalizing n with
  | nil => exact Nat.le_refl n
  | cons k l ih => exact Nat.le_trans (Nat.le_max_left n k) ih

theorem le_greatest (h : m ∈ l) : m ≤ greatest n l := by
  induction l generalizing n with
  | nil => cases h
  | cons k l ih =>
    rcases List.mem_cons.mp h with rfl | h
    · exact Nat.le_trans (Nat.le_max_right n m) le_greatest_base
    · exact ih h

theorem greatest_zero (h : ∀ k ∈ l, k = 0) : greatest n l = n := by
  induction l generalizing n with
  | nil => rfl
  | cons k l ih =>
    obtain ⟨rfl, hl⟩ := List.forall_mem_cons.mp h
    exact (ih hl).trans (Nat.max_zero n)

/-! ## Rules -/

/-- How the members of an aggregate are laid out: a cap on their alignments, a least alignment of
the whole, and whether all of them start at the start. -/
structure Rule where
  packed : Option Nat
  minAlign : Option Nat
  isUnion : Bool
  deriving DecidableEq, Repr

/-- An alignment under a cap. -/
def capped (packed : Option Nat) (align : Nat) : Nat :=
  match packed with
  | some p => min align (max p 1)
  | none => align

/-- An alignment that is not below another one. -/
def raised (minAlign : Option Nat) (align : Nat) : Nat :=
  match minAlign with
  | some m => max align (max m 1)
  | none => align

theorem capped_pos {packed : Option Nat} (h : 0 < a) : 0 < capped packed a := by
  unfold capped
  split <;> omega

theorem le_raised {minAlign : Option Nat} : a ≤ raised minAlign a := by
  unfold raised
  split <;> omega

namespace Rule

variable (r : Rule)

/-- A member as it is aligned. -/
def cap (x : SizeAlign) : SizeAlign := ⟨x.size, capped r.packed x.align⟩

def offsets (xs : List SizeAlign) : List Nat :=
  if r.isUnion then xs.map fun _ => 0 else offsetsFrom 0 (xs.map r.cap)

/-- The bytes up to the end of the last member. -/
def extent (xs : List SizeAlign) : Nat :=
  if r.isUnion then greatest 0 (xs.map SizeAlign.size) else extentFrom 0 (xs.map r.cap)

def align (xs : List SizeAlign) : Nat :=
  raised r.minAlign (greatest 1 ((xs.map r.cap).map SizeAlign.align))

/-- The whole has a byte at least, and its size is a multiple of its alignment. -/
def size (xs : List SizeAlign) : Nat := roundUp (max 1 (r.extent xs)) (r.align xs)

/-- The whole as a member of another aggregate. -/
def whole (xs : List SizeAlign) : SizeAlign := ⟨r.size xs, r.align xs⟩

variable {r}

@[simp] theorem cap_size : (r.cap x).size = x.size := rfl

theorem aligned_cap (h : Aligned xs) : Aligned (xs.map r.cap) := by
  intro y hy
  obtain ⟨x, hx, rfl⟩ := List.mem_map.mp hy
  exact capped_pos (h x hx)

theorem align_pos (r : Rule) (xs : List SizeAlign) : 0 < r.align xs :=
  Nat.lt_of_lt_of_le Nat.one_pos (Nat.le_trans le_greatest_base le_raised)

theorem extent_le_size : r.extent xs ≤ r.size xs :=
  Nat.le_trans (Nat.le_max_right 1 _) (le_roundUp (align_pos r xs))

/-- A layout as C wants it. -/
structure Lays (r : Rule) (xs : List SizeAlign) (offsets : List Nat) (size align : Nat) : Prop where
  /-- It is the one of the rule. -/
  offsets_eq : offsets = r.offsets xs
  size_eq : size = r.size xs
  align_eq : align = r.align xs
  /-- A member is at a multiple of its alignment, inside the whole. -/
  aligned : ∀ p ∈ offsets.zip (xs.map r.cap), p.2.align ∣ p.1
  inside : ∀ p ∈ offsets.zip (xs.map r.cap), p.1 + p.2.size ≤ size
  /-- No two members of a struct share a byte, and those of a union start at the start. -/
  apart : r.isUnion = false →
    (offsets.zip (xs.map r.cap)).Pairwise fun p q => p.1 + p.2.size ≤ q.1
  start : r.isUnion = true → ∀ o ∈ offsets, o = 0
  whole : align ∣ size

/-- The layout of the rule is one as C wants it. -/
theorem lays (h : Aligned xs) : r.Lays xs (r.offsets xs) (r.size xs) (r.align xs) where
  offsets_eq := rfl
  size_eq := rfl
  align_eq := rfl
  aligned := by
    unfold offsets
    split
    · intro p hp
      obtain ⟨_, _, hzero⟩ := List.mem_map.mp (List.of_mem_zip hp).1
      rw [← hzero]
      exact Nat.dvd_zero _
    · exact offsetsFrom_dvd
  inside := by
    intro p hp
    refine Nat.le_trans ?_ extent_le_size
    unfold offsets at hp
    unfold extent
    split at hp
    · obtain ⟨hoffset, hmember⟩ := List.of_mem_zip hp
      obtain ⟨_, _, hzero⟩ := List.mem_map.mp hoffset
      obtain ⟨x, hx, hcap⟩ := List.mem_map.mp hmember
      rw [if_pos (by assumption), ← hzero, ← hcap, cap_size, Nat.zero_add]
      exact le_greatest (List.mem_map_of_mem hx)
    · rw [if_neg (by assumption)]
      exact (offsetsFrom_inside (aligned_cap h) p hp).2
  apart := by
    intro hstruct
    unfold offsets
    rw [hstruct]
    exact offsetsFrom_apart (aligned_cap h)
  start := by
    intro hunion o ho
    unfold offsets at ho
    rw [hunion] at ho
    obtain ⟨_, _, hzero⟩ := List.mem_map.mp ho
    exact hzero.symm
  whole := dvd_roundUp

/-- A member is no greater than the whole. -/
theorem member_le_extent (h : Aligned xs) (hx : x ∈ xs) : x.size ≤ r.extent xs := by
  unfold extent
  split
  · exact le_greatest (List.mem_map_of_mem hx)
  · obtain ⟨i, hi, rfl⟩ := List.mem_iff_getElem.mp hx
    have hlen : i < ((offsetsFrom 0 (xs.map r.cap)).zip (xs.map r.cap)).length := by
      rw [List.length_zip, offsetsFrom_length, List.length_map]
      omega
    have hin := (offsetsFrom_inside (aligned_cap h) _ (List.getElem_mem hlen)).2
    rw [List.getElem_zip, List.getElem_map] at hin
    exact Nat.le_trans (Nat.le_add_left _ _) hin

/-- Members without a byte have none together. -/
theorem extent_zero (h : Aligned xs) (hsizes : ∀ x ∈ xs, x.size = 0) : r.extent xs = 0 := by
  have hextent : ∀ ys : List SizeAlign, Aligned ys → (∀ y ∈ ys, y.size = 0) →
      extentFrom 0 ys = 0 := by
    intro ys hys hzero
    induction ys with
    | nil => rfl
    | cons y ys ih =>
      obtain ⟨hy, hys⟩ := List.forall_mem_cons.mp hys
      obtain ⟨hsize, hzero⟩ := List.forall_mem_cons.mp hzero
      rw [extentFrom, roundUp_zero hy, hsize]
      exact ih hys hzero
  unfold extent
  split
  · refine greatest_zero fun k hk => ?_
    obtain ⟨x, hx, rfl⟩ := List.mem_map.mp hk
    exact hsizes x hx
  · refine hextent _ (aligned_cap h) fun y hy => ?_
    obtain ⟨x, hx, rfl⟩ := List.mem_map.mp hy
    exact hsizes x hx

/-- Whether there is a byte does not depend on the rule. -/
theorem extent_zero_iff (q : Rule) (h : Aligned xs) : r.extent xs = 0 ↔ q.extent xs = 0 := by
  constructor
  · intro hzero
    exact extent_zero h fun x hx => Nat.le_zero.mp (hzero ▸ member_le_extent h hx)
  · intro hzero
    exact extent_zero h fun x hx => Nat.le_zero.mp (hzero ▸ member_le_extent h hx)

theorem size_of_extent (h : r.extent xs ≠ 0) :
    max (roundUp (r.extent xs) (r.align xs)) 1 = r.size xs := by
  have hle := le_roundUp (n := r.extent xs) (align_pos r xs)
  unfold size
  rw [Nat.max_eq_right (show 1 ≤ r.extent xs by omega)]
  exact Nat.max_eq_left (by omega)

/-- Without a byte the whole is as great as its alignment. -/
theorem size_of_empty (h : r.extent xs = 0) : r.size xs = r.align xs := by
  unfold size
  rw [h]
  exact roundUp_of_le (by decide) (align_pos r xs)

end Rule

end base.clayout
