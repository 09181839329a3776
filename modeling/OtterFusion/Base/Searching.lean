-- A search of a graph that remembers nothing: a node that has an answer gives it, and another one
-- asks its successors in order. It comes back from every node exactly when the graph has no cycle.
import Mathlib.Data.Set.Finite.Basic
import OtterFusion.Base.Marking

namespace base.searching

open base.marking (Reach)

variable {V A : Type}

/-- The first answer of some nodes. There is none when a node before it does not come back. -/
def firstAnswer (ask : V → Option (Option A)) : List V → Option (Option A)
  | [] => some none
  | v :: vs =>
    match ask v with
    | none => none
    | some (some a) => some (some a)
    | some none => firstAnswer ask vs

/-- The search, as far as it comes back without going deeper than this. -/
def search (succ : V → List V) (answer : V → Option A) : Nat → V → Option (Option A)
  | 0, _ => none
  | depth + 1, v =>
    match answer v with
    | some a => some (some a)
    | none => firstAnswer (search succ answer depth) (succ v)

attribute [local simp] firstAnswer search

/-! ## The first answer -/

theorem firstAnswer_found {ask : V → Option (Option A)} {vs : List V} {a : A}
    (h : firstAnswer ask vs = some (some a)) : ∃ v ∈ vs, ask v = some (some a) := by
  induction vs with
  | nil => cases h
  | cons v vs ih =>
    unfold firstAnswer at h
    split at h
    · cases h
    · rename_i hv
      cases h
      exact ⟨v, List.mem_cons_self, hv⟩
    · obtain ⟨u, hu, hask⟩ := ih h
      exact ⟨u, List.mem_cons_of_mem v hu, hask⟩

theorem firstAnswer_nothing {ask : V → Option (Option A)} {vs : List V}
    (h : firstAnswer ask vs = some none) : ∀ v ∈ vs, ask v = some none := by
  induction vs with
  | nil => exact fun v hv => by cases hv
  | cons v vs ih =>
    unfold firstAnswer at h
    split at h
    · cases h
    · cases h
    · rename_i hv
      exact List.forall_mem_cons.mpr ⟨hv, ih h⟩

theorem firstAnswer_mono {ask ask' : V → Option (Option A)} {vs : List V} {r : Option A}
    (hask : ∀ v ∈ vs, ∀ r, ask v = some r → ask' v = some r) (h : firstAnswer ask vs = some r) :
    firstAnswer ask' vs = some r := by
  induction vs with
  | nil => exact h
  | cons v vs ih =>
    have hrest := fun u hu => hask u (List.mem_cons_of_mem v hu)
    unfold firstAnswer at h ⊢
    split at h
    · cases h
    · rename_i a hv
      rw [hask v List.mem_cons_self _ hv]
      exact h
    · rename_i hv
      rw [hask v List.mem_cons_self _ hv]
      exact ih hrest h

theorem firstAnswer_returns {ask : V → Option (Option A)} {vs : List V}
    (h : ∀ v ∈ vs, ∃ r, ask v = some r) : ∃ r, firstAnswer ask vs = some r := by
  induction vs with
  | nil => exact ⟨none, rfl⟩
  | cons v vs ih =>
    obtain ⟨r, hv⟩ := h v List.mem_cons_self
    obtain ⟨rest, hrest⟩ := ih fun u hu => h u (List.mem_cons_of_mem v hu)
    unfold firstAnswer
    rw [hv]
    cases r with
    | some a => exact ⟨some a, rfl⟩
    | none => exact ⟨rest, hrest⟩

/-! ## What the search finds -/

variable {succ : V → List V} {answer : V → Option A}

theorem search_mono {depth depth' : Nat} (hle : depth ≤ depth') {v : V} {r : Option A}
    (h : search succ answer depth v = some r) : search succ answer depth' v = some r := by
  induction depth generalizing depth' v r with
  | zero => cases h
  | succ depth ih =>
    obtain ⟨more, rfl⟩ : ∃ more, depth' = more + 1 := ⟨depth' - 1, by omega⟩
    unfold search at h ⊢
    cases hanswer : answer v with
    | some a =>
      rw [hanswer] at h
      exact h
    | none =>
      rw [hanswer] at h
      exact firstAnswer_mono (fun u _ r hu => ih (by omega) hu) h

theorem search_found {depth : Nat} {v : V} {a : A}
    (h : search succ answer depth v = some (some a)) :
    ∃ u, Reach succ v u ∧ answer u = some a := by
  induction depth generalizing v with
  | zero => cases h
  | succ depth ih =>
    unfold search at h
    split at h
    · rename_i hanswer
      cases h
      exact ⟨v, .refl, hanswer⟩
    · obtain ⟨w, hw, hask⟩ := firstAnswer_found h
      obtain ⟨u, hreach, hu⟩ := ih hask
      exact ⟨u, .head hw hreach, hu⟩

theorem search_nothing {depth : Nat} {v : V} (h : search succ answer depth v = some none) {u : V}
    (hu : Reach succ v u) : answer u = none := by
  induction depth generalizing v with
  | zero => cases h
  | succ depth ih =>
    unfold search at h
    split at h
    · cases h
    · rename_i hanswer
      cases hu using Relation.ReflTransGen.head_induction_on with
      | refl => exact hanswer
      | head hw hreach => exact ih (firstAnswer_nothing h _ hw) hreach

/-! ## When it comes back -/

theorem search_returns (answer : V → Option A) (hwf : WellFounded fun u v => u ∈ succ v) (v : V) :
    ∃ depth r, search succ answer depth v = some r := by
  induction v using hwf.induction with
  | _ v ih =>
    have hdeep : ∀ vs : List V, (∀ u ∈ vs, u ∈ succ v) →
        ∃ depth, ∀ u ∈ vs, ∃ r, search succ answer depth u = some r := by
      intro vs
      induction vs with
      | nil => exact fun _ => ⟨0, fun u hu => by cases hu⟩
      | cons w vs ihvs =>
        intro hvs
        obtain ⟨depth, hrest⟩ := ihvs fun u hu => hvs u (List.mem_cons_of_mem w hu)
        obtain ⟨deep, r, hw⟩ := ih w (hvs w List.mem_cons_self)
        refine ⟨max depth deep, List.forall_mem_cons.mpr ⟨⟨r, ?_⟩, fun u hu => ?_⟩⟩
        · exact search_mono (Nat.le_max_right _ _) hw
        · obtain ⟨r, hr⟩ := hrest u hu
          exact ⟨r, search_mono (Nat.le_max_left _ _) hr⟩
    obtain ⟨depth, hall⟩ := hdeep (succ v) fun u hu => hu
    obtain ⟨r, hr⟩ := firstAnswer_returns hall
    cases hanswer : answer v with
    | some a => exact ⟨1, some a, by rw [search, hanswer]⟩
    | none => exact ⟨depth + 1, r, by rw [search, hanswer]; exact hr⟩

/-- From a node of a cycle with no answer in reach the search does not come back. -/
theorem search_cycle {v : V} (hcycle : Relation.TransGen (fun a b => b ∈ succ a) v v)
    (hno : ∀ u, Reach succ v u → answer u = none) (depth : Nat) :
    search succ answer depth v = none := by
  induction depth generalizing v with
  | zero => rfl
  | succ depth ih =>
    cases h : search succ answer (depth + 1) v with
    | none => rfl
    | some r =>
      cases r with
      | some a =>
        obtain ⟨u, hreach, hu⟩ := search_found h
        rw [hno u hreach] at hu
        cases hu
      | none =>
        obtain ⟨w, hw, hback⟩ := Relation.TransGen.head'_iff.mp hcycle
        have hnext : search succ answer depth w = none := by
          refine ih ?_ fun u hu => hno u (.head hw hu)
          exact Relation.TransGen.tail' hback hw
        unfold search at h
        rw [hno v .refl] at h
        rw [firstAnswer_nothing h w hw] at hnext
        cases hnext

/-- A graph without a cycle, whose edges lead to finitely many nodes, ends on every path. -/
theorem wellFounded_of_acyclic (nodes : Finset V) (hnodes : ∀ v, ∀ u ∈ succ v, u ∈ nodes)
    (hacyclic : ∀ v, ¬Relation.TransGen (fun a b => b ∈ succ a) v v) :
    WellFounded fun u v => u ∈ succ v := by
  have hinside : ∀ u ∈ nodes, Acc (fun u v => u ∈ succ v) u := by
    let below (a b : nodes) : Prop := Relation.TransGen (fun a b => b ∈ succ a) b.1 a.1
    have htrans : IsTrans nodes below := ⟨fun _ _ _ hab hbc => hbc.trans hab⟩
    have hirrefl : Std.Irrefl below := ⟨fun a => hacyclic a.1⟩
    have hwf : WellFounded below := Finite.wellFounded_of_trans_of_irrefl below
    intro u hu
    generalize hx : (⟨u, hu⟩ : nodes) = x
    induction x using hwf.induction generalizing u with
    | _ x ih =>
      subst hx
      refine .intro u fun w hw => ?_
      exact ih ⟨w, hnodes u w hw⟩ (.single hw) w _ rfl
  exact ⟨fun v => .intro v fun u hu => hinside u (hnodes v u hu)⟩

end base.searching
