-- Reachability in a graph that is given by the successors of each node, and the marking of what
-- is reachable from a stack of nodes: a node that is not marked yet is marked, and its
-- successors go on the stack.
import Mathlib.Algebra.Order.BigOperators.Group.Finset

namespace base.marking

variable {V : Type}

/-! ## Reachability -/

/-- There is a path from a node to another. -/
abbrev Reach (succ : V → List V) : V → V → Prop := Relation.ReflTransGen fun a b => b ∈ succ a

/-- A node that one of these nodes reaches. -/
def ReachFrom (succ : V → List V) (starts : List V) (x : V) : Prop :=
  ∃ r ∈ starts, Reach succ r x

/-- A property that the steps of a path keep. -/
theorem Reach.closed {succ : V → List V} {P : V → Prop} (hP : ∀ a, P a → ∀ b ∈ succ a, P b)
    {a b : V} (h : Reach succ a b) (ha : P a) : P b := by
  induction h with
  | refl => exact ha
  | tail _ hb ih => exact hP _ ih _ hb

theorem ReachFrom.closed {succ : V → List V} {P : V → Prop}
    (hP : ∀ a, P a → ∀ b ∈ succ a, P b) {starts : List V} (hs : ∀ r ∈ starts, P r) {x : V}
    (h : ReachFrom succ starts x) : P x := by
  obtain ⟨r, hr, hx⟩ := h
  exact hx.closed hP (hs r hr)

theorem ReachFrom.start {succ : V → List V} {starts : List V} {x : V} (h : x ∈ starts) :
    ReachFrom succ starts x :=
  ⟨x, h, .refl⟩

theorem ReachFrom.next {succ : V → List V} {starts : List V} {x y : V}
    (h : ReachFrom succ starts x) (hy : y ∈ succ x) : ReachFrom succ starts y := by
  obtain ⟨r, hr, hx⟩ := h
  exact ⟨r, hr, hx.tail hy⟩

theorem ReachFrom.mono {succ : V → List V} {starts starts' : List V} {x : V}
    (hsub : ∀ r ∈ starts, r ∈ starts') (h : ReachFrom succ starts x) :
    ReachFrom succ starts' x := by
  obtain ⟨r, hr, hx⟩ := h
  exact ⟨r, hsub r hr, hx⟩

/-- More edges reach more. -/
theorem Reach.mono {succ succ' : V → List V} (hsub : ∀ a, ∀ b ∈ succ a, b ∈ succ' a) {a b : V}
    (h : Reach succ a b) : Reach succ' a b :=
  Relation.ReflTransGen.mono (fun a b => hsub a b) _ _ h

/-- When each new edge leads into a set that no old edge leaves, a path follows old edges, or it
ends in the set. -/
theorem Reach.of_new_edges {succ succ' : V → List V} {P : V → Prop}
    (hP : ∀ a, P a → ∀ b ∈ succ a, P b) (hnew : ∀ a, ∀ b ∈ succ' a, b ∈ succ a ∨ P b) {a b : V}
    (h : Reach succ' a b) : Reach succ a b ∨ P b := by
  induction h with
  | refl => exact Or.inl .refl
  | tail _ hb ih =>
    rcases hnew _ _ hb with hb | hb
    · exact ih.imp (·.tail hb) fun hc => hP _ hc _ hb
    · exact Or.inr hb

/-! ## What a marking does -/

/-- What a marking has done: nothing is unmarked, what was on the stack is marked, what it
marked has its successors marked, and all that is reachable. -/
structure Marked (succ : V → List V) (before : V → Bool) (work : List V) (after : V → Bool) :
    Prop where
  grows : ∀ x, before x = true → after x = true
  starts : ∀ x ∈ work, after x = true
  closed : ∀ x, after x = true → before x = true ∨ ∀ y ∈ succ x, after y = true
  sound : ∀ x, after x = true → before x = true ∨ ReachFrom succ work x

theorem Marked.nothing {succ : V → List V} {before : V → Bool} : Marked succ before [] before :=
  ⟨fun _ hx => hx, fun _ hx => absurd hx List.not_mem_nil, fun _ hx => Or.inl hx,
    fun _ hx => Or.inl hx⟩

/-- Among nodes that no edge leaves, and from marks there that no edge leaves either, the marking
adds exactly what is reachable. -/
theorem Marked.iff {succ : V → List V} {before after : V → Bool} {work : List V} {P : V → Prop}
    (h : Marked succ before work after) (hP : ∀ a, P a → ∀ b ∈ succ a, P b)
    (hwork : ∀ x ∈ work, P x)
    (hclosed : ∀ x, P x → before x = true → ∀ y ∈ succ x, before y = true) {x : V} :
    after x = true ↔ before x = true ∨ ReachFrom succ work x := by
  refine ⟨h.sound x, fun hr => ?_⟩
  rcases hr with hr | hr
  · exact h.grows x hr
  · have hboth : P x ∧ after x = true := by
      refine hr.closed (P := fun a => P a ∧ after a = true) (fun a ha b hb => ?_)
        fun r hr => ⟨hwork r hr, h.starts r hr⟩
      refine ⟨hP a ha.1 b hb, ?_⟩
      rcases h.closed a ha.2 with hba | hc
      · exact h.grows b (hclosed a ha.1 hba b hb)
      · exact hc b hb
    exact hboth.2

/-! ## Marking -/

variable [DecidableEq V]

/-- The marking, with fuel for its turns. -/
def mark (succ : V → List V) : Nat → (V → Bool) → List V → Option (V → Bool)
  | _, marked, [] => some marked
  | 0, _, _ :: _ => none
  | n + 1, marked, v :: work =>
    if marked v then mark succ n marked work
    else mark succ n (Function.update marked v true) ((succ v).reverse ++ work)

theorem mark_spec {succ : V → List V} {n : Nat} {before after : V → Bool} {work : List V}
    (h : mark succ n before work = some after) : Marked succ before work after := by
  induction n generalizing before work with
  | zero =>
    cases work with
    | nil => cases h; exact .nothing
    | cons v work => cases h
  | succ n ih =>
    cases work with
    | nil => cases h; exact .nothing
    | cons v work =>
      unfold mark at h
      split at h
      · rename_i hv
        obtain ⟨hg, hs, hc, hsound⟩ := ih h
        refine ⟨hg, fun x hx => ?_, hc, fun x hx => ?_⟩
        · rcases List.mem_cons.mp hx with rfl | hx
          · exact hg x hv
          · exact hs x hx
        · exact (hsound x hx).imp_right (·.mono fun r hr => List.mem_cons_of_mem v hr)
      · obtain ⟨hg, hs, hc, hsound⟩ := ih h
        have hself : after v = true := hg v (Function.update_self ..)
        have hsucc : ∀ y ∈ succ v, after y = true := fun y hy =>
          hs y (List.mem_append_left _ (List.mem_reverse.mpr hy))
        have hupdate : ∀ x, Function.update before v true x = true → x = v ∨ before x = true := by
          intro x hx
          by_cases hxv : x = v
          · exact Or.inl hxv
          · rw [Function.update_of_ne hxv] at hx
            exact Or.inr hx
        refine ⟨fun x hx => ?_, fun x hx => ?_, fun x hx => ?_, fun x hx => ?_⟩
        · apply hg
          by_cases hxv : x = v
          · rw [hxv, Function.update_self]
          · rw [Function.update_of_ne hxv, hx]
        · rcases List.mem_cons.mp hx with rfl | hx
          · exact hself
          · exact hs x (List.mem_append_right _ hx)
        · rcases hc x hx with hb | hc
          · rcases hupdate x hb with rfl | hb
            · exact Or.inr hsucc
            · exact Or.inl hb
          · exact Or.inr hc
        · rcases hsound x hx with hb | ⟨r, hr, hrx⟩
          · rcases hupdate x hb with rfl | hb
            · exact Or.inr (.start List.mem_cons_self)
            · exact Or.inl hb
          · rcases List.mem_append.mp hr with hr | hr
            · have hvr : v ∈ v :: work := List.mem_cons_self
              exact Or.inr ⟨v, hvr, .head (List.mem_reverse.mp hr) hrx⟩
            · exact Or.inr ⟨r, List.mem_cons_of_mem v hr, hrx⟩

/-- The marking ends: each node of a finite set that no edge leaves is expanded once. -/
theorem mark_ends {succ : V → List V} (nodes : Finset V)
    (hnodes : ∀ x ∈ nodes, ∀ y ∈ succ x, y ∈ nodes) {n : Nat} {before : V → Bool}
    {work : List V} (hwork : ∀ x ∈ work, x ∈ nodes)
    (hn : work.length + ∑ x ∈ nodes with before x = false, (succ x).length ≤ n) :
    ∃ after, mark succ n before work = some after := by
  induction n generalizing before work with
  | zero =>
    cases work with
    | nil => exact ⟨before, rfl⟩
    | cons v work => simp at hn
  | succ n ih =>
    cases work with
    | nil => exact ⟨before, rfl⟩
    | cons v work =>
      unfold mark
      split
      · refine ih (fun x hx => hwork x (List.mem_cons_of_mem v hx)) ?_
        rw [List.length_cons] at hn
        omega
      · rename_i hv
        have hmem : v ∈ nodes := hwork v List.mem_cons_self
        refine ih (fun x hx => ?_) ?_
        · rcases List.mem_append.mp hx with hx | hx
          · exact hnodes v hmem x (List.mem_reverse.mp hx)
          · exact hwork x (List.mem_cons_of_mem v hx)
        · have hfilter : (nodes.filter fun x => before x = false) =
              insert v (nodes.filter fun x => Function.update before v true x = false) := by
            ext x
            by_cases hxv : x = v
            · subst hxv
              simp [hmem, hv]
            · simp [hxv]
          have hnot : v ∉ nodes.filter fun x => Function.update before v true x = false := by
            simp
          rw [hfilter, Finset.sum_insert hnot, List.length_cons] at hn
          rw [List.length_append, List.length_reverse]
          omega

end base.marking

/-! ## What a walk that marks has yet to see of finitely many things -/

namespace Unseen

variable {α : Type} [DecidableEq α]

/-- How many of some things are not seen. -/
def unseen (things seen : List α) : Nat := (things.filter (· ∉ seen)).length

theorem unseen_le (things seen : List α) (a : α) :
    unseen things (a :: seen) ≤ unseen things seen := by
  unfold unseen
  rw [← List.countP_eq_length_filter, ← List.countP_eq_length_filter]
  apply List.countP_mono_left
  intro b _ hb
  simp only [List.mem_cons, not_or, decide_eq_true_eq] at hb ⊢
  exact hb.2

/-- Marking something new leaves less to see. -/
theorem unseen_lt {things seen : List α} {a : α} (ha : a ∈ things) (hs : a ∉ seen) :
    unseen things (a :: seen) < unseen things seen := by
  have hsplit : things.filter (· ∉ a :: seen) = (things.filter (· ∉ seen)).filter (· ≠ a) := by
    rw [List.filter_filter]
    apply List.filter_congr
    intro n _
    simp
  unfold unseen
  rw [hsplit]
  exact List.length_filter_lt_length_iff_exists.mpr ⟨a, by simp [ha, hs], by simp⟩

end Unseen
