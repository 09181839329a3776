-- Routes through a graph: walks from a start that end at the first hit and come to no node twice on
-- the way. Where a hit can be reached there is a route, and a search that keeps the nodes on its
-- stack finds each route once.
import Mathlib.Data.List.Chain
import Mathlib.Data.List.Nodup

namespace base.routes

variable {V : Type} {succ : V → List V} {hit : V → Prop} {start u v c : V} {p q : List V}

/-- A walk of at least one step from the start to a hit. -/
structure Walk (succ : V → List V) (hit : V → Prop) (start : V) (q : List V) : Prop where
  head : q.head? = some start
  chain : q.IsChain fun u v => v ∈ succ u
  long : 1 < q.length
  ends : ∃ v, q.getLast? = some v ∧ hit v

/-- A walk on which the nodes before the last are distinct, and of them at most the start is a hit.
-/
structure Route (succ : V → List V) (hit : V → Prop) (start : V) (q : List V) : Prop
    extends Walk succ hit start q where
  distinct : q.dropLast.Nodup
  early : ∀ v ∈ q.dropLast, v ≠ start → ¬hit v

/-! ## Where there is a route -/

theorem walk_reaches (h : Walk succ hit start q) :
    ∃ v, Relation.TransGen (fun u v => v ∈ succ u) start v ∧ hit v := by
  obtain ⟨hhead, hchain, hlong, v, hlast, hv⟩ := h
  refine ⟨v, ?_, hv⟩
  cases q with
  | nil => cases hhead
  | cons u q =>
    obtain rfl := Option.some.inj hhead
    cases q with
    | nil => exact absurd hlong (Nat.lt_irrefl 1)
    | cons c q =>
      clear hhead hlong hv
      induction q generalizing u c with
      | nil =>
        cases hlast
        exact .single (List.isChain_pair.mp hchain)
      | cons d q ih =>
        rw [List.getLast?_cons_cons] at hlast
        obtain ⟨huc, hrest⟩ := List.isChain_cons_cons.mp hchain
        exact .head huc (ih _ _ hrest hlast)

theorem exists_walk (h : Relation.TransGen (fun u v => v ∈ succ u) start v) (hv : hit v) :
    ∃ q, Walk succ hit start q := by
  induction h using Relation.TransGen.head_induction_on with
  | @single u huv =>
    exact ⟨[u, v], rfl, List.isChain_pair.mpr huv, by simp, v, rfl, hv⟩
  | @head u c huc _ ih =>
    obtain ⟨q, hhead, hchain, hlong, w, hlast, hw⟩ := ih
    cases q with
    | nil => cases hhead
    | cons c' q =>
      obtain rfl := Option.some.inj hhead
      refine ⟨u :: c' :: q, rfl, List.isChain_cons_cons.mpr ⟨huc, hchain⟩, ?_, w, ?_, hw⟩
      · rw [List.length_cons]
        omega
      · rw [List.getLast?_cons_cons]
        exact hlast

/-- A list that repeats an element comes back to it. -/
theorem exists_repeat {l : List V} (h : ¬l.Nodup) :
    ∃ a x b d, l = a ++ x :: (b ++ x :: d) := by
  induction l with
  | nil => exact absurd List.nodup_nil h
  | cons y l ih =>
    by_cases hy : y ∈ l
    · obtain ⟨b, d, rfl⟩ := List.append_of_mem hy
      exact ⟨[], y, b, d, rfl⟩
    · obtain ⟨a, x, b, d, rfl⟩ := ih fun hl => h (List.nodup_cons.mpr ⟨hy, hl⟩)
      exact ⟨y :: a, x, b, d, rfl⟩

/-- What is between two visits of a node can be left out. -/
theorem Walk.shortcut {a b d : List V} {x : V}
    (h : Walk succ hit start (a ++ x :: (b ++ x :: d))) (hd : d ≠ []) :
    Walk succ hit start (a ++ x :: d) := by
  obtain ⟨hhead, hchain, -, w, hlast, hw⟩ := h
  refine ⟨?_, ?_, ?_, w, ?_, hw⟩
  · cases a with
    | nil => exact hhead
    | cons y a => exact hhead
  · rw [List.isChain_append] at hchain ⊢
    obtain ⟨ha, hxb, hjoin⟩ := hchain
    refine ⟨ha, ?_, hjoin⟩
    exact (List.isChain_append.mp (List.isChain_cons.mp hxb).2).2.1
  · have hpos := List.length_pos_of_ne_nil hd
    rw [List.length_append, List.length_cons]
    omega
  · rw [List.getLast?_append_of_ne_nil _ (List.cons_ne_nil _ _)] at hlast ⊢
    rw [← List.cons_append, List.getLast?_append_of_ne_nil _ (List.cons_ne_nil _ _)] at hlast
    exact hlast

/-- The walk can end at the first hit after the start. -/
theorem Walk.stop {a d : List V} {x : V} (h : Walk succ hit start (a ++ x :: d)) (hx : hit x)
    (hne : x ≠ start) : Walk succ hit start (a ++ [x]) := by
  obtain ⟨hhead, hchain, -, -⟩ := h
  have ha : a ≠ [] := by
    rintro rfl
    exact hne (Option.some.inj hhead)
  refine ⟨?_, ?_, ?_, x, List.getLast?_concat, hx⟩
  · rw [List.head?_append_of_ne_nil _ ha] at hhead ⊢
    exact hhead
  · rw [List.append_cons] at hchain
    exact (List.isChain_append.mp hchain).1
  · have hpos := List.length_pos_of_ne_nil ha
    rw [List.length_append, List.length_singleton]
    omega

/-- The shortest walk is a route. -/
theorem Walk.exists_route (h : Walk succ hit start q) : ∃ q, Route succ hit start q := by
  induction hn : q.length using Nat.strong_induction_on generalizing q with
  | _ n ih =>
    obtain ⟨last, hlast, -⟩ := h.ends
    have hsplit : q = q.dropLast ++ [last] := (List.dropLast_append_getLast? last hlast).symm
    by_cases hdistinct : q.dropLast.Nodup
    · by_cases hearly : ∀ v ∈ q.dropLast, v ≠ start → ¬hit v
      · exact ⟨q, h, hdistinct, hearly⟩
      · push Not at hearly
        obtain ⟨x, hx, hne, hhit⟩ := hearly
        obtain ⟨a, d, hq⟩ := List.append_of_mem hx
        rw [hq, List.append_assoc, List.cons_append] at hsplit
        rw [hsplit] at h hn
        refine ih _ ?_ (h.stop hhit hne) rfl
        simp only [List.length_append, List.length_cons] at hn ⊢
        simp
        omega
    · obtain ⟨a, x, b, d, hq⟩ := exists_repeat hdistinct
      rw [hq, List.append_assoc, List.cons_append, List.append_assoc, List.cons_append] at hsplit
      rw [hsplit] at h hn
      refine ih _ ?_ (h.shortcut (by simp)) rfl
      simp only [List.length_append, List.length_cons] at hn ⊢
      omega

/-- A route comes to a node twice only where it ends, at the start. -/
theorem Route.nodup (h : Route succ hit start q) (hstart : ∀ u, start ∉ succ u) : q.Nodup := by
  obtain ⟨last, hlast, hhit⟩ := h.ends
  have hsplit : q = q.dropLast ++ [last] := (List.dropLast_append_getLast? last hlast).symm
  have hfront : q.dropLast ≠ [] := by
    intro hnil
    have hlong := h.long
    rw [hsplit, hnil] at hlong
    exact absurd hlong (Nat.lt_irrefl 1)
  have hnot : last ∉ q.dropLast := by
    intro hmem
    have hroot : last = start := by
      by_contra hne
      exact h.early last hmem hne hhit
    have hchain := h.chain
    rw [hsplit, ← List.dropLast_append_getLast hfront, List.append_assoc] at hchain
    have hedge := List.isChain_pair.mp (List.isChain_append.mp hchain).2.1
    exact hstart _ (hroot ▸ hedge)
  rw [hsplit]
  exact List.nodup_append_comm.mp (List.nodup_cons.mpr ⟨hnot, h.distinct⟩)

/-! ## Stacks of a search -/

/-- A stack: the nodes before the last are distinct, and of them at most the start is a hit. -/
structure Stack (succ : V → List V) (hit : V → Prop) (start : V) (p : List V) (v : V) : Prop where
  head : (p ++ [v]).head? = some start
  chain : (p ++ [v]).IsChain fun u v => v ∈ succ u
  distinct : p.Nodup
  early : ∀ u ∈ p, u ≠ start → ¬hit u

theorem Stack.bottom : Stack succ hit start [] start :=
  ⟨rfl, List.isChain_singleton _, List.nodup_nil, fun _ hu => by cases hu⟩

theorem Stack.next (h : Stack succ hit start p v) (hhit : ¬(hit v ∧ p ≠ [])) (hv : v ∉ p)
    (hc : c ∈ succ v) : Stack succ hit start (p ++ [v]) c where
  head := by
    rw [List.head?_append_of_ne_nil _ (by simp)]
    exact h.head
  chain := by
    refine List.isChain_append.mpr ⟨h.chain, List.isChain_singleton _, ?_⟩
    intro x hx y hy
    rw [List.getLast?_concat] at hx
    cases hx
    cases hy
    exact hc
  distinct := List.nodup_append_comm.mp (List.nodup_cons.mpr ⟨hv, h.distinct⟩)
  early := by
    intro u hu hne
    rcases List.mem_append.mp hu with hu | hu
    · exact h.early u hu hne
    · obtain rfl := List.mem_singleton.mp hu
      intro hu
      have hp : p = [] := by
        by_contra hp
        exact hhit ⟨hu, hp⟩
      subst hp
      exact hne (Option.some.inj h.head)

/-- What comes after the stack on a route. -/
theorem Route.after (hq : Route succ hit start q) (hstack : p ++ [v] <+: q) :
    q = p ++ [v] ∨ ∃ c, c ∈ succ v ∧ (p ++ [v]) ++ [c] <+: q := by
  obtain ⟨t, rfl⟩ := hstack
  cases t with
  | nil => exact .inl (List.append_nil _)
  | cons c t =>
    right
    refine ⟨c, ?_, t, by simp⟩
    exact (List.isChain_append.mp hq.chain).2.2 v (by simp) c rfl

/-- A route that goes on passes the node. -/
theorem Route.passed (hq : Route succ hit start q) (hstack : (p ++ [v]) ++ [c] <+: q) :
    (p ++ [v]).Nodup ∧ (v ≠ start → ¬hit v) := by
  obtain ⟨t, rfl⟩ := hstack
  have hsub : (p ++ [v]) <+: ((p ++ [v]) ++ [c] ++ t).dropLast := by
    rw [List.append_assoc, List.dropLast_append_of_ne_nil (by simp)]
    exact List.prefix_append _ _
  exact ⟨hq.distinct.sublist hsub.sublist, hq.early v (hsub.subset (by simp))⟩

/-- A stack that has come to a hit is the only route it begins. -/
theorem Stack.found (h : Stack succ hit start p v) (hhit : hit v) (hp : p ≠ []) :
    Route succ hit start q ∧ p ++ [v] <+: q ↔ q = p ++ [v] := by
  constructor
  · rintro ⟨hq, hstack⟩
    rcases hq.after hstack with heq | ⟨c, -, hmore⟩
    · exact heq
    · obtain ⟨hdistinct, hearly⟩ := hq.passed hmore
      have hv : v = start := by
        by_contra hne
        exact hearly hne hhit
      cases p with
      | nil => exact absurd rfl hp
      | cons u p =>
        obtain rfl : u = start := Option.some.inj h.head
        rw [hv, List.cons_append, List.nodup_cons] at hdistinct
        exact absurd (by simp) hdistinct.1
  · rintro rfl
    refine ⟨⟨⟨h.head, h.chain, ?_, v, List.getLast?_concat, hhit⟩, ?_, ?_⟩, List.prefix_rfl⟩
    · have hpos := List.length_pos_of_ne_nil hp
      rw [List.length_append, List.length_singleton]
      omega
    · rw [List.dropLast_concat]
      exact h.distinct
    · rw [List.dropLast_concat]
      exact h.early

/-- No route begins with a stack that is at a node for the second time. -/
theorem Route.not_back (hq : Route succ hit start q) (hhit : ¬(hit v ∧ p ≠ [])) (hv : v ∈ p) :
    ¬p ++ [v] <+: q := by
  intro hstack
  have hp : p ≠ [] := List.ne_nil_of_mem hv
  rcases hq.after hstack with rfl | ⟨c, -, hmore⟩
  · obtain ⟨w, hlast, hw⟩ := hq.ends
    rw [List.getLast?_concat] at hlast
    cases hlast
    exact hhit ⟨hw, hp⟩
  · have hdistinct := (hq.passed hmore).1
    exact List.nodup_append.mp hdistinct |>.2.2 v hv v (by simp) rfl

/-- The routes that begin with a stack go on to a successor, when the stack is not at a hit. -/
theorem Route.goes_on (hhit : ¬(hit v ∧ p ≠ [])) :
    Route succ hit start q ∧ p ++ [v] <+: q ↔
      ∃ c ∈ succ v, Route succ hit start q ∧ (p ++ [v]) ++ [c] <+: q := by
  constructor
  · rintro ⟨hq, hstack⟩
    rcases hq.after hstack with rfl | ⟨c, hc, hmore⟩
    · obtain ⟨w, hlast, hw⟩ := hq.ends
      rw [List.getLast?_concat] at hlast
      cases hlast
      have hp : p ≠ [] := by
        rintro rfl
        exact absurd hq.long (Nat.lt_irrefl 1)
      exact absurd ⟨hw, hp⟩ hhit
    · exact ⟨c, hc, hq, hmore⟩
  · rintro ⟨c, -, hq, hmore⟩
    exact ⟨hq, (List.prefix_append _ _).trans hmore⟩

/-- Two successors after one stack are the same on a route. -/
theorem next_unique {d : V} (hc : p ++ [c] <+: q) (hd : p ++ [d] <+: q) : c = d := by
  have heq := List.prefix_of_prefix_length_le hc hd (by simp)
  have hsame := heq.eq_of_length (by simp)
  exact (List.append_inj' hsame rfl).2 |> List.cons.inj |>.1

end base.routes
