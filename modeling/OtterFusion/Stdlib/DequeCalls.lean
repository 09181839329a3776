-- Each call on a deque does to its sequence, the front reversed and then the back, what its name
-- says; it changes no other list.
import OtterFusion.Stdlib.Deques

open base.listHeap

namespace stdlib.deque

variable {T : Type} {eqT : T → T → Bool} {cloneT : T → T}

/-! ## Values -/

namespace ElementType

variable {V : Type} (type : ElementType)

/-- What `front`, `back`, `get` and `remove_at` answer: a branch of their `if`. -/
def answered : Option (Word V) → Word V
  | some v => type.branch v
  | none => nullBox

/-- An element that was popped is taken out of its box as it was. -/
theorem unbox_popped (v : Word V) : (type.unbox ∘ type.popped) (some v) = some v := if_pos rfl

end ElementType

/-! ## Sequences -/

/-- The element of a sequence at an index, when it has one. -/
def elementAt (xs : List T) (index : Int) : Option T := if 0 ≤ index then xs[index.toNat]? else none

/-- The sequence with another element at an index, and whether it has the index. -/
def setAt (xs : List T) (index : Int) (value : T) : Bool × List T :=
  if 0 ≤ index ∧ index < xs.length then (true, xs.set index.toNat value) else (false, xs)

/-- The sequence without the element at an index, and the element. -/
def takeAt (xs : List T) (index : Int) : Option T × List T :=
  (elementAt xs index, if 0 ≤ index then xs.eraseIdx index.toNat else xs)

/-! ## One deque -/

namespace Deque

variable {V : Type} {type : ElementType} {g : Heap (Word V)}
variable {d : Deque} {h h' : Heap T} {xs ys : List T} {v : T} {index : Int}

/-- The sequence in the two lists. -/
def sequence (d : Deque) (h : Heap T) : List T :=
  (⟨h.lists d.front, h.lists d.back⟩ : collections.Deque T).toList

theorem sequence_eq : d.sequence h = (h.lists d.front).reverse ++ h.lists d.back := rfl

theorem length_sequence : ((d.sequence h).length : Int) = d.size h := by
  rw [sequence_eq, List.length_append, List.length_reverse, size, Heap.size, Heap.size]
  omega

theorem isEmpty_eq : d.isEmpty h = (d.sequence h).isEmpty := by
  have hlength := length_sequence (d := d) (h := h)
  unfold isEmpty
  rw [← hlength]
  cases d.sequence h with
  | nil => rfl
  | cons v xs => exact decide_eq_false (by rw [List.length_cons]; omega)

theorem sequence_front (hne : d.front ≠ d.back) :
    d.sequence (h.write d.front xs) = xs.reverse ++ h.lists d.back := by
  rw [sequence_eq, Heap.write_self, Heap.write_ne hne.symm]

theorem sequence_back (hne : d.front ≠ d.back) :
    d.sequence (h.write d.back xs) = (h.lists d.front).reverse ++ xs := by
  rw [sequence_eq, Heap.write_self, Heap.write_ne hne]

/-- A call that changes the lists of the deque only and leaves it with this sequence. -/
structure Leaves (d : Deque) (h h' : Heap T) (xs : List T) : Prop where
  frame : h.Frame h' [d.front, d.back]
  sequence : d.sequence h' = xs

theorem leaves_same : d.Leaves h h (d.sequence h) := ⟨.refl h _, rfl⟩

theorem leaves_front (xs : List T) (hne : d.front ≠ d.back) :
    d.Leaves h (h.write d.front xs) (xs.reverse ++ h.lists d.back) :=
  ⟨Heap.frame_write (.inl List.mem_cons_self), sequence_front hne⟩

theorem leaves_back (xs : List T) (hne : d.front ≠ d.back) :
    d.Leaves h (h.write d.back xs) ((h.lists d.front).reverse ++ xs) :=
  ⟨Heap.frame_write (.inl (by simp)), sequence_back hne⟩

theorem pushFront_leaves (hne : d.front ≠ d.back) :
    d.Leaves h (d.pushFront h v) (v :: d.sequence h) := by
  have hleaves := leaves_front (h := h) (h.lists d.front ++ [v]) hne
  rw [List.reverse_concat] at hleaves
  exact hleaves

theorem pushBack_leaves (hne : d.front ≠ d.back) :
    d.Leaves h (d.pushBack h v) (d.sequence h ++ [v]) := by
  have hleaves := leaves_back (h := h) (h.lists d.back ++ [v]) hne
  rw [← List.append_assoc] at hleaves
  exact hleaves

theorem clear_leaves (hne : d.front ≠ d.back) : d.Leaves h (d.clear h) [] := by
  have hfront : ((h.clear d.front).lists d.front) = [] := Heap.write_self
  have hleaves := leaves_back (h := h.clear d.front) [] hne
  rw [hfront] at hleaves
  exact ⟨(Heap.frame_write (.inl List.mem_cons_self)).trans hleaves.frame, hleaves.sequence⟩

theorem extendFront_leaves (hne : d.front ≠ d.back) {values : Nat} (hvalues : values ≠ d.front) :
    ∃ h', d.extendFront h values = some h' ∧ d.Leaves h h' (h.lists values ++ d.sequence h) := by
  refine ⟨_, Heap.forEachDown_push hvalues (Nat.le_refl _), ?_⟩
  rw [List.take_length]
  have hleaves := leaves_front (h := h) (h.lists d.front ++ (h.lists values).reverse) hne
  rw [List.reverse_append, List.reverse_reverse, List.append_assoc] at hleaves
  exact hleaves

theorem extendBack_leaves (hne : d.front ≠ d.back) {values : Nat} (hvalues : values ≠ d.back) :
    ∃ h', d.extendBack h values = some h' ∧ d.Leaves h h' (d.sequence h ++ h.lists values) := by
  refine ⟨_, Heap.forEach_push hvalues (Nat.lt_succ_self _) id, ?_⟩
  rw [List.map_id]
  have hleaves := leaves_back (h := h) (h.lists d.back ++ h.lists values) hne
  rw [← List.append_assoc] at hleaves
  exact hleaves

/-- The elements change sides, and the sequence stays. -/
theorem refillFront_leaves (type : ElementType) (hne : d.front ≠ d.back)
    (hempty : g.lists d.front = []) :
    ∃ g', d.refillFront type g = some g' ∧ d.Leaves g g' (d.sequence g) ∧
      g'.lists d.back = [] := by
  refine ⟨_, Heap.moveAll_eq type.unbox_popped hne.symm (Nat.lt_succ_self _), ⟨?_, ?_⟩, ?_⟩
  · exact (Heap.frame_write (.inl (List.mem_cons_of_mem _ List.mem_cons_self))).trans
      (Heap.frame_write (.inl List.mem_cons_self))
  · rw [sequence_front hne, Heap.write_self, hempty, List.nil_append, List.reverse_reverse,
      List.append_nil, sequence_eq, hempty, List.reverse_nil, List.nil_append]
  · rw [Heap.write_ne hne.symm, Heap.write_self]

theorem refillBack_leaves (type : ElementType) (hne : d.front ≠ d.back)
    (hempty : g.lists d.back = []) :
    ∃ g', d.refillBack type g = some g' ∧ d.Leaves g g' (d.sequence g) ∧
      g'.lists d.front = [] := by
  refine ⟨_, Heap.moveAll_eq type.unbox_popped hne (Nat.lt_succ_self _), ⟨?_, ?_⟩, ?_⟩
  · exact (Heap.frame_write (.inl List.mem_cons_self)).trans
      (Heap.frame_write (.inl (List.mem_cons_of_mem _ List.mem_cons_self)))
  · rw [sequence_back hne, Heap.write_self, hempty, List.nil_append, List.reverse_nil,
      List.nil_append, sequence_eq, hempty, List.append_nil]
  · rw [Heap.write_ne hne, Heap.write_self]

theorem size_eq_zero {l : Nat} : h.size l = 0 ↔ h.lists l = [] := by
  rw [Heap.size, Int.natCast_eq_zero, List.length_eq_zero_iff]

/-- The last element of the front is the first of the sequence. -/
theorem pop_front_leaves (hne : d.front ≠ d.back)
    (hback : h.lists d.front = [] → h.lists d.back = []) :
    (h.pop d.front).1 = (d.sequence h).head? ∧
      d.Leaves h (h.pop d.front).2 (d.sequence h).tail := by
  have hleaves := leaves_front (h := h) ((h.lists d.front).dropLast) hne
  rw [sequence_eq, Heap.pop]
  rcases List.eq_nil_or_concat (h.lists d.front) with hfront | ⟨xs, v, hfront⟩
  · rw [hfront, hback hfront] at hleaves ⊢
    exact ⟨rfl, hleaves⟩
  · rw [List.concat_eq_append] at hfront
    rw [hfront, List.dropLast_concat] at hleaves ⊢
    rw [List.getLast?_concat, List.reverse_concat]
    exact ⟨rfl, hleaves⟩

theorem pop_back_leaves (hne : d.front ≠ d.back)
    (hfront : h.lists d.back = [] → h.lists d.front = []) :
    (h.pop d.back).1 = (d.sequence h).getLast? ∧
      d.Leaves h (h.pop d.back).2 (d.sequence h).dropLast := by
  have hleaves := leaves_back (h := h) ((h.lists d.back).dropLast) hne
  rw [sequence_eq, Heap.pop]
  rcases List.eq_nil_or_concat (h.lists d.back) with hback | ⟨xs, v, hback⟩
  · rw [hback, hfront hback] at hleaves ⊢
    exact ⟨rfl, hleaves⟩
  · rw [List.concat_eq_append] at hback
    rw [hback, List.dropLast_concat] at hleaves ⊢
    rw [List.getLast?_concat, ← List.append_assoc, List.getLast?_concat, List.dropLast_concat]
    exact ⟨rfl, hleaves⟩

theorem Leaves.trans {h'' : Heap T} (hh : d.Leaves h h' xs) (hh' : d.Leaves h' h'' ys) :
    d.Leaves h h'' ys := ⟨hh.frame.trans hh'.frame, hh'.sequence⟩

theorem popFront_leaves (type : ElementType) (hne : d.front ≠ d.back) :
    ∃ g', d.popFront type g = some (type.popped (d.sequence g).head?, g') ∧
      d.Leaves g g' (d.sequence g).tail := by
  unfold popFront
  by_cases hempty : g.lists d.front = []
  · obtain ⟨g', hrefill, hleaves, hback⟩ := refillFront_leaves type hne hempty
    obtain ⟨hvalue, hpop⟩ := pop_front_leaves hne fun _ => hback
    rw [hleaves.sequence] at hvalue hpop
    rw [if_pos (size_eq_zero.mpr hempty), hrefill]
    exact ⟨_, congrArg some (Prod.ext (congrArg type.popped hvalue) rfl), hleaves.trans hpop⟩
  · obtain ⟨hvalue, hpop⟩ := pop_front_leaves hne fun hfront => absurd hfront hempty
    rw [if_neg (mt size_eq_zero.mp hempty)]
    exact ⟨_, congrArg some (Prod.ext (congrArg type.popped hvalue) rfl), hpop⟩

theorem popBack_leaves (type : ElementType) (hne : d.front ≠ d.back) :
    ∃ g', d.popBack type g = some (type.popped (d.sequence g).getLast?, g') ∧
      d.Leaves g g' (d.sequence g).dropLast := by
  unfold popBack
  by_cases hempty : g.lists d.back = []
  · obtain ⟨g', hrefill, hleaves, hfront⟩ := refillBack_leaves type hne hempty
    obtain ⟨hvalue, hpop⟩ := pop_back_leaves hne fun _ => hfront
    rw [hleaves.sequence] at hvalue hpop
    rw [if_pos (size_eq_zero.mpr hempty), hrefill]
    exact ⟨_, congrArg some (Prod.ext (congrArg type.popped hvalue) rfl), hleaves.trans hpop⟩
  · obtain ⟨hvalue, hpop⟩ := pop_back_leaves hne fun hback => absurd hback hempty
    rw [if_neg (mt size_eq_zero.mp hempty)]
    exact ⟨_, congrArg some (Prod.ext (congrArg type.popped hvalue) rfl), hpop⟩

/-! ## Indexes -/

/-- Where an index of the sequence is: counted from the end of the front, or in the back. -/
theorem item_front (index : Int) (hlo : 0 ≤ index) (hhi : index < h.size d.front) :
    h.item d.front (h.size d.front - 1 - index) = (d.sequence h)[index.toNat]? := by
  unfold Heap.size at hhi ⊢
  have hlt : index.toNat < (h.lists d.front).length := by omega
  have hplace : ((h.lists d.front).length : Int) - 1 - index =
      ((h.lists d.front).length - 1 - index.toNat : Nat) := by omega
  rw [hplace, Heap.item_nat, sequence_eq, List.getElem?_append_left (by simpa using hlt),
    List.getElem?_reverse hlt]

theorem item_back (index : Int) (hhi : h.size d.front ≤ index) :
    h.item d.back (index - h.size d.front) = (d.sequence h)[index.toNat]? := by
  unfold Heap.size at hhi ⊢
  have hplace : index - ((h.lists d.front).length : Int) =
      (index.toNat - (h.lists d.front).length : Nat) := by omega
  rw [hplace, Heap.item_nat, sequence_eq,
    List.getElem?_append_right (by rw [List.length_reverse]; omega), List.length_reverse]

theorem found {xs : List (Word V)} {i : Nat} (hi : i < xs.length) :
    (xs[i]?).map type.branch = some (type.answered xs[i]?) := by
  rw [List.getElem?_eq_getElem hi, Option.map_some]
  rfl

theorem get_eq : d.get type g index = some (type.answered (elementAt (d.sequence g) index)) := by
  unfold get elementAt
  have hlength := length_sequence (d := d) (h := g)
  by_cases hout : index < 0 ∨ d.size g ≤ index
  · rw [if_pos hout]
    rcases hout with hneg | hlarge
    · rw [if_neg (by omega)]
      rfl
    · rw [List.getElem?_eq_none (by omega), ite_self]
      rfl
  · have hlt : index.toNat < (d.sequence g).length := by omega
    have hlo : 0 ≤ index := by omega
    rw [if_neg hout, if_pos hlo]
    by_cases hfront : index < g.size d.front
    · rw [if_pos hfront, item_front index hlo hfront, found hlt]
    · rw [if_neg hfront, item_back index (by omega), found hlt]

theorem first_eq : d.first type g = some (type.answered (d.sequence g).head?) := by
  unfold first
  have hlength := length_sequence (d := d) (h := g)
  unfold size at hlength
  have hfront : 0 ≤ g.size d.front := Int.natCast_nonneg _
  have hback : 0 ≤ g.size d.back := Int.natCast_nonneg _
  rw [List.head?_eq_getElem?]
  split
  · have hitem := item_front (d := d) (h := g) 0 (Int.le_refl 0) (by omega)
    rw [Int.sub_zero] at hitem
    rw [hitem]
    exact found (by rw [Int.toNat_zero]; omega)
  · rename_i hempty
    rw [not_not] at hempty
    split
    · have hitem := item_back (d := d) (h := g) 0 (Int.le_of_eq hempty)
      rw [hempty, Int.sub_zero] at hitem
      rw [hitem]
      exact found (by rw [Int.toNat_zero]; omega)
    · rw [List.getElem?_eq_none (by omega)]
      rfl

theorem last_eq : d.last type g = some (type.answered (d.sequence g).getLast?) := by
  unfold last
  have hlength := length_sequence (d := d) (h := g)
  unfold size at hlength
  have hfront : 0 ≤ g.size d.front := Int.natCast_nonneg _
  have hback : 0 ≤ g.size d.back := Int.natCast_nonneg _
  have hplace : (d.sequence g).length - 1 = (g.size d.front + g.size d.back - 1).toNat := by omega
  rw [List.getLast?_eq_getElem?, hplace]
  split
  · have hitem := item_back (d := d) (h := g) (g.size d.front + g.size d.back - 1) (by omega)
    rw [show g.size d.front + g.size d.back - 1 - g.size d.front = g.size d.back - 1 by omega]
      at hitem
    rw [hitem]
    exact found (by omega)
  · rename_i hempty
    rw [not_not] at hempty
    split
    · have hitem := item_front (d := d) (h := g) (g.size d.front + g.size d.back - 1)
        (by omega) (by omega)
      rw [show g.size d.front - 1 - (g.size d.front + g.size d.back - 1) = 0 by omega] at hitem
      rw [hitem]
      exact found (by omega)
    · rw [List.getElem?_eq_none (by omega)]
      rfl

/-- A place counted from the end is the same place of the reversed list. -/
theorem reverse_set {i : Nat} (hi : i < xs.length) :
    (xs.set (xs.length - 1 - i) v).reverse = xs.reverse.set i v := by
  apply List.ext_getElem (by simp)
  intro j hj _
  rw [List.length_reverse, List.length_set] at hj
  simp only [List.getElem_reverse, List.getElem_set, List.length_set]
  by_cases heq : i = j
  · rw [if_pos (by omega), if_pos heq]
  · rw [if_neg (by omega), if_neg heq]

theorem reverse_eraseIdx {i : Nat} (hi : i < xs.length) :
    (xs.eraseIdx (xs.length - 1 - i)).reverse = xs.reverse.eraseIdx i := by
  rw [List.eraseIdx_eq_take_drop_succ, List.eraseIdx_eq_take_drop_succ, List.reverse_append,
    List.take_reverse, List.drop_reverse, show xs.length - 1 - i + 1 = xs.length - i by omega,
    show xs.length - 1 - i = xs.length - (i + 1) by omega]

/-- What is done in the front at the place of an index. -/
theorem place_front (hlo : 0 ≤ index) (hhi : index < h.size d.front) :
    (h.size d.front - 1 - index).toNat = (h.lists d.front).length - 1 - index.toNat := by
  unfold Heap.size at hhi ⊢
  omega

theorem place_back :
    (index - h.size d.front).toNat = index.toNat - (h.lists d.front).reverse.length := by
  rw [List.length_reverse, Heap.size]
  omega

theorem set_leaves (hne : d.front ≠ d.back) :
    ∃ h', d.set h index v = some ((setAt (d.sequence h) index v).1, h') ∧
      d.Leaves h h' (setAt (d.sequence h) index v).2 := by
  unfold set setAt
  have hlength := length_sequence (d := d) (h := h)
  by_cases hout : index < 0 ∨ d.size h ≤ index
  · have hin : ¬(0 ≤ index ∧ index < ((d.sequence h).length : Int)) := by omega
    rw [if_pos hout, if_neg hin]
    exact ⟨h, rfl, leaves_same⟩
  · have hin : 0 ≤ index ∧ index < ((d.sequence h).length : Int) := by omega
    have hlo : 0 ≤ index := hin.1
    rw [if_neg hout, if_pos hin]
    unfold size at hout
    by_cases hfront : index < h.size d.front
    · have hlt : index.toNat < (h.lists d.front).length := by
        unfold Heap.size at hfront
        omega
      have hleaves := leaves_front (h :=
        h) ((h.lists d.front).set ((h.lists d.front).length - 1 - index.toNat) v) hne
      rw [reverse_set hlt, ← List.set_append_left _ _ (by rwa [List.length_reverse])] at hleaves
      rw [if_pos hfront, Heap.put, if_pos (by omega), place_front hlo hfront]
      exact ⟨_, rfl, hleaves⟩
    · have hle : (h.lists d.front).reverse.length ≤ index.toNat := by
        rw [List.length_reverse]
        unfold Heap.size at hfront
        omega
      have hleaves := leaves_back (h :=
        h) ((h.lists d.back).set (index.toNat - (h.lists d.front).reverse.length) v) hne
      rw [← List.set_append_right _ _ hle] at hleaves
      rw [if_neg hfront, Heap.put, if_pos (by omega), place_back]
      exact ⟨_, rfl, hleaves⟩

theorem removeAt_leaves (type : ElementType) (hne : d.front ≠ d.back) :
    ∃ g', d.removeAt type g index =
        some (type.answered (takeAt (d.sequence g) index).1, g') ∧
      d.Leaves g g' (takeAt (d.sequence g) index).2 := by
  unfold removeAt takeAt elementAt
  have hlength := length_sequence (d := d) (h := g)
  by_cases hout : index < 0 ∨ d.size g ≤ index
  · rw [if_pos hout]
    rcases hout with hneg | hlarge
    · rw [if_neg (by omega), if_neg (by omega)]
      exact ⟨g, rfl, leaves_same⟩
    · rw [List.getElem?_eq_none (by omega), List.eraseIdx_of_length_le (by omega),
        ite_self, ite_self]
      exact ⟨g, rfl, leaves_same⟩
  · have hlt : index.toNat < (d.sequence g).length := by omega
    have hlo : 0 ≤ index := by omega
    rw [if_neg hout, if_pos hlo, if_pos hlo]
    unfold size at hout
    dsimp only
    by_cases hfront : index < g.size d.front
    · have hin : index.toNat < (g.lists d.front).length := by
        unfold Heap.size at hfront
        omega
      have hleaves := leaves_front (h :=
        g) ((g.lists d.front).eraseIdx ((g.lists d.front).length - 1 - index.toNat)) hne
      rw [reverse_eraseIdx hin,
        ← List.eraseIdx_append_of_lt_length (by rwa [List.length_reverse])] at hleaves
      rw [if_pos hfront, item_front index hlo hfront, List.getElem?_eq_getElem hlt, Heap.remove,
        if_pos (by omega), place_front hlo hfront]
      exact ⟨_, rfl, hleaves⟩
    · have hle : (g.lists d.front).reverse.length ≤ index.toNat := by
        rw [List.length_reverse]
        unfold Heap.size at hfront
        omega
      have hleaves := leaves_back (h :=
        g) ((g.lists d.back).eraseIdx (index.toNat - (g.lists d.front).reverse.length)) hne
      rw [← List.eraseIdx_append_of_length_le hle] at hleaves
      rw [if_neg hfront, item_back index (by omega), List.getElem?_eq_getElem hlt, Heap.remove,
        if_pos (by omega), place_back]
      exact ⟨_, rfl, hleaves⟩

/-! ## New objects -/

/-- A list that was not there. -/
structure NewList (h h' : Heap T) (l : Nat) (xs : List T) : Prop where
  frame : h.Frame h' []
  fresh : h.next ≤ l
  below : l < h'.next
  content : h'.lists l = xs

/-- A deque whose two lists were not there. -/
structure Made (out : Deque) (h h' : Heap T) (xs : List T) : Prop where
  frame : h.Frame h' []
  fresh : h.next ≤ out.front ∧ h.next ≤ out.back
  below : out.front < h'.next ∧ out.back < h'.next
  apart : out.front ≠ out.back
  sequence : out.sequence h' = xs

theorem new_made : (Deque.new h).1.Made h (Deque.new h).2 [] where
  frame := (Heap.frame_alloc []).trans (Heap.frame_alloc [])
  fresh := ⟨Nat.le_refl _, Nat.le_succ _⟩
  below := ⟨Nat.lt_succ_of_lt (Nat.lt_succ_self _), Nat.lt_succ_self _⟩
  apart := Nat.ne_of_lt (Nat.lt_succ_self _)
  sequence := by
    have hfront : (Deque.new h).2.lists h.next = [] :=
      (Heap.alloc_ne (Nat.ne_of_lt (Nat.lt_succ_self _))).trans Heap.alloc_self
    have hback : (Deque.new h).2.lists (h.next + 1) = [] := Heap.alloc_self
    exact congrArg₂ (fun f b => List.reverse f ++ b) hfront hback

/-- A call that leaves a new deque with a sequence makes a deque with that sequence. -/
theorem Made.leaves {out : Deque} {h'' : Heap T} (hmade : out.Made h h' xs)
    (hleaves : out.Leaves h' h'' ys) : out.Made h h'' ys where
  frame := by
    refine ⟨Nat.le_trans hmade.frame.grows hleaves.frame.grows, fun l hl hnot => ?_⟩
    have hout : l ∉ [out.front, out.back] := by
      have hfresh := hmade.fresh
      simp only [List.mem_cons, List.not_mem_nil, or_false, not_or]
      omega
    exact (hleaves.frame.keeps l (Nat.lt_of_lt_of_le hl hmade.frame.grows) hout).trans
      (hmade.frame.keeps l hl hnot)
  fresh := hmade.fresh
  below := ⟨Nat.lt_of_lt_of_le hmade.below.1 hleaves.frame.grows,
    Nat.lt_of_lt_of_le hmade.below.2 hleaves.frame.grows⟩
  apart := hmade.apart
  sequence := hleaves.sequence

theorem toList_new (hfront : d.front < h.next) (hback : d.back < h.next) :
    ∃ h', d.toList h = some (h.next, h') ∧ NewList h h' h.next (d.sequence h) := by
  have hf : h.alloc.2.lists d.front = h.lists d.front := Heap.alloc_ne (Nat.ne_of_lt hfront)
  have hb : h.alloc.2.lists d.back = h.lists d.back := Heap.alloc_ne (Nat.ne_of_lt hback)
  have hdown := Heap.forEachDown_push (h := h.alloc.2) (Nat.ne_of_lt hfront)
    (Nat.le_of_eq (congrArg List.length hf.symm))
  rw [hf, List.take_length, Heap.alloc_self, List.nil_append] at hdown
  have hup := Heap.forEach_push (h := h.alloc.2.write h.next (h.lists d.front).reverse)
    (Nat.ne_of_lt hback) (Nat.lt_succ_self _) id
  rw [Heap.write_ne (Nat.ne_of_lt hback), hb, Heap.write_self, Heap.write_write, List.map_id] at hup
  have hcall : d.toList h =
      (h.alloc.2.forEachDown (fun v h' => h'.push h.next v) d.front
        (h.alloc.2.lists d.front).length).bind fun h₁ =>
      (h₁.forEach (fun v h' => h'.push h.next v) d.back ((h₁.lists d.back).length + 1) 0).bind
        fun h₂ => some (h.next, h₂) := rfl
  refine ⟨h.alloc.2.write h.next (d.sequence h), ?_, Heap.frame_new [], Nat.le_refl _,
    Nat.lt_succ_self _, Heap.write_self⟩
  rw [hcall, hf, hdown, Option.bind_some, Heap.write_ne (Nat.ne_of_lt hback), hb]
  exact congrArg (Option.bind · _) hup

theorem iter_new (hfront : d.front < h.next) (hback : d.back < h.next) :
    ∃ h', d.iter h = some (⟨h.next, 0⟩, h') ∧ NewList h h' h.next (d.sequence h) := by
  obtain ⟨h', hlist, hnew⟩ := toList_new hfront hback
  refine ⟨h', ?_, hnew⟩
  rw [iter, hlist]
  rfl

/-- What `reversed` and `clone` start with: an empty deque and the list of the iterator. -/
theorem new_iter (hfront : d.front < h.next) (hback : d.back < h.next) :
    ∃ h', d.iter (Deque.new h).2 = some (⟨h.next + 2, 0⟩, h') ∧
      (Deque.new h).1.Made h h' [] ∧ h'.lists (h.next + 2) = d.sequence h := by
  have hgrows : h.next + 2 = (Deque.new h).2.next := rfl
  obtain ⟨h', hiter, hnew⟩ := iter_new (d := d) (h := (Deque.new h).2) (by omega) (by omega)
  have hmade := new_made (h := h)
  have hlists : ∀ l, l < h.next → (Deque.new h).2.lists l = h.lists l :=
    fun l hl => hmade.frame.keeps l hl (List.not_mem_nil)
  have hkeeps := fun l hl => hnew.frame.keeps l hl (List.not_mem_nil)
  refine ⟨h', hiter, ⟨hmade.frame.trans hnew.frame, hmade.fresh, ?_, hmade.apart, ?_⟩, ?_⟩
  · exact ⟨Nat.lt_of_lt_of_le hmade.below.1 hnew.frame.grows,
      Nat.lt_of_lt_of_le hmade.below.2 hnew.frame.grows⟩
  · rw [← hmade.sequence, sequence_eq, sequence_eq, hkeeps _ hmade.below.1, hkeeps _ hmade.below.2]
  · rw [hgrows, hnew.content, sequence_eq, sequence_eq, hlists _ hfront, hlists _ hback]

theorem sameFrom_isEqv (hlength : xs.length = ys.length) :
    collections.sameFrom eqT xs ys = xs.isEqv ys eqT := by
  induction xs generalizing ys with
  | nil =>
    obtain rfl := List.eq_nil_of_length_eq_zero hlength.symm
    rfl
  | cons x xs ih =>
    cases ys with
    | nil => cases hlength
    | cons y ys =>
      rw [collections.sameFrom, List.isEqv_cons_cons, ih (Nat.succ.inj hlength)]
      cases eqT x y <;> rfl

theorem reversed_made (hfront : d.front < h.next) (hback : d.back < h.next) :
    ∃ out h', d.reversed h = some (out, h') ∧ out.Made h h' (d.sequence h).reverse := by
  obtain ⟨h₁, hiter, hmade, hlist⟩ := new_iter hfront hback
  have hne : h.next + 2 ≠ (Deque.new h).1.front := by simp [Deque.new]
  have hloop := Heap.forEach_push (h := h₁) hne (Nat.lt_succ_self _) id
  rw [List.map_id, hlist] at hloop
  have hcall : d.reversed h = (d.iter (Deque.new h).2).bind fun it =>
      (it.2.forEach (fun v h' => h'.push (Deque.new h).1.front v) it.1.snapshot
        ((it.2.lists it.1.snapshot).length + 1) it.1.index).bind
        fun h₂ => some ((Deque.new h).1, h₂) := rfl
  rw [hcall, hiter, Option.bind_some, hlist]
  refine ⟨_, _, congrArg (Option.bind · _) hloop, hmade.leaves ?_⟩
  have hleaves :=
    leaves_front (h := h₁) (h₁.lists (Deque.new h).1.front ++ d.sequence h) hmade.apart
  rw [List.reverse_append, List.append_assoc, ← sequence_eq, hmade.sequence, List.append_nil]
    at hleaves
  exact hleaves

theorem clone_made (hfront : d.front < h.next) (hback : d.back < h.next) :
    ∃ out h', d.clone h cloneT = some (out, h') ∧ out.Made h h' ((d.sequence h).map cloneT) := by
  obtain ⟨h₁, hiter, hmade, hlist⟩ := new_iter hfront hback
  have hne : h.next + 2 ≠ (Deque.new h).1.back := by simp [Deque.new]
  have hloop := Heap.forEach_push (h := h₁) hne (Nat.lt_succ_self _) cloneT
  rw [hlist] at hloop
  have hcall : d.clone h cloneT = (d.iter (Deque.new h).2).bind fun it =>
      (it.2.forEach (fun v h' => h'.push (Deque.new h).1.back (cloneT v)) it.1.snapshot
        ((it.2.lists it.1.snapshot).length + 1) it.1.index).bind
        fun h₂ => some ((Deque.new h).1, h₂) := rfl
  rw [hcall, hiter, Option.bind_some, hlist]
  refine ⟨_, _, congrArg (Option.bind · _) hloop, hmade.leaves ?_⟩
  have hleaves :=
    leaves_back (h := h₁) (h₁.lists (Deque.new h).1.back ++ (d.sequence h).map cloneT) hmade.apart
  rw [← List.append_assoc, ← sequence_eq, hmade.sequence, List.nil_append] at hleaves
  exact hleaves

/-- `eq` makes two lists and compares them. -/
theorem eq_new (eqT : T → T → Bool) {other : Deque} (hfront : d.front < h.next)
    (hback : d.back < h.next)
    (hfront' : other.front < h.next) (hback' : other.back < h.next) :
    ∃ h', d.eq h eqT other = some ((d.sequence h).isEqv (other.sequence h) eqT, h') ∧
      h.Frame h' [] := by
  unfold eq
  rw [← length_sequence, ← length_sequence]
  by_cases hlength : ((d.sequence h).length : Int) = (other.sequence h).length
  · rw [if_neg (not_not.mpr hlength)]
    obtain ⟨h₁, hleft, hnew⟩ := toList_new hfront hback
    obtain ⟨h₂, hright, hnew'⟩ := toList_new (d := other) (h := h₁)
      (Nat.lt_of_lt_of_le hfront' hnew.frame.grows) (Nat.lt_of_lt_of_le hback' hnew.frame.grows)
    have hkeeps := fun l hl => hnew.frame.keeps l hl (List.not_mem_nil)
    have hother : other.sequence h₁ = other.sequence h := by
      rw [sequence_eq, sequence_eq, hkeeps _ hfront', hkeeps _ hback']
    refine ⟨h₂, ?_, hnew.frame.trans hnew'.frame⟩
    rw [hleft]
    dsimp only [Option.bind_eq_bind, Option.bind_some]
    rw [hright]
    dsimp only [Option.bind_some]
    rw [hnew'.content, hnew'.frame.keeps _ hnew.below List.not_mem_nil, hnew.content, hother,
      sameFrom_isEqv (Int.natCast_inj.mp hlength)]
  · rw [if_pos hlength]
    refine ⟨h, congrArg some (Prod.ext ?_ rfl), .refl h []⟩
    rw [List.isEqv_eq_decide, dif_neg (mt (congrArg Nat.cast) hlength)]

end Deque

end stdlib.deque
