-- Lists as objects: a heap of lists by number, the calls on one list, which leave the others alone,
-- and the loops that read one list and push on another.
import Mathlib.Data.List.Induction

namespace base.listHeap

/-- Lists by number. The numbers from `next` on are free. -/
structure Heap (T : Type) where
  lists : Nat → List T
  next : Nat

variable {T U : Type} {h h' h'' : Heap T} {l m : Nat} {xs ys : List T} {v : T}

namespace Heap

def empty : Heap T := ⟨fun _ => [], 0⟩

/-- The heap with one list changed. -/
def write (h : Heap T) (l : Nat) (xs : List T) : Heap T :=
  { h with lists := Function.update h.lists l xs }

/-- A new list, without elements. -/
def alloc (h : Heap T) : Nat × Heap T :=
  (h.next, { lists := Function.update h.lists h.next [], next := h.next + 1 })

/-! ## The calls on a list -/

def size (h : Heap T) (l : Nat) : Int := (h.lists l).length

def push (h : Heap T) (l : Nat) (v : T) : Heap T := h.write l (h.lists l ++ [v])

/-- The last element is taken out, when there is one. -/
def pop (h : Heap T) (l : Nat) : Option T × Heap T :=
  ((h.lists l).getLast?, h.write l (h.lists l).dropLast)

def clear (h : Heap T) (l : Nat) : Heap T := h.write l []

/-- An element by its index. There is none outside the list. -/
def item (h : Heap T) (l : Nat) (i : Int) : Option T :=
  if 0 ≤ i then (h.lists l)[i.toNat]? else none

/-- Another element at an index. There is no heap when the index is outside the list. -/
def put (h : Heap T) (l : Nat) (i : Int) (v : T) : Option (Heap T) :=
  if 0 ≤ i ∧ i < h.size l then some (h.write l ((h.lists l).set i.toNat v)) else none

/-- The element at an index is taken out, when there is one. -/
def remove (h : Heap T) (l : Nat) (i : Int) : Option T × Heap T :=
  if 0 ≤ i ∧ i < h.size l then ((h.lists l)[i.toNat]?, h.write l ((h.lists l).eraseIdx i.toNat))
  else (none, h)

@[simp] theorem write_next : (h.write l xs).next = h.next := rfl

@[simp] theorem write_self : (h.write l xs).lists l = xs := Function.update_self ..

theorem write_ne (hne : m ≠ l) : (h.write l xs).lists m = h.lists m := Function.update_of_ne hne ..

@[simp] theorem write_write : (h.write l xs).write l ys = h.write l ys := by
  simp only [write, Function.update_idem]

theorem write_same : h.write l (h.lists l) = h := by
  simp only [write, Function.update_eq_self]

theorem write_comm (hne : l ≠ m) : (h.write l xs).write m ys = (h.write m ys).write l xs := by
  simp only [write, Function.update_comm hne]

/-! ## Frames -/

/-- What a change leaves alone: the lists that were there, but for those in `changed`. -/
structure Frame (h h' : Heap T) (changed : List Nat) : Prop where
  grows : h.next ≤ h'.next
  keeps : ∀ l, l < h.next → l ∉ changed → h'.lists l = h.lists l

theorem Frame.refl (h : Heap T) (changed : List Nat) : h.Frame h changed :=
  ⟨Nat.le_refl _, fun _ _ _ => rfl⟩

theorem Frame.trans {changed : List Nat} (hh : h.Frame h' changed) (hh' : h'.Frame h'' changed) :
    h.Frame h'' changed where
  grows := Nat.le_trans hh.grows hh'.grows
  keeps l hl hnot := (hh'.keeps l (Nat.lt_of_lt_of_le hl hh.grows) hnot).trans (hh.keeps l hl hnot)

theorem frame_write {changed : List Nat} (hl : l ∈ changed ∨ h.next ≤ l) :
    h.Frame (h.write l xs) changed where
  grows := Nat.le_refl _
  keeps m hm hnot := by
    refine write_ne ?_
    rintro rfl
    rcases hl with hl | hl
    · exact hnot hl
    · omega

theorem frame_alloc (changed : List Nat) : h.Frame h.alloc.2 changed where
  grows := Nat.le_succ _
  keeps _ hm _ := Function.update_of_ne (Nat.ne_of_lt hm) ..

@[simp] theorem alloc_self : h.alloc.2.lists h.next = [] := Function.update_self ..

@[simp] theorem alloc_number : h.alloc.1 = h.next := rfl

@[simp] theorem alloc_next : h.alloc.2.next = h.next + 1 := rfl

theorem alloc_ne (hne : m ≠ h.next) : h.alloc.2.lists m = h.lists m := Function.update_of_ne hne ..

/-- A new list that gets its elements afterwards. -/
theorem frame_new (changed : List Nat) : h.Frame (h.alloc.2.write h.next xs) changed where
  grows := Nat.le_succ _
  keeps _ hl _ := (write_ne (Nat.ne_of_lt hl)).trans (alloc_ne (Nat.ne_of_lt hl))

/-! ## Loops -/

/-- A loop over an index that asks for the size at each turn. Without fuel it has no result. -/
def forEach (turn : T → Heap T → Heap T) (l : Nat) : Nat → Nat → Heap T → Option (Heap T)
  | 0, _, _ => none
  | fuel + 1, i, h =>
    if h.size l ≤ i then some h
    else do forEach turn l fuel (i + 1) (turn (← h.item l i) h)

/-- A loop over an index from `n - 1` down to 0. -/
def forEachDown (turn : T → Heap T → Heap T) (l : Nat) : Nat → Heap T → Option (Heap T)
  | 0, h => some h
  | n + 1, h => do forEachDown turn l n (turn (← h.item l n) h)

/-- A loop that takes the last element of a list, as long as there is one, and pushes what it makes
of it on another list, if anything. Without fuel it has no result. -/
def moveAll (f : Option T → Option T) (l m : Nat) : Nat → Heap T → Option (Heap T)
  | 0, _ => none
  | fuel + 1, h =>
    if 0 < h.size l then
      match f (h.pop l).1 with
      | some v => moveAll f l m fuel ((h.pop l).2.push m v)
      | none => moveAll f l m fuel (h.pop l).2
    else some h

theorem item_nat (i : Nat) : h.item l i = (h.lists l)[i]? := by
  simp [item]

/-- Pushes in a row are one change. -/
theorem foldl_push (f : U → T) (us : List U) :
    us.foldl (fun h u => h.push m (f u)) h = h.write m (h.lists m ++ us.map f) := by
  induction us generalizing h with
  | nil => rw [List.foldl_nil, List.map_nil, List.append_nil, write_same]
  | cons u us ih =>
    rw [List.foldl_cons, ih]
    simp [push]

/-- A loop that leaves its list alone takes the elements of the list in their order. -/
theorem forEach_eq {turn : T → Heap T → Heap T} (hturn : ∀ v h, (turn v h).lists l = h.lists l)
    {fuel i : Nat} (hi : i ≤ (h.lists l).length) (hfuel : (h.lists l).length < fuel + i) :
    forEach turn l fuel i h = some (((h.lists l).drop i).foldl (fun h v => turn v h) h) := by
  induction fuel generalizing i h with
  | zero => omega
  | succ fuel ih =>
    rw [forEach]
    by_cases hend : (h.lists l).length ≤ i
    · rw [if_pos (by simpa [size] using hend), List.drop_eq_nil_of_le hend, List.foldl_nil]
    · have hlt : i < (h.lists l).length := Nat.lt_of_not_le hend
      have hsame := hturn (h.lists l)[i] h
      rw [if_neg (by simpa [size] using hlt), item_nat, List.getElem?_eq_getElem hlt,
        List.drop_eq_getElem_cons hlt, List.foldl_cons, Option.bind_eq_bind, Option.bind_some,
        ih (by rw [hsame]; omega) (by rw [hsame]; omega), hsame]

/-- A loop that pushes each element on another list. -/
theorem forEach_push (hne : l ≠ m) {fuel : Nat} (hfuel : (h.lists l).length < fuel) (f : T → T) :
    forEach (fun v h => h.push m (f v)) l fuel 0 h =
      some (h.write m (h.lists m ++ (h.lists l).map f)) := by
  have hturn : ∀ v (h : Heap T), (h.push m (f v)).lists l = h.lists l := fun _ _ => write_ne hne
  rw [forEach_eq hturn (Nat.zero_le _) hfuel, List.drop_zero, foldl_push]

/-- The same from the last element to the first. -/
theorem forEachDown_push (hne : l ≠ m) {n : Nat} (hn : n ≤ (h.lists l).length) :
    forEachDown (fun v h => h.push m v) l n h =
      some (h.write m (h.lists m ++ ((h.lists l).take n).reverse)) := by
  induction n generalizing h with
  | zero => rw [forEachDown, List.take_zero, List.reverse_nil, List.append_nil, write_same]
  | succ n ih =>
    have hsame : (h.push m (h.lists l)[n]).lists l = h.lists l := write_ne hne
    rw [forEachDown, item_nat, List.getElem?_eq_getElem hn, Option.bind_eq_bind, Option.bind_some,
      ih (by rw [hsame]; omega), hsame]
    have htake : (h.lists l).take (n + 1) = (h.lists l).take n ++ [(h.lists l)[n]] :=
      List.take_succ_eq_append_getElem hn
    rw [htake, List.reverse_concat]
    simp only [push, write_self, write_write]
    rw [List.append_assoc, List.singleton_append]

/-- Elements that are kept as they are arrive in the opposite order. -/
theorem moveAll_eq {f : Option T → Option T} (hf : ∀ v, f (some v) = some v) (hne : l ≠ m)
    {fuel : Nat} (hfuel : (h.lists l).length < fuel) : moveAll f l m fuel h =
      some ((h.write l []).write m (h.lists m ++ (h.lists l).reverse)) := by
  obtain ⟨xs, hxs⟩ : ∃ xs, h.lists l = xs := ⟨_, rfl⟩
  rw [hxs] at hfuel ⊢
  induction xs using List.reverseRecOn generalizing h fuel with
  | nil =>
    obtain ⟨fuel, rfl⟩ := Nat.exists_eq_succ_of_ne_zero (Nat.ne_of_gt hfuel)
    have hsame : h.write l [] = h := by rw [← hxs, write_same]
    rw [moveAll, if_neg (by simp [size, hxs]), hsame, List.reverse_nil, List.append_nil, write_same]
  | append_singleton xs v ih =>
    obtain ⟨fuel, rfl⟩ := Nat.exists_eq_succ_of_ne_zero (Nat.ne_of_gt (Nat.zero_lt_of_lt hfuel))
    have hpop : h.pop l = (some v, h.write l xs) := by
      rw [pop, hxs, List.getLast?_concat, List.dropLast_concat]
    rw [moveAll, if_pos (by simp [size, hxs]), hpop, hf]
    dsimp only
    have hxs' : ((h.write l xs).push m v).lists l = xs := by
      rw [push, write_ne hne, write_self]
    rw [ih (by simpa using hfuel) hxs']
    simp only [push, write_self, write_ne hne.symm]
    rw [write_comm hne.symm, write_write, write_write]
    simp

end Heap

end base.listHeap
