-- A deque is a sequence: what a program does with its deques, their iterators and its own lists
-- gets the answers that sequences would give, but for a popped element of a union type and for raw
-- pointers.
import OtterFusion.Stdlib.DequeCalls

open base.listHeap

namespace stdlib.deque

variable {T V : Type} {eqT : T → T → Bool} {cloneT : T → T}

/-! ## A program over sequences -/

/-- A program over sequences: its lists, its deques, and what is left of its iterators. -/
structure Spec (T : Type) where
  lists : List (List T)
  deques : List (List T)
  iters : List (List T)

def Spec.start : Spec T := ⟨[], [], []⟩

namespace Spec

/-- A call on a sequence. -/
def onDeque (s : Spec T) (d : Nat) (call : List T → Answer T × List T) :
    Option (Answer T × Spec T) := do
  let self ← s.deques[d]?
  some ((call self).1, { s with deques := s.deques.set d (call self).2 })

/-- A sequence made of another one. -/
def newDeque (s : Spec T) (d : Nat) (call : List T → List T) : Option (Answer T × Spec T) := do
  let self ← s.deques[d]?
  some (.done, { s with deques := s.deques ++ [call self] })

/-- A command of a program over sequences, with the value of `T | null` that a pop answers and the
one that the other calls answer. There is no result when the program does not hold what the command
names. -/
def step (popped answered : Option T → T) (eqT : T → T → Bool) (cloneT : T → T) (s : Spec T) :
    Command T → Option (Answer T × Spec T)
  | .list values => some (.done, { s with lists := s.lists ++ [values] })
  | .writeList l values => do
    let _ ← s.lists[l]?
    some (.done, { s with lists := s.lists.set l values })
  | .readList l => do
    let self ← s.lists[l]?
    some (.values self, s)
  | .new => some (.done, { s with deques := s.deques ++ [[]] })
  | .dequeFromList l => do
    let values ← s.lists[l]?
    some (.done, { s with deques := s.deques ++ [values] })
  | .size d => s.onDeque d fun xs => (.number xs.length, xs)
  | .isEmpty d => s.onDeque d fun xs => (.flag xs.isEmpty, xs)
  | .pushFront d value => s.onDeque d fun xs => (.done, value :: xs)
  | .pushBack d value => s.onDeque d fun xs => (.done, xs ++ [value])
  | .extendFront d l => do
    let values ← s.lists[l]?
    s.onDeque d fun xs => (.done, values ++ xs)
  | .extendBack d l => do
    let values ← s.lists[l]?
    s.onDeque d fun xs => (.done, xs ++ values)
  | .popFront d => s.onDeque d fun xs => (.element (popped xs.head?), xs.tail)
  | .popBack d => s.onDeque d fun xs => (.element (popped xs.getLast?), xs.dropLast)
  | .front d => s.onDeque d fun xs => (.element (answered xs.head?), xs)
  | .back d => s.onDeque d fun xs => (.element (answered xs.getLast?), xs)
  | .get d index => s.onDeque d fun xs => (.element (answered (elementAt xs index)), xs)
  | .set d index value => s.onDeque d fun xs => Prod.map .flag id (setAt xs index value)
  | .removeAt d index => s.onDeque d fun xs => Prod.map (.element ∘ answered) id (takeAt xs index)
  | .toList d => do
    let self ← s.deques[d]?
    some (.done, { s with lists := s.lists ++ [self] })
  | .iter d => do
    let self ← s.deques[d]?
    some (.done, { s with iters := s.iters ++ [self] })
  | .next i => do
    let rest ← s.iters[i]?
    some (.item rest.head?, { s with iters := s.iters.set i rest.tail })
  | .clear d => s.onDeque d fun _ => (.done, [])
  | .reversed d => s.newDeque d List.reverse
  | .reverse d => s.onDeque d fun xs => (.done, xs.reverse)
  | .clone d => s.newDeque d (List.map cloneT)
  | .eq d other => do
    let right ← s.deques[other]?
    s.onDeque d fun xs => (.flag (xs.isEqv right eqT), xs)

end Spec

/-! ## A program -/

/-- An element of a list with one more is an old one or the new one. -/
theorem of_concat {A : Type} {l : List A} {a b : A} {j : Nat} (h : (l ++ [a])[j]? = some b) :
    l[j]? = some b ∨ j = l.length ∧ b = a := by
  rcases Nat.lt_trichotomy j l.length with hlt | rfl | hgt
  · rw [List.getElem?_append_left hlt] at h
    exact .inl h
  · rw [List.getElem?_concat_length] at h
    exact .inr ⟨rfl, (Option.some.inj h).symm⟩
  · rw [List.getElem?_eq_none (by simpa using Nat.succ_le_of_lt hgt)] at h
    cases h

theorem concat_of {A : Type} {l : List A} {a b : A} {j : Nat} (h : l[j]? = some b) :
    (l ++ [a])[j]? = some b := by
  rw [List.getElem?_append_left (List.getElem?_eq_some_iff.mp h).1, h]

/-- What a list is for. -/
inductive Role
  | front (d : Nat)
  | back (d : Nat)
  | snapshot (i : Nat)
  | own (l : Nat)
  | unused
  deriving DecidableEq

/-- A program and the one over sequences, with the use of each list. Since a list has one use, no
two objects share one. -/
structure Refines (use : Nat → Role) (w : World T) (s : Spec T) : Prop where
  lists_length : w.lists.length = s.lists.length
  deques_length : w.deques.length = s.deques.length
  iters_length : w.iters.length = s.iters.length
  own : ∀ i l, w.lists[i]? = some l →
    use l = .own i ∧ l < w.heap.next ∧ s.lists[i]? = some (w.heap.lists l)
  held : ∀ i d, w.deques[i]? = some d →
    use d.front = .front i ∧ use d.back = .back i ∧ d.front < w.heap.next ∧ d.back < w.heap.next ∧
      s.deques[i]? = some (d.sequence w.heap)
  iter : ∀ i it, w.iters[i]? = some it →
    use it.snapshot = .snapshot i ∧ it.snapshot < w.heap.next ∧
      s.iters[i]? = some ((w.heap.lists it.snapshot).drop it.index)

namespace Refines

variable {use : Nat → Role} {w : World T} {s : Spec T} {h' : Heap T} {xs : List T}

theorem start : Refines (fun _ => .unused) (World.start : World T) Spec.start where
  lists_length := rfl
  deques_length := rfl
  iters_length := rfl
  own _ _ hl := by cases hl
  held _ _ hd := by cases hd
  iter _ _ hi := by cases hi

/-- What is held by the one is held by the other. -/
theorem deque_none {i : Nat} (hw : Refines use w s) (hd : w.deques[i]? = none) :
    s.deques[i]? = none := by
  rw [List.getElem?_eq_none_iff] at hd ⊢
  exact hw.deques_length ▸ hd

theorem list_none {i : Nat} (hw : Refines use w s) (hl : w.lists[i]? = none) :
    s.lists[i]? = none := by
  rw [List.getElem?_eq_none_iff] at hl ⊢
  exact hw.lists_length ▸ hl

theorem iter_none {i : Nat} (hw : Refines use w s) (hi : w.iters[i]? = none) :
    s.iters[i]? = none := by
  rw [List.getElem?_eq_none_iff] at hi ⊢
  exact hw.iters_length ▸ hi

theorem apart {i : Nat} {d : Deque} (hw : Refines use w s) (hd : w.deques[i]? = some d) :
    d.front ≠ d.back := by
  obtain ⟨hfront, hback, -⟩ := hw.held i d hd
  intro heq
  rw [heq, hback] at hfront
  cases hfront

/-- A list that is not one of the deque is left alone by a change of the deque. -/
theorem kept {i l : Nat} {d : Deque} (hw : Refines use w s) (hd : w.deques[i]? = some d)
    (hleaves : d.Leaves w.heap h' xs) (hl : l < w.heap.next) (hfront : use l ≠ .front i)
    (hback : use l ≠ .back i) : h'.lists l = w.heap.lists l := by
  obtain ⟨hf, hb, -⟩ := hw.held i d hd
  apply hleaves.frame.keeps l hl
  simp only [List.mem_cons, List.not_mem_nil, or_false, not_or]
  refine ⟨?_, ?_⟩
  · rintro rfl
    exact hfront hf
  · rintro rfl
    exact hback hb

/-- A change of the lists of one deque leaves all other objects as they are. -/
theorem leaves {i : Nat} {d : Deque} (hw : Refines use w s) (hd : w.deques[i]? = some d)
    (hleaves : d.Leaves w.heap h' xs) :
    Refines use { w with heap := h' } { s with deques := s.deques.set i xs } where
  lists_length := hw.lists_length
  deques_length := by rw [List.length_set, hw.deques_length]
  iters_length := hw.iters_length
  own j l hl := by
    obtain ⟨huse, hlt, hlist⟩ := hw.own j l hl
    have hkept := hw.kept hd hleaves hlt (by simp [huse]) (by simp [huse])
    exact ⟨huse, Nat.lt_of_lt_of_le hlt hleaves.frame.grows, hlist.trans (congrArg some hkept.symm)⟩
  held j e he := by
    obtain ⟨hfront, hback, hf, hb, hseq⟩ := hw.held j e he
    refine ⟨hfront, hback, Nat.lt_of_lt_of_le hf hleaves.frame.grows,
      Nat.lt_of_lt_of_le hb hleaves.frame.grows, ?_⟩
    by_cases hij : i = j
    · subst hij
      obtain rfl := Option.some.inj (hd.symm.trans he)
      have hlt : i < s.deques.length := (List.getElem?_eq_some_iff.mp hseq).1
      rw [List.getElem?_set_self hlt, hleaves.sequence]
    · have hkeptFront := hw.kept hd hleaves hf (by simp [hfront, Ne.symm hij]) (by simp [hfront])
      have hkeptBack := hw.kept hd hleaves hb (by simp [hback]) (by simp [hback, Ne.symm hij])
      rw [List.getElem?_set_ne hij, hseq, Deque.sequence_eq, Deque.sequence_eq, hkeptFront,
        hkeptBack]
  iter j it hit := by
    obtain ⟨huse, hlt, hrest⟩ := hw.iter j it hit
    have hkept := hw.kept hd hleaves hlt (by simp [huse]) (by simp [huse])
    refine ⟨huse, Nat.lt_of_lt_of_le hlt hleaves.frame.grows, ?_⟩
    rw [hkept]
    exact hrest

/-- New lists, with any use, leave all objects as they are. -/
theorem grows (use' : Nat → Role) (hw : Refines use w s) (hframe : w.heap.Frame h' [])
    (huse : ∀ l, l < w.heap.next → use' l = use l) :
    Refines use' { w with heap := h' } s where
  lists_length := hw.lists_length
  deques_length := hw.deques_length
  iters_length := hw.iters_length
  own j l hl := by
    obtain ⟨hrole, hlt, hlist⟩ := hw.own j l hl
    have hkept := hframe.keeps l hlt List.not_mem_nil
    exact ⟨(huse l hlt).trans hrole, Nat.lt_of_lt_of_le hlt hframe.grows,
      hlist.trans (congrArg some hkept.symm)⟩
  held j e he := by
    obtain ⟨hfront, hback, hf, hb, hseq⟩ := hw.held j e he
    refine ⟨(huse _ hf).trans hfront, (huse _ hb).trans hback, Nat.lt_of_lt_of_le hf hframe.grows,
      Nat.lt_of_lt_of_le hb hframe.grows, ?_⟩
    rw [hseq, Deque.sequence_eq, Deque.sequence_eq, hframe.keeps _ hf List.not_mem_nil,
      hframe.keeps _ hb List.not_mem_nil]
  iter j it hit := by
    obtain ⟨hrole, hlt, hrest⟩ := hw.iter j it hit
    refine ⟨(huse _ hlt).trans hrole, Nat.lt_of_lt_of_le hlt hframe.grows, ?_⟩
    rw [hframe.keeps _ hlt List.not_mem_nil]
    exact hrest

/-- Another list of the program's own. -/
theorem addList {l : Nat} (hw : Refines use w s) (hnew : Deque.NewList w.heap h' l xs) :
    ∃ use', Refines use' { w with heap := h', lists := w.lists ++ [l] }
      { s with lists := s.lists ++ [xs] } := by
  have hgrown := hw.grows (Function.update use l (.own w.lists.length)) hnew.frame
    fun m hm => Function.update_of_ne (Nat.ne_of_lt (Nat.lt_of_lt_of_le hm hnew.fresh)) ..
  refine ⟨_, { hgrown with lists_length := by simp [hw.lists_length], own := fun j m hm => ?_ }⟩
  rcases of_concat hm with hold | ⟨rfl, rfl⟩
  · obtain ⟨hrole, hlt, hlist⟩ := hgrown.own j m hold
    exact ⟨hrole, hlt, concat_of hlist⟩
  · exact ⟨Function.update_self .., hnew.below,
      by rw [hw.lists_length, List.getElem?_concat_length, hnew.content]⟩

/-- Another iterator. -/
theorem addIter {l : Nat} (hw : Refines use w s) (hnew : Deque.NewList w.heap h' l xs) :
    ∃ use', Refines use' { w with heap := h', iters := w.iters ++ [⟨l, 0⟩] }
      { s with iters := s.iters ++ [xs] } := by
  have hgrown := hw.grows (Function.update use l (.snapshot w.iters.length)) hnew.frame
    fun m hm => Function.update_of_ne (Nat.ne_of_lt (Nat.lt_of_lt_of_le hm hnew.fresh)) ..
  refine ⟨_, { hgrown with iters_length := by simp [hw.iters_length], iter := fun j it hit => ?_ }⟩
  rcases of_concat hit with hold | ⟨rfl, rfl⟩
  · obtain ⟨hrole, hlt, hrest⟩ := hgrown.iter j it hold
    exact ⟨hrole, hlt, concat_of hrest⟩
  · exact ⟨Function.update_self .., hnew.below,
      by rw [hw.iters_length, List.getElem?_concat_length, hnew.content, List.drop_zero]⟩

/-- The uses of the lists when a new deque gets a number. -/
def useFor (use : Nat → Role) (out : Deque) (i : Nat) : Nat → Role :=
  Function.update (Function.update use out.front (.front i)) out.back (.back i)

theorem useFor_old {out : Deque} {i l : Nat} (hmade : out.Made w.heap h' xs)
    (hl : l < w.heap.next) : useFor use out i l = use l := by
  obtain ⟨hfront, hback⟩ := hmade.fresh
  rw [useFor, Function.update_of_ne (by omega), Function.update_of_ne (by omega)]

theorem useFor_new {out : Deque} {i : Nat} (hmade : out.Made w.heap h' xs) :
    useFor use out i out.front = .front i ∧ useFor use out i out.back = .back i :=
  ⟨by rw [useFor, Function.update_of_ne hmade.apart, Function.update_self],
    Function.update_self ..⟩

/-- Another deque. -/
theorem addDeque {out : Deque} (hw : Refines use w s) (hmade : out.Made w.heap h' xs) :
    ∃ use', Refines use' { w with heap := h', deques := w.deques ++ [out] }
      { s with deques := s.deques ++ [xs] } := by
  have hgrown := hw.grows (useFor use out w.deques.length) hmade.frame
    fun m hm => useFor_old hmade hm
  refine ⟨_, { hgrown with deques_length := by simp [hw.deques_length], held := fun j e he => ?_ }⟩
  rcases of_concat he with hold | ⟨rfl, rfl⟩
  · obtain ⟨hfront, hback, hf, hb, hseq⟩ := hgrown.held j e hold
    exact ⟨hfront, hback, hf, hb, concat_of hseq⟩
  · exact ⟨(useFor_new hmade).1, (useFor_new hmade).2, hmade.below.1, hmade.below.2,
      by rw [hw.deques_length, List.getElem?_concat_length, hmade.sequence]⟩

/-- A new deque in the place of one. -/
theorem setDeque {i : Nat} {out : Deque} (hw : Refines use w s) (hmade : out.Made w.heap h' xs) :
    ∃ use', Refines use' { w with heap := h', deques := w.deques.set i out }
      { s with deques := s.deques.set i xs } := by
  have hgrown := hw.grows (useFor use out i) hmade.frame fun m hm => useFor_old hmade hm
  refine ⟨_, { hgrown with deques_length := by simp [hw.deques_length], held := fun j e he => ?_ }⟩
  by_cases hij : i = j
  · subst hij
    have hlt : i < w.deques.length := by simpa using (List.getElem?_eq_some_iff.mp he).1
    rw [List.getElem?_set_self hlt] at he
    obtain rfl := Option.some.inj he
    exact ⟨(useFor_new hmade).1, (useFor_new hmade).2, hmade.below.1, hmade.below.2,
      by rw [List.getElem?_set_self (hw.deques_length ▸ hlt), hmade.sequence]⟩
  · rw [List.getElem?_set_ne hij] at he ⊢
    exact hgrown.held j e he

/-- An iterator that moves on. -/
theorem setIter {i : Nat} {it : DequeIter} (hw : Refines use w s) (hit : w.iters[i]? = some it)
    (n : Nat) : Refines use { w with iters := w.iters.set i { it with index := n } }
      { s with iters := s.iters.set i ((w.heap.lists it.snapshot).drop n) } := by
  refine { hw with iters_length := by simp [hw.iters_length], iter := fun j it' hit' => ?_ }
  by_cases hij : i = j
  · subst hij
    have hlt : i < w.iters.length := (List.getElem?_eq_some_iff.mp hit).1
    rw [List.getElem?_set_self hlt] at hit'
    obtain rfl := Option.some.inj hit'
    obtain ⟨hrole, hbelow, -⟩ := hw.iter i it hit
    exact ⟨hrole, hbelow, List.getElem?_set_self (hw.iters_length ▸ hlt)⟩
  · rw [List.getElem?_set_ne hij] at hit' ⊢
    exact hw.iter j it' hit'

/-- A change of a list of the program's own. -/
theorem setList {i l : Nat} (hw : Refines use w s) (hl : w.lists[i]? = some l) :
    Refines use { w with heap := w.heap.write l xs } { s with lists := s.lists.set i xs } := by
  obtain ⟨hown, -, hlist⟩ := hw.own i l hl
  have hkept : ∀ m, use m ≠ .own i → (w.heap.write l xs).lists m = w.heap.lists m := by
    intro m hm
    apply Heap.write_ne
    rintro rfl
    exact hm hown
  refine { hw with
    lists_length := by simp [hw.lists_length]
    own := fun j m hm => ?_
    held := fun j e he => ?_
    iter := fun j it hit => ?_ }
  · obtain ⟨hrole, hlt, hlist'⟩ := hw.own j m hm
    refine ⟨hrole, hlt, ?_⟩
    by_cases hij : i = j
    · subst hij
      obtain rfl := Option.some.inj (hl.symm.trans hm)
      rw [List.getElem?_set_self (List.getElem?_eq_some_iff.mp hlist).1, Heap.write_self]
    · rw [List.getElem?_set_ne hij, hlist', hkept m (by simp [hrole, Ne.symm hij])]
  · obtain ⟨hfront, hback, hf, hb, hseq⟩ := hw.held j e he
    refine ⟨hfront, hback, hf, hb, ?_⟩
    rw [hseq, Deque.sequence_eq, Deque.sequence_eq, hkept _ (by simp [hfront]),
      hkept _ (by simp [hback])]
  · obtain ⟨hrole, hlt, hrest⟩ := hw.iter j it hit
    refine ⟨hrole, hlt, ?_⟩
    rw [hkept _ (by simp [hrole])]
    exact hrest

end Refines

/-! ## A run -/

/-- One command of the two programs: neither has a result, or they have the same answer and go on
alike. -/
inductive Agree : Option (Answer T × World T) → Option (Answer T × Spec T) → Prop
  | stuck : Agree none none
  | answer {use : Nat → Role} {w : World T} {s : Spec T} (a : Answer T) (hw : Refines use w s) :
      Agree (some (a, w)) (some (a, s))

section

variable {use : Nat → Role} {w : World T} {s : Spec T}

theorem agree_onDeque (hw : Refines use w s) (d : Nat)
    {call : Deque → Heap T → Option (Answer T × Heap T)} {spec : List T → Answer T × List T}
    (hcall : ∀ self : Deque, w.deques[d]? = some self →
      ∃ h', call self w.heap = some ((spec (self.sequence w.heap)).1, h') ∧
        self.Leaves w.heap h' (spec (self.sequence w.heap)).2) :
    Agree (w.onDeque d call) (s.onDeque d spec) := by
  unfold World.onDeque Spec.onDeque
  cases hd : w.deques[d]? with
  | none =>
    rw [hw.deque_none hd]
    exact .stuck
  | some self =>
    obtain ⟨-, -, -, -, hseq⟩ := hw.held d self hd
    obtain ⟨h', heq, hleaves⟩ := hcall self hd
    rw [hseq]
    dsimp only [Option.bind_eq_bind, Option.bind_some]
    rw [heq]
    exact .answer _ (hw.leaves hd hleaves)

theorem agree_newDeque (hw : Refines use w s) (d : Nat)
    {call : Deque → Heap T → Option (Deque × Heap T)} {spec : List T → List T}
    (hcall : ∀ self : Deque, self.front < w.heap.next → self.back < w.heap.next →
      ∃ out h', call self w.heap = some (out, h') ∧
        out.Made w.heap h' (spec (self.sequence w.heap))) :
    Agree (w.newDeque d call) (s.newDeque d spec) := by
  unfold World.newDeque Spec.newDeque
  cases hd : w.deques[d]? with
  | none =>
    rw [hw.deque_none hd]
    exact .stuck
  | some self =>
    obtain ⟨-, -, hfront, hback, hseq⟩ := hw.held d self hd
    obtain ⟨out, h', heq, hmade⟩ := hcall self hfront hback
    obtain ⟨use', hw'⟩ := hw.addDeque hmade
    rw [hseq]
    dsimp only [Option.bind_eq_bind, Option.bind_some]
    rw [heq]
    exact .answer _ hw'

/-- A command that names a list of the program's own. -/
theorem agree_list (hw : Refines use w s) (l : Nat)
    {f : Nat → Option (Answer T × World T)} {g : List T → Option (Answer T × Spec T)}
    (hf : ∀ values, w.lists[l]? = some values → Agree (f values) (g (w.heap.lists values))) :
    Agree (w.lists[l]?.bind f) (s.lists[l]?.bind g) := by
  cases hl : w.lists[l]? with
  | none =>
    rw [hw.list_none hl]
    exact .stuck
  | some values =>
    obtain ⟨-, -, hlist⟩ := hw.own l values hl
    rw [hlist]
    exact hf values hl

/-- A command that names a deque. -/
theorem agree_deque (hw : Refines use w s) (d : Nat)
    {f : Deque → Option (Answer T × World T)} {g : List T → Option (Answer T × Spec T)}
    (hf : ∀ self : Deque, self.front < w.heap.next → self.back < w.heap.next →
      Agree (f self) (g (self.sequence w.heap))) :
    Agree (w.deques[d]?.bind f) (s.deques[d]?.bind g) := by
  cases hd : w.deques[d]? with
  | none =>
    rw [hw.deque_none hd]
    exact .stuck
  | some self =>
    obtain ⟨-, -, hfront, hback, hseq⟩ := hw.held d self hd
    rw [hseq]
    exact hf self hfront hback

/-- A list of the program's own is not one of a deque. -/
theorem own_ne {d l : Nat} {self : Deque} {values : Nat} (hw : Refines use w s)
    (hd : w.deques[d]? = some self) (hl : w.lists[l]? = some values) :
    values ≠ self.front ∧ values ≠ self.back := by
  obtain ⟨hown, -⟩ := hw.own l values hl
  obtain ⟨hfront, hback, -⟩ := hw.held d self hd
  refine ⟨?_, ?_⟩
  · rintro rfl
    rw [hown] at hfront
    cases hfront
  · rintro rfl
    rw [hown] at hback
    cases hback

theorem agree_next (hw : Refines use w s) (i : Nat) :
    Agree (w.iters[i]?.bind fun self => (self.next w.heap).bind fun x =>
        some (.item x.1, { w with iters := w.iters.set i x.2 }))
      (s.iters[i]?.bind fun rest =>
        some (.item rest.head?, { s with iters := s.iters.set i rest.tail })) := by
  cases hit : w.iters[i]? with
  | none =>
    rw [hw.iter_none hit]
    exact .stuck
  | some it =>
    obtain ⟨-, -, hrest⟩ := hw.iter i it hit
    rw [hrest]
    dsimp only [Option.bind_some]
    unfold DequeIter.next
    by_cases hend : w.heap.size it.snapshot ≤ it.index
    · have hsame := hw.setIter hit it.index
      have hnil := List.drop_eq_nil_of_le (Int.ofNat_le.mp hend)
      rw [if_pos hend, hnil]
      rw [hnil] at hsame
      exact .answer _ hsame
    · have hlt : it.index < (w.heap.lists it.snapshot).length :=
        Int.ofNat_lt.mp (Int.not_le.mp hend)
      rw [if_neg hend, Heap.item_nat, List.getElem?_eq_getElem hlt, List.drop_eq_getElem_cons hlt]
      exact .answer _ (hw.setIter hit (it.index + 1))

/-- Lists that are only new leave the sequence as it is. -/
theorem leaves_of_new {self : Deque} {h' : Heap T} (hframe : w.heap.Frame h' [])
    (hfront : self.front < w.heap.next) (hback : self.back < w.heap.next) :
    self.Leaves w.heap h' (self.sequence w.heap) where
  frame := ⟨hframe.grows, fun l hl _ => hframe.keeps l hl List.not_mem_nil⟩
  sequence := by
    rw [Deque.sequence_eq, Deque.sequence_eq, hframe.keeps _ hfront List.not_mem_nil,
      hframe.keeps _ hback List.not_mem_nil]

end

section

variable {use : Nat → Role} {w : World (Word V)} {s : Spec (Word V)}
variable (type : ElementType) (eqT : Word V → Word V → Bool) (cloneT : Word V → Word V)

/-- The code does to its sequences what a program over sequences does that answers as the code does.
-/
theorem agree_step (hw : Refines use w s) (c : Command (Word V)) :
    Agree (w.step type eqT cloneT c) (s.step type.popped type.answered eqT cloneT c) := by
  unfold World.step Spec.step
  cases c with
  | list values =>
    have hnew : Deque.NewList w.heap (w.heap.alloc.2.write w.heap.next values) w.heap.next values :=
      ⟨Heap.frame_new [], Nat.le_refl _, Nat.lt_succ_self _, Heap.write_self⟩
    obtain ⟨use', hw'⟩ := hw.addList hnew
    exact .answer _ hw'
  | writeList l values => exact agree_list hw l fun self hself => .answer _ (hw.setList hself)
  | readList l => exact agree_list hw l fun self _ => .answer _ hw
  | new =>
    obtain ⟨use', hw'⟩ := hw.addDeque Deque.new_made
    exact .answer _ hw'
  | dequeFromList l =>
    refine agree_list hw l fun values hvalues => ?_
    obtain ⟨-, hlt, -⟩ := hw.own l values hvalues
    have hmade := Deque.new_made (h := w.heap)
    obtain ⟨-, hfresh⟩ := hmade.fresh
    have hne : values ≠ (Deque.new w.heap).1.back := by omega
    obtain ⟨h', hcall, hleaves⟩ :=
      Deque.extendBack_leaves (h := (Deque.new w.heap).2) hmade.apart hne
    rw [hmade.sequence, hmade.frame.keeps values hlt List.not_mem_nil, List.nil_append] at hleaves
    obtain ⟨use', hw'⟩ := hw.addDeque (hmade.leaves hleaves)
    dsimp only
    rw [hcall]
    exact .answer _ hw'
  | size d =>
    refine agree_onDeque hw d fun self _ => ⟨_, ?_, Deque.leaves_same⟩
    rw [Deque.length_sequence]
  | isEmpty d =>
    refine agree_onDeque hw d fun self _ => ⟨_, ?_, Deque.leaves_same⟩
    rw [Deque.isEmpty_eq]
  | pushFront d value =>
    refine agree_onDeque hw d fun self hself => ?_
    exact ⟨_, rfl, Deque.pushFront_leaves (hw.apart hself)⟩
  | pushBack d value =>
    refine agree_onDeque hw d fun self hself => ?_
    exact ⟨_, rfl, Deque.pushBack_leaves (hw.apart hself)⟩
  | extendFront d l =>
    refine agree_list hw l fun values hvalues => agree_onDeque hw d fun self hself => ?_
    obtain ⟨h', hcall, hleaves⟩ :=
      Deque.extendFront_leaves (h := w.heap) (hw.apart hself) (own_ne hw hself hvalues).1
    exact ⟨h', congrArg (Option.map _) hcall, hleaves⟩
  | extendBack d l =>
    refine agree_list hw l fun values hvalues => agree_onDeque hw d fun self hself => ?_
    obtain ⟨h', hcall, hleaves⟩ :=
      Deque.extendBack_leaves (h := w.heap) (hw.apart hself) (own_ne hw hself hvalues).2
    exact ⟨h', congrArg (Option.map _) hcall, hleaves⟩
  | popFront d =>
    refine agree_onDeque hw d fun self hself => ?_
    obtain ⟨h', hcall, hleaves⟩ := Deque.popFront_leaves (g := w.heap) type (hw.apart hself)
    exact ⟨h', congrArg (Option.map _) hcall, hleaves⟩
  | popBack d =>
    refine agree_onDeque hw d fun self hself => ?_
    obtain ⟨h', hcall, hleaves⟩ := Deque.popBack_leaves (g := w.heap) type (hw.apart hself)
    exact ⟨h', congrArg (Option.map _) hcall, hleaves⟩
  | front d =>
    refine agree_onDeque hw d fun self _ => ⟨_, ?_, Deque.leaves_same⟩
    exact congrArg (Option.map _) Deque.first_eq
  | back d =>
    refine agree_onDeque hw d fun self _ => ⟨_, ?_, Deque.leaves_same⟩
    exact congrArg (Option.map _) Deque.last_eq
  | get d index =>
    refine agree_onDeque hw d fun self _ => ⟨_, ?_, Deque.leaves_same⟩
    exact congrArg (Option.map _) Deque.get_eq
  | set d index value =>
    refine agree_onDeque hw d fun self hself => ?_
    obtain ⟨h', hcall, hleaves⟩ := Deque.set_leaves (h := w.heap) (hw.apart hself)
    exact ⟨h', congrArg (Option.map _) hcall, hleaves⟩
  | removeAt d index =>
    refine agree_onDeque hw d fun self hself => ?_
    obtain ⟨h', hcall, hleaves⟩ := Deque.removeAt_leaves (g := w.heap) type (hw.apart hself)
    exact ⟨h', congrArg (Option.map _) hcall, hleaves⟩
  | toList d =>
    refine agree_deque hw d fun self hfront hback => ?_
    obtain ⟨h', hcall, hnew⟩ := Deque.toList_new hfront hback
    obtain ⟨use', hw'⟩ := hw.addList hnew
    dsimp only
    rw [hcall]
    exact .answer _ hw'
  | iter d =>
    refine agree_deque hw d fun self hfront hback => ?_
    obtain ⟨h', hcall, hnew⟩ := Deque.iter_new hfront hback
    obtain ⟨use', hw'⟩ := hw.addIter hnew
    dsimp only
    rw [hcall]
    exact .answer _ hw'
  | next i => exact agree_next hw i
  | clear d =>
    refine agree_onDeque hw d fun self hself => ?_
    exact ⟨_, rfl, Deque.clear_leaves (hw.apart hself)⟩
  | reversed d =>
    refine agree_newDeque hw d fun self hfront hback => ?_
    exact Deque.reversed_made hfront hback
  | reverse d =>
    refine agree_deque hw d fun self hfront hback => ?_
    obtain ⟨out, h', hcall, hmade⟩ := Deque.reversed_made hfront hback
    obtain ⟨use', hw'⟩ := hw.setDeque (i := d) hmade
    dsimp only
    rw [hcall]
    exact .answer _ hw'
  | clone d =>
    refine agree_newDeque hw d fun self hfront hback => ?_
    exact Deque.clone_made hfront hback
  | eq d other =>
    refine agree_deque hw other fun right hfront' hback' => agree_onDeque hw d fun self hself => ?_
    obtain ⟨-, -, hfront, hback, -⟩ := hw.held d self hself
    obtain ⟨h', hcall, hframe⟩ := Deque.eq_new eqT hfront hback hfront' hback'
    exact ⟨h', congrArg (Option.map _) hcall, leaves_of_new hframe hfront hback⟩

end

/-- The answers of a run, up to a command without a result. -/
def World.run (type : ElementType) (eqT : Word V → Word V → Bool) (cloneT : Word V → Word V)
    (w : World (Word V)) : List (Command (Word V)) → List (Answer (Word V))
  | [] => []
  | c :: commands =>
    match w.step type eqT cloneT c with
    | some (a, w) => a :: w.run type eqT cloneT commands
    | none => []

def Spec.run (popped answered : Option T → T) (eqT : T → T → Bool) (cloneT : T → T) (s : Spec T) :
    List (Command T) → List (Answer T)
  | [] => []
  | c :: commands =>
    match s.step popped answered eqT cloneT c with
    | some (a, s) => a :: s.run popped answered eqT cloneT commands
    | none => []

/-- Programs that start alike get the same answers. -/
theorem run_eq {use : Nat → Role} {w : World (Word V)} {s : Spec (Word V)} (hw : Refines use w s)
    (type : ElementType) (eqT : Word V → Word V → Bool) (cloneT : Word V → Word V)
    (commands : List (Command (Word V))) :
    w.run type eqT cloneT commands = s.run type.popped type.answered eqT cloneT commands := by
  induction commands generalizing use w s with
  | nil => rfl
  | cons c commands ih =>
    have hstep := agree_step type eqT cloneT hw c
    rw [World.run, Spec.run]
    generalize w.step type eqT cloneT c = x at hstep
    generalize s.step type.popped type.answered eqT cloneT c = y at hstep
    cases hstep with
    | stuck => rfl
    | answer a hw' => exact congrArg (a :: ·) (ih hw')

/-! ## The answers -/

namespace ElementType

theorem box_ne (tag : Int) (v : Word V) : Word.box tag v ≠ v := by
  induction v generalizing tag with
  | plain v => nofun
  | null => nofun
  | box tag' v ih =>
    intro heq
    exact ih tag' (Word.box.inj heq).2

theorem answered_eq_iff (type : ElementType) (o : Option (Word V)) :
    type.answered o = type.widen o ↔ type ≠ .pointer := by
  cases type with
  | single id => cases o <;> exact iff_of_true rfl nofun
  | union => cases o <;> exact iff_of_true rfl nofun
  | pointer =>
    refine iff_of_false ?_ (not_not.mpr rfl)
    cases o with
    | none => nofun
    | some v => exact box_ne _ v

/-- When a pop of an element, if there is one, answers with the value of `T | null` for it. -/
def Pops (type : ElementType) (o : Option (Word V)) : Prop :=
  match type with
  | .single _ => True
  | .union => o = none
  | .pointer => False

theorem popped_eq_iff (type : ElementType) (o : Option (Word V)) :
    type.popped o = type.widen o ↔ type.Pops o := by
  cases type with
  | single id => cases o <;> exact iff_of_true rfl trivial
  | union =>
    cases o with
    | none => exact iff_of_true rfl rfl
    | some v => exact iff_of_false (box_ne _ v) nofun
  | pointer =>
    refine iff_of_false ?_ not_false
    cases o with
    | none => nofun
    | some v => exact box_ne _ v

end ElementType

namespace Spec

/-- The commands that the code answers right: a pop of an element type with a `type_id` of its own,
or of an empty deque of a union, and any other command unless it answers a raw pointer. -/
def Meets (type : ElementType) (s : Spec (Word V)) : Command (Word V) → Prop
  | .popFront d => type.Pops (s.deques.getD d []).head?
  | .popBack d => type.Pops (s.deques.getD d []).getLast?
  | .front _ | .back _ | .get _ _ | .removeAt _ _ => type ≠ .pointer
  | _ => True

/-- All commands of a run are such, up to one without a result. -/
def MeetsAll (type : ElementType) (eqT : Word V → Word V → Bool) (cloneT : Word V → Word V)
    (s : Spec (Word V)) : List (Command (Word V)) → Prop
  | [] => True
  | c :: commands =>
    match s.step type.widen type.widen eqT cloneT c with
    | some (_, s') => s.Meets type c ∧ s'.MeetsAll type eqT cloneT commands
    | none => True

end Spec

/-- One command with two ways to answer: the program goes on alike, and the answers are the same
just when `P` holds. -/
inductive Alike (P : Prop) : Option (Answer T × Spec T) → Option (Answer T × Spec T) → Prop
  | stuck : Alike P none none
  | answer {a b : Answer T} (s : Spec T) (h : a = b ↔ P) : Alike P (some (a, s)) (some (b, s))

theorem Alike.same (x : Option (Answer T × Spec T)) : Alike True x x := by
  cases x with
  | none => exact .stuck
  | some x => exact .answer x.2 (iff_of_true rfl trivial)

theorem alike_onDeque {P : Prop} (s : Spec T) (d : Nat) {call call' : List T → Answer T × List T}
    (hsame : ∀ xs, (call xs).2 = (call' xs).2)
    (hcall : (call (s.deques.getD d [])).1 = (call' (s.deques.getD d [])).1 ↔ P) :
    Alike P (s.onDeque d call) (s.onDeque d call') := by
  unfold Spec.onDeque
  rw [List.getD_eq_getElem?_getD] at hcall
  cases hd : s.deques[d]? with
  | none => exact .stuck
  | some self =>
    rw [hd, Option.getD_some] at hcall
    dsimp only [Option.bind_eq_bind, Option.bind_some]
    rw [hsame]
    exact .answer _ hcall

section

variable (type : ElementType) (eqT : Word V → Word V → Bool) (cloneT : Word V → Word V)

theorem element_eq_iff {v v' : T} : Answer.element v = Answer.element v' ↔ v = v' :=
  ⟨Answer.element.inj, congrArg Answer.element⟩

theorem alike_step (s : Spec (Word V)) (c : Command (Word V)) :
    Alike (s.Meets type c) (s.step type.popped type.answered eqT cloneT c)
      (s.step type.widen type.widen eqT cloneT c) := by
  cases c with
  | popFront d =>
    exact alike_onDeque s d (fun _ => rfl) (element_eq_iff.trans (type.popped_eq_iff _))
  | popBack d =>
    exact alike_onDeque s d (fun _ => rfl) (element_eq_iff.trans (type.popped_eq_iff _))
  | front d =>
    exact alike_onDeque s d (fun _ => rfl) (element_eq_iff.trans (type.answered_eq_iff _))
  | back d =>
    exact alike_onDeque s d (fun _ => rfl) (element_eq_iff.trans (type.answered_eq_iff _))
  | get d index =>
    exact alike_onDeque s d (fun _ => rfl) (element_eq_iff.trans (type.answered_eq_iff _))
  | removeAt d index =>
    exact alike_onDeque s d (fun _ => rfl) (element_eq_iff.trans (type.answered_eq_iff _))
  | _ => exact .same _

theorem run_eq_iff (s : Spec (Word V)) (commands : List (Command (Word V))) :
    s.run type.popped type.answered eqT cloneT commands =
      s.run type.widen type.widen eqT cloneT commands ↔ s.MeetsAll type eqT cloneT commands := by
  induction commands generalizing s with
  | nil => exact iff_of_true rfl trivial
  | cons c commands ih =>
    have hstep := alike_step type eqT cloneT s c
    rw [Spec.run, Spec.run, Spec.MeetsAll]
    generalize s.step type.popped type.answered eqT cloneT c = x at hstep
    generalize s.step type.widen type.widen eqT cloneT c = y at hstep
    cases hstep with
    | stuck => exact iff_of_true rfl trivial
    | answer s' hanswer => exact List.cons_eq_cons.trans (and_congr hanswer (ih s'))

end

-- an element that migrates, and an iterator that does not see it go
example : (World.start : World (Word Nat)).run (.single 4) (· == ·) id
    [.new, .pushBack 0 (.plain 1), .iter 0, .pushFront 0 (.plain 2), .popFront 0, .popFront 0,
      .next 0] =
    [.done, .done, .done, .done, .element (.box 4 (.plain 2)), .element (.box 4 (.plain 1)),
      .item (some (.plain 1))] := by
  decide

end stdlib.deque
