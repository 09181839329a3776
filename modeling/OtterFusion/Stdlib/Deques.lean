-- `Deque<T>` (`std/collections.otter`) as the code has it: two lists in the heap, and each call
-- with its loops. What a program can do with its deques, their iterators and its own lists is a
-- list of commands.
import OtterFusion.Base.ListHeap
import OtterFusion.Stdlib.Collections

open base.listHeap

namespace stdlib.deque

variable {T V : Type}

/-! ## Values -/

/-- A value as the backend has it: a word, none for `null`, or a box with a tag (`box_value`). -/
inductive Word (V : Type)
  | plain (v : V)
  | null
  | box (tag : Int) (payload : Word V)
  deriving DecidableEq

/-- What boxing tells apart of an element type: a type with a `type_id` of its own; a union or
`dynamic`, whose values are boxes already; a raw pointer, which makes `T | null` a pointer again. -/
inductive ElementType
  | single (id : Int)
  | union
  | pointer
  deriving DecidableEq

namespace ElementType

/-- `type_id`. -/
def typeId : ElementType → Int
  | .single id => id
  | .union | .pointer => -1

/-- `box_value` of an element. -/
def boxValue (type : ElementType) (v : Word V) : Word V := .box type.typeId v

/-- `box_value` of `null`. -/
def nullBox : Word V := .box 16 .null

/-- What `List.pop` makes of an element: it is boxed, whatever its type is. -/
def popped (type : ElementType) : Option (Word V) → Word V
  | some v => type.boxValue v
  | none => nullBox

/-- `value as T` under `value is T`, where `T` is a parameter: the tag is compared with the
`type_id` of the argument, and what is in the box is taken out. -/
def unbox (type : ElementType) : Word V → Option (Word V)
  | .box tag v => if tag = type.typeId then some v else none
  | _ => none

/-- `coerce_branch_to_result`: a branch of the type `T` in an `if` of the type `T | null`, where `T`
is a parameter. -/
def branch (type : ElementType) (v : Word V) : Word V :=
  match type with
  | .union => v
  | _ => type.boxValue v

/-- A value of `T | null` where the types are known, as a program that uses the deque reads it
(`apply_widen`, and `npo_union` for a raw pointer). -/
def widen (type : ElementType) : Option (Word V) → Word V
  | some v =>
    match type with
    | .single _ => type.boxValue v
    | .union | .pointer => v
  | none => if type = .pointer then .null else nullBox

end ElementType

/-- A deque: the numbers of its two lists. -/
structure Deque where
  front : Nat
  back : Nat

/-- `DequeIter`, and `ListIter`: the number of its list, and its index. -/
structure DequeIter where
  snapshot : Nat
  index : Nat

/-! ## The calls -/

/-- `Deque.new`, `deque`. -/
def Deque.new (h : Heap T) : Deque × Heap T :=
  let (front, h) := h.alloc
  let (back, h) := h.alloc
  (⟨front, back⟩, h)

namespace Deque

variable (d : Deque) (h : Heap T) (type : ElementType) (g : Heap (Word V))

def size : Int := h.size d.front + h.size d.back

def isEmpty : Bool := d.size h = 0

def pushFront (value : T) : Heap T := h.push d.front value

def pushBack (value : T) : Heap T := h.push d.back value

/-- `extend_front`. -/
def extendFront (values : Nat) : Option (Heap T) :=
  h.forEachDown (fun value h => d.pushFront h value) values (h.lists values).length

/-- `extend_back`, and the loop of `deque_from_list`. -/
def extendBack (values : Nat) : Option (Heap T) :=
  h.forEach (fun value h => d.pushBack h value) values ((h.lists values).length + 1) 0

/-- `refill_front`. -/
def refillFront : Option (Heap (Word V)) :=
  g.moveAll (type.unbox ∘ type.popped) d.back d.front ((g.lists d.back).length + 1)

/-- `refill_back`. -/
def refillBack : Option (Heap (Word V)) :=
  g.moveAll (type.unbox ∘ type.popped) d.front d.back ((g.lists d.front).length + 1)

def popFront : Option (Word V × Heap (Word V)) := do
  let g ← if g.size d.front = 0 then d.refillFront type g else some g
  some (type.popped (g.pop d.front).1, (g.pop d.front).2)

def popBack : Option (Word V × Heap (Word V)) := do
  let g ← if g.size d.back = 0 then d.refillBack type g else some g
  some (type.popped (g.pop d.back).1, (g.pop d.back).2)

/-- `Deque.front`. -/
def first : Option (Word V) :=
  if g.size d.front ≠ 0 then (g.item d.front (g.size d.front - 1)).map type.branch
  else if g.size d.back ≠ 0 then (g.item d.back 0).map type.branch
  else some ElementType.nullBox

/-- `Deque.back`. -/
def last : Option (Word V) :=
  if g.size d.back ≠ 0 then (g.item d.back (g.size d.back - 1)).map type.branch
  else if g.size d.front ≠ 0 then (g.item d.front 0).map type.branch
  else some ElementType.nullBox

def get (index : Int) : Option (Word V) :=
  if index < 0 ∨ d.size g ≤ index then some ElementType.nullBox
  else if index < g.size d.front then
    (g.item d.front (g.size d.front - 1 - index)).map type.branch
  else (g.item d.back (index - g.size d.front)).map type.branch

def set (index : Int) (value : T) : Option (Bool × Heap T) :=
  if index < 0 ∨ d.size h ≤ index then some (false, h)
  else if index < h.size d.front then
    (h.put d.front (h.size d.front - 1 - index) value).map fun h => (true, h)
  else (h.put d.back (index - h.size d.front) value).map fun h => (true, h)

def removeAt (index : Int) : Option (Word V × Heap (Word V)) :=
  if index < 0 ∨ d.size g ≤ index then some (ElementType.nullBox, g)
  else if index < g.size d.front then do
    let storageIndex := g.size d.front - 1 - index
    let value ← g.item d.front storageIndex
    some (type.branch value, (g.remove d.front storageIndex).2)
  else do
    let storageIndex := index - g.size d.front
    let value ← g.item d.back storageIndex
    some (type.branch value, (g.remove d.back storageIndex).2)

/-- `to_list`: the number of the new list. -/
def toList : Option (Nat × Heap T) := do
  let (out, h) := h.alloc
  let h ← h.forEachDown (fun value h => h.push out value) d.front (h.lists d.front).length
  let h ← h.forEach (fun value h => h.push out value) d.back ((h.lists d.back).length + 1) 0
  some (out, h)

def iter : Option (DequeIter × Heap T) := do
  let (snapshot, h) ← d.toList h
  some (⟨snapshot, 0⟩, h)

def clear : Heap T := (h.clear d.front).clear d.back

def reversed : Option (Deque × Heap T) := do
  let (out, h) := Deque.new h
  let (it, h) ← d.iter h
  let h ← h.forEach (fun value h => out.pushFront h value) it.snapshot
    ((h.lists it.snapshot).length + 1) it.index
  some (out, h)

/-- `Deque.clone`. -/
def clone (cloneT : T → T) : Option (Deque × Heap T) := do
  let (out, h) := Deque.new h
  let (it, h) ← d.iter h
  let h ← h.forEach (fun value h => out.pushBack h (cloneT value)) it.snapshot
    ((h.lists it.snapshot).length + 1) it.index
  some (out, h)

/-- `Deque.eq`. -/
def eq (eqT : T → T → Bool) (other : Deque) : Option (Bool × Heap T) :=
  if d.size h ≠ other.size h then some (false, h)
  else do
    let (left, h) ← d.toList h
    let (right, h) ← other.toList h
    some (collections.sameFrom eqT (h.lists left) (h.lists right), h)

end Deque

/-- `DequeIter.next`: an element, when one is left, and the iterator after it. -/
def DequeIter.next (it : DequeIter) (h : Heap T) : Option (Option T × DequeIter) :=
  if h.size it.snapshot ≤ it.index then some (none, it)
  else do
    let value ← h.item it.snapshot it.index
    some (some value, { it with index := it.index + 1 })

/-! ## Programs -/

/-- What a program does next. It names its deques, its iterators and its own lists by the order in
which it got them. -/
inductive Command (T : Type)
  /-- A list of the program's own, and any change of one. -/
  | list (values : List T)
  | writeList (l : Nat) (values : List T)
  | readList (l : Nat)
  | new
  | dequeFromList (l : Nat)
  | size (d : Nat)
  | isEmpty (d : Nat)
  | pushFront (d : Nat) (value : T)
  | pushBack (d : Nat) (value : T)
  | extendFront (d l : Nat)
  | extendBack (d l : Nat)
  | popFront (d : Nat)
  | popBack (d : Nat)
  | front (d : Nat)
  | back (d : Nat)
  | get (d : Nat) (index : Int)
  | set (d : Nat) (index : Int) (value : T)
  | removeAt (d : Nat) (index : Int)
  | toList (d : Nat)
  | iter (d : Nat)
  | next (i : Nat)
  | clear (d : Nat)
  | reversed (d : Nat)
  | reverse (d : Nat)
  | clone (d : Nat)
  | eq (d other : Nat)

/-- What a command answers: `element` is a value of `T | null`, `item` one of `Item<T> | Done`. -/
inductive Answer (T : Type)
  | done
  | element (value : T)
  | item (value : Option T)
  | flag (b : Bool)
  | number (n : Int)
  | values (values : List T)
  deriving DecidableEq

/-- What a program holds. -/
structure World (T : Type) where
  heap : Heap T
  lists : List Nat
  deques : List Deque
  iters : List DequeIter

def World.start : World T := ⟨.empty, [], [], []⟩

namespace World

/-- A call on a deque that changes the heap only. -/
def onDeque (w : World T) (d : Nat) (call : Deque → Heap T → Option (Answer T × Heap T)) :
    Option (Answer T × World T) := do
  let self ← w.deques[d]?
  let (answer, heap) ← call self w.heap
  some (answer, { w with heap })

/-- A call on a deque that makes another deque. -/
def newDeque (w : World T) (d : Nat) (call : Deque → Heap T → Option (Deque × Heap T)) :
    Option (Answer T × World T) := do
  let self ← w.deques[d]?
  let (out, heap) ← call self w.heap
  some (.done, { w with heap, deques := w.deques ++ [out] })

/-- A command of a program. There is no result when the program does not hold what it names, at an
index outside a list, and in a loop without an end. -/
def step (type : ElementType) (eqT : Word V → Word V → Bool) (cloneT : Word V → Word V)
    (w : World (Word V)) : Command (Word V) → Option (Answer (Word V) × World (Word V))
  | .list values =>
    let (out, heap) := w.heap.alloc
    some (.done, { w with heap := heap.write out values, lists := w.lists ++ [out] })
  | .writeList l values => do
    let self ← w.lists[l]?
    some (.done, { w with heap := w.heap.write self values })
  | .readList l => do
    let self ← w.lists[l]?
    some (.values (w.heap.lists self), w)
  | .new =>
    let (out, heap) := Deque.new w.heap
    some (.done, { w with heap, deques := w.deques ++ [out] })
  | .dequeFromList l => do
    let values ← w.lists[l]?
    let (out, heap) := Deque.new w.heap
    let heap ← out.extendBack heap values
    some (.done, { w with heap, deques := w.deques ++ [out] })
  | .size d => w.onDeque d fun self h => some (.number (self.size h), h)
  | .isEmpty d => w.onDeque d fun self h => some (.flag (self.isEmpty h), h)
  | .pushFront d value => w.onDeque d fun self h => some (.done, self.pushFront h value)
  | .pushBack d value => w.onDeque d fun self h => some (.done, self.pushBack h value)
  | .extendFront d l => do
    let values ← w.lists[l]?
    w.onDeque d fun self h => (self.extendFront h values).map fun h => (.done, h)
  | .extendBack d l => do
    let values ← w.lists[l]?
    w.onDeque d fun self h => (self.extendBack h values).map fun h => (.done, h)
  | .popFront d => w.onDeque d fun self h => (self.popFront type h).map (Prod.map .element id)
  | .popBack d => w.onDeque d fun self h => (self.popBack type h).map (Prod.map .element id)
  | .front d => w.onDeque d fun self h => (self.first type h).map fun value => (.element value, h)
  | .back d => w.onDeque d fun self h => (self.last type h).map fun value => (.element value, h)
  | .get d index =>
    w.onDeque d fun self h => (self.get type h index).map fun value => (.element value, h)
  | .set d index value =>
    w.onDeque d fun self h => (self.set h index value).map (Prod.map .flag id)
  | .removeAt d index =>
    w.onDeque d fun self h => (self.removeAt type h index).map (Prod.map .element id)
  | .toList d => do
    let self ← w.deques[d]?
    let (out, heap) ← self.toList w.heap
    some (.done, { w with heap, lists := w.lists ++ [out] })
  | .iter d => do
    let self ← w.deques[d]?
    let (it, heap) ← self.iter w.heap
    some (.done, { w with heap, iters := w.iters ++ [it] })
  | .next i => do
    let self ← w.iters[i]?
    let (value, it) ← self.next w.heap
    some (.item value, { w with iters := w.iters.set i it })
  | .clear d => w.onDeque d fun self h => some (.done, self.clear h)
  | .reversed d => w.newDeque d Deque.reversed
  | .reverse d => do
    let self ← w.deques[d]?
    let (out, heap) ← self.reversed w.heap
    some (.done, { w with heap, deques := w.deques.set d out })
  | .clone d => w.newDeque d fun self h => self.clone h cloneT
  | .eq d other => do
    let right ← w.deques[other]?
    w.onDeque d fun self h => (self.eq h eqT right).map (Prod.map .flag id)

end World

end stdlib.deque
