-- The `for` loops of the code generator (`gen_hir.rs`): those over a list, the characters of a
-- string and a map, with the slots that a body with an `await` gives them (`support.rs`), and the
-- loop that calls `next` of an iterator (`collections.otter`). The body of a function is its
-- control flow; what runs between is any function of the world.
import OtterFusion.Base.Turns
import OtterFusion.Compiler.Ast

open base.turns
open compiler.ast (Span)

namespace backend.forLoops

/-- A slot of 64 bits. -/
abbrev Word := Int

/-! ## The world -/

/-- What a program reaches: lists and maps by their handles, strings, and the rest. -/
structure World (R : Type) where
  lists : Word → List Word
  /-- The keys of a map in the order of its slots. -/
  mapKeys : Word → List Word
  chars : Word → List Char
  /-- The handle of the next list. -/
  fresh : Word
  rest : R

/-- Why a process exits. -/
inductive Panic
  | listIndex | mapKey | program
  deriving DecidableEq

/-- How code ends: `more` after too few turns, `lost` where it reads a value of an earlier poll. -/
inductive Signal
  | next | brk | cont | ret
  | exit (panic : Panic)
  | more | lost
  deriving DecidableEq

variable {R : Type}

namespace World

/-- `lang_list_size`. -/
def listSize (w : World R) (h : Word) : Word := (w.lists h).length

/-- `lang_list_get`. -/
def listGet (w : World R) (h i : Word) : Except Signal Word :=
  if i < 0 ∨ w.listSize h ≤ i then .error (.exit .listIndex) else .ok ((w.lists h).getD i.toNat 0)

/-- A list that is made. -/
def newList (w : World R) (l : List Word) : World R × Word :=
  ({ w with lists := Function.update w.lists w.fresh l, fresh := w.fresh + 1 }, w.fresh)

/-- `lang_str_to_chars`. -/
def strToChars (w : World R) (s : Word) : World R × Word :=
  w.newList ((w.chars s).map fun c => (c.toNat : Word))

/-- `lang_map_entries`, for the keys. -/
def mapEntries (w : World R) (h : Word) : World R × Word := w.newList (w.mapKeys h)

end World

/-- `lang_map_index`: there is no value when the key is absent. The hash and the equality of the
keys may be code of the program. -/
abbrev MapIndex (R : Type) := World R → Word → Word → Option (World R × Word)

/-- What a pattern is bound to. -/
inductive Value
  | elem (raw : Word)
  | entry (key value : Word)
  deriving DecidableEq

/-- What is seen of the loops: a value is bound, or a loop has no more of them. -/
inductive Event
  | bound (iterSpan : Span) (v : Value)
  | ended (iterSpan : Span)
  deriving DecidableEq

/-- What code tells, what it leaves, and how it ends. -/
abbrev Outcome (S : Type) := List Event × S × Signal

/-! ## Code -/

/-- `ForDriver`, with the `next` of an iterator of the program. Loops of `for await` keep their own
state: they are `loop` with `await`. -/
inductive ForDriver (R : Type)
  | listFast | strChars | map
  | iter (next : World R → Word → Option (World R × Option Value))

/-- The control flow of a body. `while`, `match`, `&&` and `||` are spelled with `branch` and
`loop`; an `await` leaves the words that it saved in the state, unless it is ready at once. -/
inductive Code (R : Type)
  | act (f : World R → Option (World R))
  | await (f : World R → Option (World R × Option (Nat → Word)))
  | seq (a b : Code R)
  | branch (cond : World R → Bool) (a b : Code R)
  | loop (body : Code R)
  | brk | cont | ret
  | forIn (iterSpan : Span) (iter : World R → Option (World R × Word)) (driver : ForDriver R)
    (bind : Value → World R → Option (World R)) (body : Code R)

namespace Code

/-- `h_block_has_await`. -/
def hasAwait : Code R → Bool
  | await _ => true
  | seq a b | branch _ a b => a.hasAwait || b.hasAwait
  | loop body | forIn _ _ _ _ body => body.hasAwait
  | _ => false

/-- `h_scan_for_state`. -/
def scanForState : Code R → List Span
  | seq a b | branch _ a b => a.scanForState ++ b.scanForState
  | loop body => body.scanForState
  | forIn sp _ _ _ body => if body.hasAwait then sp :: body.scanForState else body.scanForState
  | _ => []

/-- The spans of the iterables of all `for` loops. -/
def iterSpans : Code R → List Span
  | seq a b | branch _ a b => a.iterSpans ++ b.iterSpans
  | loop body => body.iterSpans
  | forIn sp _ _ _ body => sp :: body.iterSpans
  | _ => []

/-- The iterable of a loop stands before its body: its span is that of no iterable in there. -/
def Placed : Code R → Prop
  | seq a b | branch _ a b => a.Placed ∧ b.Placed
  | loop body => body.Placed
  | forIn sp _ _ _ body => sp ∉ body.iterSpans ∧ body.Placed
  | _ => True

end Code

/-! ## The state of an async function -/

/-- The offsets of a loop in the state. -/
structure Slots where
  primary : Nat
  secondary : Nat
  index : Nat

/-- `AsyncLayout`: the offsets of the loops, and the size of the state. -/
structure AsyncLayout where
  forSlots : Span → Option Slots
  stateSize : Nat

/-- The slots of a span, unless it has some. -/
def AsyncLayout.reserve (l : AsyncLayout) (sp : Span) : AsyncLayout :=
  if (l.forSlots sp).isSome then l
  else
    { forSlots := Function.update l.forSlots sp
        (some ⟨l.stateSize, l.stateSize + 8, l.stateSize + 16⟩)
      stateSize := l.stateSize + 24 }

/-- The end of the slots of the locals, where those of the loops begin. -/
def loopsStart (locals : Nat) : Nat := 16 + locals * 8

/-- `async_state_layout`. -/
def asyncStateLayout (locals : Nat) (code : Code R) : AsyncLayout :=
  code.scanForState.foldl AsyncLayout.reserve ⟨fun _ => none, loopsStart locals⟩

/-- The state of a `poll` function: the world, the words of the state struct by their offsets, and
the number of times that it was suspended. -/
structure Machine (R : Type) where
  world : World R
  frame : Nat → Word
  poll : Nat

/-- A value that is not in the state: it is there until the poll returns. -/
structure Ssa where
  poll : Nat
  word : Word

namespace Machine

def read (m : Machine R) (v : Ssa) : Except Signal Word :=
  if v.poll = m.poll then .ok v.word else .error .lost

def value (m : Machine R) (word : Word) : Ssa := ⟨m.poll, word⟩

def store (m : Machine R) (offset : Nat) (word : Word) : Machine R :=
  { m with frame := Function.update m.frame offset word }

/-- `load_for_iterable`. -/
def loadForIterable (m : Machine R) (slots : Option Slots) (fallback : Ssa) : Except Signal Word :=
  match slots with
  | some s => .ok (m.frame s.primary)
  | none => m.read fallback

/-- `load_for_secondary`. -/
def loadForSecondary (m : Machine R) (slots : Option Slots) (fallback : Ssa) : Except Signal Word :=
  match slots with
  | some s => .ok (m.frame s.secondary)
  | none => m.read fallback

/-- `load_for_index`. -/
def loadForIndex (m : Machine R) (slots : Option Slots) (iv : Ssa) : Except Signal Word :=
  match slots with
  | some s => .ok (m.frame s.index)
  | none => m.read iv

/-- `store_for_index`. -/
def storeForIndex (m : Machine R) (slots : Option Slots) (iv : Ssa) (v : Word) : Machine R × Ssa :=
  match slots with
  | some s => (m.store s.index v, iv)
  | none => (m, m.value v)

end Machine

/-! ## Turns -/

/-- What the outcome of a body is to its loop: `next` and `continue` go on to `latch`. -/
def turnOf {S X : Type} (o : Outcome S) (latch : S → Turn Event X (S × Signal)) :
    Turn Event X (S × Signal) :=
  match o.2.2 with
  | .next | .cont => (latch o.2.1).telling o.1
  | .brk => .leave o.1 (o.2.1, .next)
  | signal => .leave o.1 (o.2.1, signal)

/-- The code after. -/
def Outcome.andThen {S : Type} (o : Outcome S) (k : S → Outcome S) : Outcome S :=
  match o.2.2 with
  | .next => (o.1 ++ (k o.2.1).1, (k o.2.1).2)
  | _ => o

section compiled

variable (index : MapIndex R) (sp : Span) (slots : Option Slots)
  (bind : Value → World R → Option (World R)) (body : Machine R → Outcome (Machine R))

/-- The item at an index of a list, or of the keys of a map. -/
abbrev Item (R : Type) := Machine R → Word → Word → Except Signal (World R × Value)

/-- What a loop finds: the next value, or none. -/
abbrev Found (R : Type) := Except Signal (World R × Option Value)

/-- `header` and the start of `body_bb`: nothing at the end of the list, else the item. -/
def header (list : Ssa) (item : Item R) (m : Machine R) (iv : Ssa) :
    Except Signal (World R × Option Value) := do
  let i ← m.loadForIndex slots iv
  let l ← m.loadForIterable slots list
  if i < m.world.listSize l then
    let i ← m.loadForIndex slots iv
    let l ← m.loadForIterable slots list
    let (w, v) ← item m l i
    return (w, some v)
  else return (m.world, none)

/-- `body_bb`: the value is bound, and the body runs. -/
def bodyOf {X : Type} (m : Machine R) (found : Found R)
    (latch : Machine R → Turn Event X (Machine R × Signal)) : Turn Event X (Machine R × Signal) :=
  match found with
  | .error signal => .leave [] (m, signal)
  | .ok (w, none) => .leave [.ended sp] ({ m with world := w }, .next)
  | .ok (w, some v) =>
    match bind v w with
    | none => .leave [.bound sp v] ({ m with world := w }, .exit .program)
    | some w => (turnOf (body { m with world := w }) latch).telling [.bound sp v]

/-- `latch`. -/
def latch (iv : Ssa) (m : Machine R) : Turn Event (Machine R × Ssa) (Machine R × Signal) :=
  match m.loadForIndex slots iv with
  | .error signal => .leave [] (m, signal)
  | .ok i => .again [] (m.storeForIndex slots iv (i + 1))

/-- A loop over the indices of a list, from its header on. -/
def indexLoop (n : Nat) (list : Ssa) (item : Item R) (m : Machine R) (iv : Ssa) :
    Outcome (Machine R) :=
  takeTurns (fun s => bodyOf sp bind body s.1 (header slots list item s.1 s.2) (latch slots s.2))
    (fun s => (s.1, .more)) n (m, iv)

/-- The item of `h_for_list` and of `h_for_str_chars`. -/
def listItem : Item R := fun m list i => do return (m.world, .elem (← m.world.listGet list i))

/-- The item of `h_for_map`. -/
def mapItem (map : Ssa) : Item R := fun m keys i => do
  let map ← m.loadForSecondary slots map
  let key ← m.world.listGet keys i
  match index m.world map key with
  | none => .error (.exit .mapKey)
  | some (w, value) => .ok (w, .entry key value)

/-- The list in its slot, and the index 0. -/
def startIndex (m : Machine R) (list : Word) : Machine R :=
  match slots with
  | some s => (m.store s.primary list).store s.index 0
  | none => m

/-- The keys and the map in their slots, and the index 0. -/
def startMap (m : Machine R) (keys map : Word) : Machine R :=
  match slots with
  | some s => ((m.store s.primary keys).store s.secondary map).store s.index 0
  | none => m

/-- `h_for_list`. -/
def hForList (n : Nat) (m : Machine R) (list : Word) : Outcome (Machine R) :=
  indexLoop sp slots bind body n (m.value list) listItem (startIndex slots m list) (m.value 0)

/-- `h_for_str_chars`. -/
def hForStrChars (n : Nat) (m : Machine R) (s : Word) : Outcome (Machine R) :=
  let (w, list) := m.world.strToChars s
  let m := { m with world := w }
  indexLoop sp slots bind body n (m.value list) listItem (startIndex slots m list) (m.value 0)

/-- `h_for_map`. -/
def hForMap (n : Nat) (m : Machine R) (map : Word) : Outcome (Machine R) :=
  let (w, keys) := m.world.mapEntries map
  let m := { m with world := w }
  indexLoop sp slots bind body n (m.value keys) (mapItem index slots (m.value map))
    (startMap slots m keys map) (m.value 0)

/-- The call of `next` in `h_for_iterator`. -/
def callNext (next : World R → Word → Option (World R × Option Value)) (object : Ssa)
    (m : Machine R) :
    Except Signal (World R × Option Value) := do
  let object ← m.loadForIterable slots object
  match next m.world object with
  | none => .error (.exit .program)
  | some found => return found

/-- The iterator in its slot. -/
def startObject (m : Machine R) (object : Word) : Machine R :=
  match slots with
  | some s => m.store s.primary object
  | none => m

/-- `h_for_iterator`. -/
def hForIterator (next : World R → Word → Option (World R × Option Value)) (n : Nat) (m : Machine R)
    (object : Word) : Outcome (Machine R) :=
  takeTurns (fun s => bodyOf sp bind body s (callNext slots next (m.value object) s) (.again []))
    (fun s => (s, .more)) n (startObject slots m object)

/-- `h_for`. -/
def hFor (driver : ForDriver R) (n : Nat) (m : Machine R) (iterable : Word) : Outcome (Machine R) :=
  match driver with
  | .listFast => hForList sp slots bind body n m iterable
  | .strChars => hForStrChars sp slots bind body n m iterable
  | .map => hForMap index sp slots bind body n m iterable
  | .iter next => hForIterator sp slots bind body next n m iterable

end compiled

/-- The code as it is compiled, with the slots of the loops and the offset where they begin. -/
def Code.exec (index : MapIndex R) (slotsOf : Span → Option Slots) (start n : Nat) :
    Code R → Machine R → Outcome (Machine R)
  | act f, m =>
    match f m.world with
    | none => ([], m, .exit .program)
    | some w => ([], { m with world := w }, .next)
  | await f, m =>
    match f m.world with
    | none => ([], m, .exit .program)
    | some (w, none) => ([], { m with world := w }, .next)
    | some (w, some saved) =>
      let frame := fun offset => if offset < start then saved offset else m.frame offset
      ([], { world := w, frame := frame, poll := m.poll + 1 }, .next)
  | seq a b, m => Outcome.andThen (a.exec index slotsOf start n m) (b.exec index slotsOf start n)
  | branch cond a b, m =>
    if cond m.world then a.exec index slotsOf start n m else b.exec index slotsOf start n m
  | loop body, m =>
    takeTurns (fun m => turnOf (body.exec index slotsOf start n m) (.again [])) (fun m =>
      (m, .more)) n m
  | brk, m => ([], m, .brk)
  | cont, m => ([], m, .cont)
  | ret, m => ([], m, .ret)
  | forIn sp iter driver bind body, m =>
    match iter m.world with
    | none => ([], m, .exit .program)
    | some (w, iterable) =>
      hFor index sp (slotsOf sp) bind (body.exec index slotsOf start n)
        driver n { m with world := w }
        iterable

/-! ## The protocol -/

/-- The iterators: `ListIter`, `StrChars`, `MapEntries`, and those of the program. -/
inductive Iter (R : Type)
  | listIter (list index : Word)
  | strChars (snapshot index : Word)
  | mapEntries (map keys index : Word)
  | object (next : World R → Word → Option (World R × Option Value)) (self : Word)

/-- `iter` of a list, `chars` of a string, `entries` of a map; an iterator is its own. -/
def ForDriver.iterOf (w : World R) (iterable : Word) : ForDriver R → World R × Iter R
  | listFast => (w, .listIter iterable 0)
  | strChars => ((w.strToChars iterable).1, .strChars (w.strToChars iterable).2 0)
  | map => ((w.mapEntries iterable).1, .mapEntries iterable (w.mapEntries iterable).2 0)
  | iter next => (w, .object next iterable)

/-- `next` of `ListIter` and of `StrChars`: the iterator with its index, and `Done` or an item. -/
def nextOf (w : World R) (list index : Word) (it : Word → Iter R) :
    Except Signal (World R × Iter R × Option Value) :=
  if w.listSize list ≤ index then .ok (w, it index, none)
  else do
    let v ← w.listGet list index
    return (w, it (index + 1), some (.elem v))

/-- `next`. -/
def Iter.next (index : MapIndex R) (w : World R) :
    Iter R → Except Signal (World R × Iter R × Option Value)
  | listIter list i => nextOf w list i (.listIter list)
  | strChars snapshot i => nextOf w snapshot i (.strChars snapshot)
  | mapEntries map keys i =>
    if w.listSize keys ≤ i then .ok (w, mapEntries map keys i, none)
    else do
      let k ← w.listGet keys i
      match index w map k with
      | none => .error (.exit .mapKey)
      | some (w, v) => return (w, mapEntries map keys (i + 1), some (.entry k v))
  | object next self =>
    match next w self with
    | none => .error (.exit .program)
    | some (w, item) => .ok (w, object next self, item)

/-- A turn of a loop that calls `next`. -/
def protocolTurn (index : MapIndex R) (sp : Span) (bind : Value → World R → Option (World R))
    (body : World R → Outcome (World R)) (s : World R × Iter R) :
    Turn Event (World R × Iter R) (World R × Signal) :=
  match s.2.next index s.1 with
  | .error signal => .leave [] (s.1, signal)
  | .ok (w, _, none) => .leave [.ended sp] (w, .next)
  | .ok (w, it, some v) =>
    match bind v w with
    | none => .leave [.bound sp v] (w, .exit .program)
    | some w => (turnOf (body w) fun w => .again [] (w, it)).telling [.bound sp v]

/-- The code with every `for` by the protocol. -/
def Code.run (index : MapIndex R) (n : Nat) : Code R → World R → Outcome (World R)
  | act f, w =>
    match f w with
    | none => ([], w, .exit .program)
    | some w => ([], w, .next)
  | await f, w =>
    match f w with
    | none => ([], w, .exit .program)
    | some (w, _) => ([], w, .next)
  | seq a b, w => Outcome.andThen (a.run index n w) (b.run index n)
  | branch cond a b, w => if cond w then a.run index n w else b.run index n w
  | loop body, w =>
    takeTurns (fun w => turnOf (body.run index n w) (.again [])) (fun w => (w, .more)) n w
  | brk, w => ([], w, .brk)
  | cont, w => ([], w, .cont)
  | ret, w => ([], w, .ret)
  | forIn sp iter driver bind body, w =>
    match iter w with
    | none => ([], w, .exit .program)
    | some (w, iterable) =>
      takeTurns (protocolTurn index sp bind (body.run index n)) (fun s => (s.1, .more)) n
        (driver.iterOf w iterable)

/-! ## Functions -/

/-- The body of a function: an `await` is in an async one. -/
structure Body (R : Type) where
  code : Code R
  isAsync : Bool
  /-- The number of its locals. -/
  locals : Nat
  async_of_await : code.hasAwait → isAsync
  placed : code.Placed

/-- `for_async_slots`. -/
def Body.forAsyncSlots (b : Body R) (sp : Span) : Option Slots :=
  if b.isAsync then (asyncStateLayout b.locals b.code).forSlots sp else none

/-- The body as it is compiled. -/
def Body.exec (b : Body R) (index : MapIndex R) (n : Nat) (m : Machine R) : Outcome (Machine R) :=
  b.code.exec index b.forAsyncSlots (loopsStart b.locals) n m

/-- The body with every `for` by the protocol. -/
def Body.run (b : Body R) (index : MapIndex R) (n : Nat) (w : World R) : Outcome (World R) :=
  b.code.run index n w

end backend.forLoops
