-- The collection (`gc.rs`, `collect` and `mark_reachable`): mark from the roots, mark what the
-- unreachable objects with a `Drop` need, then sweep. A collection stops the world, so it is
-- one step.
import Mathlib.Algebra.Order.Ring.Nat
import OtterFusion.Base.Marking
import OtterFusion.Runtime.Heap

namespace runtime.gc

/-! ## The model -/

/-- An entry of the finalizer queue: an object with its total size and its type id. -/
structure Item where
  base : Nat
  total : Nat
  typeId : Nat
  deriving DecidableEq

/-- What a collection works on: the memory, the global registry (base and total size), the
allocation logs of the threads, the finalizer queue, the keys of the extra roots, and the type
ids that have a `Drop`. A hash map is the list of its entries in the order it gives them. -/
structure Heap where
  memory : Memory
  objects : List (Nat × Nat)
  allocLogs : List (List (Nat × Nat))
  pending : List Item
  extraRoots : List Nat
  dropFns : List Nat

/-- `HashMap::insert` on the registry. -/
def insertObject (objects : List (Nat × Nat)) (e : Nat × Nat) : List (Nat × Nat) :=
  if e.1 ∈ objects.map Prod.fst then objects.map fun o => if o.1 = e.1 then e else o
  else objects ++ [e]

/-- `drain_alloc_logs_into`. -/
def drainAllocLogs (objects : List (Nat × Nat)) (logs : List (List (Nat × Nat))) :
    List (Nat × Nat) :=
  logs.flatten.foldl insertObject objects

/-- The loop of `mark_reachable`, with fuel. The head of the list is the top of the stack. -/
def markLoop (m : Memory) (bases : List Nat) : Nat → (Nat → Nat) → List Nat → Option (Nat → Nat)
  | _, mark, [] => some mark
  | 0, _, _ :: _ => none
  | n + 1, mark, fb :: work =>
    if mark (fb - HEADER) ≠ 0 then markLoop m bases n mark work
    else
      markLoop m bases n (Function.update mark (fb - HEADER) 1)
        ((children m bases fb).reverse ++ work)

/-- The turns that the loop can take: each entry of the stack, and each child of an object. -/
def markFuel (m : Memory) (bases work : List Nat) : Nat :=
  work.length + (bases.map fun b => (children m bases (b + HEADER)).length).sum

/-- `mark_reachable`: the last entry of `work` is on top. -/
def markReachable (m : Memory) (bases : List Nat) (mark : Nat → Nat) (work : List Nat) :
    Option (Nat → Nat) :=
  markLoop m bases (markFuel m bases work) mark work.reverse

/-- The unmarked objects whose type has a registered `Drop`. -/
def newlyUnreachable (m : Memory) (mark : Nat → Nat) (dropFns : List Nat)
    (objects : List (Nat × Nat)) : List Item :=
  if dropFns.isEmpty then [] else
    objects.filterMap fun e =>
      let tid := (m.desc e.1).typeId
      if mark e.1 = 0 ∧ tid ≠ 0 ∧ tid ∈ dropFns then some ⟨e.1, e.2, tid⟩ else none

/-- The second marking: what the newly unreachable objects need stays for one more cycle. -/
def resurrect (m : Memory) (bases : List Nat) (mark : Nat → Nat) (newly : List Item) :
    Option (Nat → Nat) :=
  if newly.isEmpty then some mark
  else markReachable m bases mark (newly.map fun i => i.base + HEADER)

/-- What the sweep sorts the objects into. -/
structure Swept where
  mark : Nat → Nat
  survivors : List (Nat × Nat)
  newPending : List Item
  toFree : List (Nat × Nat)

/-- One turn of the sweep. -/
def sweepOne (newly : List Item) (s : Swept) (e : Nat × Nat) : Swept :=
  match newly.find? (fun i => i.base == e.1) with
  | some i =>
    { s with
      mark := Function.update s.mark e.1 0
      newPending := s.newPending ++ [⟨e.1, e.2, i.typeId⟩] }
  | none =>
    if s.mark e.1 ≠ 0 then
      { s with
        mark := Function.update s.mark e.1 0
        survivors := insertObject s.survivors e }
    else { s with toFree := s.toFree ++ [e] }

/-- The classifying loop of the sweep. -/
def sweep (newly : List Item) (mark : Nat → Nat) (objects : List (Nat × Nat)) : Swept :=
  objects.foldl (sweepOne newly) ⟨mark, [], [], []⟩

/-- `rc_dec_no_free`: one less in the count word of a child, where there is one. -/
def rcDecNoFree (word : Nat → Nat) (child : Nat) : Nat → Nat :=
  if 0 < word child then Function.update word child (word child - 1) else word

/-- The release of one owned field of an object that is freed: a child that is not freed with
it loses a reference. -/
def releaseField (dying : List Nat) (word : Nat → Nat) (field : Nat) : Nat → Nat :=
  let child := word field
  if HEADER ≤ child ∧ child - HEADER ∉ dying then rcDecNoFree word child else word

/-- The addresses of the owned fields of the objects, in the order the sweep takes them. -/
def ownedFields (m : Memory) (toFree : List (Nat × Nat)) : List Nat :=
  toFree.flatMap fun e => (m.desc e.1).rcOffsets.map fun off => e.1 + HEADER + off

/-- `endpoint_releases_for_object`: the kind (1 sender, 2 receiver) and channel of each endpoint
field that is set. The fields of the object and the channel of a handle are read by functions. -/
def endpointReleasesForObject (d : Desc) (field channelOf : Nat → Nat) : List (Nat × Nat) :=
  d.endpointOffsets.filterMap fun (off, isSender) =>
    let endpoint := field off
    if endpoint = 0 then none
    else
      let id := channelOf endpoint
      if id ≠ 0 then some (if isSender then 1 else 2, id) else none

/-- `endpoint_releases_for_list`: one release for each element of a list of endpoints. -/
def endpointReleasesForList (m : Memory) (fb : Nat) : List (Nat × Nat) :=
  let kind := m.word (fb + 32)
  let len := m.word fb
  let buf := m.word (fb + 16)
  if (kind ≠ 1 ∧ kind ≠ 2) ∨ buf = 0 ∨ len = 0 then []
  else (List.range len).filterMap fun i =>
    let raw := m.word (buf + i * 8)
    if raw = 0 then none else some (kind, m.word raw)

/-- The endpoint releases of the freed objects. -/
def endpointReleases (m : Memory) (toFree : List (Nat × Nat)) : List (Nat × Nat) :=
  toFree.flatMap fun e =>
    endpointReleasesForObject (m.desc e.1) (fun off => m.word (e.1 + HEADER + off)) m.word ++
      if (m.desc e.1).kind = .list then endpointReleasesForList m (e.1 + HEADER) else []

/-- What a collection leaves: the heap, the blocks it gave to `gc_alloc::free`, the endpoint
references it released, and the number of bytes it returns. -/
structure Collected where
  heap : Heap
  toFree : List (Nat × Nat)
  releases : List (Nat × Nat)
  freed : Nat

/-- The bases of the objects that a collection knows. -/
def Heap.bases (h : Heap) : List Nat :=
  (drainAllocLogs h.objects h.allocLogs).map Prod.fst ++ h.pending.map Item.base

/-- Where the first marking starts, in the order of the worklist. -/
def Heap.work (h : Heap) (roots : List Nat) : List Nat :=
  roots.filter (isObj h.bases) ++ h.extraRoots.filter (isObj h.bases) ++
    h.pending.map fun i => i.base + HEADER

/-- The end of a collection, when the objects are sorted: the counts and the endpoints that the
freed objects own are released, and the blocks are given back. -/
def reclaim (h : Heap) (swept : Swept) : Collected :=
  let dying := swept.toFree.map Prod.fst
  let word := (ownedFields h.memory swept.toFree).foldl (releaseField dying) h.memory.word
  let memory := { h.memory with mark := swept.mark, word := word }
  { heap := { h with
      memory := memory
      objects := swept.survivors
      allocLogs := h.allocLogs.map fun _ => []
      pending := h.pending ++ swept.newPending }
    toFree := swept.toFree
    releases := endpointReleases memory swept.toFree
    freed := (swept.toFree.map Prod.snd).sum }

/-- `collect`. -/
def collect (h : Heap) (roots : List Nat) : Option Collected := do
  let objects := drainAllocLogs h.objects h.allocLogs
  let mark₁ ← markReachable h.memory h.bases h.memory.mark (h.work roots)
  let newly := newlyUnreachable h.memory mark₁ h.dropFns objects
  let mark₂ ← resurrect h.memory h.bases mark₁ newly
  some (reclaim h (sweep newly mark₂ objects))

end runtime.gc
