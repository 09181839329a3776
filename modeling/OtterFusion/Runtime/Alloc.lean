-- The allocator of the managed heap (`gc_alloc.rs`): the size classes, the global slabs and free
-- lists, and the cache of each thread. Each operation under the global lock is one step, and so
-- is each one on the cache of a thread; the threads take them in any order.
import Mathlib.Algebra.Order.Ring.Nat
import Mathlib.Data.Nat.Log

namespace runtime.alloc

/-! ## Sizes -/

/-- `SLAB`. -/
def slabSize : Nat := 1024 * 1024

/-- `ALIGN`. -/
def align : Nat := 16

def largeMax : Nat := 2 ^ 20

def tlabChunk : Nat := 256 * 1024

def refillBatch : Nat := 64

def numClasses : Nat := 32 + 11

/-- `isize::MAX`, the largest size of a Rust allocation. -/
def isizeMax : Nat := 2 ^ 63 - 1

/-- An addition of two `usize`: none is the panic of a build with overflow checks, and without
them the sum wraps. -/
def addUsize (checks : Bool) (a b : Nat) : Option Nat :=
  if a + b < 2 ^ 64 then some (a + b) else if checks then none else some ((a + b) % 2 ^ 64)

/-- A subtraction of two `usize`. -/
def subUsize (checks : Bool) (a b : Nat) : Option Nat :=
  if b ≤ a then some (a - b) else if checks then none else some ((a + 2 ^ 64 - b) % 2 ^ 64)

/-- `x & !15`. -/
def alignDown (x : Nat) : Nat := x / 16 * 16

/-- `size_class`. -/
def sizeClass (checks : Bool) (total : Nat) : Option Nat :=
  let total := max total align
  if total ≤ 512 then (addUsize checks total 15).map alignDown
  else if total ≤ largeMax then some (2 ^ Nat.clog 2 total)
  else do
    let sum ← addUsize checks total align
    let sum ← subUsize checks sum 1
    some (alignDown sum)

/-- `trailing_zeros` of a word of so many bits. -/
def trailingZeros : Nat → Nat → Nat
  | 0, _ => 0
  | width + 1, n => if n % 2 = 1 then 0 else trailingZeros width (n / 2) + 1

/-- `class_index`; the outer none is the panic of an overflow. -/
def classIndex (checks : Bool) (cls : Nat) : Option (Option Nat) :=
  if cls ≤ 512 then (subUsize checks (cls / 16) 1).map some
  else if cls ≤ largeMax then some (some (32 + (trailingZeros 64 cls - 10)))
  else some none

/-- `class_size_of_index`. -/
def classSizeOfIndex (idx : Nat) : Nat :=
  if idx < 32 then (idx + 1) * 16 else 2 ^ (idx - 32 + 10)

/-! ## The state -/

/-- `GlobalAlloc`. The last block of a free list is the next to go. -/
structure GlobalAlloc where
  free : Nat → List Nat
  largeFree : Nat → List Nat
  slabs : List (Nat × Nat)
  cursor : Nat
  limit : Nat

/-- `LocalCache`. -/
structure LocalCache where
  cursor : Nat
  limit : Nat
  free : Nat → List Nat

def LocalCache.new : LocalCache := { cursor := 0, limit := 0, free := fun _ => [] }

/-- Where a thread is: in `alloc` before its cache, before `refill` or before `alloc_large`,
zeroing a recycled block, about to return a block, or in `free` before the lock. -/
inductive Point
  | idle
  | small (total cls idx : Nat)
  | refill (total cls idx : Nat)
  | large (total cls : Nat)
  | zero (total cls base : Nat)
  | ret (total cls base : Nat)
  | free (total base : Nat)
  deriving DecidableEq, Repr

/-- The allocator with the threads that use it. `live` are the blocks that `alloc` returned and
`free` did not get yet, each with its `total`. -/
structure Heap where
  glob : GlobalAlloc
  caches : Nat → LocalCache
  points : Nat → Point
  live : List (Nat × Nat)
  mem : Nat → UInt8

/-! ## The operations -/

/-- What the system allocator promises for a slab: it is aligned, it overlaps no slab that was
not given back, and none is, and it lies in the lower half of the addresses. -/
def SystemGives (slabs : List (Nat × Nat)) (base size : Nat) : Prop :=
  0 < base ∧ 16 ∣ base ∧ base + size < 2 ^ 63 ∧
    ∀ slab ∈ slabs, base + size ≤ slab.1 ∨ slab.1 + slab.2 ≤ base

instance (slabs : List (Nat × Nat)) (base size : Nat) : Decidable (SystemGives slabs base size) :=
  inferInstanceAs (Decidable (_ ∧ _ ∧ _ ∧ _))

/-- `zero`, and what `alloc_zeroed` does to its region. -/
def zeroed (mem : Nat → UInt8) (base n : Nat) : Nat → UInt8 :=
  fun a => if base ≤ a ∧ a < base + n then 0 else mem a

/-- `GlobalAlloc::new_slab`, when the system gives the region at `sys`. A slab too large for a
layout panics. -/
def GlobalAlloc.newSlab (g : GlobalAlloc) (mem : Nat → UInt8) (sys size : Nat) :
    Option (GlobalAlloc × (Nat → UInt8)) :=
  let slab := (max slabSize size + 15) / 16 * 16
  if slab ≤ isizeMax - 15 ∧ SystemGives g.slabs sys slab then
    some ({ g with slabs := g.slabs ++ [(sys, slab)], cursor := sys, limit := sys + slab },
      zeroed mem sys slab)
  else none

/-- The first lines of `bump`: a new slab, when the region cannot fit the block. -/
def GlobalAlloc.fit (checks : Bool) (g : GlobalAlloc) (mem : Nat → UInt8) (sys size : Nat) :
    Option (GlobalAlloc × (Nat → UInt8)) := do
  let top ← addUsize checks g.cursor size
  if g.limit < top then g.newSlab mem sys size else some (g, mem)

/-- `GlobalAlloc::bump`. -/
def GlobalAlloc.bump (checks : Bool) (g : GlobalAlloc) (mem : Nat → UInt8) (sys size : Nat) :
    Option (GlobalAlloc × (Nat → UInt8) × Nat) := do
  let (g, mem) ← g.fit checks mem sys size
  let next ← addUsize checks g.cursor size
  some ({ g with cursor := next }, mem, g.cursor)

/-- `Vec::pop`. -/
def popBlock (blocks : List Nat) : Option (Nat × List Nat) :=
  blocks.getLast?.map fun base => (base, blocks.dropLast)

/-- `refill`: a batch of recycled blocks, or else a fresh chunk. -/
def refill (checks : Bool) (g : GlobalAlloc) (c : LocalCache) (mem : Nat → UInt8)
    (sys cls idx : Nat) : Option (GlobalAlloc × LocalCache × (Nat → UInt8)) :=
  if g.free idx ≠ [] then
    let start := (g.free idx).length - min (g.free idx).length refillBatch
    some ({ g with free := Function.update g.free idx ((g.free idx).take start) },
      { c with free := Function.update c.free idx (c.free idx ++ (g.free idx).drop start) }, mem)
  else do
    let (g, mem, base) ← g.bump checks mem sys (max tlabChunk cls)
    let limit ← addUsize checks base (max tlabChunk cls)
    some (g, { c with cursor := base, limit }, mem)

/-- `<LocalCache as Drop>::drop`: the blocks of the cache go to the global lists. -/
def GlobalAlloc.flush (g : GlobalAlloc) (c : LocalCache) : GlobalAlloc :=
  { g with free := fun idx => g.free idx ++ c.free idx }

/-! ## The runs -/

/-- What can happen: a thread calls `alloc`, takes its next step, calls `free` on a live block,
or exits; or the program writes to a live block. `sys` is the slab that the system gives, if
the step needs one. -/
inductive Action
  | allocate (thread total : Nat)
  | turn (thread sys : Nat)
  | free (thread base total : Nat)
  | exit (thread : Nat)
  | write (addr : Nat) (byte : UInt8)
  deriving DecidableEq

def Heap.goto (s : Heap) (thread : Nat) (p : Point) : Heap :=
  { s with points := Function.update s.points thread p }

def Heap.setCache (s : Heap) (thread : Nat) (c : LocalCache) : Heap :=
  { s with caches := Function.update s.caches thread c }

/-- The first lines of `alloc`; an index that is out of range panics. -/
def startAlloc (checks : Bool) (total : Nat) : Option Point := do
  let cls ← sizeClass checks total
  match ← classIndex checks cls with
  | some idx => if idx < numClasses then some (.small total cls idx) else none
  | none => some (.large total cls)

/-- One turn of the loop of `alloc`, without the refill. -/
def allocSmall (checks : Bool) (s : Heap) (thread total cls idx : Nat) : Option Heap :=
  let c := s.caches thread
  match popBlock (c.free idx) with
  | some (base, rest) =>
    some ((s.setCache thread { c with free := Function.update c.free idx rest }).goto thread
      (.zero total cls base))
  | none => do
    let top ← addUsize checks c.cursor cls
    if top ≤ c.limit then
      some ((s.setCache thread { c with cursor := top }).goto thread (.ret total cls c.cursor))
    else some (s.goto thread (.refill total cls idx))

/-- `alloc_large`, up to the zeroing. -/
def allocLarge (checks : Bool) (s : Heap) (thread sys total cls : Nat) : Option Heap :=
  match popBlock (s.glob.largeFree cls) with
  | some (base, rest) =>
    some ({ s with glob := { s.glob with
      largeFree := Function.update s.glob.largeFree cls rest } }.goto thread (.zero total cls base))
  | none => do
    let (glob, mem, base) ← s.glob.bump checks s.mem sys cls
    some ({ s with glob, mem }.goto thread (.ret total cls base))

/-- The locked part of `free`. -/
def freeLocked (checks : Bool) (g : GlobalAlloc) (base total : Nat) : Option GlobalAlloc := do
  let cls ← sizeClass checks total
  match ← classIndex checks cls with
  | some idx =>
    if idx < numClasses then
      some { g with free := Function.update g.free idx (g.free idx ++ [base]) }
    else none
  | none =>
    some { g with largeFree := Function.update g.largeFree cls (g.largeFree cls ++ [base]) }

def turn (checks : Bool) (s : Heap) (thread sys : Nat) : Point → Option Heap
  | .idle => none
  | .small total cls idx => allocSmall checks s thread total cls idx
  | .refill total cls idx => do
    let (glob, c, mem) ← refill checks s.glob (s.caches thread) s.mem sys cls idx
    some (({ s with glob, mem }.setCache thread c).goto thread (.small total cls idx))
  | .large total cls => allocLarge checks s thread sys total cls
  | .zero total cls base =>
    some ({ s with mem := zeroed s.mem base cls }.goto thread (.ret total cls base))
  | .ret total _ base => some ({ s with live := s.live ++ [(base, total)] }.goto thread .idle)
  | .free total base => do
    let glob ← freeLocked checks s.glob base total
    some ({ s with glob }.goto thread .idle)

/-- The address is in a live block. -/
def Heap.writable (s : Heap) (addr : Nat) : Bool :=
  s.live.any fun block => block.1 ≤ addr && addr < block.1 + block.2

def step (checks : Bool) (s : Heap) : Action → Option Heap
  | .allocate thread total =>
    if s.points thread = .idle ∧ total < 2 ^ 64 then
      (startAlloc checks total).map fun p => s.goto thread p
    else none
  | .turn thread sys => turn checks s thread sys (s.points thread)
  | .free thread base total =>
    if s.points thread = .idle ∧ (base, total) ∈ s.live then
      some ({ s with live := s.live.erase (base, total) }.goto thread (.free total base))
    else none
  | .exit thread =>
    if s.points thread = .idle then
      some ({ s with glob := s.glob.flush (s.caches thread) }.setCache thread .new)
    else none
  | .write addr byte =>
    if s.writable addr then some { s with mem := Function.update s.mem addr byte } else none

/-- The allocator before its first use. -/
structure Initial (s : Heap) : Prop where
  glob : s.glob =
    { free := fun _ => [], largeFree := fun _ => [], slabs := [], cursor := 0, limit := 0 }
  caches : ∀ th, s.caches th = .new
  points : ∀ th, s.points th = .idle
  live : s.live = []

/-- An unused allocator, in a memory of any contents. -/
def newHeap (mem : Nat → UInt8) : Heap :=
  { glob := { free := fun _ => [], largeFree := fun _ => [], slabs := [], cursor := 0, limit := 0 }
    caches := fun _ => .new, points := fun _ => .idle, live := [], mem }

theorem newHeap_initial (mem : Nat → UInt8) : Initial (newHeap mem) :=
  ⟨rfl, fun _ => rfl, fun _ => rfl, rfl⟩

end runtime.alloc
