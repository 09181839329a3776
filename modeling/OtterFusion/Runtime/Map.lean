-- The runtime `Map<K, V>` (`map.rs`): an open-addressing hash table with linear probing and
-- tombstones. A handle is a number of the heap of maps; the flags for the collector are left out.
import OtterFusion.Base.Probing

namespace runtime.map

open base.keyed base.probing

/-! ## The built-in hashes -/

/-- `hash_u64`: the finalizer of splitmix64. -/
def hashU64 (v : UInt64) : UInt64 :=
  let z := v + 0x9e3779b97f4a7c15
  let z := (z ^^^ (z >>> 30)) * 0xbf58476d1ce4e5b9
  let z := (z ^^^ (z >>> 27)) * 0x94d049bb133111eb
  z ^^^ (z >>> 31)

/-- `hash_str_bytes`: FNV-1a. -/
def hashStrBytes (bytes : List UInt8) : UInt64 :=
  bytes.foldl (fun h b => (h ^^^ b.toUInt64) * 0x100000001b3) 0xcbf29ce484222325

/-- Keys that are compared by value, with any hash. -/
def keysByValue {K : Type} [DecidableEq K] (hash : K → UInt64) : Keys K where
  eq k l := decide (k = l)
  hash := hash
  refl _ := decide_eq_true rfl
  symm h := decide_eq_true (of_decide_eq_true h).symm
  trans h h' := decide_eq_true ((of_decide_eq_true h).trans (of_decide_eq_true h'))
  hash_eq h := congrArg hash (of_decide_eq_true h)

/-- The built-in strategy for integers. -/
def intKeys : Keys UInt64 := keysByValue hashU64

/-- The built-in strategy for strings, by their bytes. -/
def strKeys : Keys (List UInt8) := keysByValue hashStrBytes

/-! ## One map -/

/-- A handle with its buffer of slots. -/
structure Map (K V : Type) where
  len : Nat
  slots : List (Slot K V)

variable {K V : Type} (keys : Keys K)

/-- The number of slots, a power of two, or 0 before the first insertion. -/
def Map.cap (m : Map K V) : Nat := m.slots.length

/-- The loop of `map_probe`: the turns left, the index, and the first tombstone seen. -/
def probeLoop (m : Map K V) (key : K) : Nat → Nat → Option Nat → Nat × Bool
  | 0, _, firstTomb => (firstTomb.getD 0, false)
  | n + 1, i, firstTomb =>
    match m.slots.getD i .empty with
    | .empty => (firstTomb.getD i, false)
    | .tombstone => probeLoop m key n ((i + 1) &&& (m.cap - 1)) (firstTomb.or (some i))
    | .full k _ =>
      if keys.eq k key then (i, true)
      else probeLoop m key n ((i + 1) &&& (m.cap - 1)) firstTomb

/-- `map_probe`. -/
def mapProbe (m : Map K V) (key : K) : Nat × Bool :=
  probeLoop keys m key m.cap ((keys.hash key).toNat &&& (m.cap - 1)) none

/-- The slot that a probe for the key gives gets the pair. -/
def Map.write (m : Map K V) (key : K) (val : V) : Map K V :=
  { m with slots := m.slots.set (mapProbe keys m key).1 (.full key val) }

/-- The map with a new, empty buffer. -/
def Map.fresh (m : Map K V) (newCap : Nat) : Map K V :=
  { m with slots := List.replicate newCap .empty }

/-- `map_resize`. -/
def mapResize (m : Map K V) (newCap : Nat) : Map K V :=
  m.slots.foldl (fun new s =>
    match s with
    | .full k v => new.write keys k v
    | _ => new) (m.fresh newCap)

/-- `lang_map_new`. -/
def langMapNew : Map K V := ⟨0, []⟩

/-- The growth at the start of `lang_map_set`. -/
def grow (m : Map K V) : Map K V :=
  if m.cap = 0 ∨ (m.len + 1) * 4 > m.cap * 3 then
    mapResize keys m (if m.cap = 0 then 8 else m.cap * 2)
  else m

/-- `lang_map_set`. -/
def langMapSet (m : Map K V) (key : K) (val : V) : Map K V :=
  let m := grow keys m
  let new := m.write keys key val
  if (mapProbe keys m key).2 then new else { new with len := m.len + 1 }

/-- The value in the slot of a key. -/
def find (m : Map K V) (key : K) : Option V :=
  if m.cap = 0 then none
  else if (mapProbe keys m key).2 then
    match m.slots.getD (mapProbe keys m key).1 .empty with
    | .full _ v => some v
    | _ => none
  else none

/-- `lang_map_get`: 0 when the key is absent. -/
def langMapGet [Inhabited V] (m : Map K V) (key : K) : V := (find keys m key).getD default

/-- `lang_map_index`: the process exits when the key is absent. -/
def langMapIndex (m : Map K V) (key : K) : Option V := find keys m key

/-- `lang_map_contains`. -/
def langMapContains (m : Map K V) (key : K) : Bool :=
  if m.cap = 0 then false else (mapProbe keys m key).2

/-- `lang_map_remove`. -/
def langMapRemove (m : Map K V) (key : K) : Map K V :=
  if m.cap = 0 then m
  else if (mapProbe keys m key).2 then
    { len := m.len - 1, slots := m.slots.set (mapProbe keys m key).1 .tombstone }
  else m

/-- `lang_map_clear`: the buffer stays. -/
def langMapClear (m : Map K V) : Map K V := ⟨0, List.replicate m.cap .empty⟩

/-- `lang_map_extend`. The slots of the source are those at the start: what is written to the
destination leaves them as they are, also when both are one map. -/
def langMapExtend (dst src : Map K V) : Map K V :=
  src.slots.foldl (fun dst s =>
    match s with
    | .full k v => langMapSet keys dst k v
    | _ => dst) dst

/-! ## The heap of maps -/

/-- The calls of a program; a map is named by its handle. -/
inductive Op (K V : Type)
  | new
  | set (h : Nat) (key : K) (val : V)
  | get (h : Nat) (key : K)
  | index (h : Nat) (key : K)
  | contains (h : Nat) (key : K)
  | remove (h : Nat) (key : K)
  | size (h : Nat)
  | clear (h : Nat)
  | clone (h : Nat)
  | entries (h : Nat) (wantKeys : Bool)
  | extend (dst src : Nat)

/-- What a call returns. -/
inductive Answer (K V : Type)
  | done
  | handle (h : Nat)
  | value (v : V)
  | bool (b : Bool)
  | size (n : Nat)
  | keys (l : List K)
  | values (l : List V)
  | exit

/-- The maps that were made, the last one at the end. -/
abbrev Heap (K V : Type) := List (Map K V)

/-- One call. It needs valid handles. -/
def exec [Inhabited V] (heap : Heap K V) : Op K V → Option (Heap K V × Answer K V)
  | .new => some (heap ++ [langMapNew], .handle heap.length)
  | .set h key val => heap[h]?.map fun m => (heap.set h (langMapSet keys m key val), .done)
  | .get h key => heap[h]?.map fun m => (heap, .value (langMapGet keys m key))
  | .index h key => heap[h]?.map fun m =>
    (heap, match langMapIndex keys m key with
      | some v => .value v
      | none => .exit)
  | .contains h key => heap[h]?.map fun m => (heap, .bool (langMapContains keys m key))
  | .remove h key => heap[h]?.map fun m => (heap.set h (langMapRemove keys m key), .done)
  | .size h => heap[h]?.map fun m => (heap, .size m.len)
  | .clear h => heap[h]?.map fun m => (heap.set h (langMapClear m), .done)
  | .clone h => heap[h]?.map fun m => (heap ++ [m], .handle heap.length)
  | .entries h wantKeys => heap[h]?.map fun m =>
    (heap, if wantKeys then .keys ((pairsOf m.slots).map Prod.fst)
      else .values ((pairsOf m.slots).map Prod.snd))
  | .extend dst src => heap[dst]?.bind fun d => heap[src]?.map fun s =>
    (heap.set dst (langMapExtend keys d s), .done)

/-- A sequence of calls, with what they return. -/
def execAll [Inhabited V] (heap : Heap K V) : List (Op K V) → Option (Heap K V × List (Answer K V))
  | [] => some (heap, [])
  | op :: ops =>
    (exec keys heap op).bind fun r => (execAll r.1 ops).map fun s => (s.1, r.2 :: s.2)

/-! ## What the calls are meant to do -/

/-- A call on finite maps. -/
def Specifies [Inhabited V] (maps : List (Contents K V)) (op : Op K V) (answer : Answer K V)
    (maps' : List (Contents K V)) : Prop :=
  match op with
  | .new => answer = .handle maps.length ∧ maps' = maps ++ [Contents.empty]
  | .set h key val => ∃ m, maps[h]? = some m ∧ answer = .done ∧
    maps' = maps.set h (m.put keys key val)
  | .get h key => ∃ m, maps[h]? = some m ∧ answer = .value ((m key).getD default) ∧ maps' = maps
  | .index h key => ∃ m, maps[h]? = some m ∧ maps' = maps ∧
    answer = (match m key with
      | some v => .value v
      | none => .exit)
  | .contains h key => ∃ m, maps[h]? = some m ∧ answer = .bool (m key).isSome ∧ maps' = maps
  | .remove h key => ∃ m, maps[h]? = some m ∧ answer = .done ∧
    maps' = maps.set h (m.erase keys key)
  | .size h => ∃ m, maps[h]? = some m ∧ answer = .size (m.live keys).ncard ∧ maps' = maps
  | .clear h => ∃ m, maps[h]? = some m ∧ answer = .done ∧ maps' = maps.set h Contents.empty
  | .clone h => ∃ m, maps[h]? = some m ∧ answer = .handle maps.length ∧ maps' = maps ++ [m]
  | .entries h wantKeys => ∃ m l vs, maps[h]? = some m ∧ m.Lists keys l ∧
    l.map m = vs.map some ∧ (answer = if wantKeys then .keys l else .values vs) ∧ maps' = maps
  | .extend dst src => ∃ d s, maps[dst]? = some d ∧ maps[src]? = some s ∧ answer = .done ∧
    maps' = maps.set dst (d.extend s)

/-- A sequence of calls on finite maps. -/
def SpecifiesAll [Inhabited V] (maps : List (Contents K V)) :
    List (Op K V) → List (Answer K V) → List (Contents K V) → Prop
  | [], [], maps' => maps' = maps
  | op :: ops, answer :: answers, maps' =>
    ∃ next, Specifies keys maps op answer next ∧ SpecifiesAll next ops answers maps'
  | _, _, _ => False

end runtime.map
