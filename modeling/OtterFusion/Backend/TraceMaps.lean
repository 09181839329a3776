-- The field block of a managed struct: the offsets in its trace map are those of its managed
-- fields, with the header of a `@RefCounted` object too.
import OtterFusion.Backend.CLayoutsExact

open compiler.sema base.clayout base.trapping

namespace backend

namespace LayoutDefs

/-- The loop adds the members of the fields; the managed ones are traced. -/
def traced (defs : LayoutDefs) (s : Scan) (ts : List Ty) : Scan where
  offset := extentFrom s.offset (ts.map defs.scalarSizeAlign)
  offsets := s.offsets ++ offsetsFrom s.offset (ts.map defs.scalarSizeAlign)
  maxAlign := greatest s.maxAlign ((ts.map defs.scalarSizeAlign).map SizeAlign.align)
  unionSize := s.unionSize
  ptrOffsets := s.ptrOffsets ++
    (((offsetsFrom s.offset (ts.map defs.scalarSizeAlign)).zip ts).filter fun f =>
      defs.isManagedPtr f.2).map Prod.fst
  rcOffsets := s.rcOffsets ++
    (((offsetsFrom s.offset (ts.map defs.scalarSizeAlign)).zip ts).filter fun f =>
      defs.isManagedPtr f.2 ∧ defs.isRefcountedTy f.2).map Prod.fst

variable {defs : LayoutDefs} {t : Ty} {ts : List Ty} {s s' : Scan} {d : DefId} {args : List Ty}
  {fields : List (String × Ty)} {l l' : Layout}

theorem scalarSizeAlign_pos (t : Ty) : 0 < (defs.scalarSizeAlign t).align := by
  unfold scalarSizeAlign
  split
  · exact Nat.lt_of_lt_of_le Nat.one_pos (Nat.le_max_right _ _)
  · exact Nat.one_pos

theorem scalarSizeAlign_dvd (t : Ty) : (defs.scalarSizeAlign t).align ∣ 8 := by
  unfold scalarSizeAlign
  split
  · rename_i c _
    cases c <;> decide
  · exact Nat.one_dvd 8

variable (defs ts) in
theorem aligned_fields : Aligned (ts.map defs.scalarSizeAlign) := by
  intro m hm
  obtain ⟨t, _, rfl⟩ := List.mem_map.mp hm
  exact scalarSizeAlign_pos t

theorem traced_nil : traced defs s [] = s := by
  unfold traced
  simp [offsetsFrom, extentFrom, greatest]

theorem traced_cons : traced defs (traced defs s [t]) ts = traced defs s (t :: ts) := by
  unfold traced
  simp only [offsetsFrom, extentFrom, greatest, List.map_cons, List.map_nil, List.foldl_cons,
    List.foldl_nil, List.append_assoc, List.singleton_append, List.zip_cons_cons, List.zip_nil_left,
    List.filter_cons, List.filter_nil]
  split <;> split <;> simp

theorem fieldTurn_value : defs.fieldTurn s t = .value s' ↔ s' = traced defs s [t] ∧
    roundUp s.offset (defs.scalarSizeAlign t).align < 2 ^ 32 ∧
    roundUp s.offset (defs.scalarSizeAlign t).align + (defs.scalarSizeAlign t).size < 2 ^ 32 := by
  have htraced : traced defs s [t] = ⟨
      roundUp s.offset (defs.scalarSizeAlign t).align + (defs.scalarSizeAlign t).size,
      s.offsets ++ [roundUp s.offset (defs.scalarSizeAlign t).align],
      max s.maxAlign (defs.scalarSizeAlign t).align, s.unionSize,
      if defs.isManagedPtr t then
        s.ptrOffsets ++ [roundUp s.offset (defs.scalarSizeAlign t).align] else s.ptrOffsets,
      if defs.isManagedPtr t ∧ defs.isRefcountedTy t then
        s.rcOffsets ++ [roundUp s.offset (defs.scalarSizeAlign t).align] else s.rcOffsets⟩ := by
    unfold traced
    simp only [offsetsFrom, extentFrom, greatest, List.map_cons, List.map_nil, List.foldl_cons,
      List.foldl_nil, List.zip_cons_cons, List.zip_nil_left, List.filter_cons, List.filter_nil]
    split <;> split <;> simp_all
  rw [htraced]
  constructor
  · intro h
    obtain ⟨off, hoff, h⟩ := Ending.value_of_bind.mp h
    obtain ⟨offset, hoffset, h⟩ := Ending.value_of_bind.mp h
    obtain ⟨rfl, hlt⟩ := u32_value.mp hoff
    obtain ⟨rfl, hlt'⟩ := u32_value.mp hoffset
    exact ⟨(Ending.value.inj h).symm, hlt, hlt'⟩
  · rintro ⟨rfl, hlt, hlt'⟩
    refine Ending.value_of_bind.mpr ⟨_, u32_value.mpr ⟨rfl, hlt⟩, ?_⟩
    exact Ending.value_of_bind.mpr ⟨_, u32_value.mpr ⟨rfl, hlt'⟩, rfl⟩

/-- The loop ends exactly where the end of the last field is a `u32`. -/
theorem fieldScan_value (hs : s.offset < 2 ^ 32) : ts.foldlM defs.fieldTurn s = .value s' ↔
    s' = traced defs s ts ∧ extentFrom s.offset (ts.map defs.scalarSizeAlign) < 2 ^ 32 := by
  induction ts generalizing s with
  | nil =>
    rw [traced_nil]
    constructor
    · intro h
      cases h
      exact ⟨rfl, hs⟩
    · rintro ⟨rfl, _⟩
      rfl
  | cons t ts ih =>
    rw [List.foldlM_cons, Ending.value_of_bind, ← traced_cons]
    constructor
    · rintro ⟨next, hturn, h⟩
      obtain ⟨rfl, _, hlt⟩ := fieldTurn_value.mp hturn
      exact (ih hlt).mp h
    · rintro ⟨rfl, hlt⟩
      have hle := le_extentFrom
        (n := roundUp s.offset (defs.scalarSizeAlign t).align + (defs.scalarSizeAlign t).size)
        (aligned_fields defs ts)
      rw [List.map_cons, extentFrom] at hlt
      refine ⟨_, fieldTurn_value.mpr ⟨rfl, by omega, by omega⟩, (ih ?_).mpr ⟨rfl, hlt⟩⟩
      exact Nat.lt_of_le_of_lt hle hlt

/-! ## The field block -/

/-- The size of the fields, without a header. -/
def blockSize (defs : LayoutDefs) (ts : List Ty) : Nat :=
  max (roundUp (extentFrom 0 (ts.map defs.scalarSizeAlign))
    (greatest 1 ((ts.map defs.scalarSizeAlign).map SizeAlign.align))) 1

/-- The layout of the fields behind a header. -/
def fieldBlock (defs : LayoutDefs) (fields : List (String × Ty)) : Layout where
  names := fields.map Prod.fst
  offsets := (traced defs ⟨0, [], 1, 0, [], []⟩ (fields.map Prod.snd)).offsets
  cltys := fields.map fun f => defs.cltyOf f.2
  tys := fields.map Prod.snd
  size := blockSize defs (fields.map Prod.snd)
  align := (traced defs ⟨0, [], 1, 0, [], []⟩ (fields.map Prod.snd)).maxAlign
  ptrOffsets := (traced defs ⟨0, [], 1, 0, [], []⟩ (fields.map Prod.snd)).ptrOffsets
  rcOffsets := (traced defs ⟨0, [], 1, 0, [], []⟩ (fields.map Prod.snd)).rcOffsets

/-- A layout behind a header. -/
def behind (l : Layout) (header : Nat) : Layout :=
  { l with
    offsets := l.offsets.map (· + header)
    ptrOffsets := l.ptrOffsets.map (· + header)
    rcOffsets := l.rcOffsets.map (· + header)
    size := l.size + header
    align := max l.align header }

/-- The accessor and the tracer agree: the traced offsets are those of the managed fields, the
fields are aligned, apart from each other, inside the object and behind its header. -/
structure Traces (defs : LayoutDefs) (header : Nat) (l : Layout) : Prop where
  length : l.offsets.length = l.tys.length
  ptr : l.ptrOffsets = ((l.offsets.zip l.tys).filter fun f => defs.isManagedPtr f.2).map Prod.fst
  rc : l.rcOffsets = ((l.offsets.zip l.tys).filter fun f =>
    defs.isManagedPtr f.2 ∧ defs.isRefcountedTy f.2).map Prod.fst
  aligned : ∀ p ∈ l.offsets.zip (l.tys.map defs.scalarSizeAlign), p.2.align ∣ p.1
  apart : (l.offsets.zip (l.tys.map defs.scalarSizeAlign)).Pairwise fun p q => p.1 + p.2.size ≤ q.1
  inside : ∀ p ∈ l.offsets.zip (l.tys.map defs.scalarSizeAlign),
    header ≤ p.1 ∧ p.1 + p.2.size ≤ l.size

variable (ts) in
theorem extent_le_blockSize : extentFrom 0 (ts.map defs.scalarSizeAlign) ≤ blockSize defs ts := by
  refine Nat.le_trans (le_roundUp ?_) (Nat.le_max_left _ 1)
  exact Nat.lt_of_lt_of_le Nat.one_pos le_greatest_base

theorem layoutOfFields_value : defs.layoutOfFields fields = .value l ↔
    l = fieldBlock defs fields ∧ blockSize defs (fields.map Prod.snd) < 2 ^ 32 := by
  unfold layoutOfFields
  rw [Ending.value_of_bind]
  constructor
  · rintro ⟨s, hscan, h⟩
    obtain ⟨rfl, _⟩ := (fieldScan_value (by decide)).mp hscan
    obtain ⟨size, hsize, h⟩ := Ending.value_of_bind.mp h
    obtain ⟨rfl, hlt⟩ := u32_value.mp hsize
    exact ⟨(Ending.value.inj h).symm, Nat.max_lt.mpr ⟨hlt, by decide⟩⟩
  · rintro ⟨rfl, hlt⟩
    have hextent := Nat.lt_of_le_of_lt (extent_le_blockSize (fields.map Prod.snd)) hlt
    refine ⟨_, (fieldScan_value (by decide)).mpr ⟨rfl, hextent⟩, ?_⟩
    refine Ending.value_of_bind.mpr ⟨_, u32_value.mpr ⟨rfl, (Nat.max_lt.mp hlt).1⟩, rfl⟩

variable (defs fields) in
theorem fieldBlock_traces : Traces defs 0 (fieldBlock defs fields) where
  length := offsetsFrom_length.trans (List.length_map ..)
  ptr := rfl
  rc := rfl
  aligned := offsetsFrom_dvd
  apart := offsetsFrom_apart (aligned_fields _ _)
  inside := by
    intro p hp
    exact ⟨Nat.zero_le _,
      Nat.le_trans (offsetsFrom_inside (aligned_fields _ _) p hp).2 (extent_le_blockSize _)⟩

theorem filter_behind (q : Ty → Bool) (os : List Nat) (header : Nat) :
    (((os.map (· + header)).zip ts).filter fun f => q f.2).map Prod.fst =
      (((os.zip ts).filter fun f => q f.2).map Prod.fst).map (· + header) := by
  rw [List.zip_map_left, List.filter_map, List.map_map, List.map_map]
  rfl

/-- Behind a header the tracer and the accessor agree as before. -/
theorem Traces.behind (h : Traces defs 0 l) {header : Nat} (hheader : 8 ∣ header) :
    Traces defs header (behind l header) where
  length := (List.length_map _).trans h.length
  ptr := (congrArg (List.map (· + header)) h.ptr).trans (filter_behind _ _ _).symm
  rc := (congrArg (List.map (· + header)) h.rc).trans
    (filter_behind (fun t => defs.isManagedPtr t ∧ defs.isRefcountedTy t) _ _).symm
  aligned := by
    unfold LayoutDefs.behind
    rw [List.zip_map_left]
    intro p hp
    obtain ⟨q, hq, rfl⟩ := List.mem_map.mp hp
    obtain ⟨t, -, ht⟩ := List.mem_map.mp (List.of_mem_zip hq).2
    exact Nat.dvd_add (h.aligned q hq) (ht ▸ Nat.dvd_trans (scalarSizeAlign_dvd t) hheader)
  apart := by
    unfold LayoutDefs.behind
    rw [List.zip_map_left, List.pairwise_map]
    refine h.apart.imp fun {p q} hpq => ?_
    show p.1 + header + p.2.size ≤ q.1 + header
    omega
  inside := by
    unfold LayoutDefs.behind
    rw [List.zip_map_left]
    intro p hp
    obtain ⟨q, hq, rfl⟩ := List.mem_map.mp hp
    have hinside := (h.inside q hq).2
    show header ≤ q.1 + header ∧ q.1 + header + q.2.size ≤ l.size + header
    omega

theorem addHeader_value {os : List Nat} (h : ∀ o ∈ os, o + rcHeader < 2 ^ 32) :
    addHeader os = .value (os.map (· + rcHeader)) := by
  induction os with
  | nil => rfl
  | cons o os ih =>
    obtain ⟨ho, hos⟩ := List.forall_mem_cons.mp h
    unfold addHeader
    rw [u32_value.mpr ⟨rfl, ho⟩, ih hos]
    rfl

theorem Traces.offset_le (h : Traces defs 0 l) : ∀ o ∈ l.offsets, o ≤ l.size := by
  intro o ho
  obtain ⟨i, hi, rfl⟩ := List.mem_iff_getElem.mp ho
  have hlen : i < (l.offsets.zip (l.tys.map defs.scalarSizeAlign)).length := by
    rw [List.length_zip, List.length_map, ← h.length]
    omega
  have hinside := (h.inside _ (List.getElem_mem hlen)).2
  rw [List.getElem_zip] at hinside
  exact Nat.le_trans (Nat.le_add_right _ _) hinside

theorem mem_of_filter {q : Nat × Ty → Bool} {os : List Nat} :
    ∀ o ∈ ((os.zip ts).filter q).map Prod.fst, o ∈ os := by
  intro o ho
  obtain ⟨f, hf, rfl⟩ := List.mem_map.mp ho
  exact (List.of_mem_zip (List.mem_of_mem_filter hf)).1

/-- Where the whole fits behind the header, the offsets do. -/
theorem shiftHeader_fits (h : Traces defs 0 l) (hfits : l.size + rcHeader < 2 ^ 32) :
    shiftHeader l = .value (behind l rcHeader) := by
  have hoffset : ∀ o ∈ l.offsets, o + rcHeader < 2 ^ 32 := by
    intro o ho
    have hle := h.offset_le o ho
    omega
  have hptr : ∀ o ∈ l.ptrOffsets, o + rcHeader < 2 ^ 32 := by
    intro o ho
    rw [h.ptr] at ho
    exact hoffset o (mem_of_filter o ho)
  have hrc : ∀ o ∈ l.rcOffsets, o + rcHeader < 2 ^ 32 := by
    intro o ho
    rw [h.rc] at ho
    exact hoffset o (mem_of_filter o ho)
  unfold shiftHeader
  rw [addHeader_value hoffset, addHeader_value hptr, addHeader_value hrc,
    u32_value.mpr ⟨rfl, hfits⟩]
  rfl

theorem shiftHeader_size (h : shiftHeader l = .value l') : l.size + rcHeader < 2 ^ 32 := by
  obtain ⟨_, _, h⟩ := Ending.value_of_bind.mp h
  obtain ⟨_, _, h⟩ := Ending.value_of_bind.mp h
  obtain ⟨_, _, h⟩ := Ending.value_of_bind.mp h
  obtain ⟨_, hsize, _⟩ := Ending.value_of_bind.mp h
  exact (u32_value.mp hsize).2

/-- The bytes before the fields of an object. -/
def headerOf (defs : LayoutDefs) (d : DefId) : Nat := if defs.isRefcountedDef d then rcHeader else 0

/-- A managed struct is laid out so that the accessor and the tracer agree exactly when its fields
and its header are no more than a `u32` counts. -/
theorem managed_traces_iff (hkind : (defs.get d).kind = .struct) :
    (∃ n l, defs.computeLayout n d args = .value l ∧ Traces defs (headerOf defs d) l) ↔
      blockSize defs (defs.fieldTypes d args) + headerOf defs d < 2 ^ 32 := by
  have hstruct : ¬(defs.get d).kind = .externStruct := by
    rw [hkind]
    decide
  unfold headerOf fieldTypes
  constructor
  · rintro ⟨n, l, hl, _⟩
    cases n with
    | zero => cases hl
    | succ n =>
      unfold computeLayout at hl
      rw [if_neg hstruct] at hl
      obtain ⟨block, hblock, hl⟩ := Ending.value_of_bind.mp hl
      obtain ⟨rfl, hlt⟩ := layoutOfFields_value.mp hblock
      split at hl
      · rw [if_pos (by assumption)]
        exact shiftHeader_size hl
      · rw [if_neg (by assumption)]
        exact hlt
  · intro hfits
    have hlt := Nat.lt_of_le_of_lt (Nat.le_add_right _ _) hfits
    have hblock := layoutOfFields_value.mpr ⟨rfl, hlt⟩
    have htraces := fieldBlock_traces defs (defs.layoutFields d args)
    refine ⟨1, ?_⟩
    unfold computeLayout
    rw [if_neg hstruct, hblock, Ending.value_bind]
    split at hfits
    · rw [if_pos (by assumption), shiftHeader_fits htraces hfits]
      exact ⟨_, rfl, by rw [if_pos (by assumption)]; exact htraces.behind (Nat.dvd_refl _)⟩
    · rw [if_neg (by assumption)]
      exact ⟨_, rfl, by rw [if_neg (by assumption)]; exact htraces⟩

/-! ## All structs -/

/-- A struct or union of C is laid out by the rule of C, with the structs inside it, exactly when
the nesting has an end, the sizes are `u32`, a struct without a byte has no alignment to keep, and
decorators mean the same as they are read and as they are written. In a managed struct the accessor
and the tracer agree exactly when its fields and its header are no more than a `u32` counts. -/
theorem layouts_right_iff (hdefs : defs.Accepted) :
    (∀ d args, (defs.get d).kind = .externStruct →
      ((∀ e eargs, defs.Part (.named e eargs) (.named d args) → (defs.get e).kind = .externStruct →
        defs.Right e eargs) ↔
      Acc defs.Inside (.named d args) ∧
        ∀ e eargs, defs.Part (.named e eargs) (.named d args) → (defs.get e).kind = .externStruct →
          defs.Fine e eargs)) ∧
    ∀ d args, (defs.get d).kind = .struct →
      ((∃ n l, defs.computeLayout n d args = .value l ∧ Traces defs (headerOf defs d) l) ↔
        blockSize defs (defs.fieldTypes d args) + headerOf defs d < 2 ^ 32) :=
  ⟨fun _ _ hkind => extern_right_iff hdefs hkind, fun _ _ hkind => managed_traces_iff hkind⟩

/-- A buffer of 2³² bytes, a struct without a field of alignment 8, a tag of alignment 16 written in
base 16, a struct inside itself, a point, and a counted cell with a text. -/
def shapes : LayoutDefs where
  count := 7
  get
    | 1 => ⟨.externStruct, [], [], some [.array (.int .u8) (2 ^ 32)]⟩
    | 2 => ⟨.externStruct, ["Align"], [], some []⟩
    | 3 => ⟨.externStruct, ["Align"], [], some [.int .u8]⟩
    | 4 => ⟨.externStruct, [], [], some [.named 4 []]⟩
    | 5 => ⟨.externStruct, [], [], some [.int .u8, .int .i32]⟩
    | 6 => ⟨.struct, ["RefCounted"], [], some [.int .i32, .str]⟩
    | _ => ⟨.module, [], [], none⟩
  listDef := 0
  mapDef := 0
  senderDef := 0
  receiverDef := 0
  refCounted_struct := by
    intro d h
    rcases d with _ | _ | _ | _ | _ | _ | _ | d <;> simp at h ⊢
  endpoint_struct := by
    rintro d hne (h | h) <;> exact absurd h hne
  attributes
    | 2 => [⟨"Align", [.int "8" .dec]⟩]
    | 3 => [⟨"Align", [.int "10" .hex]⟩]
    | 6 => [⟨"RefCounted", []⟩]
    | _ => []
  structs
    | 1 => some (.record [("bytes", .array (.int .u8) (2 ^ 32))])
    | 2 => some (.record [])
    | 3 => some (.record [("tag", .int .u8)])
    | 4 => some (.record [("next", .named 4 [])])
    | 5 => some (.record [("x", .int .u8), ("y", .int .i32)])
    | 6 => some (.record [("count", .int .i32), ("text", .str)])
    | _ => none
  attrs_eq := by
    intro d
    rcases d with _ | _ | _ | _ | _ | _ | _ | d <;> rfl
  fields_eq := by
    intro d
    rcases d with _ | _ | _ | _ | _ | _ | _ | d <;> rfl

theorem shapes_accepted : shapes.Accepted := by
  intro d hkind
  rcases d with _ | _ | _ | _ | _ | _ | _ | d <;> cases hkind <;> decide

theorem layouts_right_iff_shapes :
    ((∀ e eargs, shapes.Part (.named e eargs) (.named 5 []) → (shapes.get e).kind = .externStruct →
        shapes.Right e eargs) ↔
      Acc shapes.Inside (.named 5 []) ∧
        ∀ e eargs, shapes.Part (.named e eargs) (.named 5 []) →
          (shapes.get e).kind = .externStruct → shapes.Fine e eargs) ∧
    ((∃ n l, shapes.computeLayout n 6 [] = .value l ∧ Traces shapes (headerOf shapes 6) l) ↔
      blockSize shapes (shapes.fieldTypes 6 []) + headerOf shapes 6 < 2 ^ 32) :=
  ⟨(layouts_right_iff shapes_accepted).1 5 [] rfl, (layouts_right_iff shapes_accepted).2 6 [] rfl⟩

/-- A layout of another size than that of C is not right. -/
theorem not_right {ms : List SizeAlign} {n : Nat} (hl : defs.computeLayout n d args = .value l)
    (hms : defs.CMembers (defs.fieldTypes d args) ms) (h : l.size ≠ (defs.writtenRule d).size ms) :
    ¬defs.Right d args := by
  rintro ⟨k, l', ms', hl', hms', hlays⟩
  obtain rfl := computeLayout_unique hl hl'
  obtain rfl := CMembers.unique hms hms'
  exact h hlays.size_eq

theorem layouts_of_shapes : shapes.Accepted ∧ ¬shapes.Right 1 [] ∧ ¬shapes.Right 2 [] ∧
    ¬shapes.Right 3 [] ∧ ¬shapes.Right 4 [] := by
  refine ⟨shapes_accepted, ?_, ?_, ?_, ?_⟩
  · refine not_right (n := 1) rfl (.cons (.array _ (.scalar rfl rfl)) .nil) ?_
    decide
  · refine not_right (n := 1) rfl .nil ?_
    decide
  · refine not_right (n := 1) rfl (.cons (.scalar rfl rfl) .nil) ?_
    decide
  · rintro ⟨n, l, _, hl, -⟩
    induction n generalizing l with
    | zero => cases hl
    | succ n ih =>
      obtain ⟨s, hscan, _⟩ := Ending.value_of_bind.mp hl
      obtain ⟨_, hturn, _⟩ := Ending.value_of_bind.mp hscan
      obtain ⟨_, hnext, _⟩ := Ending.value_of_bind.mp hturn
      obtain ⟨l, hl, _⟩ := Ending.value_of_bind.mp hnext
      exact ih l hl

end LayoutDefs

end backend
