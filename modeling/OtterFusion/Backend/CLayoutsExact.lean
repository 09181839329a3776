-- The layouts of `extern struct`s beside the rule of C in exact arithmetic: when the code gives the
-- layout of C for a struct and for the structs inside it.
import OtterFusion.Backend.CLayouts

open compiler.sema compiler.lexer base.clayout base.trapping

namespace backend

/-! ## The rule of C -/

/-- The radix of a base. -/
def radixOf : IntBase → Nat
  | .dec => 10
  | .hex => 16
  | .oct => 8
  | .bin => 2

/-- The number that the argument of a decorator stands for, in its base. -/
def attrNumber (attr : Attribute) : Option Nat :=
  attr.args.findSome? fun
    | .int raw intBase => base.numerals.value (radixOf intBase) (literalDigits raw)
    | .other => none

/-- A scalar, a raw pointer or a C function pointer. -/
def isScalar : Ty → Bool
  | .int _ | .float _ | .bool | .char | .ptr _ => true
  | .func _ _ isExtern => isExtern
  | _ => false

namespace LayoutDefs

variable (defs : LayoutDefs)

/-- The decorators as they are read. -/
def readRule (d : DefId) : Rule := externReprWith attrIntArg (defs.attributes d)

/-- The decorators as they are written. -/
def writtenRule (d : DefId) : Rule := externReprWith attrNumber (defs.attributes d)

/-- The types of the fields. -/
def fieldTypes (d : DefId) (args : List Ty) : List Ty := (defs.layoutFields d args).map Prod.snd

/-- `is_repr_c`. -/
def isReprC : Ty → Bool
  | .array elem _ => isReprC elem
  | .named d _ => (defs.get d).kind = .externStruct
  | t => isScalar t

/-- `validate_extern_structs` has nothing to report. -/
def Accepted : Prop :=
  ∀ d, (defs.get d).kind = .externStruct →
    ∀ f ∈ ((defs.structs d).map StructFields.named).getD [], defs.isReprC f.2 = true

/-- A type has a size and an alignment in C: its nesting has an end. -/
inductive CMember : Ty → SizeAlign → Prop
  | scalar {t : Ty} {c : ClType} : isScalar t = true → defs.cltyOf t = some c →
      CMember t ⟨c.bytes, c.bytes⟩
  | array {t : Ty} {m : SizeAlign} (n : Nat) : CMember t m →
      CMember (.array t n) ⟨n * m.size, m.align⟩
  | struct {d : DefId} {args : List Ty} {ms : List SizeAlign} : (defs.get d).kind = .externStruct →
      (defs.fieldTypes d args).length = ms.length →
      (∀ {t m}, (t, m) ∈ (defs.fieldTypes d args).zip ms → CMember t m) →
      CMember (.named d args) ((defs.writtenRule d).whole ms)

/-- Some types have each their size and alignment. -/
abbrev CMembers (ts : List Ty) (ms : List SizeAlign) : Prop := List.Forall₂ defs.CMember ts ms

/-- The element of an array is inside it, and the fields of an `extern struct` inside the struct. -/
inductive Inside : Ty → Ty → Prop
  | elem (t : Ty) (n : Nat) : Inside t (.array t n)
  | field {d : DefId} {args : List Ty} {t : Ty} : (defs.get d).kind = .externStruct →
      t ∈ defs.fieldTypes d args → Inside t (.named d args)

/-- A type is the same as another one, or somewhere inside it. -/
inductive Part (p : Ty) : Ty → Prop
  | self : Part p p
  | inside {q t : Ty} : defs.Inside q t → Part p q → Part p t

/-- A struct is laid out as C wants it. -/
def Right (d : DefId) (args : List Ty) : Prop :=
  ∃ n l ms, defs.computeLayout n d args = .value l ∧ defs.CMembers (defs.fieldTypes d args) ms ∧
    (defs.writtenRule d).Lays ms l.offsets l.size l.align

/-- The size in C is a `u32`, a struct without a byte has no alignment to keep, and the decorators
mean the same as they are read and as they are written. -/
def Fine (d : DefId) (args : List Ty) : Prop :=
  ∀ ms, defs.CMembers (defs.fieldTypes d args) ms →
    (defs.writtenRule d).size ms < 2 ^ 32 ∧
    ((defs.writtenRule d).extent ms = 0 → (defs.writtenRule d).align ms = 1) ∧
    (defs.readRule d).offsets ms = (defs.writtenRule d).offsets ms ∧
    (defs.readRule d).whole ms = (defs.writtenRule d).whole ms

variable {defs} {t : Ty} {m : SizeAlign} {ts : List Ty} {ms : List SizeAlign} {d : DefId}
  {args : List Ty}

theorem Part.trans {p q : Ty} (h : defs.Part p q) (h' : defs.Part q t) : defs.Part p t := by
  induction h' with
  | self => exact h
  | inside hinside _ ih => exact .inside hinside ih

theorem Part.acc {p : Ty} (h : defs.Part p t) (hacc : Acc defs.Inside t) : Acc defs.Inside p := by
  induction h with
  | self => exact hacc
  | inside hinside _ ih => exact ih (hacc.inv hinside)

theorem CMember.of_fields (hkind : (defs.get d).kind = .externStruct)
    (h : defs.CMembers (defs.fieldTypes d args) ms) :
    defs.CMember (.named d args) ((defs.writtenRule d).whole ms) :=
  .struct hkind h.length_eq (List.forall₂_zip h)

theorem eq_of_forall₂ {A B : Type} {R : A → B → Prop} {l : List A} {xs ys : List B}
    (hx : List.Forall₂ (fun a x => ∀ y, R a y → x = y) l xs) (hy : List.Forall₂ R l ys) :
    xs = ys := by
  induction hx generalizing ys with
  | nil =>
    cases hy
    rfl
  | cons h _ ih =>
    cases hy with
    | cons hy hys => rw [h _ hy, ih hys]

/-- Each type has one size and one alignment. -/
theorem CMember.unique {m' : SizeAlign} (h : defs.CMember t m) (h' : defs.CMember t m') :
    m = m' := by
  induction h generalizing m' with
  | scalar hscalar hclty =>
    cases h' with
    | scalar _ hclty' =>
      rw [hclty] at hclty'
      cases hclty'
      rfl
    | array n _ => cases hscalar
    | struct _ _ _ => cases hscalar
  | array n _ ih =>
    cases h' with
    | scalar hscalar _ => cases hscalar
    | array _ h' => rw [ih h']
  | struct hkind hlen _ ih =>
    cases h' with
    | scalar hscalar _ => cases hscalar
    | struct _ hlen' h' =>
      refine congrArg _ (eq_of_forall₂ (List.forall₂_iff_zip.mpr ⟨hlen, ?_⟩)
        (List.forall₂_iff_zip.mpr ⟨hlen', h'⟩))
      intro t m hmem m' hm'
      exact ih hmem hm'

theorem bytes_pos (c : ClType) : 0 < c.bytes := by cases c <;> decide

theorem CMember.align_pos (h : defs.CMember t m) : 0 < m.align := by
  induction h with
  | scalar _ _ => exact bytes_pos _
  | array _ _ ih => exact ih
  | struct _ _ _ _ => exact Rule.align_pos _ _

variable (defs) in
/-- A scalar has a machine type, and its size is its alignment. -/
theorem clty_of_scalar (h : isScalar t = true) : ∃ c, defs.cltyOf t = some c := by
  unfold TypeDefs.cltyOf
  cases t with
  | int _ | float _ | bool | char | ptr _ | func _ _ _ =>
    unfold TypeDefs.cltyWithin
    exact ⟨_, rfl⟩
  | _ => cases h

theorem scalarSizeAlign_eq {c : ClType} (h : defs.cltyOf t = some c) :
    defs.scalarSizeAlign t = ⟨c.bytes, c.bytes⟩ := by
  unfold scalarSizeAlign
  rw [h]
  exact congrArg _ (Nat.max_eq_left (bytes_pos c))

/-- The types of the fields are ones of C, at any arguments. -/
theorem fieldTypes_reprC (hdefs : defs.Accepted) (hkind : (defs.get d).kind = .externStruct) :
    ∀ t ∈ defs.fieldTypes d args, defs.isReprC t = true := by
  intro t ht
  obtain ⟨f, hf, rfl⟩ := List.mem_map.mp ht
  obtain ⟨g, hg, rfl⟩ := List.mem_map.mp hf
  have hrepr := hdefs d hkind g hg
  cases hty : g.2 with
  | param e =>
    rw [hty] at hrepr
    cases hrepr
  | _ =>
    rw [hty] at hrepr
    exact hrepr

/-! ## More fuel -/

variable {f g : DefId → List Ty → Calc Layout} {sizeAlign : Ty → Calc SizeAlign} {n k : Nat}

theorem sizeAlign_array (elem : Ty) (len : Nat) :
    defs.fieldSizeAlign f (.array elem len) = (defs.fieldSizeAlign f elem >>= fun m =>
      .value ⟨min (m.size * (len % 2 ^ 32)) (2 ^ 32 - 1), m.align⟩) := rfl

theorem sizeAlign_struct (hkind : (defs.get d).kind = .externStruct) :
    defs.fieldSizeAlign f (.named d args) = (f d args >>= fun l => .value ⟨l.size, l.align⟩) :=
  if_pos hkind

theorem sizeAlign_scalar (h : isScalar t = true) :
    defs.fieldSizeAlign f t = .value (defs.scalarSizeAlign t) := by
  cases t with
  | array _ _ | named _ _ => cases h
  | _ => rfl

theorem fieldSizeAlign_follows (h : ∀ d args, (f d args).Follows (g d args)) (t : Ty) :
    (defs.fieldSizeAlign f t).Follows (defs.fieldSizeAlign g t) := by
  induction t using fieldSizeAlign.induct defs with
  | case1 elem len ih => exact .bind ih fun m => .refl _
  | case2 d args hkind =>
    rw [sizeAlign_struct hkind, sizeAlign_struct hkind]
    exact .bind (h d args) fun l => .refl _
  | case3 d args hkind =>
    unfold fieldSizeAlign
    rw [if_neg hkind, if_neg hkind]
    exact .refl _
  | case4 t harray hnamed =>
    unfold fieldSizeAlign
    split
    · exact absurd rfl (harray _ _)
    · exact absurd rfl (hnamed _ _)
    · exact .refl _

theorem computeLayout_follows (hnk : n ≤ k) (d : DefId) (args : List Ty) :
    (defs.computeLayout n d args).Follows (defs.computeLayout k d args) := by
  induction n generalizing k d args with
  | zero => exact fun hsafe => absurd hsafe (Ending.safe_trap _)
  | succ n ih =>
    obtain ⟨k, rfl⟩ := Nat.exists_eq_add_one_of_ne_zero (show k ≠ 0 by omega)
    refine .ite ?_ (.refl _)
    refine .bind (.foldlM (fun s t => ?_) _ _) fun s => .refl _
    exact .bind (fieldSizeAlign_follows (ih (by omega)) t) fun m => .refl _

/-- A layout is the same however much fuel it took. -/
theorem computeLayout_unique {l l' : Layout} (h : defs.computeLayout n d args = .value l)
    (h' : defs.computeLayout k d args = .value l') : l = l' := by
  have hmore := (computeLayout_follows (Nat.le_max_left n k) d args).value h
  rw [(computeLayout_follows (Nat.le_max_right n k) d args).value h'] at hmore
  cases hmore
  rfl

/-! ## The loops -/

theorem u32_value {x y : Nat} : u32 x = .value y ↔ y = x ∧ x < 2 ^ 32 := by
  unfold u32
  split
  · constructor
    · intro h
      cases h
      exact ⟨rfl, by assumption⟩
    · rintro ⟨rfl, _⟩
      rfl
  · constructor
    · intro h
      cases h
    · rintro ⟨_, hlt⟩
      contradiction

variable {repr : Rule} {s s' : Scan}

/-- What the loop over the fields of an `extern struct` leaves. -/
def scanned (repr : Rule) (s : Scan) (ms : List SizeAlign) : Scan where
  offset := if repr.isUnion then s.offset else extentFrom s.offset (ms.map repr.cap)
  offsets := s.offsets ++
    if repr.isUnion then ms.map fun _ => 0 else offsetsFrom s.offset (ms.map repr.cap)
  maxAlign := greatest s.maxAlign ((ms.map repr.cap).map SizeAlign.align)
  unionSize := if repr.isUnion then greatest s.unionSize (ms.map SizeAlign.size) else s.unionSize
  ptrOffsets := s.ptrOffsets
  rcOffsets := s.rcOffsets

theorem scanned_nil : scanned repr s [] = s := by
  unfold scanned
  cases repr.isUnion <;> simp [offsetsFrom, extentFrom, greatest]

theorem scanned_cons : scanned repr (scanned repr s [m]) ms = scanned repr s (m :: ms) := by
  unfold scanned
  cases repr.isUnion <;> simp [offsetsFrom, extentFrom, greatest, Rule.cap_size]

/-- A turn adds one member; for a struct its end is a `u32`. -/
theorem externTurn_value : externTurn sizeAlign repr s t = .value s' ↔
    ∃ m, sizeAlign t = .value m ∧ s' = scanned repr s [m] ∧
      (repr.isUnion = false → roundUp s.offset (repr.cap m).align < 2 ^ 32 ∧
        roundUp s.offset (repr.cap m).align + m.size < 2 ^ 32) := by
  unfold externTurn
  rw [Ending.value_of_bind]
  refine exists_congr fun m => and_congr_right fun _ => ?_
  cases hunion : repr.isUnion with
  | true =>
    have hscan : scanned repr s [m] = ⟨s.offset, s.offsets ++ [0],
        max s.maxAlign (repr.cap m).align, max s.unionSize m.size, s.ptrOffsets, s.rcOffsets⟩ := by
      unfold scanned
      rw [hunion]
      rfl
    rw [hscan]
    constructor
    · intro h
      refine ⟨(Ending.value.inj h).symm, fun hstruct => ?_⟩
      cases hstruct
    · rintro ⟨rfl, _⟩
      rfl
  | false =>
    have hscan : scanned repr s [m] = ⟨roundUp s.offset (repr.cap m).align + m.size,
        s.offsets ++ [roundUp s.offset (repr.cap m).align], max s.maxAlign (repr.cap m).align,
        s.unionSize, s.ptrOffsets, s.rcOffsets⟩ := by
      unfold scanned
      rw [hunion]
      rfl
    rw [hscan]
    constructor
    · intro h
      obtain ⟨off, hoff, h⟩ := Ending.value_of_bind.mp h
      obtain ⟨offset, hoffset, h⟩ := Ending.value_of_bind.mp h
      obtain ⟨rfl, hlt⟩ := u32_value.mp hoff
      obtain ⟨rfl, hlt'⟩ := u32_value.mp hoffset
      exact ⟨(Ending.value.inj h).symm, fun _ => ⟨hlt, hlt'⟩⟩
    · rintro ⟨rfl, hfits⟩
      obtain ⟨hlt, hlt'⟩ := hfits rfl
      refine Ending.value_of_bind.mpr ⟨_, u32_value.mpr ⟨rfl, hlt⟩, ?_⟩
      exact Ending.value_of_bind.mpr ⟨_, u32_value.mpr ⟨rfl, hlt'⟩, rfl⟩

/-- The loop adds the members of the fields. -/
theorem externScan_value (h : ts.foldlM (externTurn sizeAlign repr) s = .value s') :
    ∃ ms, List.Forall₂ (fun t m => sizeAlign t = .value m) ts ms ∧ s' = scanned repr s ms := by
  induction ts generalizing s with
  | nil =>
    cases h
    exact ⟨[], .nil, scanned_nil.symm⟩
  | cons t ts ih =>
    obtain ⟨next, hturn, h⟩ := Ending.value_of_bind.mp h
    obtain ⟨m, hm, rfl, _⟩ := externTurn_value.mp hturn
    obtain ⟨ms, hms, rfl⟩ := ih h
    exact ⟨m :: ms, .cons hm hms, scanned_cons⟩

/-- The loop ends where the end of the last member is a `u32`. -/
theorem externScan_fits (hms : List.Forall₂ (fun t m => sizeAlign t = .value m) ts ms)
    (haligned : Aligned ms)
    (hfits : repr.isUnion = false → extentFrom s.offset (ms.map repr.cap) < 2 ^ 32) :
    ts.foldlM (externTurn sizeAlign repr) s = .value (scanned repr s ms) := by
  induction hms generalizing s with
  | nil => exact congrArg _ scanned_nil.symm
  | @cons t m ts ms hm _ ih =>
    obtain ⟨hpos, hrest⟩ := List.forall_mem_cons.mp haligned
    have hturn : externTurn sizeAlign repr s t = .value (scanned repr s [m]) := by
      refine externTurn_value.mpr ⟨m, hm, rfl, fun hstruct => ?_⟩
      have hend := hfits hstruct
      have hle := le_extentFrom (n := roundUp s.offset (repr.cap m).align + m.size)
        (Rule.aligned_cap (r := repr) hrest)
      rw [List.map_cons, extentFrom, Rule.cap_size] at hend
      omega
    rw [List.foldlM_cons, hturn, Ending.value_bind]
    refine (ih hrest fun hstruct => ?_).trans (congrArg _ scanned_cons)
    have hend := hfits hstruct
    unfold scanned
    rw [hstruct]
    exact hend

/-! ## One struct -/

variable {fields : List (String × Ty)} {l : Layout}

/-- What the loop leaves of all the members. -/
theorem scanned_start (repr : Rule) (ms : List SizeAlign) :
    (scanned repr ⟨0, [], 1, 0, [], []⟩ ms).offsets = repr.offsets ms ∧
    raised repr.minAlign (scanned repr ⟨0, [], 1, 0, [], []⟩ ms).maxAlign = repr.align ms ∧
    (if repr.isUnion then (scanned repr ⟨0, [], 1, 0, [], []⟩ ms).unionSize
      else (scanned repr ⟨0, [], 1, 0, [], []⟩ ms).offset) = repr.extent ms := by
  unfold scanned Rule.offsets Rule.align Rule.extent
  cases repr.isUnion <;> exact ⟨rfl, rfl, rfl⟩

theorem externLayout_value (h : defs.externLayoutOfFields sizeAlign fields repr = .value l) :
    ∃ ms, List.Forall₂ (fun t m => sizeAlign t = .value m) (fields.map Prod.snd) ms ∧
      l.offsets = repr.offsets ms ∧ l.align = repr.align ms ∧
      l.size = max (roundUp (repr.extent ms) (repr.align ms)) 1 ∧ l.size < 2 ^ 32 := by
  obtain ⟨s, hscan, h⟩ := Ending.value_of_bind.mp h
  obtain ⟨ms, hms, rfl⟩ := externScan_value hscan
  obtain ⟨hoffsets, halign, hextent⟩ := scanned_start repr ms
  dsimp only at h
  rw [halign, hextent] at h
  obtain ⟨size, hsize, h⟩ := Ending.value_of_bind.mp h
  obtain ⟨rfl, hlt⟩ := u32_value.mp hsize
  cases h
  exact ⟨ms, hms, hoffsets, rfl, rfl, Nat.max_lt.mpr ⟨hlt, by decide⟩⟩

variable (defs) in
theorem externLayout_fits (hms : List.Forall₂ (fun t m => sizeAlign t = .value m)
    (fields.map Prod.snd) ms) (haligned : Aligned ms)
    (hfits : roundUp (repr.extent ms) (repr.align ms) < 2 ^ 32) :
    ∃ l, defs.externLayoutOfFields sizeAlign fields repr = .value l ∧
      l.offsets = repr.offsets ms ∧ l.align = repr.align ms ∧
      l.size = max (roundUp (repr.extent ms) (repr.align ms)) 1 := by
  obtain ⟨hoffsets, halign, hextent⟩ := scanned_start repr ms
  have hscan := externScan_fits (s := ⟨0, [], 1, 0, [], []⟩) hms haligned fun hstruct => by
    have hle := le_roundUp (n := repr.extent ms) (Rule.align_pos repr ms)
    unfold Rule.extent at hle hfits
    rw [hstruct] at hle hfits
    exact Nat.lt_of_le_of_lt hle hfits
  unfold externLayoutOfFields
  rw [hscan, Ending.value_bind]
  dsimp only
  rw [halign, hextent, alignUp, ← roundUp, u32, if_pos hfits]
  exact ⟨_, rfl, hoffsets, rfl, rfl⟩

/-! ## Inside out -/

/-- The sizes of the structs inside a type are those of C, as far as they are there. -/
def Known (defs : LayoutDefs) (t : Ty) : Prop :=
  ∀ d args m, defs.Part (.named d args) t → defs.CMember (.named d args) m →
    ∃ n l, defs.computeLayout n d args = .value l ∧ l.size = m.size ∧ l.align = m.align

/-- A member of the code beside one of C: a size from `2 ^ 32` on is lost. -/
def Near (s m : SizeAlign) : Prop := s.align = m.align ∧ (m.size < 2 ^ 32 → s.size = m.size)

/-- The product of an array is exact where it is a `u32`, though its factors be not. -/
theorem array_size {size size' len : Nat} (h : size' < 2 ^ 32 → size = size')
    (hlt : len * size' < 2 ^ 32) : min (size * (len % 2 ^ 32)) (2 ^ 32 - 1) = len * size' := by
  rcases Nat.eq_zero_or_pos len with rfl | hlen
  · simp
  rcases Nat.eq_zero_or_pos size' with rfl | hpos
  · rw [h (by decide)]
    simp
  · have hsize := Nat.le_mul_of_pos_left size' hlen
    have hcount := Nat.le_mul_of_pos_right len hpos
    rw [h (by omega), Nat.mod_eq_of_lt (by omega), Nat.mul_comm]
    exact Nat.min_eq_left (by omega)

/-- Where the structs inside are known, the code finds a size and an alignment. -/
theorem sizeAlign_near (hknown : Known defs t) (h : defs.CMember t m) :
    ∃ n s, defs.fieldSizeAlign (defs.computeLayout n) t = .value s ∧ Near s m := by
  induction h with
  | scalar hscalar hclty =>
    refine ⟨0, _, sizeAlign_scalar hscalar, ?_⟩
    rw [scalarSizeAlign_eq hclty]
    exact ⟨rfl, fun _ => rfl⟩
  | @array t m len _ ih =>
    obtain ⟨n, s, hs, halign, hsize⟩ :=
      ih fun d args m hpart => hknown d args m (.inside (.elem t len) hpart)
    refine ⟨n, ⟨min (s.size * (len % 2 ^ 32)) (2 ^ 32 - 1), s.align⟩, ?_, halign, array_size hsize⟩
    rw [sizeAlign_array, hs, Ending.value_bind]
  | @struct d args ms hkind hlen hms _ =>
    obtain ⟨n, l, hl, hsize, halign⟩ := hknown d args _ .self (.struct hkind hlen hms)
    refine ⟨n, ⟨l.size, l.align⟩, ?_, halign, fun _ => hsize⟩
    rw [sizeAlign_struct hkind, hl, Ending.value_bind]

/-- All at one fuel. -/
theorem sizesAlign_near (hknown : ∀ t ∈ ts, Known defs t) (h : defs.CMembers ts ms) :
    ∃ n ss, List.Forall₂ (fun t s =>
      defs.fieldSizeAlign (defs.computeLayout n) t = .value s) ts ss ∧
      List.Forall₂ Near ss ms := by
  induction h with
  | nil => exact ⟨0, [], .nil, .nil⟩
  | @cons t m ts ms hm _ ih =>
    obtain ⟨ht, hts⟩ := List.forall_mem_cons.mp hknown
    obtain ⟨n, s, hs, hnear⟩ := sizeAlign_near ht hm
    obtain ⟨k, ss, hss, hnears⟩ := ih hts
    refine ⟨max n k, s :: ss, .cons ?_ (hss.imp fun t s hs => ?_), .cons hnear hnears⟩
    · exact (fieldSizeAlign_follows (computeLayout_follows (Nat.le_max_left n k)) t).value hs
    · exact (fieldSizeAlign_follows (computeLayout_follows (Nat.le_max_right n k)) t).value hs

/-- Sizes that are there are those of C. -/
theorem near_eq {ss : List SizeAlign} {r : Rule} (haligned : Aligned ms)
    (h : List.Forall₂ Near ss ms)
    (hlt : r.size ms < 2 ^ 32) : ss = ms := by
  have hall : ∀ m ∈ ms, m.size < 2 ^ 32 := fun m hm =>
    Nat.lt_of_le_of_lt (Nat.le_trans (Rule.member_le_extent haligned hm) Rule.extent_le_size) hlt
  clear haligned hlt
  induction h with
  | nil => rfl
  | @cons s m ss ms hnear _ ih =>
    obtain ⟨hm, hms⟩ := List.forall_mem_cons.mp hall
    obtain ⟨halign, hsize⟩ := hnear
    rw [ih hms, SizeAlign.ext (hsize hm) halign]

theorem CMembers.unique {ms' : List SizeAlign} (h : defs.CMembers ts ms)
    (h' : defs.CMembers ts ms') :
    ms = ms' := by
  refine eq_of_forall₂ (h.imp ?_) h'
  intro t m hm m' hm'
  exact hm.unique hm'

theorem CMembers.aligned (h : defs.CMembers ts ms) : Aligned ms := by
  induction h with
  | nil =>
    intro m hm
    cases hm
  | cons hm _ ih => exact List.forall_mem_cons.mpr ⟨hm.align_pos, ih⟩

/-- The layout of one struct whose members are known. -/
theorem right_of_known (hkind : (defs.get d).kind = .externStruct)
    (hknown : ∀ t ∈ defs.fieldTypes d args, Known defs t)
    (hms : defs.CMembers (defs.fieldTypes d args) ms) (hfine : defs.Fine d args) :
    defs.Right d args := by
  obtain ⟨hlt, hempty, hoffsets, hwhole⟩ := hfine ms hms
  obtain ⟨hsizes, haligns⟩ := SizeAlign.mk.inj hwhole
  have haligned := hms.aligned
  obtain ⟨n, ss, hss, hnear⟩ := sizesAlign_near hknown hms
  obtain rfl := near_eq haligned hnear hlt
  have hround := roundUp_mono (Rule.align_pos (defs.readRule d) ss)
    (Nat.le_max_right 1 ((defs.readRule d).extent ss))
  rw [← Rule.size, hsizes] at hround
  obtain ⟨l, hl, hloffsets, hlalign, hlsize⟩ :=
    externLayout_fits defs hss haligned (Nat.lt_of_le_of_lt hround hlt)
  refine ⟨n + 1, l, ss, (if_pos hkind).trans hl, hms, ?_⟩
  have hsize : l.size = (defs.writtenRule d).size ss := by
    by_cases hzero : (defs.readRule d).extent ss = 0
    · have hzero' := (Rule.extent_zero_iff (defs.writtenRule d) haligned).mp hzero
      rw [hlsize, hzero, roundUp_zero (Rule.align_pos _ _), Rule.size_of_empty hzero',
        hempty hzero']
      rfl
    · rw [hlsize, ← hsizes]
      exact Rule.size_of_extent hzero
  rw [hloffsets, hlalign, hsize, hoffsets, haligns]
  exact Rule.lays haligned

/-- Where all the structs inside are fine, all are known. -/
theorem known_of_fine (h : defs.CMember t m)
    (hfine : ∀ e eargs, defs.Part (.named e eargs) t → (defs.get e).kind = .externStruct →
      defs.Fine e eargs) : Known defs t := by
  induction h with
  | scalar hscalar _ =>
    intro e eargs m' hpart _
    cases hpart with
    | self => cases hscalar
    | inside hinside _ => cases hinside <;> cases hscalar
  | @array t m n _ ih =>
    intro e eargs m' hpart hm'
    cases hpart with
    | inside hinside hpart =>
      cases hinside
      exact ih (fun e eargs hpart => hfine e eargs (.inside (.elem t n) hpart)) e eargs m' hpart hm'
  | @struct d args ms hkind hlen hms ih =>
    have hfields : ∀ t ∈ defs.fieldTypes d args, Known defs t := by
      intro t ht
      obtain ⟨i, hi, rfl⟩ := List.mem_iff_getElem.mp ht
      have hmem : ((defs.fieldTypes d args)[i], ms[i]) ∈ (defs.fieldTypes d args).zip ms := by
        rw [← List.getElem_zip (h := by rw [List.length_zip]; omega)]
        exact List.getElem_mem _
      exact ih hmem fun e eargs hpart => hfine e eargs (.inside (.field hkind ht) hpart)
    intro e eargs m' hpart hm'
    cases hpart with
    | self =>
      have hms' : defs.CMembers (defs.fieldTypes d args) ms := List.forall₂_iff_zip.mpr ⟨hlen, hms⟩
      obtain ⟨n, l, ms', hl, hms'', hlays⟩ :=
        right_of_known hkind hfields hms' (hfine d args .self hkind)
      obtain rfl := (CMember.of_fields hkind hms'').unique hm'
      exact ⟨n, l, hl, hlays.size_eq, hlays.align_eq⟩
    | inside hinside hpart =>
      cases hinside with
      | field _ ht => exact hfields _ ht e eargs m' hpart hm'

theorem known_of_right (h : ∀ e eargs, defs.Part (.named e eargs) t →
    (defs.get e).kind = .externStruct → defs.Right e eargs) : Known defs t := by
  intro e eargs m hpart hm
  cases hm with
  | scalar hscalar _ => cases hscalar
  | struct hkind hlen hms =>
    obtain ⟨n, l, ms, hl, hms', hlays⟩ := h e eargs hpart hkind
    obtain rfl := CMembers.unique hms' (List.forall₂_iff_zip.mpr ⟨hlen, hms⟩)
    exact ⟨n, l, hl, hlays.size_eq, hlays.align_eq⟩

theorem near_of_value {s : SizeAlign} (hknown : Known defs t) (hm : defs.CMember t m)
    (hs : defs.fieldSizeAlign (defs.computeLayout n) t = .value s) : Near s m := by
  obtain ⟨k, s', hs', hnear⟩ := sizeAlign_near hknown hm
  have hmore := (fieldSizeAlign_follows (computeLayout_follows (Nat.le_max_left n k)) t).value hs
  rw [(fieldSizeAlign_follows (computeLayout_follows (Nat.le_max_right n k)) t).value hs'] at hmore
  cases hmore
  exact hnear

theorem nears_of_values {ss : List SizeAlign} (hknown : ∀ t ∈ ts, Known defs t)
    (hms : defs.CMembers ts ms) (hss : List.Forall₂ (fun t s =>
      defs.fieldSizeAlign (defs.computeLayout n) t = .value s) ts ss) :
        List.Forall₂ Near ss ms := by
  induction hms generalizing ss with
  | nil =>
    cases hss
    exact .nil
  | cons hm _ ih =>
    obtain ⟨ht, hts⟩ := List.forall_mem_cons.mp hknown
    cases hss with
    | cons hs hss => exact .cons (near_of_value ht hm hs) (ih hts hss)

/-- Where a struct is laid out as C wants it and those inside it are known, it is fine. -/
theorem fine_of_right (hkind : (defs.get d).kind = .externStruct)
    (hknown : ∀ t ∈ defs.fieldTypes d args, Known defs t) (h : defs.Right d args) :
    defs.Fine d args := by
  obtain ⟨n, l, ms, hl, hms, hlays⟩ := h
  intro ms' hms'
  obtain rfl := CMembers.unique hms hms'
  have haligned := hms.aligned
  cases n with
  | zero => cases hl
  | succ n =>
    unfold computeLayout at hl
    rw [if_pos hkind] at hl
    obtain ⟨ss, hss, hoffsets, halign, hsize, hlt⟩ := externLayout_value hl
    rw [hlays.size_eq] at hlt
    obtain rfl := near_eq haligned (nears_of_values hknown hms hss) hlt
    rw [hlays.offsets_eq] at hoffsets
    rw [hlays.align_eq] at halign
    rw [hlays.size_eq] at hsize
    refine ⟨hlt, fun hzero => ?_, hoffsets.symm, ?_⟩
    · have hzero' := (Rule.extent_zero_iff (defs.readRule d) haligned).mp hzero
      rw [← Rule.size_of_empty hzero, hsize]
      unfold readRule at hzero'
      rw [hzero', roundUp_zero (Rule.align_pos _ _)]
      rfl
    · refine SizeAlign.ext ?_ halign.symm
      show (defs.readRule d).size ss = (defs.writtenRule d).size ss
      by_cases hzero : (defs.readRule d).extent ss = 0
      · have hzero' := (Rule.extent_zero_iff (defs.writtenRule d) haligned).mp hzero
        rw [Rule.size_of_empty hzero, Rule.size_of_empty hzero']
        exact halign.symm
      · rw [← Rule.size_of_extent hzero, hsize]
        rfl

/-! ## Nesting -/

theorem members_of_all (h : ∀ t ∈ ts, ∃ m, defs.CMember t m) : ∃ ms, defs.CMembers ts ms := by
  induction ts with
  | nil => exact ⟨[], .nil⟩
  | cons t ts ih =>
    obtain ⟨⟨m, hm⟩, hts⟩ := List.forall_mem_cons.mp h
    obtain ⟨ms, hms⟩ := ih hts
    exact ⟨m :: ms, .cons hm hms⟩

/-- A type of C has a size exactly when its nesting has an end. -/
theorem hasSize_iff (hdefs : defs.Accepted) (hrepr : defs.isReprC t = true) :
    (∃ m, defs.CMember t m) ↔ Acc defs.Inside t := by
  constructor
  · rintro ⟨m, h⟩
    clear hrepr
    induction h with
    | scalar hscalar _ => exact ⟨_, fun q hq => by cases hq <;> cases hscalar⟩
    | array n _ ih =>
      refine ⟨_, fun q hq => ?_⟩
      cases hq
      exact ih
    | @struct d args ms hkind hlen _ ih =>
      refine ⟨_, fun q hq => ?_⟩
      cases hq with
      | field _ ht =>
        obtain ⟨i, hi, rfl⟩ := List.mem_iff_getElem.mp ht
        have hmem : ((defs.fieldTypes d args)[i], ms[i]) ∈ (defs.fieldTypes d args).zip ms := by
          rw [← List.getElem_zip (h := by rw [List.length_zip]; omega)]
          exact List.getElem_mem _
        exact ih hmem
  · intro hacc
    induction hacc with
    | intro t _ ih =>
      cases t with
      | array elem n =>
        obtain ⟨m, hm⟩ := ih elem (.elem elem n) hrepr
        exact ⟨_, .array n hm⟩
      | named d args =>
        have hkind : (defs.get d).kind = .externStruct := of_decide_eq_true hrepr
        obtain ⟨ms, hms⟩ := members_of_all fun t ht =>
          ih t (.field hkind ht) (fieldTypes_reprC hdefs hkind t ht)
        exact ⟨_, .of_fields hkind hms⟩
      | int _ | float _ | bool | char | ptr _ | func _ _ _ =>
        obtain ⟨c, hc⟩ := clty_of_scalar defs hrepr
        exact ⟨_, .scalar hrepr hc⟩
      | _ => cases hrepr

/-- A struct and the structs inside it are laid out as C wants them exactly when their nesting has
an end and each of them is fine. -/
theorem extern_right_iff (hdefs : defs.Accepted) (hkind : (defs.get d).kind = .externStruct) :
    (∀ e eargs, defs.Part (.named e eargs) (.named d args) → (defs.get e).kind = .externStruct →
      defs.Right e eargs) ↔
    Acc defs.Inside (.named d args) ∧
      ∀ e eargs, defs.Part (.named e eargs) (.named d args) → (defs.get e).kind = .externStruct →
        defs.Fine e eargs := by
  have hsize : ∀ e eargs, (defs.get e).kind = .externStruct →
      ((∃ m, defs.CMember (.named e eargs) m) ↔ Acc defs.Inside (.named e eargs)) :=
    fun e eargs hekind => hasSize_iff hdefs (decide_eq_true hekind)
  constructor
  · intro h
    obtain ⟨_, _, ms, _, hms, _⟩ := h d args .self hkind
    refine ⟨(hsize d args hkind).mp ⟨_, .of_fields hkind hms⟩, fun e eargs hpart hekind => ?_⟩
    refine fine_of_right hekind (fun t ht => known_of_right fun e' eargs' hpart' => ?_)
      (h e eargs hpart hekind)
    exact h e' eargs' ((Part.inside (.field hekind ht) hpart').trans hpart)
  · rintro ⟨hacc, hfine⟩ e eargs hpart hekind
    obtain ⟨m, hm⟩ := (hsize e eargs hekind).mpr (hpart.acc hacc)
    have hknown : Known defs (.named e eargs) :=
      known_of_fine hm fun e' eargs' hpart' => hfine e' eargs' (hpart'.trans hpart)
    cases hm with
    | scalar hscalar _ => cases hscalar
    | struct _ hlen hms =>
      refine right_of_known hekind (fun t ht e' eargs' m' hpart' => ?_)
        (List.forall₂_iff_zip.mpr ⟨hlen, hms⟩) (hfine e eargs hpart hekind)
      exact hknown e' eargs' m' (.inside (.field hekind ht) hpart')

end LayoutDefs

end backend
