-- Unions as sets: each type of the table stands for the variants that it has, different types for
-- different sets, and `mk_union` gives the type of a union of such sets.
import OtterFusion.Compiler.TyTable

open base.hashCons

namespace compiler.ty

/-! ## The variants of a type -/

/-- The variants of a kind under this number. -/
def TyKind.parts (t : Ty) : TyKind → List Ty
  | .union members => members
  | .never => []
  | _ => [t]

namespace TyCtxt

variable {cx cx' : TyCtxt} {a b t : Ty} {k : TyKind} {members members' : List Ty}

/-- The variants of a type: `never` has none. -/
def parts (cx : TyCtxt) (t : Ty) : List Ty := ((cx.kind t).map (TyKind.parts t)).getD []

theorem parts_eq (h : cx.kind t = some k) : cx.parts t = TyKind.parts t k := by
  unfold parts
  rw [h]
  rfl

/-- The table and its map agree, `never` is there, and every union has variants in order. -/
structure WellFormed (cx : TyCtxt) : Prop where
  agrees : cx.table.Agrees
  never : cx.kind cx.never = some .never
  normal : ∀ t members, cx.kind t = some (.union members) →
    2 ≤ members.length ∧ members.Pairwise (· < ·) ∧ ∀ m ∈ members, cx.Atomic m

theorem Valid.kind (h : cx.Valid t) : ∃ k, cx.kind t = some k :=
  ⟨_, List.getElem?_eq_getElem h⟩

theorem valid_of_kind (h : cx.kind t = some k) : cx.Valid t :=
  (List.getElem?_eq_some_iff.mp h).1

theorem Atomic.valid (h : cx.Atomic t) : cx.Valid t := by
  obtain ⟨kind, hkind, -⟩ := h
  exact valid_of_kind hkind

theorem Atomic.parts (h : cx.Atomic t) : cx.parts t = [t] := by
  obtain ⟨kind, hkind, hnever, hunion⟩ := h
  rw [parts_eq hkind]
  cases kind with
  | never => exact absurd rfl hnever
  | union members => exact absurd rfl (hunion members)
  | _ => rfl

/-- A type is `never`, a union, or its own variant. -/
theorem Valid.cases (h : cx.Valid t) : cx.kind t = some .never ∨
    (∃ members, cx.kind t = some (.union members)) ∨ cx.Atomic t := by
  obtain ⟨kind, hkind⟩ := h.kind
  by_cases hnever : kind = .never
  · exact .inl (hnever ▸ hkind)
  · by_cases hunion : ∃ members, kind = .union members
    · obtain ⟨members, rfl⟩ := hunion
      exact .inr (.inl ⟨members, hkind⟩)
    · exact .inr (.inr ⟨kind, hkind, hnever, fun members h => hunion ⟨members, h⟩⟩)

theorem WellFormed.atomic_of_mem (h : cx.WellFormed) (ha : a ∈ cx.parts t) : cx.Atomic a := by
  cases hkind : cx.kind t with
  | none =>
    unfold TyCtxt.parts at ha
    rw [hkind] at ha
    cases ha
  | some kind =>
    rcases (valid_of_kind hkind).cases with hnever | ⟨members, hunion⟩ | hatomic
    · rw [parts_eq hnever] at ha
      cases ha
    · rw [parts_eq hunion] at ha
      exact (h.normal t members hunion).2.2 a ha
    · rw [hatomic.parts, List.mem_singleton] at ha
      exact ha ▸ hatomic

theorem WellFormed.parts_lt (h : cx.WellFormed) (ht : cx.Valid t) :
    (cx.parts t).Pairwise (· < ·) := by
  rcases ht.cases with hnever | ⟨members, hunion⟩ | hatomic
  · rw [parts_eq hnever]
    exact .nil
  · rw [parts_eq hunion]
    exact (h.normal t members hunion).2.1
  · rw [hatomic.parts]
    exact List.pairwise_singleton _ t

/-- The type with these variants: `mk_union` finds it, or adds it. -/
def ofParts (cx : TyCtxt) : List Ty → TyCtxt × Ty
  | [] => (cx, cx.never)
  | [t] => (cx, t)
  | variants => cx.intern (.union variants)

/-- A type is the one that is found for its variants. -/
theorem WellFormed.ofParts_parts (h : cx.WellFormed) (ht : cx.Valid t) :
    cx.ofParts (cx.parts t) = (cx, t) := by
  rcases ht.cases with hnever | ⟨members, hunion⟩ | hatomic
  · rw [parts_eq hnever, h.agrees.unique hnever h.never]
    rfl
  · rw [parts_eq hunion]
    have hlen := (h.normal t members hunion).1
    match members, hunion, hlen with
    | a :: b :: rest, hunion, _ =>
      show cx.intern (.union (a :: b :: rest)) = (cx, t)
      unfold TyCtxt.intern
      rw [h.agrees.intern_eq hunion]
  · rw [hatomic.parts]
    rfl

/-- Types with the same variants are the same. -/
theorem WellFormed.parts_injective (h : cx.WellFormed) (ha : cx.Valid a) (hb : cx.Valid b)
    (hmem : ∀ v, v ∈ cx.parts a ↔ v ∈ cx.parts b) : a = b := by
  have heq := eq_of_mem_iff (h.parts_lt ha) (h.parts_lt hb) hmem
  have hab := h.ofParts_parts ha
  rw [heq, h.ofParts_parts hb] at hab
  exact (Prod.mk.inj hab).2.symm

/-! ## Growth -/

/-- A later table has the types of this one. -/
structure Grows (cx cx' : TyCtxt) : Prop where
  keys : cx.table.keys <+: cx'.table.keys
  never : cx'.never = cx.never

theorem Grows.refl (cx : TyCtxt) : Grows cx cx := ⟨List.prefix_rfl, rfl⟩

theorem Grows.trans {cx'' : TyCtxt} (h : Grows cx cx') (h' : Grows cx' cx'') : Grows cx cx'' :=
  ⟨h.keys.trans h'.keys, h'.never.trans h.never⟩

theorem Grows.kind (h : Grows cx cx') (hkind : cx.kind t = some k) : cx'.kind t = some k := by
  unfold TyCtxt.kind at *
  obtain ⟨rest, hrest⟩ := h.keys
  rw [← hrest, List.getElem?_append_left (List.getElem?_eq_some_iff.mp hkind).1]
  exact hkind

theorem Grows.valid (h : Grows cx cx') (ht : cx.Valid t) : cx'.Valid t :=
  Nat.lt_of_lt_of_le ht h.keys.length_le

theorem Grows.parts (h : Grows cx cx') (ht : cx.Valid t) : cx'.parts t = cx.parts t := by
  obtain ⟨kind, hkind⟩ := ht.kind
  rw [parts_eq hkind, parts_eq (h.kind hkind)]

theorem Grows.atomic (h : Grows cx cx') (ht : cx.Atomic t) : cx'.Atomic t := by
  obtain ⟨kind, hkind, hne⟩ := ht
  exact ⟨kind, h.kind hkind, hne⟩

theorem Grows.intern (cx : TyCtxt) (k : TyKind) : Grows cx (cx.intern k).1 :=
  ⟨cx.table.intern_prefix k, rfl⟩

/-- A kind that is interned keeps the table well-formed, if a union has variants in order. -/
theorem WellFormed.intern (h : cx.WellFormed) (hunion : ∀ members, k = .union members →
    2 ≤ members.length ∧ members.Pairwise (· < ·) ∧ ∀ m ∈ members, cx.Atomic m) :
    (cx.intern k).1.WellFormed := by
  have hgrows := Grows.intern cx k
  refine ⟨h.agrees.intern k, hgrows.kind h.never, fun t members hkind => ?_⟩
  have hnormal : 2 ≤ members.length ∧ members.Pairwise (· < ·) ∧ ∀ m ∈ members, cx.Atomic m := by
    rcases h.agrees.of_get_intern hkind with hold | hnew
    · exact h.normal t members hold
    · exact hunion members hnew.symm
  exact ⟨hnormal.1, hnormal.2.1, fun m hm => hgrows.atomic (hnormal.2.2 m hm)⟩

/-- What the type of some variants is. -/
structure HasParts (cx : TyCtxt) (variants : List Ty) (r : TyCtxt × Ty) : Prop where
  wellFormed : r.1.WellFormed
  grows : Grows cx r.1
  valid : r.1.Valid r.2
  parts : r.1.parts r.2 = variants

theorem WellFormed.ofParts (h : cx.WellFormed) {variants : List Ty}
    (hlt : variants.Pairwise (· < ·))
    (hatomic : ∀ v ∈ variants, cx.Atomic v) : HasParts cx variants (cx.ofParts variants) := by
  match variants with
  | [] => exact ⟨h, .refl cx, valid_of_kind h.never, parts_eq h.never⟩
  | [t] =>
    have ht := hatomic t List.mem_cons_self
    exact ⟨h, .refl cx, ht.valid, ht.parts⟩
  | a :: b :: rest =>
    have hget :
        (cx.intern (.union (a :: b :: rest))).1.kind (cx.intern (.union (a :: b :: rest))).2 =
        some (.union (a :: b :: rest)) := h.agrees.get_intern _
    refine ⟨?_, .intern cx _, valid_of_kind hget, parts_eq hget⟩
    refine h.intern fun members hmembers => ?_
    cases hmembers
    exact ⟨by simp, hlt, hatomic⟩

/-! ## The loop of `mk_union` -/

/-- The turns that a type takes: a union is taken apart, and each of its members has a turn. -/
def turnsOf (cx : TyCtxt) (t : Ty) : Nat :=
  match cx.kind t with
  | some (.union members) => members.length + 1
  | _ => 1

/-- The turns that a stack takes. -/
def turns (cx : TyCtxt) : List Ty → Nat
  | [] => 0
  | m :: stack => cx.turnsOf m + cx.turns stack

theorem Atomic.turnsOf (h : cx.Atomic t) : cx.turnsOf t = 1 := by
  obtain ⟨k, hk, -, hunion⟩ := h
  unfold TyCtxt.turnsOf
  rw [hk]
  cases k with
  | union members => exact absurd rfl (hunion members)
  | _ => rfl

theorem turns_append_atomic {stack : List Ty} (h : ∀ m ∈ members, cx.Atomic m) :
    cx.turns (members ++ stack) = members.length + cx.turns stack := by
  induction members with
  | nil => exact (Nat.zero_add _).symm
  | cons m members ih =>
    obtain ⟨hm, hrest⟩ := List.forall_mem_cons.mp h
    rw [List.cons_append, TyCtxt.turns, ih hrest, hm.turnsOf, List.length_cons]
    omega

/-- What the loop finds: the variants of each type of the stack. -/
def found (cx : TyCtxt) (stack : List Ty) : List Ty := stack.flatMap fun m => (cx.parts m).reverse

theorem mem_found {v : Ty} {stack : List Ty} : v ∈ cx.found stack ↔
    ∃ m ∈ stack, v ∈ cx.parts m := by
  simp [found]

theorem found_append_atomic {stack : List Ty} (h : ∀ m ∈ members, cx.Atomic m) :
    cx.found (members ++ stack) = members ++ cx.found stack := by
  unfold found
  rw [List.flatMap_append]
  congr 1
  induction members with
  | nil => rfl
  | cons m members ih =>
    obtain ⟨hm, hrest⟩ := List.forall_mem_cons.mp h
    rw [List.flatMap_cons, ih hrest, hm.parts]
    rfl

theorem WellFormed.flatten_eq (h : cx.WellFormed) {n : Nat} {stack flat : List Ty}
    (hvalid : ∀ m ∈ stack, cx.Valid m) (hn : cx.turns stack ≤ n) :
    cx.flatten n stack flat = some (flat ++ cx.found stack) := by
  induction n generalizing stack flat with
  | zero =>
    cases stack with
    | nil => simp [TyCtxt.flatten, found]
    | cons m stack =>
      have hpos : 1 ≤ cx.turnsOf m := by
        unfold turnsOf
        split <;> omega
      rw [TyCtxt.turns] at hn
      omega
  | succ n ih =>
    cases stack with
    | nil => simp [TyCtxt.flatten, found]
    | cons m stack =>
      obtain ⟨hm, hrest⟩ := List.forall_mem_cons.mp hvalid
      rw [TyCtxt.turns] at hn
      have hfound : cx.found (m :: stack) = (cx.parts m).reverse ++ cx.found stack :=
        List.flatMap_cons
      rcases hm.cases with hnever | ⟨members, hunion⟩ | hatomic
      · have hturn : cx.flatten (n + 1) (m :: stack) flat = cx.flatten n stack flat := by
          rw [TyCtxt.flatten, hnever]
        have hone : cx.turnsOf m = 1 := by
          unfold turnsOf
          rw [hnever]
        rw [hturn, ih hrest (by omega), hfound, parts_eq hnever]
        rfl
      · have hmembers := (h.normal m members hunion).2.2
        have hreverse : ∀ v ∈ members.reverse, cx.Atomic v := fun v hv =>
          hmembers v (List.mem_reverse.mp hv)
        have hturn : cx.flatten (n + 1) (m :: stack) flat =
            cx.flatten n (members.reverse ++ stack) flat := by
          rw [TyCtxt.flatten, hunion]
        have hmore : cx.turnsOf m = members.length + 1 := by
          unfold turnsOf
          rw [hunion]
        rw [hturn, ih, found_append_atomic hreverse, hfound, parts_eq hunion]
        · rfl
        · intro v hv
          rcases List.mem_append.mp hv with hv | hv
          · exact (hreverse v hv).valid
          · exact hrest v hv
        · rw [turns_append_atomic hreverse, List.length_reverse]
          omega
      · have hturn : cx.flatten (n + 1) (m :: stack) flat = cx.flatten n stack (flat ++ [m]) := by
          obtain ⟨k, hk, hnever, hunion⟩ := hatomic
          rw [TyCtxt.flatten, hk]
          cases k with
          | never => exact absurd rfl hnever
          | union members => exact absurd rfl (hunion members)
          | _ => rfl
        have hone := hatomic.turnsOf
        rw [hturn, ih hrest (by omega), hfound, hatomic.parts, List.append_assoc]
        rfl

/-! ## Unions -/

/-- The variants of a family, in order. -/
def variantsOf (cx : TyCtxt) (members : List Ty) : List Ty := sorted (cx.found members)

theorem mem_variantsOf {v : Ty} : v ∈ cx.variantsOf members ↔ ∃ m ∈ members, v ∈ cx.parts m :=
  mem_sorted.trans mem_found

theorem flatten_mono {m n : Nat} (hle : m ≤ n) {stack flat r : List Ty}
    (h : cx.flatten m stack flat = some r) : cx.flatten n stack flat = some r := by
  induction m generalizing n stack flat with
  | zero =>
    cases stack with
    | nil => simpa [TyCtxt.flatten] using h
    | cons => cases h
  | succ m ih =>
    obtain ⟨n, rfl⟩ : ∃ n', n = n' + 1 := ⟨n - 1, by omega⟩
    have hle : m ≤ n := by omega
    cases stack with
    | nil => simpa [TyCtxt.flatten] using h
    | cons a stack =>
      rw [TyCtxt.flatten] at h ⊢
      cases hkind : cx.kind a with
      | none =>
        rw [hkind] at h
        cases h
      | some k =>
        rw [hkind] at h
        cases k <;> exact ih hle h

/-- Turns to spare change nothing. -/
theorem unites_of_mkUnion {n : Nat} (h : cx.mkUnion n members = some (cx', t)) :
    cx.Unites members cx' t := by
  refine ⟨n, fun turns hle => ?_⟩
  unfold mkUnion at h ⊢
  obtain ⟨flat, hflat, hr⟩ := Option.map_eq_some_iff.mp h
  rw [flatten_mono hle hflat, Option.map_some, hr]

theorem WellFormed.mkUnion_eq (h : cx.WellFormed) {n : Nat} (hvalid : ∀ m ∈ members, cx.Valid m)
    (hn : cx.turns members.reverse ≤ n) :
    cx.mkUnion n members = some (cx.ofParts (cx.variantsOf members)) := by
  have hfound : cx.variantsOf members = sorted (cx.found members.reverse) := by
    refine sorted_congr fun v => ?_
    rw [mem_found, mem_found]
    simp
  unfold mkUnion
  rw [h.flatten_eq (fun m hm => hvalid m (List.mem_reverse.mp hm)) hn, hfound, List.nil_append,
    Option.map_some]
  rfl

/-- `mk_union` is given enough turns, and what it gives is the type of the variants of the family.
-/
theorem WellFormed.unites_iff (h : cx.WellFormed) (hvalid : ∀ m ∈ members, cx.Valid m) :
    cx.Unites members cx' t ↔ cx.ofParts (cx.variantsOf members) = (cx', t) := by
  constructor
  · rintro ⟨n, hn⟩
    have hunion := hn (max n (cx.turns members.reverse)) (Nat.le_max_left _ _)
    rw [h.mkUnion_eq hvalid (Nat.le_max_right _ _)] at hunion
    exact Option.some.inj hunion
  · intro heq
    refine ⟨cx.turns members.reverse, fun turns hturns => ?_⟩
    rw [h.mkUnion_eq hvalid hturns, heq]

theorem WellFormed.hasParts (h : cx.WellFormed) (members : List Ty) :
    HasParts cx (cx.variantsOf members) (cx.ofParts (cx.variantsOf members)) := by
  refine h.ofParts (sorted_lt _) fun v hv => ?_
  obtain ⟨m, -, hv⟩ := mem_variantsOf.mp hv
  exact h.atomic_of_mem hv

theorem WellFormed.unites (h : cx.WellFormed) (hvalid : ∀ m ∈ members, cx.Valid m)
    (hunion : cx.Unites members cx' t) : HasParts cx (cx.variantsOf members) (cx', t) := by
  have hparts := h.hasParts members
  rwa [(h.unites_iff hvalid).mp hunion] at hparts

/-! ## Widening -/

theorem Atomic.isNever (h : cx.Atomic t) : cx.isNever t = some false := by
  obtain ⟨k, hk, hnever, -⟩ := h
  unfold TyCtxt.isNever
  rw [hk, Option.map_some, decide_eq_false hnever]

theorem allIn_eq {supVs vs : List Ty} (h : ∀ v ∈ vs, cx.Atomic v) :
    cx.allIn supVs vs = some (decide (∀ v ∈ vs, v ∈ supVs)) := by
  induction vs with
  | nil => simp [allIn]
  | cons v vs ih =>
    obtain ⟨hv, hrest⟩ := List.forall_mem_cons.mp h
    rw [allIn, hv.isNever]
    by_cases hmem : v ∈ supVs
    · simp [hmem, ih hrest]
    · simp [hmem]

/-- The variants of a type are those that it is compared by. -/
theorem Valid.variants (ht : cx.Valid t) : ∃ vs, cx.variants t = some vs ∧
    ∀ v, cx.Atomic v → (v ∈ vs ↔ v ∈ cx.parts t) := by
  rcases ht.cases with hnever | ⟨members, hunion⟩ | hatomic
  · refine ⟨[t], by rw [TyCtxt.variants, hnever]; rfl, fun v hv => ?_⟩
    rw [parts_eq hnever]
    refine iff_of_false (fun hmem => ?_) List.not_mem_nil
    obtain ⟨k, hk, hne, -⟩ := hv
    rw [List.mem_singleton.mp hmem, hnever] at hk
    exact hne (Option.some.inj hk).symm
  · refine ⟨members, by rw [TyCtxt.variants, hunion]; rfl, fun v _ => ?_⟩
    rw [parts_eq hunion]
    rfl
  · refine ⟨[t], ?_, fun v _ => by rw [hatomic.parts]⟩
    obtain ⟨k, hk, -, hunion⟩ := hatomic
    rw [TyCtxt.variants, hk]
    cases k with
    | union members => exact absurd rfl (hunion members)
    | _ => rfl

/-- One type widens to another that has its variants. -/
theorem WellFormed.isUnionSubtype_eq (h : cx.WellFormed) (ha : cx.Valid a) (hb : cx.Valid b) :
    cx.isUnionSubtype a b = some (decide (∀ v ∈ cx.parts a, v ∈ cx.parts b)) := by
  unfold isUnionSubtype
  by_cases hab : a = b
  · simp [hab]
  obtain ⟨supVs, hsup, hmem⟩ := hb.variants
  have hall : (∀ v ∈ cx.parts a, v ∈ supVs) ↔ ∀ v ∈ cx.parts a, v ∈ cx.parts b :=
    forall₂_congr fun v hv => hmem v (h.atomic_of_mem hv)
  rcases ha.cases with hnever | ⟨members, hunion⟩ | hatomic
  · have hno : cx.isNever a = some true := by
      unfold TyCtxt.isNever
      rw [hnever]
      rfl
    rw [if_neg hab, hno, parts_eq hnever]
    simp [TyKind.parts]
  · have hno : cx.isNever a = some false := by
      unfold TyCtxt.isNever
      rw [hunion]
      rfl
    have hvs : cx.variants a = some (cx.parts a) := by
      rw [TyCtxt.variants, hunion, parts_eq hunion]
      rfl
    rw [if_neg hab, hno, hsup, hvs]
    exact (allIn_eq fun v hv => h.atomic_of_mem hv).trans (by rw [decide_eq_decide.mpr hall])
  · have hvs : cx.variants a = some (cx.parts a) := by
      rw [hatomic.parts]
      obtain ⟨k, hk, -, hunion⟩ := hatomic
      rw [TyCtxt.variants, hk]
      cases k with
      | union members => exact absurd rfl (hunion members)
      | _ => rfl
    rw [if_neg hab, hatomic.isNever, hsup, hvs]
    exact (allIn_eq fun v hv => h.atomic_of_mem hv).trans (by rw [decide_eq_decide.mpr hall])

theorem WellFormed.widens_iff (h : cx.WellFormed) (ha : cx.Valid a) (hb : cx.Valid b) :
    cx.Widens a b ↔ ∀ v ∈ cx.parts a, v ∈ cx.parts b := by
  unfold Widens
  rw [h.isUnionSubtype_eq ha hb, Option.some.injEq, decide_eq_true_eq]

/-! ## Runs -/

/-- The types of a new context are no unions. -/
theorem new_atoms : ∀ k ∈ new.table.keys, ∀ members, k ≠ .union members := by
  have hintern := @Table.forall_intern TyKind _ (p := fun k => ∀ members, k ≠ .union members)
  apply Table.forall_internAll (p := fun k : TyKind => ∀ members, k ≠ .union members)
  · apply Table.forall_internAll (p := fun k : TyKind => ∀ members, k ≠ .union members)
    · iterate 7 refine hintern _ _ ?_ nofun
      exact nofun
    · simp
  · simp

theorem wellFormed_new : new.WellFormed := by
  refine ⟨?_, rfl, fun t members h => absurd rfl (new_atoms _ (List.mem_of_getElem? h) members)⟩
  exact ((((((((Table.agrees_empty.intern _).intern _).intern _).intern _).intern _).intern
    _).intern
    _).internAll _).internAll _

/-- What a call leaves. -/
theorem WellFormed.step (h : cx.WellFormed) (hstep : Step cx cx') : cx'.WellFormed ∧
    Grows cx cx' := by
  obtain ⟨c, hallowed, t, hrun⟩ := hstep
  have hintern : ∀ k, (∀ members, k ≠ .union members) →
      (cx.intern k).1.WellFormed ∧ Grows cx (cx.intern k).1 := fun k hk =>
    ⟨h.intern fun members hmembers => absurd hmembers (hk members), .intern cx k⟩
  cases c with
  | intern k =>
    cases hrun
    exact hintern k hallowed
  | named d args | ptr inner | param d | func params ret isExtern =>
    cases hrun
    exact hintern _ fun _ => nofun
  | tuple elems =>
    match elems with
    | [] | [t] =>
      cases hrun
      exact ⟨h, .refl cx⟩
    | a :: b :: rest =>
      cases hrun
      exact hintern _ fun _ => nofun
  | union turns members =>
    have hunites := h.unites hallowed (unites_of_mkUnion hrun)
    exact ⟨hunites.wellFormed, hunites.grows⟩

theorem WellFormed.later (h : cx.WellFormed) (hlater : Later cx cx') :
    cx'.WellFormed ∧ Grows cx cx' := by
  induction hlater with
  | refl => exact ⟨h, .refl cx⟩
  | tail _ hstep ih =>
    obtain ⟨hwf, hgrows⟩ := ih.1.step hstep
    exact ⟨hwf, ih.2.trans hgrows⟩

/-! ## The laws -/

theorem WellFormed.widens_of_unites (h : cx.WellFormed) (hvalid : ∀ m ∈ members, cx.Valid m)
    (hunion : cx.Unites members cx' t) {m : Ty} (hm : m ∈ members) : cx'.Widens m t := by
  have hparts := h.unites hvalid hunion
  refine (hparts.wellFormed.widens_iff (hparts.grows.valid (hvalid m hm)) hparts.valid).mpr ?_
  rw [hparts.parts, hparts.grows.parts (hvalid m hm)]
  exact fun v hv => mem_variantsOf.mpr ⟨m, hm, hv⟩

/-- A family with the same variants has the same union. -/
theorem WellFormed.unites_congr (h : cx.WellFormed) (hvalid : ∀ m ∈ members, cx.Valid m)
    (hvalid' : ∀ m ∈ members', cx.Valid m)
    (hsame : ∀ v, (∃ m ∈ members, v ∈ cx.parts m) ↔ ∃ m ∈ members', v ∈ cx.parts m)
    (hunion : cx.Unites members cx' t) : cx.Unites members' cx' t := by
  have hvariants : cx.variantsOf members' = cx.variantsOf members :=
    sorted_congr fun v => (mem_found.trans (hsame v).symm).trans mem_found.symm
  refine (h.unites_iff hvalid').mpr ?_
  rw [hvariants]
  exact (h.unites_iff hvalid).mp hunion

/-- A family whose variants are those of a type has that type for its union. -/
theorem WellFormed.unites_self (h : cx.WellFormed) (hvalid : ∀ m ∈ members, cx.Valid m)
    (ht : cx.Valid t) (hsame : ∀ v, (∃ m ∈ members, v ∈ cx.parts m) ↔ v ∈ cx.parts t) :
    cx.Unites members cx t := by
  refine (h.unites_iff hvalid).mpr ?_
  have hvariants : cx.variantsOf members = cx.parts t :=
    eq_of_mem_iff (sorted_lt _) (h.parts_lt ht) fun v => mem_variantsOf.trans (hsame v)
  rw [hvariants]
  exact h.ofParts_parts ht

theorem WellFormed.uniteEach {families : List (List Ty)} {ts : List Ty} (h : cx.WellFormed)
    (hvalid : ∀ members ∈ families, ∀ m ∈ members, cx.Valid m)
    (heach : UniteEach cx families cx' ts) :
    cx'.WellFormed ∧ Grows cx cx' ∧ (∀ t ∈ ts, cx'.Valid t) ∧
      ∀ v, (∃ t ∈ ts, v ∈ cx'.parts t) ↔ ∃ m ∈ families.flatten, v ∈ cx.parts m := by
  induction heach with
  | nil cx => exact ⟨h, .refl cx, by simp, by simp⟩
  | @cons cx cx' cx'' members families t ts hunion heach ih =>
    obtain ⟨hmembers, hrest⟩ := List.forall_mem_cons.mp hvalid
    have hparts := h.unites hmembers hunion
    obtain ⟨hwf, hgrows, hts, hsame⟩ := ih hparts.wellFormed fun members' hmem m hm =>
      hparts.grows.valid (hrest members' hmem m hm)
    have hkept : ∀ m ∈ families.flatten, cx'.parts m = cx.parts m := fun m hm => by
      obtain ⟨members', hmem, hm⟩ := List.mem_flatten.mp hm
      exact hparts.grows.parts (hrest members' hmem m hm)
    refine ⟨hwf, hparts.grows.trans hgrows, ?_, fun v => ?_⟩
    · exact List.forall_mem_cons.mpr ⟨hgrows.valid hparts.valid, hts⟩
    · have hhead : v ∈ cx''.parts t ↔ ∃ m ∈ members, v ∈ cx.parts m := by
        rw [hgrows.parts hparts.valid, hparts.parts]
        exact mem_variantsOf
      rw [List.exists_mem_cons_iff, hhead, hsame v, List.flatten_cons]
      have htail : (∃ m ∈ families.flatten, v ∈ cx'.parts m) ↔
          ∃ m ∈ families.flatten, v ∈ cx.parts m :=
        exists_congr fun m => and_congr_right fun hm => by rw [hkept m hm]
      rw [htail]
      simp only [List.mem_append, or_and_right, exists_or]

/-- The union of unions is the union of all their members. -/
theorem WellFormed.unites_flatten {cx'' : TyCtxt} {families : List (List Ty)} {ts : List Ty}
    (h : cx.WellFormed) (hvalid : ∀ members ∈ families, ∀ m ∈ members, cx.Valid m)
    (heach : UniteEach cx families cx' ts) (hunion : cx'.Unites ts cx'' t) {last : TyCtxt}
    (hlast : Later cx'' last) : last.Unites families.flatten last t := by
  obtain ⟨hwf', hgrows', hts, hsame⟩ := h.uniteEach hvalid heach
  have hparts := hwf'.unites hts hunion
  obtain ⟨hwf, hgrows⟩ := hparts.wellFormed.later hlast
  have hall := (hgrows'.trans hparts.grows).trans hgrows
  have hvalid' : ∀ m ∈ families.flatten, cx.Valid m := by
    intro m hm
    obtain ⟨members, hmem, hm⟩ := List.mem_flatten.mp hm
    exact hvalid members hmem m hm
  apply hwf.unites_self (fun m hm => hall.valid (hvalid' m hm)) (hgrows.valid hparts.valid)
  intro v
  rw [hgrows.parts hparts.valid, hparts.parts, mem_variantsOf, hsame v]
  exact exists_congr fun m => and_congr_right fun hm => by rw [hall.parts (hvalid' m hm)]

/-- What every member widens to, their union widens to. -/
theorem WellFormed.widens_least (h : cx.WellFormed) (hvalid : ∀ m ∈ members, cx.Valid m)
    (hunion : cx.Unites members cx' t) {last : TyCtxt} {u : Ty} (hlast : Later cx' last)
    (hu : last.Valid u) (hall : ∀ m ∈ members, last.Widens m u) : last.Widens t u := by
  have hparts := h.unites hvalid hunion
  obtain ⟨hwf, hgrows⟩ := hparts.wellFormed.later hlast
  have hfrom := hparts.grows.trans hgrows
  apply (hwf.widens_iff (hgrows.valid hparts.valid) hu).mpr
  intro v hv
  rw [hgrows.parts hparts.valid, hparts.parts] at hv
  obtain ⟨m, hm, hv⟩ := mem_variantsOf.mp hv
  rw [← hfrom.parts (hvalid m hm)] at hv
  exact (hwf.widens_iff (hfrom.valid (hvalid m hm)) hu).mp (hall m hm) v hv

/-- In every table that calls have built, unions are a join-semilattice. -/
theorem unions_form_a_semilattice (h : Later new cx) : cx.JoinSemilattice := by
  have hwf := (wellFormed_new.later h).1
  constructor
  case normal => exact hwf.normal
  case returns =>
    intro members hvalid
    have hunion := (hwf.unites_iff hvalid).mpr rfl
    exact ⟨_, _, hunion, (hwf.unites hvalid hunion).valid⟩
  case decides =>
    intro a b ha hb
    rw [hwf.isUnionSubtype_eq ha hb]
    rfl
  case refl =>
    intro a ha
    exact (hwf.widens_iff ha ha).mpr fun _ hv => hv
  case trans =>
    intro a b c ha hb hc hab hbc
    have hab := (hwf.widens_iff ha hb).mp hab
    have hbc := (hwf.widens_iff hb hc).mp hbc
    exact (hwf.widens_iff ha hc).mpr fun v hv => hbc v (hab v hv)
  case antisymm =>
    intro a b ha hb hab hba
    have hab := (hwf.widens_iff ha hb).mp hab
    have hba := (hwf.widens_iff hb ha).mp hba
    exact hwf.parts_injective ha hb fun v => ⟨hab v, hba v⟩
  case commutative =>
    intro members members' cx' t hvalid hperm
    apply hwf.unites_congr hvalid fun m hm => hvalid m (hperm.mem_iff.mpr hm)
    intro v
    exact exists_congr fun m => and_congr_left' hperm.mem_iff
  case idempotent =>
    intro members cx' t hvalid
    have hmem : ∀ m, m ∈ members ++ members ↔ m ∈ members := by simp
    apply hwf.unites_congr hvalid fun m hm => hvalid m ((hmem m).mp hm)
    intro v
    exact exists_congr fun m => and_congr_left' (hmem m).symm
  case single =>
    intro t ht
    apply hwf.unites_self ?_ ht
    · intro v
      simp
    · simpa using ht
  case never =>
    intro members cx' t hvalid
    have hparts := parts_eq hwf.never
    apply hwf.unites_congr hvalid (List.forall_mem_cons.mpr ⟨valid_of_kind hwf.never, hvalid⟩)
    intro v
    rw [List.exists_mem_cons_iff, hparts]
    simp [TyKind.parts]
  case associative =>
    intro families cx' ts cx'' t hvalid heach hunion last hlast
    exact hwf.unites_flatten hvalid heach hunion hlast
  case upper =>
    intro members cx' t hvalid hunion m hm
    exact hwf.widens_of_unites hvalid hunion hm
  case least =>
    intro members cx' t hvalid hunion last u hlast hu hall
    exact hwf.widens_least hvalid hunion hlast hu hall

/-- `bool | char | never` is a union of two. -/
theorem unions_form_a_semilattice_union :
    new.mkUnion 3 [0, 1, 5] = some (new.intern (.union [0, 1])) ∧
    (new.intern (.union [0, 1])).1.JoinSemilattice := by
  have hsorted : sorted [1, 0] = [0, 1] := by
    apply eq_of_mem_iff (sorted_lt _) (by decide)
    intro v
    rw [mem_sorted]
    simp [or_comm]
  have hunion : new.mkUnion 3 [0, 1, 5] = some (new.intern (.union [0, 1])) := by
    have hflat : new.flatten 3 [0, 1, 5].reverse [] = some [1, 0] := by decide
    unfold mkUnion
    rw [hflat, Option.map_some, hsorted]
  have hvalid : ∀ m ∈ [0, 1, 5], m < new.table.keys.length := by decide
  exact ⟨hunion, unions_form_a_semilattice (.single ⟨.union 3 [0, 1, 5], hvalid, _, hunion⟩)⟩

end TyCtxt

end compiler.ty
