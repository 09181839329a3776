-- Runtime type ids and the symbols of instances (`support.rs`). An id keeps the definition of a
-- named type and drops its arguments, and tuples, functions, arrays, raw pointers and `dynamic`
-- share one id.
import OtterFusion.Compiler.Unify

open compiler.sema

namespace backend

/-! ## Type ids -/

/-- `type_id`. -/
def typeId : Ty → Int
  | .int .i8 => 1
  | .int .i16 => 2
  | .int .i32 => 3
  | .int .i64 => 4
  | .int .u8 => 5
  | .int .u16 => 6
  | .int .u32 => 7
  | .int .u64 => 8
  | .int .isize => 9
  | .int .usize => 10
  | .float .f32 => 11
  | .float .f64 => 12
  | .bool => 13
  | .char => 14
  | .str => 15
  | .null => 16
  | .named d _ => 1000 + d
  | _ => -1

/-- `resolve_shallow`. -/
def resolveShallow (subst : Subst) : Ty → Ty
  | .param d => subst.at d
  | t => t

/-- `type_id_of`. -/
def typeIdOf (subst : Subst) (t : Ty) : Int := typeId (resolveShallow subst t)

/-- `mangle`, of a definition with its name. -/
def mangle (name : String) (d : DefId) (args : List Ty) : String :=
  args.foldl (fun s a => s ++ "_" ++ toString (typeId a)) (name ++ "$" ++ toString d)

/-! ## When ids are the same -/

/-- A type that is neither a primitive nor an instance of a definition. -/
def Anonymous : Ty → Prop
  | .int _ | .float _ | .bool | .char | .str | .null | .named _ _ => False
  | _ => True

/-- Types that differ at most in what an id drops. -/
inductive Alike : Ty → Ty → Prop
  | refl (t : Ty) : Alike t t
  | instances (d : DefId) (args args' : List Ty) : Alike (.named d args) (.named d args')
  | anonymous {t u : Ty} (ht : Anonymous t) (hu : Anonymous u) : Alike t u

theorem typeId_anonymous {t : Ty} (h : Anonymous t) : typeId t = -1 := by
  cases t with
  | int | float | bool | char | str | null | named => exact h.elim
  | _ => rfl

theorem typeId_int (it : IntTy) : typeId (.int it) = it.code + 1 := by
  cases it <;> rfl

theorem typeId_float (ft : FloatTy) : typeId (.float ft) = if ft = .f32 then 11 else 12 := by
  cases ft <;> rfl

theorem IntTy.code_lt (it : IntTy) : it.code < 10 := by
  cases it <;> decide

theorem typeId_pos {t : Ty} (h : ¬Anonymous t) : 0 < typeId t := by
  cases t with
  | int it =>
    rw [typeId_int]
    omega
  | float ft =>
    rw [typeId_float]
    split <;> omega
  | bool | char | str | null => decide
  | named d args =>
    simp only [typeId]
    omega
  | _ => exact absurd trivial h

/-- Ids tell types apart that have one of their own, up to the arguments of an instance. -/
theorem alike_of_typeId {t u : Ty} (ht : ¬Anonymous t) (hu : ¬Anonymous u)
    (h : typeId t = typeId u) : Alike t u := by
  cases t with
  | int it =>
    have hit := IntTy.code_lt it
    rw [typeId_int] at h
    cases u with
    | int it' =>
      rw [typeId_int] at h
      have hcode : it.code = it'.code := by omega
      rw [IntTy.code_injective hcode]
      exact .refl _
    | float ft =>
      rw [typeId_float] at h
      split at h <;> omega
    | bool | char | str | null | named =>
      simp only [typeId] at h
      omega
    | _ => exact absurd trivial hu
  | float ft =>
    rw [typeId_float] at h
    cases u with
    | int it =>
      have hit := IntTy.code_lt it
      rw [typeId_int] at h
      split at h <;> omega
    | float ft' =>
      cases ft <;> cases ft' <;> first | exact .refl _ | exact absurd h (by decide)
    | bool | char | str | null | named =>
      simp only [typeId] at h
      split at h <;> omega
    | _ => exact absurd trivial hu
  | bool | char | str | null =>
    cases u with
    | int it =>
      have hit := IntTy.code_lt it
      rw [typeId_int] at h
      simp only [typeId] at h
      omega
    | float ft =>
      rw [typeId_float] at h
      simp only [typeId] at h
      split at h <;> omega
    | bool | char | str | null => first | exact .refl _ | exact absurd h (by decide)
    | named d args =>
      simp only [typeId] at h
      omega
    | _ => exact absurd trivial hu
  | named d args =>
    cases u with
    | int it =>
      have hit := IntTy.code_lt it
      rw [typeId_int] at h
      simp only [typeId] at h
      omega
    | float ft =>
      rw [typeId_float] at h
      simp only [typeId] at h
      split at h <;> omega
    | bool | char | str | null =>
      simp only [typeId] at h
      omega
    | named d' args' =>
      simp only [typeId] at h
      have hd : d = d' := Int.ofNat.inj (Int.add_left_cancel h)
      rw [hd]
      exact .instances d' args args'
    | _ => exact absurd trivial hu
  | _ => exact absurd trivial ht

theorem typeId_eq_iff {t u : Ty} : typeId t = typeId u ↔ Alike t u := by
  constructor
  · intro h
    by_cases ht : Anonymous t
    · by_cases hu : Anonymous u
      · exact .anonymous ht hu
      · have hpos := typeId_pos hu
        rw [← h, typeId_anonymous ht] at hpos
        omega
    · by_cases hu : Anonymous u
      · have hpos := typeId_pos ht
        rw [h, typeId_anonymous hu] at hpos
        omega
      · exact alike_of_typeId ht hu h
  · intro h
    cases h with
    | refl => rfl
    | instances => rfl
    | anonymous ht hu => rw [typeId_anonymous ht, typeId_anonymous hu]

/-! ### Ids of instantiated types -/

/-- The variants of an interned type are no unions. -/
theorem not_union_of_variants {cx : TyCtxt} {t v : Ty} (ht : cx.Interned t) (hv : v ∈ t.variants)
    (variants : List Ty) : v ≠ .union variants := by
  rintro rfl
  cases t with
  | union members =>
    have hflat : Ty.union variants ∈ (cx.mkUnion members).flatten ∨
        cx.canonical (Ty.flattenAll members) = members := by
      have h := ht.1
      unfold TyCtxt.mkUnion at h
      split at h
      · cases h
      · rename_i u heq
        have hatomic : u.Atomic :=
          Ty.flattenAll_atomic (cx.mem_canonical.mp (heq ▸ List.mem_cons_self))
        rw [h] at hatomic
        exact hatomic.elim
      · exact .inr (Ty.union.inj h)
    rcases hflat with hflat | hflat
    · rcases cx.mem_flatten_mkUnion.mp hflat with ⟨u, _, hu⟩
      exact Ty.flatten_atomic hu
    · change Ty.union variants ∈ members at hv
      rw [← hflat] at hv
      exact Ty.flattenAll_atomic (cx.mem_canonical.mp hv)
  | _ => cases List.mem_singleton.mp hv

theorem interned_of_variants {cx : TyCtxt} {t v : Ty} (ht : cx.Interned t)
    (hv : v ∈ t.variants) : cx.Interned v := by
  cases t with
  | union members => exact (cx.internedAll_iff).mp ht.2 v hv
  | _ =>
    rw [List.mem_singleton.mp hv]
    exact ht

theorem substAll_length (cx : TyCtxt) (map : Subst) (ts : List Ty) :
    (substAll cx map ts).length = ts.length := by
  induction ts with
  | nil => rfl
  | cons t ts ih => rw [substAll, List.length_cons, List.length_cons, ih]

/-- The id of a variant is the id of its instance: instantiation keeps the head of a type. -/
theorem typeIdOf_eq {cx : TyCtxt} (subst : Subst) {t v : Ty} (ht : cx.Interned t)
    (hv : v ∈ t.variants) : typeIdOf subst v = typeId (substTy cx subst v) := by
  have hinterned := interned_of_variants ht hv
  have hunion := not_union_of_variants ht hv
  unfold typeIdOf substTy
  split
  · rename_i hnil
    subst hnil
    cases v <;> rfl
  · cases v with
    | union variants => exact absurd rfl (hunion variants)
    | tuple elems =>
      have hlen : 2 ≤ (substAll cx subst elems).length := by
        rw [substAll_length]
        exact hinterned.1
      rw [substWith]
      match substAll cx subst elems, hlen with
      | _ :: _ :: _, _ => rfl
    | _ => rfl

/-! ## Symbols of instances -/

/-- The characters that the ids of the arguments add to a symbol. -/
def suffix : List Int → List Char
  | [] => []
  | id :: ids => '_' :: ((toString id).toList ++ suffix ids)

theorem foldl_toList (s : String) (args : List Ty) :
    (args.foldl (fun s a => s ++ "_" ++ toString (typeId a)) s).toList =
      s.toList ++ suffix (args.map typeId) := by
  induction args generalizing s with
  | nil => simp [suffix]
  | cons a args ih =>
    rw [List.foldl_cons, ih]
    simp [suffix]

theorem toList_ofNat (n : Nat) : (toString (Int.ofNat n)).toList = Nat.toDigits 10 n :=
  Nat.toList_repr

theorem toList_negSucc (n : Nat) :
    (toString (Int.negSucc n)).toList = '-' :: Nat.toDigits 10 (n + 1) := by
  change ("-" ++ Nat.repr (n + 1)).toList = _
  rw [String.toList_append, Nat.toList_repr]
  rfl

theorem underscore_not_in_id (id : Int) : '_' ∉ (toString id).toList := by
  cases id with
  | ofNat n =>
    rw [toList_ofNat]
    exact Nat.underscore_not_in_toDigits
  | negSucc n =>
    rw [toList_negSucc, List.mem_cons]
    rintro (h | h)
    · cases h
    · exact Nat.underscore_not_in_toDigits h

theorem toDigits_injective {m n : Nat} (h : Nat.toDigits 10 m = Nat.toDigits 10 n) : m = n := by
  have hread := congrArg (fun digits => Nat.ofDigitChars 10 digits 0) h
  simpa only [Nat.ofDigitChars_ten_toDigits] using hread

theorem minus_not_in_toDigits (n : Nat) : '-' ∉ Nat.toDigits 10 n := by
  intro h
  have hdigit := Nat.isDigit_of_mem_toDigits (by omega) (Nat.le_refl 10) h
  cases hdigit

theorem toString_id_injective {i j : Int} (h : (toString i).toList = (toString j).toList) :
    i = j := by
  cases i with
  | ofNat m =>
    rw [toList_ofNat] at h
    cases j with
    | ofNat n =>
      rw [toList_ofNat] at h
      rw [toDigits_injective h]
    | negSucc n =>
      rw [toList_negSucc] at h
      exact absurd (h ▸ List.mem_cons_self) (minus_not_in_toDigits m)
  | negSucc m =>
    rw [toList_negSucc] at h
    cases j with
    | ofNat n =>
      rw [toList_ofNat] at h
      exact absurd (h ▸ List.mem_cons_self) (minus_not_in_toDigits n)
    | negSucc n =>
      rw [toList_negSucc] at h
      have hsucc := toDigits_injective (List.cons.inj h).2
      rw [Nat.succ.inj hsucc]

/-- The underscores cut a suffix into its ids. -/
theorem suffix_injective {ids ids' : List Int} (h : suffix ids = suffix ids') : ids = ids' := by
  have hhead : ∀ (ids : List Int) (c : Char), (suffix ids).head? = some c → c = '_' := by
    intro ids c hc
    cases ids with
    | nil => cases hc
    | cons id ids => exact (Option.some.inj hc).symm
  induction ids generalizing ids' with
  | nil =>
    cases ids' with
    | nil => rfl
    | cons id ids' => cases h
  | cons i ids ih =>
    cases ids' with
    | nil => cases h
    | cons j ids' =>
      have htail := (List.cons.inj h).2
      have hcut : ∀ (id : Int) (ids : List Int),
          ((toString id).toList ++ suffix ids).takeWhile (· ≠ '_') = (toString id).toList ∧
          ((toString id).toList ++ suffix ids).dropWhile (· ≠ '_') = suffix ids := by
        intro id ids
        have hall : ∀ c ∈ (toString id).toList, decide (c ≠ '_') = true := by
          intro c hc
          simp only [decide_eq_true_eq]
          rintro rfl
          exact underscore_not_in_id id hc
        rw [List.takeWhile_append_of_pos hall, List.dropWhile_append_of_pos hall]
        cases hids : suffix ids with
        | nil => simp
        | cons c cs =>
          have hc : c = '_' := hhead ids c (by rw [hids]; rfl)
          simp [hc]
      have htake := (hcut i ids).1
      have hdrop := (hcut i ids).2
      rw [htail] at htake hdrop
      rw [(hcut j ids').1] at htake
      rw [(hcut j ids').2] at hdrop
      rw [toString_id_injective htake.symm, ih hdrop.symm]

/-- Two instances share a symbol exactly when their arguments are alike one by one. -/
theorem mangle_eq_iff {name : String} {d : DefId} {args args' : List Ty} :
    mangle name d args = mangle name d args' ↔ List.Forall₂ Alike args args' := by
  have hids : mangle name d args = mangle name d args' ↔ args.map typeId = args'.map typeId := by
    constructor
    · intro h
      have hlist := congrArg String.toList h
      unfold mangle at hlist
      rw [foldl_toList, foldl_toList] at hlist
      exact suffix_injective (List.append_cancel_left hlist)
    · intro h
      apply String.toList_injective
      unfold mangle
      rw [foldl_toList, foldl_toList, h]
  rw [hids]
  clear hids
  induction args generalizing args' with
  | nil => cases args' <;> simp
  | cons a args ih =>
    cases args' with
    | nil => simp
    | cons a' args' =>
      rw [List.map_cons, List.map_cons, List.cons_eq_cons, List.forall₂_cons, typeId_eq_iff]
      exact and_congr_right fun _ => ih

end backend
