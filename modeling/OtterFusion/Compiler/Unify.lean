-- Matching, unifying and substituting types (`ty_matches`, `unify` and `subst_ty` of the type
-- checker). A pattern matches with each of its parameters on its own; unification then keeps the
-- first type that a parameter meets.
import OtterFusion.Compiler.Types

namespace compiler.sema

/-! ## The passes -/

/-- A map from parameters to types. -/
abbrev Subst := List (DefId × Ty)

/-- `entry(d).or_insert(t)`. -/
def Subst.orInsert (map : Subst) (d : DefId) (t : Ty) : Subst :=
  if (map.lookup d).isSome then map else map ++ [(d, t)]

/-- What a parameter stands for. A parameter that is not bound stands for itself. -/
def Subst.at (map : Subst) (d : DefId) : Ty := (map.lookup d).getD (.param d)

mutual

/-- `subst_ty`, of a map that binds something. -/
def substWith (cx : TyCtxt) (map : Subst) : Ty → Ty
  | .param d => map.at d
  | .named d args => .named d (substAll cx map args)
  | .tuple elems => TyCtxt.mkTuple (substAll cx map elems)
  | .func params ret isExtern => .func (substAll cx map params) (substWith cx map ret) isExtern
  | .union variants => cx.mkUnion (substAll cx map variants)
  | .ptr inner => .ptr (substWith cx map inner)
  | .array elem len => .array (substWith cx map elem) len
  | t => t

def substAll (cx : TyCtxt) (map : Subst) : List Ty → List Ty
  | [] => []
  | t :: ts => substWith cx map t :: substAll cx map ts

end

/-- `subst_ty`. -/
def substTy (cx : TyCtxt) (map : Subst) (t : Ty) : Ty :=
  if map = [] then t else substWith cx map t

mutual

/-- `ty_matches`. -/
def tyMatches : Ty → Ty → Bool
  | .param _, _ => true
  | .named d args, .named d' args' => d == d' && tyMatchesAll args args'
  | .tuple pats, .tuple vals => tyMatchesAll pats vals
  | .ptr pat, .ptr val => tyMatches pat val
  | pat, val => pat = val

/-- Lists of one length whose types match one by one. -/
def tyMatchesAll : List Ty → List Ty → Bool
  | [], [] => true
  | pat :: pats, val :: vals => tyMatches pat val && tyMatchesAll pats vals
  | _, _ => false

end

theorem tyMatchesAll_length {pats vals : List Ty} (h : tyMatchesAll pats vals = true) :
    pats.length = vals.length := by
  induction pats generalizing vals with
  | nil => cases vals <;> simp_all [tyMatchesAll]
  | cons pat pats ih =>
    cases vals with
    | nil => simp [tyMatchesAll] at h
    | cons val vals =>
      simp only [tyMatchesAll, Bool.and_eq_true] at h
      rw [List.length_cons, List.length_cons, ih h.2]

/-- The parameter that a type is. -/
def Ty.param? : Ty → Option DefId
  | .param d => some d
  | _ => none

section unify

variable (accepts : DefId → Ty → Bool)

/-- The parameters of a union take what the other members leave. -/
def bindParams : List DefId → List Ty → Subst → Subst
  | [], _, map => map
  | d :: ds, remaining, map =>
    if (map.lookup d).isSome then bindParams ds remaining map
    else match remaining.find? (accepts d) with
      | some v => bindParams ds (remaining.erase v) (map ++ [(d, v)])
      | none => bindParams ds remaining map

mutual

/-- `unify`. A parameter of a union takes a variant that its bounds accept. -/
def unify : Ty → Ty → Subst → Subst
  | .param d, val, map => map.orInsert d val
  | .union pats, .union vals, map =>
    let r := unifyMembers pats vals map
    bindParams accepts (pats.filterMap Ty.param?) r.1 r.2
  | .named d args, .named d' args', map =>
    if d = d' ∧ args.length = args'.length then unifyAll args args' map else map
  | .tuple pats, .tuple vals, map =>
    if pats.length = vals.length then unifyAll pats vals map else map
  | .func params ret _, .func params' ret' _, map =>
    if params.length = params'.length then unify ret ret' (unifyAll params params' map) else map
  | .ptr pat, .ptr val, map => unify pat val map
  | _, _, map => map

def unifyAll : List Ty → List Ty → Subst → Subst
  | pat :: pats, val :: vals, map => unifyAll pats vals (unify pat val map)
  | _, _, map => map

/-- The members of a union that are no parameters: each takes the same variant. -/
def unifyMembers : List Ty → List Ty → Subst → List Ty × Subst
  | [], remaining, map => (remaining, map)
  | pat :: pats, remaining, map =>
    if pat.param?.isNone ∧ pat ∈ remaining then
      unifyMembers pats (remaining.erase pat) (unify pat pat map)
    else unifyMembers pats remaining map

end

end unify

/-! ## Parameters of a type -/

mutual

/-- The parameters that a type mentions. -/
def Ty.params : Ty → List DefId
  | .param d => [d]
  | .named _ args => paramsAll args
  | .tuple elems => paramsAll elems
  | .func params ret _ => paramsAll params ++ ret.params
  | .union variants => paramsAll variants
  | .ptr inner => inner.params
  | .array elem _ => elem.params
  | _ => []

def Ty.paramsAll : List Ty → List DefId
  | [] => []
  | t :: ts => t.params ++ paramsAll ts

end

theorem Ty.mem_paramsAll {d : DefId} {ts : List Ty} :
    d ∈ paramsAll ts ↔ ∃ t ∈ ts, d ∈ t.params := by
  induction ts with
  | nil => simp [paramsAll]
  | cons t ts ih => simp [paramsAll, ih]

mutual

/-- What the parameters of a pattern stand against in a type, one after another. -/
def against : Ty → Ty → List (DefId × Ty)
  | .param d, val => [(d, val)]
  | .named _ args, .named _ args' => againstAll args args'
  | .tuple pats, .tuple vals => againstAll pats vals
  | .ptr pat, .ptr val => against pat val
  | _, _ => []

def againstAll : List Ty → List Ty → List (DefId × Ty)
  | pat :: pats, val :: vals => against pat val ++ againstAll pats vals
  | _, _ => []

end

mutual

/-- The parts of a pattern and a type that are compared as wholes: those that are no parameters
and are not both applied types of one definition, tuples of one length, or pointers. -/
def wholes : Ty → Ty → List (Ty × Ty)
  | .param _, _ => []
  | .named d args, .named d' args' =>
    if d = d' ∧ args.length = args'.length then wholesAll args args'
    else [(.named d args, .named d' args')]
  | .tuple pats, .tuple vals =>
    if pats.length = vals.length then wholesAll pats vals else [(.tuple pats, .tuple vals)]
  | .ptr pat, .ptr val => wholes pat val
  | pat, val => [(pat, val)]

def wholesAll : List Ty → List Ty → List (Ty × Ty)
  | pat :: pats, val :: vals => wholes pat val ++ wholesAll pats vals
  | _, _ => []

end

mutual

/-- Where unification meets the parameters of a pattern, one after another, and whether that is
inside of a union or a function type. It does not look into arrays. -/
def Ty.meets (inside : Bool) : Ty → List (DefId × Bool)
  | .param d => [(d, inside)]
  | .named _ args => meetsAll inside args
  | .tuple elems => meetsAll inside elems
  | .func params ret _ => meetsAll true params ++ ret.meets true
  | .union variants => meetsMembers variants ++ (variants.filterMap param?).map (·, true)
  | .ptr inner => inner.meets inside
  | _ => []

def Ty.meetsAll (inside : Bool) : List Ty → List (DefId × Bool)
  | [] => []
  | t :: ts => t.meets inside ++ meetsAll inside ts

/-- The members of a union that are no parameters come first. -/
def Ty.meetsMembers : List Ty → List (DefId × Bool)
  | [] => []
  | t :: ts => (if t.param?.isNone then t.meets true else []) ++ meetsMembers ts

end

theorem substAll_length (cx : TyCtxt) (map : Subst) (ts : List Ty) :
    (substAll cx map ts).length = ts.length := by
  induction ts with
  | nil => rfl
  | cons t ts ih => rw [substAll, List.length_cons, List.length_cons, ih]

mutual

/-- A substitution depends on what the map gives only. -/
theorem substWith_congr {cx : TyCtxt} {map map' : Subst} (h : ∀ d, map.at d = map'.at d) (t : Ty) :
    substWith cx map t = substWith cx map' t := by
  cases t with
  | param d => exact h d
  | named d args => rw [substWith, substWith, substAll_congr h args]
  | tuple elems => rw [substWith, substWith, substAll_congr h elems]
  | func params ret isExtern =>
    rw [substWith, substWith, substAll_congr h params, substWith_congr h ret]
  | union variants => rw [substWith, substWith, substAll_congr h variants]
  | ptr inner => rw [substWith, substWith, substWith_congr h inner]
  | array elem len => rw [substWith, substWith, substWith_congr h elem]
  | _ => rfl

theorem substAll_congr {cx : TyCtxt} {map map' : Subst} (h : ∀ d, map.at d = map'.at d)
    (ts : List Ty) : substAll cx map ts = substAll cx map' ts := by
  cases ts with
  | nil => rfl
  | cons t ts => rw [substAll, substAll, substWith_congr h t, substAll_congr h ts]

end

/-! ### Interned maps -/

/-- A map to types that the interner built. -/
def Subst.Interned (cx : TyCtxt) (map : Subst) : Prop := ∀ b ∈ map, cx.Interned b.2

theorem Subst.Interned.at {cx : TyCtxt} {map : Subst} (h : map.Interned cx) (d : DefId) :
    cx.Interned (map.at d) := by
  unfold Subst.at
  cases hd : map.lookup d with
  | none => trivial
  | some t =>
    obtain ⟨l, l', hl, _⟩ := List.lookup_eq_some_iff.mp hd
    exact h (d, t) (by rw [hl]; simp)

theorem Subst.Interned.append {cx : TyCtxt} {map : Subst} {d : DefId} {t : Ty}
    (h : map.Interned cx) (ht : cx.Interned t) : Subst.Interned cx (map ++ [(d, t)]) := by
  intro b hb
  rcases List.mem_append.mp hb with hb | hb
  · exact h b hb
  · rw [List.mem_singleton.mp hb]
    exact ht

mutual

theorem interned_substWith {cx : TyCtxt} {map : Subst} (h : map.Interned cx) {t : Ty}
    (ht : cx.Interned t) : cx.Interned (substWith cx map t) := by
  cases t with
  | param d => exact h.at d
  | named d args => exact interned_substAll h ht
  | tuple elems => exact cx.interned_mkTuple (interned_substAll h ht.2)
  | func params ret isExtern => exact ⟨interned_substAll h ht.1, interned_substWith h ht.2⟩
  | union variants => exact cx.interned_mkUnion (interned_substAll h ht.2)
  | ptr inner =>
    have hinner : cx.Interned (substWith cx map inner) := interned_substWith h ht
    exact hinner
  | array elem len =>
    have helem : cx.Interned (substWith cx map elem) := interned_substWith h ht
    exact helem
  | _ => trivial

theorem interned_substAll {cx : TyCtxt} {map : Subst} (h : map.Interned cx) {ts : List Ty}
    (ht : cx.InternedAll ts) : cx.InternedAll (substAll cx map ts) := by
  cases ts with
  | nil => trivial
  | cons t ts => exact ⟨interned_substWith h ht.1, interned_substAll h ht.2⟩

end

theorem interned_substTy {cx : TyCtxt} {map : Subst} (h : map.Interned cx) {t : Ty}
    (ht : cx.Interned t) : cx.Interned (substTy cx map t) := by
  unfold substTy
  split
  · exact ht
  · exact interned_substWith h ht

section

variable {accepts : DefId → Ty → Bool} {cx : TyCtxt}

theorem interned_bindParams {ds : List DefId} {remaining : List Ty} {map : Subst}
    (hremaining : ∀ v ∈ remaining, cx.Interned v) (h : map.Interned cx) :
    (bindParams accepts ds remaining map).Interned cx := by
  induction ds generalizing remaining map with
  | nil => exact h
  | cons d ds ih =>
    unfold bindParams
    split
    · exact ih hremaining h
    · split
      · rename_i v hv
        refine ih (fun u hu => hremaining u (List.mem_of_mem_erase hu)) ?_
        exact h.append (hremaining v (List.mem_of_find?_eq_some hv))
      · exact ih hremaining h

mutual

theorem interned_unify (pat val : Ty) (map : Subst) (hval : cx.Interned val)
    (h : map.Interned cx) : (unify accepts pat val map).Interned cx := by
  cases pat with
  | param d =>
    have hbound : (map.orInsert d val).Interned cx := by
      unfold Subst.orInsert
      split
      · exact h
      · exact h.append hval
    cases val <;> exact hbound
  | named d args =>
    have hargs := fun vals hvals => interned_unifyAll args vals map hvals h
    cases val <;> try exact h
    rw [unify]
    split
    · exact hargs _ hval
    · exact h
  | tuple elems =>
    have helems := fun vals hvals => interned_unifyAll elems vals map hvals h
    cases val <;> try exact h
    rw [unify]
    split
    · exact helems _ hval.2
    · exact h
  | func params ret isExtern =>
    have hparams := fun vals hvals => interned_unifyAll params vals map hvals h
    have hret := fun val map' hval h' => interned_unify ret val map' hval h'
    cases val <;> try exact h
    rw [unify]
    split
    · exact hret _ _ hval.2 (hparams _ hval.1)
    · exact h
  | union variants =>
    have hmembers := fun vals hvals => interned_unifyMembers variants vals map hvals h
    cases val <;> try exact h
    have hboth := hmembers _ (cx.internedAll_iff.mp hval.2)
    exact interned_bindParams hboth.1 hboth.2
  | ptr inner =>
    have hinner := fun val hval => interned_unify inner val map hval h
    cases val <;> try exact h
    exact hinner _ hval
  | _ => cases val <;> exact h

theorem interned_unifyAll (pats vals : List Ty) (map : Subst) (hvals : cx.InternedAll vals)
    (h : map.Interned cx) : (unifyAll accepts pats vals map).Interned cx := by
  cases pats with
  | nil => exact h
  | cons pat pats =>
    cases vals with
    | nil => exact h
    | cons val vals =>
      exact interned_unifyAll pats vals _ hvals.2 (interned_unify pat val map hvals.1 h)

theorem interned_unifyMembers (pats remaining : List Ty) (map : Subst)
    (hremaining : ∀ v ∈ remaining, cx.Interned v) (h : map.Interned cx) :
    (∀ v ∈ (unifyMembers accepts pats remaining map).1, cx.Interned v) ∧
      (unifyMembers accepts pats remaining map).2.Interned cx := by
  cases pats with
  | nil => exact ⟨hremaining, h⟩
  | cons pat pats =>
    rw [unifyMembers]
    split
    · rename_i hpat
      exact interned_unifyMembers pats _ _
        (fun v hv => hremaining v (List.mem_of_mem_erase hv))
        (interned_unify pat pat map (hremaining pat hpat.2) h)
    · exact interned_unifyMembers pats _ _ hremaining h

end

end

/-! ### What a substitution makes of a pattern -/

mutual

/-- A pattern becomes a type just when each parameter stands for all that it stands against, and
each part that is compared as a whole becomes what stands in its place. -/
theorem substWith_eq_iff (cx : TyCtxt) (map : Subst) (pat val : Ty) (hin : cx.Interned pat) :
    substWith cx map pat = val ↔ (∀ b ∈ against pat val, map.at b.1 = b.2) ∧
      ∀ p ∈ wholes pat val, substWith cx map p.1 = p.2 := by
  cases pat with
  | param d =>
    have hone : against (.param d) val = [(d, val)] := by cases val <;> rfl
    have hnone : wholes (.param d) val = [] := by cases val <;> rfl
    rw [hone, hnone]
    simp [substWith]
  | named d args =>
    have hargs := fun vals => substAll_eq_iff cx map args vals hin
    cases val with
    | named d' args' =>
      rw [wholes, against]
      split
      · rename_i h
        obtain ⟨rfl, hlen⟩ := h
        rw [← hargs args' hlen, substWith]
        simp
      · rename_i h
        have hne : substWith cx map (.named d args) ≠ .named d' args' := by
          intro heq
          rw [substWith, Ty.named.injEq] at heq
          exact h ⟨heq.1, by rw [← heq.2, substAll_length]⟩
        simp [hne]
    | _ => simp [wholes, against]
  | tuple elems =>
    have helems := fun vals => substAll_eq_iff cx map elems vals hin.2
    cases val with
    | tuple vals =>
      have htuple : substWith cx map (.tuple elems) = .tuple (substAll cx map elems) := by
        rw [substWith]
        match elems, hin.1 with
        | t :: u :: ts, _ => rfl
      rw [wholes, against]
      split
      · rename_i hlen
        rw [← helems vals hlen, htuple]
        simp
      · rename_i h
        have hne : substWith cx map (.tuple elems) ≠ .tuple vals := by
          intro heq
          rw [htuple, Ty.tuple.injEq] at heq
          exact h (by rw [← heq, substAll_length])
        simp [hne]
    | _ => simp [wholes, against]
  | ptr inner =>
    have hinner := fun val => substWith_eq_iff cx map inner val hin
    cases val with
    | ptr val =>
      rw [wholes, against, ← hinner val, substWith]
      simp
    | _ => simp [wholes, against]
  | _ => cases val <;> simp [wholes, against]

theorem substAll_eq_iff (cx : TyCtxt) (map : Subst) (pats vals : List Ty)
    (hin : cx.InternedAll pats) (hlen : pats.length = vals.length) :
    substAll cx map pats = vals ↔ (∀ b ∈ againstAll pats vals, map.at b.1 = b.2) ∧
      ∀ p ∈ wholesAll pats vals, substWith cx map p.1 = p.2 := by
  cases pats with
  | nil =>
    cases vals with
    | nil => simp [substAll, againstAll, wholesAll]
    | cons => simp at hlen
  | cons pat pats =>
    cases vals with
    | nil => simp at hlen
    | cons val vals =>
      have hone := substWith_eq_iff cx map pat val hin.1
      have hrest := substAll_eq_iff cx map pats vals hin.2 (by simpa using hlen)
      rw [substAll, List.cons.injEq, hone, hrest, againstAll, wholesAll]
      simp only [List.mem_append, or_imp, forall_and]
      tauto

end

mutual

/-- A pattern matches just when each part that is compared as a whole is what stands in its
place: the match lets each occurrence of a parameter stand against any type. -/
theorem tyMatches_iff (pat val : Ty) :
    tyMatches pat val = true ↔ ∀ p ∈ wholes pat val, p.1 = p.2 := by
  cases pat with
  | param d => cases val <;> simp [tyMatches, wholes]
  | named d args =>
    have hargs := fun vals => tyMatchesAll_iff args vals
    cases val with
    | named d' args' =>
      simp only [tyMatches, Bool.and_eq_true, beq_iff_eq, wholes]
      split
      · rename_i h
        rw [hargs args' h.2]
        simp [h.1]
      · rename_i h
        refine iff_of_false (fun hm => h ⟨hm.1, tyMatchesAll_length hm.2⟩) fun hall => h ?_
        have heq : Ty.named d args = .named d' args' := hall _ (List.mem_singleton_self _)
        rw [Ty.named.injEq] at heq
        exact ⟨heq.1, by rw [heq.2]⟩
    | _ => simp [tyMatches, wholes]
  | tuple elems =>
    have helems := fun vals => tyMatchesAll_iff elems vals
    cases val with
    | tuple vals =>
      simp only [tyMatches, wholes]
      split
      · rename_i hlen
        exact helems vals hlen
      · rename_i h
        refine iff_of_false (fun hm => h (tyMatchesAll_length hm)) fun hall => h ?_
        have heq : Ty.tuple elems = .tuple vals := hall _ (List.mem_singleton_self _)
        rw [Ty.tuple.inj heq]
    | _ => simp [tyMatches, wholes]
  | ptr inner =>
    have hinner := fun val => tyMatches_iff inner val
    cases val with
    | ptr val => exact hinner val
    | _ => simp [tyMatches, wholes]
  | _ => cases val <;> simp [tyMatches, wholes]

theorem tyMatchesAll_iff (pats vals : List Ty) (hlen : pats.length = vals.length) :
    tyMatchesAll pats vals = true ↔ ∀ p ∈ wholesAll pats vals, p.1 = p.2 := by
  cases pats with
  | nil =>
    cases vals with
    | nil => simp [tyMatchesAll, wholesAll]
    | cons => simp at hlen
  | cons pat pats =>
    cases vals with
    | nil => simp at hlen
    | cons val vals =>
      have hone := tyMatches_iff pat val
      have hrest := tyMatchesAll_iff pats vals (by simpa using hlen)
      rw [tyMatchesAll, Bool.and_eq_true, hone, hrest, wholesAll]
      simp only [List.mem_append, or_imp, forall_and]

end

/-- A pattern that is compared as a whole matches itself only. -/
theorem eq_of_whole {pat val : Ty} (hwhole : wholes pat val = [(pat, val)])
    (h : tyMatches pat val = true) : pat = val :=
  (tyMatches_iff pat val).mp h (pat, val) (by rw [hwhole]; exact List.mem_singleton_self _)

/-! ### Instances -/

mutual

/-- A map that binds nothing changes nothing. -/
theorem substWith_nil {cx : TyCtxt} (t : Ty) (ht : cx.Interned t) : substWith cx [] t = t := by
  cases t with
  | param d => rfl
  | named d args => rw [substWith, substAll_nil args ht]
  | tuple elems =>
    rw [substWith, substAll_nil elems ht.2]
    match elems, ht.1 with
    | t :: u :: ts, _ => rfl
  | func params ret isExtern =>
    rw [substWith, substAll_nil params ht.1, substWith_nil ret ht.2]
  | union variants => rw [substWith, substAll_nil variants ht.2, ht.1]
  | ptr inner => rw [substWith, substWith_nil inner ht]
  | array elem len => rw [substWith, substWith_nil elem ht]
  | _ => rfl

theorem substAll_nil {cx : TyCtxt} (ts : List Ty) (ht : cx.InternedAll ts) :
    substAll cx [] ts = ts := by
  cases ts with
  | nil => rfl
  | cons t ts => rw [substAll, substWith_nil t ht.1, substAll_nil ts ht.2]

end

theorem substTy_eq {cx : TyCtxt} {t : Ty} (ht : cx.Interned t) (map : Subst) :
    substTy cx map t = substWith cx map t := by
  unfold substTy
  split
  · rename_i h
    rw [h, substWith_nil t ht]
  · rfl

/-! ### What unification adds to a map -/

/-- Two maps that bind the same parameters. -/
def Subst.Alike (map map' : Subst) : Prop := ∀ d, (map.lookup d).isSome = (map'.lookup d).isSome

/-- A pass adds bindings to a map, for all of these parameters that the map left unbound. -/
structure Adds (ds : List DefId) (map added r : Subst) : Prop where
  result : r = map ++ added
  bound : ∀ d, (r.lookup d).isSome ↔ (map.lookup d).isSome ∨ d ∈ ds
  fresh : ∀ d, (added.lookup d).isSome → map.lookup d = none

theorem Adds.none (map : Subst) : Adds [] map [] map :=
  ⟨(List.append_nil _).symm, fun d => by simp, fun d h => by simp at h⟩

theorem Adds.trans {ds ds' : List DefId} {map added r added' r' : Subst} (h : Adds ds map added r)
    (h' : Adds ds' r added' r') : Adds (ds ++ ds') map (added ++ added') r' := by
  refine ⟨?_, fun d => ?_, fun d hd => ?_⟩
  · rw [h'.result, h.result, List.append_assoc]
  · rw [h'.bound, h.bound, List.mem_append, or_assoc]
  · rw [List.lookup_append, Option.isSome_or, Bool.or_eq_true] at hd
    rcases hd with hd | hd
    · exact h.fresh d hd
    · have hnone := h'.fresh d hd
      rw [h.result, List.lookup_append, Option.or_eq_none_iff] at hnone
      exact hnone.1

/-- Maps that bind the same parameters do so after the same additions. -/
theorem Adds.alike {ds : List DefId} {map added r map' added' r' : Subst} (h : Adds ds map added r)
    (h' : Adds ds map' added' r') (hmap : map.Alike map') : r.Alike r' := by
  intro d
  rw [Bool.eq_iff_iff, h.bound, h'.bound, hmap d]

/-- What is added is bound where the pass is there to bind it. -/
theorem Adds.mem {ds : List DefId} {map added r : Subst} (h : Adds ds map added r) {d : DefId}
    (hd : (added.lookup d).isSome) : d ∈ ds := by
  have hnone := h.fresh d hd
  have hbound : (r.lookup d).isSome := by
    rw [h.result, List.lookup_append, hnone, Option.none_or]
    exact hd
  exact ((h.bound d).mp hbound).resolve_left (by simp [hnone])

theorem Adds.one {map : Subst} {d : DefId} (hd : map.lookup d = .none) (val : Ty) :
    Adds [d] map [(d, val)] (map ++ [(d, val)]) := by
  refine ⟨rfl, fun e => ?_, fun e he => ?_⟩
  · rw [List.lookup_append, Option.isSome_or, Bool.or_eq_true, List.mem_singleton]
    by_cases hed : e = d
    · simp [hed]
    · have hbeq : (e == d) = false := by simpa using hed
      simp [List.lookup_cons, hbeq, hed]
  · by_cases hed : e = d
    · rw [hed]
      exact hd
    · have hbeq : (e == d) = false := by simpa using hed
      simp [List.lookup_cons, hbeq] at he

/-- Parameters that are bound already are added trivially. -/
theorem Adds.skip {ds : List DefId} {map added r : Subst} {d : DefId} (hd : (map.lookup d).isSome)
    (h : Adds ds map added r) : Adds (d :: ds) map added r := by
  refine ⟨h.result, fun e => ?_, h.fresh⟩
  rw [h.bound, List.mem_cons]
  constructor
  · exact Or.imp_right .inr
  · rintro (he | rfl | he)
    · exact .inl he
    · exact .inl hd
    · exact .inr he

section self

variable {accepts : DefId → Ty → Bool}

/-- Among the parameters of a union each takes one that stands no later than itself. Which, does
not depend on what the map binds the others to. -/
theorem bindParams_self (hself : ∀ d, accepts d (.param d) = true)
    (ds : List DefId) (kept : List Ty) {map map' : Subst} (h : map.Alike map') : ∃ added,
      Adds ds map added (bindParams accepts ds (kept ++ ds.map .param) map) ∧
      Adds ds map' added (bindParams accepts ds (kept ++ ds.map .param) map') := by
  induction ds generalizing kept map map' with
  | nil => exact ⟨[], .none map, .none map'⟩
  | cons d ds ih =>
    have hsplit : kept ++ (d :: ds).map Ty.param = (kept ++ [.param d]) ++ ds.map .param := by
      simp
    rw [bindParams, bindParams, ← h d]
    by_cases hd : (map.lookup d).isSome
    · rw [if_pos hd, if_pos hd, hsplit]
      obtain ⟨added, hmap, hmap'⟩ := ih (kept ++ [.param d]) h
      exact ⟨added, hmap.skip hd, hmap'.skip (h d ▸ hd)⟩
    · rw [if_neg hd, if_neg hd]
      have hnone := Option.not_isSome_iff_eq_none.mp hd
      have hnone' := Option.not_isSome_iff_eq_none.mp (h d ▸ hd)
      obtain ⟨v, kept', hv, herase⟩ : ∃ v kept',
          (kept ++ (d :: ds).map Ty.param).find? (accepts d) = some v ∧
            (kept ++ (d :: ds).map Ty.param).erase v = kept' ++ ds.map .param := by
        rw [List.find?_append, List.map_cons, List.find?_cons_of_pos (hself d)]
        cases hk : kept.find? (accepts d) with
        | some v =>
          refine ⟨v, kept.erase v ++ [.param d], rfl, ?_⟩
          rw [List.erase_append_left _ (List.mem_of_find?_eq_some hk)]
          simp
        | none =>
          have hnot : Ty.param d ∉ kept := by
            intro hmem
            exact List.find?_eq_none.mp hk _ hmem (hself d)
          refine ⟨.param d, kept, rfl, ?_⟩
          rw [List.erase_append_right _ hnot, List.erase_cons_head]
      rw [hv]
      dsimp only
      rw [herase]
      have halike : Subst.Alike (map ++ [(d, v)]) (map' ++ [(d, v)]) :=
        (Adds.one hnone v).alike (.one hnone' v) h
      obtain ⟨added, hmap, hmap'⟩ := ih kept' halike
      exact ⟨[(d, v)] ++ added, (Adds.one hnone v).trans hmap, (Adds.one hnone' v).trans hmap'⟩

mutual

/-- What unifying a type with itself adds does not depend on what the map binds. -/
theorem unify_self (hself : ∀ d, accepts d (.param d) = true) (t : Ty)
    {map map' : Subst} (h : map.Alike map') : ∃ added,
    Adds ((t.meets true).map Prod.fst) map added (unify accepts t t map) ∧
    Adds ((t.meets true).map Prod.fst) map' added (unify accepts t t map') := by
  cases t with
  | param d =>
    simp only [unify, Subst.orInsert, ← h d]
    by_cases hd : (map.lookup d).isSome
    · rw [if_pos hd, if_pos hd]
      exact ⟨[], (Adds.none map).skip hd, (Adds.none map').skip (h d ▸ hd)⟩
    · rw [if_neg hd, if_neg hd]
      have hnone := Option.not_isSome_iff_eq_none.mp hd
      have hnone' := Option.not_isSome_iff_eq_none.mp (h d ▸ hd)
      exact ⟨[(d, .param d)], .one hnone _, .one hnone' _⟩
  | named d args =>
    rw [unify, unify, if_pos ⟨rfl, rfl⟩, if_pos ⟨rfl, rfl⟩]
    exact unifyAll_self hself args h
  | tuple elems =>
    rw [unify, unify, if_pos rfl, if_pos rfl]
    exact unifyAll_self hself elems h
  | func params ret isExtern =>
    rw [unify, unify, if_pos rfl, if_pos rfl, Ty.meets, List.map_append]
    obtain ⟨added, hmap, hmap'⟩ := unifyAll_self hself params h
    obtain ⟨added', hret, hret'⟩ := unify_self hself ret (hmap.alike hmap' h)
    exact ⟨added ++ added', hmap.trans hret, hmap'.trans hret'⟩
  | union variants =>
    rw [unify, unify, Ty.meets, List.map_append, List.map_map]
    have hfst : (variants.filterMap Ty.param?).map (Prod.fst ∘ (·, true)) =
        variants.filterMap Ty.param? := by simp [Function.comp_def]
    rw [hfst]
    obtain ⟨added, hfirst, hfirst', hmap, hmap'⟩ := unifyMembers_self hself variants [] (by simp) h
    obtain ⟨added', hparams, hparams'⟩ := bindParams_self hself
      (variants.filterMap Ty.param?) [] (hmap.alike hmap' h)
    rw [List.nil_append] at hfirst hfirst' hparams hparams'
    rw [hfirst, hfirst']
    exact ⟨added ++ added', hmap.trans hparams, hmap'.trans hparams'⟩
  | ptr inner =>
    rw [unify, unify]
    exact unify_self hself inner h
  | _ => exact ⟨[], .none map, .none map'⟩

theorem unifyAll_self (hself : ∀ d, accepts d (.param d) = true) (ts : List Ty)
    {map map' : Subst} (h : map.Alike map') : ∃ added,
    Adds ((Ty.meetsAll true ts).map Prod.fst) map added (unifyAll accepts ts ts map) ∧
    Adds ((Ty.meetsAll true ts).map Prod.fst) map' added (unifyAll accepts ts ts map') := by
  cases ts with
  | nil => exact ⟨[], .none map, .none map'⟩
  | cons t ts =>
    rw [unifyAll, unifyAll, Ty.meetsAll, List.map_append]
    obtain ⟨added, hmap, hmap'⟩ := unify_self hself t h
    obtain ⟨added', hrest, hrest'⟩ := unifyAll_self hself ts (hmap.alike hmap' h)
    exact ⟨added ++ added', hmap.trans hrest, hmap'.trans hrest'⟩

/-- The members that are no parameters take themselves, and the parameters are left. -/
theorem unifyMembers_self (hself : ∀ d, accepts d (.param d) = true)
    (pats pre : List Ty) (hpre : ∀ t ∈ pre, t.param?.isSome) {map map' : Subst}
    (h : map.Alike map') : ∃ added,
      (unifyMembers accepts pats (pre ++ pats) map).1
        = pre ++ (pats.filterMap Ty.param?).map .param ∧
      (unifyMembers accepts pats (pre ++ pats) map').1
        = pre ++ (pats.filterMap Ty.param?).map .param ∧
      Adds ((Ty.meetsMembers pats).map Prod.fst) map added
        (unifyMembers accepts pats (pre ++ pats) map).2 ∧
      Adds ((Ty.meetsMembers pats).map Prod.fst) map' added
        (unifyMembers accepts pats (pre ++ pats) map').2 := by
  cases pats with
  | nil => exact ⟨[], rfl, rfl, .none map, .none map'⟩
  | cons pat pats =>
    rw [unifyMembers, unifyMembers, Ty.meetsMembers]
    by_cases hpat : pat.param?.isNone
    · have hnot : pat ∉ pre := by
        intro hmem
        have hsome := hpre pat hmem
        simp [Option.isNone_iff_eq_none.mp hpat] at hsome
      have hmem : pat ∈ pre ++ pat :: pats := List.mem_append_right _ List.mem_cons_self
      rw [if_pos ⟨hpat, hmem⟩, if_pos ⟨hpat, hmem⟩, if_pos hpat,
        List.erase_append_right _ hnot, List.erase_cons_head, List.map_append,
        List.filterMap_cons_none (Option.isNone_iff_eq_none.mp hpat)]
      obtain ⟨added, hmap, hmap'⟩ := unify_self hself pat h
      obtain ⟨added', hleft, hleft', hrest, hrest'⟩ :=
        unifyMembers_self hself pats pre hpre (hmap.alike hmap' h)
      exact ⟨added ++ added', hleft, hleft', hmap.trans hrest, hmap'.trans hrest'⟩
    · have hsome : pat.param?.isSome := by simpa [Option.isSome_iff_ne_none] using hpat
      obtain ⟨d, rfl⟩ : ∃ d, pat = .param d := by
        cases pat <;> simp [Ty.param?] at hsome
        exact ⟨_, rfl⟩
      rw [if_neg fun hc => hpat hc.1, if_neg fun hc => hpat hc.1, if_neg hpat, List.nil_append]
      have hstep := unifyMembers_self hself pats (pre ++ [.param d])
        (List.forall_mem_append.mpr ⟨hpre, List.forall_mem_singleton.mpr hsome⟩) h
      rw [List.append_assoc, List.append_assoc] at hstep
      exact hstep

end

end self

/-- What unification binds, next to what the pattern would bind unified with itself: a parameter
that is first met outside of unions and function types takes what it stands against there, and
one that is first met inside takes what it takes in the pattern itself. -/
structure Splits (meets : List (DefId × Bool)) (faced added own : List (DefId × Ty)) : Prop where
  cases : ∀ d t, added.lookup d = some t →
    (meets.lookup d = some false ∧ (d, t) ∈ faced) ∨
      (meets.lookup d = some true ∧ own.lookup d = some t)

theorem Splits.trans {meets meets' : List (DefId × Bool)} {map map' : Subst}
    {faced faced' added added' own own' r r' : List (DefId × Ty)}
    (h : Splits meets faced added own) (h' : Splits meets' faced' added' own')
    (hadds : Adds (meets.map Prod.fst) map added r) (hown : Adds (meets.map Prod.fst) map' own r')
    {ds : List DefId} {s : Subst} (hadds' : Adds ds r added' s) :
    Splits (meets ++ meets') (faced ++ faced') (added ++ added') (own ++ own') := by
  refine ⟨fun d t hd => ?_⟩
  rw [List.lookup_append, Option.or_eq_some_iff] at hd
  rw [List.lookup_append, List.lookup_append]
  rcases hd with hd | ⟨_, hd⟩
  · rcases h.cases d t hd with ⟨hm, hf⟩ | ⟨hm, ho⟩
    · exact .inl ⟨by rw [hm]; rfl, List.mem_append_left _ hf⟩
    · exact .inr ⟨by rw [hm]; rfl, by rw [ho]; rfl⟩
  · have hnot : d ∉ meets.map Prod.fst := by
      intro hmem
      have hbound := (hadds.bound d).mpr (.inr hmem)
      rw [hadds'.fresh d (by rw [hd]; rfl)] at hbound
      cases hbound
    have hnone : meets.lookup d = .none := by
      rw [List.lookup_eq_none_iff]
      intro m hm
      simpa using fun he : d = m.1 => hnot (he ▸ List.mem_map_of_mem hm)
    have hnoown : own.lookup d = .none :=
      Option.not_isSome_iff_eq_none.mp fun hsome => hnot (hown.mem hsome)
    rw [hnone, hnoown]
    exact (h'.cases d t hd).imp_left fun hc => ⟨hc.1, List.mem_append_right _ hc.2⟩

theorem Splits.nil (meets : List (DefId × Bool)) (faced own : List (DefId × Ty)) :
    Splits meets faced [] own :=
  ⟨fun d t hd => by cases hd⟩

mutual

/-- Inside, all is met inside. -/
theorem meets_inside (t : Ty) : ∀ m ∈ t.meets true, m.2 = true := by
  cases t with
  | param d => exact List.forall_mem_singleton.mpr rfl
  | named d args => exact meetsAll_inside args
  | tuple elems => exact meetsAll_inside elems
  | func params ret isExtern =>
    rw [Ty.meets, List.forall_mem_append]
    exact ⟨meetsAll_inside params, meets_inside ret⟩
  | union variants =>
    rw [Ty.meets, List.forall_mem_append]
    refine ⟨meetsMembers_inside variants, fun m hm => ?_⟩
    obtain ⟨d, _, rfl⟩ := List.mem_map.mp hm
    rfl
  | ptr inner =>
    rw [Ty.meets]
    exact meets_inside inner
  | _ => exact fun m hm => by cases hm

theorem meetsAll_inside (ts : List Ty) : ∀ m ∈ Ty.meetsAll true ts, m.2 = true := by
  cases ts with
  | nil => exact fun m hm => by cases hm
  | cons t ts =>
    rw [Ty.meetsAll, List.forall_mem_append]
    exact ⟨meets_inside t, meetsAll_inside ts⟩

theorem meetsMembers_inside (ts : List Ty) : ∀ m ∈ Ty.meetsMembers ts, m.2 = true := by
  cases ts with
  | nil => exact fun m hm => by cases hm
  | cons t ts =>
    rw [Ty.meetsMembers, List.forall_mem_append]
    refine ⟨fun m hm => ?_, meetsMembers_inside ts⟩
    split at hm
    · exact meets_inside t m hm
    · cases hm

end

/-- What is met inside takes what it takes in the pattern itself. -/
theorem Splits.inside {meets : List (DefId × Bool)} (hinside : ∀ m ∈ meets, m.2 = true)
    {map added r : Subst} (h : Adds (meets.map Prod.fst) map added r)
    (faced : List (DefId × Ty)) : Splits meets faced added added := by
  refine ⟨fun d t hd => .inr ⟨?_, hd⟩⟩
  obtain ⟨m, hm, rfl⟩ := List.mem_map.mp (h.mem (by rw [hd]; rfl))
  have hsome : (meets.lookup m.1).isSome := List.lookup_isSome_iff.mpr ⟨m, hm, beq_self_eq_true _⟩
  obtain ⟨flag, hflag⟩ := Option.isSome_iff_exists.mp hsome
  obtain ⟨l, l', hl, _⟩ := List.lookup_eq_some_iff.mp hflag
  have htrue : flag = true := hinside (m.1, flag) (by rw [hl]; simp)
  rw [hflag, htrue]

section matched

variable {accepts : DefId → Ty → Bool}

mutual

/-- Unifying a pattern with a type that it matches, next to unifying it with itself. -/
theorem unify_splits (hself : ∀ d, accepts d (.param d) = true)
    (pat val : Ty) (hmatch : tyMatches pat val = true) {map map' : Subst} (h : map.Alike map') :
    ∃ added own,
      Adds ((pat.meets false).map Prod.fst) map added (unify accepts pat val map) ∧
      Adds ((pat.meets false).map Prod.fst) map' own (unify accepts pat pat map') ∧
      Splits (pat.meets false) (against pat val) added own := by
  cases pat with
  | param d =>
    have hunify : unify accepts (.param d) val map = map.orInsert d val := by cases val <;> rfl
    have hfaced : against (.param d) val = [(d, val)] := by cases val <;> rfl
    rw [hunify, hfaced]
    simp only [unify, Subst.orInsert, ← h d]
    by_cases hd : (map.lookup d).isSome
    · rw [if_pos hd, if_pos hd]
      exact ⟨[], [], (Adds.none map).skip hd, (Adds.none map').skip (h d ▸ hd), .nil _ _ _⟩
    · rw [if_neg hd, if_neg hd]
      have hnone := Option.not_isSome_iff_eq_none.mp hd
      have hnone' := Option.not_isSome_iff_eq_none.mp (h d ▸ hd)
      refine ⟨[(d, val)], [(d, .param d)], .one hnone _, .one hnone' _, ⟨fun e t he => .inl ?_⟩⟩
      obtain ⟨l, l', hl, _⟩ := List.lookup_eq_some_iff.mp he
      have hmem : (e, t) ∈ [(d, val)] := by rw [hl]; simp
      obtain ⟨rfl, rfl⟩ := Prod.mk.inj (List.mem_singleton.mp hmem)
      exact ⟨by simp [Ty.meets], hmem⟩
  | named d args =>
    have hargs := fun vals hmatch => unifyAll_splits hself args vals hmatch h
    cases val <;> simp [tyMatches] at hmatch
    obtain ⟨rfl, hmatch⟩ := hmatch
    rw [unify, unify, if_pos ⟨rfl, tyMatchesAll_length hmatch⟩, if_pos ⟨rfl, rfl⟩]
    exact hargs _ hmatch
  | tuple elems =>
    have helems := fun vals hmatch => unifyAll_splits hself elems vals hmatch h
    cases val <;> simp [tyMatches] at hmatch
    rw [unify, unify, if_pos (tyMatchesAll_length hmatch), if_pos rfl]
    exact helems _ hmatch
  | ptr inner =>
    have hinner := fun val hmatch => unify_splits hself inner val hmatch h
    cases val <;> simp [tyMatches] at hmatch
    rw [unify, unify]
    exact hinner _ hmatch
  | func params ret isExtern =>
    obtain rfl := eq_of_whole (by cases val <;> rfl) hmatch
    obtain ⟨added, hmap, hmap'⟩ := unify_self hself (.func params ret isExtern) h
    exact ⟨added, added, hmap, hmap', .inside (meets_inside _) hmap _⟩
  | union variants =>
    obtain rfl := eq_of_whole (by cases val <;> rfl) hmatch
    obtain ⟨added, hmap, hmap'⟩ := unify_self hself (.union variants) h
    exact ⟨added, added, hmap, hmap', .inside (meets_inside _) hmap _⟩
  | _ =>
    refine ⟨[], [], ?_, .none map', .nil _ _ _⟩
    cases val <;> exact .none map

theorem unifyAll_splits (hself : ∀ d, accepts d (.param d) = true)
    (pats vals : List Ty) (hmatch : tyMatchesAll pats vals = true) {map map' : Subst}
    (h : map.Alike map') : ∃ added own,
      Adds ((Ty.meetsAll false pats).map Prod.fst) map added (unifyAll accepts pats vals map) ∧
      Adds ((Ty.meetsAll false pats).map Prod.fst) map' own (unifyAll accepts pats pats map') ∧
      Splits (Ty.meetsAll false pats) (againstAll pats vals) added own := by
  cases pats with
  | nil =>
    refine ⟨[], [], ?_, .none map', .nil _ _ _⟩
    cases vals <;> exact .none map
  | cons pat pats =>
    cases vals with
    | nil => simp [tyMatchesAll] at hmatch
    | cons val vals =>
      simp only [tyMatchesAll, Bool.and_eq_true] at hmatch
      obtain ⟨added, own, hmap, hmap', hsplits⟩ := unify_splits hself pat val hmatch.1 h
      obtain ⟨added', own', hrest, hrest', hsplits'⟩ :=
        unifyAll_splits hself pats vals hmatch.2 (hmap.alike hmap' h)
      rw [unifyAll, unifyAll, Ty.meetsAll, List.map_append, againstAll]
      exact ⟨added ++ added', own ++ own', hmap.trans hrest, hmap'.trans hrest',
        hsplits.trans hsplits' hmap hmap' hrest⟩

end

/-- Unification binds just the parameters that it meets. -/
theorem unify_binds (hself : ∀ d, accepts d (.param d) = true) {pat val : Ty}
    (hmatch : tyMatches pat val = true) (d : DefId) :
    ((unify accepts pat val []).lookup d).isSome ↔ d ∈ (pat.meets false).map Prod.fst := by
  obtain ⟨_, _, hmap, _⟩ :=
    unify_splits hself pat val hmatch (fun _ => rfl : Subst.Alike [] [])
  simpa using hmap.bound d

/-- The map that unification finds makes a pattern the type just when a map does that gives the
parameters which are not first met outside what they take in the pattern itself. -/
theorem unify_instance (hself : ∀ d, accepts d (.param d) = true) {cx : TyCtxt}
    {pat val : Ty} (hin : cx.Interned pat) (hmatch : tyMatches pat val = true) :
    substTy cx (unify accepts pat val []) pat = val ↔ ∃ map, substTy cx map pat = val ∧
      ∀ d, (pat.meets false).lookup d ≠ some false →
        map.at d = (unify accepts pat pat []).at d := by
  obtain ⟨added, own, hmap, hown, hsplits⟩ :=
    unify_splits hself pat val hmatch (fun _ => rfl : Subst.Alike [] [])
  have halike := hmap.alike hown fun _ => rfl
  have hsame : ∀ d, (pat.meets false).lookup d ≠ some false →
      (unify accepts pat val []).at d = (unify accepts pat pat []).at d := by
    intro d hd
    have hbound := halike d
    rw [Subst.at, Subst.at]
    rw [hmap.result, hown.result, List.nil_append, List.nil_append] at hbound ⊢
    cases hadded : added.lookup d with
    | some t =>
      rcases hsplits.cases d t hadded with ⟨hout, _⟩ | ⟨_, hinside⟩
      · exact absurd hout hd
      · rw [hinside]
    | none =>
      have hnoown : own.lookup d = none := by
        rw [hadded] at hbound
        exact Option.not_isSome_iff_eq_none.mp (by simp [← hbound])
      rw [hnoown]
  constructor
  · exact fun heq => ⟨_, heq, hsame⟩
  · rintro ⟨map, heq, hinside⟩
    rw [substTy_eq hin] at heq ⊢
    refine (substWith_congr (fun d => ?_) pat).trans heq
    by_cases hd : (pat.meets false).lookup d = some false
    · obtain ⟨l, l', hl, _⟩ := List.lookup_eq_some_iff.mp hd
      have hmem : d ∈ (pat.meets false).map Prod.fst := by
        rw [hl]
        simp
      obtain ⟨t, ht⟩ := Option.isSome_iff_exists.mp ((hmap.bound d).mpr (.inr hmem))
      rw [Subst.at, ht]
      rw [hmap.result, List.nil_append] at ht
      rcases hsplits.cases d t ht with ⟨_, hfaced⟩ | ⟨hin', _⟩
      · exact (((substWith_eq_iff cx map pat val hin).mp heq).1 (d, t) hfaced).symm
      · rw [hd] at hin'
        cases hin'
    · exact (hsame d hd).trans (hinside d hd).symm

end matched

end compiler.sema
