-- The derived methods are coherent (`derive.rs`): `eq` is equality field by field, `lt` is the
-- lexicographic order of the fields, the other comparisons follow from them, and equal values have
-- equal hashes.
import OtterFusion.Compiler.DerivedChecks

open base.ordering base.equality

namespace compiler.sema.derive

open compiler.ast Methods

/-! ## What is built -/

/-- What is built is of a kind, whatever spans it gets. -/
def Builds {A : Type} (m : Fresh A) (p : A → Prop) : Prop := ∀ n, p (m n).1

section Builds

variable {A B : Type} {m : Fresh A} {p p' : A → Prop} {q : B → Prop}

theorem Builds.pure {a : A} (h : p a) : Builds (pure a) p := fun _ => h

theorem Builds.bind {f : A → Fresh B} (h : Builds m p) (hf : ∀ a, p a → Builds (f a) q) :
    Builds (m >>= f) q := fun n => hf _ (h n) _

/-- What is built first does not matter. -/
theorem Builds.after {f : A → Fresh B} (hf : ∀ a, Builds (f a) q) : Builds (m >>= f) q :=
  fun _ => hf _ _

theorem Builds.mono (h : Builds m p) (himp : ∀ a, p a → p' a) : Builds m p' := fun n => himp _ (h n)

end Builds

section Nodes

variable {Val : Nat → Type} {P : Methods Val} {other : Bool} {s : StructItem}

/-- An expression is built that has a kind under a condition, and then these values. -/
def BuildsTyped (P : Methods Val) (other : Bool) (m : Fresh Expr) (k : Kind) (c : Prop)
    (v : Instance Val → Instance Val → Value Val) : Prop :=
  Builds m fun e => P.Typed other e k c v

theorem selfExpr_builds : BuildsTyped P other selfExpr .inst True fun a _ => .inst a :=
  fun _ => typed_self

theorem other_builds : BuildsTyped P true (identExpr "other") .inst True fun _ b => .inst b :=
  fun _ => typed_other

/-- The fields that there are can be read by what the block calls them. -/
theorem fieldAt_builds {base : Expr} {a : Instance Val → Instance Val → Instance Val} {i : Nat}
    (hi : i < P.kind.fieldCount) (h : P.Typed other base .inst True fun x y => .inst (a x y)) :
    BuildsTyped P other (fieldAt P.kind base i) (.field (P.kind.slot i)) True
      fun x y => .field _ (a x y (P.kind.slot i)) := by
  unfold fieldAt StructKind.slot
  cases hkind : P.kind with
  | unit =>
    rw [hkind] at hi
    cases hi
  | tuple fields =>
    rw [hkind] at hi
    exact fun _ => typed_index hkind hi h
  | record fields =>
    rw [hkind] at hi
    have hmem : StructKind.fieldName (.record fields) i ∈ fields := by
      unfold StructKind.fieldName
      dsimp only
      rw [List.getD_eq_getElem?_getD, List.getElem?_eq_getElem hi, Option.getD_some]
      exact List.getElem_mem hi
    exact fun _ => typed_field hkind hmem h

theorem selfField_builds (hkind : P.kind = s.kind) {i : Nat} (hi : i < s.kind.fieldCount) :
    BuildsTyped P other (selfField s i) (.field (s.kind.slot i)) True
      fun a _ => .field _ (a (s.kind.slot i)) := by
  rw [← hkind] at hi ⊢
  unfold selfField
  rw [← hkind]
  exact Builds.bind selfExpr_builds fun e he => fieldAt_builds hi he

theorem otherField_builds (hkind : P.kind = s.kind) {i : Nat} (hi : i < s.kind.fieldCount) :
    BuildsTyped P true (otherField s i) (.field (s.kind.slot i)) True
      fun _ b => .field _ (b (s.kind.slot i)) := by
  rw [← hkind] at hi ⊢
  unfold otherField
  rw [← hkind]
  exact Builds.bind other_builds fun e he => fieldAt_builds hi he

/-- The test of a field. -/
theorem fieldTest_builds (t : Test) (hkind : P.kind = s.kind) {i : Nat}
    (hi : i < s.kind.fieldCount) (generic : Bool) :
    BuildsTyped P true (fieldTest t.op t.method s i generic) .bool
      (t.applies generic (P.ops (s.kind.slot i)).type = true) fun a b => .bool
        (t.of (P.ops (s.kind.slot i)).toComparison (a (s.kind.slot i)) (b (s.kind.slot i))) := by
  refine Builds.bind (p := fun e => P.Typed true e _ True _) (selfField_builds hkind hi)
    fun left hleft =>
    Builds.bind (otherField_builds hkind hi) fun right hright => ?_
  cases generic with
  | true => exact fun _ => typed_method t hleft hright
  | false => exact fun _ => typed_operator t hleft hright

/-- One after the other, a list of tests. -/
theorem conjoin_builds {I : Type} (ms : I → Fresh Expr) (cs : I → Prop)
    (p : I → Instance Val → Instance Val → Bool) (is : List I)
    (h : ∀ i ∈ is, BuildsTyped P other (ms i) .bool (cs i) fun a b => .bool (p i a b)) :
    BuildsTyped P other (conjoin (is.map ms)) .bool (∀ i ∈ is, cs i)
      fun a b => .bool (is.all fun i => p i a b) := by
  have hfold : ∀ (is : List I) (e : Expr) (c : Prop) (q : Instance Val → Instance Val → Bool),
      P.Typed other e .bool c (fun a b => .bool (q a b)) →
      (∀ i ∈ is, BuildsTyped P other (ms i) .bool (cs i) fun a b => .bool (p i a b)) →
      BuildsTyped P other ((is.map ms).foldlM (fun acc p => do binary .and acc (← p)) e) .bool
        (c ∧ ∀ i ∈ is, cs i) fun a b => .bool (q a b && is.all fun i => p i a b) := by
    intro is
    induction is with
    | nil =>
      intro e c q he _
      simp only [List.all_nil, Bool.and_true]
      exact Builds.pure (he.congr (by simp))
    | cons i is ih =>
      intro e c q he his
      obtain ⟨hi, his⟩ := List.forall_mem_cons.mp his
      simp only [List.all_cons, ← Bool.and_assoc]
      rw [List.map_cons, List.foldlM_cons]
      refine Builds.bind (p := fun e => P.Typed other e .bool (c ∧ cs i)
        fun a b => .bool (q a b && p i a b)) ?_ fun e' he' => ?_
      · exact Builds.bind hi fun e' he' _ => typed_and he he'
      · exact (ih e' _ _ he' his).mono fun _ he => he.congr (by simp [and_assoc])
  cases is with
  | nil => exact fun _ => (typed_bool true).congr (by simp)
  | cons i is =>
    obtain ⟨hi, his⟩ := List.forall_mem_cons.mp h
    refine Builds.bind hi fun e he => ?_
    exact (hfold is e _ _ he his).mono fun _ he => he.congr (by simp)

/-! ## The comparison -/

/-- The comparison of a field, as a comparison of structs. -/
def fieldComparison (kind : StructKind) (ops : ∀ i, FieldOps (Val i)) (i : Nat) :
    Comparison (Instance Val) :=
  (ops (kind.slot i)).toComparison.on fun a => a (kind.slot i)

/-- The comparisons of the fields, in the order of the declaration. -/
def fieldComparisons (kind : StructKind) (ops : ∀ i, FieldOps (Val i)) :
    List (Comparison (Instance Val)) :=
  (List.range kind.fieldCount).map (fieldComparison kind ops)

/-- Field by field, in the order of the declaration. -/
def fieldwise (kind : StructKind) (ops : ∀ i, FieldOps (Val i)) : Comparison (Instance Val) :=
  .lexicographic (fieldComparisons kind ops)

/-- The hashes of the fields together. -/
def fieldHash (kind : StructKind) (ops : ∀ i, FieldOps (Val i)) (a : Instance Val) : BitVec 64 :=
  (List.range kind.fieldCount).foldl
    (fun acc i => acc ^^^ (ops (kind.slot i)).hash (a (kind.slot i))) 0#64

/-- A test applies to every field: its operator to those of a struct without parameters, its method
to those of a generic one. -/
def TestsAll (t : Test) (s : StructItem) (ops : ∀ i, FieldOps (Val i)) : Prop :=
  ∀ i < s.kind.fieldCount, t.applies s.generics.isSome (ops (s.kind.slot i)).type = true

/-- The type of every field answers `hash`. -/
def HashesAll (s : StructItem) (ops : ∀ i, FieldOps (Val i)) : Prop :=
  ∀ i < s.kind.fieldCount, (ops (s.kind.slot i)).type.answers "hash" = true

theorem fieldEqs_builds (hkind : P.kind = s.kind) :
    BuildsTyped P true
      (conjoin ((List.range s.kind.fieldCount).map fun i => fieldEq s i s.generics.isSome)) .bool
      (TestsAll .eq s P.ops) fun a b => .bool ((fieldwise s.kind P.ops).eq a b) := by
  have hall : ∀ a b, (fieldwise s.kind P.ops).eq a b = (List.range s.kind.fieldCount).all fun i =>
      (P.ops (s.kind.slot i)).eq (a (s.kind.slot i)) (b (s.kind.slot i)) := by
    intro a b
    rw [Bool.eq_iff_iff, fieldwise, Comparison.lexicographic_eq, List.all_eq_true, fieldComparisons,
      List.forall_mem_map]
    rfl
  simp only [hall]
  refine (conjoin_builds _ _ _ _ fun i hi =>
    fieldTest_builds .eq hkind (List.mem_range.mp hi) _).mono fun e he => he.congr ?_
  simp [TestsAll]

/-- The tests that the recursion needs from a field on: `lt` of each, and `eq` of all but the last.
-/
def TestsFrom (s : StructItem) (ops : ∀ i, FieldOps (Val i)) (i : Nat) : Prop :=
  (∀ j < s.kind.fieldCount, i ≤ j →
    Test.lt.applies s.generics.isSome (ops (s.kind.slot j)).type = true) ∧
  ∀ j < s.kind.fieldCount, i ≤ j → j + 1 ≠ s.kind.fieldCount →
    Test.eq.applies s.generics.isSome (ops (s.kind.slot j)).type = true

/-- A field with the rest after it. -/
theorem forall_from_iff {p : Nat → Prop} {i n : Nat} (hi : i < n) :
    (∀ j < n, i ≤ j → p j) ↔ p i ∧ ∀ j < n, i + 1 ≤ j → p j := by
  constructor
  · exact fun h => ⟨h i hi le_rfl, fun j hj hij => h j hj (by omega)⟩
  · rintro ⟨hp, hrest⟩ j hj hij
    rcases hij.eq_or_lt with rfl | hlt
    · exact hp
    · exact hrest j hj hlt

/-- The recursion over the fields is the lexicographic order of those that are left. -/
theorem lexLt_builds (hkind : P.kind = s.kind) (i : Nat) :
    BuildsTyped P true (lexLt s i s.kind.fieldCount s.generics.isSome) .bool (TestsFrom s P.ops i)
      fun a b => .bool
        ((Comparison.lexicographic ((fieldComparisons s.kind P.ops).drop i)).lt a b) := by
  have hlength : (fieldComparisons s.kind P.ops).length = s.kind.fieldCount := by
    simp [fieldComparisons]
  induction hleft : s.kind.fieldCount - i generalizing i with
  | zero =>
    have hi : i ≥ s.kind.fieldCount := by omega
    rw [lexLt, dif_pos hi, List.drop_eq_nil_of_le (hlength.trans_le hi)]
    refine fun _ => (typed_bool false).congr ((iff_of_true trivial) ?_)
    exact ⟨fun j hj hij => by omega, fun j hj hij => by omega⟩
  | succ n ih =>
    have hi : i < s.kind.fieldCount := by omega
    have hdrop : (fieldComparisons s.kind P.ops).drop i =
        fieldComparison s.kind P.ops i :: (fieldComparisons s.kind P.ops).drop (i + 1) := by
      rw [List.drop_eq_getElem_cons (hlength ▸ hi)]
      simp [fieldComparisons]
    rw [lexLt, dif_neg (by omega), hdrop]
    refine Builds.bind (fieldTest_builds .lt hkind hi _) fun lt hlt => ?_
    by_cases hlast : i + 1 = s.kind.fieldCount
    · rw [if_pos hlast, List.drop_eq_nil_of_le (hlength.trans hlast.symm).le]
      refine Builds.pure ?_
      have hnone : ∀ a b, (Comparison.lexicographic [fieldComparison s.kind P.ops i]).lt a b =
          (fieldComparison s.kind P.ops i).lt a b := by
        simp [Comparison.lexicographic, Comparison.andThen, Comparison.trivial]
      simp only [hnone]
      refine hlt.congr ⟨fun h => ⟨fun j hj hij => ?_, fun j hj hij hne => by omega⟩,
        fun h => h.1 i hi le_rfl⟩
      have : j = i := by omega
      exact this ▸ h
    · rw [if_neg hlast]
      refine Builds.bind (fieldTest_builds .eq hkind hi _) fun eq heq => ?_
      refine Builds.bind (ih (i + 1) (by omega)) fun rest hrest => ?_
      refine Builds.bind (p := fun e => P.Typed true e .bool _ _) (fun _ => typed_and heq hrest)
        fun both hboth => ?_
      refine fun _ => (typed_or hlt hboth).congr ?_
      rw [TestsFrom, TestsFrom, forall_from_iff hi, forall_from_iff hi]
      constructor
      · rintro ⟨hlt, heq, hlts, heqs⟩
        exact ⟨⟨hlt, hlts⟩, fun _ => heq, heqs⟩
      · rintro ⟨⟨hlt, hlts⟩, heq, heqs⟩
        exact ⟨hlt, heq hlast, hlts, heqs⟩

/-- The hashes of the fields are taken together. -/
theorem fieldHashes_builds (hkind : P.kind = s.kind) :
    BuildsTyped P other (hashFields s (List.range s.kind.fieldCount)) .word (HashesAll s P.ops)
      fun a _ => .word (fieldHash s.kind P.ops a) := by
  have hcall : ∀ i < s.kind.fieldCount, BuildsTyped P other (fieldCall s "hash" i) .word
      ((P.ops (s.kind.slot i)).type.answers "hash" = true)
      fun a _ => .word ((P.ops (s.kind.slot i)).hash (a (s.kind.slot i))) :=
    fun i hi => Builds.bind (selfField_builds hkind hi) fun e he _ => typed_hash he
  have hfold : ∀ (is : List Nat) (e : Expr) (c : Prop) (w : Instance Val → BitVec 64),
      (∀ i ∈ is, i < s.kind.fieldCount) → P.Typed other e .word c (fun a _ => .word (w a)) →
      BuildsTyped P other
        (is.foldlM (fun acc i => do binary .bitXor acc (← fieldCall s "hash" i)) e) .word
        (c ∧ ∀ i ∈ is, (P.ops (s.kind.slot i)).type.answers "hash" = true) fun a _ => .word
          (is.foldl (fun acc i => acc ^^^ (P.ops (s.kind.slot i)).hash (a (s.kind.slot i)))
            (w a)) := by
    intro is
    induction is with
    | nil => exact fun e c w _ he => Builds.pure (he.congr (by simp))
    | cons i is ih =>
      intro e c w his he
      obtain ⟨hi, his⟩ := List.forall_mem_cons.mp his
      simp only [List.foldl_cons]
      rw [List.foldlM_cons]
      refine Builds.bind (p := fun e => P.Typed other e .word _ _)
        (Builds.bind (hcall i hi) fun e' he' _ => typed_xor he he') fun e' he' => ?_
      exact (ih e' _ _ his he').mono fun _ he => he.congr (by simp [and_assoc])
  have hrange : ∀ i ∈ List.range s.kind.fieldCount, i < s.kind.fieldCount :=
    fun i hi => List.mem_range.mp hi
  have hall : HashesAll s P.ops ↔ ∀ i ∈ List.range s.kind.fieldCount,
      (P.ops (s.kind.slot i)).type.answers "hash" = true := by
    simp [HashesAll]
  have hzero : readU64 (toString 0 ++ "u64") = some 0#64 := by decide
  unfold fieldHash
  cases hr : List.range s.kind.fieldCount with
  | nil => exact fun _ => (typed_u64 hzero).congr (by rw [hall, hr]; simp)
  | cons i is =>
    rw [hr] at hrange
    obtain ⟨hi, his⟩ := List.forall_mem_cons.mp hrange
    simp only [List.foldl_cons, BitVec.zero_xor]
    refine Builds.bind (hcall i hi) fun e he => ?_
    refine (hfold is e _ _ his he).mono fun _ he => he.congr ?_
    rw [hall, hr, List.forall_mem_cons]

end Nodes

/-! ## The methods -/

section Methods

variable (Val : Nat → Type) {s : StructItem} {ty : String}

/-- A method of this name and type, whose body is an expression of a kind. -/
def IsMethod (name ret : String) (p : Expr → Prop) (f : FunctionItem) : Prop :=
  f.name = name ∧ f.returnType = some ret ∧ ∃ e, f.body = some (.mk [] (some e)) ∧ p e

theorem cmpMethod_builds {name : String} {body : Expr} {p : Expr → Prop} (h : p body) :
    Builds (cmpMethod name ty body) (IsMethod name "bool" p) := fun _ => ⟨rfl, rfl, body, rfl, h⟩

/-- The body of a comparison, in whatever block the method is. -/
def EqBody (Val : Nat → Type) (s : StructItem) (e : Expr) : Prop :=
  ∀ (P : Methods Val), P.kind = s.kind → P.Typed true e .bool (TestsAll .eq s P.ops)
    fun a b => .bool ((fieldwise s.kind P.ops).eq a b)

def LtBody (Val : Nat → Type) (s : StructItem) (e : Expr) : Prop :=
  ∀ (P : Methods Val), P.kind = s.kind → P.Typed true e .bool (TestsFrom s P.ops 0)
    fun a b => .bool ((fieldwise s.kind P.ops).lt a b)

def LeBody (Val : Nat → Type) (e : Expr) : Prop :=
  ∀ (P : Methods Val) (lt eq : Instance Val → Instance Val → Bool), P.Computes "lt" lt →
    P.Computes "eq" eq → P.Typed true e .bool True fun a b => .bool (lt a b || eq a b)

def NotBody (Val : Nat → Type) (name : String) (e : Expr) : Prop :=
  ∀ (P : Methods Val) (f : Instance Val → Instance Val → Bool), P.Computes name f →
    P.Typed true e .bool True fun a b => .bool !f a b

def HashBody (Val : Nat → Type) (s : StructItem) (e : Expr) : Prop :=
  ∀ (P : Methods Val), P.kind = s.kind → P.Typed false e .word (HashesAll s P.ops)
    fun a _ => .word (fieldHash s.kind P.ops a)

theorem synthEq_builds :
    Builds (synthEq s s.generics.isSome ty) (IsMethod "eq" "bool" (EqBody Val s)) := by
  refine Builds.bind (p := EqBody Val s) (fun n P hkind => ?_) fun e he => cmpMethod_builds he
  exact fieldEqs_builds hkind n

theorem synthLt_builds :
    Builds (synthLt s s.generics.isSome ty) (IsMethod "lt" "bool" (LtBody Val s)) := by
  refine Builds.bind (p := LtBody Val s) (fun n P hkind => ?_) fun e he => cmpMethod_builds he
  exact lexLt_builds hkind 0 n

/-- A call on `self` and `other` is what the method computes. -/
theorem selfCall_builds (name : String) : Builds (selfCall name) fun e =>
    ∀ (P : Methods Val) f, P.Computes name f →
      P.Typed true e .bool True fun a b => .bool (f a b) :=
  fun _ _ _ hf => typed_call hf typed_self typed_other

theorem synthLe_builds : Builds (synthLe ty) (IsMethod "le" "bool" (LeBody Val)) := by
  refine Builds.bind (selfCall_builds Val "lt") fun lt hlt =>
    Builds.bind (selfCall_builds Val "eq") fun eq heq => ?_
  refine Builds.bind (p := LeBody Val) (fun _ P f g hf hg => ?_) fun e he => cmpMethod_builds he
  exact (typed_or (hlt P f hf) (heq P g hg)).congr (by simp)

/-- A method that says the opposite of another one. -/
theorem notMethod_builds (name other : String) :
    Builds (do cmpMethod name ty (← not (← selfCall other)))
      (IsMethod name "bool" (NotBody Val other)) := by
  refine Builds.bind (selfCall_builds Val other) fun call hcall => ?_
  refine Builds.bind (p := NotBody Val other) (fun _ P f hf => ?_) fun e he => cmpMethod_builds he
  exact typed_not (hcall P f hf)

theorem synthHash_builds : Builds (synthHash s) (IsMethod "hash" "u64" (HashBody Val s)) := by
  refine Builds.bind (p := HashBody Val s) (fun n P hkind => ?_)
    fun e he _ => ⟨rfl, rfl, e, rfl, he⟩
  exact fieldHashes_builds hkind n

theorem synthToStr_builds {generic : Bool} :
    Builds (synthToStr s generic) fun f => f.name = "to_str" :=
  Builds.after fun _ _ => rfl

theorem synthClone_builds : Builds (synthClone s ty) fun f => f.name = "clone" :=
  Builds.after fun _ _ => rfl

end Methods

/-! ## The block -/

section Block

variable {Val : Nat → Type} {s : StructItem} {derives : List Derive}

/-- A method of this kind is the first of its name. -/
def Found (fs : List FunctionItem) (name ret : String) (p : Expr → Prop) : Prop :=
  ∃ m e, (fs.find? fun f => f.name = name) = some m ∧ m.returnType = some ret ∧
    m.body = some (.mk [] (some e)) ∧ p e

/-- A group of methods, where it is wanted. -/
def Group (wanted : Bool) (fs : List FunctionItem) (ps : List (FunctionItem → Prop)) : Prop :=
  fs = [] ∧ wanted = false ∨ List.Forall₂ (fun f p => p f) fs ps

/-- What is wanted is there. -/
theorem synthWhen_builds {wanted : Bool} {ms : List (Fresh FunctionItem)}
    {ps : List (FunctionItem → Prop)} (h : List.Forall₂ (fun m p => Builds m p) ms ps) :
    Builds (synthWhen wanted ms) fun fs => Group wanted fs ps := by
  unfold synthWhen
  cases wanted with
  | false => exact fun _ => .inl ⟨rfl, rfl⟩
  | true =>
    rw [if_pos rfl]
    refine Builds.mono (p := fun fs => List.Forall₂ (fun f p => p f) fs ps) ?_ fun fs => .inr
    induction h with
    | nil => exact fun _ => .nil
    | cons hm _ ih =>
      rw [List.mapM_cons]
      exact Builds.bind hm fun f hf => Builds.bind ih fun fs hfs _ => .cons hf hfs

/-- Methods of other names are passed over. -/
theorem find_skip {fs gs : List FunctionItem} {name : String} (h : ∀ f ∈ fs, f.name ≠ name) :
    (fs ++ gs).find? (fun f => f.name = name) = gs.find? fun f => f.name = name := by
  rw [List.find?_append, List.find?_eq_none.mpr fun f hf => by simpa using h f hf, Option.none_or]

theorem Found.skip {fs gs : List FunctionItem} {name ret : String} {p : Expr → Prop}
    (hfs : ∀ f ∈ fs, f.name ≠ name) (h : Found gs name ret p) : Found (fs ++ gs) name ret p := by
  unfold Found
  rw [find_skip hfs]
  exact h

theorem found_here {f : FunctionItem} {fs : List FunctionItem} {name ret : String}
    {p : Expr → Prop} (h : IsMethod name ret p f) : Found (f :: fs) name ret p := by
  obtain ⟨hname, hret, e, hbody, he⟩ := h
  exact ⟨f, e, List.find?_cons_of_pos (by simpa using hname), hret, hbody, he⟩

theorem Found.cons {f : FunctionItem} {fs : List FunctionItem} {name ret other : String}
    {p : Expr → Prop} (hf : f.name = other) (hne : other ≠ name) (h : Found fs name ret p) :
    Found (f :: fs) name ret p :=
  @Found.skip [f] fs name ret p (fun g hg => by rw [List.mem_singleton.mp hg, hf]; exact hne) h

theorem Found.append {fs gs : List FunctionItem} {name ret : String} {p : Expr → Prop}
    (h : Found fs name ret p) : Found (fs ++ gs) name ret p := by
  obtain ⟨m, e, hm, h⟩ := h
  exact ⟨m, e, by rw [List.find?_append, hm, Option.some_or], h⟩

theorem Group.wanted {fs : List FunctionItem} {ps : List (FunctionItem → Prop)}
    (h : Group true fs ps) : List.Forall₂ (fun f p => p f) fs ps :=
  h.resolve_left fun hnone => nomatch hnone.2

/-- No method of a group has a name that none of its kinds has. -/
theorem Group.other {wanted : Bool} {fs : List FunctionItem} {ps : List (FunctionItem → Prop)}
    {name : String} (h : Group wanted fs ps) (hps : ∀ p ∈ ps, ∀ f, p f → f.name ≠ name) :
    ∀ f ∈ fs, f.name ≠ name := by
  rcases h with ⟨rfl, -⟩ | h
  · exact fun f hf => absurd hf List.not_mem_nil
  · induction h with
    | nil => exact fun f hf => absurd hf List.not_mem_nil
    | cons hf _ ih =>
      obtain ⟨hp, hps⟩ := List.forall_mem_cons.mp hps
      exact List.forall_mem_cons.mpr ⟨hp _ hf, ih hps⟩

/-- The methods that are wanted, each with its body. -/
structure FoundAll (Val : Nat → Type) (s : StructItem) (derives : List Derive)
    (fs : List FunctionItem) : Prop where
  eq : .eq ∈ derives ∨ .ord ∈ derives → Found fs "eq" "bool" (EqBody Val s)
  lt : .ord ∈ derives → Found fs "lt" "bool" (LtBody Val s)
  le : .ord ∈ derives → Found fs "le" "bool" (LeBody Val)
  gt : .ord ∈ derives → Found fs "gt" "bool" (NotBody Val "le")
  ge : .ord ∈ derives → Found fs "ge" "bool" (NotBody Val "lt")
  hash : .hash ∈ derives → Found fs "hash" "u64" (HashBody Val s)

theorem synthMethods_builds (Val : Nat → Type) (s : StructItem) (derives : List Derive)
    (target : String) : Builds (synthMethods s derives target) (FoundAll Val s derives) := by
  refine Builds.bind (synthWhen_builds (.cons (synthEq_builds Val) .nil)) fun eqs heqs => ?_
  refine Builds.bind (synthWhen_builds (.cons (synthLt_builds Val) (.cons (synthLe_builds Val)
    (.cons (notMethod_builds Val "gt" "le") (.cons (notMethod_builds Val "ge" "lt") .nil)))))
      fun ords hords => ?_
  refine Builds.bind (synthWhen_builds (.cons synthToStr_builds .nil)) fun texts htexts => ?_
  refine Builds.bind (synthWhen_builds (.cons synthClone_builds .nil)) fun clones hclones => ?_
  refine Builds.bind (synthWhen_builds (.cons (synthHash_builds Val) .nil)) fun hashes hhashes => ?_
  refine Builds.pure ?_
  have heqs' : ∀ name, "eq" ≠ name → ∀ f ∈ eqs, f.name ≠ name := fun name hne =>
    heqs.other fun p hp f hf => by
      rw [List.mem_singleton.mp hp] at hf
      exact hf.1.trans_ne hne
  have hords' : ∀ f ∈ ords, f.name ≠ "hash" := hords.other fun p hp f hf => by
    simp only [List.mem_cons, List.not_mem_nil, or_false] at hp
    rcases hp with rfl | rfl | rfl | rfl <;> exact hf.1.trans_ne (by decide)
  have htexts' : ∀ f ∈ texts, f.name ≠ "hash" := htexts.other fun p hp f hf => by
    rw [List.mem_singleton.mp hp] at hf
    exact hf.trans_ne (by decide)
  have hclones' : ∀ f ∈ clones, f.name ≠ "hash" := hclones.other fun p hp f hf => by
    rw [List.mem_singleton.mp hp] at hf
    exact hf.trans_ne (by decide)
  have hord : .ord ∈ derives → Found ords "lt" "bool" (LtBody Val s) ∧
      Found ords "le" "bool" (LeBody Val) ∧
      Found ords "gt" "bool" (NotBody Val "le") ∧ Found ords "ge" "bool" (NotBody Val "lt") := by
    intro hwant
    rw [decide_eq_true hwant] at hords
    cases hords.wanted with
    | cons hlt hords => cases hords with
      | cons hle hords => cases hords with
        | cons hgt hords => cases hords with
          | cons hge _ =>
            exact ⟨found_here hlt, (found_here hle).cons hlt.1 (by decide),
              ((found_here hgt).cons hle.1 (by decide)).cons hlt.1 (by decide),
              (((found_here hge).cons hgt.1 (by decide)).cons hle.1 (by decide)).cons
                hlt.1 (by decide)⟩
  have hafter : ∀ {name ret p}, "eq" ≠ name → Found ords name ret p →
      Found (eqs ++ ords ++ texts ++ clones ++ hashes) name ret p :=
    fun hne h => ((h.skip (heqs' _ hne)).append.append).append
  refine ⟨fun hwant => ?_, fun hwant => ?_, fun hwant => ?_, fun hwant => ?_, fun hwant => ?_,
    fun hwant => ?_⟩
  · rw [decide_eq_true hwant] at heqs
    cases heqs.wanted with
    | cons heq _ => exact ((((found_here heq).append).append).append).append
  · exact hafter (by decide) (hord hwant).1
  · exact hafter (by decide) (hord hwant).2.1
  · exact hafter (by decide) (hord hwant).2.2.1
  · exact hafter (by decide) (hord hwant).2.2.2
  · rw [decide_eq_true hwant] at hhashes
    cases hhashes.wanted with
    | cons hhash _ =>
      rw [List.append_assoc, List.append_assoc, List.append_assoc]
      exact (((found_here hhash).skip hclones').skip htexts' |>.skip hords').skip
        (heqs' _ (by decide))

theorem members_builds (fs : List FunctionItem) :
    Builds (fs.mapM fun function => do
      let _ ← nsp
      let _ ← nsp
      return function) (· = fs) := by
  induction fs with
  | nil => exact fun _ => rfl
  | cons f fs ih =>
    rw [List.mapM_cons]
    refine Builds.bind (p := (· = f)) (fun _ => rfl) fun g hg => Builds.bind ih fun gs hgs _ => ?_
    rw [hg, hgs]
    rfl

theorem synthImpl_builds (Val : Nat → Type) (s : StructItem) (derives : List Derive) :
    Builds (synthImpl s derives) fun impl =>
      ∀ block, impl = some block → FoundAll Val s derives block.members := by
  refine Builds.after fun head =>
    Builds.bind (synthMethods_builds Val s derives head.2) fun fs hfs => ?_
  by_cases hempty : fs.isEmpty
  · rw [if_pos hempty]
    exact Builds.pure fun block hblock => nomatch hblock
  · rw [if_neg hempty]
    refine Builds.bind (members_builds fs) fun members hmembers => Builds.after fun _ =>
      Builds.after fun _ => Builds.pure fun block hblock => ?_
    cases hblock
    exact hmembers ▸ hfs

end Block

/-! ## Coherence -/

section Coherence

variable {Val : Nat → Type}

/-- Each method of the block computes what it stands for, whatever fuel is left: no value is a trap.
-/
structure Derived (P : Methods Val) (derives : List Derive) : Prop where
  eq : .eq ∈ derives ∨ .ord ∈ derives → P.Computes "eq" (fieldwise P.kind P.ops).eq
  lt : .ord ∈ derives → P.Computes "lt" (fieldwise P.kind P.ops).lt
  le : .ord ∈ derives → P.Computes "le" fun a b =>
    (fieldwise P.kind P.ops).lt a b || (fieldwise P.kind P.ops).eq a b
  gt : .ord ∈ derives → P.Computes "gt" fun a b =>
    !((fieldwise P.kind P.ops).lt a b || (fieldwise P.kind P.ops).eq a b)
  ge : .ord ∈ derives → P.Computes "ge" fun a b => !(fieldwise P.kind P.ops).lt a b
  hash : .hash ∈ derives → P.Hashes (fieldHash P.kind P.ops)

/-- The laws of what is computed, from those of the fields. Where the names of the fields differ,
the block reads each field by its name. -/
structure Coherent (kind : StructKind) (ops : ∀ i, FieldOps (Val i)) : Prop where
  slot : (∀ fields, kind = .record fields → fields.Nodup) → ∀ i < kind.fieldCount, kind.slot i = i
  eq_iff (a b) : (fieldwise kind ops).eq a b = true ↔
    ∀ i < kind.fieldCount, (fieldComparison kind ops i).eq a b = true
  lt_iff (a b) : (fieldwise kind ops).lt a b = true ↔ ∃ i < kind.fieldCount,
    (∀ j < i, (fieldComparison kind ops j).eq a b = true) ∧
      (fieldComparison kind ops i).lt a b = true
  lawful : (∀ i < kind.fieldCount, Lawful (ops (kind.slot i)).eq) → Lawful (fieldwise kind ops).eq
  ordered : (∀ i < kind.fieldCount, (ops (kind.slot i)).toComparison.Ordered) →
    (fieldwise kind ops).Ordered
  greater : (∀ i < kind.fieldCount, (ops (kind.slot i)).toComparison.Ordered) → ∀ a b,
    (!((fieldwise kind ops).lt a b || (fieldwise kind ops).eq a b)) = (fieldwise kind ops).lt b a ∧
    (!(fieldwise kind ops).lt a b) = ((fieldwise kind ops).lt b a || (fieldwise kind ops).eq b a)
  hash : (∀ i < kind.fieldCount, Respected (ops (kind.slot i)).eq (ops (kind.slot i)).hash) →
    Respected (fieldwise kind ops).eq (fieldHash kind ops)

variable {kind : StructKind} {ops : ∀ i, FieldOps (Val i)}

/-- Where the names of the fields differ, each name stands for its own field. -/
theorem slot_eq (h : ∀ fields, kind = .record fields → fields.Nodup) {i : Nat}
    (hi : i < kind.fieldCount) : kind.slot i = i := by
  cases kind with
  | unit => rfl
  | tuple fields => rfl
  | record fields =>
    unfold StructKind.slot StructKind.fieldName
    dsimp only
    rw [List.getD_eq_getElem?_getD, List.getElem?_eq_getElem hi, Option.getD_some]
    exact (h fields rfl).idxOf_getElem i hi

theorem fieldwise_eq_iff {a b : Instance Val} : (fieldwise kind ops).eq a b = true ↔
    ∀ i < kind.fieldCount, (fieldComparison kind ops i).eq a b = true := by
  rw [fieldwise, Comparison.lexicographic_eq, fieldComparisons, List.forall_mem_map]
  simp only [List.mem_range]

theorem fieldwise_lt_iff {a b : Instance Val} : (fieldwise kind ops).lt a b = true ↔
    ∃ i < kind.fieldCount, (∀ j < i, (fieldComparison kind ops j).eq a b = true) ∧
      (fieldComparison kind ops i).lt a b = true := by
  have hget : ∀ {i c}, (fieldComparisons kind ops)[i]? = some c ↔
      i < kind.fieldCount ∧ fieldComparison kind ops i = c := by
    intro i c
    rw [fieldComparisons, List.getElem?_map]
    by_cases hi : i < kind.fieldCount
    · simp [hi]
    · simp [hi]
  rw [fieldwise, Comparison.lexicographic_lt]
  constructor
  · rintro ⟨i, c, hc, hbefore, hlt⟩
    obtain ⟨hi, rfl⟩ := hget.mp hc
    exact ⟨i, hi, fun j hj => hbefore j hj _ (hget.mpr ⟨hj.trans hi, rfl⟩), hlt⟩
  · rintro ⟨i, hi, hbefore, hlt⟩
    refine ⟨i, _, hget.mpr ⟨hi, rfl⟩, fun j hj d hd => ?_, hlt⟩
    exact (hget.mp hd).2 ▸ hbefore j hj

theorem fieldwise_ordered
    (h : ∀ i < kind.fieldCount, (ops (kind.slot i)).toComparison.Ordered) :
    (fieldwise kind ops).Ordered := by
  apply Comparison.ordered_lexicographic
  rw [fieldComparisons, List.forall_mem_map]
  exact fun i hi => (h i (List.mem_range.mp hi)).on _

/-- Equal values have equal hashes, field by field. -/
theorem fieldHash_respected
    (h : ∀ i < kind.fieldCount, Respected (ops (kind.slot i)).eq (ops (kind.slot i)).hash) :
    Respected (fieldwise kind ops).eq (fieldHash kind ops) := by
  intro a b hab
  have heq := fieldwise_eq_iff.mp hab
  unfold fieldHash
  refine List.foldl_ext _ _ _ fun acc i hi => ?_
  rw [h i (List.mem_range.mp hi) _ _ (heq i (List.mem_range.mp hi))]

theorem coherent (kind : StructKind) (ops : ∀ i, FieldOps (Val i)) : Coherent kind ops where
  slot h _ hi := slot_eq h hi
  eq_iff _ _ := fieldwise_eq_iff
  lt_iff _ _ := fieldwise_lt_iff
  lawful h := by
    apply Comparison.lawful_lexicographic
    rw [fieldComparisons, List.forall_mem_map]
    intro i hi
    have hlaw := h i (List.mem_range.mp hi)
    exact ⟨fun a => hlaw.refl _, hlaw.symm, hlaw.trans⟩
  ordered := fieldwise_ordered
  greater h a b := by
    have hordered := fieldwise_ordered h
    have hgt : (!((fieldwise kind ops).lt a b || (fieldwise kind ops).eq a b)) =
        (fieldwise kind ops).lt b a := by
      rw [Bool.eq_iff_iff, hordered.gt_iff a b]
      simp
    refine ⟨hgt, ?_⟩
    rw [Bool.eq_iff_iff, Bool.or_eq_true, Bool.not_eq_true', ← Bool.not_eq_true,
      hordered.gt_iff b a,
      not_not]
  hash := fieldHash_respected

/-- The types of the fields have what the bodies of the methods ask of them. -/
structure FieldsSuffice (s : StructItem) (derives : List Derive) (ops : ∀ i, FieldOps (Val i)) :
    Prop where
  eq : .eq ∈ derives ∨ .ord ∈ derives → TestsAll .eq s ops
  lt : .ord ∈ derives → TestsAll .lt s ops
  hash : .hash ∈ derives → HashesAll s ops

variable {P : Methods Val} {name ret : String} {other : Bool} {k : Kind}
  {v : Instance Val → Instance Val → Value Val} {c : Prop}

/-- A method that is found is as its body is. -/
theorem has_of_found {p : Expr → Prop} (h : Found P.functions name ret p)
    (hp : ∀ e, p e → P.Typed other e k c v) (hc : c) : P.Has name ret other k v := by
  obtain ⟨m, e, hm, hret, hbody, he⟩ := h
  exact ⟨m, e, hm, hret, hbody, ((hp e he).check k).mpr ⟨hc, rfl⟩, (hp e he).means hc⟩

/-- A method that the checker accepts meets what its body needs. -/
theorem needs_of_has {p : Expr → Prop} {w : Instance Val → Instance Val → Value Val}
    (h : P.Has name ret other k v) (hfound : Found P.functions name ret p)
    (hp : ∀ e, p e → P.Typed other e k c w) : c := by
  obtain ⟨m, e, hm, -, hbody, hcheck, -⟩ := h
  obtain ⟨m', e', hm', -, hbody', he⟩ := hfound
  obtain rfl : m = m' := Option.some.inj (hm.symm.trans hm')
  rw [hbody] at hbody'
  cases hbody'
  exact (((hp e he).check k).mp hcheck).1

section Sufficient

variable {s : StructItem} {derives : List Derive} {n : Nat} {block : ExtendItem}
  {ops : ∀ i, FieldOps (Val i)} {release : Bool}

/-- Where the methods are accepted, the types of the fields have what they need. -/
theorem fieldsSuffice_of_derived (h : (synthImpl s derives n).1 = some block)
    (hderived : Derived ⟨s.kind, ops, release, block.members⟩ derives) :
    FieldsSuffice s derives ops := by
  have hall := synthImpl_builds Val s derives n block h
  refine ⟨fun hwant => ?_, fun hwant => ?_, fun hwant => ?_⟩
  · exact needs_of_has (hderived.eq hwant) (hall.eq hwant) fun e he => he _ rfl
  · have hfrom := needs_of_has (hderived.lt hwant) (hall.lt hwant) fun e he => he _ rfl
    exact fun i hi => hfrom.1 i hi (Nat.zero_le i)
  · exact needs_of_has (hderived.hash hwant) (hall.hash hwant) fun e he => he _ rfl

/-- Where they have it, each method computes what it stands for. -/
theorem derived_of_fieldsSuffice (h : (synthImpl s derives n).1 = some block)
    (hfields : FieldsSuffice s derives ops) :
    Derived ⟨s.kind, ops, release, block.members⟩ derives := by
  have hall := synthImpl_builds Val s derives n block h
  have heq : .eq ∈ derives ∨ .ord ∈ derives →
      Computes ⟨s.kind, ops, release, block.members⟩ "eq" (fieldwise s.kind ops).eq :=
    fun hwant => has_of_found (hall.eq hwant) (fun e he => he _ rfl) (hfields.eq hwant)
  have hfrom : .ord ∈ derives → TestsFrom s ops 0 := fun hwant =>
    ⟨fun i hi _ => hfields.lt hwant i hi, fun i hi _ _ => hfields.eq (.inr hwant) i hi⟩
  have hlt : .ord ∈ derives →
      Computes ⟨s.kind, ops, release, block.members⟩ "lt" (fieldwise s.kind ops).lt :=
    fun hwant => has_of_found (hall.lt hwant) (fun e he => he _ rfl) (hfrom hwant)
  have hle : .ord ∈ derives → Computes ⟨s.kind, ops, release, block.members⟩ "le" fun a b =>
      (fieldwise s.kind ops).lt a b || (fieldwise s.kind ops).eq a b :=
    fun hwant => has_of_found (hall.le hwant)
      (fun e he => he _ _ _ (hlt hwant) (heq (.inr hwant))) trivial
  refine ⟨heq, hlt, hle, fun hwant => ?_, fun hwant => ?_, fun hwant => ?_⟩
  · exact has_of_found (hall.gt hwant) (fun e he => he _ _ (hle hwant)) trivial
  · exact has_of_found (hall.ge hwant) (fun e he => he _ _ (hlt hwant)) trivial
  · exact has_of_found (hall.hash hwant) (fun e he => he _ rfl) (hfields.hash hwant)

end Sufficient

/-- Integers in a field of this type. -/
def intField (type : FieldType) : FieldOps Int :=
  { eq := fun a b => a == b, lt := fun a b => decide (a < b), hash := BitVec.ofInt 64, type }

theorem intField_lawful (type : FieldType) : (intField type).toComparison.Ordered ∧
    Respected (intField type).eq (intField type).hash := by
  refine ⟨⟨⟨?_, ?_, ?_⟩, ?_, ?_, ?_, ?_⟩, ?_⟩
  all_goals simp only [intField, Respected, beq_iff_eq, decide_eq_true_eq, beq_eq_false_iff_ne,
    decide_eq_false_iff_not]
  all_goals grind

/-- `@Derive(Ord, Hash)`. -/
def deriveOrdHash : List (String × List AttrArg) :=
  [("Derive", [.positional (.mk (.ident "Ord") ⟨0, 8, 11⟩),
    .positional (.mk (.ident "Hash") ⟨0, 13, 17⟩)])]

/-- The type `i64`. -/
def i64Type : FieldType := ⟨.number, []⟩

/-- `struct W<T> { n: i64, v: T }`. -/
def wItem : StructItem := ⟨"W", some ["T"], .record ["n", "v"]⟩

/-- The fields of `W`: the parameter answers what the bounds of the block give it. -/
def wFields (i : Nat) : FieldOps Int :=
  intField (if i = 0 then i64Type else ⟨.param ["eq", "lt", "le", "gt", "ge", "hash"], []⟩)

end Coherence

end compiler.sema.derive
