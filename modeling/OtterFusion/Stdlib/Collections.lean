-- `Set<T>` (`core/collections.otter`) and `Deque<T>` (`std/collections.otter`): their `eq` and
-- `hash` agree when those of `T` do.
import Mathlib.Algebra.Ring.Int.Defs
import OtterFusion.Base.Equality
import OtterFusion.Stdlib.Hashes

open base.trapping base.equality stdlib.hash

namespace stdlib.collections

variable {T : Type} {eqT : T → T → Bool} {hashT : T → Panics Int}

/-! ## `Set` -/

/-- `List.contains`. -/
def contains (eqT : T → T → Bool) (data : List T) (value : T) : Bool :=
  data.any fun element => eqT value element

/-- `Set`: no element is equal to one before it. -/
structure Set (eqT : T → T → Bool) where
  data : List T
  distinct : Distinct eqT data

/-- `Set.new`. -/
def Set.new : Set eqT := ⟨[], .nil⟩

/-- `Set.insert`: the set, and whether the value was new. -/
def Set.insert (s : Set eqT) (value : T) : Set eqT × Bool :=
  if h : contains eqT s.data value = true then (s, false)
  else ({
    data := s.data ++ [value]
    distinct := by
      refine List.pairwise_append.mpr ⟨s.distinct, List.pairwise_singleton _ value, ?_⟩
      intro a ha b hb
      obtain rfl := List.mem_singleton.mp hb
      unfold contains at h
      rw [List.any_eq_true, not_exists] at h
      exact Bool.eq_false_iff.mpr fun heq => h a ⟨ha, heq⟩ }, true)

/-- `Set.remove`: the first element that is equal to the value. -/
def Set.remove (s : Set eqT) (value : T) : Set eqT × Bool :=
  ({
    data := s.data.eraseP fun element => eqT element value
    distinct := s.distinct.sublist List.eraseP_sublist },
  s.data.any fun element => eqT element value)

/-- `Set.insert_all`. -/
def Set.insertAll (s other : Set eqT) : Set eqT :=
  other.data.foldl (fun s value => (s.insert value).1) s

/-- `Set.union`. -/
def Set.union (s other : Set eqT) : Set eqT := (Set.new.insertAll s).insertAll other

/-- `Set.intersect`. -/
def Set.intersect (s other : Set eqT) : Set eqT :=
  s.data.foldl (fun out value => if contains eqT other.data value then (out.insert value).1
    else out) .new

/-- `Set.difference`. -/
def Set.difference (s other : Set eqT) : Set eqT :=
  s.data.foldl (fun out value => if !contains eqT other.data value then (out.insert value).1
    else out) .new

/-- `Set.eq`. -/
def Set.eq (s other : Set eqT) : Bool :=
  if s.data.length ≠ other.data.length then false
  else s.data.foldl
    (fun same value => if same && !contains eqT other.data value then false else same) true

/-- One turn of the loop in `Set.hash`. -/
def Set.hashTurn (hashT : T → Panics Int) (h : Int) (value : T) : Panics Int := do
  .value ((← u64 (h + (← hashT value))) % 4294967291)

/-- `Set.hash`. -/
def Set.hash (hashT : T → Panics Int) (s : Set eqT) : Panics Int :=
  s.data.foldlM (Set.hashTurn hashT) 0

theorem contains_iff {data : List T} {value : T} :
    contains eqT data value = true ↔ ∃ element ∈ data, eqT value element = true := List.any_eq_true

/-- Sets are equal when they have as many elements and the one covers the other. -/
theorem Set.eq_iff {s other : Set eqT} : s.eq other = true ↔
    s.data.length = other.data.length ∧ Covered eqT s.data other.data := by
  have hloop : ∀ (data : List T) (same : Bool), data.foldl
      (fun same value => if same && !contains eqT other.data value then false else same)
        same = true ↔
      same = true ∧ Covered eqT data other.data := by
    intro data
    induction data with
    | nil => simp [Covered]
    | cons value data ih =>
      intro same
      rw [List.foldl_cons, ih]
      unfold Covered
      rw [List.forall_mem_cons, ← contains_iff]
      cases same with
      | false => simp
      | true => cases contains eqT other.data value <;> simp
  unfold Set.eq
  split
  · rename_i hne
    simp [hne]
  · rename_i hlength
    rw [hloop]
    simp [not_not.mp hlength]

theorem Set.lawful (h : Lawful eqT) : Lawful (Set.eq : Set eqT → Set eqT → Bool) where
  refl s := Set.eq_iff.mpr ⟨rfl, .refl h s.data⟩
  symm {s _} hst := by
    obtain ⟨hlength, hcovered⟩ := Set.eq_iff.mp hst
    exact Set.eq_iff.mpr ⟨hlength.symm, hcovered.symm h s.distinct (Nat.le_of_eq hlength.symm)⟩
  trans hst htu := by
    obtain ⟨hlength, hcovered⟩ := Set.eq_iff.mp hst
    obtain ⟨hlength', hcovered'⟩ := Set.eq_iff.mp htu
    exact Set.eq_iff.mpr ⟨hlength.trans hlength', hcovered.trans h hcovered'⟩

/-- A hash that is returned is the sum of the elements' hashes. -/
theorem Set.hashLoop_value {data : List T} {start x : Int} (hstart : start % 4294967291 = start)
    (h : data.foldlM (Set.hashTurn hashT) start = .value x) :
    ∃ hashes : List Int, data.map hashT = hashes.map Ending.value ∧
      x = (start + hashes.sum) % 4294967291 := by
  induction data generalizing start with
  | nil =>
    cases h
    exact ⟨[], rfl, by rw [List.sum_nil, Int.add_zero, hstart]⟩
  | cons value data ih =>
    rw [List.foldlM_cons] at h
    obtain ⟨next, hnext, h⟩ := Ending.value_of_bind.mp h
    obtain ⟨hash, hhash, hnext⟩ := Ending.value_of_bind.mp hnext
    obtain ⟨sum, hsum, hnext⟩ := Ending.value_of_bind.mp hnext
    obtain rfl := u64_value hsum
    cases hnext
    obtain ⟨hashes, hmap, rfl⟩ := ih (Int.emod_emod_of_dvd _ (Int.dvd_refl _)) h
    refine ⟨hash :: hashes, by rw [List.map_cons, List.map_cons, hhash, hmap], ?_⟩
    rw [List.sum_cons, Int.emod_add_emod, Int.add_assoc]

/-- Equal sets have one hash, when both are returned. -/
theorem Set.hash_eq (h : Lawful eqT) (hhash : Respected eqT hashT) {s other : Set eqT}
    (heq : s.eq other = true) {x y : Int} (hx : s.hash hashT = .value x)
    (hy : other.hash hashT = .value y) : x = y := by
  obtain ⟨hlength, hcovered⟩ := Set.eq_iff.mp heq
  obtain ⟨hashes, hmap, rfl⟩ := Set.hashLoop_value (by decide) hx
  obtain ⟨hashes', hmap', rfl⟩ := Set.hashLoop_value (by decide) hy
  have hperm := hcovered.map_perm h hhash s.distinct (Nat.le_of_eq hlength.symm)
  rw [hmap, hmap'] at hperm
  have hvalue : Function.Injective (Ending.value : Int → Panics Int) := fun a b hab => by
    cases hab
    rfl
  rw [((List.map_perm_map_iff hvalue).mp hperm).sum_eq]

/-! ### What a set holds -/

section holds

variable {s t : Set eqT} {x v : T}

/-- The values that a set holds. -/
def Set.Holds (s : Set eqT) (v : T) : Prop := contains eqT s.data v = true

instance (s : Set eqT) (v : T) : Decidable (s.Holds v) :=
  inferInstanceAs (Decidable (_ = true))

theorem Set.Holds.congr (h : Lawful eqT) {w : T} (hvw : eqT v w = true) (hw : s.Holds w) :
    s.Holds v := by
  obtain ⟨a, ha, hwa⟩ := contains_iff.mp hw
  exact contains_iff.mpr ⟨a, ha, h.trans hvw hwa⟩

theorem Set.holds_insert (h : Lawful eqT) :
    (s.insert x).1.Holds v ↔ s.Holds v ∨ eqT v x = true := by
  unfold Set.insert
  split
  · rename_i hx
    exact ⟨.inl, fun hv => hv.elim id fun hvx => Set.Holds.congr h hvx hx⟩
  · simp [Set.Holds, contains]

/-- The elements of a list that meet a test are inserted one after another. -/
theorem Set.holds_inserts (h : Lawful eqT) {l : List T} (test : T → Bool) :
    (l.foldl (fun out a => if test a then (out.insert a).1 else out) s).Holds v ↔
      s.Holds v ∨ ∃ a ∈ l, test a = true ∧ eqT v a = true := by
  induction l generalizing s with
  | nil => simp
  | cons a l ih =>
    rw [List.foldl_cons, ih]
    by_cases ha : test a = true
    · simp [ha, Set.holds_insert h, or_assoc]
    · simp [ha]

theorem Set.not_holds_new : ¬(Set.new : Set eqT).Holds v := Bool.false_ne_true

/-- Of the elements, a new set gets those that meet a test which respects the equality. -/
theorem Set.holds_filtered (h : Lawful eqT) {test : T → Bool}
    (htest : ∀ a, eqT v a = true → test a = test v) :
    (s.data.foldl (fun out a => if test a then (out.insert a).1 else out) (Set.new : Set eqT)).Holds
      v ↔
      s.Holds v ∧ test v = true := by
  rw [Set.holds_inserts h, or_iff_right Set.not_holds_new, Set.Holds, contains_iff]
  constructor
  · rintro ⟨a, ha, hta, hva⟩
    exact ⟨⟨a, ha, hva⟩, htest a hva ▸ hta⟩
  · rintro ⟨⟨a, ha, hva⟩, htv⟩
    exact ⟨a, ha, (htest a hva).trans htv, hva⟩

/-- No more than one element is equal to the value that is removed. -/
theorem Set.holds_remove (h : Lawful eqT) :
    (s.remove x).1.Holds v ↔ s.Holds v ∧ eqT v x = false := by
  have hlist : ∀ {l : List T}, Distinct eqT l →
      (contains eqT (l.eraseP (eqT · x)) v = true ↔ contains eqT l v = true ∧ eqT v x = false) := by
    intro l hl
    induction l with
    | nil => simp [contains]
    | cons a l ih =>
      obtain ⟨hhead, htail⟩ := List.pairwise_cons.mp hl
      simp only [contains_iff, List.exists_mem_cons_iff] at ih ⊢
      cases ha : eqT a x with
      | false =>
        have hva : eqT v a = true → eqT v x = false := fun hva =>
          Bool.eq_false_iff.mpr fun hvx => by rw [h.trans (h.symm hva) hvx] at ha; cases ha
        simp only [List.eraseP_cons, ha, cond_false, List.exists_mem_cons_iff, ih htail]
        tauto
      | true =>
        simp only [List.eraseP_cons, ha, cond_true]
        constructor
        · rintro ⟨b, hb, hvb⟩
          refine ⟨.inr ⟨b, hb, hvb⟩, Bool.eq_false_iff.mpr fun hvx => ?_⟩
          have hne := hhead b hb
          rw [h.trans (h.symm hvb) (h.trans hvx (h.symm ha))] at hne
          cases hne
        · rintro ⟨hva | hrest, hvx⟩
          · rw [h.trans hva ha] at hvx
            cases hvx
          · exact hrest
  exact hlist s.distinct

theorem Set.covered_iff (h : Lawful eqT) :
    Covered eqT s.data t.data ↔ ∀ v, s.Holds v → t.Holds v := by
  constructor
  · intro hcovered v hv
    obtain ⟨a, ha, hva⟩ := contains_iff.mp hv
    exact Set.Holds.congr h hva (contains_iff.mpr (hcovered a ha))
  · exact fun hall a ha => contains_iff.mp (hall a (contains_iff.mpr ⟨a, ha, h.refl a⟩))

/-- Sets are equal when they hold the same values. -/
theorem Set.eq_iff_holds (h : Lawful eqT) : s.eq t = true ↔ ∀ v, s.Holds v ↔ t.Holds v := by
  have hlength : ∀ {s t : Set eqT}, Covered eqT s.data t.data → t.data.length ≤ s.data.length →
      s.data.length = t.data.length := by
    intro s t hcovered hle
    obtain ⟨n, hperm, hsame⟩ := hcovered.matching h s.distinct hle
    exact hsame.length_eq.trans hperm.length_eq.symm
  rw [Set.eq_iff]
  constructor
  · rintro ⟨heq, hcovered⟩ v
    have hback := hcovered.symm h s.distinct (Nat.le_of_eq heq.symm)
    exact ⟨(Set.covered_iff h).mp hcovered v, (Set.covered_iff h).mp hback v⟩
  · intro hsame
    have hcovered := (Set.covered_iff h).mpr fun v => (hsame v).mp
    refine ⟨(Nat.le_total t.data.length s.data.length).elim (hlength hcovered) fun hle =>
      ?_, hcovered⟩
    exact (hlength ((Set.covered_iff h).mpr fun v => (hsame v).mpr) hle).symm

/-- Each call on a set does to the values that it holds what its name says. -/
theorem a_set_holds_its_values (h : Lawful eqT) (s t : Set eqT) (x : T) :
    ((s.insert x).2 = true ↔ ¬s.Holds x) ∧ ((s.remove x).2 = true ↔ s.Holds x) ∧
    (s.eq t = true ↔ ∀ v, s.Holds v ↔ t.Holds v) ∧ ∀ v,
    ((s.insert x).1.Holds v ↔ s.Holds v ∨ eqT v x = true) ∧
    ((s.remove x).1.Holds v ↔ s.Holds v ∧ eqT v x = false) ∧
    ((s.union t).Holds v ↔ s.Holds v ∨ t.Holds v) ∧
    ((s.intersect t).Holds v ↔ s.Holds v ∧ t.Holds v) ∧
    ((s.difference t).Holds v ↔ s.Holds v ∧ ¬t.Holds v) := by
  have hcongr : ∀ {v a : T}, eqT v a = true → contains eqT t.data a = contains eqT t.data v :=
    fun hva => Bool.eq_iff_iff.mpr ⟨Set.Holds.congr h hva, Set.Holds.congr h (h.symm hva)⟩
  refine ⟨?_, ?_, Set.eq_iff_holds h, fun v => ⟨Set.holds_insert h, Set.holds_remove h, ?_,
    Set.holds_filtered h fun a hva => hcongr hva, ?_⟩⟩
  · unfold Set.insert Set.Holds
    split <;> simp [*]
  · simp only [Set.remove, Set.Holds, contains, List.any_eq_true]
    exact exists_congr fun a => and_congr_right fun _ => ⟨h.symm, h.symm⟩
  · refine (Set.holds_inserts h fun _ => true).trans (or_congr ?_ ?_)
    · refine (Set.holds_inserts h fun _ => true).trans ((or_iff_right Set.not_holds_new).trans ?_)
      simp [Set.Holds, contains]
    · simp [Set.Holds, contains]
  · exact (Set.holds_filtered h fun a hva => congrArg _ (hcongr hva)).trans
      (and_congr_right fun _ => by simp [Set.Holds])

/-- Numbers with the same last digit are equal: 31 is no new value of `{11, 2}`, which keeps 2 in
common with `{22, 5}` and loses 11 with 31. -/
theorem a_set_holds_its_number :
    let eqT := fun a b : Nat => a % 10 == b % 10
    let s : Set eqT := ⟨[11, 2], by decide⟩
    let t : Set eqT := ⟨[22, 5], by decide⟩
    (s.insert 31).2 ≠ true ∧ (s.remove 31).2 = true ∧ s.eq t ≠ true ∧ (s.insert 31).1.Holds 41 ∧
    ¬(s.remove 31).1.Holds 11 ∧ (s.union t).Holds 15 ∧ (s.intersect t).Holds 12 ∧
    ¬(s.difference t).Holds 2 := by
  intro eqT s t
  have heq : Lawful eqT := ⟨fun _ => beq_self_eq_true _, fun h => BEq.symm h,
    fun h h' => BEq.trans h h'⟩
  obtain ⟨hinsert, hremove, hsame, hvalues⟩ := a_set_holds_its_values heq s t 31
  refine ⟨mt hinsert.mp (not_not.mpr (by decide)), hremove.mpr (by decide),
    mt hsame.mp fun h => absurd ((h 11).mp (by decide)) (by decide), (hvalues 41).1.mpr (by decide),
    mt (hvalues 11).2.1.mp (by decide), (hvalues 15).2.2.1.mpr (by decide),
    (hvalues 12).2.2.2.1.mpr (by decide), mt (hvalues 2).2.2.2.2.mp (by decide)⟩

end holds

/-! ## `Deque` -/

/-- `Deque`: the front has its first element last. -/
structure Deque (T : Type) where
  front : List T
  back : List T

/-- `Deque.size`. -/
def Deque.size (d : Deque T) : Nat := d.front.length + d.back.length

/-- `Deque.to_list`. -/
def Deque.toList (d : Deque T) : List T := d.front.reverse ++ d.back

/-- The loop over an index in `Deque.eq`. -/
def sameFrom (eqT : T → T → Bool) : List T → List T → Bool
  | a :: left, b :: right => if eqT a b then sameFrom eqT left right else false
  | _, _ => true

/-- `Deque.eq`. -/
def Deque.eq (eqT : T → T → Bool) (d other : Deque T) : Bool :=
  if d.size ≠ other.size then false else sameFrom eqT d.toList other.toList

/-- One turn of the loop in `Deque.hash`. -/
def Deque.hashTurn (hashT : T → Panics Int) (h : Int) (value : T) : Panics Int := do
  let product ← u64 (h % 4294967291 * 16777619)
  .value ((← u64 (product + (← hashT value))) % 4294967291)

/-- `Deque.hash`. -/
def Deque.hash (hashT : T → Panics Int) (d : Deque T) : Panics Int :=
  d.toList.foldlM (Deque.hashTurn hashT) 2166136261

theorem sameFrom_iff {left right : List T} (h : left.length = right.length) :
    sameFrom eqT left right = true ↔ Same eqT left right := by
  induction left generalizing right with
  | nil =>
    obtain rfl := List.eq_nil_of_length_eq_zero h.symm
    exact ⟨fun _ => .nil, fun _ => rfl⟩
  | cons a left ih =>
    cases right with
    | nil => cases h
    | cons b right =>
      have hcons : Same eqT (a :: left) (b :: right) ↔ eqT a b = true ∧ Same eqT left right :=
        List.forall₂_cons
      rw [sameFrom, hcons, ← ih (Nat.succ.inj h)]
      cases eqT a b <;> simp

theorem Deque.length_toList (d : Deque T) : d.toList.length = d.size := by
  rw [Deque.toList, List.length_append, List.length_reverse, Deque.size]

/-- Deques are equal when their elements are, in their order. -/
theorem Deque.eq_iff {d other : Deque T} : d.eq eqT other = true ↔
    Same eqT d.toList other.toList := by
  unfold Deque.eq
  split
  · rename_i hne
    refine ⟨(fun h => by cases h), fun hsame => absurd ?_ hne⟩
    rw [← Deque.length_toList, ← Deque.length_toList]
    exact hsame.length_eq
  · rename_i hsize
    refine sameFrom_iff ?_
    rw [Deque.length_toList, Deque.length_toList]
    exact not_not.mp hsize

theorem Deque.lawful (h : Lawful eqT) : Lawful (Deque.eq eqT) where
  refl d := Deque.eq_iff.mpr (.refl h d.toList)
  symm hab := Deque.eq_iff.mpr ((Deque.eq_iff.mp hab).symm h)
  trans hab hbc := Deque.eq_iff.mpr ((Deque.eq_iff.mp hab).trans h (Deque.eq_iff.mp hbc))

theorem Deque.hash_eq (hhash : Respected eqT hashT) {d other : Deque T}
    (heq : d.eq eqT other = true) : d.hash hashT = other.hash hashT := by
  have hloop : ∀ {l m : List T} {start : Int}, Same eqT l m →
      l.foldlM (Deque.hashTurn hashT) start = m.foldlM (Deque.hashTurn hashT) start := by
    intro l m start hsame
    induction hsame generalizing start with
    | nil => rfl
    | cons hab _ ih =>
      rw [List.foldlM_cons, List.foldlM_cons]
      unfold Deque.hashTurn
      rw [hhash _ _ hab]
      exact congrArg _ (funext fun next => ih)
  exact hloop (Deque.eq_iff.mp heq)

end stdlib.collections
