-- Rows filed on shelves. A row has a name and a version; the name decides the shelf, and several
-- names may share one. A store has the data of each version of each name.
import OtterFusion.Base.Records

open base.records

namespace base.shelves

/-- The data of a version of a name. -/
@[ext]
structure Row (N V D : Type) where
  name : N
  vers : V
  data : D

abbrev Store (N V D : Type) := N → V → Option D

variable {N V S D : Type}

/-- Each shelf has a row at most for each version, and the rows are what the store has. -/
structure Files (shelf : N → Option S) (rows : S → List (Row N V D)) (store : Store N V D) :
    Prop where
  distinct : ∀ s, ((rows s).map Row.vers).Nodup
  sound : ∀ s, ∀ r ∈ rows s, shelf r.name = some s ∧ store r.name r.vers = some r.data
  complete : ∀ n v d, store n v = some d → ∃ s, shelf n = some s ∧ ⟨n, v, d⟩ ∈ rows s

/-- No other name on the shelf of this one has the version. -/
def Alone (shelf : N → Option S) (store : Store N V D) (n : N) (v : V) : Prop :=
  ∀ m, m ≠ n → shelf m = shelf n → store m v = none

variable {shelf : N → Option S} {rows : S → List (Row N V D)} {store : Store N V D} {s : S} {n : N}
  {v : V} {d : D} {l : List (Row N V D)}

theorem files_empty : Files shelf (fun _ => ([] : List (Row N V D))) fun _ _ => none where
  distinct _ := List.nodup_nil
  sound _ r hr := by cases hr
  complete _ _ _ h := by cases h

theorem Files.unique {r r' : Row N V D} (h : Files shelf rows store) (hr : r ∈ rows s)
    (hr' : r' ∈ rows s) (hv : r.vers = r'.vers) : r = r' :=
  List.inj_on_of_nodup_map (h.distinct s) hr hr' hv

/-- The row of a version that no other name on the shelf has. -/
theorem Files.name_eq {r : Row N V D} (h : Files shelf rows store) (hs : shelf n = some s)
    (halone : Alone shelf store n v) (hr : r ∈ rows s) (hv : r.vers = v) : r.name = n := by
  obtain ⟨hshelf, hstore⟩ := h.sound s r hr
  by_contra hne
  have hnone := halone r.name hne (hshelf.trans hs.symm)
  rw [hv, hnone] at hstore
  cases hstore

/-- What the store has of a name, it has of no other name on the shelf. -/
theorem Files.alone (h : Files shelf rows store) (hstore : store n v = some d) :
    Alone shelf store n v := by
  obtain ⟨s, hs, hmem⟩ := h.complete n v d hstore
  intro m hne hshelf
  cases hm : store m v with
  | none => rfl
  | some d' =>
    obtain ⟨s', hs', hmem'⟩ := h.complete m v d' hm
    rw [hshelf, hs] at hs'
    cases hs'
    cases h.unique hmem hmem' rfl
    exact absurd rfl hne

/-- A row on another shelf has another name. -/
theorem Files.name_ne {t : S} {r : Row N V D} (h : Files shelf rows store) (hs : shelf n = some s)
    (ht : t ≠ s) (hr : r ∈ rows t) : r.name ≠ n := by
  rintro rfl
  obtain ⟨hshelf, _⟩ := h.sound t r hr
  rw [hs] at hshelf
  exact ht (Option.some.inj hshelf).symm

/-! ## Versions on a shelf -/

variable [DecidableEq V]

/-- A shelf has one row of a version that the store has of the name. -/
theorem Files.filter_eq (h : Files shelf rows store) (hs : shelf n = some s)
    (hstore : store n v = some d) : (rows s).filter (fun r => r.vers = v) = [⟨n, v, d⟩] := by
  obtain ⟨s', hs', hmem⟩ := h.complete n v d hstore
  rw [hs] at hs'
  cases hs'
  exact filter_eq_singleton (h.distinct s) hmem

/-- A shelf has no row of a version that the name does not have, unless another name has it. -/
theorem Files.filter_nil_iff (h : Files shelf rows store) (hs : shelf n = some s)
    (hstore : store n v = none) :
    (rows s).filter (fun r => r.vers = v) = [] ↔ Alone shelf store n v := by
  constructor
  · intro hnil m _ hshelf
    cases hm : store m v with
    | none => rfl
    | some d =>
      obtain ⟨s', hs', hmem⟩ := h.complete m v d hm
      rw [hshelf, hs] at hs'
      cases hs'
      exact absurd (by simp) (List.filter_eq_nil_iff.mp hnil _ hmem)
  · intro halone
    apply filter_eq_nil
    intro r hr hv
    obtain ⟨_, hsome⟩ := h.sound s r hr
    rw [h.name_eq hs halone hr hv, hv, hstore] at hsome
    cases hsome

/-! ## Writing -/

/-- The row of a version with its data changed. -/
def Row.alter (v : V) (f : D → D) (r : Row N V D) : Row N V D :=
  if r.vers = v then { r with data := f r.data } else r

theorem Row.alter_name (f : D → D) (r : Row N V D) : (r.alter v f).name = r.name := by
  unfold Row.alter
  split <;> rfl

theorem Row.alter_vers (f : D → D) (r : Row N V D) : (r.alter v f).vers = r.vers := by
  unfold Row.alter
  split <;> rfl

/-- A row that its change does nothing to. -/
theorem Row.alter_same {f : D → D} {r : Row N V D} (h : r.vers = v → f r.data = r.data) :
    r.alter v f = r := by
  unfold Row.alter
  split
  · rename_i hv
    rw [h hv]
  · rfl

variable [DecidableEq N] [DecidableEq S]

/-- A version of a name gets data. -/
def Store.put (store : Store N V D) (n : N) (v : V) (d : D) : Store N V D := fun m w =>
  if m = n ∧ w = v then some d else store m w

/-- The data of a version of a name is changed, if there is any. -/
def Store.alter (store : Store N V D) (n : N) (v : V) (f : D → D) : Store N V D := fun m w =>
  if m = n ∧ w = v then (store n v).map f else store m w

/-- A shelf is written with a new row in the place of those of its version. -/
theorem Files.put (h : Files shelf rows store) (hs : shelf n = some s)
    (halone : Alone shelf store n v) (hl : (l.map Row.vers).Nodup)
    (hrows : ∀ r, r ∈ l ↔ r = ⟨n, v, d⟩ ∨ r ∈ rows s ∧ r.vers ≠ v) :
    Files shelf (Function.update rows s l) (store.put n v d) where
  distinct t := by
    by_cases ht : t = s
    · subst ht
      simpa using hl
    · simpa [ht] using h.distinct t
  sound t r hr := by
    by_cases ht : t = s
    · subst ht
      rw [Function.update_self] at hr
      rcases (hrows r).mp hr with rfl | ⟨hr, hv⟩
      · exact ⟨hs, if_pos ⟨rfl, rfl⟩⟩
      · obtain ⟨hshelf, hstore⟩ := h.sound t r hr
        exact ⟨hshelf, (if_neg fun hsame => hv hsame.2).trans hstore⟩
    · rw [Function.update_of_ne ht] at hr
      obtain ⟨hshelf, hstore⟩ := h.sound t r hr
      exact ⟨hshelf, (if_neg fun hsame => h.name_ne hs ht hr hsame.1).trans hstore⟩
  complete m w d' hm := by
    unfold Store.put at hm
    split at hm
    · rename_i hsame
      obtain ⟨rfl, rfl⟩ := hsame
      cases hm
      exact ⟨s, hs, by simp [hrows]⟩
    · rename_i hother
      obtain ⟨t, ht, hmem⟩ := h.complete m w d' hm
      refine ⟨t, ht, ?_⟩
      by_cases hts : t = s
      · subst hts
        have hne : w ≠ v := by
          rintro rfl
          exact hother ⟨h.name_eq hs halone hmem rfl, rfl⟩
        rw [Function.update_self, hrows]
        exact .inr ⟨hmem, hne⟩
      · rwa [Function.update_of_ne hts]

/-- A shelf is written with the row of a version changed, where the change does nothing to the data
of other names. -/
theorem Files.alter {f : D → D} (h : Files shelf rows store) (hs : shelf n = some s)
    (hothers : ∀ m d, m ≠ n → shelf m = shelf n → store m v = some d → f d = d) :
    Files shelf (Function.update rows s ((rows s).map (Row.alter v f))) (store.alter n v f) where
  distinct t := by
    by_cases ht : t = s
    · subst ht
      simpa [Function.comp_def, Row.alter_vers] using h.distinct t
    · simpa [ht] using h.distinct t
  sound t r hr := by
    by_cases ht : t = s
    · subst ht
      rw [Function.update_self] at hr
      obtain ⟨q, hq, rfl⟩ := List.mem_map.mp hr
      obtain ⟨hshelf, hstore⟩ := h.sound t q hq
      rw [Row.alter_name, Row.alter_vers]
      refine ⟨hshelf, ?_⟩
      unfold Store.alter
      split
      · rename_i hsame
        obtain ⟨rfl, rfl⟩ := hsame
        simp [hstore, Row.alter]
      · rename_i hother
        rw [Row.alter_same, hstore]
        intro hv
        have hname : q.name ≠ n := fun hname => hother ⟨hname, hv⟩
        exact hothers q.name q.data hname (hshelf.trans hs.symm) (hv ▸ hstore)
    · rw [Function.update_of_ne ht] at hr
      obtain ⟨hshelf, hstore⟩ := h.sound t r hr
      exact ⟨hshelf, (if_neg fun hsame => h.name_ne hs ht hr hsame.1).trans hstore⟩
  complete m w d' hm := by
    unfold Store.alter at hm
    split at hm
    · rename_i hsame
      obtain ⟨rfl, rfl⟩ := hsame
      obtain ⟨d, hd, rfl⟩ := Option.map_eq_some_iff.mp hm
      obtain ⟨t, ht, hmem⟩ := h.complete m w d hd
      rw [hs] at ht
      cases ht
      refine ⟨s, hs, ?_⟩
      rw [Function.update_self]
      exact List.mem_map.mpr ⟨_, hmem, by simp [Row.alter]⟩
    · rename_i hother
      obtain ⟨t, ht, hmem⟩ := h.complete m w d' hm
      refine ⟨t, ht, ?_⟩
      by_cases hts : t = s
      · subst hts
        rw [Function.update_self]
        refine List.mem_map.mpr ⟨_, hmem, Row.alter_same ?_⟩
        rintro rfl
        exact hothers m d' (fun hname => hother ⟨hname, rfl⟩) (ht.trans hs.symm) hm
      · rwa [Function.update_of_ne hts]

end base.shelves
