-- What a file path means: the location that its components lead to.
import Mathlib.Algebra.Order.Ring.Nat
import Mathlib.Data.List.Induction
import OtterFusion.Compiler.ImportPaths

namespace compiler.imports

/-! ## Locations -/

/-- Where a path leads, without the file system: from the root or from the working directory, so
many directories up, then down by names. -/
structure Location where
  absolute : Bool
  up : Nat
  names : List String
  deriving DecidableEq, Repr

namespace Location

/-- The working directory. -/
def here : Location := ⟨false, 0, []⟩

/-- One directory up: the last name goes, and without names the hop stays in front. -/
def climb (l : Location) : Location :=
  if l.names = [] then { l with up := l.up + 1 } else { l with names := l.names.dropLast }

/-- Down by names. -/
def descend (l : Location) (names : List String) : Location := { l with names := l.names ++ names }

/-- One component of a path. -/
def step (l : Location) : String → Location
  | "/" => ⟨true, 0, []⟩
  | "." => l
  | ".." => l.climb
  | name => l.descend [name]

end Location

/-- A component that names a file or a directory. -/
def IsName (comp : String) : Prop := comp ≠ "/" ∧ comp ≠ "." ∧ comp ≠ ".."

instance (comp : String) : Decidable (IsName comp) := inferInstanceAs (Decidable (_ ∧ _ ∧ _))

/-- The location of a path from another. -/
def locateFrom (l : Location) (p : Path) : Location := p.foldl Location.step l

/-- The location of a path from the working directory. -/
def locate (p : Path) : Location := locateFrom .here p

namespace Location

/-! ## Steps -/

theorem step_name {comp : String} (h : IsName comp) (l : Location) :
    l.step comp = l.descend [comp] := by
  obtain ⟨hroot, hdot, hdots⟩ := h
  unfold step
  split
  · exact absurd rfl hroot
  · exact absurd rfl hdot
  · exact absurd rfl hdots
  · rfl

theorem climb_descend (l : Location) (names : List String) (name : String) :
    (l.descend (names ++ [name])).climb = l.descend names := by
  simp [climb, descend, ← List.append_assoc]

/-! ## What climbing can reach -/

/-- A location at another or above it, as climbing gets there. -/
structure Above (m l : Location) : Prop where
  absolute : m.absolute = l.absolute
  up : l.up ≤ m.up
  names : m.names <+: l.names

theorem Above.refl (l : Location) : Above l l := ⟨rfl, le_rfl, List.prefix_rfl⟩

theorem climb_above {m l : Location} (h : Above m l) : Above m.climb l := by
  unfold climb
  split
  · exact ⟨h.absolute, h.up.trans (Nat.le_succ _), h.names⟩
  · exact ⟨h.absolute, h.up, (List.dropLast_prefix _).trans h.names⟩

/-! ## Locations of paths -/

/-- The names of a location are names. -/
def Plain (l : Location) : Prop := ∀ name ∈ l.names, IsName name

theorem Plain.step {l : Location} (h : l.Plain) (comp : String) : (l.step comp).Plain := by
  by_cases hname : IsName comp
  · rw [step_name hname]
    intro name hmem
    rcases List.mem_append.mp hmem with hold | hnew
    · exact h name hold
    · exact List.mem_singleton.mp hnew ▸ hname
  · unfold Location.step
    split
    · exact fun name hmem => absurd hmem List.not_mem_nil
    · exact h
    · unfold climb
      split
      · exact h
      · exact fun name hmem => h name ((List.dropLast_sublist _).subset hmem)
    · exact absurd ⟨by assumption, by assumption, by assumption⟩ hname

theorem Plain.locateFrom {l : Location} (h : l.Plain) (p : Path) :
    (compiler.imports.locateFrom l p).Plain := by
  induction p generalizing l with
  | nil => exact h
  | cons comp p ih => exact ih (h.step comp)

theorem locate_plain (p : Path) : (locate p).Plain :=
  Plain.locateFrom (fun _ hmem => absurd hmem List.not_mem_nil) p

end Location

/-! ## The parts of a path -/

theorem not_mem_of_mem_splitOn {text part : List Char} (h : part ∈ text.splitOn '/') :
    '/' ∉ part := by
  rw [List.splitOn_eq_splitOnP] at h
  induction text generalizing part with
  | nil =>
    rw [List.splitOnP_nil, List.mem_singleton] at h
    exact h ▸ List.not_mem_nil
  | cons c text ih =>
    rw [List.splitOnP_cons_eq_if_modifyHead] at h
    split at h
    · rcases List.mem_cons.mp h with rfl | h
      · exact List.not_mem_nil
      · exact ih h
    · rename_i hc
      obtain ⟨first, rest, hsplit⟩ :=
        List.exists_cons_of_ne_nil (List.splitOnP_ne_nil (· == '/') text)
      rw [hsplit] at h ih
      rcases List.mem_cons.mp h with rfl | h
      · rw [List.mem_cons, not_or]
        exact ⟨fun hslash => hc (by simp [← hslash]), ih (List.mem_cons_self ..)⟩
      · exact ih (List.mem_cons_of_mem _ h)

end compiler.imports
