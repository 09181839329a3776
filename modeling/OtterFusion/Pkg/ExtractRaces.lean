-- The keyed directory is complete in each run in which no process takes away, from another one that
-- has not renamed it yet, what that one has unpacked.
import OtterFusion.Base.Runs
import OtterFusion.Pkg.Extract

open base.runs

namespace pkg.store

variable {P C ι : Type} {lib : Library P C} {expected : String}

/-! ## What an archive holds -/

section archives

variable [DecidableEq P] {es : List (P × C)} {tmp : Option (Tree P C)} {m n : Nat} {p : P} {c : C}

/-- The file that an archive has at a path: of the entries for a path the last one counts. -/
def files (es : List (P × C)) (p : P) : Option C := es.reverse.lookup p

/-- A directory has each file of the first `m` entries, from the entry itself or from a later one.
-/
def Kept (es : List (P × C)) (m : Nat) (tmp : Option (Tree P C)) : Prop :=
  ∀ t p c, es[t]? = some (p, c) → t < m →
    ∃ u c', t ≤ u ∧ es[u]? = some (p, c') ∧ fileAt tmp p = some c'

/-- A directory has no other paths than an archive. -/
def Known (es : List (P × C)) (tmp : Option (Tree P C)) : Prop :=
  ∀ p c, fileAt tmp p = some c → ∃ c', (p, c') ∈ es

theorem fileAt_leftOf (kept : P → Bool) (tmp : Option (Tree P C)) (p : P) :
    fileAt (leftOf kept tmp) p = if kept p then fileAt tmp p else none := by
  cases tmp with
  | none => simp [fileAt, leftOf]
  | some t =>
    simp only [fileAt, leftOf, Option.map_some, Option.bind_some]
    induction t with
    | nil => simp
    | cons e t ih =>
      obtain ⟨q, d⟩ := e
      rw [List.filter_cons, List.lookup_cons]
      by_cases hp : p = q
      · subst hp
        by_cases hkept : kept p
        · simp [hkept]
        · simp [hkept, ih]
      · rw [beq_false_of_ne hp]
        by_cases hkept : kept q
        · rw [if_pos hkept, List.lookup_cons, beq_false_of_ne hp, ih]
        · rw [if_neg hkept, ih]

theorem fileAt_create (tmp : Option (Tree P C)) (p : P) :
    fileAt (some (tmp.getD [])) p = fileAt tmp p := by
  cases tmp <;> simp [fileAt]

theorem fileAt_write (tmp : Option (Tree P C)) (p : P) (content : Option C) (q : P) :
    fileAt (some (write tmp p content)) q = if q = p then content else fileAt tmp q := by
  have hothers : fileAt (some ((tmp.getD []).filter fun e => e.1 ≠ p)) q =
      if q = p then none else fileAt tmp q := by
    have hleft := fileAt_leftOf (fun r => decide (r ≠ p)) (some (tmp.getD [])) q
    rw [fileAt_create] at hleft
    refine hleft.trans ?_
    by_cases hq : q = p <;> simp [hq]
  cases content with
  | none => rw [write, hothers]
  | some c =>
    by_cases hq : q = p
    · simp [write, fileAt, hq]
    · rw [if_neg hq] at hothers ⊢
      rw [← hothers, write, fileAt, Option.bind_some, List.lookup_cons, beq_false_of_ne hq]
      rfl

/-- A directory with all files of an archive and no others is complete. -/
theorem Kept.complete (h : Kept es es.length tmp) (hknown : Known es tmp) (p : P) :
    fileAt tmp p = files es p := by
  cases hfile : files es p with
  | none =>
    cases hp : fileAt tmp p with
    | none => rfl
    | some c =>
      obtain ⟨c', hmem⟩ := hknown p c hp
      have hnone := List.lookup_eq_none_iff.mp hfile (p, c') (List.mem_reverse.mpr hmem)
      simp at hnone
  | some c =>
    obtain ⟨later, earlier, hsplit, hlast⟩ := List.lookup_eq_some_iff.mp hfile
    have hes : es = earlier.reverse ++ (p, c) :: later.reverse := by
      rw [← List.reverse_reverse es, hsplit]
      simp
    have ht : es[earlier.length]? = some (p, c) := by
      simp [hes]
    have hlt : earlier.length < es.length := by
      simp [hes]
    obtain ⟨u, c', hle, hu, hc⟩ := h _ p c ht hlt
    rcases Nat.eq_or_lt_of_le hle with rfl | hgt
    · rw [ht] at hu
      cases hu
      exact hc
    · exfalso
      rw [hes, List.getElem?_append_right (by simpa using hle)] at hu
      obtain ⟨d, hd⟩ := Nat.exists_eq_add_of_lt hgt
      have hindex : u - earlier.reverse.length = d + 1 := by
        rw [List.length_reverse]
        omega
      rw [hindex, List.getElem?_cons_succ] at hu
      have hmem := List.mem_reverse.mp (List.mem_of_getElem? hu)
      simpa using hlast _ hmem

theorem kept_zero (es : List (P × C)) (tmp : Option (Tree P C)) : Kept es 0 tmp :=
  fun t _ _ _ hlt => absurd hlt (Nat.not_lt_zero t)

/-- The same files, or some of them that are enough. -/
theorem Kept.of_fileAt {tmp' : Option (Tree P C)} (h : Kept es m tmp)
    (hsame : ∀ e ∈ es.take m, fileAt tmp' e.1 = fileAt tmp e.1) : Kept es m tmp' := by
  intro t p c ht hlt
  obtain ⟨u, c', hle, hu, hc⟩ := h t p c ht hlt
  have hmem : (p, c) ∈ es.take m := by
    refine List.mem_of_getElem? (i := t) ?_
    rw [List.getElem?_take_of_lt hlt, ht]
  exact ⟨u, c', hle, hu, (hsame _ hmem).trans hc⟩

/-- An entry is unpacked: no file is replaced by an older one. -/
theorem Kept.write (h : Kept es m tmp) (hn : es[n]? = some (p, c))
    (hold : ∀ t d, n < t → t < m → es[t]? ≠ some (p, d)) :
    Kept es m (some (pkg.store.write tmp p (some c))) := by
  intro t q d ht hlt
  rw [fileAt_write]
  split
  next hq =>
    subst hq
    rcases Nat.lt_or_ge n t with hgt | hle
    · exact absurd ht (hold t d hgt hlt)
    · exact ⟨n, c, hle, hn, rfl⟩
  next hq => exact h t q d ht hlt

/-- An entry is unpacked after all those before it. -/
theorem Kept.unpack (h : Kept es n tmp) (hn : es[n]? = some (p, c)) :
    Kept es (n + 1) (some (pkg.store.write tmp p (some c))) := by
  have hothers := h.write hn fun t d hgt hlt => absurd hlt (Nat.lt_asymm hgt)
  intro t q d ht hlt
  rcases Nat.lt_succ_iff_lt_or_eq.mp hlt with hlt | rfl
  · exact hothers t q d ht hlt
  · rw [hn] at ht
    cases ht
    exact ⟨t, c, Nat.le_refl t, hn, by rw [fileAt_write, if_pos rfl]⟩

theorem Known.of_fileAt {tmp' : Option (Tree P C)} (h : Known es tmp)
    (hsub : ∀ p c, fileAt tmp' p = some c → fileAt tmp p = some c ∨ ∃ c', (p, c') ∈ es) :
    Known es tmp' := by
  intro p c hp
  rcases hsub p c hp with hp | hmem
  · exact h p c hp
  · exact hmem

theorem Known.leftOf (h : Known es tmp) (kept : P → Bool) :
    Known es (pkg.store.leftOf kept tmp) := by
  refine h.of_fileAt fun p c hp => .inl ?_
  rw [fileAt_leftOf] at hp
  split at hp
  · exact hp
  · cases hp

theorem Known.write (h : Known es tmp) (hmem : (p, c) ∈ es) (content : Option C) :
    Known es (some (pkg.store.write tmp p content)) := by
  refine h.of_fileAt fun q d hq => ?_
  rw [fileAt_write] at hq
  split at hq
  next hqp => exact .inr ⟨c, hqp ▸ hmem⟩
  next => exact .inl hq

end archives

/-! ## What each step keeps -/

variable (lib expected)

/-- How many entries of an archive a process has unpacked and not renamed yet. -/
def done (archive : Archive P C) : Phase → Nat
  | .unpacking n => n
  | .testingAgain => archive.entries.length
  | .renamingTmp => archive.entries.length
  | _ => 0

/-- A call of a process takes nothing away that another one has unpacked, and puts no older file in
its place. -/
def Spares (own : Archive P C) (phase : Phase) (event : Event P C) (other : Archive P C) (m : Nat) :
    Prop :=
  match phase, event with
  | .clearing, .works => m = 0
  | .clearing, .leaves kept => ∀ e ∈ other.entries.take m, kept e.1 = true
  | .unpacking n, .works => ∀ e, own.entries[n]? = some e →
      ∀ t f, n < t → t < m → other.entries[t]? = some f → f.1 ≠ e.1
  | .unpacking n, .tears _ => ∀ e, own.entries[n]? = some e →
      ∀ f ∈ other.entries.take m, f.1 ≠ e.1
  | _, _ => True

/-- While the keyed directory is not there, a step spares what the other processes have unpacked. -/
def Proper (s : State P C ι) (l : ι × Event P C) : Prop :=
  let archive i := lib.archive (s.processes i).tarGz
  let phase i := (s.processes i).phase
  s.disk.dest = none → ∀ j, j ≠ l.1 →
    Spares (archive l.1) (phase l.1) l.2 (archive j) (done (archive j) (phase j))

variable [DecidableEq P]

/-- What holds of a process in each state, when `tarGz` is the only tarball with the checksum. -/
def Fine (tarGz : Bytes) (disk : Disk P C) (process : Process) : Prop :=
  let archive := lib.archive tarGz
  let kept m := disk.dest = none → Kept archive.entries m disk.tmp
  match process.phase with
  | .testing | .clearing | .creating => process.tarGz = tarGz
  | .unpacking n => process.tarGz = tarGz ∧ kept n
  | .testingAgain | .renamingTmp =>
    process.tarGz = tarGz ∧ archive.whole = true ∧ kept archive.entries.length
  | .discarding | .returned true => disk.dest ≠ none
  | .verifying | .returned false | .crashed => True

/-- What holds of the two directories. -/
structure Complete (tarGz : Bytes) (disk : Disk P C) : Prop where
  known : Known (lib.archive tarGz).entries disk.tmp
  dest : ∀ tree, disk.dest = some tree → (lib.archive tarGz).whole = true ∧
    ∀ p, fileAt (some tree) p = files (lib.archive tarGz).entries p

variable {lib expected} {tarGz : Bytes} {disk disk' : Disk P C} {process : Process} {phase' : Phase}
  {event : Event P C}

/-- What comes of a turn of the unpacking. -/
theorem unpacking_cases {own : Bytes} {n : Nat}
    (h : turn lib expected disk own (.unpacking n) event = some (disk', phase')) :
    (∃ p c, (lib.archive own).entries[n]? = some (p, c) ∧
      ((event = .works ∧ disk' = { disk with tmp := some (write disk.tmp p (some c)) } ∧
          phase' = .unpacking (n + 1)) ∨
        ∃ torn, event = .tears torn ∧ disk' = { disk with tmp := some (write disk.tmp p torn) } ∧
          phase' = .returned false)) ∨
    (disk' = disk ∧ ((lib.archive own).entries[n]? = none ∧ (lib.archive own).whole = true ∧
      phase' = .testingAgain ∨ phase' = .returned false ∨ phase' = .crashed)) := by
  unfold turn at h
  dsimp only at h
  split at h
  next p c hentry =>
    cases h
    exact .inl ⟨p, c, hentry, .inl ⟨rfl, rfl, rfl⟩⟩
  next p c torn hentry =>
    cases h
    exact .inl ⟨p, c, hentry, .inr ⟨torn, rfl, rfl, rfl⟩⟩
  next hentry =>
    cases h
    by_cases hwhole : (lib.archive own).whole
    · exact .inr ⟨rfl, .inl ⟨hentry, hwhole, if_pos hwhole⟩⟩
    · exact .inr ⟨rfl, .inr (.inl (if_neg hwhole))⟩
  next =>
    cases h
    exact .inr ⟨rfl, .inr (.inl rfl)⟩
  next =>
    cases h
    exact .inr ⟨rfl, .inr (.inr rfl)⟩
  next => cases h

/-- The temporary directory takes the place of none, or of one with nothing in it. -/
theorem renamingTmp_works {own : Bytes}
    (h : turn lib expected disk own .renamingTmp .works = some (disk', phase')) :
    ∃ tree, disk.tmp = some tree ∧ (disk.dest = none ∨ disk.dest = some []) ∧
      disk' = ⟨some tree, none⟩ ∧ phase' = .returned true := by
  unfold turn at h
  dsimp only at h
  split at h
  next tree htmp hdest =>
    cases h
    refine ⟨tree, htmp, ?_, rfl, rfl⟩
    cases hd : disk.dest with
    | none => exact .inl rfl
    | some d =>
      rw [hd, Option.getD_some] at hdest
      exact .inr (by rw [hdest])
  next => cases h

theorem Complete.of_tmp {tmp : Option (Tree P C)} (h : Complete lib tarGz disk)
    (hknown : Known (lib.archive tarGz).entries tmp) :
    Complete lib tarGz { disk with tmp } :=
  ⟨hknown, h.dest⟩

theorem known_none {es : List (P × C)} : Known es none := fun _ _ h => by cases h

/-- The directory that a process renames is complete. -/
theorem Complete.rename {tree : Tree P C} (h : Complete lib tarGz disk)
    (htmp : disk.tmp = some tree)
    (hwhole : (lib.archive tarGz).whole = true)
    (hkept : disk.dest = none → Kept (lib.archive tarGz).entries (lib.archive tarGz).entries.length
      disk.tmp)
    (hdest : disk.dest = none ∨ disk.dest = some []) :
    Complete lib tarGz ⟨some tree, none⟩ := by
  refine ⟨known_none, fun d hd => ⟨hwhole, fun p => ?_⟩⟩
  cases hd
  have hknown := h.known
  rw [htmp] at hknown hkept
  rcases hdest with hnone | hempty
  · exact (hkept hnone).complete hknown p
  · have hfiles := (h.dest [] hempty).2 p
    rw [← hfiles]
    cases hp : fileAt (some tree) p with
    | none => rfl
    | some c =>
      obtain ⟨c', hmem⟩ := hknown p c hp
      have hnone := List.lookup_eq_none_iff.mp hfiles.symm (p, c') (List.mem_reverse.mpr hmem)
      simp at hnone

/-- A call keeps what holds of the directories and of the process that makes it. -/
theorem turn_fine (hverified : ∀ bytes, verify lib expected bytes = true → bytes = tarGz)
    (hdisk : Complete lib tarGz disk) (hfine : Fine lib tarGz disk process)
    (h : turn lib expected disk process.tarGz process.phase event = some (disk', phase')) :
    Complete lib tarGz disk' ∧ Fine lib tarGz disk' ⟨process.tarGz, phase'⟩ := by
  obtain ⟨own, phase⟩ := process
  dsimp only at h
  cases phase with
  | verifying =>
    cases event <;> cases h
    · refine ⟨hdisk, ?_⟩
      split
      next hverify => exact hverified own hverify
      next => trivial
    · exact ⟨hdisk, trivial⟩
  | testing =>
    cases event <;> cases h
    · refine ⟨hdisk, ?_⟩
      split
      next hdest => exact Option.isSome_iff_ne_none.mp hdest
      next => exact hfine
    · exact ⟨hdisk, trivial⟩
  | clearing =>
    cases event <;> cases h
    · exact ⟨hdisk.of_tmp known_none, hfine⟩
    · exact ⟨hdisk.of_tmp (hdisk.known.leftOf _), hfine⟩
    · exact ⟨hdisk, trivial⟩
  | creating =>
    cases event <;> cases h
    · refine ⟨hdisk.of_tmp (hdisk.known.of_fileAt fun p c hp => .inl ?_), hfine, fun _ =>
        kept_zero _ _⟩
      rwa [fileAt_create] at hp
    · exact ⟨hdisk, trivial⟩
    · exact ⟨hdisk, trivial⟩
  | unpacking n =>
    obtain ⟨rfl, hkept⟩ := hfine
    rcases unpacking_cases h with ⟨p, c, hentry, ⟨rfl, rfl, rfl⟩ | ⟨torn, rfl, rfl, rfl⟩⟩ |
      ⟨rfl, ⟨hentry, hwhole, rfl⟩ | rfl | rfl⟩
    · have hmem := List.mem_of_getElem? hentry
      exact ⟨hdisk.of_tmp (hdisk.known.write hmem _), rfl, fun hdest => (hkept hdest).unpack hentry⟩
    · exact ⟨hdisk.of_tmp (hdisk.known.write (List.mem_of_getElem? hentry) _), trivial⟩
    · refine ⟨hdisk, rfl, hwhole, fun hdest t q d ht _ => ?_⟩
      have hlt := (List.getElem?_eq_some_iff.mp ht).1
      exact hkept hdest t q d ht (Nat.lt_of_lt_of_le hlt (List.getElem?_eq_none_iff.mp hentry))
    · exact ⟨hdisk, trivial⟩
    · exact ⟨hdisk, trivial⟩
  | testingAgain =>
    cases event <;> cases h
    · refine ⟨hdisk, ?_⟩
      split
      next hdest => exact Option.isSome_iff_ne_none.mp hdest
      next => exact hfine
    · exact ⟨hdisk, trivial⟩
  | discarding =>
    cases event <;> cases h
    · exact ⟨hdisk.of_tmp known_none, hfine⟩
    · exact ⟨hdisk.of_tmp (hdisk.known.leftOf _), hfine⟩
    · exact ⟨hdisk, trivial⟩
  | renamingTmp =>
    obtain ⟨-, hwhole, hkept⟩ := hfine
    cases event with
    | works =>
      obtain ⟨tree, htmp, hdest, rfl, rfl⟩ := renamingTmp_works h
      exact ⟨hdisk.rename htmp hwhole hkept hdest, Option.some_ne_none tree⟩
    | fails =>
      cases h
      exact ⟨hdisk, trivial⟩
    | leaves kept => cases h
    | tears torn => cases h
    | crashes =>
      cases h
      exact ⟨hdisk, trivial⟩
  | returned ok => cases event <;> cases h
  | crashed => cases event <;> cases h

/-- The keyed directory stays. -/
theorem turn_dest (h : turn lib expected disk process.tarGz process.phase event =
    some (disk', phase')) (hdest : disk.dest ≠ none) : disk'.dest ≠ none := by
  obtain ⟨own, phase⟩ := process
  dsimp only at h
  cases phase with
  | unpacking n =>
    rcases unpacking_cases h with ⟨p, c, -, ⟨-, rfl, -⟩ | ⟨torn, -, rfl, -⟩⟩ | ⟨rfl, -⟩
    · exact hdest
    · exact hdest
    · exact hdest
  | renamingTmp =>
    cases event with
    | works =>
      obtain ⟨tree, -, -, rfl, -⟩ := renamingTmp_works h
      exact Option.some_ne_none tree
    | leaves kept => cases h
    | tears torn => cases h
    | fails =>
      cases h
      exact hdest
    | crashes =>
      cases h
      exact hdest
  | _ => cases event <;> cases h <;> exact hdest

/-- A call that spares another process's files keeps them. -/
theorem turn_keeps {m : Nat} (hfine : Fine lib tarGz disk process)
    (h : turn lib expected disk process.tarGz process.phase event = some (disk', phase'))
    (hspares : Spares (lib.archive process.tarGz) process.phase event (lib.archive tarGz) m)
    (hkept : Kept (lib.archive tarGz).entries m disk.tmp) (hdest : disk'.dest = none) :
    Kept (lib.archive tarGz).entries m disk'.tmp := by
  have hdest_before : disk.dest = none := by
    by_contra hne
    exact turn_dest h hne hdest
  obtain ⟨own, phase⟩ := process
  dsimp only at h hspares
  cases phase with
  | verifying => cases event <;> cases h <;> exact hkept
  | testing => cases event <;> cases h <;> exact hkept
  | clearing =>
    cases event with
    | works =>
      obtain rfl : m = 0 := hspares
      exact kept_zero _ _
    | leaves kept =>
      cases h
      refine hkept.of_fileAt fun e he => ?_
      rw [fileAt_leftOf, if_pos (hspares e he)]
    | fails => cases h
    | tears torn => cases h
    | crashes =>
      cases h
      exact hkept
  | creating =>
    cases event <;> cases h
    · exact hkept.of_fileAt fun e _ => fileAt_create _ _
    · exact hkept
    · exact hkept
  | unpacking n =>
    obtain ⟨rfl, -⟩ := hfine
    rcases unpacking_cases h with ⟨p, c, hentry, ⟨rfl, rfl, -⟩ | ⟨torn, rfl, rfl, -⟩⟩ | ⟨rfl, -⟩
    · exact hkept.write hentry fun t d hgt hlt ht => hspares _ hentry t _ hgt hlt ht rfl
    · refine hkept.of_fileAt fun e he => ?_
      rw [fileAt_write, if_neg (hspares _ hentry e he)]
    · exact hkept
  | testingAgain => cases event <;> cases h <;> exact hkept
  | discarding => exact absurd hdest_before hfine
  | renamingTmp =>
    cases event with
    | works =>
      obtain ⟨tree, -, -, rfl, -⟩ := renamingTmp_works h
      cases hdest
    | leaves kept => cases h
    | tears torn => cases h
    | fails =>
      cases h
      exact hkept
    | crashes =>
      cases h
      exact hkept
  | returned ok => cases event <;> cases h
  | crashed => cases event <;> cases h

/-- What holds of a process holds still when its files are kept and the keyed directory stays. -/
theorem Fine.mono (h : Fine lib tarGz disk process) (hdest : disk.dest ≠ none → disk'.dest ≠ none)
    (hkept : disk'.dest = none → process.tarGz = tarGz →
      Kept (lib.archive tarGz).entries (done (lib.archive process.tarGz) process.phase) disk.tmp →
      Kept (lib.archive tarGz).entries (done (lib.archive process.tarGz) process.phase) disk'.tmp) :
    Fine lib tarGz disk' process := by
  have hbefore : disk'.dest = none → disk.dest = none := fun hnone => by
    by_contra hne
    exact hdest hne hnone
  obtain ⟨own, phase⟩ := process
  cases phase with
  | verifying => trivial
  | testing => exact h
  | clearing => exact h
  | creating => exact h
  | unpacking n => exact ⟨h.1, fun hnone => hkept hnone h.1 (h.2 (hbefore hnone))⟩
  | testingAgain =>
    obtain ⟨rfl, hwhole, h⟩ := h
    exact ⟨rfl, hwhole, fun hnone => hkept hnone rfl (h (hbefore hnone))⟩
  | discarding => exact hdest h
  | renamingTmp =>
    obtain ⟨rfl, hwhole, h⟩ := h
    exact ⟨rfl, hwhole, fun hnone => hkept hnone rfl (h (hbefore hnone))⟩
  | returned ok =>
    cases ok with
    | true => exact hdest h
    | false => trivial
  | crashed => trivial

variable [DecidableEq ι] {s t : State P C ι}

/-- What holds in each state of a run. -/
structure Sound (lib : Library P C) (tarGz : Bytes) (s : State P C ι) : Prop where
  complete : Complete lib tarGz s.disk
  fine : ∀ i, Fine lib tarGz s.disk (s.processes i)

omit [DecidableEq ι] in
theorem sound_start (h : Start s) : Sound lib tarGz s := by
  obtain ⟨hdisk, hphase⟩ := h
  refine ⟨?_, fun i => ?_⟩
  · rw [hdisk]
    exact ⟨known_none, fun tree htree => by cases htree⟩
  · unfold Fine
    rw [hphase]
    trivial

theorem Sound.step (hverified : ∀ bytes, verify lib expected bytes = true → bytes = tarGz)
    (h : Sound lib tarGz s) {l : ι × Event P C} (hproper : Proper lib s l)
    (hstep : step lib expected s l = some t) : Sound lib tarGz t := by
  unfold pkg.store.step at hstep
  obtain ⟨⟨disk', phase'⟩, hturn, hnext⟩ := Option.bind_eq_some_iff.mp hstep
  cases hnext
  obtain ⟨hcomplete, hown⟩ := turn_fine hverified h.complete (h.fine l.1) hturn
  refine ⟨hcomplete, fun j => ?_⟩
  dsimp only
  by_cases hj : j = l.1
  · subst hj
    rw [Function.update_self]
    exact hown
  · rw [Function.update_of_ne hj]
    refine (h.fine j).mono (turn_dest hturn) fun hnone htarGz hkept => ?_
    have hbefore : s.disk.dest = none := by
      by_contra hne
      exact turn_dest hturn hne hnone
    have hspares := hproper hbefore j hj
    dsimp only at hspares
    rw [htarGz] at hspares hkept ⊢
    exact turn_keeps (h.fine l.1) hturn hspares hkept hnone

/-- The keyed directory has the files of the verified archive, and an extraction that returns `Ok`
returns it, in each run whose steps spare what other processes have unpacked. -/
theorem extract_complete (hverified : ∀ bytes, verify lib expected bytes = true → bytes = tarGz)
    (h : Reaches (pkg.store.step lib expected) Start (Proper lib) s) :
    (∀ tree, s.disk.dest = some tree →
      ∀ p, fileAt (some tree) p = files (lib.archive tarGz).entries p) ∧
    ∀ i, (s.processes i).phase = .returned true → ∃ tree, s.disk.dest = some tree := by
  have hsound : Sound lib tarGz s :=
    h.invariant (fun _ => sound_start) fun _ _ _ hs hproper hstep =>
      hs.step hverified hproper hstep
  refine ⟨fun tree htree => (hsound.complete.dest tree htree).2, fun i hi => ?_⟩
  have hfine := hsound.fine i
  unfold Fine at hfine
  rw [hi] at hfine
  exact Option.ne_none_iff_exists'.mp hfine

/-! ## Two processes -/

/-- An archive with the file `a`, which is `x`, and the file `b`, which is `y`. -/
def twoFiles : Bytes := [
  31, 139, 8, 0, 0, 0, 0, 0, 2, 255, 75, 100, 160, 61, 48, 0, 2, 51, 19, 19, 48, 13, 4, 232, 52,
  16, 24, 34, 177, 65, 226, 102, 6, 198, 230, 12, 10, 6, 116, 112, 27, 67, 105, 113, 73, 98, 145,
  130, 2, 195, 8, 5, 21, 12, 163, 96, 36, 131, 164, 65, 154, 255, 77, 12, 70, 243, 63, 61, 64,
  229, 104, 22, 24, 5, 163, 96, 20, 140, 130, 17, 9, 0, 68, 66, 50, 190, 0, 12, 0, 0]

/-- The SHA-256 of the archive. -/
def twoFilesHex : String := "d30659aeefc64571634e9c9cc117d1b43556bedf9fe3a0ec98375e25e8c36f90"

/-- A library that knows this archive. -/
def sample : Library Bytes Bytes where
  sha256Hex bytes := if bytes = twoFiles then twoFilesHex else ""
  archive bytes := if bytes = twoFiles then ⟨[([0x61], [0x78]), ([0x62], [0x79])], true⟩
    else ⟨[], false⟩

theorem stripPrefix_sha256 (hex : String) : stripPrefix ("sha256:" ++ hex) = hex.toList := by
  simp [stripPrefix]

theorem verify_sample (bytes : Bytes) :
    verify sample ("sha256:" ++ twoFilesHex) bytes = true ↔ bytes = twoFiles := by
  unfold verify
  rw [stripPrefix_sha256, decide_eq_true_eq]
  by_cases h : bytes = twoFiles
  · simp [sample, h]
  · simp [sample, h, twoFilesHex]

/-- Two processes that have both verified the archive. -/
def twoVerified : State Bytes Bytes Bool := ⟨⟨none, none⟩, fun _ => ⟨twoFiles, .testing⟩⟩

omit [DecidableEq P] in
/-- Another process that has unpacked nothing is spared. -/
theorem spares_zero (own other : Archive P C) (phase : Phase) (event : Event P C) :
    Spares own phase event other 0 := by
  unfold Spares
  split <;> simp

/-- The processes verify the archive. -/
theorem reaches_twoVerified :
    Reaches (step sample ("sha256:" ++ twoFilesHex)) Start (Proper sample) twoVerified := by
  have hturn : ∀ disk : Disk Bytes Bytes,
      turn sample ("sha256:" ++ twoFilesHex) disk twoFiles .verifying .works =
        some (disk, .testing) := fun disk => by
    rw [turn, if_pos ((verify_sample twoFiles).mpr rfl)]
  have hproper : ∀ (s : State Bytes Bytes Bool) (l : Bool × Event Bytes Bytes),
      (∀ i, (s.processes i).phase = .verifying ∨ (s.processes i).phase = .testing) →
      Proper sample s l := by
    intro s l hs _ j _
    dsimp only
    rcases hs j with h | h
    · rw [h]
      exact spares_zero _ _ _ _
    · rw [h]
      exact spares_zero _ _ _ _
  let s₀ : State Bytes Bytes Bool := ⟨⟨none, none⟩, fun _ => ⟨twoFiles, .verifying⟩⟩
  let s₁ : State Bytes Bytes Bool :=
    ⟨⟨none, none⟩, Function.update s₀.processes false ⟨twoFiles, .testing⟩⟩
  have h₁ : step sample ("sha256:" ++ twoFilesHex) s₀ (false, .works) = some s₁ := by
    simp [step, s₀, s₁, hturn]
  have h₂ : step sample ("sha256:" ++ twoFilesHex) s₁ (true, .works) = some twoVerified := by
    simp only [step, s₁, s₀, ne_eq, Bool.true_eq_false, not_false_eq_true, Function.update_of_ne,
      hturn, Option.bind_eq_bind, Option.bind_some, Option.some.injEq, twoVerified, State.mk.injEq,
      true_and]
    funext i
    cases i <;> rfl
  have hs₁ : ∀ i, (s₁.processes i).phase = .verifying ∨ (s₁.processes i).phase = .testing := by
    intro i
    cases i
    · exact .inr rfl
    · exact .inl rfl
  exact .next (.next (.start ⟨rfl, fun _ => rfl⟩) (hproper s₀ _ fun _ => .inl rfl) h₁)
    (hproper s₁ _ hs₁) h₂

/-- The calls of one process, from the test on, when the keyed directory is not there. -/
def extracts (i : Bool) : List (Bool × Event Bytes Bytes) := List.replicate 8 (i, .works)

/-- One process extracts the archive, and the other one finds it. -/
theorem extract_complete_at :
    ∃ s : State Bytes Bytes Bool,
      Reaches (step sample ("sha256:" ++ twoFilesHex)) Start (Proper sample) s ∧
      (∀ i, (s.processes i).phase = .returned true) ∧
      (∀ tree, s.disk.dest = some tree →
        ∀ p, fileAt (some tree) p = files (sample.archive twoFiles).entries p) ∧
      ∀ i, (s.processes i).phase = .returned true → ∃ tree, s.disk.dest = some tree := by
  let test : State Bytes Bytes Bool → Bool × Event Bytes Bytes → Bool := fun s l =>
    done (sample.archive (s.processes !l.1).tarGz) (s.processes !l.1).phase = 0
  have htest : ∀ s l, test s l = true → Proper sample s l := by
    intro s l h _ j hj
    obtain rfl : j = !l.1 := Bool.eq_not_of_ne hj
    dsimp only
    rw [of_decide_eq_true h]
    exact spares_zero _ _ _ _
  have hany :
      (run (fun s l => if test s l then step sample ("sha256:" ++ twoFilesHex) s l else none)
      twoVerified (extracts false ++ [(true, .works)])).any
        fun s => decide ((s.processes false).phase = .returned true ∧
          (s.processes true).phase = .returned true) := by decide
  obtain ⟨s, hs, hreturned⟩ := (Option.any_eq_true _ _).mp hany
  have hreaches := reaches_twoVerified.of_tested_run htest hs
  obtain ⟨hfalse, htrue⟩ := of_decide_eq_true hreturned
  exact ⟨s, hreaches, Bool.forall_bool.mpr ⟨hfalse, htrue⟩,
    extract_complete (fun bytes => (verify_sample bytes).mp) hreaches⟩

/-- A process removes the temporary directory when the other one has unpacked the first file of two:
the directory that is renamed, and returned, has the second file only. -/
theorem removal_races :
    ∃ s : State Bytes Bytes Bool,
      Reachable (step sample ("sha256:" ++ twoFilesHex)) Start s ∧
      (∀ bytes, verify sample ("sha256:" ++ twoFilesHex) bytes = true → bytes = twoFiles) ∧
      (s.processes false).phase = .returned true ∧
      s.disk.dest = some [([0x62], [0x79])] ∧
      files (sample.archive twoFiles).entries [0x61] = some [0x78] := by
  have hany : (run (step sample ("sha256:" ++ twoFilesHex)) twoVerified
      ((extracts false).take 4 ++ (extracts true).take 3 ++ (extracts false).drop 4)).any
        fun s => decide ((s.processes false).phase = .returned true ∧
          s.disk.dest = some [([0x62], [0x79])]) := by decide
  obtain ⟨s, hs, hdest⟩ := (Option.any_eq_true _ _).mp hany
  have hreaches := reaches_twoVerified.mono fun _ _ _ => trivial
  obtain ⟨hreturned, hdest⟩ := of_decide_eq_true hdest
  exact ⟨s, hreaches.of_run hs, fun bytes => (verify_sample bytes).mp, hreturned, hdest, by decide⟩

end pkg.store
