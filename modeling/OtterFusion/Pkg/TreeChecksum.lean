-- Which source trees their checksum pins: no tree with two files or more, and a tree with one file
-- when nothing in the file reads as the end of it and a second one.
import Mathlib.Logic.Equiv.Basic
import OtterFusion.Pkg.GitTree

open base.separated

namespace pkg.git

/-! ## The texts of the paths -/

theorem lossy_no_zero {n : Nat} {bytes : Bytes} (h : 0 ∉ bytes) : 0 ∉ lossy n bytes := by
  induction n generalizing bytes with
  | zero => simp [lossy]
  | succ n ih =>
    cases bytes with
    | nil => simp [lossy]
    | cons a rest =>
      rw [List.mem_cons, not_or] at h
      have hmore : 0 ∉ following a rest := by
        unfold following
        split
        · simp
        next b more htake =>
          have hsub : ∀ x ∈ b :: more, x ∈ rest := fun x hx =>
            List.mem_of_mem_take (htake ▸ hx)
          split
          · intro hmem
            rcases List.mem_cons.mp hmem with hb | hmore
            · exact h.2 (hsub 0 (hb ▸ List.mem_cons_self))
            · exact h.2 (hsub 0 (List.mem_cons_of_mem b (List.takeWhile_subset _ hmore)))
          · simp
      have hrest : 0 ∉ rest.drop (following a rest).length := fun hmem =>
        h.2 (List.mem_of_mem_drop hmem)
      rw [lossy, List.mem_append, not_or]
      refine ⟨?_, ih hrest⟩
      split
      · simp [h.1, hmore]
      · simp [replacement]

theorem mem_joined {path : FilePath} {b : UInt8} (h : b ∈ joined path) :
    b = 0x2F ∨ ∃ name ∈ path, b ∈ name := by
  induction path with
  | nil => simp [joined] at h
  | cons name path ih =>
    cases path with
    | nil => exact .inr ⟨name, List.mem_cons_self, by simpa [joined] using h⟩
    | cons name' path =>
      have hjoined : joined (name :: name' :: path) = name ++ 0x2F :: joined (name' :: path) := by
        simp [joined]
      rw [hjoined, List.mem_append, List.mem_cons] at h
      rcases h with h | h | h
      · exact .inr ⟨name, List.mem_cons_self, h⟩
      · exact .inl h
      · rcases ih h with h | ⟨name, hname, h⟩
        · exact .inl h
        · exact .inr ⟨name, List.mem_cons_of_mem _ hname, h⟩

/-- The text of a path has no zero byte. -/
theorem ValidPath.rel_no_zero {path : FilePath} (h : ValidPath path) : 0 ∉ rel path := by
  have hjoined : 0 ∉ joined path := fun hmem => by
    rcases mem_joined hmem with h0 | ⟨name, hname, h0⟩
    · cases h0
    · exact (h.2 name hname).1.noZero h0
  intro hmem
  obtain ⟨b, hb, h0⟩ := List.mem_map.mp hmem
  split at h0
  · cases h0
  · exact lossy_no_zero hjoined (h0 ▸ hb)

/-- A path that is a text without a backslash. -/
def PlainPath (path : FilePath) : Prop :=
  toStringLossy (joined path) = joined path ∧ 0x5C ∉ joined path

theorem PlainPath.rel_eq {path : FilePath} (h : PlainPath path) : rel path = joined path := by
  rw [rel, h.1]
  refine (List.map_congr_left ?_).trans (List.map_id _)
  intro b hb
  have hne : b ≠ 0x5C := fun hslash => h.2 (hslash ▸ hb)
  exact if_neg hne

theorem joined_cons (name : FileName) {path : FilePath} (h : path ≠ []) :
    joined (name :: path) = name ++ 0x2F :: joined path := by
  cases path with
  | nil => exact absurd rfl h
  | cons name' path => simp [joined]

/-- The components are what is between the slashes. -/
theorem joined_injective {p q : FilePath} (hp : ValidPath p) (hq : ValidPath q)
    (h : joined p = joined q) : p = q := by
  have hslash : ∀ (name name' : FileName) (rest : FilePath), ValidName name →
      name ≠ joined (name' :: rest) ∨ rest = [] := fun name name' rest hname => by
    by_cases hrest : rest = []
    · exact .inr hrest
    · refine .inl fun heq => hname.noSlash ?_
      rw [heq, joined_cons name' hrest]
      simp
  induction p generalizing q with
  | nil => exact absurd rfl hp.1
  | cons name p ih =>
    cases q with
    | nil => exact absurd rfl hq.1
    | cons name' q =>
      obtain ⟨⟨hname, -⟩, hnames⟩ := List.forall_mem_cons.mp hp.2
      obtain ⟨⟨hname', -⟩, hnames'⟩ := List.forall_mem_cons.mp hq.2
      by_cases hpath : p = []
      · subst hpath
        have hsingle : joined [name] = name := by simp [joined]
        rw [hsingle] at h
        rcases hslash name name' q hname with hne | rfl
        · exact absurd h hne
        · rw [h]
          simp [joined]
      · by_cases hpath' : q = []
        · subst hpath'
          have hsingle : joined [name'] = name' := by simp [joined]
          rw [hsingle] at h
          rcases hslash name' name p hname' with hne | hnil
          · exact absurd h.symm hne
          · exact absurd hnil hpath
        · rw [joined_cons name hpath, joined_cons name' hpath'] at h
          obtain ⟨rfl, hrest⟩ := split_first hname.noSlash hname'.noSlash h
          rw [ih ⟨hpath, hnames⟩ ⟨hpath', hnames'⟩ hrest]

/-! ## What the hasher takes -/

/-- The texts of the paths and the contents, in the order of the hasher. -/
def listing (root : Entries) : List (Bytes × Bytes) :=
  (sortedFiles root).map fun f => (f.1, (read root f.2).getD [])

theorem sourceFile_read {root : Entries} {path : FilePath} {c : Bytes}
    (h : sourceFile root path = some c) : read root path = some c := by
  unfold sourceFile at h
  split at h
  · cases h
  · exact h

theorem WellFormed.mem_sortedFiles {root : Entries} (h : WellFormed root)
    {f : Bytes × FilePath} :
    f ∈ sortedFiles root ↔ ∃ p c, sourceFile root p = some c ∧ f = (rel p, p) := by
  rw [sortedFiles, List.mem_mergeSort, h.mem_collectFiles]
  simp

theorem WellFormed.nodup_sortedFiles {root : Entries} (h : WellFormed root) :
    ((sortedFiles root).map Prod.snd).Nodup :=
  ((List.mergeSort_perm _ _).map Prod.snd).nodup_iff.mpr (h.nodup_collectFiles [])

theorem pairwise_sortedFiles (root : Entries) :
    (sortedFiles root).Pairwise fun a b => a.1 ≤ b.1 := by
  have hsorted := @List.pairwise_mergeSort _ (fun a b => decide (a.1 ≤ b.1))
    (fun a b c hab hbc => by
      simp only [decide_eq_true_eq] at hab hbc ⊢
      exact List.le_trans hab hbc)
    (fun a b => by simpa using List.le_total a.1 b.1) (collectFiles [] root)
  exact hsorted.imp fun h => of_decide_eq_true h

/-- The walk gives the hasher nothing that it cannot read. -/
theorem WellFormed.fed_eq {root : Entries} (h : WellFormed root) :
    fed root = some (parts 0 (listing root)) := by
  have hfold : ∀ (files : List (Bytes × FilePath)) (start : Bytes),
      (∀ f ∈ files, ∃ c, read root f.2 = some c) →
      files.foldlM (update root) start =
        some (start ++ parts 0 (files.map fun f => (f.1, (read root f.2).getD []))) := by
    intro files
    induction files with
    | nil => simp
    | cons f files ih =>
      intro start hread
      obtain ⟨⟨c, hc⟩, hread⟩ := List.forall_mem_cons.mp hread
      have hupdate : update root start f = some (start ++ f.1 ++ [0] ++ c ++ [0]) := by
        simp [update, hc]
      rw [List.foldlM_cons, hupdate, Option.bind_eq_bind, Option.bind_some, ih _ hread,
        List.map_cons, parts_cons, hc]
      simp
  refine (hfold _ [] fun f hf => ?_).trans rfl
  obtain ⟨p, c, hp, rfl⟩ := h.mem_sortedFiles.mp hf
  exact ⟨c, sourceFile_read hp⟩

theorem WellFormed.mem_listing {root : Entries} (h : WellFormed root) {p : Bytes × Bytes} :
    p ∈ listing root ↔ ∃ path c, sourceFile root path = some c ∧ p = (rel path, c) := by
  rw [listing, List.mem_map]
  constructor
  · rintro ⟨f, hf, rfl⟩
    obtain ⟨path, c, hc, rfl⟩ := h.mem_sortedFiles.mp hf
    exact ⟨path, c, hc, by simp [sourceFile_read hc]⟩
  · rintro ⟨path, c, hc, rfl⟩
    exact ⟨_, h.mem_sortedFiles.mpr ⟨path, c, hc, rfl⟩, by simp [sourceFile_read hc]⟩

theorem WellFormed.listing_no_zero {root : Entries} (h : WellFormed root) :
    ∀ p ∈ listing root, 0 ∉ p.1 := by
  intro p hp
  obtain ⟨path, c, hc, rfl⟩ := h.mem_listing.mp hp
  exact (h.validPath hc).rel_no_zero

/-! ## Trees with one file and with two -/

/-- A file at the end of a path. -/
def chain (c : Bytes) : FilePath → Node
  | [] => .file c
  | name :: path => .dir [(name, chain c path)]

/-- The tree with this file only. -/
def single (c : Bytes) : FilePath → Entries
  | [] => []
  | name :: path => [(name, chain c path)]

/-- The tree with these two files only. -/
def fork (c d : Bytes) : FilePath → FilePath → Entries
  | name :: p, name' :: q =>
    if name = name' then [(name, .dir (fork c d p q))]
    else [(name, chain c p), (name', chain d q)]
  | _, _ => []

theorem ValidPath.tail {name : FileName} {path : FilePath} (h : ValidPath (name :: path))
    (hne : path ≠ []) : ValidPath path :=
  ⟨hne, (List.forall_mem_cons.mp h.2).2⟩

theorem ValidPath.head {name : FileName} {path : FilePath} (h : ValidPath (name :: path)) :
    ValidName name ∧ name ≠ dotGit :=
  (List.forall_mem_cons.mp h.2).1

theorem wellFormed_single {c : Bytes} {path : FilePath} (h : ValidPath path) :
    WellFormed (single c path) := by
  induction path with
  | nil => exact absurd rfl h.1
  | cons name path ih =>
    refine .mk (List.forall_mem_singleton.mpr h.head.1) (List.nodup_singleton name) ?_
    intro name' sub hmem
    obtain ⟨-, hsub⟩ := Prod.ext_iff.mp (List.mem_singleton.mp hmem)
    cases path with
    | nil => cases hsub
    | cons name'' path =>
      cases hsub
      exact ih (h.tail (List.cons_ne_nil name'' path))

theorem collectFiles_single {c : Bytes} {path : FilePath} (h : ValidPath path) (dir : FilePath) :
    collectFiles dir (single c path) = [(rel (dir ++ path), dir ++ path)] := by
  induction path generalizing dir with
  | nil => exact absurd rfl h.1
  | cons name path ih =>
    cases path with
    | nil => simp [single, chain, collectFiles, h.head.2]
    | cons name' path =>
      have hih := ih (h.tail (List.cons_ne_nil name' path)) (dir ++ [name])
      rw [List.append_assoc, List.singleton_append] at hih
      simp [single, chain, collectFiles, h.head.2, ← hih]

theorem sourceFile_single {c : Bytes} {path : FilePath} (h : ValidPath path) :
    sourceFile (single c path) path = some c := by
  induction path with
  | nil => exact absurd rfl h.1
  | cons name path ih =>
    refine sourceFile_cons.mpr ⟨h.head.2, ?_⟩
    cases path with
    | nil => simp [single, chain]
    | cons name' path =>
      exact .inr ⟨_, by simp [single, chain], ih (h.tail (List.cons_ne_nil name' path))⟩

theorem Beside.tail {name : FileName} {p q : FilePath} (h : Beside (name :: p) (name :: q)) :
    Beside p q :=
  ⟨fun hpq => h.1 (List.cons_prefix_cons.mpr ⟨rfl, hpq⟩),
    fun hqp => h.2 (List.cons_prefix_cons.mpr ⟨rfl, hqp⟩)⟩

theorem Beside.ne_nil {p q : FilePath} (h : Beside p q) : p ≠ [] ∧ q ≠ [] := by
  refine ⟨fun hp => h.1 ?_, fun hq => h.2 ?_⟩
  · rw [hp]
    exact List.nil_prefix
  · rw [hq]
    exact List.nil_prefix

/-- What a tree with a file at the end of a path has there. -/
theorem chain_dir {c : Bytes} {path : FilePath} {sub : Entries} (h : chain c path = .dir sub) :
    path ≠ [] ∧ sub = single c path := by
  cases path with
  | nil => cases h
  | cons name path =>
    cases h
    exact ⟨List.cons_ne_nil name path, rfl⟩

theorem wellFormed_fork {c d : Bytes} {p q : FilePath} (hp : ValidPath p) (hq : ValidPath q)
    (h : Beside p q) : WellFormed (fork c d p q) := by
  induction p generalizing q with
  | nil => exact absurd rfl h.ne_nil.1
  | cons name p ih =>
    cases q with
    | nil => exact absurd rfl h.ne_nil.2
    | cons name' q =>
      rw [fork]
      split
      next hname =>
        subst hname
        have hne := h.tail.ne_nil
        refine .mk (List.forall_mem_singleton.mpr hp.head.1) (List.nodup_singleton name) ?_
        intro name' sub hmem
        cases List.mem_singleton.mp hmem
        exact ih (hp.tail hne.1) (hq.tail hne.2) h.tail
      next hname =>
        refine .mk ?_ (by simp [hname]) ?_
        · simp [hp.head.1, hq.head.1]
        · intro name'' sub hmem
          rcases List.mem_cons.mp hmem with hfirst | hmem
          · obtain ⟨-, hsub⟩ := Prod.ext_iff.mp hfirst
            obtain ⟨hne, rfl⟩ := chain_dir hsub.symm
            exact wellFormed_single (hp.tail hne)
          · obtain ⟨-, hsub⟩ := Prod.ext_iff.mp (List.mem_singleton.mp hmem)
            obtain ⟨hne, rfl⟩ := chain_dir hsub.symm
            exact wellFormed_single (hq.tail hne)

/-- The walk under a name finds the file of the path. -/
theorem filesAt_chain {c : Bytes} {name : FileName} {path : FilePath}
    (h : ValidPath (name :: path)) (dir : FilePath) :
    filesAt dir (name, chain c path) = [(rel (dir ++ name :: path), dir ++ name :: path)] := by
  have hall := collectFiles_single (c := c) h dir
  rwa [single, collectFiles_eq, List.flatMap_singleton] at hall

theorem collectFiles_fork {c d : Bytes} {p q : FilePath} (hp : ValidPath p) (hq : ValidPath q)
    (h : Beside p q) (dir : FilePath) :
    collectFiles dir (fork c d p q) =
      [(rel (dir ++ p), dir ++ p), (rel (dir ++ q), dir ++ q)] := by
  induction p generalizing q dir with
  | nil => exact absurd rfl h.ne_nil.1
  | cons name p ih =>
    cases q with
    | nil => exact absurd rfl h.ne_nil.2
    | cons name' q =>
      rw [fork]
      split
      next hname =>
        subst hname
        have hne := h.tail.ne_nil
        have hih := ih (hp.tail hne.1) (hq.tail hne.2) h.tail (dir ++ [name])
        rw [List.append_assoc, List.append_assoc, List.singleton_append, List.singleton_append]
          at hih
        rw [← hih]
        simp [collectFiles, hp.head.2]
      next hname =>
        rw [collectFiles_eq, List.flatMap_cons, List.flatMap_singleton, filesAt_chain hp,
          filesAt_chain hq, List.singleton_append]

theorem sourceFile_chain {c : Bytes} {root : Entries} {name : FileName} {path : FilePath}
    (hname : name ≠ dotGit) (hpath : path ≠ [] → ValidPath path)
    (hlookup : root.lookup name = some (chain c path)) :
    sourceFile root (name :: path) = some c := by
  refine sourceFile_cons.mpr ⟨hname, ?_⟩
  cases path with
  | nil => exact .inl ⟨hlookup, rfl⟩
  | cons name' path =>
    exact .inr ⟨_, hlookup, sourceFile_single (hpath (List.cons_ne_nil name' path))⟩

theorem sourceFile_fork {c d : Bytes} {p q : FilePath} (hp : ValidPath p) (hq : ValidPath q)
    (h : Beside p q) :
    sourceFile (fork c d p q) p = some c ∧ sourceFile (fork c d p q) q = some d := by
  induction p generalizing q with
  | nil => exact absurd rfl h.ne_nil.1
  | cons name p ih =>
    cases q with
    | nil => exact absurd rfl h.ne_nil.2
    | cons name' q =>
      rw [fork]
      split
      next hname =>
        subst hname
        have hne := h.tail.ne_nil
        obtain ⟨hc, hd⟩ := ih (hp.tail hne.1) (hq.tail hne.2) h.tail
        have hlookup : [(name, Node.dir (fork c d p q))].lookup name = some (.dir (fork c d p q)) :=
          List.lookup_cons_self
        exact ⟨sourceFile_cons.mpr ⟨hp.head.2, .inr ⟨_, hlookup, hc⟩⟩,
          sourceFile_cons.mpr ⟨hq.head.2, .inr ⟨_, hlookup, hd⟩⟩⟩
      next hname =>
        refine ⟨sourceFile_chain hp.head.2 hp.tail List.lookup_cons_self, ?_⟩
        refine sourceFile_chain hq.head.2 hq.tail ?_
        have hne : (name' == name) = false := beq_false_of_ne (Ne.symm hname)
        rw [List.lookup_cons, hne, List.lookup_cons_self]

theorem listing_single {c : Bytes} {path : FilePath} (h : ValidPath path) :
    listing (single c path) = [(rel path, c)] := by
  rw [listing, sortedFiles, collectFiles_single h, List.mergeSort_singleton]
  simp [sourceFile_read (sourceFile_single h)]

/-- The first file is not after the second. -/
theorem listing_fork {c d : Bytes} {p q : FilePath} (hp : ValidPath p) (hq : ValidPath q)
    (h : Beside p q) (hle : rel p ≤ rel q) :
    listing (fork c d p q) = [(rel p, c), (rel q, d)] := by
  have hsorted : [(rel p, p), (rel q, q)].Pairwise
      fun a b => decide (a.1 ≤ b.1) = true := by
    simpa using hle
  obtain ⟨hc, hd⟩ := sourceFile_fork (c := c) (d := d) hp hq h
  rw [listing, sortedFiles, collectFiles_fork hp hq h]
  simp only [List.nil_append]
  rw [List.mergeSort_of_pairwise hsorted]
  simp [sourceFile_read hc, sourceFile_read hd]

/-! ## Which trees are pinned -/

/-- No file, or one, such that no other path has its text, and its content does not read as the end
of it, another file that comes after it, and that file's content. -/
def Pinned (root : Entries) : Prop :=
  (∀ p, sourceFile root p = none) ∨
  ∃ p c, sourceFile root p = some c ∧ (∀ q, q ≠ p → sourceFile root q = none) ∧
    (∀ q, ValidPath q → rel q = rel p → q = p) ∧
    ∀ q v rest, ValidPath q → Beside p q → rel p ≤ rel q → c ≠ v ++ 0 :: (rel q ++ 0 :: rest)

/-- No other tree gives the hasher the same. -/
def Determined (t : Checkout) : Prop :=
  ∀ other : Checkout, fed other.root = fed t.root → sourceFile other.root = sourceFile t.root

theorem fed_eq_iff (s t : Checkout) :
    fed s.root = fed t.root ↔ parts 0 (listing s.root) = parts 0 (listing t.root) := by
  rw [s.wellFormed.fed_eq, t.wellFormed.fed_eq, Option.some.injEq]

theorem sortedFiles_cons {t : Checkout} {f : Bytes × FilePath} {files : List (Bytes × FilePath)}
    (h : sortedFiles t.root = f :: files) :
    ∃ p c, f = (rel p, p) ∧ sourceFile t.root p = some c ∧
      ∃ l, listing t.root = (rel p, c) :: l ∧
        l = files.map fun f => (f.1, (read t.root f.2).getD []) := by
  obtain ⟨p, c, hc, rfl⟩ := t.wellFormed.mem_sortedFiles.mp (h ▸ List.mem_cons_self)
  refine ⟨p, c, rfl, hc, _, ?_, rfl⟩
  rw [listing, h, List.map_cons, sourceFile_read hc, Option.getD_some]

/-- The listing of a tree with one file. -/
theorem listing_one {t : Checkout} {p : FilePath} {c : Bytes} (hp : sourceFile t.root p = some c)
    (hothers : ∀ q, q ≠ p → sourceFile t.root q = none) : listing t.root = [(rel p, c)] := by
  have hone : ∀ f ∈ sortedFiles t.root, f = (rel p, p) := by
    intro f hf
    obtain ⟨q, d, hq, rfl⟩ := t.wellFormed.mem_sortedFiles.mp hf
    by_cases hqp : q = p
    · rw [hqp]
    · rw [hothers q hqp] at hq
      cases hq
  have hmem := t.wellFormed.mem_sortedFiles.mpr ⟨p, c, hp, rfl⟩
  have hnodup := t.wellFormed.nodup_sortedFiles
  rw [listing]
  rcases hfiles : sortedFiles t.root with _ | ⟨f, files⟩
  · rw [hfiles] at hmem
    cases hmem
  · rw [hfiles] at hone hnodup
    obtain ⟨rfl, hrest⟩ := List.forall_mem_cons.mp hone
    cases files with
    | nil => simp [sourceFile_read hp]
    | cons f files =>
      rw [hrest f List.mem_cons_self] at hnodup
      simp at hnodup

/-- A tree that has the listing of one file has that file only, when no other path has its text. -/
theorem sourceFile_of_listing {t : Checkout} {p : FilePath} {c : Bytes}
    (h : listing t.root = [(rel p, c)]) (hrel : ∀ q, ValidPath q → rel q = rel p → q = p)
    (q : FilePath) : sourceFile t.root q = if q = p then some c else none := by
  have hmem : ∀ q d, sourceFile t.root q = some d → q = p ∧ d = c := by
    intro q d hq
    have hin := t.wellFormed.mem_listing.mpr ⟨q, d, hq, rfl⟩
    rw [h, List.mem_singleton, Prod.mk.injEq] at hin
    exact ⟨hrel q (t.wellFormed.validPath hq) hin.1, hin.2⟩
  have hp : sourceFile t.root p = some c := by
    obtain ⟨q, d, hq, -⟩ := t.wellFormed.mem_listing.mp (h ▸ List.mem_cons_self)
    obtain ⟨rfl, rfl⟩ := hmem q d hq
    exact hq
  split
  next hqp => rw [hqp, hp]
  next hqp =>
    rcases hq : sourceFile t.root q with _ | d
    · rfl
    · exact absurd (hmem q d hq).1 hqp

/-- A pinned tree is the only one with its stream. -/
theorem determined_of_pinned {t : Checkout} (h : Pinned t.root) : Determined t := by
  intro other hfed
  rw [fed_eq_iff] at hfed
  rcases h with hnone | ⟨p, c, hp, hothers, hrel, hcontent⟩
  · have hempty : listing t.root = [] := by
      refine List.eq_nil_iff_forall_not_mem.mpr fun f hf => ?_
      obtain ⟨p, c, hc, -⟩ := t.wellFormed.mem_listing.mp hf
      rw [hnone] at hc
      cases hc
    funext q
    rw [hnone]
    rcases hq : sourceFile other.root q with _ | d
    · rfl
    · have hin := other.wellFormed.mem_listing.mpr ⟨q, d, hq, rfl⟩
      rcases hlisting : listing other.root with _ | ⟨f, l⟩
      · rw [hlisting] at hin
        cases hin
      · rw [hlisting, hempty] at hfed
        exact absurd hfed (parts_cons_ne_nil f l)
  · have hone := listing_one hp hothers
    rw [hone] at hfed
    have hvalid := t.wellFormed.validPath hp
    rcases parts_eq_single hvalid.rel_no_zero other.wellFormed.listing_no_zero hfed with
      hsame | ⟨v, f, l, rest, hlisting, hc⟩
    · funext q
      rw [sourceFile_of_listing hsame hrel, sourceFile_of_listing hone hrel]
    · exfalso
      rcases hfiles : sortedFiles other.root with _ | ⟨f₁, files⟩
      · rw [listing, hfiles] at hlisting
        cases hlisting
      · obtain ⟨p', c', rfl, hp', l', hl', rfl⟩ := sortedFiles_cons hfiles
        rw [hl', List.cons.injEq, Prod.mk.injEq] at hlisting
        obtain ⟨⟨hrel', rfl⟩, hlisting⟩ := hlisting
        obtain rfl := hrel p' (other.wellFormed.validPath hp') hrel'
        cases files with
        | nil => cases hlisting
        | cons f₂ files =>
          have hf₂ : f₂ ∈ sortedFiles other.root :=
            hfiles ▸ List.mem_cons_of_mem _ List.mem_cons_self
          obtain ⟨q, d, hq, rfl⟩ := other.wellFormed.mem_sortedFiles.mp hf₂
          rw [List.map_cons, List.cons.injEq] at hlisting
          obtain ⟨rfl, -⟩ := hlisting
          have hnodup := other.wellFormed.nodup_sortedFiles
          have hsorted := pairwise_sortedFiles other.root
          rw [hfiles] at hnodup hsorted
          have hne : p' ≠ q := by
            intro heq
            simp [heq] at hnodup
          have hbeside : Beside p' q :=
            ⟨fun hbelow => hne (sourceFile_below hp' hq hbelow),
              fun hbelow => hne (sourceFile_below hq hp' hbelow).symm⟩
          have hle := (List.pairwise_cons.mp hsorted).1 _ List.mem_cons_self
          exact hcontent q c' rest (other.wellFormed.validPath hq) hbeside hle hc

/-- The only tree with its stream is a pinned one. -/
theorem pinned_of_determined {t : Checkout} (h : Determined t) : Pinned t.root := by
  rcases hfiles : sortedFiles t.root with _ | ⟨f₁, files⟩
  · refine .inl fun p => ?_
    rcases hp : sourceFile t.root p with _ | c
    · rfl
    · have hmem := t.wellFormed.mem_sortedFiles.mpr ⟨p, c, hp, rfl⟩
      rw [hfiles] at hmem
      cases hmem
  · obtain ⟨p, c, rfl, hp, l, hlisting, rfl⟩ := sortedFiles_cons hfiles
    have hvalid := t.wellFormed.validPath hp
    cases files with
    | nil =>
      refine .inr ⟨p, c, hp, ?_, ?_, ?_⟩
      · intro q hqp
        rcases hq : sourceFile t.root q with _ | d
        · rfl
        · have hmem := t.wellFormed.mem_sortedFiles.mpr ⟨q, d, hq, rfl⟩
          rw [hfiles, List.mem_singleton, Prod.mk.injEq] at hmem
          exact absurd hmem.2 hqp
      · intro q hq hrel
        by_contra hqp
        have hsame := h ⟨single c q, wellFormed_single hq⟩ ((fed_eq_iff _ t).mpr (by
          rw [listing_single hq, hlisting, hrel, List.map_nil]))
        have hfile := (congrFun hsame q).symm.trans (sourceFile_single hq)
        have hmem := t.wellFormed.mem_sortedFiles.mpr ⟨q, c, hfile, rfl⟩
        rw [hfiles, List.mem_singleton, Prod.mk.injEq] at hmem
        exact hqp hmem.2
      · intro q v rest hq hbeside hle hc
        have hsame := h ⟨fork v rest p q, wellFormed_fork hvalid hq hbeside⟩
          ((fed_eq_iff _ t).mpr (by
            rw [listing_fork hvalid hq hbeside hle, hlisting, hc]
            simp [parts_cons]))
        have hfile := (congrFun hsame p).symm.trans (sourceFile_fork hvalid hq hbeside).1
        rw [hp, hc, Option.some.injEq] at hfile
        simpa using congrArg List.length hfile
    | cons f₂ files =>
      exfalso
      rw [List.map_cons] at hlisting
      obtain ⟨merged, hmerged⟩ : ∃ merged, parts 0 (listing t.root) = parts 0 [(rel p, merged)] :=
        ⟨_, hlisting ▸ parts_merge _ _ _⟩
      have hsame := h ⟨single merged p, wellFormed_single hvalid⟩ ((fed_eq_iff _ t).mpr (by
        rw [listing_single hvalid, hmerged]))
      have hf₂ : f₂ ∈ sortedFiles t.root := hfiles ▸ List.mem_cons_of_mem _ List.mem_cons_self
      obtain ⟨q, d, hq, rfl⟩ := t.wellFormed.mem_sortedFiles.mp hf₂
      have hfile := (congrFun hsame q).trans hq
      have hmem := (wellFormed_single hvalid).mem_sortedFiles.mpr ⟨q, d, hfile, rfl⟩
      rw [sortedFiles, collectFiles_single hvalid, List.mergeSort_singleton, List.mem_singleton,
        Prod.mk.injEq, List.nil_append] at hmem
      have hnodup := t.wellFormed.nodup_sortedFiles
      rw [hfiles] at hnodup
      simp [hmem.2] at hnodup

/-- Every path is a text without a backslash, and no content has a zero byte. -/
def PlainTree (root : Entries) : Prop :=
  ∀ p c, sourceFile root p = some c → PlainPath p ∧ 0 ∉ c

theorem PlainTree.free {t : Checkout} (h : PlainTree t.root) : Free 0 (listing t.root) := by
  intro f hf
  obtain ⟨p, c, hp, rfl⟩ := t.wellFormed.mem_listing.mp hf
  exact ⟨(t.wellFormed.validPath hp).rel_no_zero, (h p c hp).2⟩

/-- A file of one plain tree is a file of another with the same stream. -/
theorem PlainTree.sourceFile {s t : Checkout} (hs : PlainTree s.root) (ht : PlainTree t.root)
    (h : fed s.root = fed t.root) {p : FilePath} {c : Bytes}
    (hp : sourceFile s.root p = some c) : sourceFile t.root p = some c := by
  have hlisting := parts_injective hs.free ht.free ((fed_eq_iff s t).mp h)
  have hmem := s.wellFormed.mem_listing.mpr ⟨p, c, hp, rfl⟩
  rw [hlisting] at hmem
  obtain ⟨q, d, hq, heq⟩ := t.wellFormed.mem_listing.mp hmem
  obtain ⟨hrel, rfl⟩ := Prod.mk.inj heq
  rw [(hs p c hp).1.rel_eq, (ht q c hq).1.rel_eq] at hrel
  rw [joined_injective (s.wellFormed.validPath hp) (t.wellFormed.validPath hq) hrel]
  exact hq

/-- Plain trees with the same stream are the same. -/
theorem PlainTree.sourceFile_eq {s t : Checkout} (hs : PlainTree s.root) (ht : PlainTree t.root)
    (h : fed s.root = fed t.root) : pkg.git.sourceFile s.root = pkg.git.sourceFile t.root := by
  funext p
  apply Option.ext
  intro c
  exact ⟨fun hp => hs.sourceFile ht h hp, fun hp => ht.sourceFile hs h.symm hp⟩

/-- With a hash that no two streams share, the checksums are the same where the streams are. -/
theorem checksumTree_eq_iff {sha256Hex : Bytes → String} (hsha : Function.Injective sha256Hex)
    (s t : Checkout) :
    checksumTree sha256Hex s.root = checksumTree sha256Hex t.root ↔ fed s.root = fed t.root := by
  rw [checksumTree, checksumTree, s.wellFormed.fed_eq, t.wellFormed.fed_eq]
  simp [hsha.eq_iff]

/-- A stream, and a checksum, is of no other tree where the tree is pinned, and only there; and
among the plain trees it is of one. -/
theorem tree_checksum_pins_iff {sha256Hex : Bytes → String}
    (hsha : Function.Injective sha256Hex) (t : Checkout) :
    ((∀ other : Checkout, fed other.root = fed t.root →
        sourceFile other.root = sourceFile t.root) ↔ Pinned t.root) ∧
    ((∀ other : Checkout,
        checksumTree sha256Hex other.root = checksumTree sha256Hex t.root →
        sourceFile other.root = sourceFile t.root) ↔ Pinned t.root) ∧
    ∀ other : Checkout, PlainTree other.root → PlainTree t.root →
      checksumTree sha256Hex other.root = checksumTree sha256Hex t.root →
      sourceFile other.root = sourceFile t.root := by
  refine ⟨⟨pinned_of_determined, determined_of_pinned⟩, ?_, ?_⟩
  · simp only [checksumTree_eq_iff hsha]
    exact ⟨pinned_of_determined, determined_of_pinned⟩
  · intro other hother ht h
    exact hother.sourceFile_eq ht ((checksumTree_eq_iff hsha other t).mp h)

/-- Two files, `a` and `s/b`. -/
def sampleTree : Entries := fork [0x78] [0x79] [[0x61]] [[0x73], [0x62]]

/-- What the hasher takes of them. -/
def sampleStream : Bytes := [0x61, 0, 0x78, 0, 0x73, 0x2F, 0x62, 0, 0x79, 0]

/-- The SHA-256 of that stream. -/
def sampleDigest : String := "cd5043e4e5e88e8180b70f801de3278dd980c8c40bf6803435df0664dfa68b52"

/-- A hash without collisions that is right on that stream. -/
def plainHash (stream : Bytes) : String :=
  sampleDigest ++
    String.ofList ((Equiv.swap sampleStream [] stream).map fun b => Char.ofNat b.toNat)

theorem plainHash_injective : Function.Injective plainHash := by
  have hcode : ∀ b : UInt8, (Char.ofNat b.toNat).toNat = b.toNat := by
    intro b
    have hvalid : b.toNat.isValidChar := by
      have hlt := b.toNat_lt
      unfold Nat.isValidChar
      omega
    rw [Char.ofNat, dif_pos hvalid]
    rfl
  have hchar : Function.Injective fun b : UInt8 => Char.ofNat b.toNat := by
    intro a b h
    have hnat := congrArg Char.toNat h
    dsimp only at hnat
    rw [hcode, hcode] at hnat
    exact UInt8.toNat_inj.mp hnat
  intro s t h
  have hlist := congrArg String.toList h
  rw [plainHash, plainHash, String.toList_append, String.toList_append, String.toList_ofList,
    String.toList_ofList] at hlist
  apply (Equiv.swap sampleStream []).injective
  exact List.map_injective_iff.mpr hchar (List.append_cancel_left hlist)

theorem sampleTree_valid : ValidPath [[0x61]] ∧ ValidPath [[0x73], [0x62]] ∧
    Beside [[0x61]] [[0x73], [0x62]] := by
  refine ⟨⟨by simp, ?_⟩, ⟨by simp, ?_⟩, by unfold Beside; decide⟩
  · refine List.forall_mem_singleton.mpr ⟨⟨?_, ?_, ?_, ?_, ?_⟩, ?_⟩ <;> decide
  · refine List.forall_mem_cons.mpr ⟨⟨⟨?_, ?_, ?_, ?_, ?_⟩, ?_⟩,
      List.forall_mem_singleton.mpr ⟨⟨?_, ?_, ?_, ?_, ?_⟩, ?_⟩⟩ <;> decide

theorem sampleTree_plain : PlainTree sampleTree := by
  obtain ⟨hp, hq, hbeside⟩ := sampleTree_valid
  intro path content hfile
  have hmem := (wellFormed_fork hp hq hbeside).mem_collectFiles.mpr
    ⟨path, content, hfile, (rfl : (rel ([] ++ path), [] ++ path) = _)⟩
  rw [collectFiles_fork hp hq hbeside, List.mem_pair] at hmem
  obtain ⟨hc, hd⟩ := sourceFile_fork (c := [0x78]) (d := [0x79]) hp hq hbeside
  obtain hpath | hpath := hmem
  · obtain rfl : path = [[0x61]] := (Prod.mk.inj hpath).2
    obtain rfl := Option.some.inj (hfile.symm.trans hc)
    unfold PlainPath
    decide
  · obtain rfl : path = [[0x73], [0x62]] := (Prod.mk.inj hpath).2
    obtain rfl := Option.some.inj (hfile.symm.trans hd)
    unfold PlainPath
    decide

/-- The checksum of the two files is that of no other plain tree. -/
theorem tree_checksum_pins_at :
    checksumTree plainHash sampleTree = some ("sha256:" ++ sampleDigest) ∧
    ∀ other : Checkout, PlainTree other.root →
      checksumTree plainHash other.root = some ("sha256:" ++ sampleDigest) →
      sourceFile other.root = sourceFile sampleTree := by
  obtain ⟨hp, hq, hbeside⟩ := sampleTree_valid
  have hsum : checksumTree plainHash sampleTree = some ("sha256:" ++ sampleDigest) := by
    rw [checksumTree, sampleTree, (wellFormed_fork hp hq hbeside).fed_eq,
      listing_fork hp hq hbeside (by decide)]
    decide
  refine ⟨hsum, fun other hother h => ?_⟩
  refine (tree_checksum_pins_iff plainHash_injective
    ⟨sampleTree, wellFormed_fork hp hq hbeside⟩).2.2 other hother sampleTree_plain ?_
  exact h.trans hsum.symm

/-- The file `a` with `x`, a zero byte, `b`, a zero byte and `y` has the stream of the file `a` with
`x` and the file `b` with `y`. -/
theorem second_file_in_content :
    ¬ ∀ s t : Checkout, fed s.root = fed t.root → sourceFile s.root = sourceFile t.root := by
  intro h
  have hp : ValidPath [[0x61]] := by
    refine ⟨by simp, List.forall_mem_singleton.mpr ⟨⟨?_, ?_, ?_, ?_, ?_⟩, ?_⟩⟩ <;> decide
  have hq : ValidPath [[0x62]] := by
    refine ⟨by simp, List.forall_mem_singleton.mpr ⟨⟨?_, ?_, ?_, ?_, ?_⟩, ?_⟩⟩ <;> decide
  have hbeside : Beside [[0x61]] [[0x62]] := by
    unfold Beside
    decide
  have hle : rel [[0x61]] ≤ rel [[0x62]] := by decide
  let one : Checkout := ⟨single [0x78, 0, 0x62, 0, 0x79] [[0x61]], wellFormed_single hp⟩
  let two : Checkout := ⟨fork [0x78] [0x79] [[0x61]] [[0x62]], wellFormed_fork hp hq hbeside⟩
  have hfed : fed one.root = fed two.root := by
    refine (fed_eq_iff one two).mpr ?_
    rw [listing_single hp, listing_fork hp hq hbeside hle]
    decide
  have hfile := congrFun (h one two hfed) [[0x61]]
  rw [sourceFile_single hp, (sourceFile_fork hp hq hbeside).1] at hfile
  simp at hfile

end pkg.git
