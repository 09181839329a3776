-- `otter_fusion why` (`commands.rs`): the search for the dependency paths from the root to a
-- package lists each of them once, in any graph.
import OtterFusion.Base.Routes

open base.routes

namespace pkg.commands

structure ResolvedPackage where
  id : String
  name : String
  version : String
  deriving DecidableEq

/-- `Resolved`: its packages, and the edges from a package instance to others, by their ids. -/
structure Resolved where
  packages : List ResolvedPackage
  edges : List (String × List String)
  rootName : String
  rootId : String

namespace Resolved

variable (r : Resolved)

def packagesNamed (name : String) : List ResolvedPackage := r.packages.filter fun p => p.name = name

def getById (id : String) : Option ResolvedPackage := r.packages.find? fun p => p.id = id

def hasDuplicateName (name : String) : Bool := 1 < (r.packagesNamed name).length

/-- The edges of a node, none when the map does not have it. -/
def children (node : String) : List String := (r.edges.lookup node).getD []

/-- `is_target`, in `find_paths`. -/
def isTarget (target node : String) : Bool :=
  if node = r.rootId then target = r.rootName
  else match r.getById node with
    | some p => p.name = target
    | none => false

end Resolved

/-- What the search changes: `visited`, and the paths it has found. -/
structure Search where
  visited : List String
  paths : List (List String)

/-- `find_paths`, as far as it comes back without going deeper than this. The stack is as it was
after each call. -/
def findPaths (r : Resolved) (target : String) : Nat → String → List String → Search → Option Search
  | 0, _, _, _ => none
  | depth + 1, node, stack, s =>
    if r.isTarget target node = true ∧ 1 < stack.length then
      some { s with paths := s.paths ++ [stack] }
    else if node ∈ s.visited then some s
    else do
      let s ← (r.children node).foldlM
        (fun s child => findPaths r target depth child (stack ++ [child]) s)
        { s with visited := node :: s.visited }
      some { s with visited := s.visited.erase node }

def whyLabel (r : Resolved) (id : String) : String :=
  if id = r.rootId then r.rootName
  else match r.getById id with
    | none => id
    | some p => if r.hasDuplicateName p.name then p.name ++ " v" ++ p.version else p.name

/-- The line of a path. -/
def whyLine (r : Resolved) (path : List String) : String :=
  " → ".intercalate (path.map (whyLabel r)) ++ "\n"

/-- `explain_why`, with the depth of its search. -/
def explainWhy (depth : Nat) (r : Resolved) (target : String) : Option (Option String) :=
  if r.packagesNamed target = [] ∧ target ≠ r.rootName then some none
  else do
    let s ← findPaths r target depth r.rootId [r.rootId] ⟨[], []⟩
    some (if s.paths = [] then none else some (String.join (s.paths.map (whyLine r))))

variable {r : Resolved} {target node : String} {p q : List String}

/-! ## The search -/

theorem children_mem (h : r.children node ≠ []) : node ∈ r.edges.map Prod.fst := by
  unfold Resolved.children at h
  cases hlookup : r.edges.lookup node with
  | none =>
    rw [hlookup] at h
    exact absurd rfl h
  | some cs =>
    obtain ⟨before, after, hedges, -⟩ := List.lookup_eq_some_iff.mp hlookup
    rw [hedges]
    simp

/-- The nodes with edges that are not on a path. -/
def unvisited (r : Resolved) (p : List String) : List String :=
  (r.edges.map Prod.fst).filter fun node => node ∉ p

theorem unvisited_lt (hv : node ∉ p) (hmem : node ∈ r.edges.map Prod.fst) :
    (unvisited r (p ++ [node])).length < (unvisited r p).length := by
  have hsplit : unvisited r (p ++ [node]) = (unvisited r p).filter fun u => u ≠ node := by
    unfold unvisited
    rw [List.filter_filter]
    congr 1
    funext u
    simp [not_or, and_comm]
  rw [hsplit]
  exact List.length_filter_lt_length_iff_exists.mpr
    ⟨node, List.mem_filter.mpr ⟨hmem, by simpa using hv⟩, by simp⟩

/-- A target, as the search sees it. -/
abbrev Hit (r : Resolved) (target node : String) : Prop := r.isTarget target node = true

/-- What a call of the search finds: each route that begins with its stack, once. -/
def Finds (r : Resolved) (target : String) (stack : List String)
    (found : List (List String)) : Prop :=
  found.Nodup ∧ ∀ q, q ∈ found ↔ Route r.children (Hit r target) r.rootId q ∧ stack <+: q

/-- A call leaves `visited` as it was and adds what it finds. -/
def Comes (r : Resolved) (target : String) (depth : Nat) (p : List String) (node : String) : Prop :=
  ∀ s : Search, (∀ x, x ∈ s.visited ↔ x ∈ p) →
    ∃ found, findPaths r target depth node (p ++ [node]) s =
      some ⟨s.visited, s.paths ++ found⟩ ∧ Finds r target (p ++ [node]) found

/-- The loop over the children. -/
theorem children_find {depth : Nat} {cs : List String} (hdistinct : cs.Nodup)
    (hcalls : ∀ c ∈ cs, Comes r target depth (p ++ [node]) c) (s : Search)
    (hs : ∀ x, x ∈ s.visited ↔ x ∈ p ++ [node]) :
    ∃ found, cs.foldlM
        (fun s child => findPaths r target depth child (p ++ [node] ++ [child]) s) s =
          some ⟨s.visited, s.paths ++ found⟩ ∧ found.Nodup ∧
      ∀ q, q ∈ found ↔ ∃ c ∈ cs, Route r.children (Hit r target) r.rootId q ∧
        p ++ [node] ++ [c] <+: q := by
  induction cs generalizing s with
  | nil => exact ⟨[], by rw [List.foldlM_nil, List.append_nil]; rfl, List.nodup_nil, by simp⟩
  | cons c cs ih =>
    obtain ⟨hc, hrest⟩ := List.nodup_cons.mp hdistinct
    obtain ⟨hcall, hcalls⟩ := List.forall_mem_cons.mp hcalls
    obtain ⟨found, hfind, hnodup, hfound⟩ := hcall s hs
    obtain ⟨more, hloop, hnodup', hmore⟩ := ih hrest hcalls ⟨s.visited, s.paths ++ found⟩ hs
    refine ⟨found ++ more, ?_, ?_, ?_⟩
    · rw [List.foldlM_cons, hfind, ← List.append_assoc]
      exact hloop
    · refine List.nodup_append.mpr ⟨hnodup, hnodup', ?_⟩
      rintro q hq _ hq' rfl
      obtain ⟨d, hd, -, hstack⟩ := (hmore q).mp hq'
      exact hc (next_unique ((hfound q).mp hq).2 hstack ▸ hd)
    · intro q
      rw [List.mem_append, hfound, hmore, List.exists_mem_cons_iff]

theorem findPaths_comes (hchildren : ∀ node, (r.children node).Nodup) {depth : Nat}
    (hdepth : (unvisited r p).length < depth)
    (hstack : Stack r.children (Hit r target) r.rootId p node) :
    Comes r target depth p node := by
  induction depth generalizing p node with
  | zero => omega
  | succ depth ih =>
    intro s hs
    rw [findPaths]
    have hlong : 1 < (p ++ [node]).length ↔ p ≠ [] := by
      rw [List.length_append, List.length_singleton, ← List.length_pos_iff]
      omega
    by_cases hhit : Hit r target node ∧ p ≠ []
    · rw [if_pos ⟨hhit.1, hlong.mpr hhit.2⟩]
      refine ⟨[p ++ [node]], rfl, List.nodup_singleton _, fun q => ?_⟩
      rw [List.mem_singleton]
      exact (hstack.found hhit.1 hhit.2).symm
    · rw [if_neg fun h => hhit ⟨h.1, hlong.mp h.2⟩]
      by_cases hv : node ∈ p
      · rw [if_pos ((hs node).mpr hv)]
        refine ⟨[], by rw [List.append_nil], List.nodup_nil, fun q => ?_⟩
        exact ⟨fun hq => absurd hq List.not_mem_nil, fun h => absurd h.2 (h.1.not_back hhit hv)⟩
      · rw [if_neg (mt (hs node).mp hv)]
        have hcalls : ∀ c ∈ r.children node, Comes r target depth (p ++ [node]) c := by
          intro c hc
          have hless := unvisited_lt hv (children_mem (List.ne_nil_of_mem hc))
          exact ih (by omega) (hstack.next hhit hv hc)
        obtain ⟨found, hloop, hnodup, hfound⟩ := children_find (hchildren node) hcalls
          ⟨node :: s.visited, s.paths⟩ (fun x => by simp [hs, or_comm])
        refine ⟨found, ?_, hnodup, fun q => ?_⟩
        · rw [hloop]
          simp
        · rw [hfound, Route.goes_on hhit]

/-! ## The answer -/

/-- A node that is a target has the name of a package, or it is the root. -/
theorem named_of_hit (h : Hit r target node) :
    ¬(r.packagesNamed target = [] ∧ target ≠ r.rootName) := by
  rintro ⟨hnone, hroot⟩
  unfold Hit Resolved.isTarget at h
  split at h
  · exact hroot (of_decide_eq_true h)
  · split at h
    · rename_i package hget
      have hname : package ∈ r.packagesNamed target :=
        List.mem_filter.mpr ⟨List.mem_of_find?_eq_some hget, h⟩
      rw [hnone] at hname
      cases hname
    · cases h

/-- An edge of the graph. -/
def Edge (r : Resolved) (u v : String) : Prop := v ∈ r.children u

/-- The search from the root. -/
theorem search_finds (target : String) (hchildren : ∀ node, (r.children node).Nodup) {depth : Nat}
    (hdepth : r.edges.length < depth) :
    ∃ found, findPaths r target depth r.rootId [r.rootId] ⟨[], []⟩ = some ⟨[], found⟩ ∧
      found.Nodup ∧ ∀ q, q ∈ found ↔ Route r.children (Hit r target) r.rootId q := by
  have hless : (unvisited r []).length < depth := by
    refine Nat.lt_of_le_of_lt (List.length_filter_le _ _) ?_
    rwa [List.length_map]
  have hcomes : Comes r target depth [] r.rootId := findPaths_comes hchildren hless .bottom
  obtain ⟨found, hfind, hnodup, hfound⟩ := hcomes ⟨[], []⟩ fun _ => Iff.rfl
  refine ⟨found, hfind, hnodup, fun q => (hfound q).trans ⟨And.left, fun hq => ⟨hq, ?_⟩⟩⟩
  have hhead := hq.head
  cases q with
  | nil => cases hhead
  | cons u q =>
    obtain rfl := Option.some.inj hhead
    exact ⟨q, rfl⟩

/-- Whatever the graph, `why` comes back. It says nothing when no package of the name can be reached
from the root; otherwise it lists the routes to one, each of them once. A route can come to a node
twice only where it ends, at the root: not at all when nothing depends on the root. -/
theorem why_lists_every_route (r : Resolved) (target : String)
    (hchildren : ∀ node, (r.children node).Nodup) (depth : Nat) (hdepth : r.edges.length < depth) :
    ∃ paths : List (List String), paths.Nodup ∧
      (∀ q, q ∈ paths ↔ Route r.children (Hit r target) r.rootId q) ∧
      (paths = [] ↔ ¬∃ node, Relation.TransGen (Edge r) r.rootId node ∧ Hit r target node) ∧
      explainWhy depth r target =
        some (if paths = [] then none else some (String.join (paths.map (whyLine r)))) ∧
      ((∀ node, r.rootId ∉ r.children node) → ∀ q ∈ paths, q.Nodup) := by
  obtain ⟨paths, hfind, hnodup, hpaths⟩ := search_finds target hchildren hdepth
  have hempty : paths = [] ↔
      ¬∃ node, Relation.TransGen (Edge r) r.rootId node ∧ Hit r target node := by
    constructor
    · rintro rfl ⟨node, hreach, hhit⟩
      obtain ⟨q, hwalk⟩ := exists_walk hreach hhit
      obtain ⟨q, hroute⟩ := hwalk.exists_route
      exact absurd ((hpaths q).mpr hroute) List.not_mem_nil
    · intro hnone
      apply List.eq_nil_iff_forall_not_mem.mpr
      intro q hq
      exact hnone (walk_reaches ((hpaths q).mp hq).toWalk)
  refine ⟨paths, hnodup, hpaths, hempty, ?_, fun hroot q hq => ((hpaths q).mp hq).nodup hroot⟩
  unfold explainWhy
  split
  · rename_i hearly
    have hnil : paths = [] := hempty.mpr fun ⟨_, _, hhit⟩ => named_of_hit hhit hearly
    rw [if_pos hnil]
  · rw [hfind]
    rfl

/-! ## The root among the targets -/

/-- Two packages that depend on each other, the root being one of them. -/
def looped : Resolved where
  packages := [⟨"path:a", "a", "1.0.0"⟩]
  edges := [("root:app", ["path:a"]), ("path:a", ["root:app"])]
  rootName := "app"
  rootId := "root:app"

theorem looped_children (node : String) : (looped.children node).Nodup := by
  unfold Resolved.children looped
  dsimp only
  rw [List.lookup_cons]
  split
  · simp
  · rw [List.lookup_cons]
    split <;> simp

theorem why_lists_every_route_looped : ∃ paths : List (List String), paths.Nodup ∧
    (∀ q, q ∈ paths ↔ Route looped.children (Hit looped "a") "root:app" q) ∧
    (paths = [] ↔ ¬∃ node, Relation.TransGen (Edge looped) "root:app" node ∧ Hit looped "a" node) ∧
    explainWhy 3 looped "a" =
      some (if paths = [] then none else some (String.join (paths.map (whyLine looped)))) ∧
    ((∀ node, "root:app" ∉ looped.children node) → ∀ q ∈ paths, q.Nodup) :=
  why_lists_every_route looped "a" looped_children 3 (by decide)

/-- Only the root is a target of this name. -/
theorem looped_hit {node : String} (h : Hit looped "app" node) : node = "root:app" := by
  unfold Hit Resolved.isTarget Resolved.getById at h
  split at h
  · assumption
  · split at h
    · rename_i package hget
      have hmem : package ∈ looped.packages := List.mem_of_find?_eq_some hget
      obtain rfl := List.mem_singleton.mp hmem
      exact absurd h (by decide)
    · cases h

/-- The name of the root is listed with a path that repeats the root, and no path to it repeats no
node. -/
theorem root_path_repeats : explainWhy 3 looped "app" = some (some "app → a → app\n") ∧
    ¬∃ q, Walk looped.children (Hit looped "app") "root:app" q ∧ q.Nodup := by
  refine ⟨by decide, ?_⟩
  rintro ⟨q, ⟨hhead, -, hlong, last, hlast, hhit⟩, hnodup⟩
  obtain rfl := looped_hit hhit
  cases q with
  | nil => cases hhead
  | cons u q =>
    obtain rfl := Option.some.inj hhead
    cases q with
    | nil => exact absurd hlong (Nat.lt_irrefl 1)
    | cons c q =>
      rw [List.getLast?_cons_cons] at hlast
      exact (List.nodup_cons.mp hnodup).1 (List.mem_of_getLast? hlast)

end pkg.commands
