-- The graph of an answer (`resolve.rs`): its edges are what the instances in it declare and turn
-- on, lead to instances in it, and lead from the root to all of them, when no features come late
-- and nothing is left over where an instance is pinned again.
import Mathlib.Data.List.Dedup
import OtterFusion.Pkg.GraphSteps

namespace pkg

open base.outcome
open Std (TreeMap)

variable {V R : Type}

/-- The graph of an answer is closed and minimal. The features of an instance are those that the
graph itself requests. -/
structure GraphClosed (env : Env V R) (root : Manifest) (rootDir : String) (res : Resolved V R) :
    Prop where
  edges : ∀ id, res.Has id → ∃ i, infoOf env root rootDir res.getById id = some i ∧
    ∀ name x, EdgeIn res.dependencyEdges id name x ↔ ∃ d, (name, d) ∈ i.deps ∧ x = d.target ∧
      (d.optional = false ∨ Enables i.table (ActiveIn (infoOf env root rootDir res.getById)
        res.dependencyEdges res.rootId id) name)
  listed : ∀ id x, x ∈ res.edges.getD id [] ↔ ∃ name, EdgeIn res.dependencyEdges id name x
  present : ∀ id name x, EdgeIn res.dependencyEdges id name x → res.Has id ∧ res.Has x
  reachable : ∀ id, res.Has id →
    Relation.ReflTransGen (fun p x => ∃ name, EdgeIn res.dependencyEdges p name x) res.rootId id

section law

variable {env : Env V R} {root : Manifest} {rootDir name : String} {r : Run V R}

theorem Accounted.start (env : Env V R) (root : Manifest) (rootDir : String) :
    Accounted env root rootDir
      ((Run.start V R (rootId root.name)).requestDefaultFeatures (rootId root.name)) := by
  generalize hr : (Run.start V R (rootId root.name)).requestDefaultFeatures (rootId root.name) = r
  have hknows : ∀ id, ¬r.Knows id := by
    rw [← hr]
    rintro id (h | h)
    · exact TreeMap.not_mem_emptyc h
    · cases h
  have hedges : ∀ p, r.edgesOf p = [] := by
    rw [← hr]
    exact fun _ => TreeMap.getD_emptyc
  have hnames : ∀ p n x, ¬EdgeIn r.dependencyEdges p n x := by
    rw [← hr]
    intro p n x he
    unfold EdgeIn at he
    rw [show (Run.requestDefaultFeatures (Run.start V R (rootId root.name))
      (rootId root.name)).dependencyEdges = {} from rfl, TreeMap.getD_emptyc,
      TreeMap.getElem?_emptyc] at he
    cases he
  refine ⟨fun id h => absurd h (hknows id), fun p x hx => ?_, fun p x hx => ?_,
    fun p n x he => absurd he (hnames p n x)⟩
  · rw [hedges] at hx
    cases hx
  · rw [hedges] at hx
    cases hx

/-- When nothing is pending, what is known is resolved. -/
theorem resolved_of_knows (hdone : r.pending = []) {id : String} (h : r.Knows id) :
    ∃ p, r.resolved[id]? = some p := by
  rw [← Option.isSome_iff_exists, ← TreeMap.contains_eq_isSome_getElem?]
  rcases h with h | h
  · have hnot := List.filter_eq_nil_iff.mp hdone id (TreeMap.mem_keys.mpr h)
    simp only [Bool.or_eq_true, not_or, Bool.not_eq_true', Bool.not_eq_false] at hnot
    exact hnot.1
  · exact h

/-- What an instance has in the graph, by the features that are active for it. -/
theorem Inv.edges_iff (h : Inv env root rootDir (fun _ => False) r) (hdone : r.pending = [])
    {id : String} {i : Info} (hi : r.info env root rootDir id = some i) {x : String} :
    EdgeIn r.dependencyEdges id name x ↔ ∃ d, (name, d) ∈ i.deps ∧ x = d.target ∧
      (d.optional = false ∨ Enables i.table (ActiveIn (r.info env root rootDir)
        r.dependencyEdges (rootId root.name) id) name) := by
  have hclosed := h.closed id i hi fun hf => hf
  constructor
  · intro he
    obtain ⟨d, hd, _, rfl⟩ := (hclosed.edges name x).mp he
    refine ⟨d, hd, rfl, ?_⟩
    cases ho : d.optional with
    | false => exact .inl rfl
    | true => exact .inr ((h.fixpoint hdone hi hd ho).mp he)
  · rintro ⟨d, hd, rfl, hon⟩
    cases ho : d.optional with
    | false => exact (hclosed.edges name _).mpr ⟨d, hd, .inl ho, rfl⟩
    | true =>
      refine (h.fixpoint hdone hi hd ho).mpr (hon.resolve_left ?_)
      simp [ho]

end law

/-- `a` 2.0 depends on `c`, and `a` 1.0 on nothing; `b` asks for `a` ^1.0 with the feature `x`. -/
def repinEnv : Env (Nat × Nat) RangeReq :=
  { rangeEnv (.caret 1 0) with
    registries := fun k => if k = "main" then some ⟨"main", fun name => .ok (
      if name = "a" then [xEntry "a" (1, 0) [] [],
        xEntry "a" (2, 0) [⟨"c", .caret 1 0, false, true, [], none⟩] []]
      else if name = "b" then [rangeEntry "b" (1, 0) [⟨"a", .caret 1 0, false, true, ["x"], none⟩]]
      else [rangeEntry "c" (1, 0) []]), fun _ => .ok []⟩ else none }

end pkg
