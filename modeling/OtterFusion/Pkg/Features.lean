-- What a set of requested features turns on (`resolve.rs`, `FeaturePlan`): the closure under the
-- feature table of a package, and that the worklist of `from_dependency_flags` computes it.
import OtterFusion.Pkg.ResolveRule

namespace pkg

open base.outcome
open Std (TreeMap)

/-! ## The closure -/

/-- One item of a feature: it turns a dependency on, or one of its features, or a feature of the
package itself. -/
inductive FeatureItem
  | dep (name : String)
  | depFeature (name feature : String)
  | feature (name : String)
  deriving DecidableEq

def parseItem (item : String) : FeatureItem :=
  match item.dropPrefix? "dep:" with
  | some rest => .dep rest.toString
  | none =>
    match splitOnce item with
    | some (name, feature) => .depFeature name feature
    | none => .feature item

/-- The dependency that an item is about. -/
def FeatureItem.Names : FeatureItem → String → Prop
  | .dep name, d => name = d
  | .depFeature name _, d => name = d
  | .feature _, _ => False

/-- A feature is requested, or an active feature has it as an item. -/
inductive Active (table : TreeMap String (List String)) (requested : String → Prop) : String → Prop
  | requested {f : String} : requested f → Active table requested f
  | item {g f item : String} {items : List String} : Active table requested g →
      table[g]? = some items → item ∈ items → parseItem item = .feature f →
      Active table requested f

/-- An active feature has an item. -/
def TurnsOn (table : TreeMap String (List String)) (requested : String → Prop)
    (i : FeatureItem) : Prop :=
  ∃ g items item, Active table requested g ∧ table[g]? = some items ∧ item ∈ items ∧
    parseItem item = i

/-- An active feature has an item about a dependency. -/
def Enables (table : TreeMap String (List String)) (requested : String → Prop)
    (d : String) : Prop :=
  ∃ i, TurnsOn table requested i ∧ i.Names d

section closure

variable {table : TreeMap String (List String)} {P Q : String → Prop}

theorem Active.mono (hPQ : ∀ f, P f → Active table Q f) {f : String} (h : Active table P f) :
    Active table Q f := by
  induction h with
  | requested hf => exact hPQ _ hf
  | item _ hg hitem hfeature ih => exact .item ih hg hitem hfeature

theorem TurnsOn.mono (hPQ : ∀ f, P f → Active table Q f) {i : FeatureItem}
    (h : TurnsOn table P i) : TurnsOn table Q i := by
  obtain ⟨g, items, item, hg, hrest⟩ := h
  exact ⟨g, items, item, hg.mono hPQ, hrest⟩

theorem Enables.mono (hPQ : ∀ f, P f → Active table Q f) {d : String} (h : Enables table P d) :
    Enables table Q d := by
  obtain ⟨i, hi, hd⟩ := h
  exact ⟨i, hi.mono hPQ, hd⟩

end closure

/-! ## The worklist -/

theorem mem_addName {names : List String} {name x : String} :
    x ∈ addName names name ↔ x = name ∨ x ∈ names := by
  unfold addName
  split
  · rename_i hin
    constructor
    · exact .inr
    · rintro (rfl | h)
      · exact hin
      · exact h
  · rw [List.mem_orderedInsert]

theorem mem_addNames {names more : List String} {x : String} :
    x ∈ addNames names more ↔ x ∈ names ∨ x ∈ more := by
  unfold addNames
  induction more generalizing names with
  | nil => simp
  | cons m more ih =>
    rw [List.foldl_cons, ih, mem_addName, List.mem_cons]
    tauto

section plan

variable {package feature item : String} {deps : TreeMap String Bool}
  {table : TreeMap String (List String)} {plan plan' : FeaturePlan} {stack stack' : List String}

/-- What an item does to the plan and to the stack. -/
structure ItemStep (deps : TreeMap String Bool) (i : FeatureItem) (plan plan' : FeaturePlan)
    (stack stack' : List String) : Prop where
  optional : ∀ d, d ∈ plan'.optionalDeps ↔
    d ∈ plan.optionalDeps ∨ i.Names d ∧ deps[d]? = some true
  passed : ∀ d f, f ∈ plan'.depFeatures.getD d [] ↔
    f ∈ plan.depFeatures.getD d [] ∨ i = .depFeature d f
  stack : ∀ f, f ∈ stack' ↔ f ∈ stack ∨ i = .feature f

theorem planItem_spec
    (h : planItem package feature item deps table plan stack = .ok (plan', stack')) :
    ItemStep deps (parseItem item) plan plan' stack stack' := by
  unfold planItem at h
  unfold parseItem
  cases hdep : item.dropPrefix? "dep:" with
  | some rest =>
    rw [hdep] at h
    dsimp only at h ⊢
    split at h
    · cases h
    · cases hdep : deps[rest.toString]? with
      | none =>
        rw [hdep] at h
        cases h
      | some optional =>
        rw [hdep] at h
        cases optional with
        | true =>
          cases h
          refine ⟨fun d => ?_, fun d f => by simp, fun f => by simp⟩
          rw [mem_addName]
          constructor
          · rintro (rfl | hd)
            · exact .inr ⟨rfl, hdep⟩
            · exact .inl hd
          · rintro (hd | ⟨rfl, _⟩)
            · exact .inr hd
            · exact .inl rfl
        | false =>
          cases h
          refine ⟨fun d => ?_, fun d f => by simp, fun f => by simp⟩
          constructor
          · exact .inl
          · rintro (hd | ⟨rfl, hd⟩)
            · exact hd
            · rw [hdep] at hd
              cases hd
  | none =>
    rw [hdep] at h
    dsimp only at h ⊢
    cases hsplit : splitOnce item with
    | some both =>
      obtain ⟨dep, depFeature⟩ := both
      rw [hsplit] at h
      dsimp only at h ⊢
      split at h
      · cases h
      · cases hdep : deps[dep]? with
        | none =>
          rw [hdep] at h
          cases h
        | some optional =>
          rw [hdep] at h
          cases h
          refine ⟨fun d => ?_, fun d f => ?_, fun f => by simp⟩
          · cases optional with
            | true =>
              rw [if_pos rfl, mem_addName]
              constructor
              · rintro (rfl | hd)
                · exact .inr ⟨rfl, hdep⟩
                · exact .inl hd
              · rintro (hd | ⟨rfl, _⟩)
                · exact .inr hd
                · exact .inl rfl
            | false =>
              rw [if_neg Bool.false_ne_true]
              constructor
              · exact .inl
              · rintro (hd | ⟨rfl, hd⟩)
                · exact hd
                · rw [hdep] at hd
                  cases hd
          · rw [getD_insert_eq, FeatureItem.depFeature.injEq]
            split
            · rename_i hd
              subst hd
              rw [mem_addName]
              tauto
            · rename_i hd
              tauto
    | none =>
      rw [hsplit] at h
      dsimp only at h ⊢
      split at h
      · cases h
        refine ⟨fun d => ?_, fun d f => by simp, fun f => ?_⟩
        · simp [FeatureItem.Names]
        · rw [List.mem_cons, FeatureItem.feature.injEq]
          tauto
      · cases h

/-- The plan that the features taken so far make, and that no active feature is forgotten. -/
structure PlanInv (deps : TreeMap String Bool) (table : TreeMap String (List String))
    (asked items : String → Prop) (plan : FeaturePlan)
    (seen stack : List String) : Prop where
  requested : ∀ f, asked f → f ∈ seen ∨ f ∈ stack
  active : ∀ f, f ∈ seen ∨ f ∈ stack → Active table asked f
  taken : ∀ item, items item →
    ∃ g its, g ∈ seen ∧ table[g]? = some its ∧ item ∈ its
  closed : ∀ item f, items item → parseItem item = .feature f → f ∈ seen ∨ f ∈ stack
  optional : ∀ d, d ∈ plan.optionalDeps ↔
    (∃ item, items item ∧ (parseItem item).Names d) ∧ deps[d]? = some true
  passed : ∀ d f, f ∈ plan.depFeatures.getD d [] ↔ ∃ item, items item ∧
    parseItem item = .depFeature d f

/-- The items of the features in a list. -/
def ItemsOf (table : TreeMap String (List String)) (seen : List String) (item : String) : Prop :=
  ∃ g its, g ∈ seen ∧ table[g]? = some its ∧ item ∈ its

variable {asked items : String → Prop} {seen : List String}

/-- One item more. -/
theorem PlanInv.addItem (h : PlanInv deps table asked items plan seen stack) {g : String}
    {its : List String} (hg : g ∈ seen) (hits : table[g]? = some its) (hitem : item ∈ its)
    (hstep : planItem package feature item deps table plan stack = .ok (plan', stack')) :
    PlanInv deps table asked (fun i => items i ∨ i = item) plan' seen stack' := by
  have hspec := planItem_spec hstep
  have hactive := h.active g (.inl hg)
  refine ⟨fun f hf => ?_, fun f hf => ?_, fun i hi => ?_, fun i f hi hf => ?_, fun d => ?_,
    fun d f => ?_⟩
  · rcases h.requested f hf with hin | hin
    · exact .inl hin
    · exact .inr ((hspec.stack f).mpr (.inl hin))
  · rcases hf with hf | hf
    · exact h.active f (.inl hf)
    · rcases (hspec.stack f).mp hf with hf | hf
      · exact h.active f (.inr hf)
      · exact .item hactive hits hitem hf
  · rcases hi with hi | rfl
    · exact h.taken i hi
    · exact ⟨g, its, hg, hits, hitem⟩
  · rcases hi with hi | rfl
    · rcases h.closed i f hi hf with hin | hin
      · exact .inl hin
      · exact .inr ((hspec.stack f).mpr (.inl hin))
    · exact .inr ((hspec.stack f).mpr (.inr hf))
  · rw [hspec.optional, h.optional]
    constructor
    · rintro (⟨⟨i, hi, hd⟩, hdep⟩ | ⟨hd, hdep⟩)
      · exact ⟨⟨i, .inl hi, hd⟩, hdep⟩
      · exact ⟨⟨item, .inr rfl, hd⟩, hdep⟩
    · rintro ⟨⟨i, hi | rfl, hd⟩, hdep⟩
      · exact .inl ⟨⟨i, hi, hd⟩, hdep⟩
      · exact .inr ⟨hd, hdep⟩
  · rw [hspec.passed, h.passed]
    constructor
    · rintro (⟨i, hi, hf⟩ | hf)
      · exact ⟨i, .inl hi, hf⟩
      · exact ⟨item, .inr rfl, hf⟩
    · rintro ⟨i, hi | rfl, hf⟩
      · exact .inl ⟨i, hi, hf⟩
      · exact .inr hf

/-- All items of one feature. -/
theorem PlanInv.addItems (h : PlanInv deps table asked items plan seen stack) {g : String}
    {its rest : List String} (hg : g ∈ seen) (hits : table[g]? = some its)
    (hrest : ∀ i ∈ rest, i ∈ its)
    (hfold : rest.foldlM (fun s item => planItem package feature item deps table s.1 s.2)
      (plan, stack) = .ok (plan', stack')) :
    PlanInv deps table asked (fun i => items i ∨ i ∈ rest) plan' seen stack' := by
  induction rest generalizing plan stack items with
  | nil =>
    cases hfold
    simpa using h
  | cons item rest ih =>
    rw [List.foldlM_cons, bind_ok] at hfold
    obtain ⟨⟨plan1, stack1⟩, hstep, hfold⟩ := hfold
    have hone := h.addItem hg hits (hrest item List.mem_cons_self) hstep
    have hall := ih hone (fun i hi => hrest i (List.mem_cons_of_mem item hi)) hfold
    have hsame : (fun i => (items i ∨ i = item) ∨ i ∈ rest) = fun i =>
        items i ∨ i ∈ item :: rest := by
      funext i
      rw [List.mem_cons, or_assoc]
    rw [hsame] at hall
    exact hall

/-- The top of the stack is taken before. -/
theorem PlanInv.skip (h : PlanInv deps table asked items plan seen (feature :: stack))
    (hin : feature ∈ seen) : PlanInv deps table asked items plan seen stack := by
  have hmove : ∀ f, f ∈ seen ∨ f ∈ feature :: stack → f ∈ seen ∨ f ∈ stack := by
    rintro f (hf | hf)
    · exact .inl hf
    · rcases List.mem_cons.mp hf with rfl | hf
      · exact .inl hin
      · exact .inr hf
  refine ⟨fun f hf => hmove f (h.requested f hf), fun f hf => h.active f ?_, h.taken,
    fun i f hi hf => hmove f (h.closed i f hi hf), h.optional, h.passed⟩
  exact hf.imp_right (List.mem_cons_of_mem feature)

/-- The top of the stack is taken now. -/
theorem PlanInv.take (h : PlanInv deps table asked items plan seen (feature :: stack)) :
    PlanInv deps table asked items plan (feature :: seen) stack := by
  have hmove : ∀ f, f ∈ seen ∨ f ∈ feature :: stack ↔ f ∈ feature :: seen ∨ f ∈ stack := by
    intro f
    simp only [List.mem_cons]
    tauto
  refine ⟨fun f hf => (hmove f).mp (h.requested f hf), fun f hf => h.active f ((hmove f).mpr hf),
    fun i hi => ?_, fun i f hi hf => (hmove f).mp (h.closed i f hi hf), h.optional, h.passed⟩
  obtain ⟨g, its, hg, hrest⟩ := h.taken i hi
  exact ⟨g, its, List.mem_cons_of_mem feature hg, hrest⟩

/-- The items of all features taken, when one more is. -/
theorem itemsOf_cons {its : List String} (hits : table[feature]? = some its) :
    (fun i => ItemsOf table seen i ∨ i ∈ its) = ItemsOf table (feature :: seen) := by
  funext i
  apply propext
  constructor
  · rintro (⟨g, gs, hg, hrest⟩ | hi)
    · exact ⟨g, gs, List.mem_cons_of_mem feature hg, hrest⟩
    · exact ⟨feature, its, List.mem_cons_self, hits, hi⟩
  · rintro ⟨g, gs, hg, hgs, hi⟩
    rcases List.mem_cons.mp hg with rfl | hg
    · obtain rfl := Option.some.inj (hits.symm.trans hgs)
      exact .inr hi
    · exact .inl ⟨g, gs, hg, hgs, hi⟩

theorem itemsOf_none (hnone : table[feature]? = none) :
    ItemsOf table seen = ItemsOf table (feature :: seen) := by
  funext i
  apply propext
  constructor
  · rintro ⟨g, gs, hg, hrest⟩
    exact ⟨g, gs, List.mem_cons_of_mem feature hg, hrest⟩
  · rintro ⟨g, gs, hg, hgs, hi⟩
    rcases List.mem_cons.mp hg with rfl | hg
    · rw [hnone] at hgs
      cases hgs
    · exact ⟨g, gs, hg, hgs, hi⟩

/-- The loop ends with an empty stack: induction on the fuel. -/
theorem planLoop_inv {n : Nat} (h : PlanInv deps table asked (ItemsOf table seen) plan seen stack)
    (hrun : planLoop package deps table n plan seen stack = .ok plan') :
    ∃ all, PlanInv deps table asked (ItemsOf table all) plan' all [] := by
  induction n generalizing plan seen stack with
  | zero =>
    cases stack with
    | nil =>
      unfold planLoop at hrun
      cases hrun
      exact ⟨seen, h⟩
    | cons f stack => cases hrun
  | succ n ih =>
    cases stack with
    | nil =>
      unfold planLoop at hrun
      cases hrun
      exact ⟨seen, h⟩
    | cons f stack =>
      unfold planLoop at hrun
      split at hrun
      · rename_i hin
        exact ih (h.skip hin) hrun
      · cases hits : table[f]? with
        | none =>
          rw [hits] at hrun
          dsimp only at hrun
          split at hrun
          · refine ih ?_ hrun
            rw [← itemsOf_none hits]
            exact h.take
          · cases hrun
        | some its =>
          rw [hits] at hrun
          obtain ⟨⟨plan1, stack1⟩, hfold, hrun⟩ := bind_ok.mp hrun
          refine ih ?_ hrun
          rw [← itemsOf_cons hits]
          exact h.take.addItems List.mem_cons_self hits (fun _ hi => hi) hfold

/-- What the plan says: the optional dependencies that the requested features turn on, and the
features that they pass on. -/
theorem fromDependencyFlags_spec {n : Nat} {asked : List String}
    (h : fromDependencyFlags n package deps table asked = .ok plan) :
    (∀ d, d ∈ plan.optionalDeps ↔ Enables table (· ∈ asked) d ∧ deps[d]? = some true) ∧
      ∀ d f, f ∈ plan.depFeatures.getD d [] ↔ TurnsOn table (· ∈ asked) (.depFeature d f) := by
  unfold fromDependencyFlags at h
  have hstart : PlanInv deps table (· ∈ asked) (ItemsOf table []) ⟨[], {}⟩ [] asked.reverse := by
    have hnone : ∀ i, ¬ItemsOf table [] i := by
      rintro i ⟨g, _, hg, _⟩
      cases hg
    refine ⟨fun f hf => .inr (List.mem_reverse.mpr hf), fun f hf => ?_, fun i hi =>
      absurd hi (hnone i),
      fun i _ hi => absurd hi (hnone i), fun d => ?_, fun d f => ?_⟩
    · rcases hf with hf | hf
      · cases hf
      · exact .requested (List.mem_reverse.mp hf)
    · constructor
      · intro hd
        cases hd
      · rintro ⟨⟨i, hi, _⟩, _⟩
        exact absurd hi (hnone i)
    · rw [TreeMap.getD_emptyc]
      constructor
      · intro hf
        cases hf
      · rintro ⟨i, hi, _⟩
        exact absurd hi (hnone i)
  obtain ⟨all, hall⟩ := planLoop_inv hstart h
  have hactive : ∀ f, Active table (· ∈ asked) f → f ∈ all := by
    intro f hf
    induction hf with
    | requested hf => exact (hall.requested _ hf).resolve_right List.not_mem_nil
    | item _ hg hitem hfeature ih =>
      exact (hall.closed _ _ ⟨_, _, ih, hg, hitem⟩ hfeature).resolve_right List.not_mem_nil
  have hitems : ∀ i, TurnsOn table (· ∈ asked) i ↔
      ∃ item, ItemsOf table all item ∧ parseItem item = i := by
    intro i
    constructor
    · rintro ⟨g, its, item, hg, hits, hitem, hi⟩
      exact ⟨item, ⟨g, its, hactive g hg, hits, hitem⟩, hi⟩
    · rintro ⟨item, ⟨g, its, hg, hits, hitem⟩, hi⟩
      exact ⟨g, its, item, hall.active g (.inl hg), hits, hitem, hi⟩
  refine ⟨fun d => ?_, fun d f => ?_⟩
  · rw [hall.optional]
    unfold Enables
    constructor
    · rintro ⟨⟨item, hitem, hd⟩, hdep⟩
      exact ⟨⟨_, (hitems _).mpr ⟨item, hitem, rfl⟩, hd⟩, hdep⟩
    · rintro ⟨⟨i, hi, hd⟩, hdep⟩
      obtain ⟨item, hitem, rfl⟩ := (hitems i).mp hi
      exact ⟨⟨item, hitem, hd⟩, hdep⟩
  · rw [hall.passed, hitems]

end plan

end pkg
