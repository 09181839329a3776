-- What the resolver's answer satisfies (`resolve.rs`): an instance is pinned to a version that
-- meets the requirements known then. A requirement that arrives later does not pin the instance
-- again, unless the requested features change, so all answers are right just when the versions
-- that are published do not tell the requirements for one instance apart.
import OtterFusion.Pkg.RangeKeys

namespace pkg

open base.outcome
open Std (TreeMap)

variable {V R : Type}

/-! ## What an answer has to satisfy -/

/-- The version pinned for the target of an edge meets the requirement of the edge. -/
def Satisfied (env : Env V R) (res : Resolved V R) (e : Edge R) : Prop :=
  ∃ p, res.getById e.target = some p ∧ ∃ entry, p.entry = some entry ∧
    env.sem.matchesReq e.req entry.vers = true

instance (env : Env V R) (res : Resolved V R) (e : Edge R) : Decidable (Satisfied env res e) :=
  decidable_of_iff ((res.getById e.target).any fun p => p.entry.any fun entry =>
    env.sem.matchesReq e.req entry.vers) <| by
    simp only [Satisfied, Option.any_eq_true]

/-- The versions that the registries publish are in `P`, for each registry and package name. -/
def PublishesOnly (P : String → String → V → Prop) (env : Env V R) : Prop :=
  ∀ reg registry name entries, env.registries reg = some registry →
    registry.index name = .ok entries → ∀ e ∈ entries, P reg name e.vers

/-- A published version that meets one of the requirements for an instance meets the others. -/
def RequirementsAgree (sem : Semver V R) (S : String → String → R → Prop)
    (P : String → String → V → Prop) : Prop :=
  ∀ reg name q reg' name' r v, S reg name q → S reg' name' r →
    (ReqKey.new sem name reg q).id = (ReqKey.new sem name' reg' r).id → P reg name v →
      sem.matchesReq q v = true → sem.matchesReq r v = true

/-! ## The invariant of a run -/

/-- What a run knows: each key comes from a requirement that is in use and was gathered, each
pinned version is published and meets a requirement for its instance, and each declared edge has a
requirement for its target. -/
structure Sound (S : String → String → R → Prop) (P : String → String → V → Prop) (env : Env V R)
    (r : Run V R) : Prop where
  ids : ∀ (id : String) (p : ResolvedInternal V R), r.resolved[id]? = some p → p.id = id
  keys : ∀ (id : String) (key : ReqKey), r.reqKeys[id]? = some key →
    ∃ q ∈ r.reqs.getD id [], S key.registry key.name q ∧
      (ReqKey.new env.sem key.name key.registry q).id = id
  pinned : ∀ (id : String) (p : ResolvedInternal V R) (e : IndexEntry V R),
    r.resolved[id]? = some p → p.entry = some e → ∃ reg name q, S reg name q ∧
      (ReqKey.new env.sem name reg q).id = id ∧ P reg name e.vers ∧
        env.sem.matchesReq q e.vers = true
  declared : ∀ e ∈ r.declared, e.target ∈ r.reqs ∧ ∃ reg name, S reg name e.req ∧
    (ReqKey.new env.sem name reg e.req).id = e.target
  registry_ids : ∀ id ∈ r.reqs, ∃ s, id = "registry:" ++ s
  local_ids : ∀ (id : String) (p : ResolvedInternal V R), r.resolved[id]? = some p →
    p.entry = none →
    (∃ s, id = "path:" ++ s) ∨ ∃ s, id = "git:" ++ s

section sound

variable {S : String → String → R → Prop} {P : String → String → V → Prop} {env : Env V R}
  {r : Run V R}

theorem Sound.start (S : String → String → R → Prop) (P : String → String → V → Prop)
    (env : Env V R) (root id : String) :
    Sound S P env ((Run.start V R root).requestDefaultFeatures id) := by
  have hnone : ∀ k, ((Run.start V R root).requestDefaultFeatures id).resolved[k]? = none :=
    fun _ => TreeMap.getElem?_emptyc
  refine ⟨fun k p h => ?_, fun k key h => ?_, fun k p e h => ?_, fun e he => ?_, fun k hk => ?_,
    fun k p h => ?_⟩
  · rw [hnone] at h
    cases h
  · rw [show ((Run.start V R root).requestDefaultFeatures id).reqKeys[k]? = none from
      TreeMap.getElem?_emptyc] at h
    cases h
  · rw [hnone] at h
    cases h
  · exact absurd he List.not_mem_nil
  · exact absurd hk TreeMap.not_mem_emptyc
  · rw [hnone] at h
    cases h

theorem Sound.record (h : Sound S P env r) (parent name target : String) :
    Sound S P env (r.recordDependency parent name target) :=
  { h with }

theorem Sound.request (h : Sound S P env r) (id : String) (defaults : Bool)
    (features : List String) (more : Option (List String)) :
    Sound S P env (r.requestDependencyFeatures id defaults features more) :=
  { h with }

theorem Sound.mark (h : Sound S P env r) (direct : Bool) (id : String) :
    Sound S P env (r.markDirect direct id) := by
  unfold Run.markDirect
  split <;> exact { h with }

/-- A requirement that is in use joins those of its instance. -/
theorem Sound.require (h : Sound S P env r) (parent name reg : String) {req : R}
    (hreq : S reg name req) :
    Sound S P env (r.require parent name (ReqKey.new env.sem name reg req) req) := by
  generalize ht : r.require parent name (ReqKey.new env.sem name reg req) req = t
  have hreqs : t.reqs = r.reqs.insert (ReqKey.new env.sem name reg req).id
      (r.reqs.getD (ReqKey.new env.sem name reg req).id [] ++ [req]) := by rw [← ht]; rfl
  have hgather : ∀ id, ∀ q ∈ r.reqs.getD id [], q ∈ t.reqs.getD id [] := by
    intro id q hq
    rw [hreqs, getD_insert_eq]
    split
    · rename_i hid
      subst hid
      exact List.mem_append_left _ hq
    · exact hq
  have hresolved : t.resolved = r.resolved := by rw [← ht]; rfl
  refine ⟨fun id p hp => h.ids id p (hresolved ▸ hp), fun id key hkey => ?_,
    fun id p e hp => h.pinned id p e (hresolved ▸ hp), fun e he => ?_, fun id hid => ?_,
    fun id p hp => h.local_ids id p (hresolved ▸ hp)⟩
  · rw [← ht] at hkey
    unfold Run.require at hkey
    rw [TreeMap.getElem?_insertIfNew] at hkey
    split at hkey
    · rename_i hnew
      obtain rfl := Option.some.inj hkey
      obtain rfl := Std.compare_eq_iff_eq.mp hnew.1
      refine ⟨req, ?_, hreq, rfl⟩
      rw [hreqs, getD_insert_eq, if_pos rfl]
      exact List.mem_append_right _ (List.mem_singleton_self req)
    · obtain ⟨q, hq, hrest⟩ := h.keys id key hkey
      exact ⟨q, hgather id q hq, hrest⟩
  · rw [← ht] at he
    rcases List.mem_append.mp he with he | he
    · obtain ⟨hin, haims⟩ := h.declared e he
      exact ⟨hreqs ▸ (mem_insert_eq ..).mpr (.inr hin), haims⟩
    · rw [List.mem_singleton.mp he]
      exact ⟨hreqs ▸ (mem_insert_eq ..).mpr (.inl rfl), reg, name, hreq, rfl⟩
  · rw [hreqs] at hid
    rcases (mem_insert_eq ..).mp hid with rfl | hid
    · exact ReqKey.new_id env.sem name reg req
    · exact h.registry_ids id hid

/-- A path or git package is resolved: it is pinned to no version. -/
theorem Sound.expand (h : Sound S P env r) {id : String} {p : ResolvedInternal V R}
    (hid : p.id = id) (hentry : p.entry = none)
    (hlocal : (∃ s, id = "path:" ++ s) ∨ ∃ s, id = "git:" ++ s) :
    Sound S P env { r with resolved := r.resolved.insert id p } := by
  have hcases : ∀ (k : String) (q : ResolvedInternal V R), (r.resolved.insert id p)[k]? = some q →
      (k = id ∧ q = p) ∨ r.resolved[k]? = some q := by
    intro k q hq
    rw [getElem?_insert_eq] at hq
    split at hq
    · rename_i hk
      exact .inl ⟨hk.symm, (Option.some.inj hq).symm⟩
    · exact .inr hq
  refine { h with
    ids := fun k q hq => ?_
    pinned := fun k q e hq he => ?_
    local_ids := fun k q hq hnone => ?_ }
  · rcases hcases k q hq with ⟨rfl, rfl⟩ | hq
    · exact hid
    · exact h.ids k q hq
  · rcases hcases k q hq with ⟨_, rfl⟩ | hq
    · rw [hentry] at he
      cases he
    · exact h.pinned k q e hq he
  · rcases hcases k q hq with ⟨rfl, _⟩ | hq
    · exact hlocal
    · exact h.local_ids k q hq hnone

/-- A registry package is pinned to a published entry that meets all requirements gathered for
it. -/
theorem Sound.pin (h : Sound S P env r) {id : String} {key : ReqKey} {p : ResolvedInternal V R}
    {entry : IndexEntry V R} (hkey : r.reqKeys[id]? = some key) (hid : p.id = id)
    (hentry : p.entry = some entry) (hpublished : P key.registry key.name entry.vers)
    (hmeets : ∀ q ∈ r.reqs.getD id [], env.sem.matchesReq q entry.vers = true) :
    Sound S P env (r.pin id p) := by
  have hcases : ∀ (k : String) (q : ResolvedInternal V R), (r.pin id p).resolved[k]? = some q →
      (k = id ∧ q = p) ∨ r.resolved[k]? = some q := by
    intro k q hq
    unfold Run.pin at hq
    rw [getElem?_insert_eq] at hq
    split at hq
    · rename_i hk
      exact .inl ⟨hk.symm, (Option.some.inj hq).symm⟩
    · exact .inr hq
  refine { h with
    ids := fun k q hq => ?_
    pinned := fun k q e hq he => ?_
    declared := fun e he => h.declared e (List.mem_filter.mp he).1
    local_ids := fun k q hq hnone => ?_ }
  · rcases hcases k q hq with ⟨rfl, rfl⟩ | hq
    · exact hid
    · exact h.ids k q hq
  · rcases hcases k q hq with ⟨rfl, rfl⟩ | hq
    · obtain rfl := Option.some.inj (hentry.symm.trans he)
      obtain ⟨a, ha, hin, hnew⟩ := h.keys k key hkey
      exact ⟨key.registry, key.name, a, hin, hnew, hpublished, hmeets a ha⟩
    · exact h.pinned k q e hq he
  · rcases hcases k q hq with ⟨_, rfl⟩ | hq
    · rw [hentry] at hnone
      cases hnone
    · exact h.local_ids k q hq hnone

/-- When nothing is pending, each instance with requirements is pinned. -/
theorem Sound.all_pinned (h : Sound S P env r) (hdone : r.pending = []) {id : String}
    (hid : id ∈ r.reqs) : ∃ p entry, r.resolved[id]? = some p ∧ p.entry = some entry := by
  have hkey : id ∈ r.reqs.keys := TreeMap.mem_keys.mpr hid
  have hcontains : r.resolved.contains id = true := by
    have hnot := List.filter_eq_nil_iff.mp hdone id hkey
    by_contra hnew
    apply hnot
    rw [Bool.eq_false_iff.mpr hnew]
    rfl
  obtain ⟨p, hp⟩ := Option.isSome_iff_exists.mp
    (TreeMap.isSome_getElem?_eq_contains.trans hcontains)
  cases hentry : p.entry with
  | none => exact absurd (h.local_ids id p hp hentry) (registry_ne_local (h.registry_ids id hid))
  | some entry => exact ⟨p, entry, hp, hentry⟩

/-! ## The answer -/

variable [DecidableEq V] {root : Manifest}

/-- Each change of a run keeps what it knows. -/
theorem sound_kept (huse : UsesOnly S env root) (hpublished : PublishesOnly P env) :
    Kept env root (Sound S P env) where
  record := fun _ parent name target h => h.record parent name target
  mark := fun _ direct id h => h.mark direct id
  request := fun _ id defaults features more h => h.request id defaults features more
  require := fun _ m parent name reg _ hm hreq h =>
    h.require parent name reg (huse.manifest m hm reg name _ hreq)
  expand := fun _ _ _ _ hid hentry hlocal h => h.expand hid hentry hlocal.kind
  pin := fun _ _ _ _ _ entry _ hkey hfound hindex hentry h =>
    h.pin hkey rfl rfl (hpublished _ _ _ _ hfound hindex entry (chooseEntry_mem hentry))
      (chooseEntry_meets hentry)
  process := fun _ _ h => { h with }
  fold := fun _ parent reg _ _ _ _ d hfound hindex he hd h =>
    h.require parent d.name _ (huse.index reg _ _ _ hfound hindex _ he d hd)

/-- Where the requirements agree, an answer satisfies all of them. -/
theorem satisfied_of_agree (huse : UsesOnly S env root) (hpublished : PublishesOnly P env)
    (hagree : RequirementsAgree env.sem S P) {fuel : Nat} {rootDir : String} {res : Resolved V R}
    (h : resolve env fuel root rootDir = .ok res) : ∀ e ∈ res.declared, Satisfied env res e := by
  obtain ⟨r, hr, hdone, hdeclared, _, hmem⟩ :=
    (sound_kept huse hpublished).resolve (Sound.start S P env _ _) h
  rw [hdeclared]
  intro e he
  obtain ⟨hin, reg', name', hreq, htarget⟩ := hr.declared e he
  obtain ⟨p, entry, hp, hentry⟩ := hr.all_pinned hdone hin
  obtain ⟨reg, name, q, hq, hid, hvers, hmatch⟩ := hr.pinned _ p entry hp hentry
  exact ⟨p, find_by_id hr.ids hmem hp, entry, hentry,
    hagree reg name q reg' name' e.req entry.vers hq hreq (hid.trans htarget.symm) hvers hmatch⟩

end sound

/-! ## A requirement that comes late -/

section late

variable {sem : Semver V R} {reg name other : String} {owner : Option String} {q req : R} {v : V}

theorem twoKeys_publishes {P : String → String → V → Prop} (hv : P reg name v) :
    PublishesOnly P (twoKeysEnv sem reg name other owner req v v) := by
  intro k registry n entries hk hn e he
  unfold twoKeysEnv at hk
  dsimp only at hk
  split at hk
  · rename_i hkr
    subst hkr
    obtain rfl := Option.some.inj hk
    cases hn
    split at he
    · rename_i hname
      subst hname
      simp only [twoKeysEntries, List.map_cons, List.map_nil, List.mem_cons, List.not_mem_nil,
        or_false, or_self] at he
      rw [he]
      exact hv
    · cases he
  · cases hk

variable [DecidableEq V]

variable (owner) in
/-- The version that is pinned for the requirement of the root asks for its own instance by a
requirement that it does not meet. -/
theorem late_requirement (hround : sem.parseReq (sem.showReq q) = .ok q)
    (hq : sem.matchesReq q v = true) (hreq : sem.matchesReq req v = false)
    (hid : (ReqKey.new sem name reg q).id = (ReqKey.new sem other (owner.getD reg) req).id) :
    ∃ res, resolve (twoKeysEnv sem reg name other owner req v v) 3 (twoKeysRoot sem name q) "/app"
      = .ok res ∧ ∃ e ∈ res.declared, ¬Satisfied (twoKeysEnv sem reg name other owner req v v)
        res e := by
  obtain ⟨r, hseed, hresolved, hreqs, hkey, hkeys, hprocessed, hrequested⟩ :=
    twoKeys_seed reg name other owner req v v hround 1
  generalize ha : (ReqKey.new sem name reg q).id = a at *
  have harequested : r.requestedFeatures a = [] := hrequested a (ha ▸ registry_ne_root "app")
  have hgeta : r.reqs.getD a [] = [q] := by rw [hreqs, getD_insert_eq, if_pos rfl]
  obtain ⟨s, hs, hspin⟩ := twoKeys_pin (n := 2) sem reg name other owner req v v hkey rfl rfl
    (.inl rfl) (by simpa [hgeta] using hq) harequested
  obtain ⟨p, e, hsresolved, hpid, _, _, hpe, hev⟩ := hspin.resolved
  have hresa : s.resolved[a]? = some p := by rw [hsresolved, getElem?_insert_eq, if_pos rfl]
  have hlast : s.pending = [] := by
    apply List.eq_nil_iff_forall_not_mem.mpr
    intro k hk
    have hmem := mem_reqs_of_pending hk
    rw [hspin.reqs, ← hid, mem_insert_eq, hreqs, mem_insert_eq] at hmem
    obtain rfl : a = k :=
      hmem.elim id fun hmem => hmem.resolve_right TreeMap.not_mem_emptyc
    refine not_pending ?_ ?_ hk
    · rw [TreeMap.contains_eq_isSome_getElem?, hresa]
      rfl
    · rw [hspin.processed, getElem?_insert_eq, if_pos rfl, hspin.requested, harequested]
  have hrun : runLoop (twoKeysEnv sem reg name other owner req v v) 3 r = .ok s := by
    unfold runLoop
    rw [twoKeys_pending hresolved hreqs]
    refine bind_ok.mpr ⟨s, bind_ok.mpr ⟨s, hs, rfl⟩, ?_⟩
    unfold runLoop
    rw [hlast]
    rfl
  refine ⟨_, bind_ok.mpr ⟨r, hseed, bind_ok.mpr ⟨s, hrun, rfl⟩⟩, _, hspin.declared, ?_⟩
  rintro ⟨p', hp', entry, hentry, hmatch⟩
  obtain rfl : p' = p := by
    obtain ⟨k, hk⟩ := mem_sorted_values.mp (List.mem_of_find?_eq_some hp')
    rw [hsresolved, hresolved, getElem?_insert_eq, TreeMap.getElem?_emptyc] at hk
    split at hk
    · exact (Option.some.inj hk).symm
    · cases hk
  obtain rfl := Option.some.inj (hpe.symm.trans hentry)
  rw [show e.vers = v from hev.elim id id] at hmatch
  exact Bool.false_ne_true (hreq.symm.trans hmatch)

end late

/-! ## The law -/

/-- Requirements of the two kinds that the runs use: `^` and `=`. -/
inductive DemoReq
  | caret (major minor patch : Nat)
  | exact (major minor patch : Nat)

/-- Versions without pre-releases, and the two kinds of requirements, for major versions from 1
on. -/
def demoSemver : Semver (Nat × Nat × Nat) DemoReq where
  matchesReq
    | .caret a b c, v => v.1 == a && (decide (b < v.2.1) || (v.2.1 == b && decide (c ≤ v.2.2)))
    | .exact a b c, v => v == (a, b, c)
  comparators
    | .caret a b _ => [(a, some b)]
    | .exact a b _ => [(a, some b)]
  le v w := decide (v.1 < w.1) || (v.1 == w.1 &&
    (decide (v.2.1 < w.2.1) || (v.2.1 == w.2.1 && decide (v.2.2 ≤ w.2.2))))
  showReq
    | .caret a b c => "^" ++ toString a ++ "." ++ toString b ++ "." ++ toString c
    | .exact a b c => "=" ++ toString a ++ "." ++ toString b ++ "." ++ toString c
  showVersion v := toString v.1 ++ "." ++ toString v.2.1 ++ "." ++ toString v.2.2
  parseReq text :=
    if text = "^1.0.0" then .ok (.caret 1 0 0) else if text = "^1.2.0" then .ok (.caret 1 2 0)
    else .error "unexpected requirement"
  parseVersion _ := .error "unexpected version"

/-- An index entry without features. -/
def demoEntry (name : String) (vers : Nat × Nat × Nat) (deps : List (IndexDep DemoReq)) :
    IndexEntry (Nat × Nat × Nat) DemoReq :=
  ⟨name, vers, deps, {}, "00", false⟩

/-- Two versions of `a`, and a package `b` with a requirement for `a`. -/
def demoIndex (low : Nat × Nat × Nat) (req : DemoReq) (name : String) :
    List (IndexEntry (Nat × Nat × Nat) DemoReq) :=
  if name = "a" then [demoEntry "a" low [], demoEntry "a" (1, 5, 0) []]
  else if name = "b" then [demoEntry "b" low [⟨"a", req, false, true, [], none⟩]]
  else []

/-- One registry, no lock, no files and no git. -/
def demoEnv (low : Nat × Nat × Nat) (req : DemoReq) : Env (Nat × Nat × Nat) DemoReq where
  sem := demoSemver
  registries _ := some ⟨"main", fun name => .ok (demoIndex low req name), fun _ => .ok []⟩
  defaultRegistry := "main"
  extract _ checksum := .ok checksum
  existing := none
  sha256Hex _ := ""
  join dir path := dir ++ "/" ++ path
  normalize path := path
  readToString _ := .error "no file"
  parseManifest _ := .error "no manifest"
  gitFetch _ _ := .error "no repository"

/-- A manifest that asks for `a` and `b`. -/
def demoRoot : Manifest where
  name := "app"
  version := "0.1.0"
  defaultFeatures := []
  dependencies := (({} : TreeMap String Dependency).insert "a"
    ⟨.registry "^1.0.0" none, [], true, false⟩).insert "b"
    ⟨.registry "^1.0.0" none, [], true, false⟩
  features := {}

/-- The requirements `^1.0.0` and `^1.2.0`. -/
def DemoOnly (_ _ : String) (q : DemoReq) : Prop := q = .caret 1 0 0 ∨ q = .caret 1 2 0

/-- The versions 1.2.0 and 1.5.0. -/
def DemoVersions (_ _ : String) (v : Nat × Nat × Nat) : Prop := v = (1, 2, 0) ∨ v = (1, 5, 0)

theorem demo_agree : RequirementsAgree demoSemver DemoOnly DemoVersions := by
  rintro reg name q reg' name' r v _ (rfl | rfl) _ (rfl | rfl) _ <;> rfl

theorem demoIndex_vers {name : String} {req : DemoReq} :
    ∀ e ∈ demoIndex (1, 2, 0) req name, e.vers = (1, 2, 0) ∨ e.vers = (1, 5, 0) := by
  intro e he
  unfold demoIndex at he
  split_ifs at he
  · simp only [List.mem_cons, List.not_mem_nil, or_false] at he
    exact he.imp (fun h => by rw [h]; rfl) fun h => by rw [h]; rfl
  · rw [List.mem_singleton.mp he]
    exact .inl rfl
  · cases he

theorem demo_uses : UsesOnly DemoOnly (demoEnv (1, 2, 0) (.caret 1 2 0)) demoRoot := by
  refine ⟨fun m hm reg name q hq => ?_, fun k registry name entries hk hn e he d hd => ?_⟩
  · obtain rfl | ⟨text, htext⟩ := hm
    · obtain ⟨dep, version, registry, hdep, hsource, hparse, _⟩ := hq
      have hversion : version = "^1.0.0" := by
        unfold demoRoot at hdep
        rw [getElem?_insert_eq, getElem?_insert_eq, TreeMap.getElem?_emptyc] at hdep
        split_ifs at hdep
        all_goals
          cases hdep
          exact (DepSource.registry.inj hsource).1.symm
      subst hversion
      cases hparse
      exact .inl rfl
    · cases htext
  · cases hk
    cases hn
    unfold demoIndex at he
    split_ifs at he
    · simp only [List.mem_cons, List.not_mem_nil, or_false] at he
      obtain rfl | rfl := he
      · cases hd
      · cases hd
    · obtain rfl := List.mem_singleton.mp he
      obtain rfl := List.mem_singleton.mp hd
      exact .inr rfl
    · cases he

end pkg
