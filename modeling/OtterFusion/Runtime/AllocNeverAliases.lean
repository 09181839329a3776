-- The allocator never hands out an address twice (`gc_alloc.rs`). A step renames owners, carves
-- a block from a bump region, or adds a slab that nobody owned.
import OtterFusion.Runtime.AllocOwners

open base.ownership base.runs

namespace runtime.alloc

/-! ## The steps that move a block -/

section steps

variable {checks : Bool} {own : Nat → Owner} {s : Heap} {th : Nat}

theorem caches_setCache (c : LocalCache) (i : Nat) :
    (s.setCache th c).caches i = if i = th then c else s.caches i := by
  by_cases h : i = th
  · subst h
    simp [Heap.setCache]
  · simp [Heap.setCache, h]

/-- An entry of a free list is a block whose first address belongs to the entry. -/
theorem Inv.first (h : Inv checks own s) {tag : Owner} {b n : Nat} (hh : Holds checks s tag b n) :
    own b = tag :=
  (h.blocks tag b n hh).owns.first (h.blocks tag b n hh).pos

/-- A block that a thread gets in hand, by a step that changes the lists and its point. -/
theorem ret_goto {total cls base : Nat} {s' : Heap} (hpoints : s'.points = s.points) (i t c b : Nat)
    (hi : (s'.goto th (.zero total cls base)).points i = .ret t c b) :
    s.points i = .ret t c b := by
  rw [points_goto] at hi
  split at hi
  · cases hi
  · rwa [hpoints] at hi

/-- `alloc` pops a block of the cache. -/
theorem inv_popLocal {total cls idx base : Nat} {rest : List Nat} (h : Inv checks own s)
    (hp : s.points th = .small total cls idx)
    (hpop : popBlock ((s.caches th).free idx) = some (base, rest)) :
    Inv checks (fun a => moved (.localFree th idx base) (.inHand th) (own a))
      ((s.setCache th { s.caches th with
        free := Function.update (s.caches th).free idx rest }).goto th (.zero total cls base)) := by
  have hlist := popBlock_eq hpop
  have hnodup := h.distinct.localFree th idx
  rw [hlist, nodup_snoc] at hnodup
  have hpoint := h.points th
  rw [hp] at hpoint
  have hcls : classSizeOfIndex idx = cls := classIndex_spec hpoint.1 hpoint.2
  refine h.move ⟨rfl, rfl, rfl, fun i => ?_, rfl⟩ rfl rfl (fun tag b n hh => ?_)
    (pointOk_goto h.points hpoint.1) h.live
    ⟨h.distinct.globFree, fun i j => ?_, h.distinct.large, h.distinct.live⟩ (ret_goto rfl)
  · simp only [Heap.goto]
    rw [caches_setCache]
    split
    · rename_i hi
      exact hi ▸ ⟨rfl, rfl⟩
    · exact ⟨rfl, rfl⟩
  · cases hh with
    | globFree hb => exact Or.inr ⟨Owner.noConfusion, .globFree hb⟩
    | large hb => exact Or.inr ⟨Owner.noConfusion, .large hb⟩
    | live hb hc => exact Or.inr ⟨Owner.noConfusion, .live hb hc⟩
    | @localFree i j b hb =>
      refine Or.inr ?_
      simp only [Heap.goto] at hb
      rw [caches_setCache] at hb
      split at hb
      · rename_i hi
        subst hi
        rcases mem_update hb with ⟨rfl, hin⟩ | ⟨hj, hin⟩
        · refine ⟨?_, .localFree (by rw [hlist]; exact List.mem_append_left _ hin)⟩
          rintro ⟨⟩
          exact hnodup.1 hin
        · refine ⟨?_, .localFree hin⟩
          rintro ⟨⟩
          exact hj rfl
      · rename_i hi
        refine ⟨?_, .localFree hb⟩
        rintro ⟨⟩
        exact hi rfl
    | @inHand i b n hb =>
      rw [points_goto] at hb
      split at hb
      · rename_i hi
        obtain ⟨rfl, rfl⟩ := hb
        subst hi
        refine Or.inl ⟨rfl, hcls ▸ .localFree ?_⟩
        rw [hlist]
        exact List.mem_concat_self
      · exact Or.inr ⟨Owner.noConfusion, .inHand hb⟩
  · simp only [Heap.goto]
    rw [caches_setCache]
    split
    · by_cases hj : j = idx
      · subst hj
        simpa using hnodup.2
      · simpa [hj] using h.distinct.localFree th j
    · exact h.distinct.localFree i j

/-- `alloc_large` pops a block of the exact size. -/
theorem inv_popLarge {total cls base : Nat} {rest : List Nat} (h : Inv checks own s)
    (hp : s.points th = .large total cls)
    (hpop : popBlock (s.glob.largeFree cls) = some (base, rest)) :
    Inv checks (fun a => moved (.large cls base) (.inHand th) (own a))
      ({ s with glob := { s.glob with
        largeFree := Function.update s.glob.largeFree cls rest } }.goto th
          (.zero total cls base)) := by
  have hlist := popBlock_eq hpop
  have hnodup := h.distinct.large cls
  rw [hlist, nodup_snoc] at hnodup
  have hpoint := h.points th
  rw [hp] at hpoint
  refine h.move ⟨rfl, rfl, rfl, fun i => ⟨rfl, rfl⟩, rfl⟩ rfl rfl (fun tag b n hh => ?_)
    (pointOk_goto h.points hpoint) h.live
    ⟨h.distinct.globFree, h.distinct.localFree, fun c => ?_, h.distinct.live⟩ (ret_goto rfl)
  · cases hh with
    | globFree hb => exact Or.inr ⟨Owner.noConfusion, .globFree hb⟩
    | localFree hb => exact Or.inr ⟨Owner.noConfusion, .localFree hb⟩
    | live hb hc => exact Or.inr ⟨Owner.noConfusion, .live hb hc⟩
    | @large c b hb =>
      refine Or.inr ?_
      rcases mem_update hb with ⟨rfl, hin⟩ | ⟨hc, hin⟩
      · refine ⟨?_, .large (by rw [hlist]; exact List.mem_append_left _ hin)⟩
        rintro ⟨⟩
        exact hnodup.1 hin
      · refine ⟨?_, .large hin⟩
        rintro ⟨⟩
        exact hc rfl
    | @inHand i b n hb =>
      rw [points_goto] at hb
      split at hb
      · rename_i hi
        obtain ⟨rfl, rfl⟩ := hb
        subst hi
        refine Or.inl ⟨rfl, .large ?_⟩
        rw [hlist]
        exact List.mem_concat_self
      · exact Or.inr ⟨Owner.noConfusion, .inHand hb⟩
  · by_cases hc : c = cls
    · subst hc
      simpa [Heap.goto] using hnodup.2
    · simpa [Heap.goto, hc] using h.distinct.large c

/-- What is in one hand is in no other place. -/
theorem Inv.has (h : Inv checks own s) {b n : Nat} (hh : (s.points th).Has checks b n) :
    own b = .inHand th := h.first (.inHand hh)

/-- `alloc` returns the block. -/
theorem inv_ret {total cls base : Nat} (h : Inv checks own s)
    (hp : s.points th = .ret total cls base) :
    Inv checks (fun a => moved (.inHand th) (.live base) (own a))
      ({ s with live := s.live ++ [(base, total)] }.goto th .idle) := by
  have hpoint := h.points th
  rw [hp] at hpoint
  have hhas : (s.points th).Has checks base cls := by
    rw [hp]
    exact ⟨rfl, rfl⟩
  refine h.move ⟨rfl, rfl, rfl, fun i => ⟨rfl, rfl⟩, rfl⟩ rfl rfl (fun tag b n hh => ?_)
    (pointOk_goto h.points trivial) (fun b n hb => ?_)
    ⟨h.distinct.globFree, h.distinct.localFree, h.distinct.large, ?_⟩ (fun i t c b hi => ?_)
  · cases hh with
    | globFree hb => exact Or.inr ⟨Owner.noConfusion, .globFree hb⟩
    | localFree hb => exact Or.inr ⟨Owner.noConfusion, .localFree hb⟩
    | large hb => exact Or.inr ⟨Owner.noConfusion, .large hb⟩
    | live hb hc =>
      rcases List.mem_append.mp hb with hb | hb
      · exact Or.inr ⟨Owner.noConfusion, .live hb hc⟩
      · cases List.mem_singleton.mp hb
        rw [hpoint.cls] at hc
        cases hc
        exact Or.inl ⟨rfl, .inHand hhas⟩
    | @inHand i b n hb =>
      rw [points_goto] at hb
      split at hb
      · exact hb.elim
      · rename_i hi
        refine Or.inr ⟨?_, .inHand hb⟩
        rintro ⟨⟩
        exact hi rfl
  · rcases List.mem_append.mp hb with hb | hb
    · exact h.live b n hb
    · cases List.mem_singleton.mp hb
      exact ⟨cls, hpoint⟩
  · have hnew : base ∉ s.live.map Prod.fst := by
      intro hmem
      obtain ⟨⟨b, n⟩, hb, rfl⟩ := List.mem_map.mp hmem
      obtain ⟨c, hc⟩ := h.live b n hb
      have hlive := h.first (.live hb hc.cls)
      rw [h.has hhas] at hlive
      cases hlive
    simp only [Heap.goto, List.map_append, List.map_cons, List.map_nil]
    exact nodup_snoc.mpr ⟨hnew, h.distinct.live⟩
  · rw [points_goto] at hi
    split at hi
    · cases hi
    · exact hi

/-- `free` takes a live block. -/
theorem inv_free {total base : Nat} (h : Inv checks own s) (hmem : (base, total) ∈ s.live) :
    Inv checks (fun a => moved (.live base) (.inHand th) (own a))
      ({ s with live := s.live.erase (base, total) }.goto th (.free total base)) := by
  obtain ⟨cls, hsized⟩ := h.live base total hmem
  have hnodup : s.live.Nodup := List.Nodup.of_map Prod.fst h.distinct.live
  have hrest : ∀ {b n}, (b, n) ∈ s.live.erase (base, total) → b ≠ base ∧ (b, n) ∈ s.live := by
    rintro b n hb
    obtain ⟨hne, hin⟩ := hnodup.mem_erase_iff.mp hb
    refine ⟨?_, hin⟩
    rintro rfl
    exact hne (List.inj_on_of_nodup_map h.distinct.live hin hmem rfl)
  refine h.move ⟨rfl, rfl, rfl, fun i => ⟨rfl, rfl⟩, rfl⟩ rfl rfl (fun tag b n hh => ?_)
    (pointOk_goto h.points ⟨cls, hsized⟩) (fun b n hb => h.live b n (hrest hb).2)
    ⟨h.distinct.globFree, h.distinct.localFree, h.distinct.large, ?_⟩ (fun i t c b hi => ?_)
  · cases hh with
    | globFree hb => exact Or.inr ⟨Owner.noConfusion, .globFree hb⟩
    | localFree hb => exact Or.inr ⟨Owner.noConfusion, .localFree hb⟩
    | large hb => exact Or.inr ⟨Owner.noConfusion, .large hb⟩
    | live hb hc =>
      obtain ⟨hne, hb⟩ := hrest hb
      refine Or.inr ⟨?_, .live hb hc⟩
      rintro ⟨⟩
      exact hne rfl
    | @inHand i b n hb =>
      rw [points_goto] at hb
      split at hb
      · rename_i hi
        obtain ⟨rfl, hc⟩ := hb
        subst hi
        exact Or.inl ⟨rfl, .live hmem hc⟩
      · exact Or.inr ⟨Owner.noConfusion, .inHand hb⟩
  · exact (List.erase_sublist.map Prod.fst).nodup h.distinct.live
  · rw [points_goto] at hi
    split at hi
    · cases hi
    · exact hi

/-- `free` hands the block to the list of its class. -/
theorem inv_freeLocked {total base : Nat} {glob : GlobalAlloc} (h : Inv checks own s)
    (hp : s.points th = .free total base)
    (hglob : freeLocked checks s.glob base total = some glob) :
    ∃ own', Inv checks own' ({ s with glob }.goto th .idle) := by
  have hpoint := h.points th
  rw [hp] at hpoint
  obtain ⟨cls, hsized⟩ := hpoint
  have hhas : (s.points th).Has checks base cls := by
    rw [hp]
    exact ⟨rfl, hsized.cls⟩
  have hown := h.has hhas
  have hret : ∀ {s' : Heap}, s'.points = s.points → ∀ i t c b,
      (s'.goto th .idle).points i = .ret t c b → s.points i = .ret t c b := by
    intro s' hs i t c b hi
    rw [points_goto] at hi
    split at hi
    · cases hi
    · rwa [hs] at hi
  have hhand : ∀ {s' : Heap} {i b n}, s'.points = s.points →
      ((s'.goto th .idle).points i).Has checks b n →
      Owner.inHand i ≠ .inHand th ∧ Holds checks s (.inHand i) b n := by
    intro s' i b n hs hb
    rw [points_goto] at hb
    split at hb
    · exact hb.elim
    · rename_i hi
      rw [hs] at hb
      refine ⟨?_, .inHand hb⟩
      rintro ⟨⟩
      exact hi rfl
  unfold freeLocked at hglob
  simp only [hsized.cls, Option.bind_eq_bind, Option.bind_some, Option.bind_eq_some_iff] at hglob
  obtain ⟨o, hidx, hglob⟩ := hglob
  cases o with
  | some idx =>
    simp only [Option.ite_none_right_eq_some, Option.some.injEq] at hglob
    obtain ⟨_, rfl⟩ := hglob
    have hcls := classIndex_spec hsized hidx
    refine ⟨_, @Inv.move checks own s _ (.inHand th) (.globFree idx base) h
      ⟨rfl, rfl, rfl, fun i => ⟨rfl, rfl⟩, rfl⟩ rfl rfl (fun tag b n hh => ?_)
      (pointOk_goto h.points trivial) h.live
      ⟨fun j => ?_, h.distinct.localFree, h.distinct.large, h.distinct.live⟩ (hret rfl)⟩
    · cases hh with
      | localFree hb => exact Or.inr ⟨Owner.noConfusion, .localFree hb⟩
      | large hb => exact Or.inr ⟨Owner.noConfusion, .large hb⟩
      | live hb hc => exact Or.inr ⟨Owner.noConfusion, .live hb hc⟩
      | inHand hb => exact Or.inr (hhand rfl hb)
      | globFree hb =>
        rcases mem_update hb with ⟨rfl, hb⟩ | ⟨_, hb⟩
        · rcases List.mem_append.mp hb with hb | hb
          · exact Or.inr ⟨Owner.noConfusion, .globFree hb⟩
          · cases List.mem_singleton.mp hb
            exact Or.inl ⟨rfl, hcls ▸ .inHand hhas⟩
        · exact Or.inr ⟨Owner.noConfusion, .globFree hb⟩
    · by_cases hj : j = idx
      · subst hj
        have hnew : base ∉ s.glob.free j := by
          intro hb
          have hfree := h.first (.globFree hb)
          rw [hown] at hfree
          cases hfree
        simpa [Heap.goto] using nodup_snoc.mpr ⟨hnew, h.distinct.globFree j⟩
      · simpa [Heap.goto, hj] using h.distinct.globFree j
  | none =>
    simp only [Option.some.injEq] at hglob
    subst hglob
    refine ⟨_, @Inv.move checks own s _ (.inHand th) (.large cls base) h
      ⟨rfl, rfl, rfl, fun i => ⟨rfl, rfl⟩, rfl⟩ rfl rfl (fun tag b n hh => ?_)
      (pointOk_goto h.points trivial) h.live
      ⟨h.distinct.globFree, h.distinct.localFree, fun c => ?_, h.distinct.live⟩ (hret rfl)⟩
    · cases hh with
      | globFree hb => exact Or.inr ⟨Owner.noConfusion, .globFree hb⟩
      | localFree hb => exact Or.inr ⟨Owner.noConfusion, .localFree hb⟩
      | live hb hc => exact Or.inr ⟨Owner.noConfusion, .live hb hc⟩
      | inHand hb => exact Or.inr (hhand rfl hb)
      | large hb =>
        rcases mem_update hb with ⟨rfl, hb⟩ | ⟨_, hb⟩
        · rcases List.mem_append.mp hb with hb | hb
          · exact Or.inr ⟨Owner.noConfusion, .large hb⟩
          · cases List.mem_singleton.mp hb
            exact Or.inl ⟨rfl, .inHand hhas⟩
        · exact Or.inr ⟨Owner.noConfusion, .large hb⟩
    · by_cases hc : c = cls
      · subst hc
        have hnew : base ∉ s.glob.largeFree c := by
          intro hb
          have hfree := h.first (.large hb)
          rw [hown] at hfree
          cases hfree
        simpa [Heap.goto] using nodup_snoc.mpr ⟨hnew, h.distinct.large c⟩
      · simpa [Heap.goto, hc] using h.distinct.large c

end steps

/-! ## The steps that move many blocks -/

section batches

variable {checks : Bool} {own : Nat → Owner} {s : Heap} {th : Nat}

/-- The blocks of a batch go from a global list to that of a cache. -/
def batched (th idx : Nat) (blocks : List Nat) : Owner → Owner
  | .globFree i b => if i = idx ∧ b ∈ blocks then .localFree th i b else .globFree i b
  | tag => tag

/-- The blocks of a cache go to the global lists. -/
def flushed (th : Nat) : Owner → Owner
  | .localFree i idx b => if i = th then .globFree idx b else .localFree i idx b
  | tag => tag

/-- A block is in one free list only. -/
theorem Inv.not_in_both (h : Inv checks own s) {idx b : Nat} (hg : b ∈ s.glob.free idx)
    (hl : b ∈ (s.caches th).free idx) : False := by
  have hglob := h.first (.globFree hg)
  rw [h.first (.localFree hl)] at hglob
  cases hglob

/-- `refill` moves a batch of recycled blocks. -/
theorem inv_batch {idx start : Nat} (h : Inv checks own s) :
    Inv checks (fun a => batched th idx ((s.glob.free idx).drop start) (own a))
      ({ s with glob := { s.glob with
          free := Function.update s.glob.free idx ((s.glob.free idx).take start) } }.setCache th
        { s.caches th with
          free := Function.update (s.caches th).free idx
            ((s.caches th).free idx ++ (s.glob.free idx).drop start) }) := by
  have hsplit : (s.glob.free idx).take start ++ (s.glob.free idx).drop start = s.glob.free idx :=
    List.take_append_drop start _
  have hnodup := h.distinct.globFree idx
  rw [← hsplit, List.nodup_append] at hnodup
  obtain ⟨htake, hdrop, hdisjoint⟩ := hnodup
  refine h.rename _ ⟨rfl, rfl, rfl, fun i => ?_, rfl⟩ (fun tag ht => ?_) (fun tag ht => ?_)
    (fun tag b n hh => ?_) h.points h.live
    ⟨fun j => ?_, fun i j => ?_, h.distinct.large, h.distinct.live⟩ (fun _ _ _ _ hi => hi)
  · rw [caches_setCache]
    split
    · rename_i hi
      exact hi ▸ ⟨rfl, rfl⟩
    · exact ⟨rfl, rfl⟩
  · cases tag <;> first | rfl | cases ht
  · cases tag with
    | globFree i b =>
      simp only [batched] at ht
      split at ht <;> cases ht
    | _ => exact ht
  · cases hh with
    | large hb => exact ⟨_, .large hb, rfl⟩
    | live hb hc => exact ⟨_, .live hb hc, rfl⟩
    | inHand hb => exact ⟨_, .inHand hb, rfl⟩
    | @globFree j b hb =>
      rcases mem_update hb with ⟨rfl, hin⟩ | ⟨hj, hin⟩
      · refine ⟨_, .globFree (List.mem_of_mem_take hin), if_neg ?_⟩
        rintro ⟨_, hd⟩
        exact hdisjoint b hin b hd rfl
      · exact ⟨_, .globFree hin, if_neg fun hc => hj hc.1⟩
    | @localFree i j b hb =>
      rw [caches_setCache] at hb
      split at hb
      · rename_i hi
        subst hi
        rcases mem_update hb with ⟨rfl, hin⟩ | ⟨_, hin⟩
        · rcases List.mem_append.mp hin with hin | hin
          · exact ⟨_, .localFree hin, rfl⟩
          · exact ⟨_, .globFree (List.mem_of_mem_drop hin), if_pos ⟨rfl, hin⟩⟩
        · exact ⟨_, .localFree hin, rfl⟩
      · exact ⟨_, .localFree hb, rfl⟩
  · by_cases hj : j = idx
    · subst hj
      simpa [Heap.setCache] using htake
    · simpa [Heap.setCache, hj] using h.distinct.globFree j
  · rw [caches_setCache]
    split
    · by_cases hj : j = idx
      · subst hj
        simp only [Function.update_self]
        refine List.nodup_append.mpr ⟨h.distinct.localFree th j, hdrop, ?_⟩
        rintro b hb b' hb' rfl
        exact h.not_in_both (List.mem_of_mem_drop hb') hb
      · simpa [hj] using h.distinct.localFree th j
    · exact h.distinct.localFree i j

/-- A thread that exits flushes its cache. -/
theorem inv_exit (h : Inv checks own s) : Inv checks (fun a => flushed th (own a))
    ({ s with glob := s.glob.flush (s.caches th) }.setCache th .new) := by
  have hcaches : ∀ i, ({ s with glob := s.glob.flush (s.caches th) }.setCache th .new).caches i =
      if i = th then .new else s.caches i := fun i => caches_setCache _ i
  refine ⟨h.glob.rename _ rfl, fun i => ?_, fun tag b n hh => ?_, h.points, h.live,
    ⟨fun j => ?_, fun i j => ?_, h.distinct.large, h.distinct.live⟩,
    ⟨fun a ha => h.blank.spare a ?_, h.blank.ret⟩⟩
  · rw [hcaches]
    split
    · exact ⟨Nat.le_refl 0, by simp [LocalCache.new], Nat.dvd_zero 16,
        fun hlt => absurd hlt (Nat.lt_irrefl 0), fun a _ hlt => absurd hlt (Nat.not_lt_zero a)⟩
    · exact (h.chunk i).rename _ rfl
  · have hbefore : ∃ tag', Holds checks s tag' b n ∧ flushed th tag' = tag := by
      cases hh with
      | large hb => exact ⟨_, .large hb, rfl⟩
      | live hb hc => exact ⟨_, .live hb hc, rfl⟩
      | inHand hb => exact ⟨_, .inHand hb, rfl⟩
      | globFree hb =>
        rcases List.mem_append.mp hb with hin | hin
        · exact ⟨_, .globFree hin, rfl⟩
        · exact ⟨_, .localFree hin, if_pos rfl⟩
      | localFree hb =>
        rw [hcaches] at hb
        split at hb
        · cases hb
        · rename_i hi
          exact ⟨_, .localFree hb, if_neg hi⟩
    obtain ⟨tag', hold, rfl⟩ := hbefore
    exact (h.blocks tag' b n hold).rename _
  · refine List.nodup_append.mpr ⟨h.distinct.globFree j, h.distinct.localFree th j, ?_⟩
    rintro b hb b' hb' rfl
    exact h.not_in_both hb hb'
  · rw [hcaches]
    split
    · exact List.nodup_nil
    · exact h.distinct.localFree i j
  · generalize own a = tag at ha ⊢
    cases tag with
    | localFree i idx b =>
      simp only [flushed] at ha
      split at ha <;> cases ha
    | _ => exact ha

end batches

/-! ## The steps that carve a block -/

theorem zeroed_in {mem : Nat → UInt8} {base n a : Nat} (hle : base ≤ a) (hlt : a < base + n) :
    zeroed mem base n a = 0 := if_pos ⟨hle, hlt⟩

theorem zeroed_zero {mem : Nat → UInt8} {base n a : Nat} (h : mem a = 0) :
    zeroed mem base n a = 0 := by
  unfold zeroed
  split
  · rfl
  · exact h

theorem Holds.not_bump {checks : Bool} {s : Heap} {tag : Owner} {b n : Nat}
    (h : Holds checks s tag b n) : tag.isBump = false := by
  cases h <;> rfl

theorem Holds.ne_bump {checks : Bool} {s : Heap} {tag old : Owner} {b n : Nat}
    (h : Holds checks s tag b n) (hold : old.isBump = true) : tag ≠ old := by
  rintro rfl
  rw [h.not_bump] at hold
  cases hold

section carve

variable {checks : Bool} {own : Nat → Owner} {s : Heap} {th : Nat}

/-- A new slab is nobody's, and it becomes the global bump region. -/
theorem inv_newSlab {sys size : Nat} {g : GlobalAlloc} {mem : Nat → UInt8} (h : Inv checks own s)
    (hnew : s.glob.newSlab s.mem sys size = some (g, mem)) :
    (∃ own', Inv checks own' { s with glob := g, mem }) ∧ g.cursor + size ≤ g.limit := by
  simp only [GlobalAlloc.newSlab, Option.ite_none_right_eq_some, Option.some.injEq,
    Prod.mk.injEq] at hnew
  obtain ⟨⟨_, hpos, hdvd, hlow, hout⟩, rfl, rfl⟩ := hnew
  generalize hslab : (max slabSize size + 15) / 16 * 16 = slab at hlow hout ⊢
  have hsub : s.glob.slabs ⊆ s.glob.slabs ++ [(sys, slab)] := List.subset_append_left _ _
  have hholds : ∀ {tag b n}, Holds checks { s with
      glob := { s.glob with
        slabs := s.glob.slabs ++ [(sys, slab)], cursor := sys, limit := sys + slab },
      mem := zeroed s.mem sys slab } tag b n → Holds checks s tag b n := by
    intro tag b n hh
    cases hh with
    | globFree hb => exact .globFree hb
    | localFree hb => exact .localFree hb
    | large hb => exact .large hb
    | inHand hb => exact .inHand hb
    | live hb hc => exact .live hb hc
  refine ⟨⟨retag own sys slab .globBump, ?_, fun i => (h.chunk i).grow hsub hout,
    fun tag b n hh => (h.blocks tag b n (hholds hh)).grow hsub hout, h.points, h.live,
    ⟨h.distinct.globFree, h.distinct.localFree, h.distinct.large, h.distinct.live⟩,
    ⟨fun a ha => ?_, fun i total cls b hi a hle hlt => ?_⟩⟩, ?_⟩
  · refine ⟨Nat.le_add_right _ _, hlow, hdvd, fun _ => ?_, ?_⟩
    · exact ⟨(sys, slab), List.mem_concat_self, Nat.le_refl _, by simp only; omega⟩
    · simp only [Nat.add_sub_cancel_left]
      exact owns_retag
  · refine spare_retag (fun a ha => zeroed_zero (h.blank.spare a ha)) (fun _ a hle hlt => ?_) a ha
    exact zeroed_in hle hlt
  · exact zeroed_zero (h.blank.ret i total cls b hi a hle hlt)
  · simp only
    omega

/-- A bump takes its block from the front of the bump region, which may be that of a new slab. -/
theorem bump_spec {sys size base : Nat} {g : GlobalAlloc} {mem : Nat → UInt8}
    (h : Inv checks own s) (hfit : checks = true ∨ size ≤ 2 ^ 63)
    (hbump : s.glob.bump checks s.mem sys size = some (g, mem, base)) :
    ∃ own' g', Inv checks own' { s with glob := g', mem } ∧ base = g'.cursor ∧
      g = { g' with cursor := base + size } ∧ base + size ≤ g'.limit := by
  have hsum : ∀ {x r : Nat}, x < 2 ^ 63 → addUsize checks x size = some r → r = x + size :=
    fun hx hr => addUsize_exact hr (hfit.imp_right fun hs => by omega)
  simp only [GlobalAlloc.bump, GlobalAlloc.fit, Option.bind_eq_bind, Option.bind_eq_some_iff,
    Option.some.injEq, Prod.mk.injEq] at hbump
  obtain ⟨⟨g', mem'⟩, ⟨top, htop, hg⟩, next, hnext, rfl, rfl, rfl⟩ := hbump
  have hle := h.glob.le
  have hlow := h.glob.low
  have htop' : top = s.glob.cursor + size := hsum (by omega) htop
  split at hg
  · obtain ⟨⟨own', hinv⟩, hroom⟩ := inv_newSlab h hg
    have hle' := hinv.glob.le
    have hlow' := hinv.glob.low
    have hnext' : next = g'.cursor + size := hsum (by simp only at hle' hlow'; omega) hnext
    exact ⟨own', g', hinv, rfl, by rw [hnext'], hroom⟩
  · rename_i hroom
    simp only [Option.some.injEq, Prod.mk.injEq] at hg
    obtain ⟨rfl, rfl⟩ := hg
    have hnext' : next = s.glob.cursor + size := hsum (by omega) hnext
    exact ⟨own, s.glob, h, rfl, by rw [hnext'], by simp only; omega⟩

/-- The front of the global bump region becomes the chunk of a thread. -/
theorem inv_chunk {size : Nat} (h : Inv checks own s) (hpos : 0 < size) (hdvd : 16 ∣ size)
    (hroom : s.glob.cursor + size ≤ s.glob.limit) :
    ∃ own', Inv checks own' ({ s with
      glob := { s.glob with cursor := s.glob.cursor + size } }.setCache th
        { s.caches th with cursor := s.glob.cursor, limit := s.glob.cursor + size }) := by
  obtain ⟨hblock, hspare⟩ := @Spare.carve own s.glob.slabs .globBump (.chunk th) size
    s.glob.cursor s.glob.limit h.glob hpos hdvd hroom
  have howns : Owns own .globBump s.glob.cursor size :=
    h.glob.owns.part (Nat.le_refl _) (by omega)
  have hlow := h.glob.low
  refine ⟨retag own s.glob.cursor size (.chunk th), hspare, fun i => ?_, fun tag b n hh => ?_,
    h.points, h.live, ⟨h.distinct.globFree, fun i j => ?_, h.distinct.large, h.distinct.live⟩,
    ⟨fun a ha => ?_, h.blank.ret⟩⟩
  · rw [caches_setCache]
    split
    · rename_i hi
      subst hi
      refine ⟨Nat.le_add_right _ _, by simp only; omega, h.glob.aligned, fun _ => ?_, ?_⟩
      · simp only [Nat.add_sub_cancel_left]
        exact hblock.inSlab
      · simp only [Nat.add_sub_cancel_left]
        exact hblock.owns
    · exact (h.chunk i).give howns Owner.noConfusion
  · have hbefore : Holds checks s tag b n := by
      cases hh with
      | globFree hb => exact .globFree hb
      | large hb => exact .large hb
      | inHand hb => exact .inHand hb
      | live hb hc => exact .live hb hc
      | localFree hb =>
        rw [caches_setCache] at hb
        split at hb
        · rename_i hi
          exact hi ▸ .localFree hb
        · exact .localFree hb
    exact (h.blocks tag b n hbefore).give howns (hbefore.ne_bump rfl)
  · rw [caches_setCache]
    split
    · exact h.distinct.localFree th j
    · exact h.distinct.localFree i j
  · refine spare_retag h.blank.spare (fun _ a hle hlt => ?_) a ha
    exact h.blank.spare a (by rw [howns a hle hlt]; rfl)

/-- The blocks that the state tells of when a thread gets one in hand. -/
theorem holds_ret {s' : Heap} {total cls base : Nat} {tag : Owner} {b n : Nat}
    (hh : Holds checks (s'.goto th (.ret total cls base)) tag b n)
    (hfree : s'.glob.free = s.glob.free) (hlarge : s'.glob.largeFree = s.glob.largeFree)
    (hlocal : ∀ i, (s'.caches i).free = (s.caches i).free) (hpoints : s'.points = s.points)
    (hlive : s'.live = s.live) :
    (tag = .inHand th ∧ b = base ∧ n = cls) ∨ Holds checks s tag b n := by
  cases hh with
  | globFree hb =>
    simp only [Heap.goto] at hb
    exact Or.inr (.globFree (hfree ▸ hb))
  | localFree hb =>
    simp only [Heap.goto] at hb
    rw [hlocal] at hb
    exact Or.inr (.localFree hb)
  | large hb =>
    simp only [Heap.goto] at hb
    exact Or.inr (.large (hlarge ▸ hb))
  | live hb hc =>
    simp only [Heap.goto] at hb
    exact Or.inr (.live (hlive ▸ hb) hc)
  | inHand hb =>
    rw [points_goto] at hb
    split at hb
    · rename_i hi
      exact Or.inl ⟨hi ▸ rfl, hb⟩
    · rw [hpoints] at hb
      exact Or.inr (.inHand hb)

/-- What is carved from a bump region is zero. -/
theorem ret_blank {s' : Heap} {old : Owner} {total cls base : Nat} (h : Inv checks own s)
    (hpoints : s'.points = s.points) (howns : Owns own old base cls) (hold : old.isBump = true)
    (i t c b : Nat) (hi : (s'.goto th (.ret total cls base)).points i = .ret t c b) (a : Nat)
    (hle : b ≤ a)
    (hlt : a < b + c) : s.mem a = 0 := by
  rw [points_goto] at hi
  split at hi
  · cases hi
    exact h.blank.spare a (by rw [howns a hle hlt]; exact hold)
  · rw [hpoints] at hi
    exact h.blank.ret i t c b hi a hle hlt

/-- `alloc_large` returns the front of the global bump region. -/
theorem inv_carveLarge {total cls : Nat} (h : Inv checks own s) (hsized : Sized checks total cls)
    (hroom : s.glob.cursor + cls ≤ s.glob.limit) :
    ∃ own', Inv checks own' ({ s with glob := { s.glob with
      cursor := s.glob.cursor + cls } }.goto th (.ret total cls s.glob.cursor)) := by
  obtain ⟨_, hpos, hdvd, _⟩ := sizeClass_spec hsized
  obtain ⟨hblock, hspare⟩ := @Spare.carve own s.glob.slabs .globBump (.inHand th) cls
    s.glob.cursor s.glob.limit h.glob hpos hdvd hroom
  have howns : Owns own .globBump s.glob.cursor cls :=
    h.glob.owns.part (Nat.le_refl _) (by omega)
  refine ⟨retag own s.glob.cursor cls (.inHand th), hspare,
    fun i => (h.chunk i).give howns Owner.noConfusion, fun tag b n hh => ?_,
    pointOk_goto h.points hsized, h.live,
    ⟨h.distinct.globFree, h.distinct.localFree, h.distinct.large, h.distinct.live⟩,
    ⟨spare_retag h.blank.spare fun hbump => (by cases hbump), ret_blank (s := s) h rfl howns rfl⟩⟩
  rcases holds_ret (s := s) hh rfl rfl (fun _ => rfl) rfl rfl with ⟨rfl, rfl, rfl⟩ | hbefore
  · exact hblock
  · exact (h.blocks tag b n hbefore).give howns (hbefore.ne_bump rfl)

/-- `alloc` returns the front of the thread's chunk. -/
theorem inv_carveLocal {total cls : Nat} (h : Inv checks own s) (hsized : Sized checks total cls)
    (hroom : (s.caches th).cursor + cls ≤ (s.caches th).limit) :
    ∃ own', Inv checks own' ((s.setCache th { s.caches th with
      cursor := (s.caches th).cursor + cls }).goto th (.ret total cls (s.caches th).cursor)) := by
  obtain ⟨_, hpos, hdvd, _⟩ := sizeClass_spec hsized
  obtain ⟨hblock, hspare⟩ := @Spare.carve own s.glob.slabs (.chunk th) (.inHand th) cls
    (s.caches th).cursor (s.caches th).limit (h.chunk th) hpos hdvd hroom
  have howns : Owns own (.chunk th) (s.caches th).cursor cls :=
    (h.chunk th).owns.part (Nat.le_refl _) (by omega)
  have hcaches : ∀ i, ((s.setCache th { s.caches th with
      cursor := (s.caches th).cursor + cls }).caches i).free = (s.caches i).free := by
    intro i
    rw [caches_setCache]
    split
    · rename_i hi
      rw [hi]
    · rfl
  refine ⟨retag own (s.caches th).cursor cls (.inHand th),
    h.glob.give howns Owner.noConfusion, fun i => ?_, fun tag b n hh => ?_,
    pointOk_goto h.points hsized, h.live, ⟨h.distinct.globFree, fun i j => ?_, h.distinct.large,
      h.distinct.live⟩, ⟨spare_retag h.blank.spare fun hbump => (by cases hbump),
      ret_blank (s := s) h rfl howns rfl⟩⟩
  · simp only [Heap.goto]
    rw [caches_setCache]
    split
    · rename_i hi
      exact hi ▸ hspare
    · rename_i hi
      refine (h.chunk i).give howns ?_
      rintro ⟨⟩
      exact hi rfl
  · rcases holds_ret (s := s) hh rfl rfl hcaches rfl rfl with ⟨rfl, rfl, rfl⟩ | hbefore
    · exact hblock
    · exact (h.blocks tag b n hbefore).give howns (hbefore.ne_bump rfl)
  · simp only [Heap.goto]
    rw [hcaches]
    exact h.distinct.localFree i j

end carve

/-! ## Every step -/

section step

variable {checks : Bool} {own : Nat → Owner} {s t : Heap} {th : Nat}

/-- A thread zeroes the recycled block that it has in hand. -/
theorem inv_zero {total cls base : Nat} (h : Inv checks own s)
    (hp : s.points th = .zero total cls base) :
    Inv checks own ({ s with mem := zeroed s.mem base cls }.goto th (.ret total cls base)) := by
  have hpoint := h.points th
  rw [hp] at hpoint
  have hhas : (s.points th).Has checks base cls := by
    rw [hp]
    exact ⟨rfl, rfl⟩
  refine ⟨h.glob, h.chunk, fun tag b n hh => h.blocks tag b n ?_, pointOk_goto h.points hpoint,
    h.live, ⟨h.distinct.globFree, h.distinct.localFree, h.distinct.large, h.distinct.live⟩,
    ⟨fun a ha => zeroed_zero (h.blank.spare a ha), fun i t c b hi a hle hlt => ?_⟩⟩
  · rcases holds_ret (s := s) hh rfl rfl (fun _ => rfl) rfl rfl with ⟨rfl, rfl, rfl⟩ | hbefore
    · exact .inHand hhas
    · exact hbefore
  · rw [points_goto] at hi
    split at hi
    · cases hi
      exact zeroed_in hle hlt
    · exact zeroed_zero (h.blank.ret i t c b hi a hle hlt)

/-- The program writes to its own blocks, which no bump region and no hand has. -/
theorem inv_write {addr : Nat} {byte : UInt8} (h : Inv checks own s)
    (hw : s.writable addr = true) :
    Inv checks own { s with mem := Function.update s.mem addr byte } := by
  obtain ⟨base, howner⟩ : ∃ base, own addr = .live base := by
    unfold Heap.writable at hw
    rw [List.any_eq_true] at hw
    obtain ⟨⟨base, total⟩, hmem, hin⟩ := hw
    simp only [Bool.and_eq_true, decide_eq_true_eq] at hin
    obtain ⟨cls, hsized⟩ := h.live base total hmem
    have hle := (sizeClass_spec hsized).1
    exact ⟨base, (h.blocks _ _ _ (.live hmem hsized.cls)).owns addr hin.1 (by omega)⟩
  have hother : ∀ a, own a ≠ .live base → Function.update s.mem addr byte a = s.mem a := by
    intro a ha
    apply Function.update_of_ne
    rintro rfl
    exact ha howner
  refine ⟨h.glob, h.chunk, fun tag b n hh => h.blocks tag b n ?_, h.points, h.live,
    ⟨h.distinct.globFree, h.distinct.localFree, h.distinct.large, h.distinct.live⟩,
    ⟨fun a ha => ?_, fun i total cls b hi a hle hlt => ?_⟩⟩
  · cases hh with
    | globFree hb => exact .globFree hb
    | localFree hb => exact .localFree hb
    | large hb => exact .large hb
    | inHand hb => exact .inHand hb
    | live hb hc => exact .live hb hc
  · refine (hother a ?_).trans (h.blank.spare a ha)
    intro he
    rw [he] at ha
    cases ha
  · refine (hother a ?_).trans (h.blank.ret i total cls b hi a hle hlt)
    have hhas : (s.points i).Has checks b cls := by
      rw [hi]
      exact ⟨rfl, rfl⟩
    rw [(h.blocks _ _ _ (.inHand hhas)).owns a hle hlt]
    exact Owner.noConfusion

/-- What `alloc` starts with is a class of its size. -/
theorem startAlloc_spec {total : Nat} {p : Point} (hprom : Promised checks total)
    (h : startAlloc checks total = some p) :
    PointOk checks p ∧ ∀ b n, ¬ p.Has checks b n := by
  simp only [startAlloc, Option.bind_eq_bind, Option.bind_eq_some_iff] at h
  obtain ⟨cls, hcls, o, hidx, h⟩ := h
  cases o with
  | some idx =>
    simp only [Option.ite_none_right_eq_some, Option.some.injEq] at h
    obtain ⟨_, rfl⟩ := h
    exact ⟨⟨⟨hcls, hprom⟩, hidx⟩, fun _ _ => id⟩
  | none =>
    simp only [Option.some.injEq] at h
    subst h
    exact ⟨⟨hcls, hprom⟩, fun _ _ => id⟩

/-- The condition on a step: in a build without overflow checks, the callers of `alloc` keep
their promise. -/
def KeepsPromise (checks : Bool) (_ : Heap) : Action → Prop
  | .allocate _ total => Promised checks total
  | _ => True

/-- The loop of `alloc` on the cache of a thread. -/
theorem inv_allocSmall {total cls idx : Nat} (h : Inv checks own s)
    (hp : s.points th = .small total cls idx)
    (hs : allocSmall checks s th total cls idx = some t) : ∃ own', Inv checks own' t := by
  have hpoint := h.points th
  rw [hp] at hpoint
  obtain ⟨hsized, hidx⟩ := hpoint
  simp only [allocSmall] at hs
  cases hpop : popBlock ((s.caches th).free idx) with
  | some found =>
    rw [hpop] at hs
    cases hs
    exact ⟨_, inv_popLocal h hp hpop⟩
  | none =>
    rw [hpop] at hs
    simp only [Option.bind_eq_bind, Option.bind_eq_some_iff] at hs
    obtain ⟨top, htop, hs⟩ := hs
    obtain ⟨_, _, _, hbound⟩ := sizeClass_spec hsized
    have hle := (h.chunk th).le
    have hlow := (h.chunk th).low
    have hexact : top = (s.caches th).cursor + cls :=
      addUsize_exact htop (hbound.imp_right fun hb => by omega)
    subst hexact
    split at hs
    · rename_i hroom
      cases hs
      exact inv_carveLocal h hsized hroom
    · cases hs
      exact ⟨own, h.goto (fun _ _ => id) ⟨hsized, hidx⟩⟩

/-- `refill`, with a batch of recycled blocks or a fresh chunk. -/
theorem inv_refill {sys total cls idx : Nat} {g : GlobalAlloc} {c : LocalCache}
    {mem : Nat → UInt8} (h : Inv checks own s) (hp : s.points th = .refill total cls idx)
    (hr : refill checks s.glob (s.caches th) s.mem sys cls idx = some (g, c, mem)) :
    ∃ own', Inv checks own' (({ s with glob := g, mem }.setCache th c).goto th
      (.small total cls idx)) := by
  have hpoint := h.points th
  rw [hp] at hpoint
  obtain ⟨hsized, hidx⟩ := hpoint
  obtain ⟨_, hpos, hdvd, hbound⟩ := sizeClass_spec hsized
  have hhas : ∀ b n, ¬ (Point.small total cls idx).Has checks b n := fun _ _ => id
  unfold refill at hr
  split at hr
  · cases hr
    exact ⟨_, (inv_batch h).goto hhas ⟨hsized, hidx⟩⟩
  · simp only [Option.bind_eq_bind, Option.bind_eq_some_iff, Option.some.injEq,
      Prod.mk.injEq] at hr
    obtain ⟨⟨g', mem', base⟩, hbump, limit, hlimit, rfl, rfl, rfl⟩ := hr
    have hchunk : checks = true ∨ max tlabChunk cls ≤ 2 ^ 63 :=
      hbound.imp_right fun hb => Nat.max_le.mpr ⟨by decide, hb⟩
    obtain ⟨own', g₀, hinv, rfl, rfl, hroom⟩ := bump_spec h hchunk hbump
    have hlow := hinv.glob.low
    have hexact : limit = g₀.cursor + max tlabChunk cls :=
      addUsize_exact hlimit (Or.inr (by simp only at hlow; omega))
    subst hexact
    have hdvd' : 16 ∣ max tlabChunk cls := by
      rcases Nat.le_total tlabChunk cls with hle | hle
      · rwa [Nat.max_eq_right hle]
      · rw [Nat.max_eq_left hle]
        decide
    obtain ⟨own'', hinv'⟩ := @inv_chunk checks own' _ th _ hinv (by omega) hdvd' hroom
    exact ⟨own'', hinv'.goto hhas ⟨hsized, hidx⟩⟩

theorem inv_allocLarge {sys total cls : Nat} (h : Inv checks own s)
    (hp : s.points th = .large total cls)
    (hs : allocLarge checks s th sys total cls = some t) : ∃ own', Inv checks own' t := by
  have hsized := h.points th
  rw [hp] at hsized
  simp only [allocLarge] at hs
  cases hpop : popBlock (s.glob.largeFree cls) with
  | some found =>
    rw [hpop] at hs
    cases hs
    exact ⟨_, inv_popLarge h hp hpop⟩
  | none =>
    rw [hpop] at hs
    simp only [Option.bind_eq_bind, Option.bind_eq_some_iff, Option.some.injEq] at hs
    obtain ⟨⟨g, mem, base⟩, hbump, rfl⟩ := hs
    obtain ⟨own', g₀, hinv, rfl, rfl, hroom⟩ := bump_spec h (sizeClass_spec hsized).2.2.2 hbump
    exact inv_carveLarge hinv hsized hroom

theorem inv_turn {sys : Nat} (h : Inv checks own s)
    (ht : turn checks s th sys (s.points th) = some t) : ∃ own', Inv checks own' t := by
  cases hp : s.points th with
  | idle =>
    rw [hp] at ht
    cases ht
  | small total cls idx =>
    rw [hp] at ht
    exact inv_allocSmall h hp ht
  | refill total cls idx =>
    rw [hp] at ht
    simp only [turn, Option.bind_eq_bind, Option.bind_eq_some_iff, Option.some.injEq] at ht
    obtain ⟨⟨g, c, mem⟩, hr, rfl⟩ := ht
    exact inv_refill h hp hr
  | large total cls =>
    rw [hp] at ht
    exact inv_allocLarge h hp ht
  | zero total cls base =>
    rw [hp] at ht
    cases ht
    exact ⟨own, inv_zero h hp⟩
  | ret total cls base =>
    rw [hp] at ht
    cases ht
    exact ⟨_, inv_ret h hp⟩
  | free total base =>
    rw [hp] at ht
    simp only [turn, Option.bind_eq_bind, Option.bind_eq_some_iff, Option.some.injEq] at ht
    obtain ⟨g, hg, rfl⟩ := ht
    exact inv_freeLocked h hp hg

theorem inv_step {a : Action} (h : Inv checks own s) (hok : KeepsPromise checks s a)
    (hs : step checks s a = some t) : ∃ own', Inv checks own' t := by
  cases a with
  | allocate th total =>
    simp only [step, Option.ite_none_right_eq_some, Option.map_eq_some_iff] at hs
    obtain ⟨_, p, hp, rfl⟩ := hs
    obtain ⟨hpoint, hhas⟩ := startAlloc_spec hok hp
    exact ⟨own, h.goto hhas hpoint⟩
  | turn th sys => exact inv_turn h hs
  | free th base total =>
    simp only [step, Option.ite_none_right_eq_some, Option.some.injEq] at hs
    obtain ⟨⟨_, hmem⟩, rfl⟩ := hs
    exact ⟨_, inv_free h hmem⟩
  | exit th =>
    simp only [step, Option.ite_none_right_eq_some, Option.some.injEq] at hs
    obtain ⟨_, rfl⟩ := hs
    exact ⟨_, inv_exit h⟩
  | write addr byte =>
    simp only [step, Option.ite_none_right_eq_some, Option.some.injEq] at hs
    obtain ⟨hw, rfl⟩ := hs
    exact ⟨own, inv_write h hw⟩

end step

/-! ## The law -/

/-- The free lists: the global one of a class, that of a thread's cache, or that of a large
size. -/
inductive FreeList
  | glob (idx : Nat)
  | cache (thread idx : Nat)
  | large (cls : Nat)

def Heap.blocksOf (s : Heap) : FreeList → List Nat
  | .glob idx => s.glob.free idx
  | .cache th idx => (s.caches th).free idx
  | .large cls => s.glob.largeFree cls

/-- The owner of a block of a free list. -/
def FreeList.owner : FreeList → Nat → Owner
  | .glob idx, b => .globFree idx b
  | .cache th idx, b => .localFree th idx b
  | .large cls, b => .large cls b

/-- Live blocks are apart, each with the whole of its class, which has room for the size asked
for and lies aligned in one slab; and a free block is in one list, once, and not live. -/
structure NeverAliases (checks : Bool) (s : Heap) : Prop where
  apart : s.live.Pairwise fun x y => ∀ c c', sizeClass checks x.2 = some c →
    sizeClass checks y.2 = some c' → Apart x.1 c y.1 c'
  placed : ∀ x ∈ s.live, ∃ c, sizeClass checks x.2 = some c ∧ x.2 ≤ c ∧ 16 ∣ x.1 ∧
    InSlab s.glob.slabs x.1 c
  once : ∀ l, (s.blocksOf l).Nodup
  one_list : ∀ l l' b, b ∈ s.blocksOf l → b ∈ s.blocksOf l' → l = l'
  not_live : ∀ l b, b ∈ s.blocksOf l → ∀ x ∈ s.live, x.1 ≠ b

/-- A block that `alloc` returns is live from then on, and all zero. -/
def ReturnsZeroed (checks : Bool) (s : Heap) : Prop :=
  ∀ th sys total cls base t, s.points th = .ret total cls base →
    step checks s (.turn th sys) = some t → (base, total) ∈ t.live ∧
      sizeClass checks total = some cls ∧ ∀ a, base ≤ a → a < base + cls → t.mem a = 0

section law

variable {checks : Bool} {own : Nat → Owner} {s : Heap}

/-- A block of a free list belongs to its entry there. -/
theorem Inv.listed (h : Inv checks own s) {l : FreeList} {b : Nat} (hb : b ∈ s.blocksOf l) :
    own b = l.owner b := by
  cases l with
  | glob idx => exact h.first (.globFree hb)
  | cache th idx => exact h.first (.localFree hb)
  | large cls => exact h.first (.large hb)

theorem Inv.neverAliases (h : Inv checks own s) : NeverAliases checks s := by
  refine ⟨?_, fun x hx => ?_, fun l => ?_, fun l l' b hb hb' => ?_, fun l b hb x hx he => ?_⟩
  · have hne : s.live.Pairwise fun x y => x.1 ≠ y.1 := List.pairwise_map.mp h.distinct.live
    refine hne.imp_of_mem fun {x y} hx hy hxy c c' hc hc' => ?_
    have hbx := h.blocks _ _ _ (.live hx hc)
    have hby := h.blocks _ _ _ (.live hy hc')
    refine hbx.owns.apart hby.owns ?_ hbx.pos hby.pos
    intro he
    exact hxy (Owner.live.inj he)
  · obtain ⟨c, hsized⟩ := h.live x.1 x.2 hx
    have hblock := h.blocks _ _ _ (.live hx hsized.cls)
    exact ⟨c, hsized.cls, (sizeClass_spec hsized).1, hblock.aligned, hblock.inSlab⟩
  · cases l with
    | glob idx => exact h.distinct.globFree idx
    | cache th idx => exact h.distinct.localFree th idx
    | large cls => exact h.distinct.large cls
  · have hsame := (h.listed hb).symm.trans (h.listed hb')
    cases l <;> cases l' <;> cases hsame <;> rfl
  · obtain ⟨c, hsized⟩ := h.live x.1 x.2 hx
    have hlive := h.first (.live hx hsized.cls)
    rw [he, h.listed hb] at hlive
    cases l <;> cases hlive

theorem Inv.returnsZeroed (h : Inv checks own s) : ReturnsZeroed checks s := by
  intro th sys total cls base t hp hs
  have hpoint := h.points th
  rw [hp] at hpoint
  simp only [step, hp, turn, Option.some.injEq] at hs
  subst hs
  exact ⟨List.mem_concat_self, hpoint.cls, h.blank.ret th total cls base hp⟩

theorem inv_initial (h : Initial s) : Inv checks (fun _ => .inHand 0) s := by
  have hspare : ∀ slabs tag, Spare (fun _ => .inHand 0) slabs tag 0 0 := fun slabs tag =>
    ⟨Nat.le_refl 0, by omega, Nat.dvd_zero 16, fun hlt => absurd hlt (Nat.lt_irrefl 0),
      fun a _ hlt => absurd hlt (Nat.not_lt_zero a)⟩
  have hnone : ∀ tag b n, ¬ Holds checks s tag b n := by
    intro tag b n hh
    cases hh with
    | globFree hb | large hb =>
      rw [h.glob] at hb
      cases hb
    | localFree hb =>
      rw [h.caches] at hb
      cases hb
    | inHand hb =>
      rw [h.points] at hb
      exact hb
    | live hb _ =>
      rw [h.live] at hb
      cases hb
  refine ⟨?_, fun th => ?_, fun tag b n hh => absurd hh (hnone tag b n), fun th => ?_,
    fun b n hb => ?_, ⟨fun idx => ?_, fun th idx => ?_, fun cls => ?_, ?_⟩,
    ⟨fun a ha => (by cases ha), fun th total cls b hp => ?_⟩⟩
  · rw [h.glob]
    exact hspare _ _
  · rw [h.caches]
    exact hspare _ _
  · rw [h.points]
    trivial
  · rw [h.live] at hb
    cases hb
  · rw [h.glob]
    exact List.nodup_nil
  · rw [h.caches]
    exact List.nodup_nil
  · rw [h.glob]
    exact List.nodup_nil
  · rw [h.live]
    exact List.nodup_nil
  · rw [h.points] at hp
    cases hp

/-- The allocator never aliases, for any number of threads in any order: in every run, with
overflow checks or without, when the callers then ask for sizes of Rust allocations. -/
theorem live_blocks_never_alias (hs : Reaches (step checks) Initial (KeepsPromise checks) s) :
    NeverAliases checks s ∧ ReturnsZeroed checks s := by
  obtain ⟨own, h⟩ : ∃ own, Inv checks own s := by
    apply hs.invariant (I := fun s => ∃ own, Inv checks own s)
    · exact fun s h0 => ⟨_, inv_initial h0⟩
    · rintro s a t ⟨own, h⟩ hok hstep
      exact inv_step h hok hstep
  exact ⟨h.neverAliases, h.returnsZeroed⟩

end law

/-- Two threads allocate; a block is written to and freed, refills the cache of the other thread
and comes back to it, and that thread exits. -/
def recycledBlock : List Action :=
  [.allocate 0 40, .turn 0 0, .turn 0 4096, .turn 0 0, .turn 0 0, .write 4100 7,
    .allocate 1 (2 ^ 20 + 1), .turn 1 (2 ^ 21), .turn 1 0, .free 0 4096 40, .turn 0 0,
    .allocate 1 48, .turn 1 0, .turn 1 0, .turn 1 0, .turn 1 0, .turn 1 0, .exit 1]

theorem live_blocks_never_alias_in_a_run :
    ∃ s, run (step false) (newHeap fun _ => 1) recycledBlock = some s ∧
      s.live = [(2 ^ 21, 2 ^ 20 + 1), (4096, 48)] ∧ NeverAliases false s := by
  have hok : ∀ a ∈ recycledBlock, ∀ u, KeepsPromise false u a := by
    intro a ha u
    simp only [recycledBlock, List.mem_cons, List.not_mem_nil, or_false] at ha
    rcases ha with rfl | rfl | rfl | rfl | rfl | rfl | rfl | rfl | rfl | rfl | rfl | rfl | rfl |
      rfl | rfl | rfl | rfl | rfl
    all_goals simp [KeepsPromise, Promised, isizeMax]
  obtain ⟨s, hrun, hlive⟩ : ∃ s, run (step false) (newHeap fun _ => 1) recycledBlock = some s ∧
      s.live = [(2 ^ 21, 2 ^ 20 + 1), (4096, 48)] := ⟨_, rfl, rfl⟩
  exact ⟨s, hrun, hlive,
    (live_blocks_never_alias (.of_run_ok (.start (newHeap_initial _)) hok hrun)).1⟩

end runtime.alloc
