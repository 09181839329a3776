-- Selection with a random generator is exact for every generator, except that the width of a range
-- may have no room in `i64`.
import Mathlib.Order.Interval.Finset.Nat
import OtterFusion.Stdlib.Rand

open base.trapping stdlib.hash

namespace stdlib.rand

variable {b : Build} {rng : Rng} {T : Type}

/-! ## Arithmetic that fits -/

theorem asI64_of_fits {n : Int} (hlo : -2 ^ 63 ≤ n) (hhi : n < 2 ^ 63) : asI64 n = n := by
  unfold asI64
  apply Int.bmod_eq_of_le <;> omega

theorem Build.i64_ok {n : Int} (hlo : -2 ^ 63 ≤ n) (hhi : n < 2 ^ 63) : b.i64 n = .value n := by
  cases b with
  | debug => exact stdlib.i64_ok hlo hhi
  | release => exact congrArg _ (asI64_of_fits hlo hhi)

theorem Build.u64_ok {n : Int} (hlo : 0 ≤ n) (hhi : n < 2 ^ 64) : b.u64 n = .value n := by
  cases b with
  | debug => exact hash.u64_ok hlo hhi
  | release => exact congrArg _ (Int.emod_eq_of_lt hlo hhi)

theorem remU64_ok {x y : Int} (hy : 0 < y) : remU64 x y = .value (x % y) :=
  if_neg (Int.ne_of_gt hy)

/-! ## Ranges -/

/-- The width of a range fits, or the build does not check it. -/
def WidthFits (b : Build) (low high : Int) : Prop := b = .release ∨ high - low < 2 ^ 63

instance (b : Build) (low high : Int) : Decidable (WidthFits b low high) :=
  inferInstanceAs (Decidable (_ ∨ _))

theorem genRangeI64_value {low high : Int} (hlow : -2 ^ 63 ≤ low) (hlt : low < high)
    (hhigh : high < 2 ^ 63) (hfits : WidthFits b low high) :
    ∃ v, genRangeI64 b rng low high = .value (v, rng.nextU64.2) ∧ low ≤ v ∧ v < high := by
  have hwidth : ∃ w, b.i64 (high - low) = .value w ∧ asU64 w = high - low := by
    rcases hfits with rfl | hfits
    · refine ⟨_, rfl, ?_⟩
      have hmod : asI64 (high - low) % ((2 ^ 64 : Nat) : Int) =
          (high - low) % ((2 ^ 64 : Nat) : Int) :=
        Int.bmod_emod
      unfold asU64
      omega
    · refine ⟨_, Build.i64_ok (by omega) hfits, ?_⟩
      unfold asU64
      omega
  obtain ⟨w, hw, hwidth⟩ := hwidth
  have hpos : 0 < high - low := by omega
  have hnonneg := Int.emod_nonneg rng.nextU64.1 (Int.ne_of_gt hpos)
  have hless := Int.emod_lt_of_pos rng.nextU64.1 hpos
  refine ⟨low + rng.nextU64.1 % (high - low), ?_, by omega, by omega⟩
  unfold genRangeI64
  rw [if_neg (by omega), hw, Ending.value_bind]
  dsimp only
  rw [hwidth, remU64_ok hpos, Ending.value_bind]
  rcases hfits with rfl | hfits
  · have hsum : asI64 (low + asI64 (rng.nextU64.1 % (high - low))) =
        low + rng.nextU64.1 % (high - low) := by
      have hfits := @asI64_of_fits (low + rng.nextU64.1 % (high - low)) (by omega) (by omega)
      unfold asI64 at hfits ⊢
      rw [Int.add_bmod_bmod, hfits]
    exact congrArg (fun v => Ending.value (v, rng.nextU64.2)) hsum
  · rw [asI64_of_fits (by omega) (by omega), Build.i64_ok (by omega) (by omega), Ending.value_bind]

/-- A debug build panics where the width does not fit. -/
theorem genRangeI64_trap {low high : Int} (hfits : ¬WidthFits b low high) :
    genRangeI64 b rng low high = .trap .overflow := by
  unfold WidthFits at hfits
  unfold genRangeI64
  rw [if_neg (by omega)]
  cases b with
  | release => exact absurd (.inl rfl) hfits
  | debug =>
    rw [show Build.debug.i64 (high - low) = .trap .overflow from i64_trap (by omega),
      Ending.trap_bind]

theorem genRangeU64_value {low high : Int} (hlow : 0 ≤ low) (hlt : low < high)
    (hhigh : high < 2 ^ 64) : genRangeU64 b rng low high =
      .value (low + rng.nextU64.1 % (high - low), rng.nextU64.2) := by
  have hpos : 0 < high - low := by omega
  have hnonneg := Int.emod_nonneg rng.nextU64.1 (Int.ne_of_gt hpos)
  have hless := Int.emod_lt_of_pos rng.nextU64.1 hpos
  unfold genRangeU64
  rw [if_neg (by omega)]
  dsimp only
  rw [Build.u64_ok (by omega) (by omega), Ending.value_bind, remU64_ok hpos, Ending.value_bind,
    Build.u64_ok (by omega) (by omega), Ending.value_bind]

/-! ## Weights -/

/-- The index whose share of the total holds a number, counted from `i`. -/
def pick : List (BitVec 64) → Nat → Nat → Option Nat
  | [], _, _ => none
  | w :: ws, r, i => if r < w.toNat then some i else pick ws (r - w.toNat) (i + 1)

/-- The total of the weights. -/
def total (ws : List (BitVec 64)) : Nat := (ws.map BitVec.toNat).sum

@[simp] theorem total_nil : total [] = 0 := rfl

@[simp] theorem total_cons (w : BitVec 64) (ws : List (BitVec 64)) :
    total (w :: ws) = w.toNat + total ws := by
  simp [total]

/-- A number below the total lies in one share, which starts at the total of the weights before. -/
theorem pick_iff {ws : List (BitVec 64)} {r i k : Nat} :
    pick ws r i = some k ↔
      ∃ j w, k = i + j ∧ ws[j]? = some w ∧ total (ws.take j) ≤ r ∧
        r < total (ws.take j) + w.toNat := by
  induction ws generalizing r i with
  | nil => simp [pick]
  | cons w ws ih =>
    unfold pick
    by_cases hr : r < w.toNat
    · rw [if_pos hr]
      constructor
      · intro h
        cases h
        exact ⟨0, w, rfl, rfl, Nat.zero_le _, by simpa using hr⟩
      · rintro ⟨j, w', rfl, hw', hlo, hhi⟩
        cases j with
        | zero => rfl
        | succ j =>
          rw [List.take_succ_cons, total_cons] at hlo
          omega
    · rw [if_neg hr, ih]
      constructor
      · rintro ⟨j, w', rfl, hw', hlo, hhi⟩
        refine ⟨j + 1, w', by omega, hw', ?_, ?_⟩ <;> rw [List.take_succ_cons, total_cons] <;> omega
      · rintro ⟨j, w', rfl, hw', hlo, hhi⟩
        cases j with
        | zero =>
          cases hw'
          exact absurd (by simpa using hhi) hr
        | succ j =>
          rw [List.take_succ_cons, total_cons] at hlo hhi
          exact ⟨j, w', by omega, hw', by omega, by omega⟩

theorem pick_isSome {ws : List (BitVec 64)} {r i : Nat} (h : r < total ws) :
    (pick ws r i).isSome := by
  induction ws generalizing r i with
  | nil => exact absurd h (Nat.not_lt_zero r)
  | cons w ws ih =>
    unfold pick
    split
    · rfl
    · rw [total_cons] at h
      exact ih (by omega)

theorem total_take_succ {ws : List (BitVec 64)} {j : Nat} {w : BitVec 64} (h : ws[j]? = some w) :
    total (ws.take (j + 1)) = total (ws.take j) + w.toNat := by
  rw [List.take_add_one, h]
  simp [total]

theorem total_take_le (ws : List (BitVec 64)) (j : Nat) : total (ws.take j) ≤ total ws := by
  have hparts := congrArg total (List.take_append_drop j ws)
  rw [total, List.map_append, List.sum_append] at hparts
  exact Nat.le_trans (Nat.le_add_right _ _) (Nat.le_of_eq hparts)

/-- Each index has as many numbers below the total as its weight says. -/
theorem card_pick {ws : List (BitVec 64)} {j : Nat} {w : BitVec 64} (h : ws[j]? = some w) :
    ((Finset.range (total ws)).filter fun r => pick ws r 0 = some j).card = w.toNat := by
  have hshare : (Finset.range (total ws)).filter (fun r => pick ws r 0 = some j) =
      Finset.Ico (total (ws.take j)) (total (ws.take j) + w.toNat) := by
    ext r
    rw [Finset.mem_filter, Finset.mem_range, Finset.mem_Ico, pick_iff]
    constructor
    · rintro ⟨_, j', w', hj, hw', hshare⟩
      obtain rfl : j = j' := by omega
      cases h.symm.trans hw'
      exact hshare
    · intro hr
      have hle := total_take_le ws (j + 1)
      rw [total_take_succ h] at hle
      exact ⟨by omega, j, w, by omega, h, hr⟩
  rw [hshare, Nat.card_Ico, Nat.add_sub_cancel_left]

/-- What is left of the weights at an index. -/
theorem get_rest {ws rest : List (BitVec 64)} {w : BitVec 64} {i : Nat}
    (h : ws.drop i = w :: rest) :
    (i : Int) < ws.length ∧ (get ws (i : Int) : Panics _) = .value w ∧ ws.drop (i + 1) = rest := by
  have hlength := congrArg List.length h
  rw [List.length_drop, List.length_cons] at hlength
  refine ⟨by omega, get_drop h, ?_⟩
  rw [← List.drop_drop, h]
  rfl

/-- The loop in `weighted_index` goes from index to index and picks. -/
theorem indexLoop_value {ws rest : List (BitVec 64)} {i n r : Nat} (hws : ws.length < 2 ^ 63)
    (hrest : ws.drop i = rest) (hn : rest.length < n) (hr : r < 2 ^ 64) :
    Ending.loop .outOfFuel (indexTurn b ws) n ((r : Int), (i : Int)) =
      .value ((pick rest r i).map Int.ofNat) := by
  induction rest generalizing i n r with
  | nil =>
    obtain ⟨n, rfl⟩ :=
      Nat.exists_eq_succ_of_ne_zero (Nat.ne_of_gt (Nat.lt_of_le_of_lt (Nat.zero_le _) hn))
    have hlength := List.drop_eq_nil_iff.mp hrest
    rw [Ending.loop, indexTurn]
    dsimp only
    rw [if_neg (by omega)]
    rfl
  | cons w rest ih =>
    rw [List.length_cons] at hn
    obtain ⟨n, rfl⟩ := Nat.exists_eq_succ_of_ne_zero (show n ≠ 0 by omega)
    obtain ⟨hi, hget, hdrop⟩ := get_rest hrest
    have hw := w.isLt
    have hnext := fun m hm => @ih (i + 1) n m hdrop (by omega) hm
    rw [Ending.loop, indexTurn, if_pos hi, hget, Ending.value_bind]
    dsimp only
    unfold pick
    by_cases hzero : 0 < w.toNat
    · rw [if_pos (by omega)]
      by_cases hlt : r < w.toNat
      · rw [if_pos (by omega), if_pos hlt]
        rfl
      · rw [if_neg (by omega), if_neg hlt, Build.u64_ok (by omega) (by omega), Ending.value_bind,
          Build.i64_ok (by omega) (by omega), Ending.value_bind, Ending.value_bind]
        dsimp only
        rw [show (r : Int) - w.toNat = ((r - w.toNat : Nat) : Int) by omega]
        exact hnext _ (by omega)
    · rw [if_neg (by omega), if_neg (by omega), Build.i64_ok (by omega) (by omega),
        Ending.value_bind,
        Ending.value_bind]
      dsimp only
      rw [show r - w.toNat = r by omega]
      exact hnext _ hr

/-- The loop in `weighted_total` adds up, as long as the total fits. -/
theorem totalLoop_value {ws rest : List (BitVec 64)} {i n t : Nat} (hws : ws.length < 2 ^ 63)
    (hrest : ws.drop i = rest) (hn : rest.length < n) (ht : t < 2 ^ 64) :
    Ending.loop .outOfFuel (totalTurn b ws) n ((t : Int), (i : Int)) =
      .value (if t + total rest = 0 ∨ 2 ^ 64 ≤ t + total rest then none
        else some ((t + total rest : Nat) : Int)) := by
  induction rest generalizing i n t with
  | nil =>
    obtain ⟨n, rfl⟩ :=
      Nat.exists_eq_succ_of_ne_zero (Nat.ne_of_gt (Nat.lt_of_le_of_lt (Nat.zero_le _) hn))
    have hlength := List.drop_eq_nil_iff.mp hrest
    rw [Ending.loop, totalTurn]
    dsimp only
    rw [if_neg (by omega), Ending.value_bind]
    dsimp only
    rw [total_nil, Nat.add_zero]
    by_cases hzero : t = 0
    · rw [if_pos (by omega), if_pos (.inl hzero)]
    · rw [if_neg (by omega), if_neg (by omega)]
  | cons w rest ih =>
    rw [List.length_cons] at hn
    obtain ⟨n, rfl⟩ := Nat.exists_eq_succ_of_ne_zero (show n ≠ 0 by omega)
    obtain ⟨hi, hget, hdrop⟩ := get_rest hrest
    have hw := w.isLt
    have hnext := fun m hm => @ih (i + 1) n m hdrop (by omega) hm
    rw [Ending.loop, totalTurn, if_pos hi, hget, Ending.value_bind, total_cons, ← Nat.add_assoc]
    dsimp only
    by_cases hzero : 0 < w.toNat
    · rw [if_pos (by omega), Build.u64_ok (by omega) (by omega), Ending.value_bind]
      by_cases hlt : t + w.toNat < 2 ^ 64
      · rw [if_neg (by omega), Build.u64_ok (by omega) (by omega), Ending.value_bind,
          Build.i64_ok (by omega) (by omega), Ending.value_bind, Ending.value_bind]
        exact hnext _ hlt
      · rw [if_pos (by omega), if_pos (by omega)]
        rfl
    · rw [if_neg (by omega), Build.i64_ok (by omega) (by omega), Ending.value_bind,
        Ending.value_bind, show t + w.toNat = t by omega]
      exact hnext _ ht

/-- `weighted_index` draws a number below the total and picks its index. -/
theorem weightedIndex_value (weights : Listed (BitVec 64)) :
    weightedIndex b rng weights =
      if total weights.slots = 0 ∨ 2 ^ 64 ≤ total weights.slots then .value (none, rng)
      else .value
        ((pick weights.slots ((rng.numbers 0).toNat % total weights.slots) 0).map Int.ofNat,
        rng.nextU64.2) := by
  have hfits := weights.fits
  have hlength : weights.slots.length < 2 ^ 63 := by omega
  have htotal : weightedTotal b weights = _ :=
    @totalLoop_value b weights.slots weights.slots 0 _ 0 hlength rfl (Nat.lt_succ_self _)
      (by decide)
  rw [Nat.zero_add] at htotal
  unfold weightedIndex
  rw [htotal, Ending.value_bind]
  by_cases hnone : total weights.slots = 0 ∨ 2 ^ 64 ≤ total weights.slots
  · rw [if_pos hnone, if_pos hnone]
  · have hpos : 0 < total weights.slots := by omega
    have hmod := Nat.mod_lt (rng.numbers 0).toNat hpos
    have hdraw : (0 : Int) + rng.nextU64.1 % ((total weights.slots : Int) - 0) =
        (((rng.numbers 0).toNat % total weights.slots : Nat) : Int) := by
      rw [Int.zero_add, Int.sub_zero]
      rfl
    rw [if_neg hnone, if_neg hnone]
    dsimp only
    rw [genRangeU64_value (Int.le_refl 0) (by omega) (by omega), Ending.value_bind]
    dsimp only
    rw [hdraw, show ((0 : Int)) = ((0 : Nat) : Int) from rfl,
      indexLoop_value hlength (List.drop_zero) (Nat.lt_succ_self _) (by omega), Ending.value_bind]

/-! ## Samples -/

/-- The loop that fills the pool leaves the indices in their order. -/
theorem fillLoop_value {len : Nat} (hlen : len < 2 ^ 63) {n i : Nat} (hi : i ≤ len)
    (hn : len - i < n) :
    Ending.loop .outOfFuel (fillTurn b len) n ((List.range i).map Int.ofNat, (i : Int)) =
      .value ((List.range len).map Int.ofNat) := by
  induction n generalizing i with
  | zero => exact absurd hn (Nat.not_lt_zero _)
  | succ n ih =>
    rw [Ending.loop, fillTurn]
    by_cases hlt : i < len
    · rw [if_pos (by omega), Build.i64_ok (by omega) (by omega), Ending.value_bind,
        Ending.value_bind]
      have hnext := @ih (i + 1) hlt (by omega)
      rw [List.range_succ, List.map_append] at hnext
      exact hnext
    · obtain rfl : i = len := by omega
      rw [if_neg (by omega), Ending.value_bind]

/-- What is out and in the pool while indices are drawn. -/
structure Drawing (len : Nat) (out pool : List Int) : Prop where
  nodup : (out ++ pool).Nodup
  bounds : ∀ i ∈ out ++ pool, 0 ≤ i ∧ i < len
  size : out.length + pool.length = len

theorem Drawing.take {len : Nat} {out pool : List Int} (h : Drawing len out pool)
    {k : Nat} {x : Int}
    (hx : pool[k]? = some x) : Drawing len (out ++ [x]) (pool.eraseIdx k) := by
  obtain ⟨hk, hget⟩ := List.getElem?_eq_some_iff.mp hx
  have hperm : (out ++ [x] ++ pool.eraseIdx k).Perm (out ++ pool) := by
    rw [List.append_assoc, List.singleton_append]
    apply List.Perm.append_left
    rw [← hget]
    exact List.getElem_cons_eraseIdx_perm hk
  refine ⟨hperm.nodup_iff.mpr h.nodup, fun i hi => h.bounds i (hperm.mem_iff.mp hi), ?_⟩
  have hsize := hperm.length_eq
  have hlen := h.size
  simp only [List.length_append] at hsize ⊢
  omega

/-- The loop that draws takes distinct indices, as many as asked for or all. -/
theorem drawLoop_value {len : Nat} {count : Int} (hlen : len < 2 ^ 63) {n : Nat} {rng : Rng}
    {out pool : List Int} (h : Drawing len out pool) (hn : pool.length < n)
    (hout : out.length ≤ count) :
    ∃ out' rng', Ending.loop .outOfFuel (drawTurn b count) n (rng, out, pool) =
      .value (out', rng') ∧
      out'.Nodup ∧ (∀ i ∈ out', 0 ≤ i ∧ i < len) ∧ (out'.length : Int) = min count len := by
  induction n generalizing rng out pool with
  | zero => exact absurd hn (Nat.not_lt_zero _)
  | succ n ih =>
    have hsize := h.size
    rw [Ending.loop, drawTurn]
    dsimp only
    by_cases hmore : out.length < count ∧ 0 < pool.length
    · obtain ⟨index, hdraw, hlo, hhi⟩ := @genRangeI64_value b rng 0 pool.length (by decide)
        (by omega) (by omega) (.inr (by omega))
      obtain ⟨k, rfl⟩ := Int.eq_ofNat_of_zero_le hlo
      have hk : k < pool.length := by omega
      rw [if_pos hmore, hdraw, Ending.value_bind]
      dsimp only
      rw [get_drop (List.drop_eq_getElem_cons hk), Ending.value_bind, Ending.value_bind]
      apply ih (h.take (List.getElem?_eq_getElem hk))
      · rw [List.length_eraseIdx_of_lt hk]
        omega
      · rw [List.length_append, List.length_singleton]
        omega
    · rw [if_neg hmore, Ending.value_bind]
      refine ⟨out, rng, rfl, (List.nodup_append.mp h.nodup).1, ?_, by omega⟩
      exact fun i hi => h.bounds i (List.mem_append_left _ hi)

theorem sampleIndices_value {len count : Int} (hlen : len < 2 ^ 63) :
    ∃ out rng', sampleIndices b rng len count = .value (out, rng') ∧
      out.Nodup ∧ (∀ i ∈ out, 0 ≤ i ∧ i < len) ∧ (out.length : Int) = max 0 (min count len) := by
  unfold sampleIndices
  by_cases hnone : len ≤ 0 ∨ count ≤ 0
  · rw [if_pos hnone]
    refine ⟨[], rng, rfl, List.nodup_nil, fun _ hi => absurd hi List.not_mem_nil, ?_⟩
    rw [List.length_nil]
    omega
  · obtain ⟨n, rfl⟩ := Int.eq_ofNat_of_zero_le (show 0 ≤ len by omega)
    have hfill : Ending.loop .outOfFuel (fillTurn b n) (n + 1) ([], 0) = _ :=
      @fillLoop_value b n (by omega) (n + 1) 0 (Nat.zero_le _) (by omega)
    have hstart : Drawing n [] ((List.range n).map Int.ofNat) := by
      refine ⟨?_, ?_, by simp⟩
      · exact List.nodup_range.map fun _ _ => Int.ofNat.inj
      · intro i hi
        obtain ⟨k, hk, rfl⟩ := List.mem_map.mp hi
        have hlt := List.mem_range.mp hk
        exact ⟨Int.natCast_nonneg k, Int.ofNat_lt.mpr hlt⟩
    rw [if_neg hnone, Int.toNat_natCast, hfill, Ending.value_bind]
    obtain ⟨out, rng', hloop, hnodup, hbounds, hlength⟩ :=
      @drawLoop_value b n count (by omega) (n + 1) rng _ _ hstart (by simp) (by simp; omega)
    refine ⟨out, rng', hloop, hnodup, hbounds, ?_⟩
    rw [hlength]
    omega

/-! ## Shuffles -/

theorem get_slot {list : List T} {i : Nat} (h : i < list.length) :
    (get list (i : Int) : Panics T) = .value list[i] := get_drop (List.drop_eq_getElem_cons h)

theorem setSlot_slot {list : List T} {i : Nat} (h : i < list.length) (x : T) :
    setSlot list i x = .value (list.set i x) := if_neg (by omega)

/-- The loop in `shuffle` swaps two slots in each turn. -/
theorem shuffleLoop_value {list start : List T} (hstart : list.Perm start)
    (hlist : list.length < 2 ^ 63) {i n : Nat} (hi : i < list.length) (hn : i < n) {rng : Rng} :
    ∃ list' rng', Ending.loop .outOfFuel (shuffleTurn b) n (rng, list, (i : Int)) =
      .value (list', rng') ∧ list'.Perm start := by
  induction n generalizing rng list i with
  | zero => exact absurd hn (Nat.not_lt_zero _)
  | succ n ih =>
    rw [Ending.loop, shuffleTurn]
    dsimp only
    by_cases hpos : 0 < i
    · obtain ⟨j, hdraw, hlo, hhi⟩ := @genRangeI64_value b rng 0 (i + 1) (by decide) (by omega)
        (by omega) (.inr (by omega))
      obtain ⟨k, rfl⟩ := Int.eq_ofNat_of_zero_le hlo
      have hk : k < list.length := by omega
      have hlength : ((list.set i list[k]).set k list[i]).length = list.length := by
        rw [List.length_set, List.length_set]
      rw [if_pos (by omega), Build.i64_ok (by omega) (by omega), Ending.value_bind, hdraw,
        Ending.value_bind]
      dsimp only
      rw [get_slot hi, Ending.value_bind, get_slot hk, Ending.value_bind, setSlot_slot hi,
        Ending.value_bind, setSlot_slot (by rw [List.length_set]; exact hk), Ending.value_bind,
        Build.i64_ok (by omega) (by omega), Ending.value_bind, Ending.value_bind,
        show (i : Int) - 1 = ((i - 1 : Nat) : Int) by omega]
      apply ih ((List.set_set_perm hi hk).trans hstart)
      · rw [hlength]
        exact hlist
      · rw [hlength]
        omega
      · omega
    · rw [if_neg (by omega), Ending.value_bind]
      exact ⟨list, rng, rfl, hstart⟩

theorem shuffle_value (list : Listed T) :
    ∃ list' rng', shuffle b rng list = .value (list', rng') ∧ list'.Perm list.slots := by
  have hfits := list.fits
  unfold shuffle
  rw [Build.i64_ok (by omega) (by omega), Ending.value_bind]
  cases hlength : list.slots.length with
  | zero => exact ⟨list.slots, rng, rfl, .refl _⟩
  | succ n =>
    rw [show ((n + 1 : Nat) : Int) - 1 = n by omega]
    exact shuffleLoop_value (.refl _) (by omega) (by omega) (by omega)

/-! ## Selection -/

/-- Selection is exact for every generator: a number of a range is in the range, unless a debug
build panics since the width of the range does not fit; a shuffle is a permutation; a sample has
distinct indices, as many as asked for or all; and a weighted index is drawn by as many numbers as
its weight says, or there is none, since the total is zero or does not fit. -/
theorem selection_is_exact_while_the_width_fits (b : Build) :
    (∀ (rng : Rng) (low high : Int), -2 ^ 63 ≤ low → low < high → high < 2 ^ 63 →
      ((∃ v rng', genRangeI64 b rng low high = .value (v, rng') ∧ low ≤ v ∧ v < high) ↔
        WidthFits b low high)) ∧
    (∀ (rng : Rng) (low high : Int), 0 ≤ low → low < high → high < 2 ^ 64 →
      ∃ v rng', genRangeU64 b rng low high = .value (v, rng') ∧ low ≤ v ∧ v < high) ∧
    (∀ (T : Type) (rng : Rng) (list : Listed T),
      ∃ list' rng', shuffle b rng list = .value (list', rng') ∧ list'.Perm list.slots) ∧
    (∀ (rng : Rng) (len count : Int), len < 2 ^ 63 →
      ∃ out rng', sampleIndices b rng len count = .value (out, rng') ∧
        out.Nodup ∧ (∀ i ∈ out, 0 ≤ i ∧ i < len) ∧ (out.length : Int) = max 0 (min count len)) ∧
    ∀ weights : Listed (BitVec 64),
      (total weights.slots = 0 ∨ 2 ^ 64 ≤ total weights.slots →
        ∀ rng, weightedIndex b rng weights = .value (none, rng)) ∧
      (0 < total weights.slots → total weights.slots < 2 ^ 64 →
        ∃ selected : Nat → Nat,
          (∀ rng, weightedIndex b rng weights =
            .value (some (selected ((rng.numbers 0).toNat % total weights.slots)), rng.nextU64.2)) ∧
          (∀ r < total weights.slots, ∃ w, weights.slots[selected r]? = some w ∧ 0 < w.toNat) ∧
          ∀ i w, weights.slots[i]? = some w →
            ((Finset.range (total weights.slots)).filter fun r => selected r = i).card =
              w.toNat) := by
  refine ⟨?_, ?_, fun T rng list => shuffle_value list, fun rng len count hlen =>
    sampleIndices_value hlen, ?_⟩
  · intro rng low high hlow hlt hhigh
    constructor
    · rintro ⟨v, rng', hvalue, _⟩
      by_contra hfits
      rw [genRangeI64_trap hfits] at hvalue
      cases hvalue
    · intro hfits
      obtain ⟨v, hvalue, hrange⟩ := @genRangeI64_value b rng low high hlow hlt hhigh hfits
      exact ⟨v, _, hvalue, hrange⟩
  · intro rng low high hlow hlt hhigh
    have hnonneg := Int.emod_nonneg rng.nextU64.1 (show high - low ≠ 0 by omega)
    have hless := Int.emod_lt_of_pos rng.nextU64.1 (show 0 < high - low by omega)
    exact ⟨_, _, genRangeU64_value hlow hlt hhigh, by omega, by omega⟩
  · intro weights
    refine ⟨fun hnone rng => ?_, fun hpos hfits =>
      ⟨fun r => (pick weights.slots r 0).getD 0, ?_, ?_, ?_⟩⟩
    · rw [weightedIndex_value, if_pos hnone]
    · intro rng
      obtain ⟨k, hk⟩ := Option.isSome_iff_exists.mp
        (@pick_isSome weights.slots _ 0 (Nat.mod_lt (rng.numbers 0).toNat hpos))
      dsimp only
      rw [weightedIndex_value, if_neg (by omega), hk]
      rfl
    · intro r hr
      obtain ⟨k, hk⟩ := Option.isSome_iff_exists.mp (@pick_isSome weights.slots r 0 hr)
      obtain ⟨j, w, hj, hw, hlo, hhi⟩ := pick_iff.mp hk
      obtain rfl : k = j := by omega
      refine ⟨w, ?_, by omega⟩
      dsimp only
      rw [hk]
      exact hw
    · intro i w hw
      rw [← card_pick hw]
      refine congrArg Finset.card (Finset.filter_congr fun r hr => ?_)
      obtain ⟨k, hk⟩ := Option.isSome_iff_exists.mp
        (@pick_isSome weights.slots r 0 (Finset.mem_range.mp hr))
      dsimp only
      rw [hk, Option.getD_some, Option.some_inj]

/-- A generator that starts with this number. -/
def Rng.starting (n : Nat) : Rng := ⟨fun _ => BitVec.ofNat 64 n⟩

/-- Half of all numbers, a die, four cards, a sample and three weights, one of them zero. -/
theorem selection_is_exact_at :
    (∃ v rng', genRangeI64 .debug (Rng.starting 7) (-2 ^ 62) (2 ^ 62 - 1) =
        .value (v, rng') ∧ -2 ^ 62 ≤ v ∧ v < 2 ^ 62 - 1) ∧
    (∃ v rng', genRangeU64 .debug (Rng.starting 7) 1 7 = .value (v, rng') ∧ 1 ≤ v ∧ v < 7) ∧
    (∃ out rng', sampleIndices .debug (Rng.starting 7) 5 3 = .value (out, rng') ∧
      out.Nodup ∧ (∀ i ∈ out, 0 ≤ i ∧ i < 5) ∧ (out.length : Int) = max 0 (min 3 5)) ∧
    ∃ selected : Nat → Nat, ∀ rng, weightedIndex .debug rng ⟨[2, 0, 3], by decide⟩ =
      .value (some (selected ((rng.numbers 0).toNat % 5)), rng.nextU64.2) := by
  obtain ⟨hi64, hu64, _, hsample, hweights⟩ := selection_is_exact_while_the_width_fits .debug
  refine ⟨(hi64 (Rng.starting 7) _ _ (by decide) (by decide) (by decide)).mpr (by decide),
    hu64 (Rng.starting 7) 1 7 (by decide) (by decide) (by decide),
    hsample (Rng.starting 7) 5 3 (by decide), ?_⟩
  obtain ⟨selected, hselected, _⟩ :=
    (hweights ⟨[2, 0, 3], by decide⟩).2 (by decide) (by decide)
  exact ⟨selected, hselected⟩

/-- In a debug build the range of all numbers has no number. -/
theorem no_number_of_the_widest_range :
    ¬∃ v rng', genRangeI64 .debug (Rng.starting 7) (-2 ^ 63) (2 ^ 63 - 1) = .value (v, rng') ∧
      -2 ^ 63 ≤ v ∧ v < 2 ^ 63 - 1 := by
  rintro ⟨v, rng', hvalue, _⟩
  rw [genRangeI64_trap (by decide)] at hvalue
  cases hvalue

end stdlib.rand
