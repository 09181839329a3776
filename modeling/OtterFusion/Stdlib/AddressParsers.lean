-- What `parse_ip_v6` (`std/net_types.otter`) accepts: the texts of addresses, and also those with a
-- dotted quad to the left of `::`.
import OtterFusion.Stdlib.AddressGrammar

open base.trapping

namespace stdlib.net

/-! ## The place of the compression -/

variable {text : Text} {position : Int}

theorem place_parts {parts : List Text} (h : ∀ part ∈ parts, part ≠ [] ∧ ':' ∉ part) (rest : Text) :
    place [':', ':'] ([':'].intercalate parts ++ rest) =
      (place [':', ':'] rest).map (· + ([':'].intercalate parts).length) := by
  induction parts with
  | nil => simp
  | cons part parts ih =>
    obtain ⟨⟨_, hpart⟩, hparts⟩ := List.forall_mem_cons.mp h
    cases parts with
    | nil =>
      rw [List.intercalate_singleton]
      exact place_append_of_not_mem hpart rest
    | cons next parts =>
      obtain ⟨⟨hnext, hcolon⟩, _⟩ := List.forall_mem_cons.mp hparts
      obtain ⟨c, cs, rfl⟩ := List.exists_cons_of_ne_nil hnext
      have hc := List.ne_of_not_mem_cons hcolon
      have hsingle : ∀ s : Text, place [':', ':'] (':' :: c :: s) =
          (place [':', ':'] (c :: s)).map (· + 1) := by
        intro s
        rw [place, if_neg (by simp [List.isPrefixOf, hc])]
      obtain ⟨s, hs⟩ : ∃ s, [':'].intercalate ((c :: cs) :: parts) ++ rest = c :: s := by
        cases parts with
        | nil => exact ⟨cs ++ rest, by simp⟩
        | cons p ps => exact ⟨_, by rw [List.intercalate_cons_cons]; rfl⟩
      rw [List.intercalate_cons_cons, List.append_assoc, List.append_assoc,
        place_append_of_not_mem hpart, List.singleton_append, hs, hsingle, ← hs, ih hparts]
      simp only [Option.map_map, List.length_append, List.length_singleton]
      congr 1
      funext k
      rw [Function.comp_apply, Function.comp_apply]
      omega

/-- A search for `::` passes a side. -/
theorem Side.place {s : Text} {groups : List Int} {tail : Bool} (h : Side s groups tail)
    (rest : Text) :
    place [':', ':'] (s ++ rest) = (stdlib.place [':', ':'] rest).map (· + s.length) := by
  rcases h with ⟨rfl, _⟩ | ⟨parts, rfl, hparts⟩
  · simp
  · refine place_parts (fun part hpart => ?_) rest
    exact ⟨(hparts.chars part hpart).1, hparts.not_mem rfl (by decide) part hpart⟩

theorem Side.no_compression {s : Text} {groups : List Int} {tail : Bool} (h : Side s groups tail) :
    stdlib.place [':', ':'] s = none := by
  have := h.place []
  rwa [List.append_nil] at this

/-- The sides of `::` are at its first place. -/
theorem place_sides {left right : Text} {l : List Int} {tail : Bool} (h : Side left l tail) :
    place [':', ':'] (left ++ ':' :: ':' :: right) = some left.length := by
  rw [h.place, show ':' :: ':' :: right = [':', ':'] ++ right from rfl, place_self]
  simp

theorem Compressed.place {groups : List Int} {tail : Bool} (h : Compressed text groups tail) :
    stdlib.place [':', ':'] text ≠ none := by
  obtain ⟨left, right, l, r, _, rfl, hleft, _⟩ := h
  rw [place_sides hleft]
  exact Option.some_ne_none _

/-! ## Groups -/

/-- What `parse_ip_v6` accepts before the zone. -/
def Accepted (s : Text) (groups : List Int) : Prop :=
  (∃ tail, Side s groups tail ∧ groups.length = 8) ∨ ∃ leftTail, Compressed s groups leftTail

theorem Accepted.length {groups : List Int} (h : Accepted text groups) : groups.length = 8 := by
  rcases h with ⟨_, _, h⟩ | ⟨_, left, right, l, r, tail, _, _, _, hlen, rfl⟩
  · exact h
  · unfold filled
    rw [List.length_append, List.length_append, List.length_replicate]
    omega

theorem zerosLoop {groups : List Int} {n : Nat} (hn : (n : Int) < 2 ^ 63) :
    (Ending.loop .outOfFuel zerosTurn (n + 1) (groups, (n : Int)) : Parse (List Int)) =
      .value (groups ++ List.replicate n 0) := by
  induction n generalizing groups with
  | zero =>
    rw [Ending.loop, zerosTurn, if_neg (by omega), Ending.value_bind, List.replicate_zero,
      List.append_nil]
  | succ n ih =>
    rw [Ending.loop, zerosTurn, if_pos (by omega), i64_bind (by omega), Ending.value_bind]
    show Ending.loop _ _ _ (groups ++ [0], ((n + 1 : Nat) : Int) - 1) = _
    rw [show ((n + 1 : Nat) : Int) - 1 = n by omega, ih (by omega), List.replicate_succ,
      List.append_assoc]
    rfl

/-- The two sides and the zeros between them. -/
theorem compression_iff {left right : Text} {groups : List Int} {at_ : Int} (hat : 0 ≤ at_)
    (hleft : left.length + 16 < 2 ^ 63) (hright : at_ + 2 + right.length + 16 < 2 ^ 63) :
    (do
      let left ← parseIpv6Side left 0
      let right ← parseIpv6Side right (← i64 (at_ + 2))
      let zeros ← i64 ((← i64 (8 - left.length)) - right.length)
      if zeros ≤ 0 then parseError "IPv6 compression must replace at least one group" at_
      else do
        let groups ← Ending.loop .outOfFuel zerosTurn (zeros.toNat + 1) (left, zeros)
        .value (groups ++ right) : Parse (List Int)) = .value groups ↔
      ∃ l r leftTail tail, Side left l leftTail ∧ Side right r tail ∧ l.length + r.length ≤ 7 ∧
        groups = filled l r := by
  have hl := fun l => @parseIpv6Side_iff left 0 l
    (Int.le_refl 0) (by omega)
  have hr := fun r => @parseIpv6Side_iff right (at_ + 2) r
    (by omega) hright
  have hzeros : ∀ l r : List Int, l.length + r.length ≤ 7 →
      (Ending.loop .outOfFuel zerosTurn
        ((8 - (l.length : Int) - r.length).toNat + 1) (l, 8 - (l.length : Int) - r.length) :
          Parse (List Int)) = .value (l ++ List.replicate (8 - l.length - r.length) 0) := by
    intro l r hlen
    have hcount : 8 - l.length - r.length = (8 - (l.length : Int) - r.length).toNat := by omega
    have := @zerosLoop l (8 - l.length - r.length) (by omega)
    rw [show ((8 - l.length - r.length : Nat) : Int) = 8 - (l.length : Int) - r.length by omega]
      at this
    rwa [← hcount]
  rw [i64_ok (by omega) (by omega)]
  constructor
  · intro h
    obtain ⟨l, hl', h⟩ := Ending.value_of_bind.mp h
    rw [Ending.value_bind] at h
    obtain ⟨r, hr', h⟩ := Ending.value_of_bind.mp h
    obtain ⟨_, hn, h⟩ := Ending.value_of_bind.mp h
    obtain ⟨_, hm, h⟩ := Ending.value_of_bind.mp h
    obtain ⟨leftTail, hleftSide⟩ := (hl l).mp hl'
    obtain ⟨tail, hrightSide⟩ := (hr r).mp hr'
    rw [(i64_iff.mp hm).1, (i64_iff.mp hn).1] at h
    split at h
    · cases h
    rename_i hpos
    have hlen : l.length + r.length ≤ 7 := by omega
    rw [hzeros l r hlen] at h
    cases h
    exact ⟨l, r, leftTail, tail, hleftSide, hrightSide, hlen, rfl⟩
  · rintro ⟨l, r, leftTail, tail, hleftSide, hrightSide, hlen, rfl⟩
    rw [(hl l).mpr ⟨leftTail, hleftSide⟩, Ending.value_bind, Ending.value_bind,
      (hr r).mpr ⟨tail, hrightSide⟩, Ending.value_bind, i64_bind (by omega), i64_bind (by omega),
      if_neg (by omega), hzeros l r hlen, Ending.value_bind]
    rfl

/-- The groups of `parse_ip_v6`. -/
theorem parseGroups_iff {groups : List Int} (hascii : Ascii text)
    (hsize : text.length + 24 < 2 ^ 63) :
    parseGroups text = .value groups ↔ Accepted text groups := by
  unfold parseGroups
  rw [indexOf_eq, hascii.offset_eq]
  cases hplace : place [':', ':'] text with
  | none =>
    have hside := @parseIpv6Side_iff text 0 groups
      (Int.le_refl 0) (by omega)
    dsimp only [Option.map_none]
    constructor
    · intro h
      obtain ⟨gs, hgs, h⟩ := Ending.value_of_bind.mp h
      split at h
      · cases h
      rename_i hlen
      cases h
      obtain ⟨tail, htail⟩ := hside.mp hgs
      exact .inl ⟨tail, htail, not_not.mp hlen⟩
    · rintro (⟨tail, htail, hlen⟩ | ⟨_, h⟩)
      · rw [hside.mpr ⟨tail, htail⟩, Ending.value_bind, if_neg (not_not.mpr hlen)]
      · exact absurd hplace h.place
  | some k =>
    obtain ⟨rest, htext, hlen⟩ := place_spec hplace
    change k + 2 + rest.length = text.length at hlen
    have hdrop : text.drop (k + 2) = rest := by
      have htake : (text.take k).length = k := by
        rw [List.length_take]
        omega
      rw [htext, List.drop_append, htake, List.drop_of_length_le (by omega)]
      simp
    have htake : (text.take k).length = k := by
      rw [List.length_take]
      omega
    have hsides : ∀ {left right : Text} {l : List Int} {tail : Bool},
        text = left ++ ':' :: ':' :: right → Side left l tail → left = text.take k ∧
          right = rest := by
      intro left right l tail hparts hleft
      have hsame : some k = some left.length := by
        rw [← hplace, hparts]
        exact place_sides hleft
      have hboth : text.take k ++ ([':', ':'] ++ rest) = left ++ ([':', ':'] ++ right) :=
        htext.symm.trans hparts
      obtain ⟨h1, h2⟩ := List.append_inj hboth (by rw [htake]; exact Option.some.inj hsame)
      exact ⟨h1.symm, (List.append_cancel_left h2).symm⟩
    have hoffset : offset [':', ':'] rest = place [':', ':'] rest := by
      rw [← hdrop]
      exact (hascii.drop _).offset_eq _
    have haccepted : Accepted text groups ↔ ∃ l r leftTail tail, Side (text.take k) l leftTail ∧
        Side rest r tail ∧ l.length + r.length ≤ 7 ∧ groups = filled l r := by
      constructor
      · rintro (⟨tail, h, _⟩ | ⟨leftTail, left, right, l, r, tail, hparts, hl, hr, hlen', hgroups⟩)
        · rw [h.no_compression] at hplace
          cases hplace
        · obtain ⟨rfl, rfl⟩ := hsides hparts hl
          exact ⟨l, r, leftTail, tail, hl, hr, hlen', hgroups⟩
      · rintro ⟨l, r, leftTail, tail, hl, hr, hlen', hgroups⟩
        exact .inr ⟨leftTail, _, rest, l, r, tail, htext, hl, hr, hlen', hgroups⟩
    dsimp only [Option.map_some]
    rw [i64_bind (by omega), substring_tail (i := k + 2) (by omega) (by omega), Ending.value_bind,
      hdrop, indexOf_eq, hoffset]
    cases hnext : place [':', ':'] rest with
    | some next =>
      dsimp only [Option.map_some]
      constructor
      · intro h
        obtain ⟨_, _, h⟩ := Ending.value_of_bind.mp h
        obtain ⟨_, _, h⟩ := Ending.value_of_bind.mp h
        cases h
      · intro h
        obtain ⟨l, r, leftTail, tail, _, hr, _⟩ := haccepted.mp h
        rw [hr.no_compression] at hnext
        cases hnext
    | none =>
      dsimp only [Option.map_none]
      rw [substring_head rfl (by omega), Ending.value_bind, haccepted,
        ← @compression_iff _ _ _ k (by omega) (by omega) (by omega)]

/-! ## Zones -/

/-- `__net_valid_zone_id`. -/
theorem validZoneId_iff (hpos : 0 ≤ position) (hfits : position + text.length < 2 ^ 63) :
    validZoneId text position = .value () ↔ Zone text := by
  have hends := validZoneId_ends hpos hfits
  constructor
  · exact hends.of_value
  · intro h
    cases hzone : validZoneId text position with
    | value _ => rfl
    | error e => exact absurd h (hends.of_error hzone).2
    | trap t => exact absurd hzone (hends.safe t)

theorem Zone.ascii {z : Text} (h : Zone z) : Ascii z :=
  fun c hc => utf8Size_of_lt (codePoint_of_isZoneChar (h.2 c hc))

/-- The zone is behind the first `%`. -/
theorem parseZone_iff {zone : Option Text} {rest : Text} (hascii : Ascii text)
    (hsize : text.length + 24 < 2 ^ 63) (hpercent : '%' ∉ rest) (hrest : rest ≠ []) :
    parseZone text = .value (zone, rest) ↔
      text = withZone rest zone ∧ ∀ z, zone = some z → Zone z := by
  unfold parseZone
  rw [indexOf_eq, hascii.offset_eq]
  cases hplace : place ['%'] text with
  | none =>
    have hnot := place_char_none.mp hplace
    dsimp only [Option.map_none]
    constructor
    · intro h
      cases h
      exact ⟨rfl, fun z hz => by cases hz⟩
    · rintro ⟨htext, _⟩
      cases zone with
      | none => rw [htext, withZone]
      | some z =>
        refine absurd ?_ hnot
        rw [htext, withZone]
        exact List.mem_append_right _ List.mem_cons_self
  | some k =>
    obtain ⟨left, right, rfl, hleft, rfl⟩ := place_char_iff.mp hplace
    have hlen : (left ++ '%' :: right).length = left.length + 1 + right.length := by
      rw [List.length_append, List.length_cons]
      omega
    have hdrop : (left ++ '%' :: right).drop (left.length + 1) = right := by
      rw [List.drop_append, List.drop_of_length_le (by omega)]
      simp
    have htake : (left ++ '%' :: right).take left.length = left := List.take_left
    dsimp only [Option.map_some]
    rw [i64_bind (by omega), substring_tail (i := left.length + 1) (by omega) (by omega),
      Ending.value_bind, i64_bind (by omega), hdrop]
    have hvalid := @validZoneId_iff right ((left.length : Int) + 1) (by omega)
      (by omega)
    have hcut : (do
        let text ← substring (left ++ '%' :: right) 0 (left.length : Int)
        if size text = 0 then parseError "expected IPv6 address" 0
        else .value (some right, text) : Parse (Option Text × Text)) =
        if left = [] then parseError "expected IPv6 address" 0 else .value (some right, left) := by
      rw [substring_head rfl (by omega), Ending.value_bind, htake]
      unfold size
      simp
    constructor
    · intro h
      obtain ⟨_, hzone, h⟩ := Ending.value_of_bind.mp h
      rw [hcut] at h
      split at h
      · cases h
      cases h
      refine ⟨rfl, fun z hz => ?_⟩
      cases hz
      exact hvalid.mp hzone
    · rintro ⟨htext, hzone⟩
      cases zone with
      | none =>
        refine absurd ?_ hpercent
        rw [withZone] at htext
        rw [← htext]
        exact List.mem_append_right _ List.mem_cons_self
      | some z =>
        have hsame := place_char_iff.mpr ⟨rest, z, rfl, hpercent, rfl⟩
        rw [withZone] at htext
        rw [← htext, hplace] at hsame
        obtain ⟨rfl, hz⟩ := List.append_inj htext (Option.some.inj hsame)
        cases hz
        rw [hvalid.mpr (hzone right rfl), Ending.value_bind, hcut, if_neg hrest]

/-! ## Addresses -/

theorem Side.chars {s : Text} {groups : List Int} {tail : Bool} (h : Side s groups tail) :
    ∀ c ∈ s, (hexNumber c).isSome = true ∨ c = '.' ∨ c = ':' := by
  rcases h with ⟨rfl, _⟩ | ⟨parts, rfl, hparts⟩
  · exact List.forall_mem_nil _
  · have hchars := hparts.chars
    clear hparts
    induction parts with
    | nil => exact List.forall_mem_nil _
    | cons part parts ih =>
      obtain ⟨⟨_, hpart⟩, hrest⟩ := List.forall_mem_cons.mp hchars
      have hhead : ∀ c ∈ part, (hexNumber c).isSome = true ∨ c = '.' ∨ c = ':' := by
        intro c hc
        rcases hpart c hc with h | h
        · exact .inl h
        · exact .inr (.inl h)
      cases parts with
      | nil =>
        rw [List.intercalate_singleton]
        exact hhead
      | cons next parts =>
        rw [List.intercalate_cons_cons]
        intro c hc
        rcases List.mem_append.mp hc with hc | hc
        · rcases List.mem_append.mp hc with hc | hc
          · exact hhead c hc
          · exact .inr (.inr (List.mem_singleton.mp hc))
        · exact ih hrest c hc

theorem Accepted.chars {groups : List Int} (h : Accepted text groups) :
    ∀ c ∈ text, (hexNumber c).isSome = true ∨ c = '.' ∨ c = ':' := by
  rcases h with ⟨_, h, _⟩ | ⟨_, left, right, l, r, tail, rfl, hl, hr, _, _⟩
  · exact h.chars
  · intro c hc
    rcases List.mem_append.mp hc with hc | hc
    · exact hl.chars c hc
    · rcases List.mem_cons.mp hc with rfl | hc
      · exact .inr (.inr rfl)
      · rcases List.mem_cons.mp hc with rfl | hc
        · exact .inr (.inr rfl)
        · exact hr.chars c hc

theorem Accepted.ne_nil {groups : List Int} (h : Accepted text groups) : text ≠ [] := by
  rintro rfl
  rcases h with ⟨_, hside, hlen⟩ | ⟨_, left, right, _, _, _, hparts, _⟩
  · rw [(side_nil_iff.mp hside).1] at hlen
    cases hlen
  · exact absurd hparts (by simp)

/-- A sign that is not of an address. -/
theorem Accepted.not_mem {groups : List Int} (h : Accepted text groups) {d : Char}
    (hd : hexNumber d = none) (hdot : d ≠ '.') (hcolon : d ≠ ':') : d ∉ text := by
  intro hmem
  rcases h.chars d hmem with hsome | hsame | hsame
  · exact hexNumber_ne_none hsome hd rfl
  · exact hdot hsame
  · exact hcolon hsame

/-- The text before the zone is ASCII when the whole text is. -/
theorem parseZone_ascii {zone : Option Text} {rest : Text} (hascii : Ascii text)
    (hsize : text.length + 24 < 2 ^ 63) (h : parseZone text = .value (zone, rest)) :
    Ascii rest ∧ rest.length ≤ text.length := by
  have hends := parseZone_ends (by rw [hascii.byteSize]; omega)
    (@within_of_ascii ['%'] _ _ hascii (Nat.le_refl 1))
  obtain ⟨_, hrest, _⟩ := hends.of_value h
  dsimp only at hrest
  subst hrest
  have hle := byteSize_before_le text ['%']
  rw [hascii.byteSize, (hascii.before _).byteSize] at hle
  exact ⟨hascii.before _, hle⟩

/-- The eight groups of a list. -/
theorem get_groups {zone : Option Text} {groups : List Int} (h : groups.length = 8) {ip : IpAddr} :
    (do .value ⟨6, zone, ← get groups 0, ← get groups 1, ← get groups 2, ← get groups 3,
      ← get groups 4, ← get groups 5, ← get groups 6, ← get groups 7⟩ : Parse IpAddr) = .value ip ↔
      ip.zone = zone ∧ ip.groups = groups ∧ ip.version = 6 := by
  obtain ⟨a, b, c, d, e, f, g, h', rfl⟩ : ∃ a b c d e f g h, groups = [a, b, c, d, e, f, g, h] := by
    match groups, h with
    | [a, b, c, d, e, f, g, h], _ => exact ⟨a, b, c, d, e, f, g, h, rfl⟩
  constructor
  · intro hip
    cases hip
    exact ⟨rfl, rfl, rfl⟩
  · rintro ⟨rfl, hgroups, hversion⟩
    cases ip
    cases hgroups
    cases hversion
    rfl

/-- What `parse_ip_v6` accepts. -/
theorem parseIpV6_iff {ip : IpAddr} (hascii : Ascii text) (hsize : text.length + 24 < 2 ^ 63) :
    parseIpV6 text = .value ip ↔ ∃ s, text = withZone s ip.zone ∧ Accepted s ip.groups ∧
      (∀ z, ip.zone = some z → Zone z) ∧ ip.version = 6 := by
  have hpercent : ∀ {s : Text} {groups : List Int}, Accepted s groups → '%' ∉ s :=
    fun h => h.not_mem rfl (by decide) (by decide)
  unfold parseIpV6
  split
  · rename_i hempty
    have hnil : text = [] := List.eq_nil_of_length_eq_zero (by unfold size at hempty; omega)
    constructor
    · intro h
      cases h
    · rintro ⟨s, htext, haccepted, _⟩
      refine absurd ?_ haccepted.ne_nil
      rw [hnil] at htext
      cases hzone : ip.zone with
      | none =>
        rw [hzone] at htext
        exact htext.symm
      | some z =>
        rw [hzone] at htext
        exact absurd htext (by simp [withZone])
  · constructor
    · intro h
      obtain ⟨⟨zone, rest⟩, hzone, h⟩ := Ending.value_of_bind.mp h
      obtain ⟨groups, hgroups, h⟩ := Ending.value_of_bind.mp h
      obtain ⟨hrest, hlen⟩ := parseZone_ascii hascii hsize hzone
      have haccepted := (parseGroups_iff hrest (by omega)).mp hgroups
      obtain ⟨rfl, rfl, hversion⟩ := (get_groups haccepted.length).mp h
      obtain ⟨htext, hvalid⟩ :=
        (parseZone_iff hascii hsize (hpercent haccepted) haccepted.ne_nil).mp hzone
      exact ⟨rest, htext, haccepted, hvalid, hversion⟩
    · rintro ⟨rest, htext, haccepted, hvalid, hversion⟩
      have hzone := (parseZone_iff hascii hsize (hpercent haccepted) haccepted.ne_nil).mpr
        ⟨htext, hvalid⟩
      obtain ⟨hrest, hlen⟩ := parseZone_ascii hascii hsize hzone
      rw [hzone, Ending.value_bind]
      dsimp only
      rw [(parseGroups_iff hrest (by omega)).mpr haccepted, Ending.value_bind]
      exact (get_groups haccepted.length).mpr ⟨rfl, rfl, hversion⟩

end stdlib.net
