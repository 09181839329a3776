-- The dedicated loops bind what `next` gives, and end where it is done: what a loop holds, in its
-- slots or outside of them, is what the iterator holds, and no body changes it.
import OtterFusion.Backend.ForLoops

open base.turns
open compiler.ast (Span)

namespace backend.forLoops

variable {R : Type}

/-! ## The layout -/

/-- The slots of loops are behind those of the locals, and different loops have different ones. -/
structure LaidOut (slotsOf : Span → Option Slots) (start : Nat) : Prop where
  shape : ∀ sp s, slotsOf sp = some s →
    start ≤ s.primary ∧ s.secondary = s.primary + 8 ∧ s.index = s.primary + 16
  apart : ∀ sp sp' s s', sp ≠ sp' → slotsOf sp = some s → slotsOf sp' = some s' →
    s.primary + 24 ≤ s'.primary ∨ s'.primary + 24 ≤ s.primary

theorem laidOut_none (start : Nat) : LaidOut (fun _ => none) start := by
  constructor
  · intro sp s h
    cases h
  · intro sp sp' s s' hne h
    cases h

/-- A layout whose size is behind all of its slots. -/
structure AsyncLayout.Laid (l : AsyncLayout) (start : Nat) : Prop
    extends LaidOut l.forSlots start where
  room : start ≤ l.stateSize
  inside : ∀ sp s, l.forSlots sp = some s → s.primary + 24 ≤ l.stateSize

theorem AsyncLayout.Laid.reserve {l : AsyncLayout} {start : Nat} (h : l.Laid start) (sp : Span) :
    (l.reserve sp).Laid start := by
  unfold AsyncLayout.reserve
  split
  · exact h
  · have hnew : ∀ sp' s, Function.update l.forSlots sp
        (some ⟨l.stateSize, l.stateSize + 8, l.stateSize + 16⟩) sp' = some s →
        sp' = sp ∧ s = ⟨l.stateSize, l.stateSize + 8, l.stateSize + 16⟩ ∨
          sp' ≠ sp ∧ l.forSlots sp' = some s := by
      intro sp' s hs
      by_cases hsp : sp' = sp
      · subst hsp
        rw [Function.update_self] at hs
        exact .inl ⟨rfl, (Option.some.inj hs).symm⟩
      · rw [Function.update_of_ne hsp] at hs
        exact .inr ⟨hsp, hs⟩
    refine ⟨⟨fun sp' s hs => ?_, fun sp' sp'' s s' hne hs hs' => ?_⟩, ?_, fun sp' s hs => ?_⟩
    · rcases hnew sp' s hs with ⟨-, rfl⟩ | ⟨-, hold⟩
      · exact ⟨h.room, rfl, rfl⟩
      · exact h.shape sp' s hold
    · rcases hnew sp' s hs with ⟨rfl, rfl⟩ | ⟨-, hold⟩
      · rcases hnew sp'' s' hs' with ⟨rfl, -⟩ | ⟨-, hold'⟩
        · exact absurd rfl hne
        · exact .inr (h.inside sp'' s' hold')
      · rcases hnew sp'' s' hs' with ⟨-, rfl⟩ | ⟨-, hold'⟩
        · exact .inl (h.inside sp' s hold)
        · exact h.apart sp' sp'' s s' hne hold hold'
    · have hroom := h.room
      show start ≤ l.stateSize + 24
      omega
    · show s.primary + 24 ≤ l.stateSize + 24
      rcases hnew sp' s hs with ⟨-, rfl⟩ | ⟨-, hold⟩
      · exact Nat.le_refl _
      · have hinside := h.inside sp' s hold
        omega

theorem laid_fold {l : AsyncLayout} {start : Nat} (h : l.Laid start) (spans : List Span) :
    (spans.foldl AsyncLayout.reserve l).Laid start := by
  induction spans generalizing l with
  | nil => exact h
  | cons sp spans ih => exact ih (h.reserve sp)

theorem reserve_isSome {l : AsyncLayout} {sp sp' : Span} :
    ((l.reserve sp').forSlots sp).isSome ↔ sp = sp' ∨ (l.forSlots sp).isSome := by
  unfold AsyncLayout.reserve
  split
  · rename_i hsome
    constructor
    · exact .inr
    · rintro (rfl | h)
      · exact hsome
      · exact h
  · by_cases hsp : sp = sp'
    · simp [hsp]
    · simp [hsp]

theorem fold_isSome {l : AsyncLayout} {sp : Span} (spans : List Span) :
    ((spans.foldl AsyncLayout.reserve l).forSlots sp).isSome ↔
      sp ∈ spans ∨ (l.forSlots sp).isSome := by
  induction spans generalizing l with
  | nil => simp
  | cons sp' spans ih =>
    rw [List.foldl_cons, ih, reserve_isSome, List.mem_cons]
    tauto

theorem asyncStateLayout_laid (locals : Nat) (code : Code R) :
    (asyncStateLayout locals code).Laid (loopsStart locals) := by
  apply laid_fold
  exact ⟨laidOut_none _, Nat.le_refl _, fun sp s h => nomatch h⟩

/-! ## What code keeps -/

/-- What is left of a state by code with these loops: the slots of other loops, and without an
`await` the values outside of slots. -/
structure Keeps (slotsOf : Span → Option Slots) (start : Nat) (spans : List Span) (awaits : Bool)
    (m m' : Machine R) : Prop where
  frame : ∀ o, start ≤ o → (∀ sp ∈ spans, ∀ s, slotsOf sp = some s →
    o ≠ s.primary ∧ o ≠ s.secondary ∧ o ≠ s.index) → m'.frame o = m.frame o
  poll : awaits = false → m'.poll = m.poll

section keeps

variable {slotsOf : Span → Option Slots} {start : Nat} {spans spans' : List Span}
  {awaits awaits' : Bool}
  {m m' m'' : Machine R} {sp : Span}

theorem Keeps.refl (m : Machine R) : Keeps slotsOf start spans awaits m m :=
  ⟨fun _ _ _ => rfl, fun _ => rfl⟩

theorem Keeps.trans (h : Keeps slotsOf start spans awaits m m')
    (h' : Keeps slotsOf start spans awaits m' m'') : Keeps slotsOf start spans awaits m m'' :=
  ⟨fun o ho hne => (h'.frame o ho hne).trans (h.frame o ho hne),
    fun hno => (h'.poll hno).trans (h.poll hno)⟩

theorem Keeps.mono (h : Keeps slotsOf start spans awaits m m') (hspans : spans ⊆ spans')
    (hawaits : awaits' = false → awaits = false) : Keeps slotsOf start spans' awaits' m m' :=
  ⟨fun o ho hne => h.frame o ho fun sp hsp => hne sp (hspans hsp), fun hno => h.poll (hawaits hno)⟩

/-- The world is not in the state. -/
theorem Keeps.world (w : World R) : Keeps slotsOf start spans awaits m { m with world := w } :=
  ⟨fun _ _ _ => rfl, fun _ => rfl⟩

theorem Keeps.store {s : Slots} (hsp : sp ∈ spans) (hs : slotsOf sp = some s) {o : Nat}
    {word : Word}
    (ho : o = s.primary ∨ o = s.secondary ∨ o = s.index) :
    Keeps slotsOf start spans awaits m (m.store o word) := by
  refine ⟨fun o' _ hne => ?_, fun _ => rfl⟩
  have hne := hne sp hsp s hs
  apply Function.update_of_ne
  rintro rfl
  rcases ho with h | h | h
  · exact hne.1 h
  · exact hne.2.1 h
  · exact hne.2.2 h

/-- What a loop holds is there after a body with other loops. -/
theorem Keeps.loads (h : Keeps slotsOf start spans awaits m m') (hlaid : LaidOut slotsOf start)
    (hsp : sp ∉ spans) (hnone : slotsOf sp = none → awaits = false) (v : Ssa) :
    m'.loadForIterable (slotsOf sp) v = m.loadForIterable (slotsOf sp) v ∧
      m'.loadForSecondary (slotsOf sp) v = m.loadForSecondary (slotsOf sp) v ∧
      m'.loadForIndex (slotsOf sp) v = m.loadForIndex (slotsOf sp) v := by
  cases hslots : slotsOf sp with
  | none =>
    have hpoll := h.poll (hnone hslots)
    have hread : m'.read v = m.read v := by
      unfold Machine.read
      rw [hpoll]
    exact ⟨hread, hread, hread⟩
  | some s =>
    obtain ⟨hstart, hsecond, hindex⟩ := hlaid.shape sp s hslots
    have hkept : ∀ o, s.primary ≤ o → o ≤ s.primary + 16 → m'.frame o = m.frame o := by
      intro o hlow hhigh
      apply h.frame o (Nat.le_trans hstart hlow)
      intro sp' hsp' s' hs'
      obtain ⟨-, hsecond', hindex'⟩ := hlaid.shape sp' s' hs'
      have hne : sp ≠ sp' := fun heq => hsp (heq ▸ hsp')
      have hapart := hlaid.apart sp sp' s s' hne hslots hs'
      omega
    refine ⟨congrArg _ (hkept _ ?_ ?_), congrArg _ (hkept _ ?_ ?_),
      congrArg _ (hkept _ ?_ ?_)⟩ <;> omega

end keeps

/-! ## Following -/

/-- Code that ended, and the protocol that ended with it. -/
structure Ends (slotsOf : Span → Option Slots) (start : Nat) (spans : List Span) (awaits : Bool)
    (m : Machine R) (t : Machine R × Signal) (t' : World R × Signal) : Prop where
  world : t.1.world = t'.1
  signal : t.2 = t'.2
  keeps : Keeps slotsOf start spans awaits m t.1
  found : t.2 ≠ .lost
  inside : t.2 ≠ .exit .listIndex

/-- Code that told the same as the protocol, and ended with it. -/
def Agrees (slotsOf : Span → Option Slots) (start : Nat) (spans : List Span) (awaits : Bool)
    (m : Machine R) (o : Outcome (Machine R)) (o' : Outcome (World R)) : Prop :=
  o.1 = o'.1 ∧ Ends slotsOf start spans awaits m o.2 o'.2

/-- Compiled code that follows the protocol. -/
def Follows (slotsOf : Span → Option Slots) (start : Nat) (spans : List Span) (awaits : Bool)
    (f : Machine R → Outcome (Machine R)) (g : World R → Outcome (World R)) : Prop :=
  ∀ m, Agrees slotsOf start spans awaits m (f m) (g m.world)

section follows

variable {slotsOf : Span → Option Slots} {start : Nat} {spans spans' : List Span}
  {awaits awaits' : Bool}
  {m₀ m m' : Machine R} {sp : Span} {X X' : Type} {Q : X → X' → Prop}

/-- A body that ended alike, and what comes after it. -/
theorem turnOf_alike {o : Outcome (Machine R)} {o' : Outcome (World R)}
    (hagrees : Agrees slotsOf start spans awaits m o o')
    (hkept : ∀ m', Keeps slotsOf start spans awaits m m' → Keeps slotsOf start spans' awaits' m₀ m')
    {latch : Machine R → Turn Event X (Machine R × Signal)}
    {latch' : World R → Turn Event X' (World R × Signal)}
    (hlatch : ∀ m', Keeps slotsOf start spans awaits m m' →
      Alike Q (Ends slotsOf start spans' awaits' m₀) (latch m') (latch' m'.world)) :
    Alike Q (Ends slotsOf start spans' awaits' m₀) (turnOf o latch) (turnOf o' latch') := by
  obtain ⟨told, m', signal⟩ := o
  obtain ⟨told', w', signal'⟩ := o'
  obtain ⟨htold, hworld, hsignal, hkeeps, hfound, hinside⟩ := hagrees
  dsimp only at htold hworld hsignal hkeeps hfound hinside
  subst htold hworld hsignal
  cases signal with
  | next | cont => exact (hlatch m' hkeeps).telling told
  | brk => exact .leave ⟨rfl, rfl, hkept m' hkeeps, nofun, nofun⟩
  | ret | exit | more | lost => exact .leave ⟨rfl, rfl, hkept m' hkeeps, hfound, hinside⟩

end follows

/-! ## Loops -/

/-- What both loops find: the same value, and the iterator goes on as `P` says. -/
inductive Finds (P : Iter R → Prop) :
    Found R → Except Signal (World R × Iter R × Option Value) → Prop
  | error {signal : Signal} :
    signal ≠ .lost → signal ≠ .exit .listIndex → Finds P (.error signal) (.error signal)
  | none {w : World R} {it : Iter R} : Finds P (.ok (w, none)) (.ok (w, it, none))
  | some {w : World R} {it : Iter R} {v : Value} :
    P it → Finds P (.ok (w, some v)) (.ok (w, it, some v))

section loops

variable {index : MapIndex R} {slotsOf : Span → Option Slots} {start : Nat} {spans : List Span}
  {awaits : Bool} {m₀ m : Machine R} {sp : Span} {bind : Value → World R → Option (World R)}
  {body : Machine R → Outcome (Machine R)} {body' : World R → Outcome (World R)}

theorem bodyOf_alike {X : Type} {Q : X → World R × Iter R → Prop} {P : Iter R → Prop}
    {found : Found R}
    {it : Iter R} (hbody : Follows slotsOf start spans awaits body body')
    (hfinds : Finds P found (it.next index m.world))
    (hkeeps : Keeps slotsOf start (sp :: spans) awaits m₀ m)
    {latch : Machine R → Turn Event X (Machine R × Signal)}
    (hlatch : ∀ m' it', P it' → Keeps slotsOf start spans awaits m m' →
      Alike Q (Ends slotsOf start (sp :: spans) awaits m₀) (latch m') (.again [] (m'.world, it'))) :
    Alike Q (Ends slotsOf start (sp :: spans) awaits m₀) (bodyOf sp bind body m found latch)
      (protocolTurn index sp bind body' (m.world, it)) := by
  unfold bodyOf protocolTurn
  dsimp only
  generalize it.next index m.world = found' at hfinds
  cases hfinds with
  | error hfound hinside => exact .leave ⟨rfl, rfl, hkeeps, hfound, hinside⟩
  | none => exact .leave ⟨rfl, rfl, hkeeps.trans (.world _), nofun, nofun⟩
  | @some w it' v hnext =>
    dsimp only
    cases bind v w with
    | none => exact .leave ⟨rfl, rfl, hkeeps.trans (.world _), nofun, nofun⟩
    | some w' =>
      apply Alike.telling
      apply turnOf_alike (hbody { m with world := w' })
      · intro m' hm'
        have hbound : Keeps slotsOf start (sp :: spans) awaits m { m with world := w' } := .world w'
        exact hkeeps.trans (hbound.trans (hm'.mono (List.subset_cons_self _ _) id))
      · intro m' hm'
        have hbound : Keeps slotsOf start spans awaits m { m with world := w' } := .world w'
        exact hlatch m' it' hnext (hbound.trans hm')

/-- The index of a loop is stored where it is loaded, and the rest stays. -/
theorem stored_index (spans : List Span) (awaits : Bool) (hlaid : LaidOut slotsOf start)
    (m : Machine R)
    (iv v : Ssa) (i : Word) :
    (m.storeForIndex (slotsOf sp) iv i).1.world = m.world ∧
    Keeps slotsOf start (sp :: spans) awaits m (m.storeForIndex (slotsOf sp) iv i).1 ∧
    (m.storeForIndex (slotsOf sp) iv i).1.loadForIterable (slotsOf sp) v =
      m.loadForIterable (slotsOf sp) v ∧
    (m.storeForIndex (slotsOf sp) iv i).1.loadForSecondary (slotsOf sp) v =
      m.loadForSecondary (slotsOf sp) v ∧
    (m.storeForIndex (slotsOf sp) iv i).1.loadForIndex (slotsOf sp)
    (m.storeForIndex (slotsOf sp) iv i).2 =
      .ok i := by
  cases hslots : slotsOf sp with
  | none => exact ⟨rfl, .refl m, rfl, rfl, if_pos rfl⟩
  | some s =>
    obtain ⟨-, hsecond, hindex⟩ := hlaid.shape sp s hslots
    refine ⟨rfl, .store List.mem_cons_self hslots (.inr (.inr rfl)), ?_, ?_, ?_⟩
    · exact congrArg _ (Function.update_of_ne (by omega) _ _)
    · exact congrArg _ (Function.update_of_ne (by omega) _ _)
    · exact congrArg _ (Function.update_self _ _ _)

section index

variable {list map : Ssa} {second : Except Signal Word} {l : Word} {it : Word → Iter R}
  {item : Item R}

/-- A loop over the indices of a list, and the iterator with the same index. -/
structure Matches (slotsOf : Span → Option Slots) (start : Nat) (spans : List Span) (awaits : Bool)
    (m₀ : Machine R) (slots : Option Slots) (list map : Ssa) (second : Except Signal Word)
    (l : Word)
    (it : Word → Iter R) (s : Machine R × Ssa) (s' : World R × Iter R) : Prop where
  world : s.1.world = s'.1
  keeps : Keeps slotsOf start spans awaits m₀ s.1
  list : s.1.loadForIterable slots list = .ok l
  second : s.1.loadForSecondary slots map = second
  index : ∃ i, 0 ≤ i ∧ s.1.loadForIndex slots s.2 = .ok i ∧ s'.2 = it i

theorem indexLoop_alike (hlaid : LaidOut slotsOf start) (hsp : sp ∉ spans)
    (hnone : slotsOf sp = none → awaits = false)
    (hbody : Follows slotsOf start spans awaits body body')
    (hitem : ∀ m i, m.loadForSecondary (slotsOf sp) map = second → 0 ≤ i →
      Finds (· = it (i + 1))
        (if i < m.world.listSize l then (item m l i).map fun p => (p.1, some p.2)
          else .ok (m.world, none))
        ((it i).next index m.world))
    (n : Nat) {m : Machine R} {iv : Ssa} {w : World R} {it' : Iter R}
    (h : Matches slotsOf start (sp :: spans) awaits m₀ (slotsOf sp) list map second l it (m, iv)
      (w, it')) :
    Agrees slotsOf start (sp :: spans)
      awaits m₀ (indexLoop sp (slotsOf sp) bind body n list item m iv)
      (takeTurns (protocolTurn index sp bind body') (fun s => (s.1, .more)) n (w, it')) := by
  apply takeTurns_alike _ _ n h
  · rintro ⟨m, iv⟩ ⟨w, it'⟩ ⟨hworld, hkeeps, hlist, hsecond, i, hi, hindex, hit⟩
    dsimp only at hworld hkeeps hlist hsecond hindex hit
    subst hworld hit
    have hheader : header (slotsOf sp) list item m iv =
        if i < m.world.listSize l then (item m l i).map fun p => (p.1, some p.2)
        else .ok (m.world, none) := by
      unfold header
      rw [hindex, hlist]
      rfl
    dsimp only
    rw [hheader]
    apply bodyOf_alike hbody (hitem m i hsecond hi) hkeeps
    rintro m' it' rfl hm'
    obtain ⟨hlist', -, hindex'⟩ := hm'.loads hlaid hsp hnone list
    obtain ⟨-, hsecond', -⟩ := hm'.loads hlaid hsp hnone map
    obtain ⟨-, -, hindex'⟩ := hm'.loads hlaid hsp hnone iv
    unfold latch
    rw [hindex', hindex]
    obtain ⟨hworld, hstore, hlist'', -, hnext⟩ :=
      stored_index spans awaits hlaid m' iv list (i + 1)
    obtain ⟨-, -, -, hsecond'', -⟩ :=
      stored_index spans awaits hlaid m' iv map (i + 1)
    apply Alike.again
    refine ⟨hworld, ?_, ?_, ?_, i + 1, Int.le_add_one hi, hnext, rfl⟩
    · exact hkeeps.trans ((hm'.mono (List.subset_cons_self _ _) id).trans hstore)
    · exact hlist''.trans (hlist'.trans hlist)
    · exact hsecond''.trans (hsecond'.trans hsecond)
  · intro s s' hs
    exact ⟨hs.world, rfl, hs.keeps, nofun, nofun⟩

/-! ### The drivers -/

theorem listGet_inside {w : World R} {l i : Word} (hi : 0 ≤ i) (hlt : i < w.listSize l) :
    w.listGet l i = .ok ((w.lists l).getD i.toNat 0) := by
  unfold World.listGet
  apply if_neg
  rintro (hneg | hle)
  · exact Int.not_le.mpr hneg hi
  · exact Int.not_le.mpr hlt hle

/-- The item of a list, and `next` of an iterator over it. -/
theorem listItem_finds {m : Machine R} {i : Word} (hi : 0 ≤ i) :
    Finds (· = it (i + 1))
      (if i < m.world.listSize l then (listItem m l i).map fun p => (p.1, some p.2)
        else .ok (m.world, none))
      (nextOf m.world l i it) := by
  unfold nextOf listItem
  by_cases hlt : i < m.world.listSize l
  · rw [if_pos hlt, if_neg (Int.not_le.mpr hlt), listGet_inside hi hlt]
    exact .some rfl
  · rw [if_neg hlt, if_pos (Int.not_lt.mp hlt)]
    exact .none

theorem mapItem_finds {m : Machine R} {slots : Option Slots} {map : Ssa} {h i : Word} (hi : 0 ≤ i)
    (hmap : m.loadForSecondary slots map = .ok h) :
    Finds (· = .mapEntries h l (i + 1))
      (if i < m.world.listSize l then (mapItem index slots map m l i).map fun p => (p.1, some p.2)
        else .ok (m.world, none))
      ((Iter.mapEntries h l i).next index m.world) := by
  unfold Iter.next mapItem
  dsimp only
  by_cases hlt : i < m.world.listSize l
  · rw [if_pos hlt, if_neg (Int.not_le.mpr hlt), listGet_inside hi hlt, hmap]
    dsimp only [Bind.bind, Except.bind]
    cases index m.world h ((m.world.lists l).getD i.toNat 0) with
    | none => exact .error nofun nofun
    | some p => exact .some rfl
  · rw [if_neg hlt, if_pos (Int.not_lt.mp hlt)]
    exact .none

/-- A list in its slot, with the index 0. -/
theorem startIndex_matches {slots : Option Slots} (hlaid : LaidOut slotsOf start)
    (hslots : slotsOf sp = slots) (hkeeps : Keeps slotsOf start (sp :: spans) awaits m₀ m)
    (map : Ssa)
    (it : Word → Iter R) :
    Matches slotsOf start (sp :: spans) awaits m₀ slots (m.value l) map
      ((startIndex slots m l).loadForSecondary slots map) l it
      (startIndex slots m l, m.value 0) (m.world, it 0) := by
  cases slots with
  | none => exact ⟨rfl, hkeeps, if_pos rfl, rfl, 0, Int.le_refl 0, if_pos rfl, rfl⟩
  | some s =>
    obtain ⟨-, -, hindex⟩ := hlaid.shape sp s hslots
    have hmem : sp ∈ sp :: spans := List.mem_cons_self
    refine ⟨rfl, ?_, ?_, rfl, 0, Int.le_refl 0, congrArg _ (Function.update_self _ _ _), rfl⟩
    · have hlist : Keeps slotsOf start (sp :: spans) awaits m (m.store s.primary l) :=
        .store hmem hslots (.inl rfl)
      exact (hkeeps.trans hlist).trans (.store hmem hslots (.inr (.inr rfl)))
    · refine congrArg _ ((Function.update_of_ne (by omega) _ _).trans ?_)
      exact Function.update_self _ _ _

/-- The keys and the map in their slots, with the index 0. -/
theorem startMap_matches {slots : Option Slots} (hlaid : LaidOut slotsOf start)
    (hslots : slotsOf sp = slots) (hkeeps : Keeps slotsOf start (sp :: spans) awaits m₀ m)
    (h : Word)
    (it : Word → Iter R) :
    Matches slotsOf start (sp :: spans) awaits m₀ slots (m.value l) (m.value h) (.ok h) l it
      (startMap slots m l h, m.value 0) (m.world, it 0) := by
  cases slots with
  | none => exact ⟨rfl, hkeeps, if_pos rfl, if_pos rfl, 0, Int.le_refl 0, if_pos rfl, rfl⟩
  | some s =>
    obtain ⟨-, hsecond, hindex⟩ := hlaid.shape sp s hslots
    have hmem : sp ∈ sp :: spans := List.mem_cons_self
    refine ⟨rfl, ?_, ?_, ?_, 0, Int.le_refl 0, congrArg _ (Function.update_self _ _ _), rfl⟩
    · have hlist : Keeps slotsOf start (sp :: spans) awaits m (m.store s.primary l) :=
        .store hmem hslots (.inl rfl)
      have hmap : Keeps slotsOf start (sp :: spans) awaits (m.store s.primary l)
          ((m.store s.primary l).store s.secondary h) := .store hmem hslots (.inr (.inl rfl))
      exact ((hkeeps.trans hlist).trans hmap).trans (.store hmem hslots (.inr (.inr rfl)))
    · refine congrArg _ ((Function.update_of_ne (by omega) _ _).trans ?_)
      refine (Function.update_of_ne (by omega) _ _).trans ?_
      exact Function.update_self _ _ _
    · refine congrArg _ ((Function.update_of_ne (by omega) _ _).trans ?_)
      exact Function.update_self _ _ _

theorem listLoop_follows (hlaid : LaidOut slotsOf start) (hsp : sp ∉ spans)
    (hnone : slotsOf sp = none → awaits = false)
    (hbody : Follows slotsOf start spans awaits body body')
    (hnext : ∀ w i, (it i).next index w = nextOf w l i it) (n : Nat)
    (hkeeps : Keeps slotsOf start (sp :: spans) awaits m₀ m) :
    Agrees slotsOf start (sp :: spans) awaits m₀
      (indexLoop sp (slotsOf sp) bind body n (m.value l) listItem (startIndex (slotsOf sp) m l)
        (m.value 0))
      (takeTurns (protocolTurn index sp bind body') (fun s => (s.1, .more)) n (m.world, it 0)) := by
  apply indexLoop_alike hlaid hsp hnone hbody _ n
    (startIndex_matches hlaid rfl hkeeps (m.value 0) it)
  intro m i _ hi
  rw [hnext]
  exact listItem_finds hi

theorem mapLoop_follows (hlaid : LaidOut slotsOf start) (hsp : sp ∉ spans)
    (hnone : slotsOf sp = none → awaits = false)
    (hbody : Follows slotsOf start spans awaits body body')
    (n : Nat) (h : Word) (hkeeps : Keeps slotsOf start (sp :: spans) awaits m₀ m) :
    Agrees slotsOf start (sp :: spans) awaits m₀
      (indexLoop sp (slotsOf sp) bind body n (m.value l) (mapItem index (slotsOf sp) (m.value h))
        (startMap (slotsOf sp) m l h) (m.value 0))
      (takeTurns (protocolTurn index sp bind body') (fun s => (s.1, .more)) n
        (m.world, .mapEntries h l 0)) := by
  apply indexLoop_alike hlaid hsp hnone hbody _ n
    (startMap_matches hlaid rfl hkeeps h (fun i => .mapEntries h l i))
  intro m i hmap hi
  exact mapItem_finds hi hmap

end index

/-- A loop that calls `next` holds the iterator. -/
structure Keeping (slotsOf : Span → Option Slots) (start : Nat) (spans : List Span) (awaits : Bool)
    (m₀ : Machine R) (slots : Option Slots) (held : Ssa) (it : Iter R) (object : Word)
    (m : Machine R)
    (s : World R × Iter R) : Prop where
  world : m.world = s.1
  keeps : Keeps slotsOf start spans awaits m₀ m
  load : m.loadForIterable slots held = .ok object
  iter : s.2 = it

theorem startObject_keeping {slots : Option Slots} (hslots : slotsOf sp = slots) (it : Iter R)
    (object : Word) :
    Keeping slotsOf start (sp :: spans) awaits m slots (m.value object) it object
      (startObject slots m object) (m.world, it) := by
  cases slots with
  | none => exact ⟨rfl, .refl m, if_pos rfl, rfl⟩
  | some s =>
    refine ⟨rfl, .store List.mem_cons_self hslots (.inl rfl), ?_, rfl⟩
    exact congrArg _ (Function.update_self _ _ _)

theorem iterLoop_follows (hlaid : LaidOut slotsOf start) (hsp : sp ∉ spans)
    (hnone : slotsOf sp = none → awaits = false)
    (hbody : Follows slotsOf start spans awaits body body')
    (next : World R → Word → Option (World R × Option Value)) (n : Nat) (object : Word) :
    Agrees slotsOf start (sp :: spans) awaits m
      (hForIterator sp (slotsOf sp) bind body next n m object)
      (takeTurns (protocolTurn index sp bind body') (fun s => (s.1, .more)) n
        (m.world, .object next object)) := by
  have hstart : Keeping slotsOf start (sp :: spans) awaits m (slotsOf sp) (m.value object)
      (.object next object) object (startObject (slotsOf sp) m object)
      (m.world, .object next object) :=
    startObject_keeping rfl _ object
  apply takeTurns_alike _ _ n hstart
  · rintro m' ⟨w, it⟩ ⟨hworld, hkeeps, hobject, hit⟩
    dsimp only at hworld hit
    subst hworld hit
    apply bodyOf_alike (P := (· = .object next object)) hbody _ hkeeps
    · rintro m'' it rfl hm''
      obtain ⟨hobject', -, -⟩ := hm''.loads hlaid hsp hnone (m.value object)
      apply Alike.again
      refine ⟨rfl, hkeeps.trans (hm''.mono (List.subset_cons_self _ _) id), ?_, rfl⟩
      exact hobject'.trans hobject
    · unfold callNext Iter.next
      rw [hobject]
      dsimp only [Bind.bind, Except.bind]
      cases next m'.world object with
      | none => exact .error nofun nofun
      | some found =>
        obtain ⟨w, item⟩ := found
        cases item with
        | none => exact .none
        | some v => exact .some rfl
  · intro m' s hs
    exact ⟨hs.world, rfl, hs.keeps, nofun, nofun⟩

theorem hFor_follows (index : MapIndex R) (bind : Value → World R → Option (World R))
    (m : Machine R)
    (hlaid : LaidOut slotsOf start) (hsp : sp ∉ spans)
    (hnone : slotsOf sp = none → awaits = false)
    (hbody : Follows slotsOf start spans awaits body body')
    (driver : ForDriver R) (n : Nat) (iterable : Word) :
    Agrees slotsOf start (sp :: spans) awaits m
      (hFor index sp (slotsOf sp) bind body driver n m iterable)
      (takeTurns (protocolTurn index sp bind body') (fun s => (s.1, .more)) n
        (driver.iterOf m.world iterable)) := by
  cases driver with
  | listFast => exact listLoop_follows hlaid hsp hnone hbody (fun _ _ => rfl) n (.refl m)
  | strChars => exact listLoop_follows hlaid hsp hnone hbody (fun _ _ => rfl) n (.world _)
  | map => exact mapLoop_follows hlaid hsp hnone hbody n iterable (.world _)
  | iter next => exact iterLoop_follows hlaid hsp hnone hbody next n iterable

end loops

/-! ## Code -/

section code

variable {slotsOf : Span → Option Slots} {start : Nat} {spans : List Span} {awaits : Bool}
  {m : Machine R}

theorem Agrees.mono {spans' : List Span} {awaits' : Bool} {o : Outcome (Machine R)}
    {o' : Outcome (World R)} (h : Agrees slotsOf start spans awaits m o o')
    (hspans : spans ⊆ spans')
    (hawaits : awaits' = false → awaits = false) : Agrees slotsOf start spans' awaits' m o o' :=
  ⟨h.1, h.2.world, h.2.signal, h.2.keeps.mono hspans hawaits, h.2.found, h.2.inside⟩

theorem Agrees.andThen {o : Outcome (Machine R)} {o' : Outcome (World R)}
    (h : Agrees slotsOf start spans awaits m o o') {k : Machine R → Outcome (Machine R)}
    {k' : World R → Outcome (World R)} (hk : Follows slotsOf start spans awaits k k') :
    Agrees slotsOf start spans awaits m (o.andThen k) (o'.andThen k') := by
  obtain ⟨told, m', signal⟩ := o
  obtain ⟨told', w', signal'⟩ := o'
  obtain ⟨htold, hworld, hsignal, hkeeps, hfound, hinside⟩ := h
  dsimp only at htold hworld hsignal hkeeps hfound hinside
  subst htold hworld hsignal
  cases signal with
  | next =>
    obtain ⟨htold, hends⟩ := hk m'
    refine ⟨congrArg _ htold, hends.world, hends.signal, hkeeps.trans hends.keeps, hends.found,
      hends.inside⟩
  | _ => exact ⟨rfl, rfl, rfl, hkeeps, hfound, hinside⟩

/-- Every loop whose body has an `await` has slots. -/
def Ready (slotsOf : Span → Option Slots) (code : Code R) : Prop :=
  ∀ sp ∈ code.scanForState, (slotsOf sp).isSome

/-- Compiled code follows the protocol. -/
theorem Code.follows (index : MapIndex R) (hlaid : LaidOut slotsOf start) (n : Nat) (code : Code R)
    (hplaced : code.Placed) (hready : Ready slotsOf code) :
    Follows slotsOf start code.iterSpans code.hasAwait (code.exec index slotsOf start n)
      (code.run index n) := by
  induction code with
  | act f =>
    intro m
    unfold Code.exec Code.run
    cases f m.world with
    | none => exact ⟨rfl, rfl, rfl, .refl m, nofun, nofun⟩
    | some w => exact ⟨rfl, rfl, rfl, .world w, nofun, nofun⟩
  | await f =>
    intro m
    unfold Code.exec Code.run
    cases f m.world with
    | none => exact ⟨rfl, rfl, rfl, .refl m, nofun, nofun⟩
    | some r =>
      obtain ⟨w, saved⟩ := r
      cases saved with
      | none => exact ⟨rfl, rfl, rfl, .world w, nofun, nofun⟩
      | some saved =>
        refine ⟨rfl, rfl, rfl, ⟨fun o ho _ => if_neg (Nat.not_lt.mpr ho), nofun⟩, nofun, nofun⟩
  | seq a b iha ihb =>
    have ha := iha hplaced.1 fun sp hsp => hready sp (List.mem_append_left _ hsp)
    have hb := ihb hplaced.2 fun sp hsp => hready sp (List.mem_append_right _ hsp)
    intro m
    unfold Code.exec Code.run
    apply Agrees.andThen
    · apply (ha m).mono (List.subset_append_left _ _)
      exact fun hno => (Bool.or_eq_false_iff.mp hno).1
    · intro m'
      apply (hb m').mono (List.subset_append_right _ _)
      exact fun hno => (Bool.or_eq_false_iff.mp hno).2
  | branch cond a b iha ihb =>
    have ha := iha hplaced.1 fun sp hsp => hready sp (List.mem_append_left _ hsp)
    have hb := ihb hplaced.2 fun sp hsp => hready sp (List.mem_append_right _ hsp)
    intro m
    unfold Code.exec Code.run
    cases cond m.world with
    | true =>
      apply (ha m).mono (List.subset_append_left _ _)
      exact fun hno => (Bool.or_eq_false_iff.mp hno).1
    | false =>
      apply (hb m).mono (List.subset_append_right _ _)
      exact fun hno => (Bool.or_eq_false_iff.mp hno).2
  | loop body ih =>
    have hbody := ih hplaced hready
    intro m
    unfold Code.exec Code.run
    have hstart : m.world = m.world ∧ Keeps slotsOf start body.iterSpans body.hasAwait m m :=
      ⟨rfl, .refl m⟩
    refine takeTurns_alike (R := fun m' w => m'.world = w ∧
      Keeps slotsOf start body.iterSpans body.hasAwait m m') ?_ ?_ n hstart
    · rintro m' w ⟨rfl, hkeeps⟩
      apply turnOf_alike (hbody m')
      · exact fun m'' hm'' => hkeeps.trans hm''
      · exact fun m'' hm'' => .again ⟨rfl, hkeeps.trans hm''⟩
    · rintro m' w ⟨hworld, hkeeps⟩
      exact ⟨hworld, rfl, hkeeps, nofun, nofun⟩
  | brk | cont | ret => exact fun m => ⟨rfl, rfl, rfl, .refl m, nofun, nofun⟩
  | forIn sp iter driver bind body ih =>
    obtain ⟨hsp, hplaced⟩ := hplaced
    have hnone : slotsOf sp = none → body.hasAwait = false := by
      intro hslots
      by_contra hawait
      have hmem : sp ∈ (Code.forIn sp iter driver bind body).scanForState := by
        unfold Code.scanForState
        rw [if_pos (by simpa using hawait)]
        exact List.mem_cons_self
      have hsome := hready sp hmem
      rw [hslots] at hsome
      cases hsome
    have hbody := ih hplaced fun sp' hsp' => hready sp' (by
      unfold Code.scanForState
      split
      · exact List.mem_cons_of_mem _ hsp'
      · exact hsp')
    intro m
    unfold Code.exec Code.run
    cases iter m.world with
    | none => exact ⟨rfl, rfl, rfl, .refl m, nofun, nofun⟩
    | some r =>
      obtain ⟨w, iterable⟩ := r
      have hworld :
          Keeps slotsOf start (sp :: body.iterSpans) body.hasAwait m { m with world := w } :=
        .world w
      obtain ⟨htold, hends⟩ := hFor_follows index bind { m with world := w } hlaid hsp hnone hbody
        driver n iterable
      exact ⟨htold, hends.world, hends.signal, hworld.trans hends.keeps, hends.found, hends.inside⟩

end code

/-- The slots of a function are laid out, and every loop that needs some has some. -/
theorem Body.laidOut (b : Body R) : LaidOut b.forAsyncSlots (loopsStart b.locals) := by
  unfold Body.forAsyncSlots
  cases b.isAsync with
  | true => exact (asyncStateLayout_laid b.locals b.code).toLaidOut
  | false => exact laidOut_none _

/-- Without an `await` no loop needs slots. -/
theorem Code.scanForState_nil (code : Code R) (h : code.hasAwait = false) :
    code.scanForState = [] := by
  induction code with
  | seq a b iha ihb | branch cond a b iha ihb =>
    obtain ⟨ha, hb⟩ := Bool.or_eq_false_iff.mp h
    unfold Code.scanForState
    rw [iha ha, ihb hb]
    rfl
  | loop body ih => exact ih h
  | forIn sp iter driver bind body ih =>
    unfold Code.scanForState
    rw [if_neg (by simpa [Code.hasAwait] using h)]
    exact ih h
  | _ => rfl

theorem Body.ready (b : Body R) : Ready b.forAsyncSlots b.code := by
  intro sp hsp
  unfold Body.forAsyncSlots
  cases hasync : b.isAsync with
  | true => exact (fold_isSome b.code.scanForState).mpr (.inl hsp)
  | false =>
    have hno : b.code.hasAwait = false := by
      apply Bool.eq_false_iff.mpr
      intro hawait
      have htrue := b.async_of_await hawait
      rw [hasync] at htrue
      cases htrue
    rw [b.code.scanForState_nil hno] at hsp
    cases hsp

/-- A compiled body binds the values that `next` gives, its loops end where the iterators are done,
and no item outside of a list is read: every body, every world, any number of turns. -/
theorem loops_agree_with_next (b : Body R) (index : MapIndex R) (n : Nat) (m : Machine R) :
    (b.exec index n m).1 = (b.run index n m.world).1 ∧
    (b.exec index n m).2.1.world = (b.run index n m.world).2.1 ∧
    (b.exec index n m).2.2 = (b.run index n m.world).2.2 ∧
    (b.exec index n m).2.2 ≠ .lost ∧ (b.exec index n m).2.2 ≠ .exit .listIndex := by
  obtain ⟨htold, hends⟩ := b.code.follows index b.laidOut n b.placed b.ready m
  exact ⟨htold, hends.world, hends.signal, hends.found, hends.inside⟩

/-- The pattern is bound: the value joins the sum. -/
def addValue : Value → World Int → Option (World Int)
  | .elem raw, w | .entry raw _, w => some { w with rest := w.rest + raw }

/-- What other tasks do while the function is suspended. -/
def growList (w : World Int) : World Int :=
  if w.listSize 1 < 3 then { w with lists := Function.update w.lists 1 (w.lists 1 ++ [30]) } else w

def listSpan : Span := ⟨0, 1, 1⟩

def stringSpan : Span := ⟨2, 3, 2⟩

/-- An async function: a loop over a list, which awaits something and then goes through a string.
The list grows meanwhile, while it has fewer than three items. -/
def sampleBody : Body Int where
  code := .forIn listSpan (fun w => some (w, 1)) .listFast addValue
    (.seq (.await fun w => some (growList w, some fun _ => 7))
      (.forIn stringSpan (fun w => some (w, 2)) .strChars addValue
        (.branch (fun w => 200 < w.rest) .brk .cont)))
  isAsync := true
  locals := 1
  async_of_await _ := rfl
  placed := ⟨by simp [Code.iterSpans, listSpan, stringSpan], trivial, by simp [Code.iterSpans],
    trivial, trivial⟩

/-- A list of two items and a string of two characters. -/
def sampleStart : Machine Int where
  world :=
    { lists := fun h => if h = 1 then [10, 20] else [], mapKeys := fun _ => []
      chars := fun h => if h = 2 then ['A', 'B'] else [], fresh := 3, rest := 0 }
  frame _ := 0
  poll := 0

/-- The compiled function is suspended three times, and goes on with the list that has grown. -/
theorem loops_agree_with_next_in_a_run :
    let o := sampleBody.exec (fun _ _ _ => none) 9 sampleStart
    let p := sampleBody.run (fun _ _ _ => none) 9 sampleStart.world
    o.2.1.poll = 3 ∧ o.1 = [.bound listSpan (.elem 10), .bound stringSpan (.elem 65),
      .bound stringSpan (.elem 66), .ended stringSpan, .bound listSpan (.elem 20),
      .bound stringSpan (.elem 65), .bound listSpan (.elem 30), .bound stringSpan (.elem 65),
      .ended listSpan] ∧
    o.1 = p.1 ∧ o.2.1.world = p.2.1 ∧ o.2.2 = p.2.2 ∧ o.2.2 ≠ .lost ∧ o.2.2 ≠ .exit .listIndex := by
  intro o p
  refine ⟨by decide, by decide, ?_⟩
  exact loops_agree_with_next sampleBody (fun _ _ _ => none) 9 sampleStart

end backend.forLoops
