-- The uses that stay in the modules of a program: which attributes the pass over the items takes,
-- what the walk after it leaves, and what goes with the definitions of the macros at the end.
import OtterFusion.Macros.Walks

namespace macros

open base.rules
open compiler.ast (Span)
open compiler.syntax

/-! ## The uses of a module -/

section Uses

variable (user : String → Bool)

/-- What is in the arguments of the attributes that are taken. -/
def takenUses : List Attribute → List String
  | [] => []
  | .mk name args _ :: attrs =>
    (if user name then argsUses user true args else []) ++ takenUses attrs

/-- The uses in the attributes that are not taken. -/
def untakenUses : List Attribute → List String
  | [] => []
  | .mk name args _ :: attrs =>
    (if user name then [] else name :: argsUses user false args) ++ untakenUses attrs

/-- The uses that stay at an item that is no module. -/
def plainUses : Item → List String
  | .mk attrs isPublic kind =>
    takenUses user attrs ++
      if stripped (.mk attrs isPublic kind) then []
      else untakenUses user attrs ++ kindUses user true kind

mutual

/-- The uses that stay in the items of a module: the places that the expansion passes over. The
attributes of a module inside another are passed over, and what is stripped does not count. -/
def moduleUses : List Item → List String
  | [] => []
  | it :: items => topUses it ++ moduleUses items

def topUses : Item → List String
  | .mk attrs _ (.inlineModule _ items) => attrsUses user attrs ++ moduleUses items
  | it => plainUses user it

end

mutual

/-- The uses in a module after the first pass, but for what is stripped. -/
def keptUses (reached : Bool) : List Item → List String
  | [] => []
  | .mk attrs isPublic kind :: items =>
    (if stripped (.mk attrs isPublic kind) then []
      else attrsUses user attrs ++ keptKindUses reached kind) ++ keptUses reached items

def keptKindUses (reached : Bool) : ItemKind → List String
  | .inlineModule _ items => keptUses reached items
  | kind => kindUses user reached kind

end

theorem keptUses_append (reached : Bool) (l l' : List Item) :
    keptUses user reached (l ++ l') = keptUses user reached l ++ keptUses user reached l' := by
  induction l with
  | nil => rfl
  | cons it l ih =>
    obtain ⟨attrs, isPublic, kind⟩ := it
    simp only [List.cons_append, keptUses, ih, List.append_assoc]

theorem stripItems_append (l l' : List Item) :
    stripItems (l ++ l') = stripItems l ++ stripItems l' := by
  induction l with
  | nil => rfl
  | cons it l ih =>
    obtain ⟨attrs, isPublic, kind⟩ := it
    simp only [List.cons_append, stripItems, ih]
    split <;> rfl

theorem moduleUses_append (l l' : List Item) :
    moduleUses user (l ++ l') = moduleUses user l ++ moduleUses user l' := by
  induction l with
  | nil => rfl
  | cons it l ih => simp only [List.cons_append, moduleUses, ih, List.append_assoc]

mutual

/-- The uses that stripping leaves. -/
theorem itemsUses_stripItems : ∀ items : List Item,
    itemsUses user false (stripItems items) = keptUses user false items
  | [] => rfl
  | .mk attrs isPublic kind :: items => by
    simp only [stripItems, keptUses]
    by_cases h : stripped (.mk attrs isPublic kind) = true
    · simp only [h, if_true, List.nil_append]
      exact itemsUses_stripItems items
    · simp only [h, Bool.false_eq_true, if_false, itemsUses, itemUses, List.append_assoc]
      rw [itemsUses_stripItems items, kindUses_stripKind kind]

theorem kindUses_stripKind : ∀ kind : ItemKind,
    kindUses user false (stripKind kind) = keptKindUses user false kind
  | .inlineModule _ items => itemsUses_stripItems items
  | .var _ _ _ | .function _ | .struct _ _ _ _ _ | .interface _ _ _ _ | .typeAlias _ _ _
  | .externalModule _ | .extend _ _ _ _ | .externFunction _ | .externType _ | .externVar _ _
  | .importItem _ _ | .test _ _ _ => rfl

end

end Uses

/-! ## The pass over the items -/

/-- Whether the item is a module with its items inside. -/
def isModule : ItemKind → Bool
  | .inlineModule _ _ => true
  | _ => false

variable {W : Type} {user : String → Bool} {R : Rules (M W)}
  {S : List String → List String → Prop}

section Items

variable {decorate : Item → M W (List Item)}

mutual

theorem expandItem_agrees (hS : Placewise S) (hd : ∀ it, isModule it.kind = false →
      R.Holds (decorate it) fun out => S (plainUses user it) (keptUses user true out)) :
    ∀ it : Item, R.Holds (expandItem decorate it) fun out =>
      S (topUses user it) (keptUses user true out)
  | .mk attrs isPublic (.inlineModule name items) => by
    apply R.one (expandItems_agrees hS hd items)
    intro items' h
    have hs : stripped (.mk attrs isPublic (.inlineModule name items')) = false := rfl
    simp only [keptUses, hs, Bool.false_eq_true, if_false, List.append_nil]
    exact hS.append (hS.same _) h
  | .mk _ _ (.var _ _ _) | .mk _ _ (.function _) | .mk _ _ (.struct _ _ _ _ _)
  | .mk _ _ (.interface _ _ _ _) | .mk _ _ (.typeAlias _ _ _) | .mk _ _ (.externalModule _)
  | .mk _ _ (.extend _ _ _ _) | .mk _ _ (.externFunction _) | .mk _ _ (.externType _)
  | .mk _ _ (.externVar _ _) | .mk _ _ (.importItem _ _) | .mk _ _ (.test _ _ _) => hd _ rfl

/-- What the pass over the items of a module does to the uses in it. -/
theorem expandItems_agrees (hS : Placewise S) (hd : ∀ it, isModule it.kind = false →
      R.Holds (decorate it) fun out => S (plainUses user it) (keptUses user true out)) :
    ∀ items : List Item, R.Holds (expandItems decorate items) fun out =>
      S (moduleUses user items) (keptUses user true out)
  | [] => R.value (hS.same _)
  | it :: items => by
    apply R.two (expandItem_agrees hS hd it) (expandItems_agrees hS hd items)
    intro out out' h h'
    rw [keptUses_append]
    exact hS.append h h'

end

end Items

/-! ## The walk after it -/

section Walk

variable {expand : String → Span → List AttrArg → Option Block → M W Expr}
  (hS : WalkAgrees R S user expand)

include hS

mutual

theorem keptKind_walk : ∀ kind : ItemKind, R.Holds (walkKind user expand kind) fun kind' =>
    (∀ attrs isPublic, stripped (.mk attrs isPublic kind') = stripped (.mk attrs isPublic kind)) ∧
      S (keptKindUses user true kind) (keptKindUses user false kind')
  | .var _ _ e =>
    R.one (walkExpr_agrees hS e) fun _ h => ⟨fun _ _ => rfl, hS.append (hS.same _) h⟩
  | .function f => R.one (walkFunction_agrees hS f) fun _ h => ⟨fun _ _ => rfl, h⟩
  | .extend _ _ _ members =>
    R.one (walkMembers_agrees hS members) fun _ h =>
      ⟨fun _ _ => rfl, hS.append (hS.same _) h⟩
  | .interface _ _ _ members =>
    R.one (walkMembers_agrees hS members) fun _ h =>
      ⟨fun _ _ => rfl, hS.append (hS.same _) h⟩
  | .test _ _ b => R.one (walkBlock_agrees hS b) fun _ h => ⟨fun _ _ => rfl, h⟩
  | .inlineModule _ items => R.one (keptUses_walk items) fun _ h => ⟨fun _ _ => rfl, h⟩
  | .struct _ _ _ _ _ | .typeAlias _ _ _ | .externalModule _ | .externFunction _ | .externType _
  | .externVar _ _ | .importItem _ _ => R.value ⟨fun _ _ => rfl, hS.same _⟩

theorem keptItem_walk : ∀ it : Item, R.Holds (walkItem user expand it) fun it' =>
    S (keptUses user true [it]) (keptUses user false [it'])
  | .mk attrs isPublic kind => by
    apply R.one (keptKind_walk kind)
    rintro kind' ⟨hs, h⟩
    simp only [keptUses, hs, List.append_nil]
    by_cases hk : stripped (.mk attrs isPublic kind) = true
    · simp only [hk, if_true]
      exact hS.same _
    · simp only [hk, Bool.false_eq_true, if_false]
      exact hS.append (hS.same _) h

/-- What the walk through the bodies of a module does to the uses that are kept. -/
theorem keptUses_walk : ∀ items : List Item, R.Holds (walkItems user expand items) fun out =>
    S (keptUses user true items) (keptUses user false out)
  | [] => R.value (hS.same _)
  | it :: items => by
    apply R.two (keptItem_walk it) (keptUses_walk items)
    intro it' items' h h'
    rw [← List.singleton_append, ← List.singleton_append (x := it'), keptUses_append,
      keptUses_append]
    exact hS.append h h'

end

end Walk

/-! ## A whole program -/

theorem strip_items : ∀ p : Program, p.strip.items = stripItems p.items := by
  rintro ⟨root, externals⟩
  simp only [Program.items, Program.strip, stripItems_append, List.append_cancel_left_eq]
  induction externals with
  | nil => rfl
  | cons m ms ih =>
    rw [List.map_cons, List.flatMap_cons, List.flatMap_cons, stripItems_append, ih]

/-- A function that the rules follow on the items of a module, on those of a program. -/
theorem mapItems_agrees (hS : Placewise S) {f : List Item → M W (List Item)}
    {u v : List Item → List String} (hu : ∀ l l', u (l ++ l') = u l ++ u l')
    (hv : ∀ l l', v (l ++ l') = v l ++ v l')
    (hf : ∀ items, R.Holds (f items) fun out => S (u items) (v out)) (p : Program) :
    R.Holds (p.mapItems f) fun p' => S (u p.items) (v p'.items) := by
  obtain ⟨root₀, externals₀⟩ := p
  have hnil : S (u []) (v []) := by
    have hu' : u [] = [] := by simpa using hu [] []
    have hv' : v [] = [] := by simpa using hv [] []
    rw [hu', hv']
    exact hS.same _
  have hone : ∀ m ∈ externals₀,
      R.Holds (do return (m.1, ← f m.2) : M W (List String × List Item)) fun m' =>
        S (u m.2) (v m'.2) :=
    fun m _ => R.one (hf m.2) fun _ h => h
  apply R.two (hf root₀) (R.each externals₀ hone)
  intro root externals hr he
  simp only [Program.items, hu, hv]
  apply hS.append hr
  clear hone
  induction he with
  | nil => simpa using hnil
  | cons h _ ih =>
    simp only [List.flatMap_cons, hu, hv]
    exact hS.append h ih

/-- What both passes do to the uses of a program. -/
theorem expandProgram_agrees {jit : String → Option (Entry W)} {limit : Nat}
    (hS : Placewise S) (htrans : ∀ a b c, S a b → S b c → S a c)
    (hd : ∀ it, isModule it.kind = false →
      R.Holds (decorate jit user limit limit [] it) fun out =>
        S (plainUses user it) (keptUses user true out))
    (hc : CallsAgree R S user (expandCall jit user limit limit [])) (p : Program) :
    R.Holds (expandProgram jit user limit p) fun out =>
      S (moduleUses user p.items) (itemsUses user false out.strip.items) := by
  apply R.seq (mapItems_agrees hS (moduleUses_append user) (keptUses_append user true)
    (expandItems_agrees hS hd) p)
  intro p' h
  apply R.weaken (mapItems_agrees hS (keptUses_append user true) (keptUses_append user false)
    (keptUses_walk ⟨hS, hc⟩) p')
  intro out h'
  rw [strip_items, itemsUses_stripItems]
  exact htrans _ _ _ h h'

end macros
