import PhraseGrammar.Layout.Placement
import PhraseGrammar.NameTable

/-!
# Layouts

The layout of a rule says which names its matches declare, by which rules, and
where each of its components puts its tokens.

A named component contributes its own name. An unnamed one contributes all names
that its own layout declares, so that the names of nested unnamed rules belong to
the nearest rule around them that is named or is the root. In a sequence or an
optional, all declarations of one name have to be by the same rule, since they
may all be present in one match. The components of a choice exclude each other, so
there any declarations of a name are put one after the other.
-/

set_option autoImplicit false

namespace PhraseGrammar

/-- The names that a rule declares, with the declaring rules in order, and the
placements of its components. -/
structure Layout where
  declared : NameTable (List Rule)
  placements : List Placement

namespace Layout

/-- The layout of a rule without components. -/
def empty : Layout :=
  ⟨[], []⟩

/-- Slots for all declarations, with nothing in them. -/
def emptySlots (layout : Layout) : Slots :=
  layout.declared.map fun (name, rules) => (name, List.replicate rules.length none)

/-- The declarations that a component contributes to the rule around it, where
`layout` is its own layout. -/
def contribution (names : Naming) (component : Rule) (layout : Layout) : NameTable (List Rule) :=
  match names.name? component with
  | some name => [(name, [component])]
  | none => layout.declared

/-- Whether the first of the declarations of a name is by the same rule as each of them. -/
def sameDeclarer : List Rule → Bool
  | [] => true
  | r :: rs => rs.all (·.number == r.number)

/-- Whether more declarations of a name may be added to those present in `owner`. -/
def mayDeclare (owner : Rule) (present added : List Rule) : Bool :=
  present.isEmpty || owner.isChoice || sameDeclarer (present ++ added)

/-- Adds the declarations of one component. Gives all declarations, and for each
added name the number of declarations before it. -/
def addDeclarations (owner : Rule) :
    NameTable (List Rule) → NameTable (List Rule) →
      Except Fault (NameTable (List Rule) × List (Bytes × Nat))
  | declared, [] => .ok (declared, [])
  | declared, (name, added) :: rest =>
    let present := (declared.lookup name).getD []
    if mayDeclare owner present added then
      match addDeclarations owner (declared.insert name (present ++ added)) rest with
      | .ok (all, offsets) => .ok (all, (name, present.length) :: offsets)
      | .error fault => .error fault
    else .error (.tokenRedefined name owner)

/-- Adds a component, whose own layout is `inner`, to the layout of `owner`. -/
def addComponent (layout : Layout) (names : Naming) (owner component : Rule) (inner : Layout) :
    Except Fault Layout :=
  match addDeclarations owner layout.declared (contribution names component inner) with
  | .ok (declared, offsets) =>
    .ok ⟨declared, layout.placements ++ [⟨names.name? component, offsets⟩]⟩
  | .error fault => .error fault

end Layout

end PhraseGrammar
