import PhraseGrammar.Layout.Basic

/-!
# Registries

A registry holds the layouts of a root rule and of every rule below it, as they
are when it is made. Names that are given later do not change it.

Rules are shared, so the layout of a rule is made once, where the rule is first
met on the way from the root: components from first to last, each with all that
is below it before the rule that it is a component of takes it up.
-/

set_option autoImplicit false

namespace PhraseGrammar

/-- Layouts by rule number. -/
abbrev LayoutTable := List (Nat × Layout)

namespace LayoutTable

mutual

/-- The layout of a rule, with the table to which the rule and all rules below it
have been added. It fails if one of them would declare a name by different rules
at once. -/
def addRule (names : Naming) : Rule → LayoutTable → Except Fault (Layout × LayoutTable)
  | .leaf n _ _, table =>
    match table.lookup n with
    | some layout => .ok (layout, table)
    | none => .ok (.empty, (n, .empty) :: table)
  | .compound n combinator parts, table =>
    match table.lookup n with
    | some layout => .ok (layout, table)
    | none =>
      match addParts names (.compound n combinator parts) parts .empty table with
      | .error fault => .error fault
      | .ok (layout, extended) => .ok (layout, (n, layout) :: extended)

/-- Adds the given components of `owner` to the table, and to the layout of `owner`. -/
def addParts (names : Naming) (owner : Rule) :
    List Rule → Layout → LayoutTable → Except Fault (Layout × LayoutTable)
  | [], layout, table => .ok (layout, table)
  | part :: parts, layout, table =>
    match addRule names part table with
    | .error fault => .error fault
    | .ok (inner, extended) =>
      match layout.addComponent names owner part inner with
      | .error fault => .error fault
      | .ok widened => addParts names owner parts widened extended

end

end LayoutTable

/-- The layouts of a root rule and of all rules below it. -/
structure Registry where
  root : Rule
  layouts : LayoutTable

namespace Registry

/-- The registry of a root rule under the given names. -/
def ofRoot (names : Naming) (root : Rule) : Except Fault Registry :=
  (LayoutTable.addRule names root []).map fun (_, layouts) => ⟨root, layouts⟩

/-- The layout of a rule, which has to be the root or below it. -/
def layout (registry : Registry) (r : Rule) : Except Fault Layout :=
  match registry.layouts.lookup r.number with
  | some layout => .ok layout
  | none => .error (.foreignRule r)

/-- The layout of the root. -/
def rootLayout (registry : Registry) : Except Fault Layout :=
  registry.layout registry.root

end Registry

end PhraseGrammar
