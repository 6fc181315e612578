import PhraseGrammar.Regex.Basic

/-!
# Rules

A rule is a leaf, which matches a regular expression, or a combination of
component rules. Every rule carries the number that it was given when it was
made, and two occurrences with one number are the same rule: that is how a rule
is shared between several parents. What a rule is called is not part of the
rule; see `PhraseGrammar.Rule.Naming`.
-/

set_option autoImplicit false

namespace PhraseGrammar

/-- The ways to combine component rules. -/
inductive Combinator
  /-- The components, back to back. -/
  | sequence
  /-- The first component that matches. -/
  | choice
  /-- The components back to back, or nothing at all. -/
  | optional
  deriving DecidableEq, Repr

/-- The word for a combination in descriptions. -/
def Combinator.label : Combinator → Bytes
  | .sequence => ascii "ConcatRule"
  | .choice => ascii "OrRule"
  | .optional => ascii "OptionalRule"

/-- A rule with its number. The source of a leaf is what the author wrote; it is
only used in messages. -/
inductive Rule
  | leaf (number : Nat) (source : Bytes) (regex : Regex)
  | compound (number : Nat) (combinator : Combinator) (parts : List Rule)
  deriving Repr

namespace Rule

/-- The number that a rule was given when it was made. -/
def number : Rule → Nat
  | leaf n _ _ => n
  | compound n _ _ => n

/-- The components of a rule; a leaf has none. -/
def parts : Rule → List Rule
  | leaf _ _ _ => []
  | compound _ _ parts => parts

/-- Whether a rule is a choice between its components. -/
def isChoice : Rule → Bool
  | compound _ .choice _ => true
  | _ => false

/-- The word for a rule's shape in descriptions. -/
def label : Rule → Bytes
  | leaf _ _ _ => ascii "LeafRule"
  | compound _ combinator _ => combinator.label

mutual

/-- A rule and every rule below it, each before its components. A rule that is
shared is listed once for every path to it. -/
def subrules : Rule → List Rule
  | leaf n source regex => [leaf n source regex]
  | compound n combinator parts => compound n combinator parts :: subrulesOfAll parts

/-- The rules at or below the given ones, in order. -/
def subrulesOfAll : List Rule → List Rule
  | [] => []
  | r :: rs => subrules r ++ subrulesOfAll rs

end

/-- The rules at or below the given ones are those at or below one of them. -/
theorem subrulesOfAll_eq_flatMap (rs : List Rule) : subrulesOfAll rs = rs.flatMap subrules := by
  induction rs with
  | nil => rfl
  | cons r rs ih => simp [subrulesOfAll, ih]

/-- Every rule is among the rules at or below it. -/
theorem mem_subrules_self (r : Rule) : r ∈ r.subrules := by
  cases r <;> simp [subrules]

end Rule

end PhraseGrammar
