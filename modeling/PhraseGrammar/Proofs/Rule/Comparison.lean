import PhraseGrammar.Proofs.Rule.Declarations

/-!
# Comparing rules

Expressions and rules are trees whose nodes have lists of subtrees. They are compared node by node,
by `Regex.same` and `Rule.same`, and these comparisons decide equality. A rule has finitely many
rules at or below it, so that it can also be computed whether their numbers tell them apart, as
`Rule.Coherent` says.
-/

set_option autoImplicit false

namespace PhraseGrammar

namespace Regex

mutual

/-- Whether two expressions are the same tree. -/
def same : Regex → Regex → Bool
  | .set a, .set b => a = b
  | .literal a, .literal b => a = b
  | .anchor a, .anchor b => a = b
  | .concat as, .concat bs => sameAll as bs
  | .alternation as, .alternation bs => sameAll as bs
  | .repetition a, .repetition b => same a b
  | .optional a, .optional b => same a b
  | _, _ => false

/-- Whether two lists of expressions are the same, in the same order. -/
def sameAll : List Regex → List Regex → Bool
  | [], [] => true
  | r :: rs, s :: ss => same r s && sameAll rs ss
  | _, _ => false

end

mutual

/-- The comparison of expressions decides equality. -/
theorem same_iff : (r s : Regex) → (same r s = true ↔ r = s)
  | .set a, s => by cases s <;> simp [same]
  | .literal a, s => by cases s <;> simp [same]
  | .anchor a, s => by cases s <;> simp [same]
  | .concat parts, s => by cases s <;> simp [same, sameAll_iff]
  | .alternation parts, s => by cases s <;> simp [same, sameAll_iff]
  | .repetition part, s => by cases s <;> simp [same, same_iff]
  | .optional part, s => by cases s <;> simp [same, same_iff]

/-- The comparison of lists of expressions decides equality. -/
theorem sameAll_iff : (rs ss : List Regex) → (sameAll rs ss = true ↔ rs = ss)
  | [], ss => by cases ss <;> simp [sameAll]
  | r :: rs, ss => by cases ss <;> simp [sameAll, same_iff, sameAll_iff]

end

instance : DecidableEq Regex :=
  fun r s => decidable_of_iff (same r s = true) (same_iff r s)

end Regex

namespace Rule

mutual

/-- Whether two rules are the same tree with the same numbers. -/
def same : Rule → Rule → Bool
  | .leaf n source regex, .leaf n' source' regex' => n = n' ∧ source = source' ∧ regex = regex'
  | .compound n combinator parts, .compound n' combinator' parts' =>
    n = n' && combinator = combinator' && sameAll parts parts'
  | _, _ => false

/-- Whether two lists of rules are the same, in the same order. -/
def sameAll : List Rule → List Rule → Bool
  | [], [] => true
  | r :: rs, s :: ss => same r s && sameAll rs ss
  | _, _ => false

end

mutual

/-- The comparison of rules decides equality. -/
theorem same_iff : (r s : Rule) → (same r s = true ↔ r = s)
  | .leaf n source regex, s => by cases s <;> simp [same]
  | .compound n combinator parts, s => by cases s <;> simp [same, sameAll_iff, and_assoc]

/-- The comparison of lists of rules decides equality. -/
theorem sameAll_iff : (rs ss : List Rule) → (sameAll rs ss = true ↔ rs = ss)
  | [], ss => by cases ss <;> simp [sameAll]
  | r :: rs, ss => by cases ss <;> simp [sameAll, same_iff, sameAll_iff]

end

instance : DecidableEq Rule :=
  fun r s => decidable_of_iff (same r s = true) (same_iff r s)

-- Two rules are compared only if they have the same number.
instance (root : Rule) : Decidable root.Coherent :=
  inferInstanceAs
    (Decidable (∀ r ∈ root.subrules, ∀ s ∈ root.subrules, r.number = s.number → r = s))

end Rule

end PhraseGrammar
