import PhraseGrammar.Rule.Authoring
import PhraseGrammar.Proofs.Pattern.Expressions
import PhraseGrammar.Proofs.Regex.Soundness
import PhraseGrammar.Proofs.Rule.Reference

/-!
# Evaluating a rule is never refused

The reference evaluation of a rule asks for two things only: that expressions of leaves
have no sequences without parts, and that choices have alternatives. All ways to make a
rule see to them. So a rule that is made in these ways, from rules that were, gives a
derivation or a mismatch for every text.
-/

set_option autoImplicit false

namespace PhraseGrammar

namespace Rule

/-- The expression of a leaf has no sequence without parts, and a choice has alternatives. -/
def IsProper : Rule → Prop
  | leaf _ _ regex => regex.isProper = true
  | compound _ .choice parts => parts ≠ []
  | compound _ .sequence _ => True
  | compound _ .optional _ => True

instance : (r : Rule) → Decidable r.IsProper
  | .leaf _ _ regex => inferInstanceAs (Decidable (regex.isProper = true))
  | .compound _ .choice parts => inferInstanceAs (Decidable (parts ≠ []))
  | .compound _ .sequence _ => .isTrue trivial
  | .compound _ .optional _ => .isTrue trivial

theorem isProper_literal (n : Nat) (text : Bytes) : (literal n text).IsProper :=
  rfl

/-- A rule made from a pattern is proper, since no accepted pattern has a sequence without parts. -/
theorem isProper_of_pattern {n : Nat} {source : Bytes} {r : Rule} (h : pattern n source = .ok r) :
    r.IsProper := by
  unfold pattern at h
  simp only at h
  split at h
  · next regex hregex =>
    cases h
    exact Pattern.isProper_of_read hregex
  · split at h
    · cases h
    · cases h

theorem allPresent_ne_nil {parts : List (Option Rule)} {rs : List Rule}
    (h : allPresent parts = .ok rs) (hparts : parts ≠ []) : rs ≠ [] := by
  cases parts with
  | nil => exact absurd rfl hparts
  | cons part parts =>
    cases part with
    | none => cases h
    | some first =>
      obtain ⟨rest, -, rfl⟩ := exists_of_map_eq_ok h
      exact List.cons_ne_nil first rest

/-- A combined rule is proper, since a choice without components is refused. -/
theorem isProper_of_combine {n : Nat} {combinator : Combinator} {parts : List (Option Rule)}
    {r : Rule} (h : combine n combinator parts = .ok r) : r.IsProper := by
  unfold combine at h
  split at h
  · cases h
  · next hparts =>
    obtain ⟨rs, hpresent, rfl⟩ := exists_of_map_eq_ok h
    cases combinator with
    | sequence => trivial
    | optional => trivial
    | choice => exact allPresent_ne_nil hpresent fun hnil => hparts ⟨rfl, hnil⟩

/-- All rules at or below a rule are proper. -/
def IsProperThroughout (r : Rule) : Prop :=
  ∀ s ∈ r.subrules, s.IsProper

instance (r : Rule) : Decidable r.IsProperThroughout :=
  inferInstanceAs (Decidable (∀ s ∈ r.subrules, s.IsProper))

theorem IsProperThroughout.parts {n : Nat} {combinator : Combinator} {parts : List Rule}
    (h : (compound n combinator parts).IsProperThroughout) :
    ∀ part ∈ parts, part.IsProperThroughout :=
  fun _ hpart s hs => h s (mem_subrules_of_mem_parts hpart hs)

/-- A leaf with a proper expression is never refused. -/
theorem exists_deriveLeaf {regex : Regex} (opts : RegexOptions) (source text : Bytes)
    (h : regex.isProper = true) : ∃ attempt, deriveLeaf opts source regex text = .ok attempt := by
  obtain ⟨result, hresult, -⟩ := Regex.exists_consume opts h (Nat.zero_le text.length)
  unfold deriveLeaf
  rw [hresult]
  cases result with
  | none => exact ⟨_, rfl⟩
  | some n => exact ⟨_, rfl⟩

/-- Of one or more mismatches there is a furthest one. -/
theorem exists_furthest {failures : List Mismatch} (h : failures ≠ []) :
    ∃ mm, Mismatch.furthest failures = .ok mm := by
  cases failures with
  | nil => exact absurd rfl h
  | cons mm rest => exact ⟨_, rfl⟩

mutual

/-- Every text has a derivation or a mismatch under a rule that is proper throughout. -/
theorem exists_derive (opts : RegexOptions) : (r : Rule) → r.IsProperThroughout →
    (text : Bytes) → ∃ attempt, derive opts r text = .ok attempt
  | .leaf n source regex, h, text => by
    rw [derive]
    exact exists_deriveLeaf opts source text (h _ (mem_subrules_self _))
  | .compound n .sequence parts, h, text => by
    obtain ⟨attempt, hattempt⟩ := exists_deriveRow opts parts h.parts text
    rw [derive, hattempt]
    cases attempt with
    | error mm => exact ⟨_, rfl⟩
    | ok ds => exact ⟨_, rfl⟩
  | .compound n .optional parts, h, text => by
    obtain ⟨attempt, hattempt⟩ := exists_deriveRow opts parts h.parts text
    rw [derive, hattempt]
    cases attempt with
    | error mm => exact ⟨_, rfl⟩
    | ok ds => exact ⟨_, rfl⟩
  | .compound n .choice parts, h, text => by
    have halternatives : parts ≠ [] := h _ (mem_subrules_self _)
    rw [derive]
    exact exists_deriveFirst opts parts h.parts text 0 [] (.inl halternatives)

/-- Components that are proper throughout are never refused in a row. -/
theorem exists_deriveRow (opts : RegexOptions) : (parts : List Rule) →
    (∀ part ∈ parts, part.IsProperThroughout) → (text : Bytes) →
    ∃ attempt, deriveRow opts parts text = .ok attempt
  | [], _, _ => ⟨_, rfl⟩
  | part :: parts, h, text => by
    obtain ⟨hpart, hparts⟩ := List.forall_mem_cons.1 h
    obtain ⟨attempt, hattempt⟩ := exists_derive opts part hpart text
    rw [deriveRow, hattempt]
    cases attempt with
    | error mm => exact ⟨_, rfl⟩
    | ok d =>
      obtain ⟨rest, hrest⟩ := exists_deriveRow opts parts hparts (text.drop d.text.length)
      simp only [hrest]
      exact ⟨_, rfl⟩

/-- Either there is a mismatch before, or a rule that can give one. -/
theorem exists_deriveFirst (opts : RegexOptions) : (parts : List Rule) →
    (∀ part ∈ parts, part.IsProperThroughout) → (text : Bytes) → (i : Nat) →
    (failures : List Mismatch) → parts ≠ [] ∨ failures ≠ [] →
    ∃ attempt, deriveFirst opts parts text i failures = .ok attempt
  | [], _, _, _, failures, hsome => by
    obtain ⟨mm, hmm⟩ := exists_furthest (hsome.resolve_left fun hne => hne rfl)
    rw [deriveFirst, hmm]
    exact ⟨_, rfl⟩
  | part :: parts, h, text, i, failures, _ => by
    obtain ⟨hpart, hparts⟩ := List.forall_mem_cons.1 h
    obtain ⟨attempt, hattempt⟩ := exists_derive opts part hpart text
    rw [deriveFirst, hattempt]
    cases attempt with
    | error mm =>
      have hfailed : failures ++ [mm] ≠ [] :=
        List.append_ne_nil_of_right_ne_nil _ (List.cons_ne_nil mm [])
      exact exists_deriveFirst opts parts hparts text (i + 1) _ (.inr hfailed)
    | ok d => exact ⟨_, rfl⟩

end

end Rule

end PhraseGrammar
