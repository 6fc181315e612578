import PhraseGrammar.Proofs.Rule.Reference

/-!
# What a derivation is made of

The reference evaluation of a rule is read backwards here: from the derivation that it gives
to the derivations of the components.
-/

set_option autoImplicit false

namespace PhraseGrammar

namespace Rule

variable {opts : RegexOptions} {text : Bytes} {d : Derivation}

/-- A sequence is derived by deriving its components in a row. -/
theorem derive_sequence_eq_ok {n : Nat} {parts : List Rule}
    (h : derive opts (.compound n .sequence parts) text = .ok (.ok d)) :
    ∃ ds, deriveRow opts parts text = .ok (.ok ds) ∧ d = .row ds := by
  rw [derive] at h
  split at h
  · cases h
  · cases h
  · next ds hds =>
    cases h
    exact ⟨ds, hds, rfl⟩

/-- An optional is derived by deriving its components in a row, and otherwise it is skipped. -/
theorem derive_optional_eq_ok {n : Nat} {parts : List Rule}
    (h : derive opts (.compound n .optional parts) text = .ok (.ok d)) :
    d = .skip ∨ ∃ ds, deriveRow opts parts text = .ok (.ok ds) ∧ d = .row ds := by
  rw [derive] at h
  split at h
  · cases h
  · cases h
    exact .inl rfl
  · next ds hds =>
    cases h
    exact .inr ⟨ds, hds, rfl⟩

/-- Components are derived in a row by deriving the first one, and the others on the text that it
leaves. -/
theorem deriveRow_cons_eq_ok {part : Rule} {parts : List Rule} {ds : List Derivation}
    (h : deriveRow opts (part :: parts) text = .ok (.ok ds)) :
    ∃ d rest, derive opts part text = .ok (.ok d) ∧
      deriveRow opts parts (text.drop d.text.length) = .ok (.ok rest) ∧ ds = d :: rest := by
  rw [deriveRow] at h
  split at h
  · cases h
  · cases h
  · next d hd =>
    obtain ⟨attempt, hrest, hprepend⟩ := exists_of_map_eq_ok h
    cases attempt with
    | error mm => cases hprepend
    | ok rest =>
      cases hprepend
      exact ⟨d, rest, hd, hrest, rfl⟩

/-- The alternative that is derived is one of those tried, and its index counts from the index of
the first of them. -/
theorem deriveFirst_eq_ok {parts : List Rule} {i : Nat} {failures : List Mismatch}
    (h : deriveFirst opts parts text i failures = .ok (.ok d)) :
    ∃ before part after inner, parts = before ++ part :: after ∧
      derive opts part text = .ok (.ok inner) ∧ d = .choice (i + before.length) inner := by
  induction parts generalizing i failures with
  | nil =>
    rw [deriveFirst] at h
    obtain ⟨mm, -, hfailed⟩ := exists_of_map_eq_ok h
    cases hfailed
  | cons first rest ih =>
    rw [deriveFirst] at h
    split at h
    · cases h
    · -- The first one has failed, so that the index counts from the one after it.
      obtain ⟨before, part, after, inner, hparts, hinner, hd⟩ := ih h
      refine ⟨first :: before, part, after, inner, ?_, hinner, ?_⟩
      · rw [hparts, List.cons_append]
      · rw [hd, List.length_cons, Nat.add_assoc, Nat.add_comm 1]
    · next inner hinner =>
      cases h
      exact ⟨[], first, rest, inner, rfl, hinner, rfl⟩

/-- A choice is derived by deriving one of its alternatives, whose index is noted. -/
theorem derive_choice_eq_ok {n : Nat} {parts : List Rule}
    (h : derive opts (.compound n .choice parts) text = .ok (.ok d)) :
    ∃ before part after inner, parts = before ++ part :: after ∧
      derive opts part text = .ok (.ok inner) ∧ d = .choice before.length inner := by
  rw [derive] at h
  obtain ⟨before, part, after, inner, hparts, hinner, hd⟩ := deriveFirst_eq_ok h
  rw [Nat.zero_add] at hd
  exact ⟨before, part, after, inner, hparts, hinner, hd⟩

end Rule

end PhraseGrammar
