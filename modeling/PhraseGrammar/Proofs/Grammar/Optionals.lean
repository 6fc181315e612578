import PhraseGrammar.Proofs.Grammar.Regrouping
import PhraseGrammar.Proofs.Rule.Expansion

/-!
# Optionals are choices with the empty text

A grammar whose root has an optional without a name somewhere below it is the same as the grammar
in which the optional is a choice between the sequence of its components and the empty text.
Both are refused for the same roots, and they give the same outcome for every text, whatever
rules are around the optional and however often it occurs.

What the root yields is the same by `Rule.Expands.yield`, and the rules that are ambiguous are the
same by `Rule.Expands.isClear_iff`. Rules around the optional are other rules than before, since
they have other components; those below it can stay as they are (`Rule.expand_optional_of_kept`).
So if the optional is the root itself, no rule but the root is exchanged: `ofRoot_optional`.
-/

set_option autoImplicit false

namespace PhraseGrammar

namespace Grammar

variable {names names' : Naming} {root : Rule} {e : Expansion} {options : RegexOptions}
  {g g' : Grammar}

/-- Whether the root is skipped does not matter, since what it yields is then the same. -/
theorem matchText_expand (hroot : root.Coherent) (hexpanded : (root.expand e).Coherent)
    (hexpands : root.Expands e names names') (hg : ofRoot names (some root) options = .ok g)
    (hg' : ofRoot names' (some (root.expand e)) options = .ok g') (text : Bytes) :
    g'.matchText text = g.matchText text := by
  have hyield := (hexpands.yield options text).1
  have hyielded (attempt : Attempt Reading) :
      (attempt.map fun attempt => Yield.outcome (attempt.map Reading.yield)) =
        (attempt.map (Except.map Reading.yield)).map Yield.outcome := by
    rcases attempt with fault | attempt
    · rfl
    · rfl
  rw [matchText_eq_reading hroot hg, matchText_eq_reading hexpanded hg', hyielded, hyielded, hyield]

/-- The grammars with the optional and with the choice are refused for the same roots and names, and
answer alike if they are made. -/
theorem ofRoot_expand_agrees (hroot : root.Coherent) (hexpanded : (root.expand e).Coherent)
    (hexpands : root.Expands e names names') (hdistinct : root.KeepsDistinct e) :
    (∃ fault fault', ofRoot names (some root) options = .error fault ∧
      ofRoot names' (some (root.expand e)) options = .error fault' ∧
      fault.kind = .tokenRedefinition ∧ fault'.kind = .tokenRedefinition) ∨
    (∃ g g', ofRoot names (some root) options = .ok g ∧
      ofRoot names' (some (root.expand e)) options = .ok g' ∧
      ∀ text, g'.matchText text = g.matchText text) := by
  have hiff := hexpands.isClear_iff hdistinct
  rcases (decides_ofRoot names options hroot).agree
    (decides_ofRoot names' options hexpanded) hiff.symm with hrefused | ⟨g, g', hg, hg'⟩
  · exact .inl hrefused
  · exact .inr ⟨g, g', hg, hg', matchText_expand hroot hexpanded hexpands hg hg'⟩

/-- An optional at the root is the choice between the sequence of the very same components and the
empty text: there is no need to give any rule another number. -/
theorem ofRoot_optional {n k m l : Nat} {parts : List Rule}
    (hroot : (Rule.compound n .optional parts).Coherent)
    (hchoice : (Rule.compound k .choice [.compound m .sequence parts, .literal l []]).Coherent)
    (hunnamed : ∀ number ∈ [n, k, m, l], names.lookup number = none) :
    (∃ fault fault', ofRoot names (some (.compound n .optional parts)) options = .error fault ∧
      ofRoot names (some (.compound k .choice [.compound m .sequence parts, .literal l []]))
        options = .error fault' ∧
      fault.kind = .tokenRedefinition ∧ fault'.kind = .tokenRedefinition) ∨
    (∃ g g', ofRoot names (some (.compound n .optional parts)) options = .ok g ∧
      ofRoot names (some (.compound k .choice [.compound m .sequence parts, .literal l []]))
        options = .ok g' ∧
      ∀ text, g'.matchText text = g.matchText text) := by
  let e : Expansion := ⟨n, k, m, l, id⟩
  have hform : (Rule.compound n .optional parts).expand e =
      .compound k .choice [.compound m .sequence parts, .literal l []] :=
    Rule.expand_optional_of_kept hroot fun _ _ _ => rfl
  have hexpands : (Rule.compound n .optional parts).Expands e names names := {
    isOptional s hs hnumber := ⟨parts, hroot s hs _ (Rule.mem_subrules_self _) hnumber⟩
    kept _ _ _ := rfl
    optional := hunnamed n (by simp)
    choice := hunnamed k (by simp)
    sequence := hunnamed m (by simp)
    nothing := hunnamed l (by simp) }
  have hdistinct : (Rule.compound n .optional parts).KeepsDistinct e :=
    fun _ _ _ _ _ _ hnumber => hnumber
  rw [← hform] at hchoice ⊢
  exact ofRoot_expand_agrees hroot hchoice hexpands hdistinct

/-- Expanding an optional cannot be seen. The grammars with the optional and with the choice are
both refused, as the redefinition of a token, or both made; and if they are made, they give
the same match or the same mismatch for every text. -/
theorem ofRoot_expand (names names' : Naming) (options : RegexOptions) (e : Expansion)
    (root : Rule) (hroot : root.Coherent) (hproper : root.IsProperThroughout)
    (hexpanded : (root.expand e).Coherent) (hexpands : root.Expands e names names')
    (hdistinct : root.KeepsDistinct e) :
    (∃ fault fault', ofRoot names (some root) options = .error fault ∧
      ofRoot names' (some (root.expand e)) options = .error fault' ∧
      fault.kind = .tokenRedefinition ∧ fault'.kind = .tokenRedefinition) ∨
    (∃ g g', ofRoot names (some root) options = .ok g ∧
      ofRoot names' (some (root.expand e)) options = .ok g' ∧
      ∀ text, g'.matchText text = g.matchText text ∧
        ((∃ m, g.matchText text = .ok (.matched m)) ∨
          ∃ mm, g.matchText text = .ok (.failed mm))) := by
  rcases ofRoot_expand_agrees hroot hexpanded hexpands hdistinct with
    hrefused | ⟨g, g', hg, hg', hsame⟩
  · exact .inl hrefused
  · refine .inr ⟨g, g', hg, hg', fun text => ⟨hsame text, ?_⟩⟩
    exact matched_or_failed hroot hproper hg text

/-- An optional that occurs twice, the second time below a named rule. At the start of the text it
is skipped. -/
theorem ofRoot_expand_shared :
    let x := Rule.literal 0 (ascii "a")
    let y := Rule.literal 1 (ascii "b")
    let root := Rule.compound 4 .sequence
      [.compound 2 .optional [x, y], .compound 3 .sequence [y, .compound 2 .optional [x, y]]]
    let either := Rule.compound 6 .choice [.compound 7 .sequence [x, y], .literal 8 []]
    let e : Expansion := ⟨2, 6, 7, 8, fun n => if n < 2 then n else n + 10⟩
    let names : Naming := [(0, ascii "x"), (3, ascii "pair")]
    let names' : Naming := [(0, ascii "x"), (13, ascii "pair")]
    root.expand e = .compound 14 .sequence [either, .compound 13 .sequence [y, either]] ∧
      root.Coherent ∧ root.IsProperThroughout ∧ (root.expand e).Coherent ∧
      root.Expands e names names' ∧ root.KeepsDistinct e ∧ ∃ g g' m,
      ofRoot names (some root) .default = .ok g ∧
      ofRoot names' (some (root.expand e)) .default = .ok g' ∧
      g.matchText (ascii "bab") = .ok (.matched m) ∧
      g'.matchText (ascii "bab") = .ok (.matched m) ∧ m.text = ascii "bab" := by
  intro x y root either e names names'
  have hsubrules : root.subrules = [root, .compound 2 .optional [x, y], x, y,
      .compound 3 .sequence [y, .compound 2 .optional [x, y]], y,
      .compound 2 .optional [x, y], x, y] := rfl
  have hroot : root.Coherent := by decide
  have hproper : root.IsProperThroughout := by decide
  have hform : root.expand e =
      .compound 14 .sequence [either, .compound 13 .sequence [y, either]] := rfl
  have hexpanded : (root.expand e).Coherent := by decide
  have hexpands : root.Expands e names names' := by
    refine ⟨?_, by decide, rfl, rfl, rfl, rfl⟩
    rw [hsubrules]
    simp [root, x, y, e, Rule.literal, Rule.number]
  have hdistinct : root.KeepsDistinct e := by decide
  have hmade : ∃ g, ofRoot names (some root) .default = .ok g := ⟨_, rfl⟩
  rcases ofRoot_expand names names' .default e root hroot hproper hexpanded hexpands hdistinct with
    ⟨fault, -, hrefused, -⟩ | ⟨g, g', hg, hg', hsame⟩
  · obtain ⟨made, hmade⟩ := hmade
    have hboth := hmade.symm.trans hrefused
    cases hboth
  · let d : Derivation := .row [.skip,
      .row [.leaf (ascii "b"), .row [.leaf (ascii "a"), .leaf (ascii "b")]]]
    have hmatched : g.matchText (ascii "bab") = .ok (.matched (root.matchOf names d)) := by
      rw [matchText_eq hroot hg]
      rfl
    exact ⟨hform, hroot, hproper, hexpanded, hexpands, hdistinct, g, g', _, hg, hg', hmatched,
      (hsame _).1.trans hmatched, rfl⟩

end Grammar

end PhraseGrammar
