import PhraseGrammar.Proofs.Grammar.Refinement
import PhraseGrammar.Proofs.Layout.Clashes
import PhraseGrammar.Proofs.Rule.Rows

/-!
# Grouping inside a sequence

Some components of a sequence may be grouped into a sequence of their own. As long as the
group has no name, the grammar of the whole is the same: it is refused for the same names,
and it gives the same outcome for every text.

The group is ambiguous by itself, or together with the components around it, exactly if the
components are ambiguous where they are not grouped. That is counted: at most one component
declares a name, and if that one is the group, at most one component in the group.
-/

set_option autoImplicit false

namespace PhraseGrammar

open NameTable

namespace Rule

variable {names : Naming}

theorem declares_sequence_iff {k : Nat} {parts : List Rule}
    (h : names.name? (.compound k .sequence parts) = none) (name : Bytes) :
    declares names name (.compound k .sequence parts) = true ↔
      0 < parts.countP (declares names name) := by
  rw [← Bool.not_eq_false, declares_eq_false_iff, contributed_unnamed h, declarations,
    valuesOf_eq_nil_iff]
  omega

theorem declarationsOfAll_regroup {k : Nat} {combinator : Combinator} (xs ys zs : List Rule)
    (h : names.name? (.compound k combinator ys) = none) :
    declarationsOfAll names (xs ++ .compound k combinator ys :: zs) =
      declarationsOfAll names (xs ++ (ys ++ zs)) := by
  simp only [declarationsOfAll_append, declarationsOfAll_cons, contributed_unnamed h, declarations]

/-- A group and the sequence around it are both unambiguous exactly if the sequence is without
the group. -/
theorem isUnambiguous_regroup {k : Nat} (n n' : Nat) (xs ys zs : List Rule)
    (h : names.name? (.compound k .sequence ys) = none) :
    (compound n .sequence (xs ++ .compound k .sequence ys :: zs)).IsUnambiguous names ∧
        (compound k .sequence ys).IsUnambiguous names ↔
      (compound n' .sequence (xs ++ (ys ++ zs))).IsUnambiguous names := by
  simp only [IsUnambiguous, isChoice, Rule.parts, declarations, declarationsOfAll_regroup xs ys zs h,
    Bool.false_eq_true, false_or, ← forall_and]
  refine forall_congr' fun name => ?_
  have hgroup := declares_sequence_iff h name
  have hdeclared : valuesOf name (declarationsOfAll names (xs ++ (ys ++ zs))) =
      valuesOf name (declarationsOfAll names xs) ++
        (valuesOf name (declarationsOfAll names ys) ++
          valuesOf name (declarationsOfAll names zs)) := by
    simp only [declarationsOfAll_append, valuesOf_append]
  have hnone : ∀ parts : List Rule, parts.countP (declares names name) = 0 →
      valuesOf name (declarationsOfAll names parts) = [] :=
    fun parts => (valuesOf_eq_nil_iff parts).2
  simp only [List.countP_append, List.countP_cons]
  constructor
  · rintro ⟨hone | hsame, hinner⟩
    · by_cases hys : 0 < ys.countP (declares names name)
      · -- The group is the one component with the name, so nothing of it comes from around it.
        rw [if_pos (hgroup.2 hys)] at hone
        rcases hinner with hone' | hsame'
        · exact .inl (by omega)
        · right
          rw [hdeclared, hnone xs (by omega), hnone zs (by omega), List.nil_append,
            List.append_nil]
          exact hsame'
      · exact .inl (by omega)
    · exact .inr hsame
  · rintro (hone | hsame)
    · refine ⟨.inl ?_, .inl (by omega)⟩
      split
      · next hdeclares =>
        have hys := hgroup.1 hdeclares
        omega
      · omega
    · refine ⟨.inr hsame, .inr ?_⟩
      rw [hdeclared] at hsame
      intro r hr s hs
      exact hsame r (List.mem_append_right _ (List.mem_append_left _ hr)) s
        (List.mem_append_right _ (List.mem_append_left _ hs))

theorem isClear_regroup {k : Nat} (n n' : Nat) (xs ys zs : List Rule)
    (h : names.name? (.compound k .sequence ys) = none) :
    (compound n .sequence (xs ++ .compound k .sequence ys :: zs)).IsClear names ↔
      (compound n' .sequence (xs ++ (ys ++ zs))).IsClear names := by
  rw [isClear_compound_iff, isClear_compound_iff, ← isUnambiguous_regroup n n' xs ys zs h]
  simp only [List.forall_mem_append, List.forall_mem_cons, isClear_compound_iff]
  constructor
  · rintro ⟨hself, hxs, ⟨hgroup, hys⟩, hzs⟩
    exact ⟨⟨hself, hgroup⟩, hxs, hys, hzs⟩
  · rintro ⟨⟨hself, hgroup⟩, hxs, hys, hzs⟩
    exact ⟨hself, hxs, ⟨hgroup, hys⟩, hzs⟩

end Rule

namespace Grammar

variable {names : Naming} {root : Rule} {options : RegexOptions}

/-- A grammar is made for a root exactly if no rule at or below the root is ambiguous. -/
theorem decides_ofRoot (names : Naming) (options : RegexOptions) (hroot : root.Coherent) :
    Decides (root.IsClear names) (ofRoot names (some root) options) :=
  (Registry.decides_ofRoot names hroot).map _

/-- The outcome for a sequence depends only on what its components yield. -/
theorem matchText_sequence {n : Nat} {parts : List Rule} {g : Grammar}
    (hroot : (Rule.compound n .sequence parts).Coherent)
    (hg : ofRoot names (some (.compound n .sequence parts)) options = .ok g) (text : Bytes) :
    g.matchText text = (Rule.rowYield names options parts text).map Yield.outcome := by
  rw [matchText_eq hroot hg, Rule.rowYield, Rule.derive]
  rcases Rule.deriveRow options parts text with fault | mm | ds
  · rfl
  · rfl
  · rfl

/-- Grouping inside a sequence cannot be seen as long as the group has no name. The grammars
with and without the group are both refused, as the redefinition of a token, or both
made; and if they are made, they give the same outcome for every text. -/
theorem regroup_sequence (names : Naming) (options : RegexOptions) (n n' k : Nat)
    (xs ys zs : List Rule)
    (hgrouped : (Rule.compound n .sequence
      (xs ++ [.compound k .sequence ys] ++ zs)).Coherent)
    (hplain : (Rule.compound n' .sequence (xs ++ ys ++ zs)).Coherent)
    (hunnamed : names.name? (.compound k .sequence ys) = none) :
    (∃ fault fault',
      ofRoot names (some (.compound n .sequence (xs ++ [.compound k .sequence ys] ++ zs)))
        options = .error fault ∧
      ofRoot names (some (.compound n' .sequence (xs ++ ys ++ zs))) options = .error fault' ∧
      fault.kind = .tokenRedefinition ∧ fault'.kind = .tokenRedefinition) ∨
    (∃ g g',
      ofRoot names (some (.compound n .sequence (xs ++ [.compound k .sequence ys] ++ zs)))
        options = .ok g ∧
      ofRoot names (some (.compound n' .sequence (xs ++ ys ++ zs))) options = .ok g' ∧
      ∀ text, g.matchText text = g'.matchText text) := by
  simp only [List.append_assoc, List.cons_append, List.nil_append] at hgrouped hplain ⊢
  have hiff := Rule.isClear_regroup n n' xs ys zs hunnamed
  cases decides_ofRoot names options hgrouped with
  | answered g hg hclear =>
    cases decides_ofRoot names options hplain with
    | answered g' hg' hclear' =>
      refine .inr ⟨g, g', hg, hg', fun text => ?_⟩
      rw [matchText_sequence hgrouped hg, matchText_sequence hplain hg',
        Rule.rowYield_regroup names options xs ys zs hunnamed]
    | refused fault' hfault' hkind' hnot => exact absurd (hiff.1 hclear) hnot
  | refused fault hfault hkind hnot =>
    cases decides_ofRoot names options hplain with
    | answered g' hg' hclear' => exact absurd (hiff.2 hclear') hnot
    | refused fault' hfault' hkind' hnot' =>
      exact .inl ⟨fault, fault', hfault, hfault', hkind, hkind'⟩

/-- A group that has a rule in common with the components around it. -/
theorem regroup_sequence_shared :
    let x := Rule.literal 0 (ascii "a")
    let y := Rule.literal 1 (ascii "b")
    let grouped := Rule.compound 3 .sequence [x, .compound 2 .sequence [x, y], y]
    let plain := Rule.compound 4 .sequence [x, x, y, y]
    let names : Naming := [(0, ascii "x"), (1, ascii "y")]
    grouped.Coherent ∧ plain.Coherent ∧ ∃ g g' m,
      ofRoot names (some grouped) .default = .ok g ∧
      ofRoot names (some plain) .default = .ok g' ∧
      g'.matchText (ascii "aabb") = .ok (.matched m) ∧
      g.matchText (ascii "aabb") = .ok (.matched m) := by
  intro x y grouped plain names
  have hgrouped : grouped.Coherent := by decide
  have hplain : plain.Coherent := by decide
  have hmade : ∃ g', ofRoot names (some plain) .default = .ok g' := ⟨_, rfl⟩
  rcases regroup_sequence names .default 3 4 2 [x] [x, y] [y] hgrouped hplain rfl with
    ⟨-, fault', -, hfault', -⟩ | ⟨g, g', hg, hg', hsame⟩
  · obtain ⟨made, hmade⟩ := hmade
    have hboth := hmade.symm.trans hfault'
    cases hboth
  · refine ⟨hgrouped, hplain, g, g', plain.matchOf names
      (.row [.leaf (ascii "a"), .leaf (ascii "a"), .leaf (ascii "b"), .leaf (ascii "b")]),
      hg, hg', ?_⟩
    have hmatched : g'.matchText (ascii "aabb") = .ok (.matched (plain.matchOf names
        (.row [.leaf (ascii "a"), .leaf (ascii "a"), .leaf (ascii "b"), .leaf (ascii "b")]))) := by
      rw [matchText_eq hplain hg']
      rfl
    exact ⟨hmatched, (hsame _).trans hmatched⟩

end Grammar

end PhraseGrammar
