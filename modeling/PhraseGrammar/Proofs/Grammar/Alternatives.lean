import PhraseGrammar.Proofs.Grammar.Mismatches
import PhraseGrammar.Proofs.Grammar.Regrouping
import PhraseGrammar.Proofs.Match.Merging
import PhraseGrammar.Proofs.Rule.Readings
import PhraseGrammar.Proofs.Rule.Totality

/-!
# Grouping inside a choice

Some components of a choice may be grouped into a choice of their own. As long as the group
has no name, the grammar of the whole is refused for the same names, and it gives the same match
for every text that has one.

If all components fail, the mismatches of the group are merged before the others come in. The
mismatch of the whole is at the same position, and its description has the same lines. Their
order may differ: the lines of the group stay together. A line may also be there twice, if
the same was said inside the group and outside.
-/

set_option autoImplicit false

namespace PhraseGrammar

open NameTable

namespace Rule

open Yield

variable {names : Naming}

theorem isClear_regroup_choice (names : Naming) (n n' k : Nat) (xs ys zs : List Rule) :
    (compound n .choice (xs ++ .compound k .choice ys :: zs)).IsClear names ↔
      (compound n' .choice (xs ++ (ys ++ zs))).IsClear names := by
  have hchoice (m : Nat) (parts : List Rule) : (compound m .choice parts).IsUnambiguous names :=
    .inl rfl
  simp only [isClear_compound_iff, hchoice, true_and, List.forall_mem_append,
    List.forall_mem_cons]

/-- What components with a group among them yield, against what they yield without the group:
the same, or as many mismatches as there are components, where those of the group have been
merged. -/
inductive IsRegrouped : Except Fault (Except (List Mismatch) Yield) →
    Except Fault (Except (List Mismatch) Yield) → Prop
  | refused (fault : Fault) : IsRegrouped (.error fault) (.error fault)
  | yielded (y : Yield) : IsRegrouped (.ok (.ok y)) (.ok (.ok y))
  | failed (before inner after : List Mismatch) (merged : Mismatch)
      (h : Mismatch.furthest inner = .ok merged) :
      IsRegrouped (.ok (.error (before ++ merged :: after)))
        (.ok (.error (before ++ (inner ++ after))))

theorem isRegrouped_firstYield (opts : RegexOptions) {k : Nat} (xs : List Rule) {ys : List Rule}
    (zs : List Rule) (h : names.name? (.compound k .choice ys) = none) (hne : ys ≠ [])
    (text : Bytes) :
    IsRegrouped (firstYield names opts (xs ++ .compound k .choice ys :: zs) text)
      (firstYield names opts (xs ++ (ys ++ zs)) text) := by
  have hgroup : (compound k .choice ys).contributed names = declarationsOfAll names ys :=
    contributed_unnamed h
  have hdeclared := declarationsOfAll_regroup [] ys zs h
  rw [List.nil_append, List.nil_append] at hdeclared
  rw [firstYield_append, firstYield_append, hdeclared, firstYield, partYield_choice names opts h,
    hgroup, firstYield_append]
  rcases firstYield names opts xs text with fault | before | y
  · exact .refused fault
  · rcases hys : firstYield names opts ys text with fault | inner | y
    · exact .refused fault
    · have hfailures : inner ≠ [] := by
        rw [← List.length_pos_iff, (firstYield_eq_error names opts hys).1]
        exact List.length_pos_iff.2 hne
      obtain ⟨merged, hmerged⟩ := exists_furthest hfailures
      simp only [orElse, Except.bind, settle, hmerged, Except.map]
      rcases firstYield names opts zs text with fault | after | y
      · exact .refused fault
      · exact .failed before inner after merged hmerged
      · exact .yielded _
    · exact .yielded _
  · exact .yielded _

end Rule

namespace Grammar

variable {names : Naming} {root : Rule} {options : RegexOptions} {g : Grammar}

/-- The outcome for a choice depends only on what its components yield. -/
theorem matchText_choice {n : Nat} {parts : List Rule}
    (hroot : (Rule.compound n .choice parts).Coherent)
    (hg : ofRoot names (some (.compound n .choice parts)) options = .ok g) (text : Bytes) :
    g.matchText text =
      ((Rule.firstYield names options parts text).bind Yield.settle).map Yield.outcome := by
  rw [matchText_eq_reading hroot hg, Rule.reading_choice]
  rcases (Rule.firstYield names options parts text).bind Yield.settle with fault | mm | y
  · rfl
  · rfl
  · rfl

/-- A mismatch that is derived for a rule of a grammar points at what leaves do not match. -/
theorem pointsAt_of_derive (hroot : root.Coherent) (hg : ofRoot names (some root) options = .ok g)
    {r : Rule} (hr : r ∈ root.subrules) {text : Bytes} {mm : Mismatch}
    (hsize : text.length < UInt64.size) (h : r.derive options text = .ok (.error mm)) :
    mm.PointsAt (r.LeafFails options) text := by
  obtain ⟨-, hoptions, hregistry⟩ := ofRoot_eq_ok hg
  obtain ⟨-, hlayouts⟩ := Registry.layout_eq hroot hregistry
  have hflat : g.env.IsFlat names r := fun s hs => hlayouts s (Rule.mem_subrules_trans hr hs)
  have henv : g.env.options = options := hoptions
  have hmatch := Rule.matchText_eq r hflat text
  rw [henv, h] at hmatch
  have hpoints := Rule.pointsAt_of_matchText r hsize hmatch
  rwa [henv] at hpoints

/-- A choice whose components have all failed fails with the furthest of their mismatches, and
these can be read as what leaves say. -/
theorem matchText_choice_failed {n : Nat} {parts : List Rule}
    (hroot : (Rule.compound n .choice parts).Coherent)
    (hg : ofRoot names (some (.compound n .choice parts)) options = .ok g) {text : Bytes}
    {failures : List Mismatch}
    (h : Rule.firstYield names options parts text = .ok (.error failures)) :
    g.matchText text = (Mismatch.furthest failures).map .failed ∧
      (text.length < UInt64.size → ∀ mm ∈ failures, ∃ lines, IsRead
        ((Rule.compound n .choice parts).LeafFails options (text.drop mm.position.toNat))
        mm.description lines) := by
  refine ⟨?_, fun hsize mm hmm => ?_⟩
  · rw [matchText_choice hroot hg, h]
    rcases hfurthest : Mismatch.furthest failures with fault | mm
    · simp only [Except.bind, Yield.settle, hfurthest, Except.map]
    · simp only [Except.bind, Yield.settle, hfurthest, Except.map, Yield.outcome]
  · obtain ⟨part, hpart, hfailed⟩ := (Rule.firstYield_eq_error names options h).2 mm hmm
    have hbelow : part ∈ (Rule.compound n .choice parts).subrules :=
      Rule.mem_subrules_of_mem_parts hpart (Rule.mem_subrules_self part)
    have hpoints := pointsAt_of_derive hroot hg hbelow hsize hfailed
    have howner : part ∈ (Rule.compound n .choice parts).parts := hpart
    obtain ⟨lines, hne, hjoined, hall⟩ := (hpoints.imp (Rule.LeafFails.of_part howner)).reasons
    exact ⟨lines, hne, hjoined, hall⟩

/-- Grouping inside a choice can be seen only in the wording of mismatches, as long as the group
has no name. The grammars with and without the group are both refused, as the redefinition of
a token, or both made. If they are made, they give for every text the same match, or two
mismatches at one position that give the same reasons: as lines, up to order and repetition,
both descriptions are the same set of descriptions of leaves that fail there. -/
theorem regroup_choice (names : Naming) (options : RegexOptions) (n n' k : Nat)
    (xs ys zs : List Rule)
    (hgrouped : (Rule.compound n .choice (xs ++ [.compound k .choice ys] ++ zs)).Coherent)
    (hplain : (Rule.compound n' .choice (xs ++ ys ++ zs)).Coherent)
    (hproper :
      (Rule.compound n .choice (xs ++ [.compound k .choice ys] ++ zs)).IsProperThroughout)
    (hunnamed : names.name? (.compound k .choice ys) = none) :
    (∃ fault fault',
      ofRoot names (some (.compound n .choice (xs ++ [.compound k .choice ys] ++ zs))) options =
        .error fault ∧
      ofRoot names (some (.compound n' .choice (xs ++ ys ++ zs))) options = .error fault' ∧
      fault.kind = .tokenRedefinition ∧ fault'.kind = .tokenRedefinition) ∨
    (∃ g g',
      ofRoot names (some (.compound n .choice (xs ++ [.compound k .choice ys] ++ zs))) options =
        .ok g ∧
      ofRoot names (some (.compound n' .choice (xs ++ ys ++ zs))) options = .ok g' ∧
      ∀ text,
        (∃ m, g.matchText text = .ok (.matched m) ∧ g'.matchText text = .ok (.matched m)) ∨
        (∃ mm mm', g.matchText text = .ok (.failed mm) ∧ g'.matchText text = .ok (.failed mm') ∧
          mm.position = mm'.position ∧
          (text.length < UInt64.size → SameLines
            ((Rule.compound n' .choice (xs ++ ys ++ zs)).LeafFails options
              (text.drop mm.position.toNat))
            mm.description mm'.description))) := by
  have hne : ys ≠ [] := hproper (.compound k .choice ys)
    (Rule.mem_subrules_of_mem_parts (by simp) (Rule.mem_subrules_self _))
  simp only [List.append_assoc, List.cons_append, List.nil_append] at hgrouped hplain hproper ⊢
  have hiff := Rule.isClear_regroup_choice names n n' k xs ys zs
  rcases (decides_ofRoot names options hgrouped).agree (decides_ofRoot names options hplain) hiff
    with hrefused | ⟨g, g', hg, hg'⟩
  · exact .inl hrefused
  · refine .inr ⟨g, g', hg, hg', fun text => ?_⟩
    have hregrouped := Rule.isRegrouped_firstYield options xs zs hunnamed hne text
    have hmatch := matchText_choice hgrouped hg text
    have hmatch' := matchText_choice hplain hg' text
    generalize hfirst : Rule.firstYield names options (xs ++ .compound k .choice ys :: zs) text =
      tried at hregrouped hmatch
    generalize hfirst' : Rule.firstYield names options (xs ++ (ys ++ zs)) text =
      tried' at hregrouped hmatch'
    cases hregrouped with
    | refused fault =>
      obtain ⟨attempt, hderived⟩ := Rule.exists_derive options _ hproper text
      rw [matchText_eq hgrouped hg, hderived] at hmatch
      cases hmatch
    | yielded y => exact .inl ⟨_, hmatch, hmatch'⟩
    | failed before inner after merged hmerged =>
      obtain ⟨hfails, -⟩ := matchText_choice_failed hgrouped hg hfirst
      obtain ⟨hfails', hreasons⟩ := matchText_choice_failed hplain hg' hfirst'
      have hinner : inner ≠ [] := (Mismatch.furthest_eq_ok hmerged).1
      have hfailures : before ++ merged :: after ≠ [] := by simp
      have hfailures' : before ++ (inner ++ after) ≠ [] := by simp [hinner]
      obtain ⟨mm, hmm⟩ := Rule.exists_furthest hfailures
      obtain ⟨mm', hmm'⟩ := Rule.exists_furthest hfailures'
      have hposition := Mismatch.position_regroup hmerged hmm hmm'
      rw [hmm] at hfails
      rw [hmm'] at hfails'
      refine .inr ⟨mm, mm', hfails, hfails', hposition, fun hsize => ?_⟩
      refine Mismatch.sameLines_regroup hmerged hmm hmm' (fun line => Rule.LeafFails.ne_nil) ?_
      intro failure hfailure hthere
      rw [hposition, ← hthere]
      exact hreasons hsize failure hfailure

/-- All alternatives fail: with the group, what is said of its two alternatives comes together. -/
theorem regroup_choice_reordered :
    let a := Rule.literal 0 (ascii "a")
    let b := Rule.literal 1 (ascii "b")
    let c := Rule.literal 2 (ascii "c")
    let grouped := Rule.compound 4 .choice [b, .compound 3 .choice [a, c]]
    let plain := Rule.compound 5 .choice [b, a, c]
    let said (source : String) :=
      quoted (ascii "z") ++ ascii " does not match " ++ quoted (ascii source)
    grouped.Coherent ∧ plain.Coherent ∧ grouped.IsProperThroughout ∧ ∃ g g' mm mm',
      ofRoot [] (some grouped) .default = .ok g ∧ ofRoot [] (some plain) .default = .ok g' ∧
      g.matchText (ascii "z") = .ok (.failed mm) ∧ g'.matchText (ascii "z") = .ok (.failed mm') ∧
      mm = ⟨0, inLines [said "a", said "c", said "b"]⟩ ∧
      mm' = ⟨0, inLines [said "a", said "b", said "c"]⟩ ∧
      SameLines (plain.LeafFails .default (ascii "z")) mm.description mm'.description := by
  intro a b c grouped plain said
  have hgrouped : grouped.Coherent := by decide
  have hplain : plain.Coherent := by decide
  have hproper : grouped.IsProperThroughout := by decide
  obtain ⟨g, hg⟩ : ∃ g, ofRoot [] (some grouped) .default = .ok g := ⟨_, rfl⟩
  obtain ⟨g', hg'⟩ : ∃ g', ofRoot [] (some plain) .default = .ok g' := ⟨_, rfl⟩
  have hresult : ((ofRoot [] (some grouped) .default).toOption.bind fun g =>
      (g.matchText (ascii "z")).toOption.bind Outcome.mismatch?) =
      some ⟨0, inLines [said "a", said "c", said "b"]⟩ := by
    decide +kernel
  have hresult' : ((ofRoot [] (some plain) .default).toOption.bind fun g =>
      (g.matchText (ascii "z")).toOption.bind Outcome.mismatch?) =
      some ⟨0, inLines [said "a", said "b", said "c"]⟩ := by
    decide +kernel
  rw [hg] at hresult
  rw [hg'] at hresult'
  have hfails := Outcome.eq_failed hresult
  have hfails' := Outcome.eq_failed hresult'
  rcases regroup_choice [] .default 4 5 3 [b] [a, c] [] hgrouped hplain hproper rfl with
    ⟨fault, -, hrefused, -⟩ | ⟨made, made', hmade, hmade', hboth⟩
  · have hcontra := hg.symm.trans hrefused
    cases hcontra
  · obtain rfl : made = g := Except.ok.inj (hmade.symm.trans hg)
    obtain rfl : made' = g' := Except.ok.inj (hmade'.symm.trans hg')
    rcases hboth (ascii "z") with ⟨m, hm, -⟩ | ⟨mm, mm', hmm, hmm', -, hlines⟩
    · have hcontra := hm.symm.trans hfails
      cases hcontra
    · obtain rfl := Outcome.failed.inj (Except.ok.inj (hmm.symm.trans hfails))
      obtain rfl := Outcome.failed.inj (Except.ok.inj (hmm'.symm.trans hfails'))
      exact ⟨hgrouped, hplain, hproper, made, made', _, _, hmade, hmade', hmm, hmm', rfl, rfl,
        hlines (by decide)⟩

end Grammar

end PhraseGrammar
