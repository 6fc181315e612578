import PhraseGrammar.Proofs.Layout.Clashes
import PhraseGrammar.Proofs.Rule.Comparison
import PhraseGrammar.Proofs.Rule.Refinement

/-!
# What a registry holds

A registry is made for a root unless components of some rule clash, and it has the layout of
every rule at or below the root and of no other rule. `Layout.Describes` says what the layout
of a rule is, with the rule read as a tree. It depends on the rule and the names, and not on
the root or on the order in which rules were added to the table.
-/

set_option autoImplicit false

namespace PhraseGrammar

open NameTable

/-- A placement is that of a component of a rule, where the components in `before` come before it:
it has the component's name, and for each name that the component contributes the number of
declarations of that name before it. -/
structure Placement.Describes (names : Naming) (before : List Rule) (part : Rule)
    (placement : Placement) : Prop where
  own : placement.own = names.name? part
  sorted : Sorted placement.offsets
  offsets : ∀ name, placement.offsets.lookup name =
    if valuesOf name (part.contributed names) = [] then none
    else some (valuesOf name (Rule.declarationsOfAll names before)).length

theorem Placement.Describes.unique {names : Naming} {before : List Rule} {part : Rule}
    {placement other : Placement} (h : placement.Describes names before part)
    (hother : other.Describes names before part) : placement = other := by
  have hown : placement.own = other.own := h.own.trans hother.own.symm
  have hoffsets : placement.offsets = other.offsets :=
    h.sorted.ext hother.sorted fun name => (h.offsets name).trans (hother.offsets name).symm
  cases placement
  cases other
  simp only at hown hoffsets
  rw [hown, hoffsets]

namespace Layout

variable {names : Naming} {r : Rule} {layout other : Layout}

/-- A layout is that of a rule: it has each name that the rule declares, with all declarations of
the name in order, and for each component the placement of the component. -/
structure Describes (names : Naming) (r : Rule) (layout : Layout) : Prop where
  sorted : layout.declared.Sorted
  declared : ∀ name, layout.declared.lookup name =
    if valuesOf name (r.declarations names) = [] then none
    else some (valuesOf name (r.declarations names))
  length : layout.placements.length = r.parts.length
  placement : ∀ i part, r.parts[i]? = some part → ∃ placement : Placement,
    layout.placements[i]? = some placement ∧ placement.Describes names (r.parts.take i) part

theorem describes_flatLayout (names : Naming) (r : Rule) :
    (r.flatLayout names).Describes names r where
  sorted := sorted_group _
  declared name := lookup_group name _
  length := Rule.length_placementsAfter [] r.parts
  placement i part hpart := by
    obtain ⟨hi, rfl⟩ := List.getElem?_eq_some_iff.1 hpart
    have hparts : r.parts.take i ++ r.parts[i] :: r.parts.drop (i + 1) = r.parts := by
      rw [← List.drop_eq_getElem_cons hi, List.take_append_drop]
    have hplacement := Rule.getElem?_placementsAfter names (r.parts.take i) r.parts[i]
      (r.parts.drop (i + 1)) []
    rw [hparts, List.length_take_of_le (Nat.le_of_lt hi), List.nil_append] at hplacement
    refine ⟨_, hplacement, rfl, sorted_offsetsAfter _ _, fun name => ?_⟩
    rw [lookup_offsetsAfter, length_valuesOf]

/-- There is only one layout of a rule. -/
theorem Describes.unique (h : layout.Describes names r) (hother : other.Describes names r) :
    layout = other := by
  have hdeclared : layout.declared = other.declared :=
    h.sorted.ext hother.sorted fun name => (h.declared name).trans (hother.declared name).symm
  have hplacements : layout.placements = other.placements := by
    refine List.ext_getElem? fun i => ?_
    cases hpart : r.parts[i]? with
    | none =>
      rw [List.getElem?_eq_none_iff] at hpart
      rw [List.getElem?_eq_none (Nat.le_trans (Nat.le_of_eq h.length) hpart),
        List.getElem?_eq_none (Nat.le_trans (Nat.le_of_eq hother.length) hpart)]
    | some part =>
      obtain ⟨placement, hfound, hdescribes⟩ := h.placement i part hpart
      obtain ⟨placement', hfound', hdescribes'⟩ := hother.placement i part hpart
      rw [hfound, hfound', hdescribes.unique hdescribes']
  cases layout
  cases other
  simp only at hdeclared hplacements
  rw [hdeclared, hplacements]

end Layout

namespace LayoutTable

variable {names : Naming}

mutual

/-- Adding a rule to a table adds layouts only for rules at or below it. -/
theorem isSome_lookup_addRule : (r : Rule) → {table extended : LayoutTable} → {layout : Layout} →
    addRule names r table = .ok (layout, extended) → ∀ n, (extended.lookup n).isSome = true →
    (table.lookup n).isSome = true ∨ ∃ s ∈ r.subrules, s.number = n
  | .leaf n source regex, table, extended, layout, h, m, hsome => by
    rw [addRule] at h
    split at h
    · cases h
      exact .inl hsome
    · cases h
      by_cases hm : m = n
      · exact .inr ⟨_, Rule.mem_subrules_self _, hm.symm⟩
      · rw [lookup_cons, if_neg hm] at hsome
        exact .inl hsome
  | .compound n combinator parts, table, extended, layout, h, m, hsome => by
    rw [addRule] at h
    split at h
    · cases h
      exact .inl hsome
    · split at h
      · cases h
      · next made below hbelow =>
        cases h
        by_cases hm : m = n
        · exact .inr ⟨_, Rule.mem_subrules_self _, hm.symm⟩
        · rw [lookup_cons, if_neg hm] at hsome
          rcases isSome_lookup_addParts parts hbelow m hsome with hold | ⟨s, hs, hnumber⟩
          · exact .inl hold
          · refine .inr ⟨s, ?_, hnumber⟩
            rw [Rule.subrules]
            exact List.mem_cons_of_mem _ hs

theorem isSome_lookup_addParts : (parts : List Rule) → {owner : Rule} → {layout widened : Layout} →
    {table extended : LayoutTable} →
    addParts names owner parts layout table = .ok (widened, extended) →
    ∀ n, (extended.lookup n).isSome = true →
    (table.lookup n).isSome = true ∨ ∃ s ∈ Rule.subrulesOfAll parts, s.number = n
  | [], _, _, _, table, extended, h, m, hsome => by
    cases h
    exact .inl hsome
  | part :: parts, owner, layout, widened, table, extended, h, m, hsome => by
    rw [addParts] at h
    split at h
    · cases h
    · next inner middle hpart =>
      split at h
      · cases h
      · next taken htaken =>
        rw [Rule.subrulesOfAll]
        rcases isSome_lookup_addParts parts h m hsome with hmiddle | ⟨s, hs, hnumber⟩
        · rcases isSome_lookup_addRule part hpart m hmiddle with hold | ⟨s, hs, hnumber⟩
          · exact .inl hold
          · exact .inr ⟨s, List.mem_append_left _ hs, hnumber⟩
        · exact .inr ⟨s, List.mem_append_right _ hs, hnumber⟩

end

end LayoutTable

namespace Registry

variable {names : Naming} {root : Rule} {registry : Registry}

/-- A registry has no layout for a rule whose number no rule at or below the root has. -/
theorem layout_foreign (h : Registry.ofRoot names root = .ok registry) {s : Rule}
    (hs : ∀ r ∈ root.subrules, r.number ≠ s.number) :
    registry.layout s = .error (.foreignRule s) := by
  obtain ⟨⟨layout, layouts⟩, hadded, rfl⟩ := exists_of_map_eq_ok h
  cases hlookup : layouts.lookup s.number with
  | none => rw [Registry.layout, hlookup]
  | some found =>
    have hsome : (layouts.lookup s.number).isSome = true := by rw [hlookup]; rfl
    rcases LayoutTable.isSome_lookup_addRule root hadded _ hsome with hold | ⟨r, hr, hnumber⟩
    · cases hold
    · exact absurd hnumber (hs r hr)

/-- In some rule that is not a choice, two components or more declare a name, and not always by the
same rule. -/
def HasClash (names : Naming) (root : Rule) : Prop :=
  ∃ r ∈ root.subrules, r.isChoice = false ∧ ∃ name,
    2 ≤ r.parts.countP (Rule.declares names name) ∧
      ¬ Rule.AllSame (valuesOf name (r.declarations names))

theorem isClear_iff_not_hasClash : root.IsClear names ↔ ¬ HasClash names root := by
  simp only [Rule.IsClear, Rule.IsUnambiguous, HasClash, not_exists, not_and, Classical.not_not]
  refine forall₂_congr fun r _ => ?_
  rw [Decidable.or_iff_not_imp_left, Bool.not_eq_true]
  refine imp_congr_right fun _ => forall_congr' fun name => ?_
  rw [Decidable.or_iff_not_imp_left, Nat.not_le, Nat.lt_iff_add_one_le]

/-- The registry of a root is refused, as the redefinition of a token, exactly if components of a
rule at or below the root clash. Otherwise there is one. For every rule at or below the root it
has the layout of the rule as a tree, and so has the registry of any other root that the rule
is below. For a rule that numbers tell apart from these, it has a layout exactly if the rule
is one of them. -/
theorem ofRoot_flattens (names : Naming) (root : Rule) (hroot : root.Coherent) :
    ((∃ fault, Registry.ofRoot names root = .error fault ∧ fault.kind = .tokenRedefinition) ↔
      HasClash names root) ∧
    (¬ HasClash names root → ∃ registry, Registry.ofRoot names root = .ok registry ∧
      (∀ r ∈ root.subrules, ∃ layout, registry.layout r = .ok layout ∧ layout.Describes names r ∧
        ∀ (other : Rule) (found : Registry), other.Coherent → r ∈ other.subrules →
          Registry.ofRoot names other = .ok found → found.layout r = .ok layout) ∧
      ∀ s, (∀ r ∈ root.subrules, r.number = s.number → r = s) →
        ((∃ fault, registry.layout s = .error fault ∧ fault.kind = .bug) ↔ s ∉ root.subrules)) := by
  cases decides_ofRoot names hroot with
  | refused fault hfault hkind hnot =>
    rw [isClear_iff_not_hasClash, Classical.not_not] at hnot
    exact ⟨iff_of_true ⟨fault, hfault, hkind⟩ hnot, fun hclear => absurd hnot hclear⟩
  | answered registry hregistry hclear =>
    rw [isClear_iff_not_hasClash] at hclear
    obtain ⟨-, hlayouts⟩ := layout_eq hroot hregistry
    refine ⟨iff_of_false ?_ hclear, fun _ => ⟨registry, hregistry, fun r hr => ?_, fun s hs => ?_⟩⟩
    · rintro ⟨fault, hfault, -⟩
      rw [hregistry] at hfault
      cases hfault
    · refine ⟨_, hlayouts r hr, Layout.describes_flatLayout names r, ?_⟩
      intro other found hother hbelow hfound
      exact (layout_eq hother hfound).2 r hbelow
    · constructor
      · rintro ⟨fault, hfault, -⟩ hbelow
        rw [hlayouts s hbelow] at hfault
        cases hfault
      · intro hforeign
        have hnumbers : ∀ r ∈ root.subrules, r.number ≠ s.number := by
          intro r hr hnumber
          exact hforeign (hs r hr hnumber ▸ hr)
        exact ⟨_, layout_foreign hregistry hnumbers, rfl⟩

/-- Two rules with one name: as alternatives they are declared one after the other, and next to one
of them they clash. -/
theorem ofRoot_flattens_alternatives :
    let x := Rule.literal 0 (ascii "a")
    let y := Rule.literal 1 (ascii "b")
    let either := Rule.compound 2 .choice [x, y]
    let root := Rule.compound 4 .sequence [either, .compound 3 .sequence [x]]
    let clashing := Rule.compound 5 .sequence [either, x]
    let names : Naming := [(0, ascii "x"), (1, ascii "x"), (3, ascii "inner")]
    root.Coherent ∧ clashing.Coherent ∧
      (∃ registry layout, Registry.ofRoot names root = .ok registry ∧
        registry.layout root = .ok layout ∧ layout.declared.lookup (ascii "x") = some [x, y] ∧
        ∃ fault, registry.layout clashing = .error fault ∧ fault.kind = .bug) ∧
      ∃ fault, Registry.ofRoot names clashing = .error fault ∧ fault.kind = .tokenRedefinition := by
  intro x y either root clashing names
  have hroot : root.Coherent := by decide
  have hclashing : clashing.Coherent := by decide
  obtain ⟨hrefused, hmade⟩ := ofRoot_flattens names root hroot
  have hclear : ¬ HasClash names root := by
    rw [← hrefused]
    rintro ⟨fault, hfault, -⟩
    cases hfault
  obtain ⟨registry, hregistry, hlayouts, hforeign⟩ := hmade hclear
  obtain ⟨layout, hlayout, hdescribes, -⟩ := hlayouts root (Rule.mem_subrules_self root)
  have hnumbers : ∀ r ∈ root.subrules, r.number = clashing.number → r = clashing := by
    decide
  have houtside : clashing ∉ root.subrules := by decide
  have hclash : HasClash names clashing := by
    refine ⟨clashing, Rule.mem_subrules_self _, rfl, ascii "x", by decide, fun hsame => ?_⟩
    have hdeclared : valuesOf (ascii "x") (clashing.declarations names) = [x, y, x] := rfl
    rw [hdeclared] at hsame
    have hnumber := hsame x (by simp) y (by simp)
    cases hnumber
  exact ⟨hroot, hclashing, ⟨registry, layout, hregistry, hlayout, hdescribes.declared _,
    (hforeign clashing hnumbers).2 houtside⟩, (ofRoot_flattens names clashing hclashing).1.2 hclash⟩

end Registry

end PhraseGrammar
