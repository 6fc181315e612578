import PhraseGrammar.Layout.Registry
import PhraseGrammar.Proofs.Layout.Tables
import PhraseGrammar.Proofs.Rule.Declarations

/-!
# Registries compute flattened layouts

A registry makes the layout of a shared rule once and keeps it in a table by
number. Where numbers tell rules apart the table holds, for every rule at or
below the root, the layout that the rule has as a tree by itself: its
declarations grouped by name, and for each component the offsets at which the
declarations of the components before it end.
-/

set_option autoImplicit false

namespace PhraseGrammar

open NameTable

/-- The placements of the given components, where the components before them have
declared the names `before`. -/
def Rule.placementsAfter (names : Naming) (before : List Bytes) : List Rule → List Placement
  | [] => []
  | part :: parts =>
    ⟨names.name? part, offsetsAfter before (part.contributed names)⟩ ::
      placementsAfter names (before ++ (part.contributed names).map Prod.fst) parts

/-- The layout of a rule, read from the rule as a tree. -/
def Rule.flatLayout (names : Naming) (r : Rule) : Layout :=
  ⟨group (r.declarations names), Rule.placementsAfter names [] r.parts⟩

namespace Layout

variable {names : Naming}

/-- The layout of a component contributes what the component declares. -/
theorem contribution_flatLayout (part : Rule) :
    contribution names part (part.flatLayout names) = group (part.contributed names) := by
  unfold contribution
  split
  · next name h => rw [Rule.contributed_named h, group_singleton]
  · next h => rw [Rule.contributed_unnamed h, Rule.flatLayout]

/-- Added declarations come after those present under the same name, and each offset is
the number of the latter. -/
theorem addDeclarations_eq {owner : Rule} {contribution declared all : NameTable (List Rule)}
    {offsets : List (Bytes × Nat)} (hc : contribution.Sorted) (hd : declared.Sorted)
    (h : addDeclarations owner declared contribution = .ok (all, offsets)) :
    all.Sorted ∧
    (∀ name, all.lookup name =
      match contribution.lookup name with
      | none => declared.lookup name
      | some added => some ((declared.lookup name).getD [] ++ added)) ∧
    offsets = contribution.map fun entry =>
      (entry.1, ((declared.lookup entry.1).getD []).length) := by
  induction contribution generalizing declared all offsets with
  | nil =>
    simp only [addDeclarations, Except.ok.injEq, Prod.mk.injEq] at h
    obtain ⟨rfl, rfl⟩ := h
    exact ⟨hd, fun name => rfl, rfl⟩
  | cons entry rest ih =>
    obtain ⟨name, added⟩ := entry
    simp only [addDeclarations] at h
    split at h
    · split at h
      · next all' offsets' hrest =>
        simp only [Except.ok.injEq, Prod.mk.injEq] at h
        obtain ⟨rfl, rfl⟩ := h
        obtain ⟨hsorted, hlookup, hoffsets⟩ := ih hc.tail (hd.insert _ _) hrest
        have hlater : ∀ entry ∈ rest, entry.1 ≠ name := fun entry hmem => hc.ne_of_mem_tail hmem
        refine ⟨hsorted, fun other => ?_, ?_⟩
        · rw [hlookup, lookup_cons, lookup_insert]
          by_cases heq : other = name
          · have hnone : rest.lookup other = none := by
              cases hfound : rest.lookup other with
              | none => rfl
              | some value => exact absurd heq (hlater _ (mem_of_lookup hfound))
            rw [hnone, if_pos heq, if_pos heq, heq]
          · rw [if_neg heq, if_neg heq]
        · rw [hoffsets, List.map_cons]
          refine congrArg _ (List.map_congr_left fun entry hmem => ?_)
          rw [lookup_insert, if_neg (hlater entry hmem)]
      · cases h
    · cases h

/-- Adding a component to a layout that groups some declarations groups those of the
component after them. -/
theorem addComponent_eq {owner part : Rule} {entries : List (Bytes × Rule)}
    {placements : List Placement} {widened : Layout}
    (h : addComponent ⟨group entries, placements⟩ names owner part (part.flatLayout names) =
      .ok widened) :
    widened = ⟨group (entries ++ part.contributed names), placements ++
      [⟨names.name? part, offsetsAfter (entries.map Prod.fst) (part.contributed names)⟩]⟩ := by
  rw [addComponent, contribution_flatLayout] at h
  split at h
  · next declared offsets hadded =>
    obtain ⟨hsorted, hlookup, hoffsets⟩ :=
      addDeclarations_eq (sorted_group _) (sorted_group _) hadded
    have hdeclared : declared = group (entries ++ part.contributed names) := by
      refine hsorted.ext (sorted_group _) fun name => ?_
      rw [hlookup, lookup_group name (part.contributed names),
        lookup_group name (entries ++ part.contributed names), valuesOf_append]
      by_cases hnil : valuesOf name (part.contributed names) = []
      · simp [hnil, lookup_group]
      · have hne : valuesOf name entries ++ valuesOf name (part.contributed names) ≠ [] := by
          simp [hnil]
        rw [if_neg hnil, if_neg hne]
        simp only [getD_lookup_group]
    have hcounts : offsets = offsetsAfter (entries.map Prod.fst) (part.contributed names) := by
      rw [hoffsets, offsetsAfter]
      refine List.map_congr_left fun entry _ => ?_
      rw [getD_lookup_group, length_valuesOf]
    rw [hdeclared, hcounts] at h
    exact (Except.ok.inj h).symm
  · cases h

end Layout

namespace LayoutTable

/-- All rules at or below a rule have their layouts in a table. -/
def Covers (names : Naming) (table : LayoutTable) (r : Rule) : Prop :=
  ∀ s ∈ r.subrules, table.lookup s.number = some (s.flatLayout names)

/-- A table about the rules at or below a root: whatever it has for one of them is right,
and it also has what is below that rule. -/
def Faithful (names : Naming) (root : Rule) (table : LayoutTable) : Prop :=
  ∀ r ∈ root.subrules, (table.lookup r.number).isSome = true → Covers names table r

/-- What a table has, another has too. -/
def Grows (table extended : LayoutTable) : Prop :=
  ∀ n layout, table.lookup n = some layout → extended.lookup n = some layout

variable {names : Naming} {root : Rule} {table extended : LayoutTable}

theorem Covers.grow {r : Rule} (h : Covers names table r) (hgrows : Grows table extended) :
    Covers names extended r :=
  fun s hs => hgrows _ _ (h s hs)

/-- Adding the layout of a rule to a faithful table that has all rules below it. -/
theorem Faithful.cons (hroot : root.Coherent) {r : Rule} (hr : r ∈ root.subrules)
    (h : Faithful names root table)
    (hbelow : ∀ part ∈ r.parts, Covers names table part) :
    Faithful names root ((r.number, r.flatLayout names) :: table) ∧
      Covers names ((r.number, r.flatLayout names) :: table) r := by
  have hentry (s : Rule) (hs : s ∈ root.subrules)
      (hfound : s = r ∨ table.lookup s.number = some (s.flatLayout names)) :
      List.lookup s.number ((r.number, r.flatLayout names) :: table) =
        some (s.flatLayout names) := by
    by_cases hn : s.number = r.number
    · have hsame : s = r := hroot s hs r hr hn
      subst hsame
      rw [lookup_cons, if_pos rfl]
    · rcases hfound with rfl | hfound
      · exact absurd rfl hn
      · rw [lookup_cons, if_neg hn, hfound]
  have hcovers : Covers names ((r.number, r.flatLayout names) :: table) r := by
    intro s hs
    refine hentry s (Rule.mem_subrules_trans hr hs) ?_
    cases r with
    | leaf n source regex =>
      rw [Rule.subrules, List.mem_singleton] at hs
      exact .inl hs
    | compound n combinator parts =>
      rw [Rule.subrules, Rule.subrulesOfAll_eq_flatMap] at hs
      rcases List.mem_cons.1 hs with hself | hmem
      · exact .inl hself
      · obtain ⟨part, hpart, hs⟩ := List.mem_flatMap.1 hmem
        exact .inr (hbelow part hpart s hs)
  refine ⟨fun s hs hsome => ?_, hcovers⟩
  by_cases hn : s.number = r.number
  · rw [hroot s hs r hr hn]
    exact hcovers
  · rw [lookup_cons, if_neg hn] at hsome
    intro t ht
    exact hentry t (Rule.mem_subrules_trans hs ht) (.inr (h s hs hsome t ht))

/-- What a faithful table has for a rule is the layout of the rule as a tree. -/
theorem Faithful.found (h : Faithful names root table) {r : Rule} (hr : r ∈ root.subrules)
    {layout : Layout} (hfound : table.lookup r.number = some layout) :
    layout = r.flatLayout names ∧ Covers names table r := by
  have hcovers := h r hr (by rw [hfound]; rfl)
  have hlayout := hcovers r (Rule.mem_subrules_self r)
  rw [hfound] at hlayout
  exact ⟨Option.some.inj hlayout, hcovers⟩

theorem Grows.cons (h : Grows table extended) {n : Nat} (hnone : table.lookup n = none)
    (layout : Layout) : Grows table ((n, layout) :: extended) := by
  intro m found hfound
  have hne : m ≠ n := by
    rintro rfl
    rw [hnone] at hfound
    cases hfound
  rw [lookup_cons, if_neg hne]
  exact h m found hfound

mutual

/-- Adding a rule to a faithful table finds the layout of the rule as a tree, keeps the
table faithful and puts in all that is at or below the rule. -/
theorem addRule_eq (hroot : root.Coherent) : (r : Rule) → {table extended : LayoutTable} →
    {layout : Layout} → r ∈ root.subrules → Faithful names root table →
    addRule names r table = .ok (layout, extended) →
    layout = r.flatLayout names ∧ Faithful names root extended ∧ Covers names extended r ∧
      Grows table extended
  | .leaf n source regex, table, extended, layout, hr, hf, h => by
    rw [addRule] at h
    split at h
    · next hfound =>
      simp only [Except.ok.injEq, Prod.mk.injEq] at h
      obtain ⟨rfl, rfl⟩ := h
      obtain ⟨hlayout, hcovers⟩ := hf.found hr hfound
      exact ⟨hlayout, hf, hcovers, fun _ _ hl => hl⟩
    · next hnone =>
      simp only [Except.ok.injEq, Prod.mk.injEq] at h
      obtain ⟨rfl, rfl⟩ := h
      obtain ⟨hfaithful, hcovers⟩ := hf.cons hroot hr (fun part hpart => nomatch hpart)
      exact ⟨rfl, hfaithful, hcovers, Grows.cons (fun _ _ hl => hl) hnone _⟩
  | .compound n combinator parts, table, extended, layout, hr, hf, h => by
    rw [addRule] at h
    split at h
    · next hfound =>
      simp only [Except.ok.injEq, Prod.mk.injEq] at h
      obtain ⟨rfl, rfl⟩ := h
      obtain ⟨hlayout, hcovers⟩ := hf.found hr hfound
      exact ⟨hlayout, hf, hcovers, fun _ _ hl => hl⟩
    · next hnone =>
      split at h
      · cases h
      · next made below hbelow =>
        simp only [Except.ok.injEq, Prod.mk.injEq] at h
        obtain ⟨rfl, rfl⟩ := h
        have hparts : ∀ part ∈ parts, part ∈ root.subrules := fun part hpart =>
          Rule.mem_subrules_trans hr
            (Rule.mem_subrules_of_mem_parts hpart (Rule.mem_subrules_self part))
        obtain ⟨hmade, hfbelow, hcovered, hgrows⟩ := addParts_eq hroot parts [] [] hparts hf hbelow
        have hlayout : made = Rule.flatLayout names (.compound n combinator parts) := hmade
        subst hlayout
        obtain ⟨hfaithful, hcovers⟩ := hfbelow.cons hroot hr hcovered
        exact ⟨rfl, hfaithful, hcovers, hgrows.cons hnone _⟩

/-- Adding components to a faithful table and to a layout puts what they declare after
what the layout has. -/
theorem addParts_eq (hroot : root.Coherent) : (parts : List Rule) →
    (entries : List (Bytes × Rule)) → (placements : List Placement) →
    {owner : Rule} → {table extended : LayoutTable} → {layout : Layout} →
    (∀ part ∈ parts, part ∈ root.subrules) → Faithful names root table →
    addParts names owner parts ⟨group entries, placements⟩ table = .ok (layout, extended) →
    layout = ⟨group (entries ++ Rule.declarationsOfAll names parts),
      placements ++ Rule.placementsAfter names (entries.map Prod.fst) parts⟩ ∧
    Faithful names root extended ∧ (∀ part ∈ parts, Covers names extended part) ∧
    Grows table extended
  | [], entries, placements, _, table, extended, layout, _, hf, h => by
    simp only [addParts, Except.ok.injEq, Prod.mk.injEq] at h
    obtain ⟨rfl, rfl⟩ := h
    refine ⟨?_, hf, (fun part hpart => nomatch hpart), fun _ _ hl => hl⟩
    simp [Rule.declarationsOfAll, Rule.placementsAfter]
  | part :: parts, entries, placements, owner, table, extended, layout, hparts, hf, h => by
    rw [addParts] at h
    split at h
    · cases h
    · next inner middle hpart =>
      obtain ⟨hinner, hfmiddle, hcovers, hgrows⟩ :=
        addRule_eq hroot part (hparts part List.mem_cons_self) hf hpart
      subst hinner
      split at h
      · cases h
      · next widened hadded =>
        have hwidened := Layout.addComponent_eq hadded
        subst hwidened
        obtain ⟨hlayout, hfaithful, hrest, hgrowsRest⟩ := addParts_eq hroot parts _ _
          (fun part hmem => hparts part (List.mem_cons_of_mem _ hmem)) hfmiddle h
        refine ⟨?_, hfaithful, ?_, fun m found hl => hgrowsRest _ _ (hgrows _ _ hl)⟩
        · rw [hlayout, Rule.declarationsOfAll_cons, Rule.placementsAfter]
          simp only [List.map_append, List.append_assoc, List.cons_append, List.nil_append]
        · intro other hmem
          rcases List.mem_cons.1 hmem with rfl | hother
          · exact hcovers.grow hgrowsRest
          · exact hrest other hother

end

end LayoutTable

/-- The registry of a root has, for each rule at or below it, the layout of the rule as a
tree. -/
theorem Registry.layout_eq {names : Naming} {root : Rule} {registry : Registry}
    (hroot : root.Coherent) (h : Registry.ofRoot names root = .ok registry) :
    registry.root = root ∧
      ∀ r ∈ root.subrules, registry.layout r = .ok (r.flatLayout names) := by
  obtain ⟨⟨layout, layouts⟩, hadded, rfl⟩ := exists_of_map_eq_ok h
  have hempty : LayoutTable.Faithful names root [] := fun r _ hsome => nomatch hsome
  obtain ⟨-, -, hcovers, -⟩ :=
    LayoutTable.addRule_eq hroot root (Rule.mem_subrules_self root) hempty hadded
  refine ⟨rfl, fun r hr => ?_⟩
  rw [Registry.layout, hcovers r hr]

end PhraseGrammar
