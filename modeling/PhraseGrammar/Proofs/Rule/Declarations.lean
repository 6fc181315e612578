import PhraseGrammar.Rule.Naming

/-!
# Declarations and sharing

The declarations of a rule are the occurrences of named rules that are reached
from its components through unnamed rules only, from left to right and with
repetition. They are read from the rule as a tree; nothing is remembered about a
rule that occurs twice.

Rules are shared by number: `Rule.Coherent` says that the number tells which rule
it is among all rules at or below a root.
-/

set_option autoImplicit false

namespace PhraseGrammar

namespace Rule

variable {names : Naming}

mutual

/-- A fact about rules that goes from the components of a rule to the rule holds of all rules. -/
theorem induction {motive : Rule → Prop}
    (leaf : ∀ n source regex, motive (.leaf n source regex))
    (compound : ∀ n combinator parts, (∀ part ∈ parts, motive part) →
      motive (.compound n combinator parts)) : (r : Rule) → motive r
  | .leaf n source regex => leaf n source regex
  | .compound n combinator parts =>
    compound n combinator parts (forall_mem_of_induction leaf compound parts)

theorem forall_mem_of_induction {motive : Rule → Prop}
    (leaf : ∀ n source regex, motive (.leaf n source regex))
    (compound : ∀ n combinator parts, (∀ part ∈ parts, motive part) →
      motive (.compound n combinator parts)) : (parts : List Rule) → ∀ part ∈ parts, motive part
  | [] => fun _ hpart => nomatch hpart
  | part :: parts => List.forall_mem_cons.2
    ⟨induction leaf compound part, forall_mem_of_induction leaf compound parts⟩

end

mutual

/-- The names that a rule declares, each with the rule that declares it. -/
def declarations (names : Naming) : Rule → List (Bytes × Rule)
  | leaf _ _ _ => []
  | compound _ _ parts => declarationsOfAll names parts

/-- What the given components declare for the rule around them: a named component
itself, an unnamed one all that it declares. -/
def declarationsOfAll (names : Naming) : List Rule → List (Bytes × Rule)
  | [] => []
  | part :: parts =>
    (match names.name? part with
      | some name => [(name, part)]
      | none => declarations names part) ++ declarationsOfAll names parts

end

/-- What a component declares for the rule around it. -/
def contributed (names : Naming) (part : Rule) : List (Bytes × Rule) :=
  match names.name? part with
  | some name => [(name, part)]
  | none => part.declarations names

theorem contributed_named {part : Rule} {name : Bytes} (h : names.name? part = some name) :
    part.contributed names = [(name, part)] := by
  rw [contributed, h]

theorem contributed_unnamed {part : Rule} (h : names.name? part = none) :
    part.contributed names = part.declarations names := by
  rw [contributed, h]

theorem declarationsOfAll_cons (part : Rule) (parts : List Rule) :
    declarationsOfAll names (part :: parts) =
      part.contributed names ++ declarationsOfAll names parts := by
  rw [declarationsOfAll, contributed]

theorem declarationsOfAll_append (before after : List Rule) :
    declarationsOfAll names (before ++ after) =
      declarationsOfAll names before ++ declarationsOfAll names after := by
  induction before with
  | nil => rfl
  | cons part parts ih =>
    rw [List.cons_append, declarationsOfAll_cons, ih, declarationsOfAll_cons, List.append_assoc]

/-- Components, and all rules below them, are below the rule that they make up. -/
theorem mem_subrules_of_mem_parts {n : Nat} {combinator : Combinator} {parts : List Rule}
    {part r : Rule} (hpart : part ∈ parts) (hr : r ∈ part.subrules) :
    r ∈ (compound n combinator parts).subrules := by
  rw [subrules, subrulesOfAll_eq_flatMap]
  exact List.mem_cons_of_mem _ (List.mem_flatMap.2 ⟨part, hpart, hr⟩)

mutual

/-- What is below a rule that is below another is below the other. -/
theorem mem_subrules_trans : {root r s : Rule} → r ∈ root.subrules → s ∈ r.subrules →
    s ∈ root.subrules
  | leaf _ _ _, r, s, hr, hs => by
    rw [subrules, List.mem_singleton] at hr
    rwa [hr] at hs
  | compound n combinator parts, r, s, hr, hs => by
    rw [subrules] at hr
    rcases List.mem_cons.1 hr with rfl | hbelow
    · exact hs
    · rw [subrules]
      exact List.mem_cons_of_mem _ (mem_subrulesOfAll_trans hbelow hs)

/-- What is below a rule that is below one of the given rules is below one of these. -/
theorem mem_subrulesOfAll_trans : {rs : List Rule} → {r s : Rule} → r ∈ subrulesOfAll rs →
    s ∈ r.subrules → s ∈ subrulesOfAll rs
  | [], _, _, hr, _ => by simp [subrulesOfAll] at hr
  | root :: roots, r, s, hr, hs => by
    rw [subrulesOfAll] at hr ⊢
    rcases List.mem_append.1 hr with hfirst | hrest
    · exact List.mem_append_left _ (mem_subrules_trans hfirst hs)
    · exact List.mem_append_right _ (mem_subrulesOfAll_trans hrest hs)

end

/-- A rule that declares a name for another is below the other. -/
theorem mem_subrules_of_mem_declarations {r s : Rule} {name : Bytes}
    (h : (name, s) ∈ r.declarations names) : s ∈ r.subrules := by
  induction r using Rule.induction with
  | leaf n source regex => cases h
  | compound n combinator parts ih =>
    rw [subrules, subrulesOfAll_eq_flatMap]
    refine List.mem_cons_of_mem _ ?_
    rw [declarations] at h
    clear n combinator
    induction parts with
    | nil => cases h
    | cons part parts ihparts =>
      obtain ⟨hpart, hparts⟩ := List.forall_mem_cons.1 ih
      rw [declarationsOfAll_cons] at h
      rw [List.flatMap_cons]
      rcases List.mem_append.1 h with hfirst | hrest
      · refine List.mem_append_left _ ?_
        cases hname : names.name? part with
        | none =>
          rw [contributed_unnamed hname] at hfirst
          exact hpart hfirst
        | some own =>
          rw [contributed_named hname, List.mem_singleton] at hfirst
          obtain ⟨-, rfl⟩ := Prod.mk.inj hfirst
          exact mem_subrules_self s
      · exact List.mem_append_right _ (ihparts hparts hrest)

/-- Rules at or below a root that have the same number are the same rule. -/
def Coherent (root : Rule) : Prop :=
  ∀ r ∈ root.subrules, ∀ s ∈ root.subrules, r.number = s.number → r = s

/-- What is below a rule is no greater than the rule. -/
theorem sizeOf_le_of_mem_subrules {r s : Rule} (h : s ∈ r.subrules) : sizeOf s ≤ sizeOf r := by
  induction r using Rule.induction with
  | leaf n source regex =>
    rw [subrules, List.mem_singleton] at h
    exact Nat.le_of_eq (congrArg sizeOf h)
  | compound n combinator parts ih =>
    rw [subrules, subrulesOfAll_eq_flatMap] at h
    rcases List.mem_cons.1 h with rfl | hbelow
    · exact Nat.le_refl _
    · obtain ⟨part, hpart, hs⟩ := List.mem_flatMap.1 hbelow
      have hle := ih part hpart hs
      have hlt := List.sizeOf_lt_of_mem hpart
      rw [compound.sizeOf_spec]
      omega

/-- A rule does not occur below its own components, so that none of them has its number. -/
theorem Coherent.number_ne_of_mem_parts {n : Nat} {combinator : Combinator} {parts : List Rule}
    (h : (compound n combinator parts).Coherent) {part s : Rule} (hpart : part ∈ parts)
    (hs : s ∈ part.subrules) : s.number ≠ n := by
  intro hnumber
  have hself := h s (mem_subrules_of_mem_parts hpart hs) _ (mem_subrules_self _) hnumber
  have hle := sizeOf_le_of_mem_subrules hs
  have hlt := List.sizeOf_lt_of_mem hpart
  rw [hself, compound.sizeOf_spec] at hle
  omega

end Rule

end PhraseGrammar
