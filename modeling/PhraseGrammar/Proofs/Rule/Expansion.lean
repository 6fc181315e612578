import PhraseGrammar.Proofs.Layout.Clashes
import PhraseGrammar.Proofs.Regex.Completeness
import PhraseGrammar.Proofs.Regex.Soundness
import PhraseGrammar.Proofs.Rule.Readings

/-!
# Expanding an optional

An optional can be written as a choice between the sequence of its components and the empty
text. `Rule.expand` does so with one optional wherever it occurs below a rule. All other rules
stay, though they may get new numbers, since a rule whose components are others is another rule.

The expansion keeps what a rule declares and which names clash, and it keeps what the rule yields.
For the optional itself this is a comparison of a rule that is skipped with a choice of the empty
text. For the rules around it, it follows because they depend on their components only
through what these pass on.
-/

set_option autoImplicit false

namespace PhraseGrammar

open NameTable

/-- How to expand an optional: its number, the numbers of the three rules that stand for it, and
the numbers that the other rules get. -/
structure Expansion where
  optional : Nat
  choice : Nat
  sequence : Nat
  nothing : Nat
  number : Nat → Nat

namespace Rule

mutual

/-- The rule in which an optional is replaced, wherever it occurs, by the choice between the
sequence of its components and the empty text. -/
def expand (e : Expansion) : Rule → Rule
  | leaf n source regex => leaf (e.number n) source regex
  | compound n combinator parts =>
    if n = e.optional then
      compound e.choice .choice
        [compound e.sequence .sequence (expandAll e parts), literal e.nothing []]
    else compound (e.number n) combinator (expandAll e parts)

/-- Several rules with the optional replaced. -/
def expandAll (e : Expansion) : List Rule → List Rule
  | [] => []
  | r :: rs => expand e r :: expandAll e rs

end

variable {e : Expansion} {names names' : Naming} {opts : RegexOptions}

theorem expandAll_eq_map (rs : List Rule) : expandAll e rs = rs.map (expand e) := by
  induction rs with
  | nil => rfl
  | cons r rs ih => rw [expandAll, ih, List.map_cons]

/-- A rule other than the optional keeps its kind and has its components expanded. -/
theorem expand_of_ne {n : Nat} (h : n ≠ e.optional) (combinator : Combinator) (parts : List Rule) :
    expand e (.compound n combinator parts) =
      .compound (e.number n) combinator (parts.map (expand e)) := by
  rw [expand, if_neg h, expandAll_eq_map]

/-- The optional becomes a choice between the sequence of its expanded components and the empty
text. -/
theorem expand_optional (combinator : Combinator) (parts : List Rule) :
    expand e (.compound e.optional combinator parts) =
      .compound e.choice .choice
        [.compound e.sequence .sequence (parts.map (expand e)), literal e.nothing []] := by
  rw [expand, if_pos rfl, expandAll_eq_map]

/-- Rules that have no such optional at or below them, and keep their numbers, stay as they are. -/
theorem expand_eq_self {r : Rule}
    (h : ∀ s ∈ r.subrules, s.number ≠ e.optional ∧ e.number s.number = s.number) :
    r.expand e = r := by
  induction r using Rule.induction with
  | leaf n source regex =>
    have hnumber : e.number n = n := (h _ (mem_subrules_self _)).2
    rw [expand, hnumber]
  | compound n combinator parts ih =>
    obtain ⟨hn, hnumber⟩ : n ≠ e.optional ∧ e.number n = n := h _ (mem_subrules_self _)
    have hparts : parts.map (expand e) = parts.map id :=
      List.map_congr_left fun part hpart =>
        ih part hpart fun s hs => h s (mem_subrules_of_mem_parts hpart hs)
    rw [expand_of_ne hn, hnumber, hparts, List.map_id]

/-- If all rules below an optional keep their numbers, the sequence that stands for it has the very
components that the optional had. -/
theorem expand_optional_of_kept {combinator : Combinator} {parts : List Rule}
    (hroot : (compound e.optional combinator parts).Coherent)
    (h : ∀ s ∈ (compound e.optional combinator parts).subrules,
      s.number ≠ e.optional → e.number s.number = s.number) :
    expand e (.compound e.optional combinator parts) =
      .compound e.choice .choice [.compound e.sequence .sequence parts, literal e.nothing []] := by
  have hparts : parts.map (expand e) = parts.map id :=
    List.map_congr_left fun part hpart => expand_eq_self fun s hs => by
      have hnumber := hroot.number_ne_of_mem_parts hpart hs
      exact ⟨hnumber, h s (mem_subrules_of_mem_parts hpart hs) hnumber⟩
  rw [expand_optional, hparts, List.map_id]

/-- At or below a rule, the number of the optional belongs to optionals without a name, the rules
that stand for it have no names either, and all other rules have the same names as before. -/
structure Expands (e : Expansion) (names names' : Naming) (r : Rule) : Prop where
  isOptional : ∀ s ∈ r.subrules, s.number = e.optional →
    ∃ parts, s = .compound e.optional .optional parts
  kept : ∀ s ∈ r.subrules, s.number ≠ e.optional →
    names'.lookup (e.number s.number) = names.lookup s.number
  optional : names.lookup e.optional = none
  choice : names'.lookup e.choice = none
  sequence : names'.lookup e.sequence = none
  nothing : names'.lookup e.nothing = none

theorem Expands.part {n : Nat} {combinator : Combinator} {parts : List Rule}
    (h : Expands e names names' (.compound n combinator parts)) {part : Rule}
    (hpart : part ∈ parts) : Expands e names names' part where
  isOptional s hs := h.isOptional s (mem_subrules_of_mem_parts hpart hs)
  kept s hs := h.kept s (mem_subrules_of_mem_parts hpart hs)
  optional := h.optional
  choice := h.choice
  sequence := h.sequence
  nothing := h.nothing

theorem number_expand_of_ne {r : Rule} (h : r.number ≠ e.optional) :
    (r.expand e).number = e.number r.number := by
  cases r with
  | leaf n source regex => rfl
  | compound n combinator parts =>
    have hn : n ≠ e.optional := h
    rw [expand_of_ne hn]
    rfl

/-- A rule has the same name as before, or none as before. -/
theorem Expands.name? {r : Rule} (h : Expands e names names' r) :
    names'.name? (r.expand e) = names.name? r := by
  by_cases hnumber : r.number = e.optional
  · obtain ⟨parts, rfl⟩ := h.isOptional r (mem_subrules_self r) hnumber
    rw [expand_optional]
    exact h.choice.trans h.optional.symm
  · rw [Naming.name?, number_expand_of_ne hnumber]
    exact h.kept r (mem_subrules_self r) hnumber

/-! ## Declarations -/

/-- A rule that is expanded declares the same names, by the expanded rules. -/
theorem Expands.contributed_of_declarations {r : Rule} (h : Expands e names names' r)
    (hdeclared : (r.expand e).declarations names' =
      (r.declarations names).map fun entry => (entry.1, entry.2.expand e)) :
    (r.expand e).contributed names' =
      (r.contributed names).map fun entry => (entry.1, entry.2.expand e) := by
  have hname := h.name?
  cases hown : names.name? r with
  | none =>
    rw [contributed_unnamed hown, contributed_unnamed (hname.trans hown), hdeclared]
  | some name =>
    rw [contributed_named hown, contributed_named (hname.trans hown)]
    rfl

theorem declarationsOfAll_map_expand {parts : List Rule}
    (h : ∀ part ∈ parts, (part.expand e).contributed names' =
      (part.contributed names).map fun entry => (entry.1, entry.2.expand e)) :
    declarationsOfAll names' (parts.map (expand e)) =
      (declarationsOfAll names parts).map fun entry => (entry.1, entry.2.expand e) := by
  induction parts with
  | nil => rfl
  | cons part parts ih =>
    obtain ⟨hpart, hparts⟩ := List.forall_mem_cons.1 h
    rw [List.map_cons, declarationsOfAll_cons, declarationsOfAll_cons, hpart, ih hparts,
      List.map_append]

/-- A rule declares the same names as before, by the expanded rules. -/
theorem Expands.declarations {r : Rule} (h : Expands e names names' r) :
    (r.expand e).declarations names' =
      (r.declarations names).map fun entry => (entry.1, entry.2.expand e) := by
  induction r using Rule.induction with
  | leaf n source regex => rfl
  | compound n combinator parts ih =>
    have hparts := declarationsOfAll_map_expand fun part hpart =>
      (h.part hpart).contributed_of_declarations (ih part hpart (h.part hpart))
    by_cases hn : n = e.optional
    · subst hn
      have hsequence :
          names'.name? (.compound e.sequence .sequence (parts.map (expand e))) = none :=
        h.sequence
      have hnothing : names'.name? (literal e.nothing []) = none := h.nothing
      rw [expand_optional, Rule.declarations, Rule.declarations, declarationsOfAll_cons,
        contributed_unnamed hsequence, Rule.declarations, hparts, declarationsOfAll_cons,
        contributed_unnamed hnothing]
      exact List.append_nil _
    · rw [expand_of_ne hn, Rule.declarations, Rule.declarations, hparts]

theorem Expands.contributed {r : Rule} (h : Expands e names names' r) :
    (r.expand e).contributed names' =
      (r.contributed names).map fun entry => (entry.1, entry.2.expand e) :=
  h.contributed_of_declarations h.declarations

/-! ## Clashes -/

/-- Different rules at or below a rule get different numbers, those of the optional apart. -/
def KeepsDistinct (e : Expansion) (r : Rule) : Prop :=
  ∀ s ∈ r.subrules, s.number ≠ e.optional → ∀ t ∈ r.subrules, t.number ≠ e.optional →
    e.number s.number = e.number t.number → s.number = t.number

instance (e : Expansion) (r : Rule) : Decidable (r.KeepsDistinct e) :=
  inferInstanceAs (Decidable (∀ s ∈ r.subrules, s.number ≠ e.optional → ∀ t ∈ r.subrules,
    t.number ≠ e.optional → e.number s.number = e.number t.number → s.number = t.number))

theorem KeepsDistinct.part {n : Nat} {combinator : Combinator} {parts : List Rule}
    (h : KeepsDistinct e (.compound n combinator parts)) {part : Rule} (hpart : part ∈ parts) :
    KeepsDistinct e part :=
  fun s hs hsNumber t ht htNumber =>
    h s (mem_subrules_of_mem_parts hpart hs) hsNumber
      t (mem_subrules_of_mem_parts hpart ht) htNumber

/-- A rule that is declared has the name under which it is. -/
theorem name?_of_mem_declarations {r s : Rule} {name : Bytes}
    (h : (name, s) ∈ r.declarations names) : names.name? s = some name := by
  induction r using Rule.induction with
  | leaf n source regex => cases h
  | compound n combinator parts ih =>
    rw [declarations] at h
    clear n combinator
    induction parts with
    | nil => cases h
    | cons part parts ihparts =>
      obtain ⟨hpart, hparts⟩ := List.forall_mem_cons.1 ih
      rw [declarationsOfAll_cons] at h
      rcases List.mem_append.1 h with hfirst | hrest
      · cases hname : names.name? part with
        | none =>
          rw [contributed_unnamed hname] at hfirst
          exact hpart hfirst
        | some own =>
          rw [contributed_named hname, List.mem_singleton] at hfirst
          obtain ⟨rfl, rfl⟩ := Prod.mk.inj hfirst
          exact hname
      · exact ihparts hparts hrest

theorem Expands.declares {r : Rule} (h : Expands e names names' r) (name : Bytes) :
    Rule.declares names' name (r.expand e) = Rule.declares names name r := by
  rw [Rule.declares, Rule.declares, h.contributed, List.any_map]
  rfl

section compound

variable {n : Nat} {combinator : Combinator} {parts : List Rule}

theorem Expands.declarationsOfAll (h : Expands e names names' (.compound n combinator parts)) :
    Rule.declarationsOfAll names' (parts.map (expand e)) =
      (Rule.declarationsOfAll names parts).map fun entry => (entry.1, entry.2.expand e) :=
  declarationsOfAll_map_expand fun _ hpart => (h.part hpart).contributed

/-- Components declare a name by one rule exactly if they do after the expansion: rules that
are declared have names, so none of them is the optional. -/
theorem Expands.allSame_iff (h : Expands e names names' (.compound n combinator parts))
    (hdistinct : KeepsDistinct e (.compound n combinator parts)) (name : Bytes) :
    AllSame (valuesOf name (Rule.declarationsOfAll names' (parts.map (expand e)))) ↔
      AllSame (valuesOf name (Rule.declarationsOfAll names parts)) := by
  have hdeclared : ∀ s ∈ valuesOf name (Rule.declarationsOfAll names parts),
      s ∈ (compound n combinator parts).subrules ∧ s.number ≠ e.optional := by
    intro s hs
    have hmem : (name, s) ∈ (compound n combinator parts).declarations names := mem_valuesOf.1 hs
    refine ⟨mem_subrules_of_mem_declarations hmem, fun hnumber => ?_⟩
    have hname := name?_of_mem_declarations hmem
    rw [Naming.name?, hnumber, h.optional] at hname
    cases hname
  rw [h.declarationsOfAll, valuesOf_map]
  simp only [AllSame, List.forall_mem_map]
  refine forall₂_congr fun s hs => forall₂_congr fun t ht => ?_
  obtain ⟨hsBelow, hsNumber⟩ := hdeclared s hs
  obtain ⟨htBelow, htNumber⟩ := hdeclared t ht
  rw [number_expand_of_ne hsNumber, number_expand_of_ne htNumber]
  exact ⟨hdistinct s hsBelow hsNumber t htBelow htNumber, congrArg e.number⟩

/-- The components of a rule are ambiguous exactly if they are after the expansion, if they make
up a choice in both cases or in none. -/
theorem Expands.isUnambiguous_iff (h : Expands e names names' (.compound n combinator parts))
    (hdistinct : KeepsDistinct e (.compound n combinator parts)) (n' : Nat)
    (combinator' : Combinator)
    (hchoice : (compound n' combinator' (parts.map (expand e))).isChoice =
      (compound n combinator parts).isChoice) :
    (compound n' combinator' (parts.map (expand e))).IsUnambiguous names' ↔
      (compound n combinator parts).IsUnambiguous names := by
  have hcount (name : Bytes) : (parts.map (expand e)).countP (Rule.declares names' name) =
      parts.countP (Rule.declares names name) := by
    rw [List.countP_map]
    exact List.countP_congr fun part hpart => by
      rw [Function.comp_apply, (h.part hpart).declares]
  simp only [IsUnambiguous, hchoice, Rule.parts, Rule.declarations, hcount,
    h.allSame_iff hdistinct]

end compound

theorem isClear_leaf (n : Nat) (source : Bytes) (regex : Regex) :
    (leaf n source regex).IsClear names := by
  intro s hs
  rw [subrules, List.mem_singleton] at hs
  rw [hs]
  exact isUnambiguous_leaf n source regex

/-- Expanding an optional does not make a rule ambiguous, and no ambiguity goes away: the sequence
is ambiguous where the optional is. -/
theorem Expands.isClear_iff {r : Rule} (h : Expands e names names' r)
    (hdistinct : KeepsDistinct e r) : (r.expand e).IsClear names' ↔ r.IsClear names := by
  induction r using Rule.induction with
  | leaf n source regex => exact iff_of_true (isClear_leaf _ _ _) (isClear_leaf _ _ _)
  | compound n combinator parts ih =>
    have hparts : (∀ part ∈ parts.map (expand e), part.IsClear names') ↔
        ∀ part ∈ parts, part.IsClear names := by
      rw [List.forall_mem_map]
      exact forall₂_congr fun part hpart => ih part hpart (h.part hpart) (hdistinct.part hpart)
    by_cases hn : n = e.optional
    · subst hn
      obtain ⟨others, hself⟩ := h.isOptional _ (mem_subrules_self _) rfl
      obtain ⟨-, rfl, rfl⟩ := Rule.compound.inj hself
      have hchoice (parts : List Rule) : (compound e.choice .choice parts).IsUnambiguous names' :=
        .inl rfl
      have hsequence := h.isUnambiguous_iff hdistinct e.sequence .sequence rfl
      rw [expand_optional]
      simp only [isClear_compound_iff, hchoice, true_and, List.forall_mem_cons, literal,
        isClear_leaf, hsequence, hparts, List.not_mem_nil, false_implies, implies_true, and_true]
    · have hchoice : (compound (e.number n) combinator (parts.map (expand e))).isChoice =
          (compound n combinator parts).isChoice := by
        cases combinator <;> rfl
      have hself := h.isUnambiguous_iff hdistinct (e.number n) combinator hchoice
      rw [expand_of_ne hn, isClear_compound_iff, isClear_compound_iff, hself, hparts]

/-! ## Yields -/

/-- Where given bytes are at the start of a text, they are what is consumed. -/
theorem consume_literal (opts : RegexOptions) {bytes text : Bytes} (h : bytes <+: text) :
    (Regex.literal bytes).consume opts text 0 = .ok (some bytes.length) := by
  have hmatches : Regex.Matches opts text 0 (.literal bytes) 0 (0 + bytes.length) := .literal h
  have hstart : 0 ≤ text.length := Nat.zero_le _
  obtain ⟨-, hmatched⟩ := Regex.matchedAt_of_matches rfl rfl hstart hmatches
  obtain ⟨result, hresult, hlongest⟩ := Regex.consume_eq opts (r := .literal bytes) rfl hstart
  rcases hlongest with ⟨-, hnone⟩ | ⟨k, -, rfl, hk, -⟩
  · exact absurd hmatched (hnone _ (Nat.zero_le _))
  · have hend := Regex.matches_of_matchedAt hk
    generalize hstop : 0 + k = stop at hend
    cases hend
    rw [hresult, Option.map_some, hstop, Nat.zero_add]

/-- The empty text without a name yields nothing, wherever it is derived. -/
theorem partYield_nothing {n : Nat} (h : names.lookup n = none) (text : Bytes) :
    partYield names opts (literal n []) text = .ok (.ok ⟨[], []⟩) := by
  have hname : names.name? (literal n []) = none := h
  rw [partYield_unnamed names opts hname, reading, literal, derive, deriveLeaf,
    consume_literal opts List.nil_prefix]
  rfl

theorem Expands.names_contributed {r : Rule} (h : Expands e names names' r) :
    ((r.expand e).contributed names').map Prod.fst = (r.contributed names).map Prod.fst := by
  rw [h.contributed, List.map_map]
  rfl

section compound

variable {n : Nat} {combinator : Combinator} {parts : List Rule}

/-- A rule whose components pass on the same after the expansion yields the same. -/
theorem Expands.reading_of_parts (h : Expands e names names' (.compound n combinator parts))
    (hparts : ∀ part ∈ parts, ∀ text,
      partYield names' opts (part.expand e) text = partYield names opts part text) (n' : Nat)
    (text : Bytes) :
    reading names' opts (.compound n' combinator (parts.map (expand e))) text =
      reading names opts (.compound n combinator parts) text := by
  have hnames : ∀ part ∈ parts, ((part.expand e).contributed names').map Prod.fst =
      (part.contributed names).map Prod.fst :=
    fun part hpart => (h.part hpart).names_contributed
  cases combinator with
  | sequence => rw [reading_sequence, reading_sequence, rowYield_map hparts]
  | choice =>
    rw [reading_choice, reading_choice,
      firstYield_map (fun part hpart => hparts part hpart text) hnames]
  | optional =>
    rw [reading_optional, reading_optional, rowYield_map hparts,
      blank_congr (names_declarationsOfAll_map hnames)]

/-- An optional that is skipped yields what the empty text yields as the second alternative, after
the sequence has failed. -/
theorem Expands.yield_optional (h : Expands e names names' (.compound e.optional .optional parts))
    (hparts : ∀ part ∈ parts, ∀ text,
      partYield names' opts (part.expand e) text = partYield names opts part text) (text : Bytes) :
    (reading names' opts (.compound e.choice .choice
        [.compound e.sequence .sequence (parts.map (expand e)), literal e.nothing []]) text).map
        (Except.map Reading.yield) =
      (reading names opts (.compound e.optional .optional parts) text).map
        (Except.map Reading.yield) := by
  have hnothing : names'.name? (literal e.nothing []) = none := h.nothing
  have hsequence : names'.name? (.compound e.sequence .sequence (parts.map (expand e))) = none :=
    h.sequence
  have hblank : blank (Rule.declarationsOfAll names' (parts.map (expand e))) =
      blank (Rule.declarationsOfAll names parts) :=
    blank_congr (names_declarationsOfAll_map fun part hpart => (h.part hpart).names_contributed)
  rw [reading_choice, reading_optional, firstYield, firstYield,
    partYield_sequence names' opts hsequence, partYield_nothing h.nothing,
    contributed_unnamed hsequence, Rule.declarations, hblank, declarationsOfAll_cons,
    contributed_unnamed hnothing, rowYield_map hparts]
  rcases rowYield names opts parts text with fault | mm | y
  · rfl
  · simp only [Except.map, Except.bind, Yield.afterFailures, Yield.settle, Reading.taken,
      Reading.orSkipped, blank, Rule.declarationsOfAll, List.map_nil, List.append_nil]
  · simp only [Except.map, Except.bind, Yield.settle, Reading.taken, Reading.orSkipped, blank,
      literal, Rule.declarations, Rule.declarationsOfAll, List.map_nil, List.append_nil]

end compound

/-- Expanding an optional changes neither what a rule yields by itself nor what it passes on. The
rules around the optional are not told whether it was skipped, since it has no name. -/
theorem Expands.yield {r : Rule} (h : Expands e names names' r) (opts : RegexOptions)
    (text : Bytes) :
    (reading names' opts (r.expand e) text).map (Except.map Reading.yield) =
        (reading names opts r text).map (Except.map Reading.yield) ∧
      partYield names' opts (r.expand e) text = partYield names opts r text := by
  induction r using Rule.induction generalizing text with
  | leaf n source regex =>
    have hreading : reading names' opts ((leaf n source regex).expand e) text =
      reading names opts (leaf n source regex) text := rfl
    rw [partYield_eq, partYield_eq, hreading, h.name?]
    exact ⟨rfl, rfl⟩
  | compound n combinator parts ih =>
    have hparts : ∀ part ∈ parts, ∀ text,
        partYield names' opts (part.expand e) text = partYield names opts part text :=
      fun part hpart text => (ih part hpart (h.part hpart) text).2
    by_cases hn : n = e.optional
    · subst hn
      obtain ⟨others, hself⟩ := h.isOptional _ (mem_subrules_self _) rfl
      obtain ⟨-, rfl, rfl⟩ := Rule.compound.inj hself
      have hyield := h.yield_optional hparts text
      have hunnamed : names.name? (.compound e.optional .optional parts) = none := h.optional
      have hunnamed' := h.name?.trans hunnamed
      rw [partYield_unnamed _ _ hunnamed, partYield_unnamed _ _ hunnamed', expand_optional]
      exact ⟨hyield, hyield⟩
    · have hreading := h.reading_of_parts hparts (e.number n) text
      rw [partYield_eq, partYield_eq, h.name?, expand_of_ne hn, hreading]
      exact ⟨rfl, rfl⟩

end Rule

end PhraseGrammar
