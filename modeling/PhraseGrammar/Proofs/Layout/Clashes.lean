import PhraseGrammar.Proofs.Layout.Flattening

/-!
# When a registry is refused

A rule that is not a choice is ambiguous if some name is declared by two or more of
its components and not always by the same rule. The registry of a root looks at the
components one after the other, and at each rule once; `Registry.decides_ofRoot` says
that it is refused, as the redefinition of a token, exactly if there is an ambiguous
rule at or below the root.

The check is incremental. What it asks of a component depends on the declarations of
the components before it; `Rule.fitInTurn_nil_iff` removes the order from it.
-/

set_option autoImplicit false

namespace PhraseGrammar

open NameTable

/-- A request is answered if a condition holds, and refused as the redefinition of a
token if it does not. -/
inductive Decides {α : Type} (condition : Prop) (request : Except Fault α) : Prop
  | answered (a : α) (h : request = .ok a) (hcondition : condition)
  | refused (fault : Fault) (h : request = .error fault)
      (hkind : fault.kind = .tokenRedefinition) (hcondition : ¬ condition)

namespace Decides

variable {α β : Type} {p q : Prop} {request : Except Fault α}

/-- What decides a request may be put in other words. -/
theorem congr (h : Decides p request) (hiff : p ↔ q) : Decides q request := by
  cases h with
  | answered a ha hp => exact .answered a ha (hiff.1 hp)
  | refused fault hfault hkind hp => exact .refused fault hfault hkind (mt hiff.2 hp)

/-- Of a request that is answered, the condition holds. -/
theorem of_eq_ok (h : Decides p request) {a : α} (hok : request = .ok a) : p := by
  cases h with
  | answered _ _ hp => exact hp
  | refused fault hfault =>
    rw [hok] at hfault
    cases hfault

theorem map (h : Decides p request) (f : α → β) : Decides p (request.map f) := by
  cases h with
  | answered a ha hp =>
    subst ha
    exact .answered (f a) rfl hp
  | refused fault hfault hkind hp =>
    subst hfault
    exact .refused fault rfl hkind hp

/-- Requests that are decided alike are both refused or both answered. -/
theorem agree {other : Except Fault β} (h : Decides p request) (hother : Decides q other)
    (hiff : p ↔ q) :
    (∃ fault fault', request = .error fault ∧ other = .error fault' ∧
      fault.kind = .tokenRedefinition ∧ fault'.kind = .tokenRedefinition) ∨
    ∃ a b, request = .ok a ∧ other = .ok b := by
  cases h with
  | answered a ha hp =>
    cases hother with
    | answered b hb _ => exact .inr ⟨a, b, ha, hb⟩
    | refused fault' _ _ hnot => exact absurd (hiff.1 hp) hnot
  | refused fault hfault hkind hnot =>
    cases hother with
    | answered b _ hq => exact absurd (hiff.2 hq) hnot
    | refused fault' hfault' hkind' _ => exact .inl ⟨fault, fault', hfault, hfault', hkind, hkind'⟩

end Decides

namespace Rule

variable {names : Naming} {name : Bytes}

/-- Some rules are all the same one. -/
def AllSame (rules : List Rule) : Prop :=
  ∀ r ∈ rules, ∀ s ∈ rules, r.number = s.number

/-- Whether a component declares a name for the rule around it. -/
def declares (names : Naming) (name : Bytes) (part : Rule) : Bool :=
  (part.contributed names).any fun entry => entry.1 == name

/-- Under each name, a rule has declarations by one component, or by one rule. In a choice
this does not matter. -/
def IsUnambiguous (names : Naming) (r : Rule) : Prop :=
  r.isChoice = true ∨ ∀ name, r.parts.countP (declares names name) ≤ 1 ∨
    AllSame (valuesOf name (r.declarations names))

theorem AllSame.of_append_left {before after : List Rule} (h : AllSame (before ++ after)) :
    AllSame before := by
  intro r hr s hs
  exact h r (List.mem_append_left _ hr) s (List.mem_append_left _ hs)

/-- A component does not declare a name exactly if it contributes no declaration of it. -/
theorem declares_eq_false_iff (part : Rule) :
    declares names name part = false ↔ valuesOf name (part.contributed names) = [] := by
  simp [declares, valuesOf, List.filter_eq_nil_iff]

theorem valuesOf_declarationsOfAll_cons (part : Rule) (parts : List Rule) :
    valuesOf name (declarationsOfAll names (part :: parts)) =
      valuesOf name (part.contributed names) ++ valuesOf name (declarationsOfAll names parts) := by
  rw [declarationsOfAll_cons, valuesOf_append]

theorem valuesOf_eq_nil_iff (parts : List Rule) :
    valuesOf name (declarationsOfAll names parts) = [] ↔ parts.countP (declares names name) = 0 := by
  induction parts with
  | nil => simp [declarationsOfAll, valuesOf]
  | cons part parts ih =>
    rw [valuesOf_declarationsOfAll_cons, List.append_eq_nil_iff, ih, ← declares_eq_false_iff]
    by_cases hdeclares : declares names name part = true
    · simp [hdeclares]
    · simp [hdeclares]

/-- Components are taken up one after the other, where those before them have declared a
name by the rules in `present`. -/
def FitInTurn (names : Naming) (name : Bytes) (present : List Rule) : List Rule → Prop
  | [] => True
  | part :: parts =>
    (present = [] ∨ valuesOf name (part.contributed names) = [] ∨
      AllSame (present ++ valuesOf name (part.contributed names))) ∧
    FitInTurn names name (present ++ valuesOf name (part.contributed names)) parts

/-- After a first declaration no component may declare the name unless all declarations
are by the same rule. -/
theorem fitInTurn_iff {present : List Rule} (hpresent : present ≠ []) (parts : List Rule) :
    FitInTurn names name present parts ↔
      parts.countP (declares names name) = 0 ∨
        AllSame (present ++ valuesOf name (declarationsOfAll names parts)) := by
  induction parts generalizing present with
  | nil => simp [FitInTurn]
  | cons part parts ih =>
    rw [FitInTurn, valuesOf_declarationsOfAll_cons]
    by_cases hnil : valuesOf name (part.contributed names) = []
    · have hnot := (declares_eq_false_iff part).2 hnil
      rw [List.countP_cons_of_neg (by simp [hnot]), hnil, List.append_nil, ih hpresent]
      simp
    · have hdeclares : declares names name part = true := by
        rw [← Bool.not_eq_false, declares_eq_false_iff]
        exact hnil
      have hmore : present ++ valuesOf name (part.contributed names) ≠ [] :=
        List.append_ne_nil_of_left_ne_nil hpresent _
      rw [List.countP_cons_of_pos hdeclares, ih hmore, List.append_assoc]
      constructor
      · rintro ⟨hfits, hrest | hsame⟩
        · rw [(valuesOf_eq_nil_iff parts).2 hrest, List.append_nil]
          exact .inr ((hfits.resolve_left hpresent).resolve_left hnil)
        · exact .inr hsame
      · rintro (hzero | hsame)
        · omega
        · rw [← List.append_assoc] at hsame
          refine ⟨.inr (.inr hsame.of_append_left), .inr ?_⟩
          rwa [← List.append_assoc]

/-- Taking up all components of a rule does not depend on their order. -/
theorem fitInTurn_nil_iff (parts : List Rule) :
    FitInTurn names name [] parts ↔
      parts.countP (declares names name) ≤ 1 ∨
        AllSame (valuesOf name (declarationsOfAll names parts)) := by
  induction parts with
  | nil => simp [FitInTurn]
  | cons part parts ih =>
    rw [FitInTurn, valuesOf_declarationsOfAll_cons, List.nil_append]
    by_cases hnil : valuesOf name (part.contributed names) = []
    · have hnot := (declares_eq_false_iff part).2 hnil
      rw [List.countP_cons_of_neg (by simp [hnot]), hnil, ih]
      simp
    · have hdeclares : declares names name part = true := by
        rw [← Bool.not_eq_false, declares_eq_false_iff]
        exact hnil
      rw [List.countP_cons_of_pos hdeclares, fitInTurn_iff hnil]
      simp

/-- A rule is not ambiguous exactly if it is a choice, or its components fit one after the other. -/
theorem isUnambiguous_iff (n : Nat) (combinator : Combinator) (parts : List Rule) :
    (compound n combinator parts).IsUnambiguous names ↔
      (compound n combinator parts).isChoice = true ∨ ∀ name, FitInTurn names name [] parts := by
  simp only [IsUnambiguous, fitInTurn_nil_iff, Rule.parts, declarations]

theorem isUnambiguous_leaf (n : Nat) (source : Bytes) (regex : Regex) :
    (leaf n source regex).IsUnambiguous names :=
  .inr fun _ => .inl (Nat.zero_le 1)

/-- No rule at or below a rule is ambiguous. -/
def IsClear (names : Naming) (r : Rule) : Prop :=
  ∀ s ∈ r.subrules, s.IsUnambiguous names

/-- There is nothing ambiguous at or below a rule exactly if it is not so itself and there is
nothing ambiguous at or below its components. -/
theorem isClear_compound_iff (n : Nat) (combinator : Combinator) (parts : List Rule) :
    (compound n combinator parts).IsClear names ↔
      (compound n combinator parts).IsUnambiguous names ∧
        ∀ part ∈ parts, part.IsClear names := by
  simp only [IsClear, subrules, subrulesOfAll_eq_flatMap, List.forall_mem_cons,
    List.mem_flatMap]
  constructor
  · rintro ⟨hself, hbelow⟩
    exact ⟨hself, fun part hpart s hs => hbelow s ⟨part, hpart, hs⟩⟩
  · rintro ⟨hself, hbelow⟩
    exact ⟨hself, fun s ⟨part, hpart, hs⟩ => hbelow part hpart s hs⟩

end Rule

namespace Layout

theorem sameDeclarer_iff (rules : List Rule) : sameDeclarer rules = true ↔ Rule.AllSame rules := by
  cases rules with
  | nil => simp [sameDeclarer, Rule.AllSame]
  | cons first rest =>
    simp only [sameDeclarer, List.all_eq_true, beq_iff_eq]
    constructor
    · intro h
      have hfirst : ∀ r ∈ first :: rest, r.number = first.number :=
        List.forall_mem_cons.2 ⟨rfl, h⟩
      intro r hr s hs
      rw [hfirst r hr, hfirst s hs]
    · intro h r hr
      exact h r (List.mem_cons_of_mem _ hr) first List.mem_cons_self

/-- A name may be declared in a choice, for the first time, or by the rule that declares it
already. -/
theorem mayDeclare_iff (owner : Rule) (present added : List Rule) :
    mayDeclare owner present added = true ↔
      owner.isChoice = true ∨ present = [] ∨ Rule.AllSame (present ++ added) := by
  rw [mayDeclare, Bool.or_eq_true, Bool.or_eq_true, sameDeclarer_iff, List.isEmpty_iff]
  exact or_assoc.trans or_left_comm

/-- The names of a contribution are checked one after the other; each check sees the
declarations that there were before the component. -/
theorem decides_addDeclarations (owner : Rule) {contribution : NameTable (List Rule)}
    (hc : contribution.Sorted) (declared : NameTable (List Rule)) :
    Decides (∀ entry ∈ contribution,
        mayDeclare owner ((declared.lookup entry.1).getD []) entry.2 = true)
      (addDeclarations owner declared contribution) := by
  induction contribution generalizing declared with
  | nil => exact .answered _ rfl fun entry hmem => (List.not_mem_nil hmem).elim
  | cons entry rest ih =>
    obtain ⟨name, added⟩ := entry
    rw [addDeclarations]
    by_cases hmay : mayDeclare owner ((declared.lookup name).getD []) added = true
    · simp only [hmay, if_true, List.forall_mem_cons, true_and]
      -- The names to come are different, so adding this one does not change their checks.
      have hkept : ∀ entry ∈ rest, (declared.insert name
          ((declared.lookup name).getD [] ++ added)).lookup entry.1 = declared.lookup entry.1 := by
        intro entry hmem
        rw [lookup_insert, if_neg (hc.ne_of_mem_tail hmem)]
      have hrest := (ih hc.tail (declared.insert name
        ((declared.lookup name).getD [] ++ added))).congr
          (forall₂_congr fun entry hmem => by rw [hkept entry hmem])
      cases hrest with
      | answered result hresult hall =>
        rw [hresult]
        exact .answered _ rfl hall
      | refused fault hfault hkind hall =>
        rw [hfault]
        exact .refused fault rfl hkind hall
    · rw [if_neg hmay]
      exact .refused _ rfl rfl fun hall => hmay (hall _ List.mem_cons_self)

/-- Taking up a component asks, for each name, whether it fits to the components before it. -/
theorem decides_addComponent (names : Naming) (owner : Rule) (entries : List (Bytes × Rule))
    (placements : List Placement) (part : Rule) :
    Decides (owner.isChoice = true ∨ ∀ name, valuesOf name entries = [] ∨
        valuesOf name (part.contributed names) = [] ∨
          Rule.AllSame (valuesOf name entries ++ valuesOf name (part.contributed names)))
      (addComponent ⟨group entries, placements⟩ names owner part (part.flatLayout names)) := by
  have hadded :=
    decides_addDeclarations owner (sorted_group (part.contributed names)) (group entries)
  rw [addComponent, contribution_flatLayout]
  refine Decides.congr (p := ∀ entry ∈ group (part.contributed names),
    mayDeclare owner (((group entries).lookup entry.1).getD []) entry.2 = true) ?_ ?_
  · cases hadded with
    | answered result hresult hall =>
      simp only [hresult]
      exact .answered _ rfl hall
    | refused fault hfault hkind hall =>
      simp only [hfault]
      exact .refused fault rfl hkind hall
  · simp only [getD_lookup_group, mayDeclare_iff]
    by_cases hchoice : owner.isChoice = true
    · simp [hchoice]
    · simp only [hchoice, Bool.false_eq_true, false_or]
      constructor
      · intro h name
        by_cases hnil : valuesOf name (part.contributed names) = []
        · exact .inr (.inl hnil)
        · have hfound : (group (part.contributed names)).lookup name =
              some (valuesOf name (part.contributed names)) := by
            rw [lookup_group, if_neg hnil]
          exact (h _ (mem_of_lookup hfound)).imp id .inr
      · intro h entry hmem
        have hfound := (sorted_group _).lookup_of_mem hmem
        rw [lookup_group] at hfound
        split at hfound
        · cases hfound
        · next hne =>
          rw [← Option.some.inj hfound]
          exact (h entry.1).imp id fun hor => hor.resolve_left hne

end Layout

namespace LayoutTable

variable {names : Naming} {root : Rule} {table : LayoutTable}

/-- Whatever a table has of the rules at or below a root was found to be clear. -/
def KeepsClear (names : Naming) (root : Rule) (table : LayoutTable) : Prop :=
  ∀ r ∈ root.subrules, (table.lookup r.number).isSome = true → r.IsClear names

theorem KeepsClear.cons (hroot : root.Coherent) {r : Rule} (hr : r ∈ root.subrules)
    (h : KeepsClear names root table) (hclear : r.IsClear names) (layout : Layout) :
    KeepsClear names root ((r.number, layout) :: table) := by
  intro s hs hsome
  by_cases hn : s.number = r.number
  · rwa [hroot s hs r hr hn]
  · rw [lookup_cons, if_neg hn] at hsome
    exact h s hs hsome

mutual

/-- Adding a rule to a table that has only clear rules decides whether the rule is clear. -/
theorem decides_addRule (hroot : root.Coherent) : (r : Rule) → {table : LayoutTable} →
    r ∈ root.subrules → Faithful names root table → KeepsClear names root table →
    Decides (r.IsClear names) (addRule names r table) ∧
      ∀ layout extended, addRule names r table = .ok (layout, extended) →
        KeepsClear names root extended
  | .leaf n source regex, table, hr, hf, hk => by
    have hclear : (Rule.leaf n source regex).IsClear names := by
      intro s hs
      rw [Rule.subrules, List.mem_singleton] at hs
      subst hs
      exact Rule.isUnambiguous_leaf n source regex
    rw [addRule]
    split
    · refine ⟨.answered _ rfl hclear, ?_⟩
      intro layout extended h
      cases h
      exact hk
    · refine ⟨.answered _ rfl hclear, ?_⟩
      intro layout extended h
      cases h
      exact hk.cons hroot hr hclear _
  | .compound n combinator parts, table, hr, hf, hk => by
    rw [addRule]
    split
    · next found hfound =>
      have hclear : (Rule.compound n combinator parts).IsClear names := hk _ hr (by
        rw [Rule.number, hfound]
        rfl)
      refine ⟨.answered _ rfl hclear, ?_⟩
      intro layout extended h
      cases h
      exact hk
    · have hparts : ∀ part ∈ parts, part ∈ root.subrules := fun part hpart =>
        Rule.mem_subrules_trans hr
          (Rule.mem_subrules_of_mem_parts hpart (Rule.mem_subrules_self part))
      obtain ⟨hdecides, hkeeps⟩ :=
        decides_addParts hroot parts (.compound n combinator parts) [] [] hparts hf hk
      have hiff : ((Rule.compound n combinator parts).isChoice = true ∨
            ∀ name, Rule.FitInTurn names name (valuesOf name []) parts) ∧
          (∀ part ∈ parts, part.IsClear names) ↔
            (Rule.compound n combinator parts).IsClear names := by
        rw [Rule.isClear_compound_iff, Rule.isUnambiguous_iff]
        rfl
      have hempty : Layout.empty = ⟨group ([] : List (Bytes × Rule)), []⟩ := rfl
      cases hdecides.congr hiff with
      | answered result hresult hclear =>
        rw [hempty, hresult]
        refine ⟨.answered _ rfl hclear, ?_⟩
        intro layout extended h
        cases h
        exact (hkeeps _ _ hresult).cons hroot hr hclear _
      | refused fault hfault hkind hnot =>
        rw [hempty, hfault]
        refine ⟨.refused fault rfl hkind hnot, ?_⟩
        intro layout extended h
        cases h

/-- Adding components decides whether each is clear and fits after those before it. -/
theorem decides_addParts (hroot : root.Coherent) : (parts : List Rule) → (owner : Rule) →
    (entries : List (Bytes × Rule)) → (placements : List Placement) → {table : LayoutTable} →
    (∀ part ∈ parts, part ∈ root.subrules) → Faithful names root table →
    KeepsClear names root table →
    Decides ((owner.isChoice = true ∨
          ∀ name, Rule.FitInTurn names name (valuesOf name entries) parts) ∧
        ∀ part ∈ parts, part.IsClear names)
      (addParts names owner parts ⟨group entries, placements⟩ table) ∧
      ∀ layout extended,
        addParts names owner parts ⟨group entries, placements⟩ table = .ok (layout, extended) →
          KeepsClear names root extended
  | [], owner, entries, placements, table, _, hf, hk => by
    rw [addParts]
    refine ⟨.answered _ rfl ⟨.inr fun _ => trivial, fun part hpart => nomatch hpart⟩, ?_⟩
    intro layout extended h
    cases h
    exact hk
  | part :: parts, owner, entries, placements, table, hparts, hf, hk => by
    have hmem : part ∈ root.subrules := hparts part List.mem_cons_self
    obtain ⟨hdecides, hkeeps⟩ := decides_addRule hroot part hmem hf hk
    rw [addParts]
    cases hdecides with
    | refused fault hfault hkind hnot =>
      rw [hfault]
      refine ⟨.refused fault rfl hkind fun hall => hnot (hall.2 part List.mem_cons_self), ?_⟩
      intro layout extended h
      cases h
    | answered result hresult hclear =>
      obtain ⟨inner, middle⟩ := result
      obtain ⟨hinner, hfmiddle, -, -⟩ := addRule_eq hroot part hmem hf hresult
      subst hinner
      simp only [hresult]
      cases Layout.decides_addComponent names owner entries placements part with
      | refused fault hfault hkind hnot =>
        simp only [hfault]
        refine ⟨.refused fault rfl hkind fun hall => hnot ?_, ?_⟩
        · exact hall.1.imp id fun hfits name => (hfits name).1
        · intro layout extended h
          cases h
      | answered widened hwidened hfits =>
        obtain ⟨hrest, hkeepsRest⟩ := decides_addParts hroot parts owner
          (entries ++ part.contributed names) (placements ++
            [⟨names.name? part, offsetsAfter (entries.map Prod.fst) (part.contributed names)⟩])
          (fun other hother => hparts other (List.mem_cons_of_mem _ hother)) hfmiddle
          (hkeeps _ _ hresult)
        rw [← Layout.addComponent_eq hwidened] at hrest hkeepsRest
        simp only [hwidened]
        refine ⟨hrest.congr ?_, hkeepsRest⟩
        simp only [Rule.FitInTurn, List.forall_mem_cons, valuesOf_append]
        constructor
        · rintro ⟨hturn, hall⟩
          refine ⟨?_, hclear, hall⟩
          rcases hturn with hchoice | hturn
          · exact .inl hchoice
          · exact hfits.imp id fun hfits name => ⟨hfits name, hturn name⟩
        · rintro ⟨hturn, -, hall⟩
          exact ⟨hturn.imp id fun hturn name => (hturn name).2, hall⟩

end

end LayoutTable

/-- A registry is made for a root exactly if no rule at or below the root is ambiguous. -/
theorem Registry.decides_ofRoot (names : Naming) {root : Rule} (hroot : root.Coherent) :
    Decides (root.IsClear names) (Registry.ofRoot names root) := by
  have hfaithful : LayoutTable.Faithful names root [] := fun r _ hsome => nomatch hsome
  have hclear : LayoutTable.KeepsClear names root [] := fun r _ hsome => nomatch hsome
  have hadded := LayoutTable.decides_addRule hroot root (Rule.mem_subrules_self root) hfaithful hclear
  exact hadded.1.map _

end PhraseGrammar
