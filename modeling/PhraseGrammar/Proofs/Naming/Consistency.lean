import PhraseGrammar.Proofs.Naming.Bindings
import PhraseGrammar.Proofs.Naming.TokenNames
import Mathlib.Data.List.Pairwise

/-!
# Consistent bindings

The naming phase of a build is refused exactly if the bindings are inconsistent: a bound name is
no token name, a bound rule has another name already, or two bindings give one rule different
names. If it is refused, no rule has been named. Otherwise every bound rule has its name, and no
other rule has been given one.

All three conditions are about the bindings as a set, and so is what the phase leaves; see
`GrammarBuilder.naming_phase`. Which of several faults is found first does depend on the order.
-/

set_option autoImplicit false

namespace PhraseGrammar

variable {names : Naming} {bindings others : List (Bytes × Rule)}

/-- A rule may get exactly the token names, as long as it has no other name. -/
theorem Naming.allows_iff (r : Rule) (name : Bytes) :
    names.Allows r name ↔ name ∈ TokenName.language ∧
      (names.name? r = none ∨ names.name? r = some name) := by
  rw [Allows, TokenName.nameFlaw?_eq_none_iff]
  rfl

namespace GrammarBuilder

open Naming

/-- Bindings are inconsistent if a bound name is empty or no token name, or a bound rule has
another name, or two bindings of one rule have different names. -/
def AreInconsistent (names : Naming) (bindings : List (Bytes × Rule)) : Prop :=
  (∃ binding ∈ bindings, binding.1 = [] ∨ binding.1 ∉ TokenName.language) ∨
  (∃ binding ∈ bindings, ∃ old, names.name? binding.2 = some old ∧ old ≠ binding.1) ∨
  ∃ first ∈ bindings, ∃ second ∈ bindings,
    first.2.number = second.2.number ∧ first.1 ≠ second.1

/-- Bindings can be given together unless they are inconsistent. -/
theorem admits_iff : names.Admits bindings ↔ ¬ AreInconsistent names bindings := by
  constructor
  · rintro ⟨hallowed, hagree⟩ (⟨binding, hmem, hinvalid⟩ | ⟨binding, hmem, old, hold, hne⟩ |
      ⟨first, hfirst, second, hsecond, hnumber, hne⟩)
    · obtain ⟨hname, -⟩ := (allows_iff _ _).1 (hallowed binding hmem)
      rcases hinvalid with hnil | hinvalid
      · rw [hnil] at hname
        exact TokenName.not_mem_language_nil hname
      · exact hinvalid hname
    · obtain ⟨-, hfits⟩ := (allows_iff _ _).1 (hallowed binding hmem)
      rw [hold] at hfits
      exact hne (Option.some.inj (hfits.resolve_left (Option.some_ne_none old)))
    · have hsymm : Std.Symm fun first second : Bytes × Rule =>
          first.2.number = second.2.number → first.1 = second.1 :=
        ⟨fun first second h hnumber => (h hnumber.symm).symm⟩
      exact hne (hagree.forall_of_forall (fun _ _ _ => rfl) hfirst hsecond hnumber)
  · intro h
    obtain ⟨hvalid, hothers⟩ := not_or.1 h
    obtain ⟨hfits, hagree⟩ := not_or.1 hothers
    refine ⟨fun binding hmem => (allows_iff _ _).2 ⟨?_, ?_⟩, ?_⟩
    · by_contra hname
      exact hvalid ⟨binding, hmem, .inr hname⟩
    · cases hold : names.name? binding.2 with
      | none => exact .inl rfl
      | some old =>
        by_contra hother
        exact hfits ⟨binding, hmem, old, hold, fun heq => hother (.inr (congrArg some heq))⟩
    · apply List.pairwise_of_forall_mem_list
      intro first hfirst second hsecond hnumber
      by_contra hne
      exact hagree ⟨first, hfirst, second, hsecond, hnumber, hne⟩

/-- The naming phase refuses inconsistent bindings, and no rule has been named then. -/
theorem nameAll_eq_error (h : AreInconsistent names bindings) :
    ∃ fault, nameAll names bindings = (names, .error fault) := by
  apply nameAll_of_not_admits
  intro hadmits
  exact admits_iff.1 hadmits h

/-- The naming phase gives consistent bindings. -/
theorem nameAll_eq_ok (h : ¬ AreInconsistent names bindings) :
    ∃ given, giveAll names bindings = (given, .ok ()) ∧
      nameAll names bindings = (given, .ok ()) ∧ IsGiven names bindings given :=
  nameAll_of_admits (admits_iff.2 h)

theorem nameAll_refused_iff :
    (∃ fault, (nameAll names bindings).2 = .error fault) ↔ AreInconsistent names bindings := by
  constructor
  · rintro ⟨fault, hfault⟩
    by_contra hconsistent
    obtain ⟨given, -, hpassed, -⟩ := nameAll_eq_ok hconsistent
    rw [hpassed] at hfault
    cases hfault
  · intro h
    obtain ⟨fault, hrefused⟩ := nameAll_eq_error h
    exact ⟨fault, congrArg Prod.snd hrefused⟩

section

variable (h : ∀ binding, binding ∈ others ↔ binding ∈ bindings)
include h

/-- Whether bindings are inconsistent does not depend on their order, nor on repetitions. -/
theorem areInconsistent_congr : AreInconsistent names others ↔ AreInconsistent names bindings := by
  unfold AreInconsistent
  simp only [h]

/-- Bindings that are given leave the same names in any order. -/
theorem IsGiven.name?_congr {given last : Naming} (hgiven : IsGiven names bindings given)
    (hlast : IsGiven names others last) (r : Rule) : last.name? r = given.name? r := by
  by_cases hbound : ∃ binding ∈ bindings, binding.2.number = r.number
  · obtain ⟨binding, hmem, hnumber⟩ := hbound
    have hfirst := hgiven.bound binding hmem
    have hsecond := hlast.bound binding ((h binding).2 hmem)
    rw [name?, hnumber] at hfirst hsecond
    exact hsecond.trans hfirst.symm
  · have hnone : ∀ binding ∈ bindings, binding.2.number ≠ r.number :=
      fun binding hmem hnumber => hbound ⟨binding, hmem, hnumber⟩
    rw [hgiven.others r hnone,
      hlast.others r fun binding hmem => hnone binding ((h binding).1 hmem)]

/-- The naming phase leaves the same names for bindings in any order. -/
theorem name?_nameAll_congr (r : Rule) :
    (nameAll names others).1.name? r = (nameAll names bindings).1.name? r := by
  by_cases hrefused : AreInconsistent names bindings
  · obtain ⟨fault, hfault⟩ := nameAll_eq_error hrefused
    obtain ⟨other, hother⟩ := nameAll_eq_error ((areInconsistent_congr h).2 hrefused)
    rw [hfault, hother]
  · obtain ⟨given, -, hpassed, hnames⟩ := nameAll_eq_ok hrefused
    obtain ⟨last, -, hlast, hlastNames⟩ :=
      nameAll_eq_ok fun hother => hrefused ((areInconsistent_congr h).1 hother)
    rw [hpassed, hlast]
    exact hnames.name?_congr h hlastNames r

end

/-- The naming phase is refused exactly if the bindings are inconsistent. Then the build is
refused with the same fault whatever its root is, and all names are as they were. Otherwise the
bindings are given without a fault, and when the grammar is made every bound rule has its
name and no other rule has been named. Bindings in another order, or repeated, make no
difference. -/
theorem naming_phase (names : Naming) (bindings : List (Bytes × Rule)) :
    ((∃ fault, (nameAll names bindings).2 = .error fault) ↔ AreInconsistent names bindings) ∧
    (AreInconsistent names bindings → ∃ fault, nameAll names bindings = (names, .error fault) ∧
      ∀ (root : Option Rule) (options : RegexOptions),
        (⟨bindings⟩ : GrammarBuilder).build names root options = (names, .error fault)) ∧
    (¬ AreInconsistent names bindings →
      ∃ given, giveAll names bindings = (given, .ok ()) ∧
        nameAll names bindings = (given, .ok ()) ∧
        (∀ binding ∈ bindings, given.name? binding.2 = some binding.1) ∧
        (∀ r : Rule, (∀ binding ∈ bindings, binding.2.number ≠ r.number) →
          given.name? r = names.name? r) ∧
        ∀ (root : Option Rule) (options : RegexOptions),
          (⟨bindings⟩ : GrammarBuilder).build names root options =
            (given, Grammar.ofRoot given root options)) ∧
    ∀ others : List (Bytes × Rule), (∀ binding, binding ∈ others ↔ binding ∈ bindings) →
      ((∃ fault, (nameAll names others).2 = .error fault) ↔
        ∃ fault, (nameAll names bindings).2 = .error fault) ∧
      ∀ r : Rule, (nameAll names others).1.name? r = (nameAll names bindings).1.name? r := by
  refine ⟨nameAll_refused_iff, fun h => ?_, fun h => ?_, fun others h => ⟨?_, ?_⟩⟩
  · obtain ⟨fault, hrefused⟩ := nameAll_eq_error h
    refine ⟨fault, hrefused, fun root options => ?_⟩
    rw [build_eq_nameAll, hrefused]
  · obtain ⟨given, hgiven, hpassed, hnames⟩ := nameAll_eq_ok h
    refine ⟨given, hgiven, hpassed, hnames.bound, hnames.others, fun root options => ?_⟩
    rw [build_eq_nameAll, hpassed]
  · rw [nameAll_refused_iff, nameAll_refused_iff, areInconsistent_congr h]
  · exact name?_nameAll_congr h

/-- A rule that is bound twice to one name and another that has its name already: all orders
leave both names. With a second name for the first rule, no rule is named. -/
theorem naming_phase_repeated :
    let a := Rule.literal 0 (ascii "a")
    let b := Rule.literal 1 (ascii "b")
    let names : Naming := [(1, ascii "y_2")]
    let bindings := [(ascii "x", a), (ascii "y_2", b), (ascii "x", a)]
    let others := [(ascii "y_2", b), (ascii "x", a)]
    ((nameAll names bindings).2 = .ok () ∧
      ∀ r : Rule, (nameAll names others).1.name? r = (nameAll names bindings).1.name? r) ∧
    ∃ fault, nameAll names ((ascii "z", a) :: bindings) = (names, .error fault) := by
  intro a b names bindings others
  have hsame : ∀ binding, binding ∈ others ↔ binding ∈ bindings := by
    intro binding
    simp only [others, bindings, List.mem_cons, List.not_mem_nil, or_false]
    tauto
  have htwice : AreInconsistent names ((ascii "z", a) :: bindings) :=
    .inr (.inr ⟨(ascii "z", a), List.mem_cons_self, (ascii "x", a),
      List.mem_cons_of_mem _ List.mem_cons_self, rfl, by decide⟩)
  obtain ⟨fault, hrefused, -⟩ := (naming_phase names ((ascii "z", a) :: bindings)).2.1 htwice
  exact ⟨⟨rfl, ((naming_phase names bindings).2.2.2 others hsame).2⟩, fault, hrefused⟩

end GrammarBuilder

end PhraseGrammar
