import PhraseGrammar.Grammar
import PhraseGrammar.Proofs.Layout.Tables

/-!
# Giving names to bound rules

A naming admits bindings if each bound name is a valid token name that its rule
may get, and no rule is bound to two names. Checking the bindings decides this,
and bindings that pass are then given to all bound rules, whatever their order;
no other rule gets a name. So bindings are given altogether or not at all, in the phase of a
build that comes before the grammar is made (`GrammarBuilder.nameAll`).
-/

set_option autoImplicit false

namespace PhraseGrammar

open NameTable (lookup_cons)

namespace Naming

variable {names : Naming}

/-- A rule has no name other than the given one. -/
def Fits (names : Naming) (r : Rule) (name : Bytes) : Prop :=
  names.name? r = none ∨ names.name? r = some name

/-- A rule may get a name: the name is valid, and the rule has no other. -/
def Allows (names : Naming) (r : Rule) (name : Bytes) : Prop :=
  nameFlaw? name = none ∧ names.Fits r name

/-- Bindings that can be given together: each by itself, and none against another. -/
structure Admits (names : Naming) (bindings : List (Bytes × Rule)) : Prop where
  allowed : ∀ binding ∈ bindings, names.Allows binding.2 binding.1
  agree : bindings.Pairwise fun first second =>
    first.2.number = second.2.number → first.1 = second.1

theorem checkTokenName_eq_ok_iff (name : Bytes) :
    checkTokenName name = .ok () ↔ nameFlaw? name = none := by
  unfold checkTokenName
  cases nameFlaw? name with
  | none => simp
  | some flaw => simp

/-- A rule may be given exactly the names that are allowed for it. -/
theorem check_eq_ok_iff (r : Rule) (name : Bytes) :
    names.check r name = .ok () ↔ names.Allows r name := by
  have hempty : nameFlaw? [] = some .noAlphanumeric := rfl
  unfold check Allows Fits
  by_cases hnil : name = []
  · simp [hnil, hempty]
  · cases hname : names.name? r with
    | none => simp [hnil, checkTokenName_eq_ok_iff]
    | some old =>
      by_cases hold : old = name
      · simp [hnil, hold, checkTokenName_eq_ok_iff]
      · simp [hnil, hold]

theorem admits_nil (names : Naming) : names.Admits [] :=
  ⟨fun _ hmem => (List.not_mem_nil hmem).elim, List.Pairwise.nil⟩

theorem admits_cons_iff {name : Bytes} {r : Rule} {rest : List (Bytes × Rule)} :
    names.Admits ((name, r) :: rest) ↔
      names.Allows r name ∧ names.Admits rest ∧
        ∀ binding ∈ rest, r.number = binding.2.number → name = binding.1 := by
  constructor
  · rintro ⟨hallowed, hagree⟩
    obtain ⟨hfirst, hrest⟩ := List.forall_mem_cons.1 hallowed
    obtain ⟨hnone, hothers⟩ := List.pairwise_cons.1 hagree
    exact ⟨hfirst, ⟨hrest, hothers⟩, hnone⟩
  · rintro ⟨hfirst, ⟨hrest, hothers⟩, hnone⟩
    exact ⟨List.forall_mem_cons.2 ⟨hfirst, hrest⟩, List.pairwise_cons.2 ⟨hnone, hothers⟩⟩

/-- Naming a rule by a name that fits leaves the names of all others. -/
theorem Fits.name?_assign {r : Rule} {name : Bytes} (h : names.Fits r name) (s : Rule) :
    (names.assign r name).name? s = if s.number = r.number then some name else names.name? s := by
  rcases h with hnone | hsome
  · have hassign : names.assign r name = (r.number, name) :: names := by
      rw [assign, hnone]
    rw [hassign]
    exact lookup_cons _ _ _
  · have hassign : names.assign r name = names := by
      rw [assign, hsome]
    rw [hassign]
    split
    · next hnumber => rw [name?, hnumber, ← hsome, name?]
    · rfl

/-- A name fits after another rule or the same rule has been named if it did before, and the
same rule was given no other name. -/
theorem Fits.assign_iff {r s : Rule} {name other : Bytes} (h : names.Fits r name) :
    (names.assign r name).Fits s other ↔
      names.Fits s other ∧ (r.number = s.number → name = other) := by
  unfold Fits
  rw [h.name?_assign]
  by_cases hnumber : s.number = r.number
  · have hsame : names.name? s = names.name? r := by
      rw [name?, name?, hnumber]
    have hfits : names.name? r = none ∨ names.name? r = some name := h
    simp only [hnumber, if_true, hsame, reduceCtorEq, false_or, Option.some.injEq, true_imp_iff]
    constructor
    · intro heq
      exact ⟨heq ▸ hfits, heq⟩
    · exact fun hboth => hboth.2
  · simp [hnumber, Ne.symm hnumber]

/-- After one rule has been named, bindings can be given that could be given with its own. -/
theorem Admits.assign {name : Bytes} {r : Rule} {rest : List (Bytes × Rule)}
    (h : names.Admits ((name, r) :: rest)) : (names.assign r name).Admits rest := by
  obtain ⟨hfirst, hrest, hagree⟩ := admits_cons_iff.1 h
  refine ⟨fun binding hmem => ?_, hrest.agree⟩
  have hallowed := hrest.allowed binding hmem
  exact ⟨hallowed.1, hfirst.2.assign_iff.2 ⟨hallowed.2, hagree binding hmem⟩⟩

end Naming

namespace GrammarBuilder

open Naming

variable {names : Naming}

/-- The first of several bindings is checked by itself and against the pending names, and
is pending for the others. -/
theorem checkAll_cons_eq_ok_iff (pending : Naming) (name : Bytes) (r : Rule)
    (rest : List (Bytes × Rule)) :
    checkAll names pending ((name, r) :: rest) = .ok () ↔
      names.Allows r name ∧ pending.Fits r name ∧
        checkAll names (pending.assign r name) rest = .ok () := by
  rw [← check_eq_ok_iff, checkAll, Fits, Naming.assign]
  cases names.check r name with
  | error fault => simp
  | ok _ =>
    cases pending.name? r with
    | none => simp
    | some first =>
      by_cases hfirst : first = name
      · simp [hfirst]
      · simp [hfirst]

/-- Checking decides whether bindings can be given together, and with the pending names. -/
theorem checkAll_eq_ok_iff (names : Naming) (bindings : List (Bytes × Rule)) (pending : Naming) :
    checkAll names pending bindings = .ok () ↔
      names.Admits bindings ∧ ∀ binding ∈ bindings, pending.Fits binding.2 binding.1 := by
  induction bindings generalizing pending with
  | nil => simp [checkAll, admits_nil]
  | cons binding rest ih =>
    obtain ⟨name, r⟩ := binding
    rw [checkAll_cons_eq_ok_iff, ih, admits_cons_iff, List.forall_mem_cons]
    constructor
    · rintro ⟨hallowed, hfits, hrest, hothers⟩
      have hboth (other) (hmem : other ∈ rest) := hfits.assign_iff.1 (hothers other hmem)
      exact ⟨⟨hallowed, hrest, fun other hmem => (hboth other hmem).2⟩, hfits,
        fun other hmem => (hboth other hmem).1⟩
    · rintro ⟨⟨hallowed, hrest, hagree⟩, hfits, hothers⟩
      exact ⟨hallowed, hfits, hrest, fun other hmem =>
        hfits.assign_iff.2 ⟨hothers other hmem, hagree other hmem⟩⟩

/-- Bindings are given to the bound rules, and to no other rule. -/
structure IsGiven (names : Naming) (bindings : List (Bytes × Rule)) (given : Naming) : Prop where
  bound : ∀ binding ∈ bindings, given.name? binding.2 = some binding.1
  others : ∀ r : Rule, (∀ binding ∈ bindings, binding.2.number ≠ r.number) →
    given.name? r = names.name? r

/-- Bindings that can be given are given without a fault. -/
theorem giveAll_eq_ok {bindings : List (Bytes × Rule)} (h : names.Admits bindings) :
    ∃ given, giveAll names bindings = (given, .ok ()) ∧ IsGiven names bindings given := by
  induction bindings generalizing names with
  | nil => exact ⟨names, rfl, fun _ hmem => (List.not_mem_nil hmem).elim, fun _ _ => rfl⟩
  | cons binding rest ih =>
    obtain ⟨name, r⟩ := binding
    obtain ⟨hfirst, -, hagree⟩ := admits_cons_iff.1 h
    have hgive : names.give r name = .ok (names.assign r name) := by
      rw [give, (check_eq_ok_iff r name).2 hfirst]
      rfl
    obtain ⟨given, hgiven, hbound, hothers⟩ := ih h.assign
    refine ⟨given, ?_, List.forall_mem_cons.2 ⟨?_, hbound⟩, fun s hs => ?_⟩
    · rw [giveAll, hgive]
      exact hgiven
    · -- A later binding of the same rule agrees; without one the rule keeps this name.
      by_cases hlater : ∃ other ∈ rest, other.2.number = r.number
      · obtain ⟨other, hmem, hnumber⟩ := hlater
        have hname := hbound other hmem
        rw [name?, hnumber, ← hagree other hmem hnumber.symm] at hname
        exact hname
      · have hnone : ∀ other ∈ rest, other.2.number ≠ r.number :=
          fun other hmem hnumber => hlater ⟨other, hmem, hnumber⟩
        rw [hothers r hnone, hfirst.2.name?_assign, if_pos rfl]
    · obtain ⟨hne, hrest⟩ := List.forall_mem_cons.1 hs
      rw [hothers s hrest, hfirst.2.name?_assign, if_neg (Ne.symm hne)]

/-- The naming phase of a build: all bindings are checked, and then they are given. -/
def nameAll (names : Naming) (bindings : List (Bytes × Rule)) : Naming × Except Fault Unit :=
  match checkAll names [] bindings with
  | .error fault => (names, .error fault)
  | .ok () => giveAll names bindings

/-- A build makes the grammar of its root after the naming phase, unless that is refused. -/
theorem build_eq_nameAll (b : GrammarBuilder) (names : Naming) (root : Option Rule)
    (options : RegexOptions) :
    b.build names root options =
      match nameAll names b.bindings with
      | (given, .error fault) => (given, .error fault)
      | (given, .ok ()) => (given, Grammar.ofRoot given root options) := by
  unfold build nameAll
  cases checkAll names [] b.bindings with
  | error fault => rfl
  | ok _ => rfl

/-- The naming phase gives the bindings that can be given. -/
theorem nameAll_of_admits {bindings : List (Bytes × Rule)} (h : names.Admits bindings) :
    ∃ given, giveAll names bindings = (given, .ok ()) ∧
      nameAll names bindings = (given, .ok ()) ∧ IsGiven names bindings given := by
  obtain ⟨given, hgiven, hnames⟩ := giveAll_eq_ok h
  have hcheck : checkAll names [] bindings = .ok () :=
    (checkAll_eq_ok_iff names bindings []).2 ⟨h, fun _ _ => .inl rfl⟩
  refine ⟨given, hgiven, ?_, hnames⟩
  rw [nameAll, hcheck]
  exact hgiven

/-- The naming phase refuses bindings that cannot be given before it gives any of them. -/
theorem nameAll_of_not_admits {bindings : List (Bytes × Rule)} (h : ¬ names.Admits bindings) :
    ∃ fault, nameAll names bindings = (names, .error fault) := by
  cases hcheck : checkAll names [] bindings with
  | ok _ => exact absurd ((checkAll_eq_ok_iff names bindings []).1 hcheck).1 h
  | error fault =>
    refine ⟨fault, ?_⟩
    rw [nameAll, hcheck]

end GrammarBuilder

end PhraseGrammar
