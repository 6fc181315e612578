import PhraseGrammar.Proofs.Naming.Bindings

/-!
# What a build does to names

A build first checks its bindings, then gives them, and only then makes the grammar.
If the bindings are refused no rule has been named. If they are not, all of them have
been given before the making of the grammar can fail, for want of a root or because a
token would be declared by different rules, and then the names stay.

So a build that fails leaves the names alone only in the first case, or if there was
nothing left to give; see `GrammarBuilder.keepsNamesOnFailure_iff`.
-/

set_option autoImplicit false

namespace PhraseGrammar

namespace GrammarBuilder

variable {b : GrammarBuilder} {names : Naming}

/-- Bindings that can be given are given, whatever then comes of the grammar. -/
theorem build_of_admits (h : names.Admits b.bindings) (root : Option Rule)
    (options : RegexOptions) :
    ∃ given, IsGiven names b.bindings given ∧
      b.build names root options = (given, Grammar.ofRoot given root options) := by
  obtain ⟨given, -, hnamed, hnames⟩ := nameAll_of_admits h
  refine ⟨given, hnames, ?_⟩
  rw [build_eq_nameAll, hnamed]

/-- Bindings that cannot be given are refused before any of them is given. -/
theorem build_of_not_admits (h : ¬ names.Admits b.bindings) (root : Option Rule)
    (options : RegexOptions) : ∃ fault, b.build names root options = (names, .error fault) := by
  obtain ⟨fault, hrefused⟩ := nameAll_of_not_admits h
  refine ⟨fault, ?_⟩
  rw [build_eq_nameAll, hrefused]

/-- If the build fails, every rule has the name, or the lack of one, that it had before. -/
def KeepsNamesOnFailure (b : GrammarBuilder) (names : Naming) (root : Option Rule)
    (options : RegexOptions) : Prop :=
  ∀ given fault, b.build names root options = (given, .error fault) →
    ∀ r : Rule, given.name? r = names.name? r

/-- A failing build keeps the names exactly if the bindings themselves are refused, or each
bound rule had its name before. The remaining case is that the build does not fail. -/
theorem keepsNamesOnFailure_iff (b : GrammarBuilder) (names : Naming) (root : Option Rule)
    (options : RegexOptions) :
    b.KeepsNamesOnFailure names root options ↔
      (∃ given g, b.build names root options = (given, .ok g)) ∨
      ¬ names.Admits b.bindings ∨
      ∀ binding ∈ b.bindings, names.name? binding.2 = some binding.1 := by
  by_cases hadmits : names.Admits b.bindings
  · obtain ⟨given, hgiven, hbuild⟩ := build_of_admits hadmits root options
    constructor
    · intro hkeeps
      cases hmade : Grammar.ofRoot given root options with
      | ok g => exact .inl ⟨given, g, by rw [hbuild, hmade]⟩
      | error fault =>
        rw [hmade] at hbuild
        refine .inr (.inr fun binding hmem => ?_)
        rw [← hkeeps given fault hbuild, hgiven.bound binding hmem]
    · rintro (⟨other, g, hok⟩ | hrefused | hnamed) last fault hfailed r
      · rw [hok] at hfailed
        cases hfailed
      · exact absurd hadmits hrefused
      · rw [hbuild, Prod.mk.injEq] at hfailed
        obtain ⟨rfl, -⟩ := hfailed
        by_cases hbound : ∃ binding ∈ b.bindings, binding.2.number = r.number
        · obtain ⟨binding, hmem, hnumber⟩ := hbound
          have hafter := hgiven.bound binding hmem
          have hbefore := hnamed binding hmem
          rw [Naming.name?, hnumber] at hafter hbefore
          exact hafter.trans hbefore.symm
        · exact hgiven.others r fun binding hmem hnumber => hbound ⟨binding, hmem, hnumber⟩
  · obtain ⟨fault, hbuild⟩ := build_of_not_admits hadmits root options
    refine iff_of_true (fun given other hfailed r => ?_) (.inr (.inl hadmits))
    rw [hbuild, Prod.mk.injEq] at hfailed
    rw [hfailed.1]

/-- A rule that had no name is called `x` after a build that fails for want of a root. -/
theorem named_by_failed_build :
    let a := Rule.literal 0 (ascii "a")
    let b : GrammarBuilder := ⟨[(ascii "x", a)]⟩
    ∃ given, b.build [] none .default = (given, .error .nullRoot) ∧
      Naming.name? [] a = none ∧ given.name? a = some (ascii "x") :=
  ⟨_, rfl, rfl, rfl⟩

end GrammarBuilder

end PhraseGrammar
