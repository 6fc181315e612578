import PhraseGrammar.Grammar
import PhraseGrammar.Proofs.Rule.Comparison
import PhraseGrammar.Proofs.Rule.Readings
import PhraseGrammar.Proofs.Rule.Totality

/-!
# Grammars refine the reference

A grammar whose rules are told apart by their numbers matches every text as the
reference evaluation of its root does. The match has, under each name, one slot
for each declaration of the root in the order of the declarations, and in it the
match of the declaring rule if that took part.
-/

set_option autoImplicit false

namespace PhraseGrammar

namespace Grammar

open NameTable

variable {names : Naming} {root : Rule} {options : RegexOptions} {g : Grammar}

/-- What a grammar gives for the result of the reference evaluation of its root: a root
that is skipped has consumed nothing. -/
def outcomeOf (names : Naming) (root : Rule) : Except Mismatch Derivation → Outcome
  | .error mm => .failed mm
  | .ok d => .matched (root.matchOf names d)

/-- A grammar is made of its root, the options, and the registry of the root. -/
theorem ofRoot_eq_ok (h : ofRoot names (some root) options = .ok g) :
    g.root = root ∧ g.options = options ∧ Registry.ofRoot names root = .ok g.registry := by
  obtain ⟨registry, hregistry, rfl⟩ := exists_of_map_eq_ok h
  exact ⟨rfl, rfl, hregistry⟩

/-- Matching with a grammar gives what the reference evaluation of the root derives, for
every text and also where an expression cannot be evaluated. -/
theorem matchText_eq (hroot : root.Coherent) (h : ofRoot names (some root) options = .ok g)
    (text : Bytes) :
    g.matchText text = (root.derive options text).map (outcomeOf names root) := by
  obtain ⟨hrule, hoptions, hregistry⟩ := ofRoot_eq_ok h
  obtain ⟨hregistryRoot, hlayouts⟩ := Registry.layout_eq hroot hregistry
  have hflat : g.env.IsFlat names root := hlayouts
  have hderived := Rule.matchText_eq root hflat text
  have hoptionsEnv : g.env.options = options := hoptions
  rw [hoptionsEnv] at hderived
  rw [matchText, hrule, hderived]
  cases root.derive options text with
  | error fault => rfl
  | ok attempt =>
    cases attempt with
    | error mm => rfl
    | ok d =>
      by_cases hskip : d = .skip
      · subst hskip
        have hlayout := hlayouts root (Rule.mem_subrules_self root)
        have hvalues : root.values names .skip = Rule.blank (root.declarations names) := by
          cases root with
          | leaf => rfl
          | compound => rfl
        simp only [Except.map, Rule.outcomeOf, Registry.rootLayout, hregistryRoot, hlayout,
          Rule.emptySlots_flatLayout, outcomeOf, Rule.matchOf, hvalues]
        rfl
      · simp only [Except.map, Rule.outcomeOf_of_ne_skip root hskip]
        rfl

/-- Where every rule is proper, a grammar gives a match or a mismatch for every text. -/
theorem matched_or_failed (hroot : root.Coherent) (hproper : root.IsProperThroughout)
    (hg : ofRoot names (some root) options = .ok g) (text : Bytes) :
    (∃ m, g.matchText text = .ok (.matched m)) ∨ ∃ mm, g.matchText text = .ok (.failed mm) := by
  obtain ⟨attempt, hderived⟩ := Rule.exists_derive options root hproper text
  rw [matchText_eq hroot hg, hderived]
  cases attempt with
  | error mm => exact .inr ⟨mm, rfl⟩
  | ok d => exact .inl ⟨root.matchOf names d, rfl⟩

/-- A grammar gives what its root yields by itself, whether the root was skipped or not. -/
theorem matchText_eq_reading (hroot : root.Coherent)
    (h : ofRoot names (some root) options = .ok g) (text : Bytes) :
    g.matchText text = (root.reading names options text).map fun attempt =>
      Yield.outcome (attempt.map Reading.yield) := by
  rw [matchText_eq hroot h text, Rule.reading]
  rcases root.derive options text with fault | mm | d
  · rfl
  · rfl
  · rfl

/-- The rules that declare a name are listed in the order of the declarations of the root. -/
theorem tokenRules_eq (hroot : root.Coherent) (h : ofRoot names (some root) options = .ok g)
    (name : Bytes) : g.tokenRules name = .ok (valuesOf name (root.declarations names)) := by
  obtain ⟨-, -, hregistry⟩ := ofRoot_eq_ok h
  obtain ⟨hregistryRoot, hlayouts⟩ := Registry.layout_eq hroot hregistry
  rw [tokenRules, Registry.rootLayout, hregistryRoot, hlayouts root (Rule.mem_subrules_self root)]
  exact congrArg Except.ok (getD_lookup_group name _)

/-- When a grammar gives an outcome for a text, the reference evaluation of its root has a
result too. If that is a mismatch, so is the outcome. Otherwise the outcome is the match
of what was derived: its text is what was consumed, a beginning of the given text; it has
exactly the declared names; and under each of them there is, for each declaration in
order, the match of the declaring rule if that was derived and not skipped. -/
theorem matchText_refines (names : Naming) (root : Rule) (options : RegexOptions) (g : Grammar)
    (text : Bytes) (outcome : Outcome) (hroot : root.Coherent)
    (hg : ofRoot names (some root) options = .ok g) (h : g.matchText text = .ok outcome) :
    (∃ mm, root.derive options text = .ok (.error mm) ∧ outcome = .failed mm) ∨
    (∃ d m, root.derive options text = .ok (.ok d) ∧ outcome = .matched m ∧
      m = root.matchOf names d ∧ m.text = d.text ∧ d.text <+: text ∧
      ∀ name,
        (m.declares name = true ↔ ∃ r, (name, r) ∈ root.declarations names) ∧
        (m.get name).slots = valuesOf name (root.values names d) ∧
        (m.get name).slots.length = (valuesOf name (root.declarations names)).length) := by
  rw [matchText_eq hroot hg text] at h
  cases hderived : root.derive options text with
  | error fault =>
    rw [hderived] at h
    cases h
  | ok attempt =>
    rw [hderived] at h
    cases attempt with
    | error mm =>
      cases h
      exact .inl ⟨mm, rfl, rfl⟩
    | ok d =>
      cases h
      refine .inr ⟨d, _, rfl, rfl, rfl, rfl, Rule.derive_prefix root hderived, fun name => ?_⟩
      have hnames := Rule.names_values names root d
      have hslots : ((root.matchOf names d).get name).slots =
          valuesOf name (root.values names d) := getD_lookup_group name _
      refine ⟨?_, hslots, ?_⟩
      · have hdeclares : (root.matchOf names d).declares name = true ↔
            name ∈ (root.values names d).map Prod.fst := isSome_lookup_group name _
        rw [hdeclares, hnames, List.mem_map]
        constructor
        · rintro ⟨⟨other, r⟩, hmem, rfl⟩
          exact ⟨r, hmem⟩
        · rintro ⟨r, hmem⟩
          exact ⟨(name, r), hmem, rfl⟩
      · rw [hslots]
        exact length_valuesOf_congr hnames name

/-- A rule that occurs twice, the second time in an optional that is skipped. -/
theorem matchText_refines_shared :
    let x := Rule.literal 0 (ascii "a")
    let root := Rule.compound 3 .sequence
      [x, .compound 2 .optional [x, .literal 1 (ascii "b")]]
    let names : Naming := [(0, ascii "x"), (1, ascii "y")]
    ∃ g m, root.Coherent ∧ ofRoot names (some root) .default = .ok g ∧
      g.matchText (ascii "ac") = .ok (.matched m) ∧ m.text = ascii "a" ∧
      (m.get (ascii "x")).slots.length = 2 ∧ (m.get (ascii "y")).slots = [none] := by
  intro x root names
  have hcoherent : root.Coherent := by decide
  obtain ⟨g, hg⟩ : ∃ g, ofRoot names (some root) .default = .ok g := ⟨_, rfl⟩
  have hderived : root.derive .default (ascii "ac") = .ok (.ok (.row [.leaf (ascii "a"), .skip])) :=
    rfl
  have hmatched : g.matchText (ascii "ac") =
      .ok (.matched (root.matchOf names (.row [.leaf (ascii "a"), .skip]))) := by
    rw [matchText_eq hcoherent hg, hderived]
    rfl
  rcases matchText_refines names root .default g (ascii "ac") _ hcoherent hg hmatched with
    ⟨mm, hfailed, -⟩ | ⟨d, m, hd, hm, rfl, htext, -, hslots⟩
  · rw [hderived] at hfailed
    cases hfailed
  · rw [hderived] at hd
    cases hd
    refine ⟨g, _, hcoherent, hg, hmatched, htext, ?_, ?_⟩
    · exact (hslots (ascii "x")).2.2
    · exact (hslots (ascii "y")).2.1

end Grammar

end PhraseGrammar
