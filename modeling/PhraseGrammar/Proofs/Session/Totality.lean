import PhraseGrammar.Proofs.Session.Sharing

/-!
# Matching is never refused

A grammar that a session keeps answers every text with a match or with a mismatch, and
never with both. A fault would have to come from the evaluation of a rule, or from
the registry: from a layout that is missing, a placement too few or too many, a slot or a
name that is not there, a component past the end of the text. The latter do not
occur because matching refines the reference, which has no registry and no slots; and the
former does not because the rules of a session are proper.
-/

set_option autoImplicit false

namespace PhraseGrammar

/-- An outcome has a match or a mismatch, and not both. -/
def Outcome.IsDecided (outcome : Outcome) : Prop :=
  (outcome.match?.isSome ^^ outcome.mismatch?.isSome) = true

namespace Grammar

/-- The grammar of a root that is coherent and proper throughout decides every text. The
names and the options may be any for which there is a grammar at all. -/
theorem exists_isDecided_matchText {names : Naming} {root : Rule} {options : RegexOptions}
    {g : Grammar} (hroot : root.Coherent) (hproper : root.IsProperThroughout)
    (hg : ofRoot names (some root) options = .ok g) (text : Bytes) :
    ∃ outcome, g.matchText text = .ok outcome ∧ outcome.IsDecided := by
  rcases matched_or_failed hroot hproper hg text with ⟨m, hm⟩ | ⟨mm, hmm⟩
  · exact ⟨.matched m, hm, rfl⟩
  · exact ⟨.failed mm, hmm, rfl⟩

end Grammar

namespace Session

/-- However a session was reached, each grammar that it keeps decides every text. The session may
have made and named rules and made other grammars since, and it may have been asked for
any set of word bytes when the grammar was made. -/
theorem matchText_decides (s : Session) (hs : s.IsReachable) (id : Bytes) (g : Grammar)
    (hg : (id, g) ∈ s.grammars) (text : Bytes) :
    ∃ outcome, g.matchText text = .ok outcome ∧ outcome.IsDecided := by
  obtain ⟨known, hkeeps⟩ := hs.keeps
  obtain ⟨hroot, names, hmade⟩ := hkeeps.grammars _ hg
  have hcoherent : g.root.Coherent := hkeeps.family.coherent hroot
  have hproper : g.root.IsProperThroughout := hkeeps.family.isProperThroughout hroot
  exact Grammar.exists_isDecided_matchText hcoherent hproper hmade text

/-- A grammar with an optional and a choice, where a rule in it was named afterwards. -/
theorem matchText_decides_named_later :
    let made := (({} : Session).perform (.makeRule (ascii "item") (.pattern (ascii "a+")))).2
    let kept := (made.perform (.makeGrammar (ascii "g") (.combine .sequence
      [.combine .optional [.ref (ascii "item")],
        .combine .choice [.literal (ascii "b"), .literal (ascii "c")]]) none)).2
    let s := (kept.perform (.nameRule (ascii "item") (ascii "x"))).2
    s.IsReachable ∧ ∃ g outcome, (ascii "g", g) ∈ s.grammars ∧
      g.matchText (ascii "aad") = .ok outcome ∧ outcome.IsDecided ∧
      outcome.mismatch? =
        some ⟨2, ascii "\"d\" does not match \"b\"\n\"d\" does not match \"c\""⟩ := by
  intro made kept s
  have hs : s.IsReachable := .perform _ (.perform _ (.perform _ .initial))
  have hfailed : ((s.grammars.lookup (ascii "g")).bind fun g =>
      (g.matchText (ascii "aad")).toOption.bind Outcome.mismatch?) =
      some ⟨2, ascii "\"d\" does not match \"b\"\n\"d\" does not match \"c\""⟩ := by
    decide +kernel
  obtain ⟨g, hlookup, hmismatch⟩ := Option.bind_eq_some_iff.1 hfailed
  have hg : (ascii "g", g) ∈ s.grammars := NameTable.mem_of_lookup hlookup
  obtain ⟨outcome, houtcome, hdecided⟩ := matchText_decides s hs (ascii "g") g hg (ascii "aad")
  rw [houtcome] at hmismatch
  exact ⟨hs, g, outcome, hg, houtcome, hdecided, hmismatch⟩

end Session

end PhraseGrammar
