import PhraseGrammar.Grammar
import PhraseGrammar.Proofs.Match.Furthest
import PhraseGrammar.Proofs.Rule.Declarations

/-!
# Mismatches name leaves that fail

The mismatch of a rule points at a place in its text, and each line of the description is
what a leaf says that is below the rule and does not match what follows that place. This
is kept by every way to combine rules: a row moves the mismatch of a component by the start
of the component, a choice takes the furthest of mismatches on the same text, and an
optional has no mismatch. Nothing is assumed of the layouts.
-/

set_option autoImplicit false

namespace PhraseGrammar

namespace Rule

/-- A leaf at or below a rule does not match a text, and says so in the given words. -/
def LeafFails (opts : RegexOptions) (r : Rule) (text line : Bytes) : Prop :=
  ∃ n source regex, leaf n source regex ∈ r.subrules ∧
    regex.consume opts text 0 = .ok none ∧ line = leafMismatch source text

theorem leafMismatch_ne_nil (source text : Bytes) : leafMismatch source text ≠ [] := by
  unfold leafMismatch
  split
  · exact List.cons_ne_nil _ _
  · exact List.cons_ne_nil _ _

theorem LeafFails.ne_nil {opts : RegexOptions} {r : Rule} {text line : Bytes}
    (h : r.LeafFails opts text line) : line ≠ [] := by
  obtain ⟨n, source, regex, -, -, rfl⟩ := h
  exact leafMismatch_ne_nil source text

/-- A leaf below a component is below the rule. -/
theorem LeafFails.of_part {opts : RegexOptions} {owner part : Rule} (hpart : part ∈ owner.parts)
    (text line : Bytes) (h : part.LeafFails opts text line) : owner.LeafFails opts text line := by
  obtain ⟨n, source, regex, hleaf, hfails⟩ := h
  cases owner with
  | leaf => exact (List.not_mem_nil hpart).elim
  | compound number combinator parts =>
    exact ⟨n, source, regex, mem_subrules_of_mem_parts hpart hleaf, hfails⟩

/-- A leaf fails at the start of its text and says so itself. -/
theorem pointsAt_of_matchLeaf {opts : RegexOptions} {n : Nat} {source text : Bytes} {regex : Regex}
    {mm : Mismatch} (h : matchLeaf opts source regex text = .ok (.failed mm)) :
    mm.PointsAt ((leaf n source regex).LeafFails opts) text := by
  unfold matchLeaf at h
  split at h
  · cases h
  · cases h
  · next hnone =>
    cases h
    refine ⟨Nat.zero_le _, [leafMismatch source text], List.cons_ne_nil _ _, ?_, ?_⟩
    · exact (inLines_singleton _).symm
    · intro line hline
      rw [List.mem_singleton.1 hline]
      exact ⟨n, source, regex, mem_subrules_self _, hnone, rfl⟩

/-- A component that was chosen has matched. -/
theorem chosen_ne_failed (layout : Layout) (owner : Rule) (i : Nat) (m : Match) (mm : Mismatch) :
    chosen layout owner i m ≠ .ok (.failed mm) := by
  intro h
  unfold chosen at h
  split at h
  · cases h
  · obtain ⟨slots, -, hmatched⟩ := exists_of_map_eq_ok h
    cases hmatched

variable {env : MatchEnv}

mutual

/-- The mismatch of a rule points into the text, at what leaves below the rule do not match. -/
theorem pointsAt_of_matchText : (r : Rule) → {text : Bytes} → {mm : Mismatch} →
    text.length < UInt64.size → r.matchText env text = .ok (.failed mm) →
    mm.PointsAt (r.LeafFails env.options) text
  | .leaf _ source regex, text, mm, _, h => by
    rw [matchText] at h
    exact pointsAt_of_matchLeaf h
  | .compound n .sequence parts, text, mm, hsize, h => by
    rw [matchText] at h
    split at h
    · cases h
    · exact pointsAt_of_matchRow parts (.compound n .sequence parts) (fun part hpart => hpart)
        hsize h
  | .compound n .optional parts, text, mm, _, h => by
    rw [matchText] at h
    split at h
    · cases h
    · split at h
      · cases h
      · next hmatched => exact absurd h (hmatched mm)
  | .compound n .choice parts, text, mm, hsize, h => by
    rw [matchText] at h
    exact pointsAt_of_matchFirst parts (.compound n .choice parts) (fun part hpart => hpart)
      hsize (fun failure hfailure => (List.not_mem_nil hfailure).elim) h

/-- The mismatch of components in a row is that of one of them, seen from the start of
the row. -/
theorem pointsAt_of_matchRow : (parts : List Rule) → (owner : Rule) →
    (∀ part ∈ parts, part ∈ owner.parts) → {text : Bytes} → {placements : List Placement} →
    {slots : Slots} → {pos : Nat} → {mm : Mismatch} → text.length < UInt64.size →
    matchRow env text parts placements slots pos = .ok (.failed mm) →
    mm.PointsAt (owner.LeafFails env.options) text
  | [], _, _, text, placements, slots, pos, mm, _, h => by
    simp [matchRow] at h
  | part :: parts, _, _, text, [], slots, pos, mm, _, h => by
    simp [matchRow] at h
  | part :: parts, owner, howner, text, placement :: placements, slots, pos, mm, hsize, h => by
    obtain ⟨hpart, hparts⟩ := List.forall_mem_cons.1 howner
    rw [matchRow] at h
    split at h
    · cases h
    · next hinside =>
      have hpos : pos ≤ text.length := Nat.not_lt.1 hinside
      split at h
      · cases h
      · next failure hfailure =>
        cases h
        have hrest : (text.drop pos).length < UInt64.size := by
          rw [List.length_drop]
          omega
        have hpoints := pointsAt_of_matchText part hrest hfailure
        exact (hpoints.imp (LeafFails.of_part hpart)).rebased hpos hsize
      · exact pointsAt_of_matchRow parts owner hparts hsize h
      · split at h
        · cases h
        · exact pointsAt_of_matchRow parts owner hparts hsize h

/-- The mismatch of a choice is the furthest of those of its components, which are all
on the same text. Those of the components before are `failures`. -/
theorem pointsAt_of_matchFirst : (parts : List Rule) → (owner : Rule) →
    (∀ part ∈ parts, part ∈ owner.parts) → {text : Bytes} → {i : Nat} →
    {failures : List Mismatch} → {mm : Mismatch} → text.length < UInt64.size →
    (∀ failure ∈ failures, failure.PointsAt (owner.LeafFails env.options) text) →
    matchFirst env owner text parts i failures = .ok (.failed mm) →
    mm.PointsAt (owner.LeafFails env.options) text
  | [], owner, _, text, i, failures, mm, _, hfailures, h => by
    rw [matchFirst] at h
    obtain ⟨furthest, hfurthest, hmm⟩ := exists_of_map_eq_ok h
    cases hmm
    exact Mismatch.PointsAt.furthest (fun rest line => LeafFails.ne_nil) hfailures hfurthest
  | part :: parts, owner, howner, text, i, failures, mm, hsize, hfailures, h => by
    obtain ⟨hpart, hparts⟩ := List.forall_mem_cons.1 howner
    rw [matchFirst] at h
    split at h
    · cases h
    · next failure hfailure =>
      have hpoints := (pointsAt_of_matchText part hsize hfailure).imp (LeafFails.of_part hpart)
      refine pointsAt_of_matchFirst parts owner hparts hsize ?_ h
      intro other hother
      rcases List.mem_append.1 hother with hbefore | hlast
      · exact hfailures other hbefore
      · rw [List.mem_singleton.1 hlast]
        exact hpoints
    · obtain ⟨layout, -, hmatched⟩ := exists_of_map_eq_ok h
      cases hmatched
    · split at h
      · cases h
      · exact absurd h (chosen_ne_failed _ _ _ _ _)

end

end Rule

/-- An answer that has a mismatch is a failure. -/
theorem Outcome.eq_failed {answer : Except Fault Outcome} {mm : Mismatch}
    (h : answer.toOption.bind Outcome.mismatch? = some mm) : answer = .ok (.failed mm) := by
  cases answer with
  | error fault => cases h
  | ok outcome =>
    cases outcome with
    | matched m => cases h
    | skipped => cases h
    | failed other =>
      cases h
      rfl

namespace Grammar

/-- A mismatch points into the text. Each line of its description is what a leaf of the grammar
says where it is matched against the rest of the text from there and fails: that the end of the
text is reached, or that the rest does not match. The position of a mismatch is a 64-bit
word, so that the text has to be shorter than 2 ^ 64 bytes. -/
theorem matchText_failed (g : Grammar) (text : Bytes) (mm : Mismatch)
    (hsize : text.length < UInt64.size) (h : g.matchText text = .ok (.failed mm)) :
    mm.position.toNat ≤ text.length ∧
    ∃ lines, lines ≠ [] ∧ mm.description = [Byte.newline].intercalate lines ∧
      ∀ line ∈ lines, ∃ n source regex,
        Rule.leaf n source regex ∈ g.root.subrules ∧
        (Rule.leaf n source regex).matchText g.env (text.drop mm.position.toNat) =
          .ok (.failed ⟨0, line⟩) ∧
        line =
          if mm.position.toNat = text.length then
            ascii "reached end of input but expected " ++ quoted source
          else
            quoted (text.drop mm.position.toNat) ++ ascii " does not match " ++ quoted source := by
  have hroot : g.root.matchText g.env text = .ok (.failed mm) := by
    unfold matchText at h
    split at h
    · obtain ⟨layout, -, hmatched⟩ := exists_of_map_eq_ok h
      cases hmatched
    · exact h
  obtain ⟨hinside, lines, hlines, hdescription, hfails⟩ :=
    Rule.pointsAt_of_matchText g.root hsize hroot
  refine ⟨hinside, lines, hlines, hdescription, ?_⟩
  intro line hline
  obtain ⟨n, source, regex, hleaf, hnone, hsaid⟩ := hfails line hline
  refine ⟨n, source, regex, hleaf, ?_, ?_⟩
  · have hoptions : regex.consume g.env.options (text.drop mm.position.toNat) 0 = .ok none := hnone
    rw [Rule.matchText, Rule.matchLeaf, hoptions, hsaid]
  · have hend : (text.drop mm.position.toNat).isEmpty = true ↔ mm.position.toNat = text.length := by
      rw [List.isEmpty_iff, List.drop_eq_nil_iff]
      omega
    rw [hsaid, Rule.leafMismatch]
    simp only [hend]

/-- A choice in a row in a choice, where an optional before has consumed a byte: both
components of the inner choice fail behind the byte that the row has consumed. -/
theorem matchText_failed_nested :
    let inner := Rule.compound 4 .choice [.literal 2 (ascii "c"), .literal 3 (ascii "d")]
    let outer := Rule.compound 8 .choice
      [.literal 5 (ascii "x"), .compound 7 .sequence [.literal 6 (ascii "b"), inner]]
    let root := Rule.compound 9 .sequence [.compound 1 .optional [.literal 0 (ascii "a")], outer]
    ∃ g mm, ofRoot [] (some root) .default = .ok g ∧ (ascii "abz").length < UInt64.size ∧
      g.matchText (ascii "abz") = .ok (.failed mm) ∧
      mm = ⟨2, ascii "\"z\" does not match \"c\"\n\"z\" does not match \"d\""⟩ ∧
      ∃ lines, lines ≠ [] ∧ mm.description = [Byte.newline].intercalate lines ∧
        ∀ line ∈ lines, ∃ source,
          line = quoted (ascii "z") ++ ascii " does not match " ++ quoted source := by
  intro inner outer root
  obtain ⟨g, hg⟩ : ∃ g, ofRoot [] (some root) .default = .ok g := ⟨_, rfl⟩
  have hresult : ((ofRoot [] (some root) .default).toOption.bind fun g =>
      (g.matchText (ascii "abz")).toOption.bind Outcome.mismatch?) =
      some ⟨2, ascii "\"z\" does not match \"c\"\n\"z\" does not match \"d\""⟩ := by
    decide +kernel
  rw [hg] at hresult
  have hm := Outcome.eq_failed hresult
  have hsize : (ascii "abz").length < UInt64.size := by decide
  obtain ⟨-, lines, hlines, hdescription, hsaid⟩ := matchText_failed g (ascii "abz") _ hsize hm
  refine ⟨g, _, hg, hsize, hm, rfl, lines, hlines, hdescription, ?_⟩
  intro line hline
  obtain ⟨n, source, regex, -, -, hline⟩ := hsaid line hline
  exact ⟨source, hline⟩

end Grammar

end PhraseGrammar
