import PhraseGrammar.Layout.Registry
import PhraseGrammar.Match.Outcome
import PhraseGrammar.Regex.Simulation

/-!
# Matching a rule

A rule matches a beginning of a text. A leaf takes the longest beginning that its
expression allows. A sequence takes its components back to back and fails with
the first that fails. A choice takes the first component that does not fail and,
if all of them fail, fails with the furthest mismatch. An optional is a sequence
that is skipped where the sequence fails. A component that is skipped consumes
nothing and leaves its slots empty.

Matching depends on the registry of a grammar and not on the present names of
rules.
-/

set_option autoImplicit false

namespace PhraseGrammar

/-- What a rule needs beside itself and a text. -/
structure MatchEnv where
  registry : Registry
  options : RegexOptions

/-- The layout of a combined rule, with one placement for each of its components. -/
def MatchEnv.layout (env : MatchEnv) (r : Rule) : Except Fault Layout :=
  match env.registry.layout r with
  | .error fault => .error fault
  | .ok layout =>
    if layout.placements.length = r.parts.length then .ok layout
    else .error (.misplacedParts r layout.placements.length)

namespace Rule

/-- What is said about a leaf that does not match a text. -/
def leafMismatch (source text : Bytes) : Bytes :=
  if text.isEmpty then ascii "reached end of input but expected " ++ quoted source
  else quoted text ++ ascii " does not match " ++ quoted source

/-- Matches a leaf. -/
def matchLeaf (opts : RegexOptions) (source : Bytes) (r : Regex) (text : Bytes) :
    Except Fault Outcome :=
  match r.consume opts text 0 with
  | .error fault => .error fault
  | .ok (some n) => .ok (.matched (.plain (text.take n)))
  | .ok none => .ok (.failed ⟨0, leafMismatch source text⟩)

/-- The match of a choice whose component with index `i` matched with `m`. -/
def chosen (layout : Layout) (owner : Rule) (i : Nat) (m : Match) : Except Fault Outcome :=
  match layout.placements[i]? with
  | none => .error (.misplacedParts owner layout.placements.length)
  | some placement =>
    (placement.place (some m) layout.emptySlots).toExcept.map fun slots => .matched ⟨m.text, slots⟩

mutual

/-- Matches a rule at the start of a text. -/
def matchText (env : MatchEnv) : Rule → Bytes → Except Fault Outcome
  | .leaf _ source r, text => matchLeaf env.options source r text
  | .compound n .choice parts, text =>
    matchFirst env (.compound n .choice parts) text parts 0 []
  | .compound n .sequence parts, text =>
    match env.layout (.compound n .sequence parts) with
    | .error fault => .error fault
    | .ok layout => matchRow env text parts layout.placements layout.emptySlots 0
  | .compound n .optional parts, text =>
    match env.layout (.compound n .optional parts) with
    | .error fault => .error fault
    | .ok layout =>
      match matchRow env text parts layout.placements layout.emptySlots 0 with
      | .ok (.failed _) => .ok .skipped
      | result => result

/-- Matches components back to back, from position `pos` of a text on, which may not lie
past its end. -/
def matchRow (env : MatchEnv) (text : Bytes) :
    List Rule → List Placement → Slots → (pos : Nat) → Except Fault Outcome
  | part :: parts, placement :: placements, slots, pos =>
    if text.length < pos then .error .componentBeyondEnd
    else
      match part.matchText env (text.drop pos) with
      | .error fault => .error fault
      | .ok (.failed mm) => .ok (.failed (mm.rebased pos.toUInt64))
      | .ok .skipped => matchRow env text parts placements slots pos
      | .ok (.matched m) =>
        match (placement.place (some m) slots).toExcept with
        | .error fault => .error fault
        | .ok filled => matchRow env text parts placements filled (pos + m.size)
  | _, _, slots, pos => .ok (.matched ⟨text.take pos, slots⟩)

/-- Matches the first of the components of `owner` that does not fail. The given
components are those from index `i` on; `failures` are the mismatches before it. -/
def matchFirst (env : MatchEnv) (owner : Rule) (text : Bytes) :
    List Rule → (i : Nat) → (failures : List Mismatch) → Except Fault Outcome
  | [], _, failures => (Mismatch.furthest failures).map .failed
  | part :: parts, i, failures =>
    match part.matchText env text with
    | .error fault => .error fault
    | .ok (.failed mm) => matchFirst env owner text parts (i + 1) (failures ++ [mm])
    | .ok .skipped => (env.layout owner).map fun layout => .matched ⟨[], layout.emptySlots⟩
    | .ok (.matched m) =>
      match env.layout owner with
      | .error fault => .error fault
      | .ok layout => chosen layout owner i m

end

end Rule

end PhraseGrammar
