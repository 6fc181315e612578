import PhraseGrammar.Fault

/-!
# Mismatches

A mismatch says how far a match got and what was in the way. Of several
mismatches the furthest counts; if several got equally far, their descriptions
are put together, in byte order, without repetition and one per line.

The position of a mismatch is a 64-bit word. It is relative to the text of the
innermost rule first and is shifted by each enclosing rule.
-/

set_option autoImplicit false

namespace PhraseGrammar

/-- Where and why a text does not match. -/
structure Mismatch where
  position : UInt64
  description : Bytes
  deriving DecidableEq, Repr

/-- Adds a text to an ascending list unless it is there. -/
def insertDistinct (s : Bytes) : List Bytes → List Bytes
  | [] => [s]
  | t :: rest =>
    if s < t then s :: t :: rest
    else if s = t then t :: rest
    else t :: insertDistinct s rest

/-- The texts of a list in ascending order, each once. -/
def sortDistinct (texts : List Bytes) : List Bytes :=
  texts.foldr insertDistinct []

/-- Joins texts by newlines. No newline is put in as long as nothing precedes it. -/
def joinLines (texts : List Bytes) : Bytes :=
  texts.foldl (fun joined s => if joined.isEmpty then s else joined ++ Byte.newline :: s) []

namespace Mismatch

/-- The mismatch as seen from a point that lies `offset` bytes earlier. -/
def rebased (mm : Mismatch) (offset : UInt64) : Mismatch :=
  { mm with position := mm.position + offset }

/-- The furthest position of the given mismatches. -/
def furthestPosition (candidates : List Mismatch) : UInt64 :=
  candidates.foldl (fun position mm => max position mm.position) 0

/-- The mismatch that stands for the given ones: the furthest position, and all
that was said about it. -/
def furthest (candidates : List Mismatch) : Except Fault Mismatch :=
  if candidates.isEmpty then .error .noCandidates
  else
    let position := furthestPosition candidates
    let there := candidates.filter (·.position == position)
    .ok ⟨position, joinLines (sortDistinct (there.map (·.description)))⟩

/-- The mismatch with the text and a pointer to the position in it. -/
def render (mm : Mismatch) (text : Bytes) : Bytes :=
  ascii "Mismatch at " ++ decimal mm.position.toNat ++ ascii ":\n  " ++ text ++ ascii "\n  " ++
    blanks mm.position.toNat ++ ascii "^\n" ++ mm.description

/-- The mismatch as a diagnostic on the text. -/
def toDiagnostic (mm : Mismatch) (text : Bytes) : Diagnostic :=
  .ofRange text .error mm.position (mm.position + 1) mm.description

end Mismatch

end PhraseGrammar
