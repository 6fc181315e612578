import PhraseGrammar.Text.Lines

/-!
# Diagnostics

A diagnostic is a message about a range of a text. The range is given by its
first position and the position after its last, and is kept as the line and
column of its first and last byte. An empty range, or one whose end precedes its
start, stands for the single position at its start.
-/

set_option autoImplicit false

namespace PhraseGrammar

/-- How grave a diagnostic is. -/
inductive Severity
  | error
  | warning
  deriving DecidableEq, Repr

/-- The word for a severity in a printed diagnostic. -/
def Severity.label : Severity → Bytes
  | .error => ascii "error"
  | .warning => ascii "warning"

/-- A message about a range of a text, both ends of which belong to the range. -/
structure Diagnostic where
  severity : Severity
  first : LineColumn
  last : LineColumn
  message : Bytes
  deriving DecidableEq, Repr

namespace Diagnostic

/-- The end of the range that starts at `start`: at least one position is in it. -/
def effectiveStop (start stop : UInt64) : UInt64 :=
  if stop ≤ start then start + 1 else stop

/-- The diagnostic about the positions of `text` from `start` up to, but not including, `stop`. -/
def ofRange (text : Bytes) (severity : Severity) (start stop : UInt64) (message : Bytes) :
    Diagnostic where
  severity
  first := Text.lineColumn text start
  last := Text.lineColumn text (effectiveStop start stop - 1)
  message

/-- The diagnostic about the single position `start` of `text`. -/
def ofPosition (text : Bytes) (severity : Severity) (start : UInt64) (message : Bytes) : Diagnostic :=
  ofRange text severity start (start + 1) message

/-- The range as it is printed: the lines if they differ, otherwise the line with
its columns, otherwise the line with its only column. -/
def location (d : Diagnostic) : Bytes :=
  if d.first.line ≠ d.last.line then
    decimal d.first.line.toNat ++ ascii "-" ++ decimal d.last.line.toNat
  else if d.first.column ≠ d.last.column then
    decimal d.first.line.toNat ++ ascii ":" ++ decimal d.first.column.toNat ++ ascii "-" ++
      decimal d.last.column.toNat
  else
    decimal d.first.line.toNat ++ ascii ":" ++ decimal d.first.column.toNat

/-- The diagnostic on one line: location, severity, message. -/
def render (d : Diagnostic) : Bytes :=
  d.location ++ ascii ": " ++ d.severity.label ++ ascii ": " ++ d.message

/-- Whether a diagnostic is an error. -/
def isError (d : Diagnostic) : Bool :=
  d.severity == .error

/-- Whether a list of diagnostics holds an error. -/
def hasError (ds : List Diagnostic) : Bool :=
  ds.any isError

end Diagnostic

end PhraseGrammar
