import PhraseGrammar.Diagnostic

/-!
# Notes on a pattern

Reading a pattern leaves notes: what is odd or wrong, and where. A note becomes a
diagnostic once the text that it is about is known.
-/

set_option autoImplicit false

namespace PhraseGrammar

namespace Pattern

/-- What can be odd or wrong about a pattern. -/
inductive Flaw
  /-- A group is closed that was never opened. -/
  | unmatchedClose
  /-- A group is opened and never closed. -/
  | unmatchedOpen
  /-- Groups lie in each other beyond the limit. -/
  | nestedTooDeep
  /-- Repetitions follow each other beyond the limit. -/
  | tooManyRepetitions
  /-- A repetition with a count. -/
  | countedRepetition
  /-- A repetition at the start of a branch. -/
  | nothingToRepeat
  /-- A bracket set is opened and never closed. -/
  | unmatchedBracket
  /-- The byte of an escape is not given by two hexadecimal digits. -/
  | invalidHexCode
  /-- A backslash at the end of the pattern. -/
  | incompleteEscape
  /-- A backslash before a byte that it cannot escape. -/
  | unknownEscape
  /-- A byte in a bracket set that is not printable. -/
  | invalidCharacter
  /-- A range with equal ends. -/
  | redundantRange
  /-- A range whose ends are in descending order. -/
  | backwardRange
  /-- A range that is neither among the digits nor among the letters of one case. -/
  | mixedRange
  /-- A dash right after a range. -/
  | rangeWithoutStart
  deriving DecidableEq, Repr

namespace Flaw

/-- A range with equal ends is merely odd. Everything else is wrong. -/
def severity : Flaw → Severity
  | redundantRange => .warning
  | _ => .error

/-- What is said about a flaw. -/
def message : Flaw → Bytes
  | unmatchedClose => ascii "Unmatched ')'"
  | unmatchedOpen => ascii "Unmatched '('"
  | nestedTooDeep => ascii "Parentheses nested too deep"
  | tooManyRepetitions => ascii "Too many consecutive repeat operators."
  | countedRepetition => ascii "Counted repetition with '\x7b' is not supported"
  | nothingToRepeat => ascii "Nothing to repeat"
  | unmatchedBracket => ascii "Unmatched '['"
  | invalidHexCode => ascii "Invalid hex code"
  | incompleteEscape => ascii "Incomplete escape code"
  | unknownEscape => ascii "Unknown escape code"
  | invalidCharacter => ascii "Invalid character"
  | redundantRange => ascii "Redundant range. Use a single character."
  | backwardRange => ascii "Invalid range going backwards."
  | mixedRange => ascii "Ranges can only span 0-9, A-Z, or a-z."
  | rangeWithoutStart => ascii "Character range has no start"

end Flaw

/-- A flaw and where it is: from position `start` up to, but not including, `stop`. -/
structure Note where
  flaw : Flaw
  start : Nat
  stop : Nat
  deriving DecidableEq, Repr

namespace Note

/-- Whether a note is about something wrong. -/
def isError (n : Note) : Bool :=
  n.flaw.severity == .error

/-- The diagnostic that a note stands for. -/
def toDiagnostic (text : Bytes) (n : Note) : Diagnostic :=
  .ofRange text n.flaw.severity n.start.toUInt64 n.stop.toUInt64 n.flaw.message

end Note

end Pattern

end PhraseGrammar
