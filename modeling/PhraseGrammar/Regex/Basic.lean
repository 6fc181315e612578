import PhraseGrammar.Bytes

/-!
# Regular expressions

The tree of a regular expression over bytes, with anchors that look at the two
bytes around a position. Repetition is one or more times; zero or more is an
optional repetition.
-/

set_option autoImplicit false

namespace PhraseGrammar

/-- The bytes from `first` to `last`, both included. There are none if `last < first`. -/
structure ByteRange where
  first : UInt8
  last : UInt8
  deriving DecidableEq, Repr

/-- Whether a byte lies in a range. -/
def ByteRange.contains (r : ByteRange) (b : UInt8) : Bool :=
  r.first ≤ b && b ≤ r.last

/-- The range that holds one byte. -/
def ByteRange.single (b : UInt8) : ByteRange :=
  ⟨b, b⟩

/-- A set of bytes: those in one of the ranges or, if it is negated, all others. -/
structure CharSet where
  ranges : List ByteRange
  negated : Bool := false
  deriving DecidableEq, Repr

/-- Whether a byte is a member of a set. -/
def CharSet.contains (s : CharSet) (b : UInt8) : Bool :=
  if s.ranges.any (·.contains b) then !s.negated else s.negated

/-- The set of all bytes. -/
def CharSet.all : CharSet :=
  ⟨[], true⟩

/-- The decimal digits, as ranges. -/
def CharSet.digits : List ByteRange :=
  [⟨'0'.toUInt8, '9'.toUInt8⟩]

/-- The word bytes as ranges: digits, letters and the underscore. -/
def CharSet.wordBytes : List ByteRange :=
  [⟨'0'.toUInt8, '9'.toUInt8⟩, ⟨'A'.toUInt8, 'Z'.toUInt8⟩, ⟨'a'.toUInt8, 'z'.toUInt8⟩,
    .single '_'.toUInt8]

/-- The blank bytes as ranges: the blank itself, and the tab up to the carriage return. -/
def CharSet.spaces : List ByteRange :=
  [.single ' '.toUInt8, ⟨'\t'.toUInt8, '\r'.toUInt8⟩]

/-- A condition on the two bytes around a position. -/
inductive Anchor
  /-- Exactly one of the two bytes belongs to a word. -/
  | wordEdge
  /-- The byte before the position is a newline. -/
  | lineStart
  /-- The byte after the position is a newline. -/
  | lineEnd
  deriving DecidableEq, Repr

/-- A regular expression over bytes. -/
inductive Regex
  /-- One byte of a set. -/
  | set (bytes : CharSet)
  /-- The given bytes, one after the other. -/
  | literal (bytes : Bytes)
  /-- Nothing, where the anchor holds. -/
  | anchor (anchor : Anchor)
  /-- The parts, one after the other. -/
  | concat (parts : List Regex)
  /-- One of the parts. -/
  | alternation (parts : List Regex)
  /-- The part, one or more times. -/
  | repetition (part : Regex)
  /-- The part, or nothing. -/
  | optional (part : Regex)
  deriving Repr

/-- What a match depends on beside the expression: the bytes that make up words. -/
structure RegexOptions where
  word : CharSet
  deriving DecidableEq, Repr

/-- Words consist of ASCII letters, digits and underscores unless a caller says otherwise. -/
def RegexOptions.default : RegexOptions :=
  ⟨⟨CharSet.wordBytes, false⟩⟩

end PhraseGrammar
