import PhraseGrammar.Pattern.BracketSet

/-!
# Lexemes of a pattern

A pattern is a row of lexemes: parentheses, bars, repetitions, and items. An item
is a piece that matches by itself, such as a byte, an escape, an anchor or a
bracket set. Where one lexeme ends does not depend on those around it. `lexemes`
cuts a text into them, up to its end or to the first piece that cannot be read.
-/

set_option autoImplicit false

namespace PhraseGrammar

namespace Pattern

/-- How often an item may occur. -/
inductive Quantifier
  | oneOrMore
  | zeroOrOne
  | zeroOrMore
  deriving DecidableEq, Repr

/-- The expression for a repeated part. -/
def Quantifier.apply : Quantifier → Regex → Regex
  | .oneOrMore, part => .repetition part
  | .zeroOrOne, part => .optional part
  | .zeroOrMore, part => .optional (.repetition part)

/-- A piece of a pattern. -/
inductive Lexeme
  | opening
  | closing
  | bar
  | quantifier (q : Quantifier)
  /-- An opening brace, which would start a repetition with a count. -/
  | brace
  | item (r : Regex)
  /-- A piece that cannot be read, with the note that says why. Nothing follows it. -/
  | unreadable (note : Note)
  deriving Repr

/-- Whether nothing follows a lexeme. -/
def Lexeme.isUnreadable : Lexeme → Bool
  | .unreadable _ => true
  | _ => false

/-- A lexeme where it starts, with the notes on it and the number of bytes that it takes up. -/
structure PlacedLexeme where
  start : Nat
  lexeme : Lexeme
  notes : List Note := []
  width : Nat := 1
  deriving Repr

/-- The bytes that a backslash makes plain outside of bracket sets. -/
def patternSpecials : Bytes := ascii "\\/.[]\x7b\x7d()^$|+*?-"

/-- The item that a backslash and `c` stand for, unless they stand for a byte. -/
def escapedItem? (c : UInt8) : Option Regex :=
  if c = 'b'.toUInt8 then some (.anchor .wordEdge)
  else
    match Shorthand.ofByte? c with
    | some s => some (.set ⟨s.ranges, false⟩)
    | none => (Shorthand.ofComplementByte? c).map fun s => .set ⟨s.ranges, true⟩

/-- The lexeme of the escape at position `pos`; `rest` is the text after its backslash. -/
def escapeLexeme (pos : Nat) (rest : Bytes) : PlacedLexeme :=
  match rest.head?.bind escapedItem? with
  | some r => { start := pos, lexeme := .item r, width := 2 }
  | none =>
    match readEscape patternSpecials pos rest with
    | .ok (b, w) => { start := pos, lexeme := .item (.literal [b]), width := w }
    | .error note => { start := pos, lexeme := .unreadable note }

/-- The lexeme of the bracket set at position `pos`; `rest` is the text after its opening bracket. -/
def bracketLexeme (pos : Nat) (rest : Bytes) : PlacedLexeme :=
  let reading := readBracketSet pos rest
  match reading.result with
  | some (set, stop) =>
    { start := pos, lexeme := .item (.set set), notes := reading.notes, width := stop - pos }
  | none =>
    { start := pos, lexeme := .unreadable ⟨.unmatchedBracket, pos, pos + 1⟩, notes := reading.notes }

/-- The lexeme that starts with the byte `b` at position `pos`; `rest` is the text after that byte. -/
def readLexeme (pos : Nat) (b : UInt8) (rest : Bytes) : PlacedLexeme :=
  if b = '('.toUInt8 then { start := pos, lexeme := .opening }
  else if b = ')'.toUInt8 then { start := pos, lexeme := .closing }
  else if b = '|'.toUInt8 then { start := pos, lexeme := .bar }
  else if b = '+'.toUInt8 then { start := pos, lexeme := .quantifier .oneOrMore }
  else if b = '?'.toUInt8 then { start := pos, lexeme := .quantifier .zeroOrOne }
  else if b = '*'.toUInt8 then { start := pos, lexeme := .quantifier .zeroOrMore }
  else if b = '\x7b'.toUInt8 then { start := pos, lexeme := .brace }
  else if b = '['.toUInt8 then bracketLexeme pos rest
  else if b = backslash then escapeLexeme pos rest
  else if b = '.'.toUInt8 then { start := pos, lexeme := .item (.set .all) }
  else if b = '^'.toUInt8 then { start := pos, lexeme := .item (.anchor .lineStart) }
  else if b = '$'.toUInt8 then { start := pos, lexeme := .item (.anchor .lineEnd) }
  else { start := pos, lexeme := .item (.literal [b]) }

/-- The lexemes of a text that starts at position `pos`. -/
def lexemes (pos : Nat) (text : Bytes) : List PlacedLexeme :=
  match text with
  | [] => []
  | b :: rest =>
    let first := readLexeme pos b rest
    if first.lexeme.isUnreadable then [first]
    else first :: lexemes (pos + first.width) (rest.drop (first.width - 1))
termination_by text.length
decreasing_by
  simp only [List.length_drop, List.length_cons]
  omega

end Pattern

end PhraseGrammar
