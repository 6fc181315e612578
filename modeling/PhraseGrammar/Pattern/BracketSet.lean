import PhraseGrammar.Fault
import PhraseGrammar.Pattern.Escape

/-!
# Bracket sets

A bracket set is an opening bracket, a caret if the set is negated, one or more
items, and a closing bracket. An item is a shorthand for a class of bytes
(`\d`, `\w`, `\s`), or an element, or two elements with a dash in between. An
element is a printable byte or an escape. A closing bracket is an element if it
is the very first item, and a dash is one if it stands right before the closing
bracket.

Reading goes on after a flaw where it can: an element that cannot be read is
skipped by one byte. So a set may be read together with notes on what is wrong
with it. Only a set without its closing bracket is not read at all.
-/

set_option autoImplicit false

namespace PhraseGrammar

namespace Pattern

/-- The classes of bytes that have a shorthand. -/
inductive Shorthand
  | digit
  | word
  | space
  deriving DecidableEq, Repr

namespace Shorthand

/-- The class that a letter after a backslash stands for. -/
def ofByte? (b : UInt8) : Option Shorthand :=
  if b = 'd'.toUInt8 then some digit
  else if b = 'w'.toUInt8 then some word
  else if b = 's'.toUInt8 then some space
  else none

/-- The class whose complement a letter after a backslash stands for. -/
def ofComplementByte? (b : UInt8) : Option Shorthand :=
  if b = 'D'.toUInt8 then some digit
  else if b = 'W'.toUInt8 then some word
  else if b = 'S'.toUInt8 then some space
  else none

/-- The bytes of a class. -/
def ranges : Shorthand → List ByteRange
  | digit => CharSet.digits
  | word => CharSet.wordBytes
  | space => CharSet.spaces

end Shorthand

/-- An item of a bracket set. -/
inductive SetItem
  | shorthand (s : Shorthand)
  | single (b : UInt8)
  | range (first last : UInt8)
  deriving DecidableEq, Repr

/-- The bytes that an item adds to a set. -/
def SetItem.ranges : SetItem → List ByteRange
  | .shorthand s => s.ranges
  | .single b => [.single b]
  | .range first last => [⟨first, last⟩]

/-- The bytes that a backslash makes plain inside a bracket set. -/
def setSpecials : Bytes := ascii "^\\-]"

/-- The byte that closes a bracket set. -/
def closingBracket : UInt8 := ']'.toUInt8

/-- The byte between the ends of a range. -/
def dash : UInt8 := '-'.toUInt8

/-- Whether a text starts with a dash that has a meaning of its own: one that is
not right before a closing bracket. -/
def startsWithRangeDash (text : Bytes) : Bool :=
  text.head? == some dash && text.tail.head? != some closingBracket

/-- Reads the element at position `pos`, where `text` starts there. Gives the byte
and the number of bytes that it takes up. There is no note on the end of the text. -/
def readElement (pos : Nat) : Bytes → Except (List Note) (UInt8 × Nat)
  | [] => .error []
  | b :: rest =>
    if b = backslash then (readEscape setSpecials pos rest).mapError ([·])
    else if Byte.isPrintable b then .ok (b, 1)
    else .error [⟨.invalidCharacter, pos, pos + 1⟩]

/-- Whether both ends of a range are digits, or letters of one case. -/
def isPlainRange (first last : UInt8) : Bool :=
  Byte.isDigit first && Byte.isDigit last ||
    Byte.isUpper first && Byte.isUpper last ||
    Byte.isLower first && Byte.isLower last

/-- The flaw of a range with the given ends. -/
def rangeFlaw? (first last : UInt8) : Option Flaw :=
  if first = last then some .redundantRange
  else if last < first then some .backwardRange
  else if !isPlainRange first last then some .mixedRange
  else none

/-- An item as it was read: what it is, unless it had to be skipped, the notes on
it, and the number of bytes that it takes up. -/
structure ItemReading where
  item : Option SetItem
  notes : List Note
  width : Nat
  deriving Repr

/-- Reads the rest of a range that begins with `first`. Its set starts at `start`
and `text` is what follows the dash, at position `pos`; `width` bytes of the
item come before that. -/
def readRangeEnd (start : Nat) (first : UInt8) (pos : Nat) (text : Bytes) (width : Nat) :
    ItemReading :=
  match readElement pos text with
  | .error notes => ⟨some (.single first), notes, width + 1⟩
  | .ok (last, w) =>
    let stop := pos + w
    let rangeNotes := (rangeFlaw? first last).toList.map (⟨·, start, stop⟩)
    let dashNotes :=
      if startsWithRangeDash (text.drop w) then [⟨.rangeWithoutStart, stop, stop + 1⟩] else []
    ⟨some (.range first last), rangeNotes ++ dashNotes, width + w⟩

/-- The class whose shorthand a text starts with. -/
def leadingShorthand? : Bytes → Option Shorthand
  | b :: c :: _ => if b = backslash then Shorthand.ofByte? c else none
  | _ => none

/-- Reads the item at position `pos` of a set that starts at `start`. -/
def readItem (start pos : Nat) (text : Bytes) : ItemReading :=
  match leadingShorthand? text with
  | some s => ⟨some (.shorthand s), [], 2⟩
  | none =>
    match readElement pos text with
    | .error notes => ⟨none, notes, 1⟩
    | .ok (first, w) =>
      let rest := text.drop w
      if startsWithRangeDash rest then
        readRangeEnd start first (pos + w + 1) rest.tail (w + 1)
      else ⟨some (.single first), [], w⟩

/-- The items of a set, the notes on them, and the position after the closing
bracket; there is none if the text ends before it. -/
structure ItemsReading where
  items : List SetItem
  notes : List Note
  stop : Option Nat
  deriving Repr

/-- Reads one or more items and the closing bracket, from position `pos` on. -/
def readItems (start pos : Nat) (text : Bytes) : ItemsReading :=
  match text with
  | [] => ⟨[], [], none⟩
  | b :: rest =>
    let first := readItem start pos (b :: rest)
    let next := pos + first.width
    let remaining := rest.drop (first.width - 1)
    if remaining.head? = some closingBracket then
      ⟨first.item.toList, first.notes, some (next + 1)⟩
    else
      let others := readItems start next remaining
      ⟨first.item.toList ++ others.items, first.notes ++ others.notes, others.stop⟩
termination_by text.length
decreasing_by
  simp only [List.length_drop, List.length_cons]
  omega

/-- A bracket set as it was read: the set and the position after it, unless its
closing bracket is missing, and the notes on its items. -/
structure SetReading where
  result : Option (CharSet × Nat)
  notes : List Note
  deriving Repr

/-- Reads the bracket set whose opening bracket is at position `start`; `body` is
the text after it. -/
def readBracketSet (start : Nat) (body : Bytes) : SetReading :=
  let negated := body.head? == some '^'.toUInt8
  let reading :=
    if negated then readItems start (start + 2) body.tail else readItems start (start + 1) body
  { result := reading.stop.map fun stop => (⟨reading.items.flatMap SetItem.ranges, negated⟩, stop)
    notes := reading.notes }

end Pattern

/-- The set written in brackets at the start of a text. It is given even if there
is something wrong with its items, and the text after it is not looked at. -/
def CharSet.ofBrackets (text : Bytes) : Except Fault CharSet :=
  match text with
  | [] => .error .noBracketSet
  | b :: body =>
    if b = '['.toUInt8 then
      match (Pattern.readBracketSet 0 body).result with
      | some (set, _) => .ok set
      | none => .error (.unreadableBracketSet text)
    else .error .noBracketSet

end PhraseGrammar
