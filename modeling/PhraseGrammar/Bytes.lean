/-!
# Byte strings

Texts, patterns, names and messages are sequences of bytes, compared as
sequences of unsigned numbers. This module holds the fixed wording helper
`ascii`, the byte classes, decimal numerals and the search for one text inside
another. A byte of 128 or more belongs to no class: the classes are those of
ASCII.
-/

set_option autoImplicit false

namespace PhraseGrammar

/-- A text is a sequence of bytes. Two texts are ordered by their first
differing byte, and a proper beginning of a text comes before it. -/
abbrev Bytes := List UInt8

/-- The bytes of an ASCII text, one per character. Fixed wording is written with it. -/
def ascii (s : String) : Bytes :=
  s.toList.map Char.toUInt8

/-- The decimal numeral of a number. -/
def decimal (n : Nat) : Bytes :=
  (Nat.toDigits 10 n).map Char.toUInt8

/-- A run of blanks. -/
def blanks (n : Nat) : Bytes :=
  List.replicate n ' '.toUInt8

/-- A text between double quotes. Nothing in it is escaped. -/
def quoted (s : Bytes) : Bytes :=
  '"'.toUInt8 :: s ++ ['"'.toUInt8]

namespace Byte

/-- The byte that ends a line. -/
def newline : UInt8 := '\n'.toUInt8

/-- The decimal digits `0` to `9`. -/
def isDigit (b : UInt8) : Bool :=
  '0'.toUInt8 ≤ b && b ≤ '9'.toUInt8

/-- The letters `A` to `Z`. -/
def isUpper (b : UInt8) : Bool :=
  'A'.toUInt8 ≤ b && b ≤ 'Z'.toUInt8

/-- The letters `a` to `z`. -/
def isLower (b : UInt8) : Bool :=
  'a'.toUInt8 ≤ b && b ≤ 'z'.toUInt8

/-- The ASCII letters and digits. -/
def isAlphanumeric (b : UInt8) : Bool :=
  isDigit b || isUpper b || isLower b

/-- The bytes from the blank to the tilde. -/
def isPrintable (b : UInt8) : Bool :=
  ' '.toUInt8 ≤ b && b ≤ '~'.toUInt8

/-- The value of a hexadecimal digit, in either case. -/
def hexValue? (b : UInt8) : Option UInt8 :=
  if isDigit b then some (b - '0'.toUInt8)
  else if 'a'.toUInt8 ≤ b && b ≤ 'f'.toUInt8 then some (b - 'a'.toUInt8 + 10)
  else if 'A'.toUInt8 ≤ b && b ≤ 'F'.toUInt8 then some (b - 'A'.toUInt8 + 10)
  else none

end Byte

namespace Bytes

/-- Whether `needle` occurs in a text as a contiguous piece. The empty text
occurs in every text. -/
def occursIn (needle : Bytes) : Bytes → Bool
  | [] => needle.isEmpty
  | b :: rest => needle.isPrefixOf (b :: rest) || occursIn needle rest

/-- The search for a piece decides the infix relation. -/
theorem occursIn_iff (needle text : Bytes) : occursIn needle text = true ↔ needle <:+: text := by
  induction text with
  | nil => simp [occursIn]
  | cons b rest ih => simp [occursIn, ih, List.infix_cons_iff]

end Bytes

end PhraseGrammar
