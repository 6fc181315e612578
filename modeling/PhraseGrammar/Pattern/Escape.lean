import PhraseGrammar.Pattern.Note

/-!
# Escapes

A backslash makes a byte out of what follows it: `\t`, `\n` and `\r` stand for
the tab, the newline and the carriage return, `\x` with two hexadecimal digits
for the byte of that value, and a backslash before one of the bytes that have a
meaning of their own for that byte. Which bytes those are differs between the
inside and the outside of a bracket set.
-/

set_option autoImplicit false

namespace PhraseGrammar

namespace Pattern

/-- The byte that starts an escape. -/
def backslash : UInt8 := '\\'.toUInt8

/-- The byte that a backslash and `c` stand for, where `special` are the bytes
that have a meaning of their own. -/
def unescape? (special : Bytes) (c : UInt8) : Option UInt8 :=
  if c = 't'.toUInt8 then some '\t'.toUInt8
  else if c = 'n'.toUInt8 then some '\n'.toUInt8
  else if c = 'r'.toUInt8 then some '\r'.toUInt8
  else if special.contains c then some c
  else none

/-- The value of the two hexadecimal digits that a text starts with. -/
def hexPair? : Bytes → Option UInt8
  | high :: low :: _ => do
    let h ← Byte.hexValue? high
    let l ← Byte.hexValue? low
    return h * 16 + l
  | _ => none

/-- Reads the escape at position `pos`; `rest` is the text after its backslash.
Gives the byte that it stands for and the number of bytes that it takes up. -/
def readEscape (special : Bytes) (pos : Nat) (rest : Bytes) : Except Note (UInt8 × Nat) :=
  match rest with
  | [] => .error ⟨.incompleteEscape, pos, pos + 1⟩
  | c :: digits =>
    if c = 'x'.toUInt8 then
      match hexPair? digits with
      | some b => .ok (b, 4)
      | none => .error ⟨.invalidHexCode, pos, pos + 4⟩
    else
      match unescape? special c with
      | some b => .ok (b, 2)
      | none => .error ⟨.unknownEscape, pos, pos + 2⟩

end Pattern

end PhraseGrammar
