import PhraseGrammar.Bytes

/-!
# Lines and columns

Positions in a text count bytes from zero. For a reader they are shown as a line
and a column, both counted from one. A newline belongs to the line that it ends.
A position at or past the end of the text is shown as if the last line went on.
Lines are looked up in the table of the newlines of the text.

Positions are 64-bit words here, since a caller may ask for any of them, and in a
text without newlines the column of the last word wraps around to zero.
-/

set_option autoImplicit false

namespace PhraseGrammar

/-- A place in a text as a reader counts: line and column, both from one. -/
structure LineColumn where
  line : UInt64
  column : UInt64
  deriving DecidableEq, Repr

namespace Text

/-- The positions of the newlines of a text that starts at position `start`, ascending. -/
def newlinesFrom (start : Nat) : Bytes → List Nat
  | [] => []
  | b :: rest =>
    if b = Byte.newline then start :: newlinesFrom (start + 1) rest
    else newlinesFrom (start + 1) rest

/-- The positions of the newlines of a text, ascending. -/
def newlines (text : Bytes) : List Nat :=
  newlinesFrom 0 text

/-- Where the entries of an ascending table stop being less than `i`, between the
indices `low` and `high`. What is between them is halved until nothing is left. -/
def searchTable (table : Array Nat) (i : Nat) (low high : Nat) (h : high ≤ table.size) : Nat :=
  if hlt : low < high then
    let middle := low + (high - low) / 2
    if table[middle] < i then searchTable table i (middle + 1) high h
    else searchTable table i low middle (by omega)
  else low
termination_by high - low

/-- The line and column of position `i`, looked up in the table of newlines. No
newline comes before the positions up to the first newline; the line of any other
position begins after the last newline before it, and is the second line if that
newline is the first one. -/
def lineColumn (text : Bytes) (i : UInt64) : LineColumn :=
  let table := (newlines text).toArray
  if table.isEmpty || i.toNat ≤ table.getD 0 0 then ⟨1, 1 + i⟩
  else
    let previous := searchTable table i.toNat 0 table.size (Nat.le_refl _) - 1
    ⟨previous.toUInt64 + 2, i - (table.getD previous 0).toUInt64⟩

end Text

end PhraseGrammar
