import PhraseGrammar.Fault

/-!
# Access to a text by position

Positions and counts are 64-bit words. Asking for a byte past the end is a fault,
and so is a slice that starts past the end; a slice that would go on past the end
is cut short. The fault says whether the text was held or only looked at.
-/

set_option autoImplicit false

namespace PhraseGrammar

namespace Text

/-- The byte at position `i`. -/
def byteAt (holding : Holding) (text : Bytes) (i : UInt64) : Except Fault UInt8 :=
  match text[i.toNat]? with
  | some b => .ok b
  | none => .error (.byteBeyondEnd holding i)

/-- Whether a text has more than `i` bytes. -/
def isLongerThan (text : Bytes) (i : UInt64) : Bool :=
  i.toNat < text.length

/-- The bytes from position `start` on, at most `count` of them. -/
def slice (holding : Holding) (text : Bytes) (start count : UInt64) : Except Fault Bytes :=
  if text.length < start.toNat then .error (.sliceBeyondEnd holding start)
  else .ok ((text.drop start.toNat).take count.toNat)

end Text

end PhraseGrammar
