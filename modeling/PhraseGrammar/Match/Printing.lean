import PhraseGrammar.Match.Basic

/-!
# Printing a match

A match is printed as its quoted text and, below it, a line for each slot of each
name, indented by two more blanks, with the index of the slot if the name has
more than one. The indentation is a 64-bit word and wraps around.
-/

set_option autoImplicit false

namespace PhraseGrammar

/-- What is printed for a slot without a match. -/
def absentLabel : Bytes := ascii "(absent)"

mutual

/-- A match as it is printed where its own line is indented by `indent`. -/
def Match.pretty (indent : UInt64) : Match → Bytes
  | ⟨text, tokens⟩ => quoted text ++ Match.prettyTokens (indent + 2) tokens

/-- The lines for the given names. -/
def Match.prettyTokens (indent : UInt64) : List (Bytes × List (Option Match)) → Bytes
  | [] => []
  | (name, slots) :: rest =>
    Match.prettySlots indent name (decide (1 < slots.length)) 0 slots ++ Match.prettyTokens indent rest

/-- The lines for the slots of one name, of which the first has index `i`. -/
def Match.prettySlots (indent : UInt64) (name : Bytes) (isNumbered : Bool) (i : Nat) :
    List (Option Match) → Bytes
  | [] => []
  | slot :: rest =>
    let index := if isNumbered then ascii "[" ++ decimal i ++ ascii "]" else []
    Byte.newline :: blanks indent.toNat ++ name ++ index ++ ascii ": " ++
      Match.prettySlot indent slot ++ Match.prettySlots indent name isNumbered (i + 1) rest

/-- The match in a slot, or a note that there is none. -/
def Match.prettySlot (indent : UInt64) : Option Match → Bytes
  | none => absentLabel
  | some m => m.pretty indent

end

/-- A match in a running text: its own text between angle brackets. -/
def Match.inAngles (m : Match) : Bytes :=
  ascii "<" ++ m.text ++ ascii ">"

end PhraseGrammar
