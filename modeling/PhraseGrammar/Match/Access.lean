import PhraseGrammar.Fault

/-!
# Using the tokens of a match

A token may be used as a match only if its name was declared once and matched.
The declarations of any token may be asked for one by one.
-/

set_option autoImplicit false

namespace PhraseGrammar

namespace Token

/-- The match of a single token. -/
def toMatch (t : Token) : Except Fault Match :=
  match t.match? with
  | some m => .ok m
  | none => .error (.notSingle t.kind)

/-- The slot of the declaration with index `i`. -/
def declaration (t : Token) (i : UInt64) : Except Fault (Option Match) :=
  match t.slots[i.toNat]? with
  | some slot => .ok slot
  | none => .error (.noSuchDeclaration i t.size)

end Token

/-- The match that is reached by taking the single token of each name in turn. -/
def Match.descend (m : Match) : List Bytes → Except Fault Match
  | [] => .ok m
  | name :: names =>
    match (m.get name).toMatch with
    | .ok inner => inner.descend names
    | .error fault => .error fault

end PhraseGrammar
