import PhraseGrammar.Match.Mismatch

/-!
# Outcomes

What comes out of matching a text: a match, a mismatch, or neither. The last is
the outcome of an optional rule that consumed nothing because its components do
not match; it counts as a success.
-/

set_option autoImplicit false

namespace PhraseGrammar

/-- What comes out of matching a rule. -/
inductive Outcome
  | matched (m : Match)
  | skipped
  | failed (mm : Mismatch)

namespace Outcome

/-- The outcome of a success; it needs a match. -/
def success : Option Match → Except Fault Outcome
  | some m => .ok (matched m)
  | none => .error .nothingMatched

/-- Whether an outcome is a success. -/
def isSuccess : Outcome → Bool
  | failed _ => false
  | _ => true

/-- Whether a rule was skipped. -/
def isSkipped : Outcome → Bool
  | skipped => true
  | _ => false

/-- The match of an outcome. -/
def match? : Outcome → Option Match
  | matched m => some m
  | _ => none

/-- The mismatch of an outcome. -/
def mismatch? : Outcome → Option Mismatch
  | failed mm => some mm
  | _ => none

end Outcome

end PhraseGrammar
