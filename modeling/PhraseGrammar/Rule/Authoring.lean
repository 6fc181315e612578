import PhraseGrammar.Fault
import PhraseGrammar.Pattern.Reader

/-!
# Making and naming rules

The ways to make a rule: from a literal text, from a pattern, and from component
rules. The maker chooses the number of the new rule. Components may be missing in
what a caller hands over, and that is a fault.

A rule may be named once. Giving it the same name again is allowed and changes
nothing.
-/

set_option autoImplicit false

namespace PhraseGrammar

namespace Rule

/-- The rule that matches exactly the given text. -/
def literal (number : Nat) (text : Bytes) : Rule :=
  leaf number text (.literal text)

/-- The rule that matches a pattern. -/
def pattern (number : Nat) (source : Bytes) : Except Fault Rule :=
  let reading := Pattern.read source 0
  match reading.regex with
  | some r => .ok (leaf number source r)
  | none =>
    match (reading.diagnostics source).find? (·.isError) with
    | some error => .error (.invalidPattern source error)
    | none => .error (.silentPattern source)

/-- The rules of a list in which none is missing. -/
def allPresent : List (Option Rule) → Except Fault (List Rule)
  | [] => .ok []
  | none :: _ => .error .nullPart
  | some r :: rest => (allPresent rest).map (r :: ·)

/-- The rule that combines the given components. A choice needs at least one. -/
def combine (number : Nat) (combinator : Combinator) (parts : List (Option Rule)) :
    Except Fault Rule :=
  if combinator = .choice ∧ parts = [] then .error .noAlternatives
  else (allPresent parts).map (compound number combinator)

end Rule

/-- Whether a text may be used as a token name. -/
def checkTokenName (name : Bytes) : Except Fault Unit :=
  match nameFlaw? name with
  | none => .ok ()
  | some flaw => .error (.invalidName name flaw)

namespace Naming

/-- Whether a rule may be given a name. -/
def check (names : Naming) (r : Rule) (name : Bytes) : Except Fault Unit :=
  if name = [] then .error (.emptyName r)
  else
    match names.name? r with
    | none => checkTokenName name
    | some old => if old = name then checkTokenName name else .error (.renamed old name)

/-- The naming in which a rule has been given a name. -/
def give (names : Naming) (r : Rule) (name : Bytes) : Except Fault Naming :=
  (names.check r name).map fun _ => names.assign r name

end Naming

end PhraseGrammar
