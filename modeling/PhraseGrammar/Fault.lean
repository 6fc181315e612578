import PhraseGrammar.Diagnostic
import PhraseGrammar.Match.Basic
import PhraseGrammar.Rule.Naming

/-!
# Faults

A fault is a request that cannot be answered, as opposed to a text that does not
match. Each constructor of `Fault` is one cause, with what is needed to word it.
Some wordings describe a rule, so they depend on the names given so far: the
message is made from the cause and a naming. A message is a text that a zero byte
ends, so a wording that quotes a zero byte is cut short there.
-/

set_option autoImplicit false

namespace PhraseGrammar

/-- Whether a text is held by its reader or only looked at. -/
inductive Holding
  | owned
  | view
  deriving DecidableEq, Repr

/-- The word for a held text in messages. -/
def Holding.label : Holding → Bytes
  | .owned => ascii "input"
  | .view => ascii "input view"

/-- The classes of faults that a caller may want to tell apart. -/
inductive Fault.Kind
  /-- Two tokens of one match would share a name. -/
  | tokenRedefinition
  /-- A rule would get a second name or an empty one. -/
  | ruleNaming
  /-- Something else is wrong with the grammar that was asked for. -/
  | userError
  /-- The library was used in a way that it does not allow. -/
  | bug
  /-- A slot or a part of a text was addressed that does not exist. -/
  | outOfRange
  /-- A step of a session refers to something that was never defined. -/
  | noSuchId
  deriving DecidableEq, Repr

/-- The causes for which a request is refused. -/
inductive Fault
  /-- A byte at or past the end of a text was asked for. -/
  | byteBeyondEnd (holding : Holding) (i : UInt64)
  /-- A piece of a text was asked for that starts past its end. -/
  | sliceBeyondEnd (holding : Holding) (start : UInt64)
  /-- A bracket set was read from a text that does not start with a bracket. -/
  | noBracketSet
  /-- A bracket set that does not end was read. -/
  | unreadableBracketSet (text : Bytes)
  /-- A sequence without parts was started. -/
  | emptySequence
  /-- A token that is not single was used as a match. -/
  | notSingle (kind : TokenKind)
  /-- A declaration of a token was asked for that does not exist. -/
  | noSuchDeclaration (i : UInt64) (size : Nat)
  /-- The furthest of no mismatches was asked for. -/
  | noCandidates
  /-- A successful result was made without a match. -/
  | nothingMatched
  /-- The match of a component lacks a name that its layout declares. -/
  | missingToken (name : Bytes)
  /-- A slot was addressed that does not exist. -/
  | noSuchSlot
  /-- A component was to be matched past the end of the text. -/
  | componentBeyondEnd
  /-- A rule was matched that does not belong to the grammar. -/
  | foreignRule (rule : Rule)
  /-- A rule has another number of components than its layout has placements. -/
  | misplacedParts (rule : Rule) (placements : Nat)
  /-- A component of a new rule is null. -/
  | nullPart
  /-- A choice without alternatives was made. -/
  | noAlternatives
  /-- A pattern cannot be read; the first of its errors is given. -/
  | invalidPattern (pattern : Bytes) (error : Diagnostic)
  /-- A pattern yields neither an expression nor an error. -/
  | silentPattern (pattern : Bytes)
  /-- An empty name was given to a rule. -/
  | emptyName (rule : Rule)
  /-- A rule that has a name was given another one. -/
  | renamed (old new : Bytes)
  /-- A name is not a valid token name. -/
  | invalidName (name : Bytes) (flaw : NameFlaw)
  /-- A name was given to no rule. -/
  | nullNamed (name : Bytes)
  /-- A name was bound to no rule. -/
  | nullDefined (name : Bytes)
  /-- Two names were bound to one rule. -/
  | boundTwice (rule : Rule) (first second : Bytes)
  /-- Two components of a rule declare one name by different rules. -/
  | tokenRedefined (name : Bytes) (rule : Rule)
  /-- A grammar was made without a root. -/
  | nullRoot
  /-- A step of a session refers to something that was never defined. -/
  | noSuchId (id : Bytes)
  deriving Repr

/-- What is said about a flaw of a name. -/
def NameFlaw.message (name : Bytes) : NameFlaw → Bytes
  | .invalidByte b => ascii "Invalid character '" ++ [b] ++ ascii "' in token name " ++ quoted name
  | .noAlphanumeric => ascii "Token name " ++ quoted name ++ ascii " must have a digit or letter"
  | .edgeUnderscore =>
    ascii "Token name " ++ quoted name ++ ascii " has a leading or trailing underscore"
  | .leadingDigit => ascii "Token name " ++ quoted name ++ ascii " starts with a digit"
  | .doubledUnderscore =>
    ascii "Token name " ++ quoted name ++ ascii " has consecutive underscores"

namespace Fault

/-- The class of a fault. -/
def kind : Fault → Kind
  | tokenRedefined .. => .tokenRedefinition
  | emptyName .. | renamed .. | boundTwice .. => .ruleNaming
  | nullPart | noAlternatives | invalidPattern .. | invalidName .. | nullNamed ..
  | nullDefined .. | nullRoot => .userError
  | noSuchSlot | componentBeyondEnd => .outOfRange
  | noSuchId .. => .noSuchId
  | _ => .bug

/-- The wording of a fault in full. A slot or a part of a text that does not exist has none. -/
def wording? (names : Naming) : Fault → Option Bytes
  | byteBeyondEnd holding i =>
    ascii "Out of bound error. " ++ decimal i.toNat ++ ascii " is beyond the end of " ++
      holding.label ++ ascii "."
  | sliceBeyondEnd holding start =>
    ascii "Out of bound error. substr() starting at " ++ decimal start.toNat ++
      ascii " is beyond the end of " ++ holding.label ++ ascii "."
  | noBracketSet => ascii "parseCharSetUnq called at invalid location 0"
  | unreadableBracketSet text => ascii "parseRegexCharSet() input was invalid: " ++ text
  | emptySequence =>
    ascii "Cannot Concat over an empty vector. Use an empty string instead."
  | notSingle kind =>
    ascii "Dereferencing a token of kind " ++ decimal kind.code ++ ascii ". Use at() for lists."
  | noSuchDeclaration i size =>
    ascii "Token index " ++ decimal i.toNat ++ ascii " is out of range. It only has " ++
      decimal size ++ ascii " declarations."
  | noCandidates => ascii "Mismatch::furthest() needs some candidates"
  | nothingMatched => ascii "MatchResult::success() needs a match"
  | missingToken name =>
    ascii "Match is missing the token '" ++ name ++ ascii "' promised by the registry"
  | noSuchSlot | componentBeyondEnd => none
  | foreignRule rule => rule.describe names ++ ascii " is not part of this grammar"
  | misplacedParts rule placements =>
    rule.describe names ++ ascii " has " ++ decimal rule.parts.length ++
      ascii " components, but the grammar placed " ++ decimal placements
  | nullPart => ascii "Rule components cannot be null"
  | noAlternatives => ascii "OneOf() needs at least one alternative"
  | invalidPattern pattern error =>
    ascii "Invalid pattern " ++ quoted pattern ++ ascii ": " ++ error.render
  | silentPattern pattern => ascii "parseRegex() failed without an error for " ++ quoted pattern
  | emptyName rule =>
    ascii "Cannot give rule " ++ rule.describe names ++ ascii " an empty name"
  | renamed old new => ascii "Cannot rename rule " ++ old ++ ascii " to " ++ new
  | invalidName name flaw => flaw.message name
  | nullNamed name => ascii "Cannot name a null rule " ++ name
  | nullDefined name => ascii "Cannot define " ++ name ++ ascii " as a null rule"
  | boundTwice rule first second =>
    ascii "Cannot name rule " ++ rule.describe names ++ ascii " both " ++ first ++
      ascii " and " ++ second
  | tokenRedefined name rule => quoted name ++ ascii " in " ++ rule.describe names
  | nullRoot => ascii "Grammar needs a root rule"
  | noSuchId id => id

/-- The message of a fault: its wording up to, but not including, the first zero
byte. An id that was never defined is given as it is. -/
def message? (names : Naming) : Fault → Option Bytes
  | noSuchId id => id
  | fault => (fault.wording? names).map (·.takeWhile (· != 0))

end Fault

/-- If the changed answer to a request is there, the request was answered. -/
theorem exists_of_map_eq_ok {α β : Type} {x : Except Fault α} {f : α → β} {b : β}
    (h : x.map f = .ok b) : ∃ a, x = .ok a ∧ f a = b := by
  cases x with
  | error fault => cases h
  | ok a => exact ⟨a, rfl, Except.ok.inj h⟩

end PhraseGrammar
