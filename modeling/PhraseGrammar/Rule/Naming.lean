import PhraseGrammar.Rule.Basic

/-!
# Names of rules

A naming says which rules have names. A rule gets at most one name and keeps it,
so a naming only ever grows. Names have to be valid token names: words of ASCII
letters and digits that start with a letter, joined by single underscores.

The module also holds the description of a rule for messages: its name if it has
one, and otherwise how it was put together.
-/

set_option autoImplicit false

namespace PhraseGrammar

/-- The names given so far, as pairs of a rule number and a name. -/
abbrev Naming := List (Nat × Bytes)

namespace Naming

/-- The name of a rule, if it has one. -/
def name? (names : Naming) (r : Rule) : Option Bytes :=
  names.lookup r.number

/-- The naming in which a rule also has a name. A rule that has one keeps it. -/
def assign (names : Naming) (r : Rule) (name : Bytes) : Naming :=
  match names.name? r with
  | some _ => names
  | none => (r.number, name) :: names

end Naming

namespace Rule

mutual

/-- A short description of a rule: its name, or the quoted source of a leaf, or
the kind of combination with the descriptions of the components. -/
def describe (names : Naming) : Rule → Bytes
  | leaf n source _ => (names.lookup n).getD (quoted source)
  | compound n combinator parts =>
    match names.lookup n with
    | some name => name
    | none => combinator.label ++ ascii "(" ++ describeAll names parts ++ ascii ")"

/-- The descriptions of the given rules, with commas in between. -/
def describeAll (names : Naming) : List Rule → Bytes
  | [] => []
  | r :: rs =>
    if rs.isEmpty then describe names r
    else describe names r ++ ascii ", " ++ describeAll names rs

end

end Rule

/-- What can be wrong with a token name. -/
inductive NameFlaw
  /-- A byte is neither an ASCII letter or digit nor an underscore; the first such byte is given. -/
  | invalidByte (b : UInt8)
  /-- There is no letter and no digit. -/
  | noAlphanumeric
  /-- The first or the last byte is an underscore. -/
  | edgeUnderscore
  /-- The first byte is a digit. -/
  | leadingDigit
  /-- Two underscores follow each other. -/
  | doubledUnderscore
  deriving DecidableEq, Repr

/-- The first thing that is wrong with a token name, in the order of the cases of
`NameFlaw`; `none` for a valid name. -/
def nameFlaw? (name : Bytes) : Option NameFlaw :=
  let underscore := '_'.toUInt8
  match name.find? (fun b => !(Byte.isAlphanumeric b || b == underscore)) with
  | some b => some (.invalidByte b)
  | none =>
    if !name.any Byte.isAlphanumeric then some .noAlphanumeric
    else if name.head? == some underscore || name.getLast? == some underscore then
      some .edgeUnderscore
    else if name.head?.any Byte.isDigit then some .leadingDigit
    else if Bytes.occursIn (ascii "__") name then some .doubledUnderscore
    else none

end PhraseGrammar
