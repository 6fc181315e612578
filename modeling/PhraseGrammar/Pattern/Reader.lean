import PhraseGrammar.Pattern.Lexeme

/-!
# Reading a pattern

A pattern is a list of branches with bars in between, a branch is a row of items,
and an item may be followed by quantifiers. A parenthesised pattern is an item.

A `Reader` holds what has been read of the innermost open group and of the groups
around it, and takes one lexeme at a time. At the end the pieces become a regular
expression in which neighbouring literals are joined, literals without bytes are
left out, and neither a branch nor a list of branches is wrapped if it has one
element only.

A pattern that ends well is still refused if there are errors among the notes on
its bracket sets.
-/

set_option autoImplicit false

namespace PhraseGrammar

namespace Pattern

/-- Joins neighbouring literals, and leaves out literals without bytes. -/
def joinLiterals : List Regex → List Regex
  | [] => []
  | .literal v :: rest =>
    match joinLiterals rest with
    | .literal w :: others => .literal (v ++ w) :: others
    | others => if v.isEmpty then others else .literal v :: others
  | r :: rest => r :: joinLiterals rest

/-- The expression for parts in a row. -/
def rowOf (parts : List Regex) : Regex :=
  match joinLiterals parts with
  | [] => .literal []
  | [r] => r
  | rs => .concat rs

/-- The expression for alternative branches. -/
def alternativesOf : List Regex → Regex
  | [] => .literal []
  | [r] => r
  | rs => .alternation rs

/-- How deep groups may lie in each other. -/
def maxDepth : UInt8 := 255

/-- How many quantifiers may follow each other. -/
def maxQuantifiers : Nat := 5

/-- An open group: how deep it lies, its finished branches and the parts of the
current branch, both latest first, and the number of quantifiers since the last item. -/
structure Group where
  depth : UInt8
  branches : List Regex := []
  parts : List Regex := []
  quantifiers : Nat := 0

namespace Group

/-- Appends an item to the current branch. -/
def push (g : Group) (r : Regex) : Group :=
  { g with parts := r :: g.parts, quantifiers := 0 }

/-- Ends the current branch and begins the next. -/
def endBranch (g : Group) : Group :=
  { g with branches := rowOf g.parts.reverse :: g.branches, parts := [], quantifiers := 0 }

/-- The expression for the whole group. -/
def toRegex (g : Group) : Regex :=
  alternativesOf g.endBranch.branches.reverse

/-- Counts one more quantifier, or a brace in its place, and checks that there is
an item for it. Gives that item and the ones before it. -/
def lastItem (g : Group) (start : Nat) (isBrace : Bool) : Except Note (Regex × List Regex) :=
  let flawed (flaw : Flaw) : Except Note (Regex × List Regex) := .error ⟨flaw, start, start + 1⟩
  if maxQuantifiers < g.quantifiers + 1 then flawed .tooManyRepetitions
  else if isBrace then flawed .countedRepetition
  else
    match g.parts with
    | [] => flawed .nothingToRepeat
    | r :: rs => .ok (r, rs)

/-- The depth that counts against the limit when a group is opened inside this
one. Quantifiers since the last item count as well, and the sum is a byte. -/
def openingDepth (g : Group) : UInt8 :=
  g.depth + g.quantifiers.toUInt8

end Group

/-- What has been read: the innermost open group, and around it the other open
groups, innermost first, each with the position of the parenthesis that opened
the group inside it. -/
structure Reader where
  current : Group
  outer : List (Nat × Group) := []

namespace Reader

/-- A reader that has read nothing. -/
def initial : Reader where
  current := { depth := 0 }

/-- Reads one lexeme. -/
def step (reader : Reader) (l : PlacedLexeme) : Except Note Reader :=
  match l.lexeme with
  | .opening =>
    let depth := reader.current.openingDepth
    if depth = maxDepth then .error ⟨.nestedTooDeep, l.start, l.start + 1⟩
    else .ok ⟨{ depth := depth + 1 }, (l.start, reader.current) :: reader.outer⟩
  | .closing =>
    match reader.outer with
    | [] => .error ⟨.unmatchedClose, l.start, l.start + 1⟩
    | (_, enclosing) :: outer => .ok ⟨enclosing.push reader.current.toRegex, outer⟩
  | .bar => .ok { reader with current := reader.current.endBranch }
  | .quantifier q =>
    let current := reader.current
    match current.lastItem l.start false with
    | .error note => .error note
    | .ok (r, rs) =>
      .ok { reader with
        current := { current with
          parts := q.apply r :: rs, quantifiers := current.quantifiers + 1 } }
  | .brace => (reader.current.lastItem l.start true).map fun _ => reader
  | .item r => .ok { reader with current := reader.current.push r }
  | .unreadable note => .error note

/-- The expression that was read, at the end of the text. -/
def finish (reader : Reader) (stop : Nat) : Except Note Regex :=
  match reader.outer with
  | [] => .ok reader.current.toRegex
  | (start, _) :: _ => .error ⟨.unmatchedOpen, start, stop⟩

end Reader

/-- A pattern as it was read: its expression, if it has one, and the notes on it. -/
structure Reading where
  regex : Option Regex
  notes : List Note
  deriving Repr

/-- Reads lexemes up to the end of the text, at position `stop`, or to the first
one that does not fit. -/
def Reader.readAll (stop : Nat) (reader : Reader) : List PlacedLexeme → Reading
  | [] =>
    match reader.finish stop with
    | .ok r => ⟨some r, []⟩
    | .error note => ⟨none, [note]⟩
  | l :: ls =>
    match reader.step l with
    | .ok next =>
      let reading := next.readAll stop ls
      ⟨reading.regex, l.notes ++ reading.notes⟩
    | .error note => ⟨none, l.notes ++ [note]⟩

/-- Reads the pattern that starts at position `i` of a text and goes on to its end. -/
def read (text : Bytes) (i : Nat) : Reading :=
  let body := text.drop i
  let reading := Reader.initial.readAll (i + body.length) (lexemes i body)
  if reading.notes.any Note.isError then ⟨none, reading.notes⟩ else reading

namespace Reading

/-- The position after a pattern that was read from position `i` on: the end of
the text, or `i` itself if the pattern was refused. -/
def stop (reading : Reading) (text : Bytes) (i : Nat) : Nat :=
  if reading.regex.isSome then i + (text.drop i).length else i

/-- The diagnostics on a pattern. -/
def diagnostics (reading : Reading) (text : Bytes) : List Diagnostic :=
  reading.notes.map (·.toDiagnostic text)

end Reading

end Pattern

end PhraseGrammar
