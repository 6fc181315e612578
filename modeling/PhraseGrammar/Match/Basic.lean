import PhraseGrammar.Bytes

/-!
# Matches

A match is the text that was consumed together with a tree of tokens. Every name
that was declared has a list of slots, one per declaration and in that order; a
slot is empty if its declaring rule took no part in the match. Names are kept in
byte order.

A token is what a caller gets when asking for a name. Its kind says how it may
be used: declared once and matched, declared more than once, or neither.
-/

set_option autoImplicit false

namespace PhraseGrammar

/-- Consumed text and, for each declared name in byte order, its slots. -/
structure Match where
  text : Bytes
  tokens : List (Bytes × List (Option Match))

/-- The slots of each declared name, names ascending. -/
abbrev Slots := List (Bytes × List (Option Match))

/-- The ways in which a token may be used. -/
inductive TokenKind
  /-- Never declared, or declared once by a rule that took no part in the match. -/
  | absent
  /-- Declared once and matched. -/
  | single
  /-- Declared more than once. -/
  | list
  deriving DecidableEq, Repr

/-- The number by which a message refers to a kind. -/
def TokenKind.code : TokenKind → Nat
  | .absent => 0
  | .single => 1
  | .list => 2

/-- The slots found under one name. -/
structure Token where
  slots : List (Option Match)

namespace Token

/-- The match of a name that was declared exactly once and took part. -/
def match? (t : Token) : Option Match :=
  match t.slots with
  | [some m] => some m
  | _ => none

/-- How a token may be used. -/
def kind (t : Token) : TokenKind :=
  match t.slots with
  | [] => .absent
  | [none] => .absent
  | [some _] => .single
  | _ :: _ :: _ => .list

/-- Whether there is anything under the name. -/
def isPresent (t : Token) : Bool :=
  t.kind != .absent

/-- The number of declarations of the name. -/
def size (t : Token) : Nat :=
  t.slots.length

/-- A token has a match of its own exactly if its kind is `single`. -/
theorem match?_isSome_iff (t : Token) : t.match?.isSome = true ↔ t.kind = .single := by
  unfold match? kind
  split <;> split <;> simp_all

end Token

namespace Match

/-- A match without tokens. -/
def plain (text : Bytes) : Match :=
  ⟨text, []⟩

/-- The number of bytes consumed. -/
def size (m : Match) : Nat :=
  m.text.length

/-- The token under a name; it has no slots if the name was never declared. -/
def get (m : Match) (name : Bytes) : Token :=
  ⟨(m.tokens.lookup name).getD []⟩

/-- Whether a name was declared. -/
def declares (m : Match) (name : Bytes) : Bool :=
  (m.tokens.lookup name).isSome

end Match

end PhraseGrammar
