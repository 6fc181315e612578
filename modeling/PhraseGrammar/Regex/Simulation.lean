import PhraseGrammar.Fault

/-!
# Matching without backtracking

All ways to match an expression are followed at once. A `State r` has the shape
of the expression `r` and marks the places inside it that some way has reached.
It changes in three ways: `start` marks the beginning of the expression,
`advance` moves every mark over one byte, and `cross` moves marks over the
anchors that hold between two bytes. `matched` says that some way has reached
the end of the expression, `alive` that some way can still go on.

`longestMatch` runs a text through the state and keeps the last position at
which the state was matched, so that it finds the longest beginning of the text
that matches. Each byte is looked at once.

A sequence without parts has no beginning that could be marked. Starting one is
a fault; the state remembers it and the run reports it.
-/

set_option autoImplicit false

namespace PhraseGrammar

/-- What holds between two bytes, anchor by anchor. -/
structure Edges where
  wordEdge : Bool
  lineStart : Bool
  lineEnd : Bool
  deriving DecidableEq, Repr

namespace Edges

/-- The edges between a byte and the next one. -/
def between (opts : RegexOptions) (before after : UInt8) : Edges where
  wordEdge := opts.word.contains before != opts.word.contains after
  lineStart := before == Byte.newline
  lineEnd := after == Byte.newline

/-- Whether an anchor holds. -/
def satisfy (e : Edges) : Anchor → Bool
  | .wordEdge => e.wordEdge
  | .lineStart => e.lineStart
  | .lineEnd => e.lineEnd

end Edges

/-- Marks in a literal: one before each of its bytes and one after the last. -/
inductive Marks : Bytes → Type
  | last (here : Bool) : Marks []
  | more {b : UInt8} {bs : Bytes} (here : Bool) (rest : Marks bs) : Marks (b :: bs)

namespace Marks

/-- No mark anywhere. -/
def idle : (bs : Bytes) → Marks bs
  | [] => .last false
  | _ :: bs => .more false (idle bs)

/-- Sets the mark before the first byte. -/
def start : {bs : Bytes} → Marks bs → Marks bs
  | _, .last _ => .last true
  | _, .more _ rest => .more true rest

/-- Whether the end is marked. -/
def matched : {bs : Bytes} → Marks bs → Bool
  | _, .last here => here
  | _, .more _ rest => rest.matched

/-- Whether anything is marked. -/
def alive : {bs : Bytes} → Marks bs → Bool
  | _, .last here => here
  | _, .more here rest => here || rest.alive

/-- Moves the marks before a byte that equals `c` to the place after it, where
`arriving` is the mark that comes in from the left. All other marks are lost. -/
def shift (c : UInt8) : {bs : Bytes} → (arriving : Bool) → Marks bs → Marks bs
  | _, arriving, .last _ => .last arriving
  | _, arriving, @Marks.more b _ here rest =>
    .more arriving (shift c (here && b == c) rest)

/-- Moves every mark over the byte `c`. -/
def advance {bs : Bytes} (c : UInt8) (m : Marks bs) : Marks bs :=
  m.shift c false

end Marks

mutual

/-- The marks in an expression. A set and an anchor have one place before them
and one after them. A repetition has those of its part. -/
inductive State : Regex → Type
  | set {bytes : CharSet} (before after : Bool) : State (.set bytes)
  | literal {bytes : Bytes} (marks : Marks bytes) : State (.literal bytes)
  | anchor {anchor : Anchor} (before after : Bool) : State (.anchor anchor)
  /-- `stuck` remembers that the sequence was started although it has no parts. -/
  | concat {parts : List Regex} (stuck : Bool) (states : States parts) : State (.concat parts)
  | alternation {parts : List Regex} (states : States parts) : State (.alternation parts)
  | repetition {part : Regex} (state : State part) : State (.repetition part)
  /-- `fresh` marks the way around the part, before any byte has been read. -/
  | optional {part : Regex} (fresh : Bool) (state : State part) : State (.optional part)

/-- The marks in each of several expressions. -/
inductive States : List Regex → Type
  | nil : States []
  | cons {part : Regex} {parts : List Regex} (first : State part) (rest : States parts) :
      States (part :: parts)

end

mutual

/-- The state of an expression without any marks. -/
def State.idle : (r : Regex) → State r
  | .set _ => .set false false
  | .literal bytes => .literal (.idle bytes)
  | .anchor _ => .anchor false false
  | .concat parts => .concat false (States.idle parts)
  | .alternation parts => .alternation (States.idle parts)
  | .repetition part => .repetition (State.idle part)
  | .optional part => .optional false (State.idle part)

/-- The states of several expressions without any marks. -/
def States.idle : (rs : List Regex) → States rs
  | [] => .nil
  | r :: rs => .cons (State.idle r) (States.idle rs)

end

mutual

/-- Whether some way has reached the end of the expression. -/
def State.matched : {r : Regex} → State r → Bool
  | _, .set _ after => after
  | _, .literal marks => marks.matched
  | _, .anchor _ after => after
  | _, .concat _ states => states.lastMatched
  | _, .alternation states => states.anyMatched
  | _, .repetition state => state.matched
  | _, .optional fresh state => fresh || state.matched

/-- Whether the last of several expressions is matched. -/
def States.lastMatched : {rs : List Regex} → States rs → Bool
  | _, .nil => false
  | _ :: rs, .cons first rest => if rs.isEmpty then first.matched else rest.lastMatched

/-- Whether one of several expressions is matched. -/
def States.anyMatched : {rs : List Regex} → States rs → Bool
  | _, .nil => false
  | _, .cons first rest => first.matched || rest.anyMatched

end

mutual

/-- Whether there is any mark at all, so that some way can still go on. -/
def State.alive : {r : Regex} → State r → Bool
  | _, .set before after => before || after
  | _, .literal marks => marks.alive
  | _, .anchor before after => before || after
  | _, .concat _ states => states.anyAlive
  | _, .alternation states => states.anyAlive
  | _, .repetition state => state.alive
  | _, .optional fresh state => fresh || state.alive

/-- Whether one of several expressions has a mark. -/
def States.anyAlive : {rs : List Regex} → States rs → Bool
  | _, .nil => false
  | _, .cons first rest => first.alive || rest.anyAlive

end

mutual

/-- Whether a sequence without parts was started somewhere in the expression. -/
def State.isStuck : {r : Regex} → State r → Bool
  | _, .set _ _ => false
  | _, .literal _ => false
  | _, .anchor _ _ => false
  | _, .concat stuck states => stuck || states.anyStuck
  | _, .alternation states => states.anyStuck
  | _, .repetition state => state.isStuck
  | _, .optional _ state => state.isStuck

/-- Whether a sequence without parts was started in one of several expressions. -/
def States.anyStuck : {rs : List Regex} → States rs → Bool
  | _, .nil => false
  | _, .cons first rest => first.isStuck || rest.anyStuck

end

mutual

/-- Marks the beginning of the expression, and all places that are reached from
there without a byte and without an anchor. -/
def State.start : {r : Regex} → State r → State r
  | _, .set _ after => .set true after
  | _, .literal marks => .literal marks.start
  | _, .anchor _ after => .anchor true after
  | .concat parts, .concat stuck states => .concat (stuck || parts.isEmpty) states.startFirst
  | _, .alternation states => .alternation states.startAll
  | _, .repetition state => .repetition state.start
  | _, .optional _ state => .optional true state.start

/-- Starts each of several expressions. -/
def States.startAll : {rs : List Regex} → States rs → States rs
  | _, .nil => .nil
  | _, .cons first rest => .cons first.start rest.startAll

/-- Starts the first of several expressions in a row, and each next one as long
as the one before it is matched. -/
def States.startFirst : {rs : List Regex} → States rs → States rs
  | _, .nil => .nil
  | _, .cons first rest =>
    let started := first.start
    .cons started (if started.matched then rest.startFirst else rest)

end

/-- Starts an expression if a way arrives at it. -/
def State.startIf {r : Regex} (arriving : Bool) (s : State r) : State r :=
  if arriving then s.start else s

mutual

/-- Moves every mark over the byte `c`. A repetition that is matched then starts
again, and a part of a sequence that is matched then starts the next one. -/
def State.advance (c : UInt8) : {r : Regex} → State r → State r
  | .set bytes, .set before _ => .set false (before && bytes.contains c)
  | _, .literal marks => .literal (marks.advance c)
  | _, .anchor _ _ => .anchor false false
  | _, .concat stuck states => .concat stuck (states.advanceInRow c false)
  | _, .alternation states => .alternation (states.advanceAll c)
  | _, .repetition state =>
    let moved := state.advance c
    .repetition (moved.startIf moved.matched)
  | _, .optional _ state => .optional false (state.advance c)

/-- Moves the marks in each of several expressions. -/
def States.advanceAll (c : UInt8) : {rs : List Regex} → States rs → States rs
  | _, .nil => .nil
  | _, .cons first rest => .cons (first.advance c) (rest.advanceAll c)

/-- Moves the marks in several expressions in a row. The first one is started
afterwards if a way is `arriving` from the left. -/
def States.advanceInRow (c : UInt8) : {rs : List Regex} → (arriving : Bool) → States rs → States rs
  | _, _, .nil => .nil
  | _, arriving, .cons first rest =>
    let moved := (first.advance c).startIf arriving
    .cons moved (rest.advanceInRow c moved.matched)

end

mutual

/-- Moves marks over the anchors that hold between two bytes; no mark is lost. A
repetition that is matched only now starts again and is crossed once more, and a
part of a sequence that is matched only now starts the next one. -/
def State.cross (e : Edges) : {r : Regex} → State r → State r
  | .set _, s => s
  | .literal _, s => s
  | .anchor a, .anchor before after => .anchor before (after || before && e.satisfy a)
  | .concat _, .concat stuck states => .concat stuck (states.crossInRow e false)
  | .alternation _, .alternation states => .alternation (states.crossAll e)
  | .repetition _, .repetition state =>
    let crossed := state.cross e
    .repetition (if !state.matched && crossed.matched then crossed.start.cross e else crossed)
  | .optional _, .optional fresh state => .optional fresh (state.cross e)

/-- Crosses each of several expressions. -/
def States.crossAll (e : Edges) : {rs : List Regex} → States rs → States rs
  | [], .nil => .nil
  | _ :: _, .cons first rest => .cons (first.cross e) (rest.crossAll e)

/-- Crosses several expressions in a row. The first one is started before that if
a way is `arriving` from the left. -/
def States.crossInRow (e : Edges) : {rs : List Regex} → (arriving : Bool) → States rs → States rs
  | [], _, .nil => .nil
  | _ :: _, arriving, .cons first rest =>
    let entered := first.startIf arriving
    let crossed := entered.cross e
    .cons crossed (rest.crossInRow e (!entered.matched && crossed.matched))

end

namespace Regex

/-- A run over a text: the state so far, the byte before the current position,
the number of bytes read, and that number when the state was last matched. -/
structure Run (r : Regex) where
  state : State r
  before : UInt8
  count : Nat
  longest : Option Nat

namespace Run

/-- A run that has read nothing. What precedes the text counts as a newline. -/
def initial (r : Regex) : Run r where
  state := (State.idle r).start
  before := Byte.newline
  count := 0
  longest := none

variable {r : Regex} (opts : RegexOptions)

/-- Crosses the place before the byte `after` and notes whether the state is matched there. -/
def look (run : Run r) (after : UInt8) : Run r :=
  let crossed := run.state.cross (.between opts run.before after)
  { run with
    state := crossed
    longest := if crossed.matched then some run.count else run.longest }

/-- Reads one byte. -/
def read (run : Run r) (c : UInt8) : Run r where
  state := run.state.advance c
  before := c
  count := run.count + 1
  longest := run.longest

/-- Reads a text until it ends or no way can go on. What follows the text counts as a newline. -/
def readAll (run : Run r) : Bytes → Run r
  | [] => run.look opts Byte.newline
  | c :: rest => if run.state.alive then ((run.look opts c).read c).readAll rest else run

end Run

/-- The length of the longest beginning of a text that matches, if there is one. -/
def longestMatch (opts : RegexOptions) (r : Regex) (text : Bytes) : Except Fault (Option Nat) :=
  let run := (Run.initial r).readAll opts text
  if run.state.isStuck then .error .emptySequence else .ok run.longest

/-- The position that no match may end at unless it lies inside the text: the last word. -/
def lastPosition : Nat := UInt64.size - 1

/-- The end of the longest match that starts at position `i` of a text. What
precedes position `i` is out of sight. From a position past the end of the text
only an empty match is possible, and none at all from the last position. -/
def consume (opts : RegexOptions) (r : Regex) (text : Bytes) (i : Nat) :
    Except Fault (Option Nat) :=
  match longestMatch opts r (text.drop i) with
  | .error fault => .error fault
  | .ok none => .ok none
  | .ok (some n) =>
    .ok (if i = lastPosition ∧ text.length < i then none else some (i + n))

end Regex

end PhraseGrammar
