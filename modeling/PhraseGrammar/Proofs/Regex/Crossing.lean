import PhraseGrammar.Proofs.Regex.Trail

/-!
# Crossing that keeps every arrival

`State.cross` asks whether a part of a sequence was matched before its anchors were
crossed, and asks after a way has arrived at the part. `State.crossBy true` crosses in
the same way and asks before that; `State.crossBy false` is `State.cross`
(`State.crossBy_false`). What the two have in common is proved for both.
-/

set_option autoImplicit false

namespace PhraseGrammar

mutual

/-- Moves marks over the anchors that hold between two bytes. If it is `keeping`,
a part of a sequence counts as matched before only if it was so before a way arrived. -/
def State.crossBy (keeping : Bool) (e : Edges) : {r : Regex} → State r → State r
  | .set _, s => s
  | .literal _, s => s
  | .anchor a, .anchor before after => .anchor before (after || before && e.satisfy a)
  | .concat _, .concat stuck states => .concat stuck (states.crossInRowBy keeping e false)
  | .alternation _, .alternation states => .alternation (states.crossAllBy keeping e)
  | .repetition _, .repetition state =>
    let crossed := state.crossBy keeping e
    .repetition (if !state.matched && crossed.matched then crossed.start.crossBy keeping e
      else crossed)
  | .optional _, .optional fresh state => .optional fresh (state.crossBy keeping e)

/-- Crosses each of several expressions. -/
def States.crossAllBy (keeping : Bool) (e : Edges) : {rs : List Regex} → States rs → States rs
  | [], .nil => .nil
  | _ :: _, .cons first rest => .cons (first.crossBy keeping e) (rest.crossAllBy keeping e)

/-- Crosses several expressions in a row, where a way may be `arriving` from the left. -/
def States.crossInRowBy (keeping : Bool) (e : Edges) :
    {rs : List Regex} → (arriving : Bool) → States rs → States rs
  | [], _, .nil => .nil
  | _ :: _, arriving, .cons first rest =>
    let entered := first.startIf arriving
    let crossed := entered.crossBy keeping e
    let matchedBefore := if keeping then first.matched else entered.matched
    .cons crossed (rest.crossInRowBy keeping e (!matchedBefore && crossed.matched))

end

mutual

/-- Crossing that keeps no more than the simulation does is the crossing of the simulation. -/
theorem State.crossBy_false (e : Edges) : {r : Regex} → (s : State r) →
    s.crossBy false e = s.cross e
  | .set _, _ => rfl
  | .literal _, _ => rfl
  | .anchor _, .anchor _ _ => rfl
  | .concat _, .concat _ states => by
    simp only [State.crossBy, State.cross, States.crossInRowBy_false e states]
  | .alternation _, .alternation states => by
    simp only [State.crossBy, State.cross, States.crossAllBy_false e states]
  | .repetition part, .repetition state => by
    have hpart (s : State part) : s.crossBy false e = s.cross e := State.crossBy_false e s
    simp only [State.crossBy, State.cross, hpart]
  | .optional _, .optional _ state => by
    simp only [State.crossBy, State.cross, State.crossBy_false e state]

theorem States.crossAllBy_false (e : Edges) : {rs : List Regex} → (s : States rs) →
    s.crossAllBy false e = s.crossAll e
  | [], .nil => rfl
  | _ :: _, .cons first rest => by
    simp only [States.crossAllBy, States.crossAll, State.crossBy_false e first,
      States.crossAllBy_false e rest]

theorem States.crossInRowBy_false (e : Edges) : {rs : List Regex} → (s : States rs) →
    {arriving : Bool} → s.crossInRowBy false e arriving = s.crossInRow e arriving
  | [], .nil, _ => rfl
  | _ :: _, .cons first rest, arriving => by
    have hfirst := State.crossBy_false e (first.startIf arriving)
    simp only [States.crossInRowBy, States.crossInRow, Bool.false_eq_true, if_false, hfirst,
      States.crossInRowBy_false e rest]

end

namespace Regex

section

variable (keeping : Bool) (opts : RegexOptions) (text : Bytes) (origin : Nat) (r : Regex)

/-- The state `k` bytes after the position `origin`, before the anchors there are
crossed, if all crossings before were `keeping` or none was. -/
def trailBefore : Nat → State r
  | 0 => (State.idle r).start
  | k + 1 =>
    ((trailBefore k).crossBy keeping (.around opts text origin (origin + k))).advance
      (text.after (origin + k))

/-- The state `k` bytes after the position `origin`, after the anchors there are crossed. -/
def trailAt (k : Nat) : State r :=
  (trailBefore keeping opts text origin r k).crossBy keeping (.around opts text origin (origin + k))

end

variable {keeping : Bool} {opts : RegexOptions} {text : Bytes} {origin : Nat} {r : Regex}

/-- The next state comes from this one by moving over a byte and crossing anchors. -/
theorem trailAt_succ (k : Nat) :
    trailAt keeping opts text origin r (k + 1) =
      ((trailAt keeping opts text origin r k).advance (text.after (origin + k))).crossBy keeping
        (.around opts text origin (origin + (k + 1))) := rfl

/-- The states of the simulation are those of the crossing that is not `keeping`. -/
theorem marksBefore_eq_trailBefore (k : Nat) :
    marksBefore opts text origin r k = trailBefore false opts text origin r k := by
  induction k with
  | zero => rfl
  | succ k ih => rw [marksBefore, trailBefore, State.crossBy_false, ih]

/-- The states of the simulation are those in which arrivals are not kept. -/
theorem marksAt_eq_trailAt (k : Nat) :
    marksAt opts text origin r k = trailAt false opts text origin r k := by
  rw [marksAt, trailAt, State.crossBy_false, marksBefore_eq_trailBefore]

end Regex

end PhraseGrammar
