import PhraseGrammar.Proofs.Regex.Settled
import PhraseGrammar.Proofs.Regex.Trail
import Mathlib.Data.Bool.Basic

/-!
# What a step does to the marks

The laws here hold of every state that has the shape of its expression, whatever is marked in it.
Starting an expression and crossing anchors only add marks (`State.le_start`, `State.le_cross`),
and with more marks a state is matched, or alive, whenever it was so before
(`State.Le.matched`, `State.Le.alive`). Moving over a byte gives no life to a state that has none.

Crossing the same anchors again changes nothing (`State.cross_cross`): in the second pass no part
becomes matched that was not so before, so nothing is started. The one more pass that a repetition
makes is enough for that. It need not be enough for the repetition to have been started wherever it
can be; that depends on the shape of the expression, see `Regex.keepsArrivals`.
-/

set_option autoImplicit false

namespace PhraseGrammar

/-! ## More marks -/

/-- Each mark of the first is one of the second. -/
def Marks.Le : {bytes : Bytes} → Marks bytes → Marks bytes → Prop
  | _, .last here, .last here' => here ≤ here'
  | _, .more here rest, .more here' rest' => here ≤ here' ∧ rest.Le rest'

mutual

/-- Each mark of the first state is one of the second. -/
def State.Le : {r : Regex} → State r → State r → Prop
  | _, .set before after, .set before' after' => before ≤ before' ∧ after ≤ after'
  | _, .literal marks, .literal marks' => marks.Le marks'
  | _, .anchor before after, .anchor before' after' => before ≤ before' ∧ after ≤ after'
  | _, .concat stuck states, .concat stuck' states' => stuck ≤ stuck' ∧ states.Le states'
  | _, .alternation states, .alternation states' => states.Le states'
  | _, .repetition state, .repetition state' => state.Le state'
  | _, .optional fresh state, .optional fresh' state' => fresh ≤ fresh' ∧ state.Le state'

/-- Each mark of the first states is one of the second ones. -/
def States.Le : {rs : List Regex} → States rs → States rs → Prop
  | _, .nil, .nil => True
  | _, .cons first rest, .cons first' rest' => first.Le first' ∧ rest.Le rest'

end

namespace Marks

variable {bytes : Bytes}

theorem le_refl (m : Marks bytes) : m.Le m := by
  induction m with
  | last here => exact Bool.le_refl here
  | more here rest ih => exact ⟨Bool.le_refl here, ih⟩

theorem Le.trans {m n k : Marks bytes} (h : m.Le n) (h' : n.Le k) : m.Le k := by
  induction m with
  | last here =>
    cases n
    cases k
    exact Bool.le_trans h h'
  | more here rest ih =>
    cases n
    cases k
    exact ⟨Bool.le_trans h.1 h'.1, ih h.2 h'.2⟩

/-- With more marks a literal is matched whenever it was so before. -/
theorem Le.matched {m n : Marks bytes} (h : m.Le n) : m.matched = true → n.matched = true := by
  induction m with
  | last here =>
    cases n
    exact h
  | more here rest ih =>
    cases n
    exact ih h.2

theorem Le.alive {m n : Marks bytes} (h : m.Le n) : m.alive = true → n.alive = true := by
  induction m with
  | last here =>
    cases n
    exact h
  | more here rest ih =>
    cases n
    simp only [Marks.alive, Bool.or_eq_true]
    exact Or.imp h.1 (ih h.2)

theorem le_start (m : Marks bytes) : m.Le m.start := by
  cases m with
  | last here => exact Bool.le_true here
  | more here rest => exact ⟨Bool.le_true here, le_refl rest⟩

end Marks

mutual

theorem State.le_refl : {r : Regex} → (s : State r) → s.Le s
  | _, .set before after => ⟨Bool.le_refl before, Bool.le_refl after⟩
  | _, .literal marks => marks.le_refl
  | _, .anchor before after => ⟨Bool.le_refl before, Bool.le_refl after⟩
  | _, .concat stuck states => ⟨Bool.le_refl stuck, States.le_refl states⟩
  | _, .alternation states => States.le_refl states
  | _, .repetition state => State.le_refl state
  | _, .optional fresh state => ⟨Bool.le_refl fresh, State.le_refl state⟩

theorem States.le_refl : {rs : List Regex} → (s : States rs) → s.Le s
  | _, .nil => trivial
  | _, .cons first rest => ⟨State.le_refl first, States.le_refl rest⟩

end

mutual

/-- Adding marks to a state twice only adds marks. -/
theorem State.Le.trans : {r : Regex} → {s t u : State r} → s.Le t → t.Le u → s.Le u
  | _, .set _ _, .set _ _, .set _ _, h, h' =>
    ⟨Bool.le_trans h.1 h'.1, Bool.le_trans h.2 h'.2⟩
  | _, .literal _, .literal _, .literal _, h, h' => Marks.Le.trans h h'
  | _, .anchor _ _, .anchor _ _, .anchor _ _, h, h' =>
    ⟨Bool.le_trans h.1 h'.1, Bool.le_trans h.2 h'.2⟩
  | _, .concat _ _, .concat _ _, .concat _ _, h, h' =>
    ⟨Bool.le_trans h.1 h'.1, States.Le.trans h.2 h'.2⟩
  | _, .alternation s, .alternation t, .alternation u, h, h' =>
    States.Le.trans (s := s) (t := t) (u := u) h h'
  | _, .repetition s, .repetition t, .repetition u, h, h' =>
    State.Le.trans (s := s) (t := t) (u := u) h h'
  | _, .optional _ _, .optional _ _, .optional _ _, h, h' =>
    ⟨Bool.le_trans h.1 h'.1, State.Le.trans h.2 h'.2⟩

theorem States.Le.trans : {rs : List Regex} → {s t u : States rs} → s.Le t → t.Le u → s.Le u
  | _, .nil, .nil, .nil, _, _ => trivial
  | _, .cons _ _, .cons _ _, .cons _ _, h, h' =>
    ⟨State.Le.trans h.1 h'.1, States.Le.trans h.2 h'.2⟩

end

mutual

/-- With more marks a state stays matched. -/
theorem State.Le.matched : {r : Regex} → {s t : State r} → s.Le t → s.matched = true →
    t.matched = true
  | _, .set _ _, .set _ _, h, hm => h.2 hm
  | _, .literal _, .literal _, h, hm => Marks.Le.matched h hm
  | _, .anchor _ _, .anchor _ _, h, hm => h.2 hm
  | _, .concat _ _, .concat _ _, h, hm => States.Le.lastMatched h.2 hm
  | _, .alternation s, .alternation t, h, hm => States.Le.anyMatched (s := s) (t := t) h hm
  | _, .repetition s, .repetition t, h, hm => State.Le.matched (s := s) (t := t) h hm
  | _, .optional _ _, .optional _ _, h, hm =>
    Bool.or_eq_true_iff.2 ((Bool.or_eq_true_iff.1 hm).imp h.1 (State.Le.matched h.2))

theorem States.Le.lastMatched : {rs : List Regex} → {s t : States rs} → s.Le t →
    s.lastMatched = true → t.lastMatched = true
  | _, .nil, .nil, _, hm => hm
  | [_], .cons _ .nil, .cons _ .nil, h, hm => State.Le.matched h.1 hm
  | _ :: _ :: _, .cons _ s, .cons _ t, h, hm => States.Le.lastMatched (s := s) (t := t) h.2 hm

theorem States.Le.anyMatched : {rs : List Regex} → {s t : States rs} → s.Le t →
    s.anyMatched = true → t.anyMatched = true
  | _, .nil, .nil, _, hm => hm
  | _, .cons _ _, .cons _ _, h, hm =>
    Bool.or_eq_true_iff.2
      ((Bool.or_eq_true_iff.1 hm).imp (State.Le.matched h.1) (States.Le.anyMatched h.2))

end

mutual

/-- With more marks a state stays alive. -/
theorem State.Le.alive : {r : Regex} → {s t : State r} → s.Le t → s.alive = true → t.alive = true
  | _, .set _ _, .set _ _, h, ha =>
    Bool.or_eq_true_iff.2 ((Bool.or_eq_true_iff.1 ha).imp h.1 h.2)
  | _, .literal _, .literal _, h, ha => Marks.Le.alive h ha
  | _, .anchor _ _, .anchor _ _, h, ha =>
    Bool.or_eq_true_iff.2 ((Bool.or_eq_true_iff.1 ha).imp h.1 h.2)
  | _, .concat _ _, .concat _ _, h, ha => States.Le.anyAlive h.2 ha
  | _, .alternation s, .alternation t, h, ha => States.Le.anyAlive (s := s) (t := t) h ha
  | _, .repetition s, .repetition t, h, ha => State.Le.alive (s := s) (t := t) h ha
  | _, .optional _ _, .optional _ _, h, ha =>
    Bool.or_eq_true_iff.2 ((Bool.or_eq_true_iff.1 ha).imp h.1 (State.Le.alive h.2))

theorem States.Le.anyAlive : {rs : List Regex} → {s t : States rs} → s.Le t →
    s.anyAlive = true → t.anyAlive = true
  | _, .nil, .nil, _, ha => ha
  | _, .cons _ _, .cons _ _, h, ha =>
    Bool.or_eq_true_iff.2
      ((Bool.or_eq_true_iff.1 ha).imp (State.Le.alive h.1) (States.Le.anyAlive h.2))

end

/-! ## Starting and crossing add marks -/

mutual

/-- Starting an expression keeps all marks. -/
theorem State.le_start : {r : Regex} → (s : State r) → s.Le s.start
  | _, .set before after => ⟨Bool.le_true before, Bool.le_refl after⟩
  | _, .literal marks => marks.le_start
  | _, .anchor before after => ⟨Bool.le_true before, Bool.le_refl after⟩
  | .concat _, .concat stuck states => ⟨Bool.left_le_or stuck _, States.le_startFirst states⟩
  | _, .alternation states => States.le_startAll states
  | _, .repetition state => State.le_start state
  | _, .optional fresh state => ⟨Bool.le_true fresh, State.le_start state⟩

/-- Starting a row only adds marks. -/
theorem States.le_startFirst : {rs : List Regex} → (s : States rs) → s.Le s.startFirst
  | _, .nil => trivial
  | _, .cons first rest => by
    refine ⟨State.le_start first, ?_⟩
    split
    · exact States.le_startFirst rest
    · exact rest.le_refl

theorem States.le_startAll : {rs : List Regex} → (s : States rs) → s.Le s.startAll
  | _, .nil => trivial
  | _, .cons first rest => ⟨State.le_start first, States.le_startAll rest⟩

end

/-- Starting an expression if a way arrives only adds marks. -/
theorem State.le_startIf {r : Regex} (arriving : Bool) (s : State r) :
    s.Le (s.startIf arriving) := by
  cases arriving with
  | true => exact s.le_start
  | false => exact s.le_refl

mutual

/-- Crossing anchors keeps all marks. -/
theorem State.le_cross (e : Edges) : {r : Regex} → (s : State r) → s.Le (s.cross e)
  | .set _, s => s.le_refl
  | .literal _, s => s.le_refl
  | .anchor _, .anchor before after => ⟨Bool.le_refl before, Bool.left_le_or after _⟩
  | .concat _, .concat stuck states =>
    ⟨Bool.le_refl stuck, States.le_crossInRow e false states⟩
  | .alternation _, .alternation states => States.le_crossAll e states
  | .repetition part, .repetition state => by
    have hpart (s : State part) : s.Le (s.cross e) := State.le_cross e s
    simp only [State.cross]
    split
    · exact (hpart state).trans ((State.le_start _).trans (hpart _))
    · exact hpart state
  | .optional _, .optional fresh state => ⟨Bool.le_refl fresh, State.le_cross e state⟩

/-- Crossing anchors in a row only adds marks. -/
theorem States.le_crossInRow (e : Edges) : {rs : List Regex} → (arriving : Bool) →
    (s : States rs) → s.Le (s.crossInRow e arriving)
  | [], _, .nil => trivial
  | _ :: _, arriving, .cons first rest =>
    ⟨(first.le_startIf arriving).trans (State.le_cross e _), States.le_crossInRow e _ rest⟩

theorem States.le_crossAll (e : Edges) : {rs : List Regex} → (s : States rs) →
    s.Le (s.crossAll e)
  | [], .nil => trivial
  | _ :: _, .cons first rest => ⟨State.le_cross e first, States.le_crossAll e rest⟩

end

/-! ## Crossing twice -/

/-- Whether or not a repetition starts its part again, the part that it leaves has been crossed. -/
theorem State.exists_cross_repetition (e : Edges) {part : Regex} (state : State part) :
    ∃ s : State part, (State.repetition state).cross e = .repetition (s.cross e) := by
  simp only [State.cross]
  split
  · exact ⟨_, rfl⟩
  · exact ⟨_, rfl⟩

mutual

/-- Crossing the same anchors again changes nothing. -/
theorem State.cross_cross (e : Edges) : {r : Regex} → (s : State r) →
    (s.cross e).cross e = s.cross e
  | .set _, _ => rfl
  | .literal _, _ => rfl
  | .anchor _, .anchor before after => by
    simp only [State.cross, Bool.or_assoc, Bool.or_self]
  | .concat _, .concat _ states => by
    simp only [State.cross, States.crossInRow_crossInRow e false states]
  | .alternation _, .alternation states => by
    simp only [State.cross, States.crossAll_crossAll e states]
  | .repetition part, .repetition state => by
    have hpart (s : State part) : (s.cross e).cross e = s.cross e := State.cross_cross e s
    obtain ⟨s, hs⟩ := State.exists_cross_repetition e state
    rw [hs]
    simp only [State.cross, hpart, Bool.not_and_self, Bool.false_eq_true, if_false]
  | .optional _, .optional _ state => by
    simp only [State.cross, State.cross_cross e state]

/-- In the second pass over a row no part is newly matched, so that no way arrives at the next. -/
theorem States.crossInRow_crossInRow (e : Edges) : {rs : List Regex} → (arriving : Bool) →
    (s : States rs) → (s.crossInRow e arriving).crossInRow e false = s.crossInRow e arriving
  | [], _, .nil => rfl
  | _ :: _, arriving, .cons first rest => by
    have hfirst := State.cross_cross e (first.startIf arriving)
    have hrest := States.crossInRow_crossInRow e
      (!(first.startIf arriving).matched && ((first.startIf arriving).cross e).matched) rest
    simp only [States.crossInRow, State.startIf, Bool.false_eq_true, if_false] at hfirst hrest ⊢
    rw [hfirst, Bool.not_and_self, hrest]

theorem States.crossAll_crossAll (e : Edges) : {rs : List Regex} → (s : States rs) →
    (s.crossAll e).crossAll e = s.crossAll e
  | [], .nil => rfl
  | _ :: _, .cons first rest => by
    simp only [States.crossAll, State.cross_cross e first, States.crossAll_crossAll e rest]

end

/-! ## Shapes -/

/-- What a state is like apart from its marks: it has a row of places that may be marked, or the
states of parts. -/
inductive Shape
  | row (places : Nat)
  | parts (shapes : List Shape)

/-- The number of places in a literal. -/
def Marks.places : {bytes : Bytes} → Marks bytes → Nat
  | _, .last _ => 1
  | _, .more _ rest => rest.places + 1

mutual

/-- The shape of a state. A repetition has that of its part, since it has its marks. -/
def State.shape : {r : Regex} → State r → Shape
  | _, .set _ _ => .row 2
  | _, .literal marks => .row marks.places
  | _, .anchor _ _ => .row 2
  | _, .concat _ states => .parts states.shapes
  | _, .alternation states => .parts states.shapes
  | _, .repetition state => state.shape
  | _, .optional _ state => .parts [state.shape]

/-- The shapes of several states. -/
def States.shapes : {rs : List Regex} → States rs → List Shape
  | _, .nil => []
  | _, .cons first rest => first.shape :: rest.shapes

end

/-- A literal has one place before each byte and one at its end. -/
theorem Marks.places_eq {bytes : Bytes} (m : Marks bytes) : m.places = bytes.length + 1 := by
  induction m with
  | last here => rfl
  | more here rest ih => rw [Marks.places, ih, List.length_cons]

mutual

/-- All states of an expression have one shape. -/
theorem State.shape_eq : {r : Regex} → (s t : State r) → s.shape = t.shape
  | _, .set _ _, .set _ _ => rfl
  | _, .literal marks, .literal marks' => by
    simp only [State.shape, Marks.places_eq]
  | _, .anchor _ _, .anchor _ _ => rfl
  | _, .concat _ states, .concat _ states' => congrArg Shape.parts (States.shapes_eq states states')
  | _, .alternation states, .alternation states' =>
    congrArg Shape.parts (States.shapes_eq states states')
  | _, .repetition state, .repetition state' => State.shape_eq state state'
  | _, .optional _ state, .optional _ state' => by
    simp only [State.shape, State.shape_eq state state']

theorem States.shapes_eq : {rs : List Regex} → (s t : States rs) → s.shapes = t.shapes
  | _, .nil, .nil => rfl
  | _, .cons first rest, .cons first' rest' => by
    simp only [States.shapes, State.shape_eq first first', States.shapes_eq rest rest']

end

/-- The laws of the steps, for every expression in which no sequence is without parts and every
state of its shape, whatever marks it has. A state that is matched is alive. Starting and crossing
only add marks, so that what is matched or alive stays so, and doing either twice is doing it
once; in particular the part of a repetition has nothing left to cross after a single pass. Moving
over a byte gives no life. No step changes the shape of a state, and none is a fault. -/
theorem State.step_laws {r : Regex} (hr : r.isProper = true) (s : State r) (c : UInt8)
    (e : Edges) :
    (s.matched = true → s.alive = true) ∧
      (s.Le s.start ∧ (s.matched = true → s.start.matched = true) ∧
        (s.alive = true → s.start.alive = true)) ∧
      (s.Le (s.cross e) ∧ (s.matched = true → (s.cross e).matched = true) ∧
        (s.alive = true → (s.cross e).alive = true)) ∧
      s.start.start = s.start ∧ (s.cross e).cross e = s.cross e ∧
      (∀ (part : Regex) (t : State part), ∃ u : State part,
        (State.repetition t).cross e = .repetition u ∧ u.cross e = u) ∧
      ((s.advance c).alive = true → s.alive = true) ∧
      (s.shape = (State.idle r).shape ∧ s.start.shape = s.shape ∧
        (s.advance c).shape = s.shape ∧ (s.cross e).shape = s.shape) ∧
      s.start.isStuck = s.isStuck ∧ (s.advance c).isStuck = s.isStuck ∧
      (s.cross e).isStuck = s.isStuck := by
  have hstart := s.le_start
  have hcross := s.le_cross e
  refine ⟨State.alive_of_matched, ⟨hstart, hstart.matched, hstart.alive⟩,
    ⟨hcross, hcross.matched, hcross.alive⟩, s.start_start, s.cross_cross e, fun part t => ?_,
    State.alive_of_advance, ⟨s.shape_eq _, s.start.shape_eq s, (s.advance c).shape_eq s,
      (s.cross e).shape_eq s⟩, s.isStuck_start hr, s.isStuck_advance c hr, s.isStuck_cross e hr⟩
  obtain ⟨u, hu⟩ := State.exists_cross_repetition e t
  exact ⟨u.cross e, hu, u.cross_cross e⟩

/-- At the start of a line the part of a repetition is newly matched, so that it is started again
and crossed once more. -/
theorem State.step_laws_repetition :
    let r := Regex.repetition (.concat [.anchor .lineStart, .optional (.literal (ascii "a"))])
    let e : Edges := ⟨false, true, false⟩
    let s : State r := .repetition (.concat false (.cons (.anchor true false)
      (.cons (.optional false (.literal (.more false (.last false)))) .nil)))
    r.isProper = true ∧ s.matched = false ∧ (s.cross e).matched = true ∧ s.Le (s.cross e) ∧
      (s.cross e).cross e = s.cross e := by
  intro r e s
  have hproper : r.isProper = true := rfl
  obtain ⟨-, -, ⟨hle, -⟩, -, htwice, -⟩ := State.step_laws hproper s Byte.newline e
  exact ⟨hproper, rfl, rfl, hle, htwice⟩

end PhraseGrammar
