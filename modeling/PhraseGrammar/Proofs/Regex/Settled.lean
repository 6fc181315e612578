import PhraseGrammar.Proofs.Regex.Matching
import PhraseGrammar.Regex.Simulation

/-!
# Settled states

A state is settled if no step without a byte is left to be made in it: where a
part of a sequence is matched the next one is started, where a repetition is
matched it is started again, and every anchor that holds is crossed. Starting
keeps a state settled as far as no anchor holds, and moving over a byte always
leads to such a state (`State.settled_advance`).
-/

set_option autoImplicit false

namespace PhraseGrammar

/-- No anchor holds. -/
def Edges.none : Edges :=
  ⟨false, false, false⟩

/-- Where no anchor holds, each of them fails. -/
theorem Edges.satisfy_none (anchor : Anchor) : Edges.none.satisfy anchor = false := by
  cases anchor <;> rfl

/-! ## Starting twice -/

/-- Starting a literal twice is starting it once. -/
theorem Marks.start_start {bytes : Bytes} (m : Marks bytes) : m.start.start = m.start := by
  cases m <;> rfl

mutual

/-- Starting an expression twice is starting it once: its parts are the same after the first time,
and so are the conditions under which the next ones are started. -/
theorem State.start_start : {r : Regex} → (s : State r) → s.start.start = s.start
  | _, .set _ _ => rfl
  | _, .literal marks => by simp only [State.start, Marks.start_start]
  | _, .anchor _ _ => rfl
  | .concat parts, .concat stuck states => by
    simp only [State.start, States.startFirst_startFirst states, Bool.or_assoc, Bool.or_self]
  | _, .alternation states => by simp only [State.start, States.startAll_startAll states]
  | _, .repetition state => by simp only [State.start, State.start_start state]
  | _, .optional _ state => by simp only [State.start, State.start_start state]

theorem States.startFirst_startFirst : {rs : List Regex} → (s : States rs) →
    s.startFirst.startFirst = s.startFirst
  | _, .nil => rfl
  | _, .cons first rest => by
    simp only [States.startFirst, State.start_start first]
    split
    · rw [States.startFirst_startFirst rest]
    · rfl

theorem States.startAll_startAll : {rs : List Regex} → (s : States rs) →
    s.startAll.startAll = s.startAll
  | _, .nil => rfl
  | _, .cons first rest => by
    simp only [States.startAll, State.start_start first, States.startAll_startAll rest]

end

/-- A row is started already if its first expression is and, where that is matched, the rest is
too. -/
theorem States.startFirst_cons {r : Regex} {rs : List Regex} {first : State r} {rest : States rs}
    (hfirst : first.start = first) (hrest : first.matched = true → rest.startFirst = rest) :
    (States.cons first rest).startFirst = .cons first rest := by
  simp only [States.startFirst, hfirst]
  split
  · next hm => rw [hrest hm]
  · rfl

/-! ## Settled states -/

mutual

/-- No step without a byte is left to be made in a state where the given edges hold. -/
def State.Settled (e : Edges) : {r : Regex} → State r → Prop
  | _, .set _ _ => True
  | _, .literal _ => True
  | .anchor anchor, .anchor before after =>
    before = true → e.satisfy anchor = true → after = true
  | _, .concat _ states => states.RowSettled e
  | _, .alternation states => states.AllSettled e
  | _, .repetition state => state.Settled e ∧ (state.matched = true → state.start = state)
  | _, .optional _ state => state.Settled e

/-- Several states in a row are settled: so is each of them, and where one is
matched the next one is started. -/
def States.RowSettled (e : Edges) : {rs : List Regex} → States rs → Prop
  | _, .nil => True
  | _, .cons first rest =>
    first.Settled e ∧ (first.matched = true → rest.startFirst = rest) ∧ rest.RowSettled e

/-- Each of several states is settled. -/
def States.AllSettled (e : Edges) : {rs : List Regex} → States rs → Prop
  | _, .nil => True
  | _, .cons first rest => first.Settled e ∧ rest.AllSettled e

end

mutual

/-- A state that is settled where anchors hold is settled where none does. -/
theorem State.Settled.weaken {e : Edges} : {r : Regex} → {s : State r} → s.Settled e →
    s.Settled .none
  | _, .set _ _, _ => trivial
  | _, .literal _, _ => trivial
  | _, .anchor _ _, _ => fun _ hsat => by simp [Edges.satisfy_none] at hsat
  | _, .concat _ states, h => States.RowSettled.weaken (s := states) h
  | _, .alternation states, h => States.AllSettled.weaken (s := states) h
  | _, .repetition _, h => ⟨State.Settled.weaken h.1, h.2⟩
  | _, .optional _ state, h => State.Settled.weaken (s := state) h

/-- A row that is settled where anchors hold is settled where none does. -/
theorem States.RowSettled.weaken {e : Edges} : {rs : List Regex} → {s : States rs} →
    s.RowSettled e → s.RowSettled .none
  | _, .nil, _ => trivial
  | _, .cons _ _, h => ⟨State.Settled.weaken h.1, h.2.1, States.RowSettled.weaken h.2.2⟩

theorem States.AllSettled.weaken {e : Edges} : {rs : List Regex} → {s : States rs} →
    s.AllSettled e → s.AllSettled .none
  | _, .nil, _ => trivial
  | _, .cons _ _, h => ⟨State.Settled.weaken h.1, States.AllSettled.weaken h.2⟩

end

/-- A literal without marks is not matched. -/
theorem Marks.matched_idle (bytes : Bytes) : (Marks.idle bytes).matched = false := by
  induction bytes with
  | nil => rfl
  | cons b bs ih => exact ih

mutual

/-- An expression without marks is not matched. -/
theorem State.matched_idle : (r : Regex) → (State.idle r).matched = false
  | .set _ => rfl
  | .literal bytes => Marks.matched_idle bytes
  | .anchor _ => rfl
  | .concat parts => States.lastMatched_idle parts
  | .alternation parts => States.anyMatched_idle parts
  | .repetition part => State.matched_idle part
  | .optional part => State.matched_idle part

theorem States.lastMatched_idle : (rs : List Regex) → (States.idle rs).lastMatched = false
  | [] => rfl
  | [r] => State.matched_idle r
  | _ :: r :: rs => States.lastMatched_idle (r :: rs)

theorem States.anyMatched_idle : (rs : List Regex) → (States.idle rs).anyMatched = false
  | [] => rfl
  | r :: rs => Bool.or_eq_false_iff.2 ⟨State.matched_idle r, States.anyMatched_idle rs⟩

end

mutual

/-- A state without marks is settled where no anchor holds: nothing in it is matched, so that
nothing has to be started. -/
theorem State.settled_idle : (r : Regex) → (State.idle r).Settled .none
  | .set _ => trivial
  | .literal _ => trivial
  | .anchor _ => Bool.noConfusion
  | .concat parts => States.rowSettled_idle parts
  | .alternation parts => States.allSettled_idle parts
  | .repetition part => ⟨State.settled_idle part, by simp [State.matched_idle]⟩
  | .optional part => State.settled_idle part

theorem States.rowSettled_idle : (rs : List Regex) → (States.idle rs).RowSettled .none
  | [] => trivial
  | r :: rs => ⟨State.settled_idle r, by simp [State.matched_idle], States.rowSettled_idle rs⟩

theorem States.allSettled_idle : (rs : List Regex) → (States.idle rs).AllSettled .none
  | [] => trivial
  | r :: rs => ⟨State.settled_idle r, States.allSettled_idle rs⟩

end

mutual

/-- Starting an expression keeps its state settled. -/
theorem State.Settled.start : {r : Regex} → {s : State r} → s.Settled .none →
    s.start.Settled .none
  | _, .set _ _, _ => trivial
  | _, .literal _, _ => trivial
  | _, .anchor _ _, _ => fun _ hsat => by simp [Edges.satisfy_none] at hsat
  | _, .concat _ states, h => States.RowSettled.startFirst (s := states) h
  | _, .alternation states, h => States.AllSettled.startAll (s := states) h
  | _, .repetition state, h => ⟨State.Settled.start h.1, fun _ => State.start_start state⟩
  | _, .optional _ state, h => State.Settled.start (s := state) h

/-- Starting a row keeps it settled: where its first expression is matched, the rest has been
started. -/
theorem States.RowSettled.startFirst : {rs : List Regex} → {s : States rs} →
    s.RowSettled .none → s.startFirst.RowSettled .none
  | _, .nil, _ => trivial
  | _, .cons first rest, h => by
    -- The rest has been started exactly where the first expression is matched now.
    refine ⟨State.Settled.start h.1, fun hm => ?_, ?_⟩
    · rw [if_pos hm, States.startFirst_startFirst rest]
    · split
      · exact States.RowSettled.startFirst h.2.2
      · exact h.2.2

theorem States.AllSettled.startAll : {rs : List Regex} → {s : States rs} →
    s.AllSettled .none → s.startAll.AllSettled .none
  | _, .nil, _ => trivial
  | _, .cons _ _, h => ⟨State.Settled.start h.1, States.AllSettled.startAll h.2⟩

end

/-- Starting an expression if a way arrives keeps its state settled. -/
theorem State.Settled.startIf {r : Regex} {s : State r} (h : s.Settled .none) (arriving : Bool) :
    (s.startIf arriving).Settled .none := by
  cases arriving with
  | true => exact h.start
  | false => exact h

/-! ## Moving over a byte -/

/-- After a byte at whose place a way arrives, starting the row again changes nothing. -/
theorem States.startFirst_advanceInRow (c : UInt8) : {rs : List Regex} → (s : States rs) →
    (s.advanceInRow c true).startFirst = s.advanceInRow c true
  | _, .nil => rfl
  | _, .cons first rest => by
    refine States.startFirst_cons (State.start_start _) fun hm => ?_
    rw [hm]
    exact States.startFirst_advanceInRow c rest

mutual

/-- Moving over a byte settles a state. -/
theorem State.settled_advance (c : UInt8) : {r : Regex} → (s : State r) →
    (s.advance c).Settled .none
  | .set _, .set _ _ => trivial
  | _, .literal _ => trivial
  | _, .anchor _ _ => Bool.noConfusion
  | _, .concat _ states => States.rowSettled_advanceInRow c states false
  | _, .alternation states => States.allSettled_advanceAll c states
  | _, .repetition state => by
    -- If the part is matched, it has just been started, and starting it again changes nothing.
    refine ⟨(State.settled_advance c state).startIf _, ?_⟩
    cases hm : (state.advance c).matched with
    | true => exact fun _ => State.start_start _
    | false => exact fun hm' => absurd (hm.symm.trans hm') Bool.noConfusion
  | _, .optional _ state => State.settled_advance c state

/-- Moving over a byte settles a row, whether a way arrives at it or not. -/
theorem States.rowSettled_advanceInRow (c : UInt8) : {rs : List Regex} → (s : States rs) →
    (arriving : Bool) → (s.advanceInRow c arriving).RowSettled .none
  | _, .nil, _ => trivial
  | _, .cons first rest, arriving => by
    refine ⟨(State.settled_advance c first).startIf arriving, fun hm => ?_,
      States.rowSettled_advanceInRow c rest _⟩
    rw [hm]
    exact States.startFirst_advanceInRow c rest

theorem States.allSettled_advanceAll (c : UInt8) : {rs : List Regex} → (s : States rs) →
    (s.advanceAll c).AllSettled .none
  | _, .nil => trivial
  | _, .cons first rest => ⟨State.settled_advance c first, States.allSettled_advanceAll c rest⟩

end

end PhraseGrammar
