import PhraseGrammar.Proofs.Regex.Matching
import PhraseGrammar.Regex.Simulation

/-!
# The states along a text

`Regex.marksBefore` and `Regex.marksAt` are the states of the simulation at each
position of a text, before and after the anchors there are crossed, whether or not
the run gets that far. A run stops early only in a state that can no longer be
matched, so that `Regex.consume` answers with the last position at which the state
is matched. This is `Regex.consume_eq`, for expressions in which every sequence
has parts; for these no run gets stuck.
-/

set_option autoImplicit false

namespace PhraseGrammar

/-- The edges at a position of a text, as seen by a match that was asked to start at `origin`. -/
def Edges.around (opts : RegexOptions) (text : Bytes) (origin i : Nat) : Edges :=
  .between opts (text.before origin i) (text.after i)

/-- The edges at a position satisfy the anchors that hold there. -/
theorem Edges.satisfy_around (opts : RegexOptions) (text : Bytes) (origin i : Nat)
    (anchor : Anchor) :
    (Edges.around opts text origin i).satisfy anchor = true ↔
      anchor.Holds opts (text.before origin i) (text.after i) := by
  cases anchor <;> simp [Edges.around, Edges.between, Edges.satisfy, Anchor.Holds]

/-! ## A state without marks stays without marks -/

namespace Marks

theorem alive_of_matched {bytes : Bytes} {m : Marks bytes} (h : m.matched = true) :
    m.alive = true := by
  induction m with
  | last here => exact h
  | more here rest ih => simp [alive, ih h]

/-- The marks that are left after a byte came in from the left or were there before. -/
theorem alive_of_shift {bytes : Bytes} {c : UInt8} {arriving : Bool} {m : Marks bytes}
    (h : (m.shift c arriving).alive = true) : arriving = true ∨ m.alive = true := by
  induction m generalizing arriving with
  | last here => exact .inl h
  | more here rest ih =>
    rcases Bool.or_eq_true_iff.1 h with h | h
    · exact .inl h
    · rcases ih h with h | h
      · simp only [Bool.and_eq_true] at h
        simp [alive, h.1]
      · simp [alive, h]

end Marks

mutual

/-- A state that is matched has a mark. -/
theorem State.alive_of_matched : {r : Regex} → {s : State r} → s.matched = true → s.alive = true
  | _, .set _ _, h => Bool.or_eq_true_iff.2 (.inr h)
  | _, .literal _, h => Marks.alive_of_matched h
  | _, .anchor _ _, h => Bool.or_eq_true_iff.2 (.inr h)
  | _, .concat _ states, h => States.anyAlive_of_lastMatched (s := states) h
  | _, .alternation states, h => States.anyAlive_of_anyMatched (s := states) h
  | _, .repetition state, h => State.alive_of_matched (s := state) h
  | _, .optional _ state, h => by
    rcases Bool.or_eq_true_iff.1 h with h | h
    · exact Bool.or_eq_true_iff.2 (.inl h)
    · exact Bool.or_eq_true_iff.2 (.inr (State.alive_of_matched h))

theorem States.anyAlive_of_lastMatched : {rs : List Regex} → {s : States rs} →
    s.lastMatched = true → s.anyAlive = true
  | _, .nil, h => h
  | [_], .cons _ .nil, h => Bool.or_eq_true_iff.2 (.inl (State.alive_of_matched h))
  | _ :: _ :: _, .cons _ _, h =>
    Bool.or_eq_true_iff.2 (.inr (States.anyAlive_of_lastMatched h))

theorem States.anyAlive_of_anyMatched : {rs : List Regex} → {s : States rs} →
    s.anyMatched = true → s.anyAlive = true
  | _, .nil, h => h
  | _, .cons _ _, h => by
    rcases Bool.or_eq_true_iff.1 h with h | h
    · exact Bool.or_eq_true_iff.2 (.inl (State.alive_of_matched h))
    · exact Bool.or_eq_true_iff.2 (.inr (States.anyAlive_of_anyMatched h))

end

/-- If nothing arrives, marks were there before. -/
theorem State.alive_of_startIf {r : Regex} {s : State r} {arriving : Bool}
    (h : (s.startIf arriving).alive = true) : arriving = true ∨ s.alive = true := by
  cases arriving with
  | true => exact .inl rfl
  | false => exact .inr h

mutual

/-- Moving over a byte marks nothing in a state without marks: it starts only what follows a part
that is matched, and such a part has a mark itself. -/
theorem State.alive_of_advance {c : UInt8} : {r : Regex} → {s : State r} →
    (s.advance c).alive = true → s.alive = true
  | _, .set before _, h => by
    simp only [State.advance, State.alive, Bool.false_or, Bool.and_eq_true] at h
    simp [State.alive, h.1]
  | _, .literal _, h => (Marks.alive_of_shift h).resolve_left Bool.noConfusion
  | _, .anchor _ _, h => Bool.noConfusion h
  | _, .concat _ states, h =>
    (States.anyAlive_of_advanceInRow (s := states) h).resolve_left Bool.noConfusion
  | _, .alternation states, h => States.anyAlive_of_advanceAll (s := states) h
  | _, .repetition state, h => by
    -- Where the part is started again it is matched, so that it is alive by itself.
    refine State.alive_of_advance (s := state) (c := c) ?_
    rcases State.alive_of_startIf h with hm | h
    · exact State.alive_of_matched hm
    · exact h
  | _, .optional _ state, h => by
    have h' : (state.advance c).alive = true := by simpa [State.advance, State.alive] using h
    exact Bool.or_eq_true_iff.2 (.inr (State.alive_of_advance h'))

/-- Marks in a row after a byte came in from the left or were there before. -/
theorem States.anyAlive_of_advanceInRow {c : UInt8} : {rs : List Regex} → {s : States rs} →
    {arriving : Bool} → (s.advanceInRow c arriving).anyAlive = true →
    arriving = true ∨ s.anyAlive = true
  | _, .nil, _, h => Bool.noConfusion h
  | _, .cons first rest, arriving, h => by
    have hfirst (hm : ((first.advance c).startIf arriving).alive = true) :
        arriving = true ∨ (States.cons first rest).anyAlive = true := by
      rcases State.alive_of_startIf hm with ha | ha
      · exact .inl ha
      · exact .inr (Bool.or_eq_true_iff.2 (.inl (State.alive_of_advance ha)))
    rcases Bool.or_eq_true_iff.1 h with h | h
    · exact hfirst h
    · rcases States.anyAlive_of_advanceInRow h with hm | h
      · exact hfirst (State.alive_of_matched hm)
      · exact .inr (Bool.or_eq_true_iff.2 (.inr h))

theorem States.anyAlive_of_advanceAll {c : UInt8} : {rs : List Regex} → {s : States rs} →
    (s.advanceAll c).anyAlive = true → s.anyAlive = true
  | _, .nil, h => h
  | _, .cons _ _, h => by
    rcases Bool.or_eq_true_iff.1 h with h | h
    · exact Bool.or_eq_true_iff.2 (.inl (State.alive_of_advance h))
    · exact Bool.or_eq_true_iff.2 (.inr (States.anyAlive_of_advanceAll h))

end

mutual

/-- Crossing anchors marks nothing in a state without marks. -/
theorem State.alive_of_cross {e : Edges} : {r : Regex} → {s : State r} →
    (s.cross e).alive = true → s.alive = true
  | .set _, _, h => h
  | .literal _, _, h => h
  | .anchor _, .anchor before after, h => by
    cases before <;> cases after <;> first | rfl | exact h
  | .concat _, .concat _ states, h =>
    (States.anyAlive_of_crossInRow (s := states) h).resolve_left Bool.noConfusion
  | .alternation _, .alternation states, h => States.anyAlive_of_crossAll (s := states) h
  | .repetition _, .repetition state, h => by
    refine State.alive_of_cross (s := state) (e := e) ?_
    simp only [State.cross, State.alive] at h
    split at h
    · next hm =>
      simp only [Bool.and_eq_true] at hm
      exact State.alive_of_matched hm.2
    · exact h
  | .optional _, .optional _ _, h => by
    rcases Bool.or_eq_true_iff.1 h with h | h
    · exact Bool.or_eq_true_iff.2 (.inl h)
    · exact Bool.or_eq_true_iff.2 (.inr (State.alive_of_cross h))

/-- Marks in a row after anchors are crossed came in from the left or were there before. -/
theorem States.anyAlive_of_crossInRow {e : Edges} : {rs : List Regex} → {s : States rs} →
    {arriving : Bool} → (s.crossInRow e arriving).anyAlive = true →
    arriving = true ∨ s.anyAlive = true
  | [], .nil, _, h => Bool.noConfusion h
  | _ :: _, .cons first rest, arriving, h => by
    have hfirst (hm : ((first.startIf arriving).cross e).alive = true) :
        arriving = true ∨ (States.cons first rest).anyAlive = true := by
      rcases State.alive_of_startIf (State.alive_of_cross hm) with ha | ha
      · exact .inl ha
      · exact .inr (Bool.or_eq_true_iff.2 (.inl ha))
    rcases Bool.or_eq_true_iff.1 h with h | h
    · exact hfirst h
    · rcases States.anyAlive_of_crossInRow h with hm | h
      · simp only [Bool.and_eq_true] at hm
        exact hfirst (State.alive_of_matched hm.2)
      · exact .inr (Bool.or_eq_true_iff.2 (.inr h))

theorem States.anyAlive_of_crossAll {e : Edges} : {rs : List Regex} → {s : States rs} →
    (s.crossAll e).anyAlive = true → s.anyAlive = true
  | [], .nil, h => h
  | _ :: _, .cons _ _, h => by
    rcases Bool.or_eq_true_iff.1 h with h | h
    · exact Bool.or_eq_true_iff.2 (.inl (State.alive_of_cross h))
    · exact Bool.or_eq_true_iff.2 (.inr (States.anyAlive_of_crossAll h))

end

/-! ## A proper expression never gets stuck -/

mutual

/-- A state without marks is not stuck. -/
theorem State.isStuck_idle : (r : Regex) → (State.idle r).isStuck = false
  | .set _ => rfl
  | .literal _ => rfl
  | .anchor _ => rfl
  | .concat parts => States.anyStuck_idle parts
  | .alternation parts => States.anyStuck_idle parts
  | .repetition part => State.isStuck_idle part
  | .optional part => State.isStuck_idle part

theorem States.anyStuck_idle : (rs : List Regex) → (States.idle rs).anyStuck = false
  | [] => rfl
  | r :: rs => Bool.or_eq_false_iff.2 ⟨State.isStuck_idle r, States.anyStuck_idle rs⟩

end

mutual

/-- Starting a proper expression does not get it stuck: there is no sequence without parts in it. -/
theorem State.isStuck_start : {r : Regex} → (s : State r) → r.isProper = true →
    s.start.isStuck = s.isStuck
  | _, .set _ _, _ => rfl
  | _, .literal _, _ => rfl
  | _, .anchor _ _, _ => rfl
  | .concat parts, .concat stuck states, h => by
    simp only [Regex.isProper, Bool.and_eq_true, Bool.not_eq_true'] at h
    simp only [State.start, State.isStuck, States.anyStuck_startFirst states h.2, h.1,
      Bool.or_false]
  | _, .alternation states, h => States.anyStuck_startAll states h
  | _, .repetition state, h => State.isStuck_start state h
  | _, .optional _ state, h => State.isStuck_start state h

theorem States.anyStuck_startFirst : {rs : List Regex} → (s : States rs) →
    Regex.allProper rs = true → s.startFirst.anyStuck = s.anyStuck
  | _, .nil, _ => rfl
  | _, .cons first rest, h => by
    simp only [Regex.allProper, Bool.and_eq_true] at h
    simp only [States.startFirst, States.anyStuck, State.isStuck_start first h.1]
    split
    · rw [States.anyStuck_startFirst rest h.2]
    · rfl

theorem States.anyStuck_startAll : {rs : List Regex} → (s : States rs) →
    Regex.allProper rs = true → s.startAll.anyStuck = s.anyStuck
  | _, .nil, _ => rfl
  | _, .cons first rest, h => by
    simp only [Regex.allProper, Bool.and_eq_true] at h
    simp only [States.startAll, States.anyStuck, State.isStuck_start first h.1,
      States.anyStuck_startAll rest h.2]

end

/-- A proper expression does not get stuck if it is started when a way arrives. -/
theorem State.isStuck_startIf {r : Regex} (arriving : Bool) (s : State r)
    (h : r.isProper = true) : (s.startIf arriving).isStuck = s.isStuck := by
  cases arriving with
  | true => exact State.isStuck_start s h
  | false => rfl

mutual

/-- Moving over a byte does not get a proper expression stuck. -/
theorem State.isStuck_advance (c : UInt8) : {r : Regex} → (s : State r) → r.isProper = true →
    (s.advance c).isStuck = s.isStuck
  | _, .set _ _, _ => rfl
  | _, .literal _, _ => rfl
  | _, .anchor _ _, _ => rfl
  | .concat _, .concat stuck states, h => by
    simp only [Regex.isProper, Bool.and_eq_true] at h
    simp only [State.advance, State.isStuck, States.anyStuck_advanceInRow c states false h.2]
  | _, .alternation states, h => States.anyStuck_advanceAll c states h
  | .repetition part, .repetition state, h => by
    have hpart : part.isProper = true := h
    simp only [State.advance, State.isStuck]
    rw [State.isStuck_startIf _ _ hpart, State.isStuck_advance c state hpart]
  | _, .optional _ state, h => State.isStuck_advance c state h

theorem States.anyStuck_advanceInRow (c : UInt8) : {rs : List Regex} → (s : States rs) →
    (arriving : Bool) → Regex.allProper rs = true →
    (s.advanceInRow c arriving).anyStuck = s.anyStuck
  | _, .nil, _, _ => rfl
  | _, .cons first rest, arriving, h => by
    simp only [Regex.allProper, Bool.and_eq_true] at h
    simp only [States.advanceInRow, States.anyStuck]
    rw [State.isStuck_startIf _ _ h.1, State.isStuck_advance c first h.1,
      States.anyStuck_advanceInRow c rest _ h.2]

theorem States.anyStuck_advanceAll (c : UInt8) : {rs : List Regex} → (s : States rs) →
    Regex.allProper rs = true → (s.advanceAll c).anyStuck = s.anyStuck
  | _, .nil, _ => rfl
  | _, .cons first rest, h => by
    simp only [Regex.allProper, Bool.and_eq_true] at h
    simp only [States.advanceAll, States.anyStuck, State.isStuck_advance c first h.1,
      States.anyStuck_advanceAll c rest h.2]

end

mutual

/-- Crossing anchors does not get a proper expression stuck. -/
theorem State.isStuck_cross (e : Edges) : {r : Regex} → (s : State r) → r.isProper = true →
    (s.cross e).isStuck = s.isStuck
  | .set _, _, _ => rfl
  | .literal _, _, _ => rfl
  | .anchor _, .anchor _ _, _ => rfl
  | .concat _, .concat stuck states, h => by
    simp only [Regex.isProper, Bool.and_eq_true] at h
    simp only [State.cross, State.isStuck, States.anyStuck_crossInRow e states false h.2]
  | .alternation _, .alternation states, h => States.anyStuck_crossAll e states h
  | .repetition part, .repetition state, h => by
    have hpart : part.isProper = true := h
    have hcrossed := State.isStuck_cross e state hpart
    simp only [State.cross, State.isStuck]
    split
    · rw [State.isStuck_cross e _ hpart, State.isStuck_start _ hpart, hcrossed]
    · exact hcrossed
  | .optional _, .optional _ state, h => State.isStuck_cross e state h

theorem States.anyStuck_crossInRow (e : Edges) : {rs : List Regex} → (s : States rs) →
    (arriving : Bool) → Regex.allProper rs = true →
    (s.crossInRow e arriving).anyStuck = s.anyStuck
  | [], .nil, _, _ => rfl
  | _ :: _, .cons first rest, arriving, h => by
    simp only [Regex.allProper, Bool.and_eq_true] at h
    simp only [States.crossInRow, States.anyStuck]
    rw [State.isStuck_cross e _ h.1, State.isStuck_startIf _ _ h.1,
      States.anyStuck_crossInRow e rest _ h.2]

theorem States.anyStuck_crossAll (e : Edges) : {rs : List Regex} → (s : States rs) →
    Regex.allProper rs = true → (s.crossAll e).anyStuck = s.anyStuck
  | [], .nil, _ => rfl
  | _ :: _, .cons first rest, h => by
    simp only [Regex.allProper, Bool.and_eq_true] at h
    simp only [States.crossAll, States.anyStuck, State.isStuck_cross e first h.1,
      States.anyStuck_crossAll e rest h.2]

end

/-! ## Runs -/

namespace Regex

section

variable (opts : RegexOptions) (text : Bytes) (origin : Nat) (r : Regex)

/-- The state `k` bytes after the position `origin`, before the anchors there are crossed. -/
def marksBefore : Nat → State r
  | 0 => (State.idle r).start
  | k + 1 =>
    ((marksBefore k).cross (.around opts text origin (origin + k))).advance (text.after (origin + k))

/-- The state `k` bytes after the position `origin`, after the anchors there are crossed. -/
def marksAt (k : Nat) : State r :=
  (marksBefore opts text origin r k).cross (.around opts text origin (origin + k))

/-- Whether the state is matched `k` bytes after the position `origin`, inside the text. -/
def MatchedAt (k : Nat) : Prop :=
  origin + k ≤ text.length ∧ (marksAt opts text origin r k).matched = true

end

variable {opts : RegexOptions} {text : Bytes} {origin : Nat} {r : Regex}

/-- The next state comes from this one by moving over a byte and crossing anchors. -/
theorem marksAt_succ (k : Nat) :
    marksAt opts text origin r (k + 1) =
      ((marksAt opts text origin r k).advance (text.after (origin + k))).cross
        (.around opts text origin (origin + (k + 1))) := rfl

/-- A state that has no mark is never matched later on. -/
theorem not_matchedAt_of_not_alive {k j : Nat}
    (h : (marksBefore opts text origin r k).alive = false) (hj : k ≤ j) :
    ¬ MatchedAt opts text origin r j := by
  have hdead : (marksBefore opts text origin r j).alive = false := by
    induction hj with
    | refl => exact h
    | step _ ih =>
      refine Bool.eq_false_iff.2 fun ha => ?_
      have := State.alive_of_cross (State.alive_of_advance ha)
      simp [ih] at this
  intro hm
  have := State.alive_of_cross (State.alive_of_matched hm.2)
  simp [hdead] at this

/-- The last match at or after an offset, or what was known before if there is none. -/
def IsLongest (opts : RegexOptions) (text : Bytes) (origin : Nat) (r : Regex) (k : Nat)
    (known result : Option Nat) : Prop :=
  (result = known ∧ ∀ j, k ≤ j → ¬ MatchedAt opts text origin r j) ∨
    ∃ j, k ≤ j ∧ result = some j ∧ MatchedAt opts text origin r j ∧
      ∀ i, MatchedAt opts text origin r i → i ≤ j

/-- A run that is `k` bytes into the text, with the longest match known so far. -/
def Run.upTo (opts : RegexOptions) (text : Bytes) (origin : Nat) (r : Regex) (k : Nat)
    (known : Option Nat) : Run r :=
  ⟨marksBefore opts text origin r k, text.before origin (origin + k), k, known⟩

/-- Looking at a position notes it if the state is matched there. -/
theorem Run.look_upTo (k : Nat) (known : Option Nat) :
    (Run.upTo opts text origin r k known).look opts (text.after (origin + k)) =
      ⟨marksAt opts text origin r k, text.before origin (origin + k), k,
        if (marksAt opts text origin r k).matched then some k else known⟩ := rfl

/-- Reading a byte of the text leads one byte on. -/
theorem Run.read_look_upTo {k : Nat} (known : Option Nat) {c : UInt8}
    (hc : text[origin + k]? = some c) :
    ((Run.upTo opts text origin r k known).look opts c).read c =
      Run.upTo opts text origin r (k + 1)
        (if (marksAt opts text origin r k).matched then some k else known) := by
  have hafter : text.after (origin + k) = c := by simp [Bytes.after, hc]
  have hbefore : text.before origin (origin + (k + 1)) = c := by
    have hne : origin + (k + 1) ≠ origin := by omega
    have hprev : origin + (k + 1) - 1 = origin + k := by omega
    simp only [Bytes.before, hne, if_false, hprev, hc, Option.getD_some]
  subst hafter
  rw [Run.look_upTo, Run.upTo, hbefore]
  rfl

/-- A run over the rest of a text finds the last match in it and does not get stuck. -/
theorem Run.readAll_upTo (hr : r.isProper = true) (rest : Bytes) (k : Nat) (known : Option Nat)
    (hrest : text.drop (origin + k) = rest) (hk : origin + k ≤ text.length)
    (hstuck : (marksBefore opts text origin r k).isStuck = false) :
    let final := (Run.upTo opts text origin r k known).readAll opts rest
    final.state.isStuck = false ∧ IsLongest opts text origin r k known final.longest := by
  induction rest generalizing k known with
  | nil =>
    have hend : text.length ≤ origin + k := List.drop_eq_nil_iff.1 hrest
    have hafter : Byte.newline = text.after (origin + k) := by
      simp [Bytes.after, List.getElem?_eq_none hend]
    simp only [Run.readAll]
    rw [hafter, Run.look_upTo]
    refine ⟨(State.isStuck_cross _ _ hr).trans hstuck, ?_⟩
    by_cases hm : (marksAt opts text origin r k).matched = true
    · simp only [hm, if_true]
      refine .inr ⟨k, Nat.le_refl k, rfl, ⟨hk, hm⟩, fun i hi => ?_⟩
      have := hi.1
      omega
    · simp only [hm]
      refine .inl ⟨rfl, fun j hj hmj => ?_⟩
      have : j = k := by have := hmj.1; omega
      exact hm (this ▸ hmj.2)
  | cons c rest ih =>
    have hlt : origin + k < text.length := by
      have := congrArg List.length hrest
      simp only [List.length_drop, List.length_cons] at this
      omega
    have hc : text[origin + k]? = some c := by
      rw [← Nat.add_zero (origin + k), ← List.getElem?_drop, hrest]
      rfl
    have hnext : text.drop (origin + (k + 1)) = rest := by
      rw [← Nat.add_assoc, ← List.drop_drop, hrest]
      rfl
    rw [Run.readAll]
    split
    · rw [Run.read_look_upTo known hc]
      obtain ⟨hfree, hlongest⟩ := ih (k + 1) _ hnext (by omega)
        ((State.isStuck_advance _ _ hr).trans ((State.isStuck_cross _ _ hr).trans hstuck))
      refine ⟨hfree, ?_⟩
      rcases hlongest with ⟨hres, hnone⟩ | ⟨j, hj, hres, hm, hmax⟩
      · -- Nothing is matched later, so that this position counts if it is matched.
        rw [hres]
        by_cases hm : (marksAt opts text origin r k).matched = true
        · exact .inr ⟨k, Nat.le_refl k, by simp [hm], ⟨hk, hm⟩, fun i hi =>
            Nat.le_of_not_lt fun hik => hnone i hik hi⟩
        · refine .inl ⟨by simp [hm], fun j hj hmj => ?_⟩
          rcases Nat.eq_or_lt_of_le hj with rfl | hj
          · exact hm hmj.2
          · exact hnone j hj hmj
      · exact .inr ⟨j, by omega, hres, hm, hmax⟩
    · next hdead =>
      -- The run stops here, and nothing can be matched any more.
      exact ⟨hstuck, .inl ⟨rfl, fun j hj =>
        not_matchedAt_of_not_alive (Bool.eq_false_iff.2 hdead) hj⟩⟩

/-- A proper expression that is matched from a position inside a text gives the
last position at which its state is matched, and nothing if there is none. -/
theorem consume_eq (opts : RegexOptions) (hr : r.isProper = true)
    (ho : origin ≤ text.length) :
    ∃ result, r.consume opts text origin = .ok (result.map (origin + ·)) ∧
      IsLongest opts text origin r 0 none result := by
  have hinitial : Run.initial r = Run.upTo opts text origin r 0 none := by
    simp [Run.initial, Run.upTo, marksBefore, Bytes.before]
  have hfree : (marksBefore opts text origin r 0).isStuck = false :=
    (State.isStuck_start _ hr).trans (State.isStuck_idle r)
  obtain ⟨hstuck, hlongest⟩ := Run.readAll_upTo hr (text.drop origin) 0 none rfl ho hfree
  have hmatch : longestMatch opts r (text.drop origin) =
      .ok ((Run.upTo opts text origin r 0 none).readAll opts (text.drop origin)).longest := by
    simp only [longestMatch, hinitial, hstuck]
    rfl
  refine ⟨_, ?_, hlongest⟩
  have hinside : ¬ (origin = lastPosition ∧ text.length < origin) := by omega
  simp only [consume, hmatch, hinside, if_false]
  split <;> simp_all

end Regex

end PhraseGrammar
