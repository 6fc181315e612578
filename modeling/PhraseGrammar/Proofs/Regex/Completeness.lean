import PhraseGrammar.Proofs.Regex.Arrivals
import PhraseGrammar.Proofs.Regex.Trail

/-!
# The simulation follows every way

A family of states, one for each position of a text, is followed if each state is
settled at its position and carries its marks over the next byte to the next
state. A match of an expression then leads from a position at which the state is
started to one at which it is matched, by induction on the match
(`Regex.Matches.followed`). The states along a text are followed if the expression
keeps arrivals, so that `Regex.consume` gets at least as far as every match.
-/

set_option autoImplicit false

namespace PhraseGrammar

open Regex (Matches MatchesRow)

/-! ## Carrying marks over a byte -/

namespace Marks

/-- The mark before the first byte. -/
def first : {bytes : Bytes} → Marks bytes → Bool
  | _, .last here => here
  | _, .more here _ => here

/-- The marks after the first byte. -/
def later {b : UInt8} {bs : Bytes} : Marks (b :: bs) → Marks bs
  | .more _ rest => rest

/-- The second state has every mark of the first one, moved over the byte `c`. -/
def Carries (c : UInt8) : {bytes : Bytes} → Marks bytes → Marks bytes → Prop
  | _, .last _, .last _ => True
  | _, @Marks.more b _ here rest, .more _ rest' =>
    (here = true → b = c → rest'.first = true) ∧ rest.Carries c rest'

theorem Carries.start {c : UInt8} {bytes : Bytes} {m m' : Marks bytes} (h : m.Carries c m') :
    m.Carries c m'.start := by
  cases m with
  | last here => cases m'; trivial
  | more here rest => cases m'; exact h

/-- After a byte the place before the first byte of a literal is marked if a way arrives there. -/
theorem first_shift {c : UInt8} {arriving : Bool} {bytes : Bytes} (m : Marks bytes) :
    (m.shift c arriving).first = arriving := by
  cases m <;> rfl

/-- Moving over a byte carries the marks of a literal over it, whether a way arrives or not. -/
theorem carries_shift {c : UInt8} {arriving : Bool} {bytes : Bytes} (m : Marks bytes) :
    m.Carries c (m.shift c arriving) := by
  induction m generalizing arriving with
  | last here => trivial
  | more here rest ih =>
    refine ⟨fun hhere hb => ?_, ih⟩
    rw [first_shift, hhere, hb, beq_self_eq_true, Bool.and_self]

end Marks

mutual

/-- The second state has every mark of the first one, moved over the byte `c`. -/
def State.Carries (c : UInt8) : {r : Regex} → State r → State r → Prop
  | .set bytes, .set before _, .set _ after =>
    before = true → bytes.contains c = true → after = true
  | _, .literal marks, .literal marks' => marks.Carries c marks'
  | _, .anchor _ _, .anchor _ _ => True
  | _, .concat _ states, .concat _ states' => states.Carries c states'
  | _, .alternation states, .alternation states' => states.Carries c states'
  | _, .repetition state, .repetition state' => state.Carries c state'
  | _, .optional _ state, .optional _ state' => state.Carries c state'

/-- Each of the second states has every mark of the first one, moved over the byte `c`. -/
def States.Carries (c : UInt8) : {rs : List Regex} → States rs → States rs → Prop
  | _, .nil, .nil => True
  | _, .cons first rest, .cons first' rest' => first.Carries c first' ∧ rest.Carries c rest'

end

mutual

/-- Starting loses no mark. -/
theorem State.Carries.start {c : UInt8} : {r : Regex} → {s s' : State r} → s.Carries c s' →
    s.Carries c s'.start
  | _, .set _ _, .set _ _, h => h
  | _, .literal _, .literal _, h => Marks.Carries.start h
  | _, .anchor _ _, .anchor _ _, _ => trivial
  | _, .concat _ states, .concat _ _, h => States.Carries.startFirst (s := states) h
  | _, .alternation states, .alternation _, h => States.Carries.startAll (s := states) h
  | _, .repetition state, .repetition _, h => State.Carries.start (s := state) h
  | _, .optional _ state, .optional _ _, h => State.Carries.start (s := state) h

theorem States.Carries.startFirst {c : UInt8} : {rs : List Regex} → {s s' : States rs} →
    s.Carries c s' → s.Carries c s'.startFirst
  | _, .nil, .nil, _ => trivial
  | _, .cons _ _, .cons _ _, h => by
    refine ⟨State.Carries.start h.1, ?_⟩
    split
    · exact States.Carries.startFirst h.2
    · exact h.2

theorem States.Carries.startAll {c : UInt8} : {rs : List Regex} → {s s' : States rs} →
    s.Carries c s' → s.Carries c s'.startAll
  | _, .nil, .nil, _ => trivial
  | _, .cons _ _, .cons _ _, h => ⟨State.Carries.start h.1, States.Carries.startAll h.2⟩

end

/-- Starting an expression if a way arrives loses no mark. -/
theorem State.Carries.startIf {c : UInt8} {r : Regex} {s s' : State r} (h : s.Carries c s')
    (arriving : Bool) : s.Carries c (s'.startIf arriving) := by
  cases arriving with
  | true => exact h.start
  | false => exact h

mutual

/-- Moving over a byte carries the marks over it. -/
theorem State.carries_advance (c : UInt8) : {r : Regex} → (s : State r) →
    s.Carries c (s.advance c)
  | _, .set _ _ => fun hb hc => Bool.and_eq_true_iff.2 ⟨hb, hc⟩
  | _, .literal marks => marks.carries_shift
  | _, .anchor _ _ => trivial
  | _, .concat _ states => States.carries_advanceInRow c states false
  | _, .alternation states => States.carries_advanceAll c states
  | _, .repetition state => (State.carries_advance c state).startIf _
  | _, .optional _ state => State.carries_advance c state

/-- Moving over a byte carries the marks in a row over it. -/
theorem States.carries_advanceInRow (c : UInt8) : {rs : List Regex} → (s : States rs) →
    (arriving : Bool) → s.Carries c (s.advanceInRow c arriving)
  | _, .nil, _ => trivial
  | _, .cons first rest, arriving =>
    ⟨(State.carries_advance c first).startIf arriving, States.carries_advanceInRow c rest _⟩

theorem States.carries_advanceAll (c : UInt8) : {rs : List Regex} → (s : States rs) →
    s.Carries c (s.advanceAll c)
  | _, .nil => trivial
  | _, .cons first rest => ⟨State.carries_advance c first, States.carries_advanceAll c rest⟩

end

mutual

/-- Crossing anchors loses no mark. -/
theorem State.Carries.crossBy {c : UInt8} {e : Edges} (keeping : Bool) : {r : Regex} → {s s' : State r} →
    s.Carries c s' → s.Carries c (s'.crossBy keeping e)
  | .set _, _, _, h => h
  | .literal _, _, _, h => h
  | .anchor _, .anchor _ _, .anchor _ _, _ => trivial
  | .concat _, .concat _ states, .concat _ _, h =>
    States.Carries.crossInRowBy keeping (s := states) h
  | .alternation _, .alternation states, .alternation _, h =>
    States.Carries.crossAllBy keeping (s := states) h
  | .repetition part, .repetition state, .repetition state', h => by
    have hcrossed : state.Carries c (state'.crossBy keeping e) :=
      State.Carries.crossBy keeping h
    show State.Carries c (.repetition state) (.repetition _)
    simp only [State.Carries]
    split
    · exact State.Carries.crossBy keeping hcrossed.start
    · exact hcrossed
  | .optional _, .optional _ state, .optional _ _, h => State.Carries.crossBy keeping (s := state) h

/-- Crossing anchors loses no mark in a row. -/
theorem States.Carries.crossInRowBy {c : UInt8} {e : Edges} (keeping : Bool) : {rs : List Regex} →
    {s s' : States rs} → {arriving : Bool} → s.Carries c s' →
    s.Carries c (s'.crossInRowBy keeping e arriving)
  | [], .nil, .nil, _, _ => trivial
  | _ :: _, .cons _ _, .cons _ _, arriving, h =>
    ⟨State.Carries.crossBy keeping (h.1.startIf arriving),
      States.Carries.crossInRowBy keeping h.2⟩

theorem States.Carries.crossAllBy {c : UInt8} {e : Edges} (keeping : Bool) : {rs : List Regex} →
    {s s' : States rs} → s.Carries c s' → s.Carries c (s'.crossAllBy keeping e)
  | [], .nil, .nil, _ => trivial
  | _ :: _, .cons _ _, .cons _ _, h => ⟨State.Carries.crossBy keeping h.1,
    States.Carries.crossAllBy keeping h.2⟩

end

/-! ## Following a match -/

/-- The states of the parts of a sequence. -/
def State.row {parts : List Regex} : State (.concat parts) → States parts
  | .concat _ states => states

/-- The states of the alternatives. -/
def State.alternatives {parts : List Regex} : State (.alternation parts) → States parts
  | .alternation states => states

/-- The state of the part of a repetition. -/
def State.repeated {part : Regex} : State (.repetition part) → State part
  | .repetition state => state

/-- The state of the part of an optional. -/
def State.inner {part : Regex} : State (.optional part) → State part
  | .optional _ state => state

/-- The state of the first of several expressions. -/
def States.head {r : Regex} {rs : List Regex} : States (r :: rs) → State r
  | .cons first _ => first

/-- The states of the others. -/
def States.tail {r : Regex} {rs : List Regex} : States (r :: rs) → States rs
  | .cons _ rest => rest

section

variable {r part : Regex} {rs parts : List Regex}

/-- Starting a sequence starts the row of its parts. -/
theorem State.row_start (s : State (.concat parts)) : s.start.row = s.row.startFirst := by
  cases s; rfl

theorem State.alternatives_start (s : State (.alternation parts)) :
    s.start.alternatives = s.alternatives.startAll := by
  cases s; rfl

theorem State.repeated_start (s : State (.repetition part)) :
    s.start.repeated = s.repeated.start := by
  cases s; rfl

theorem State.inner_start (s : State (.optional part)) : s.start.inner = s.inner.start := by
  cases s; rfl

/-- The first expression of a row is always started. -/
theorem States.head_startFirst (s : States (r :: rs)) : s.startFirst.head = s.head.start := by
  cases s; rfl

theorem States.head_startAll (s : States (r :: rs)) : s.startAll.head = s.head.start := by
  cases s; rfl

theorem States.tail_startAll (s : States (r :: rs)) : s.startAll.tail = s.tail.startAll := by
  cases s; rfl

/-- A sequence is matched if the last of its parts is. -/
theorem State.matched_eq_row (s : State (.concat parts)) : s.matched = s.row.lastMatched := by
  cases s; rfl

theorem State.matched_eq_alternatives (s : State (.alternation parts)) :
    s.matched = s.alternatives.anyMatched := by
  cases s; rfl

theorem State.matched_eq_repeated (s : State (.repetition part)) :
    s.matched = s.repeated.matched := by
  cases s; rfl

/-- An optional is matched at least where its part is. -/
theorem State.matched_of_inner {s : State (.optional part)} (h : s.inner.matched = true) :
    s.matched = true := by
  cases s
  exact Bool.or_eq_true_iff.2 (.inr h)

end

/-- States of some kind at each position from `origin` on, each settled at its
position and carried over the byte there to the next one. -/
structure Tracked {σ : Type} (text : Bytes) (origin : Nat) (settled : Nat → σ → Prop)
    (carries : UInt8 → σ → σ → Prop) (states : Nat → σ) : Prop where
  settled : ∀ i, origin ≤ i → settled i (states i)
  carries : ∀ i c, origin ≤ i → text[i]? = some c → carries c (states i) (states (i + 1))

/-- Parts of tracked states are tracked. -/
theorem Tracked.map {σ τ : Type} {text : Bytes} {origin : Nat} {settled : Nat → σ → Prop}
    {settled' : Nat → τ → Prop} {carries : UInt8 → σ → σ → Prop} {carries' : UInt8 → τ → τ → Prop}
    {states : Nat → σ} (h : Tracked text origin settled carries states) (f : σ → τ)
    (hsettled : ∀ i s, settled i s → settled' i (f s))
    (hcarries : ∀ c s s', carries c s s' → carries' c (f s) (f s')) :
    Tracked text origin settled' carries' fun i => f (states i) where
  settled i hi := hsettled i _ (h.settled i hi)
  carries i c hi hc := hcarries c _ _ (h.carries i c hi hc)

section

variable (opts : RegexOptions) (text : Bytes) (origin : Nat)

/-- Marks of a literal at each position are followed. -/
def Marks.Followed {bytes : Bytes} : (Nat → Marks bytes) → Prop :=
  Tracked text origin (fun _ _ => True) fun c => Marks.Carries c

/-- States of an expression at each position are followed. -/
def State.Followed {r : Regex} : (Nat → State r) → Prop :=
  Tracked text origin (fun i s => s.Settled (.around opts text origin i)) fun c => State.Carries c

/-- States of several expressions in a row at each position are followed. -/
def States.RowFollowed {rs : List Regex} : (Nat → States rs) → Prop :=
  Tracked text origin (fun i s => s.RowSettled (.around opts text origin i))
    fun c => States.Carries c

/-- States of several expressions at each position are followed. -/
def States.AllFollowed {rs : List Regex} : (Nat → States rs) → Prop :=
  Tracked text origin (fun i s => s.AllSettled (.around opts text origin i))
    fun c => States.Carries c

end

variable {opts : RegexOptions} {text : Bytes} {origin : Nat}

namespace State.Followed

/-- The rows of the states of a sequence are followed. -/
theorem row {parts : List Regex} {states : Nat → State (.concat parts)}
    (h : State.Followed opts text origin states) :
    States.RowFollowed opts text origin fun i => (states i).row :=
  h.map State.row (fun _ s hs => by cases s; exact hs)
    fun _ s s' hs => by cases s; cases s'; exact hs

theorem alternatives {parts : List Regex} {states : Nat → State (.alternation parts)}
    (h : State.Followed opts text origin states) :
    States.AllFollowed opts text origin fun i => (states i).alternatives :=
  h.map State.alternatives (fun _ s hs => by cases s; exact hs)
    fun _ s s' hs => by cases s; cases s'; exact hs

theorem repeated {part : Regex} {states : Nat → State (.repetition part)}
    (h : State.Followed opts text origin states) :
    State.Followed opts text origin fun i => (states i).repeated :=
  h.map State.repeated (fun _ s hs => by cases s; exact hs.1)
    fun _ s s' hs => by cases s; cases s'; exact hs

theorem inner {part : Regex} {states : Nat → State (.optional part)}
    (h : State.Followed opts text origin states) :
    State.Followed opts text origin fun i => (states i).inner :=
  h.map State.inner (fun _ s hs => by cases s; exact hs)
    fun _ s s' hs => by cases s; cases s'; exact hs

end State.Followed

namespace States

variable {r : Regex} {rs : List Regex} {states : Nat → States (r :: rs)}

/-- The first expression of a row is followed. -/
theorem RowFollowed.head (h : RowFollowed opts text origin states) :
    State.Followed opts text origin fun i => (states i).head :=
  h.map States.head (fun _ s hs => by cases s; exact hs.1)
    fun _ s s' hs => by cases s; cases s'; exact hs.1

/-- What comes after the first expression of a row is followed. -/
theorem RowFollowed.tail (h : RowFollowed opts text origin states) :
    RowFollowed opts text origin fun i => (states i).tail :=
  h.map States.tail (fun _ s hs => by cases s; exact hs.2.2)
    fun _ s s' hs => by cases s; cases s'; exact hs.2

theorem AllFollowed.head (h : AllFollowed opts text origin states) :
    State.Followed opts text origin fun i => (states i).head :=
  h.map States.head (fun _ s hs => by cases s; exact hs.1)
    fun _ s s' hs => by cases s; cases s'; exact hs.1

theorem AllFollowed.tail (h : AllFollowed opts text origin states) :
    AllFollowed opts text origin fun i => (states i).tail :=
  h.map States.tail (fun _ s hs => by cases s; exact hs.2)
    fun _ s s' hs => by cases s; cases s'; exact hs.2

end States

/-- Marks are followed over the bytes of a literal: from a position at which its beginning is marked
they lead to one at which its end is. -/
theorem Marks.Followed.matched {bytes : Bytes} {marks : Nat → Marks bytes} {a : Nat}
    (h : Marks.Followed text origin marks) (ha : origin ≤ a) (hp : bytes <+: text.drop a)
    (hstart : (marks a).first = true) : (marks (a + bytes.length)).matched = true := by
  induction bytes generalizing a with
  | nil =>
    cases hm : marks a
    rw [hm] at hstart
    simpa [hm, Marks.matched, Marks.first] using hstart
  | cons b bs ih =>
    obtain ⟨rest, hrest⟩ := hp
    have hb : text[a]? = some b := by
      rw [← Nat.add_zero a, ← List.getElem?_drop, ← hrest]
      rfl
    have hlater : bs <+: text.drop (a + 1) := ⟨rest, by rw [← List.drop_drop, ← hrest]; rfl⟩
    have hmoved : ((marks (a + 1)).later).first = true := by
      have hcarried := h.carries a b ha hb
      cases hm : marks a
      cases hm' : marks (a + 1)
      rw [hm, hm'] at hcarried
      rw [hm] at hstart
      exact hcarried.1 hstart rfl
    have hfollowed : Marks.Followed text origin fun i => (marks i).later :=
      h.map Marks.later (fun _ _ _ => trivial) fun _ m m' hm => by cases m; cases m'; exact hm.2
    have hmatched := ih hfollowed (by omega) hlater hmoved
    rw [List.length_cons, Nat.add_comm bs.length 1, ← Nat.add_assoc]
    cases hm : marks (a + 1 + bs.length)
    rw [hm] at hmatched
    exact hmatched

namespace State.Followed

/-- A set that is started is matched after a byte of it. -/
theorem matched_set {bytes : CharSet} {a : Nat} {c : UInt8} {states : Nat → State (.set bytes)}
    (h : State.Followed opts text origin states) (ho : origin ≤ a) (hc : text[a]? = some c)
    (hb : bytes.contains c = true) (hstart : (states a).start = states a) :
    (states (a + 1)).matched = true := by
  have hcarried := h.carries a c ho hc
  cases hs : states a
  cases hs' : states (a + 1)
  rw [hs, hs'] at hcarried
  simp only [hs, State.start, State.set.injEq] at hstart
  exact hcarried hstart.1.symm hb

/-- A literal that is started is matched after its bytes. -/
theorem matched_literal {bytes : Bytes} {a : Nat} {states : Nat → State (.literal bytes)}
    (h : State.Followed opts text origin states) (ho : origin ≤ a) (hp : bytes <+: text.drop a)
    (hstart : (states a).start = states a) : (states (a + bytes.length)).matched = true := by
  let marks (i : Nat) : Marks bytes := match states i with | .literal m => m
  have hmarks (i : Nat) : states i = .literal (marks i) := by
    cases hs : states i
    simp only [marks, hs]
  have hfollowed : Marks.Followed text origin marks :=
    ⟨fun _ _ => trivial, fun i c hi hc => by
      have hcarried := h.carries i c hi hc
      rwa [hmarks i, hmarks (i + 1)] at hcarried⟩
  have hfirst : (marks a).first = true := by
    rw [hmarks a, State.start, State.literal.injEq] at hstart
    rw [← hstart]
    cases marks a <;> rfl
  rw [hmarks]
  exact hfollowed.matched ho hp hfirst

/-- An anchor that is started is matched where it holds, since its state is settled there. -/
theorem matched_anchor {anchor : Anchor} {a : Nat} {states : Nat → State (.anchor anchor)}
    (h : State.Followed opts text origin states) (ho : origin ≤ a)
    (hholds : anchor.Holds opts (text.before origin a) (text.after a))
    (hstart : (states a).start = states a) : (states a).matched = true := by
  have hsettled := h.settled a ho
  cases hs : states a
  rw [hs] at hsettled
  simp only [hs, State.start, State.anchor.injEq] at hstart
  exact hsettled hstart.1.symm ((Edges.satisfy_around ..).2 hholds)

end State.Followed

/-- Alternatives that are all started lead to one that is matched, if one of them does so whenever
it is followed by itself. -/
theorem States.AllFollowed.anyMatched {rs : List Regex} {states : Nat → States rs} {part : Regex}
    {a b : Nat} (hmem : part ∈ rs)
    (hpart : ∀ part' : Nat → State part, State.Followed opts text origin part' →
      (part' a).start = part' a → (part' b).matched = true)
    (h : States.AllFollowed opts text origin states) (hstart : (states a).startAll = states a) :
    (states b).anyMatched = true := by
  induction rs with
  | nil => cases hmem
  | cons r rs ih =>
    have hor : ((states b).head.matched || (states b).tail.anyMatched) = true := by
      rcases List.mem_cons.1 hmem with rfl | hmem
      · have hfirst : (states a).head.start = (states a).head := by
          rw [← States.head_startAll, hstart]
        rw [hpart _ h.head hfirst, Bool.true_or]
      · have hrest : (states a).tail.startAll = (states a).tail := by
          rw [← States.tail_startAll, hstart]
        rw [ih hmem h.tail hrest, Bool.or_true]
    cases hs : states b
    rwa [hs] at hor

mutual

/-- A match is followed: from a position at which its expression is started, the
states lead to one at which it is matched. -/
theorem Regex.Matches.followed : {r : Regex} → {a b : Nat} → Matches opts text origin r a b →
    r.isProper = true → origin ≤ a → a ≤ text.length → {states : Nat → State r} →
    State.Followed opts text origin states → (states a).start = states a →
    (states b).matched = true
  | _, _, _, .set hc hb, _, ho, _, _, h, hstart => h.matched_set ho hc hb hstart
  | _, _, _, .literal hp, _, ho, _, _, h, hstart => h.matched_literal ho hp hstart
  | _, _, _, .anchor hholds, _, ho, _, _, h, hstart => h.matched_anchor ho hholds hstart
  | _, a, b, .concat hrow, hr, ho, ha, states, h, hstart => by
    simp only [isProper, Bool.and_eq_true, Bool.not_eq_true', List.isEmpty_eq_false_iff] at hr
    have hfirst : (states a).row.startFirst = (states a).row := by
      rw [← State.row_start, hstart]
    rw [State.matched_eq_row]
    exact hrow.followed hr.2 hr.1 ho ha h.row hfirst
  | _, a, b, .alternation hmem hm, hr, ho, ha, states, h, hstart => by
    have hfirst : (states a).alternatives.startAll = (states a).alternatives := by
      rw [← State.alternatives_start, hstart]
    rw [State.matched_eq_alternatives]
    exact States.AllFollowed.anyMatched hmem
      (fun _ hpart hs => hm.followed (isProper_of_mem hr hmem) ho ha hpart hs)
      h.alternatives hfirst
  | _, a, b, .once hm, hr, ho, ha, states, h, hstart => by
    have hfirst : (states a).repeated.start = (states a).repeated := by
      rw [← State.repeated_start, hstart]
    rw [State.matched_eq_repeated]
    exact hm.followed hr ho ha h.repeated hfirst
  | _, a, c, .more (b := b) hm hmore, hr, ho, ha, states, h, hstart => by
    have hfirst : (states a).repeated.start = (states a).repeated := by
      rw [← State.repeated_start, hstart]
    have hmatched := hm.followed hr ho ha h.repeated hfirst
    have hb : origin ≤ b := Nat.le_trans ho hm.le
    have hsettled := h.settled b hb
    -- Where the part is matched, the settled state has it started again.
    refine hmore.followed hr hb (hm.le_length ha) h ?_
    cases hs : states b
    rw [hs] at hsettled hmatched
    rw [State.start, hsettled.2 hmatched]
  | _, a, _, .absent, _, _, _, states, _, hstart => by
    cases hs : states a
    simp only [hs, State.start, State.optional.injEq] at hstart
    rw [State.matched, ← hstart.1, Bool.true_or]
  | _, a, b, .present hm, hr, ho, ha, states, h, hstart => by
    have hfirst : (states a).inner.start = (states a).inner := by
      rw [← State.inner_start, hstart]
    exact State.matched_of_inner (hm.followed hr ho ha h.inner hfirst)

/-- A match of several expressions in a row is followed. -/
theorem Regex.MatchesRow.followed : {rs : List Regex} → {a b : Nat} →
    MatchesRow opts text origin rs a b → Regex.allProper rs = true → rs ≠ [] → origin ≤ a →
    a ≤ text.length → {states : Nat → States rs} → States.RowFollowed opts text origin states →
    (states a).startFirst = states a → (states b).lastMatched = true
  | _, _, _, .nil, _, hne, _, _, _, _, _ => absurd rfl hne
  | r :: rs, a, c, .cons (b := b) hm hrow, hr, _, ho, ha, states, h, hstart => by
    simp only [allProper, Bool.and_eq_true] at hr
    have hfirst : (states a).head.start = (states a).head := by
      rw [← States.head_startFirst, hstart]
    have hmatched := hm.followed hr.1 ho ha h.head hfirst
    have hb : origin ≤ b := Nat.le_trans ho hm.le
    have hsettled := h.settled b hb
    have hnext : (states b).tail.startFirst = (states b).tail := by
      cases hs : states b
      rw [hs] at hsettled hmatched
      exact hsettled.2.1 hmatched
    have hlast (hne : rs ≠ []) : (states c).tail.lastMatched = true :=
      hrow.followed hr.2 hne hb (hm.le_length ha) h.tail hnext
    cases rs with
    | nil =>
      cases hrow
      cases hs : states c
      rw [hs] at hmatched
      exact hmatched
    | cons q qs =>
      have hrest := hlast (List.cons_ne_nil _ _)
      cases hs : states c
      rwa [hs] at hrest

end

namespace Regex

variable {r : Regex}

/-- Before its anchors are crossed, a state on the way is settled where none holds. -/
theorem settled_trailBefore (keeping : Bool) (r : Regex) (k : Nat) :
    (trailBefore keeping opts text origin r k).Settled .none := by
  cases k with
  | zero => exact (State.settled_idle r).start
  | succ k => exact State.settled_advance _ _

/-- Once its anchors are crossed, a state on the way is settled at its position. -/
theorem settled_trailAt {keeping : Bool} (opts : RegexOptions) (text : Bytes) (origin : Nat)
    (hk : keeping = false → r.keepsArrivals = true) (k : Nat) :
    (trailAt keeping opts text origin r k).Settled (.around opts text origin (origin + k)) :=
  (State.Settled.crossBy hk (settled_trailBefore keeping r k)).1

/-- The states along a text are followed if all crossings or the expression keep arrivals. -/
theorem followed_trailAt {keeping : Bool} (hk : keeping = false → r.keepsArrivals = true) :
    State.Followed opts text origin fun i => trailAt keeping opts text origin r (i - origin) where
  settled i hi := by
    have h := settled_trailAt opts text origin hk (i - origin)
    rwa [Nat.add_sub_cancel' hi] at h
  carries i c hi hc := by
    have hnext : i + 1 - origin = i - origin + 1 := by omega
    have hafter : text.after (origin + (i - origin)) = c := by
      simp [Bytes.after, Nat.add_sub_cancel' hi, hc]
    show State.Carries c (trailAt keeping opts text origin r (i - origin))
      (trailAt keeping opts text origin r (i + 1 - origin))
    rw [hnext, trailAt_succ, hafter]
    exact (State.carries_advance c _).crossBy keeping

/-- If all crossings or the expression keep arrivals, it is matched wherever a match ends. -/
theorem matched_trailAt_of_matches {keeping : Bool} (hr : r.isProper = true)
    (hk : keeping = false → r.keepsArrivals = true) (ho : origin ≤ text.length) {b : Nat}
    (h : Matches opts text origin r origin b) :
    (trailAt keeping opts text origin r (b - origin)).matched = true := by
  refine h.followed hr (Nat.le_refl origin) ho (followed_trailAt hk) ?_
  rw [Nat.sub_self]
  exact (State.Settled.crossBy hk (settled_trailBefore keeping r 0)).2 (State.start_start _)

/-- Where a match ends, the state of an expression that keeps arrivals is matched. -/
theorem matchedAt_of_matches (hr : r.isProper = true) (hk : r.keepsArrivals = true)
    (ho : origin ≤ text.length) {b : Nat} (h : Matches opts text origin r origin b) :
    origin ≤ b ∧ MatchedAt opts text origin r (b - origin) := by
  have hb := h.le
  have hlength := h.le_length ho
  refine ⟨hb, by omega, ?_⟩
  rw [marksAt_eq_trailAt]
  exact matched_trailAt_of_matches hr (fun _ => hk) ho h

/-- The answer for an expression that keeps arrivals is at or after the end of every match. -/
theorem consume_reaches (hr : r.isProper = true) (hk : r.keepsArrivals = true)
    (ho : origin ≤ text.length) {b : Nat} (h : Matches opts text origin r origin b) :
    ∃ j, r.consume opts text origin = .ok (some j) ∧ b ≤ j := by
  obtain ⟨result, hresult, hlongest⟩ := consume_eq opts hr ho
  obtain ⟨hb, hm⟩ := matchedAt_of_matches hr hk ho h
  rcases hlongest with ⟨_, hnone⟩ | ⟨k, _, rfl, _, hmax⟩
  · exact absurd hm (hnone _ (Nat.zero_le _))
  · have := hmax _ hm
    exact ⟨origin + k, hresult, by omega⟩

/-- Without anchors the longest match is found: the answer is at or after the end
of every match, whatever the nesting and the order of alternatives. -/
theorem consume_longest (opts : RegexOptions) (r : Regex) (text : Bytes) (i e : Nat)
    (hr : r.isProper = true) (hfree : r.anchorFree = true) (hi : i ≤ text.length)
    (h : Matches opts text i r i e) :
    ∃ j, r.consume opts text i = .ok (some j) ∧ e ≤ j :=
  consume_reaches hr (keepsArrivals_of_anchorFree hfree) hi h

/-- Nested repetitions and an empty alternative, with a match of `aabb` to its end. -/
theorem consume_longest_nested :
    let r := Regex.repetition (.alternation [.literal (ascii "a"), .literal [],
      .concat [.literal (ascii "a"), .repetition (.literal (ascii "b"))]])
    r.isProper = true ∧ r.anchorFree = true ∧ 0 ≤ (ascii "aabb").length ∧
      Matches .default (ascii "aabb") 0 r 0 4 ∧
      ∃ j, r.consume .default (ascii "aabb") 0 = .ok (some j) ∧ 4 ≤ j := by
  intro r
  have hlast : Matches .default (ascii "aabb") 0
      (.concat [.literal (ascii "a"), .repetition (.literal (ascii "b"))]) 1 4 :=
    .concat (.cons (.literal (a := 1) ⟨ascii "bb", rfl⟩)
      (.cons (.more (.literal (a := 2) ⟨ascii "b", rfl⟩)
        (.once (.literal (a := 3) ⟨[], rfl⟩))) .nil))
  have hm : Matches .default (ascii "aabb") 0 r 0 4 :=
    .more (b := 1) (.alternation List.mem_cons_self (.literal ⟨ascii "abb", rfl⟩))
      (.once (.alternation (.tail _ (.tail _ List.mem_cons_self)) hlast))
  exact ⟨rfl, rfl, Nat.zero_le _, hm, consume_longest .default r _ 0 4 rfl rfl (Nat.zero_le _) hm⟩

end Regex

end PhraseGrammar
