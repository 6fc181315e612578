import PhraseGrammar.Proofs.Regex.Crossing

/-!
# The simulation marks only what can be reached

A mark in the state of an expression is justified at a position of a text if a
way through the expression leads to it that began at one of the given starting
positions. Starting, moving over a byte and crossing anchors keep all marks
justified, although the iterations of a repetition share one state. Hence a
state is matched only where the textbook relation has a match, and the end that
`Regex.consume` finds is the end of a match.
-/

set_option autoImplicit false

namespace PhraseGrammar

open Regex (Matches MatchesRow)

/-- The marks in a literal are justified: each one has the bytes before it behind
it, counted from a starting position. -/
def Marks.Justified (text : Bytes) (b : Nat) :
    {bytes : Bytes} → (starts : Nat → Prop) → Marks bytes → Prop
  | _, starts, .last here => here = true → starts b
  | _, starts, @Marks.more byte _ here rest =>
    (here = true → starts b) ∧
      rest.Justified text b fun c => ∃ a, c = a + 1 ∧ starts a ∧ text[a]? = some byte

namespace Marks

variable {text : Bytes} {b : Nat}

theorem Justified.start {bytes : Bytes} {starts : Nat → Prop} {m : Marks bytes}
    (h : m.Justified text b starts) (hb : starts b) : m.start.Justified text b starts := by
  cases m with
  | last here => exact fun _ => hb
  | more here rest => exact ⟨fun _ => hb, h.2⟩

/-- Moving over the byte of the text keeps the marks of a literal justified, if a way that arrives
is. -/
theorem Justified.shift {bytes : Bytes} {starts : Nat → Prop} {c : UInt8} {arriving : Bool}
    {m : Marks bytes} (h : m.Justified text b starts) (hc : text[b]? = some c)
    (harriving : arriving = true → starts (b + 1)) :
    (m.shift c arriving).Justified text (b + 1) starts := by
  induction m generalizing starts arriving with
  | last here => exact harriving
  | @more byte bs here rest ih =>
    refine ⟨harriving, ih h.2 fun hmoved => ?_⟩
    simp only [Bool.and_eq_true, beq_iff_eq] at hmoved
    exact ⟨b, rfl, h.1 hmoved.1, by rw [hc, hmoved.2]⟩

/-- Where the end of a literal is marked, its bytes lie behind, after a starting position. -/
theorem Justified.matched {bytes : Bytes} {starts : Nat → Prop} {m : Marks bytes}
    (h : m.Justified text b starts) (hm : m.matched = true) :
    ∃ a, starts a ∧ bytes <+: text.drop a ∧ b = a + bytes.length := by
  induction m generalizing starts with
  | last here => exact ⟨b, h hm, List.nil_prefix, rfl⟩
  | @more byte bs here rest ih =>
    obtain ⟨_, ⟨a, rfl, ha, hbyte⟩, hp, hb⟩ := ih h.2 hm
    obtain ⟨hlt, rfl⟩ := List.getElem?_eq_some_iff.1 hbyte
    refine ⟨a, ha, ?_, by simp only [List.length_cons]; omega⟩
    rw [List.drop_eq_getElem_cons hlt]
    exact (List.cons_prefix_cons).2 ⟨rfl, hp⟩

theorem justified_idle {bytes : Bytes} (starts : Nat → Prop) :
    (Marks.idle bytes).Justified text b starts := by
  induction bytes generalizing starts with
  | nil => simp [Marks.idle, Marks.Justified]
  | cons byte bs ih => simp [Marks.idle, Marks.Justified, ih]

end Marks

section

variable (opts : RegexOptions) (text : Bytes) (origin : Nat)

/-- The positions at which matches end that begin at one of the given positions. -/
def Regex.ends (r : Regex) (starts : Nat → Prop) (b : Nat) : Prop :=
  ∃ a, starts a ∧ Matches opts text origin r a b

mutual

/-- The marks of a state at position `b` are justified by ways that began at one
of the positions in `starts`. A repetition may also begin where it has just ended. -/
def State.Justified (b : Nat) : {r : Regex} → (starts : Nat → Prop) → State r → Prop
  | .set bytes, starts, .set before after =>
    (before = true → starts b) ∧ (after = true → Regex.ends opts text origin (.set bytes) starts b)
  | _, starts, .literal marks => marks.Justified text b starts
  | .anchor anchor, starts, .anchor before after =>
    (before = true → starts b) ∧
      (after = true → Regex.ends opts text origin (.anchor anchor) starts b)
  | _, starts, .concat _ states => states.RowJustified b starts
  | _, starts, .alternation states => states.AllJustified b starts
  | .repetition part, starts, .repetition state =>
    state.Justified b fun c => starts c ∨ Regex.ends opts text origin (.repetition part) starts c
  | _, starts, .optional fresh state => (fresh = true → starts b) ∧ state.Justified b starts

/-- The marks of several states in a row are justified: each expression begins
where the one before it ends. -/
def States.RowJustified (b : Nat) : {rs : List Regex} → (starts : Nat → Prop) → States rs → Prop
  | _, _, .nil => True
  | r :: _, starts, .cons first rest =>
    first.Justified b starts ∧ rest.RowJustified b (Regex.ends opts text origin r starts)

/-- The marks of several states are justified by the same starting positions. -/
def States.AllJustified (b : Nat) : {rs : List Regex} → (starts : Nat → Prop) → States rs → Prop
  | _, _, .nil => True
  | _, starts, .cons first rest => first.Justified b starts ∧ rest.AllJustified b starts

end

end

variable {opts : RegexOptions} {text : Bytes} {origin b : Nat}

/-- One more iteration from the start or the end of a repetition ends a repetition. -/
theorem Regex.ends_repetition {part : Regex} {starts : Nat → Prop}
    (h : Regex.ends opts text origin part
      (fun c => starts c ∨ Regex.ends opts text origin (.repetition part) starts c) b) :
    Regex.ends opts text origin (.repetition part) starts b := by
  obtain ⟨a, ha | ⟨a', ha', hprevious⟩, hlast⟩ := h
  · exact ⟨a, ha, .once hlast⟩
  · exact ⟨a', ha', hprevious.snoc hlast⟩

mutual

/-- An expression whose justified state is matched has a match that ends here. -/
theorem State.Justified.matched : {r : Regex} → {s : State r} → {starts : Nat → Prop} →
    s.Justified opts text origin b starts → s.matched = true →
    Regex.ends opts text origin r starts b
  | _, .set _ _, _, h, hm => h.2 hm
  | _, .literal _, _, h, hm => by
    obtain ⟨a, ha, hp, rfl⟩ := Marks.Justified.matched h hm
    exact ⟨a, ha, .literal hp⟩
  | _, .anchor _ _, _, h, hm => h.2 hm
  | _, .concat _ states, _, h, hm => by
    obtain ⟨a, ha, hr⟩ := States.RowJustified.lastMatched (s := states) h hm
    exact ⟨a, ha, .concat hr⟩
  | _, .alternation states, _, h, hm => by
    obtain ⟨part, hpart, a, ha, hr⟩ := States.AllJustified.anyMatched (s := states) h hm
    exact ⟨a, ha, .alternation hpart hr⟩
  | _, .repetition state, _, h, hm =>
    Regex.ends_repetition (State.Justified.matched (s := state) h hm)
  | _, .optional fresh state, _, h, hm => by
    rcases Bool.or_eq_true_iff.1 hm with hf | hm
    · exact ⟨b, h.1 hf, .absent⟩
    · obtain ⟨a, ha, hr⟩ := State.Justified.matched h.2 hm
      exact ⟨a, ha, .present hr⟩

/-- Where the last of several states in a row is matched, a match of the row ends. -/
theorem States.RowJustified.lastMatched : {rs : List Regex} → {s : States rs} →
    {starts : Nat → Prop} → s.RowJustified opts text origin b starts → s.lastMatched = true →
    ∃ a, starts a ∧ MatchesRow opts text origin rs a b
  | _, .nil, _, _, hm => by simp [States.lastMatched] at hm
  | [_], .cons first .nil, _, h, hm => by
    obtain ⟨a, ha, hr⟩ := State.Justified.matched h.1 hm
    exact ⟨a, ha, .cons hr .nil⟩
  | _ :: _ :: _, .cons first rest, _, h, hm => by
    obtain ⟨c, ⟨a, ha, hr⟩, hrow⟩ := States.RowJustified.lastMatched h.2 hm
    exact ⟨a, ha, .cons hr hrow⟩

theorem States.AllJustified.anyMatched : {rs : List Regex} → {s : States rs} →
    {starts : Nat → Prop} → s.AllJustified opts text origin b starts → s.anyMatched = true →
    ∃ r ∈ rs, Regex.ends opts text origin r starts b
  | _, .nil, _, _, hm => by simp [States.anyMatched] at hm
  | _, .cons first rest, _, h, hm => by
    rcases Bool.or_eq_true_iff.1 hm with hm | hm
    · exact ⟨_, List.mem_cons_self, State.Justified.matched h.1 hm⟩
    · obtain ⟨r, hr, hends⟩ := States.AllJustified.anyMatched h.2 hm
      exact ⟨r, List.mem_cons_of_mem _ hr, hends⟩

end

mutual

/-- There is nothing to justify in a state without marks. -/
theorem State.justified_idle : (r : Regex) → (starts : Nat → Prop) →
    (State.idle r).Justified opts text origin b starts
  | .set _, _ => ⟨Bool.noConfusion, Bool.noConfusion⟩
  | .literal _, starts => Marks.justified_idle starts
  | .anchor _, _ => ⟨Bool.noConfusion, Bool.noConfusion⟩
  | .concat parts, starts => States.rowJustified_idle parts starts
  | .alternation parts, starts => States.allJustified_idle parts starts
  | .repetition part, _ => State.justified_idle part _
  | .optional part, starts => ⟨Bool.noConfusion, State.justified_idle part starts⟩

theorem States.rowJustified_idle : (rs : List Regex) → (starts : Nat → Prop) →
    (States.idle rs).RowJustified opts text origin b starts
  | [], _ => trivial
  | r :: rs, starts => ⟨State.justified_idle r starts, States.rowJustified_idle rs _⟩

theorem States.allJustified_idle : (rs : List Regex) → (starts : Nat → Prop) →
    (States.idle rs).AllJustified opts text origin b starts
  | [], _ => trivial
  | r :: rs, starts => ⟨State.justified_idle r starts, States.allJustified_idle rs starts⟩

end

mutual

/-- Starting an expression at a starting position is justified. -/
theorem State.Justified.start : {r : Regex} → {s : State r} → {starts : Nat → Prop} →
    s.Justified opts text origin b starts → starts b →
    s.start.Justified opts text origin b starts
  | _, .set _ _, _, h, hb => ⟨fun _ => hb, h.2⟩
  | _, .literal _, _, h, hb => Marks.Justified.start h hb
  | _, .anchor _ _, _, h, hb => ⟨fun _ => hb, h.2⟩
  | _, .concat _ states, _, h, hb => States.RowJustified.startFirst (s := states) h hb
  | _, .alternation states, _, h, hb => States.AllJustified.startAll (s := states) h hb
  | _, .repetition state, _, h, hb => State.Justified.start (s := state) h (.inl hb)
  | _, .optional _ _, _, h, hb => ⟨fun _ => hb, State.Justified.start h.2 hb⟩

/-- At a starting position a row may be started: where its first expression is matched, a match of
that one ends, and the next one may begin. -/
theorem States.RowJustified.startFirst : {rs : List Regex} → {s : States rs} →
    {starts : Nat → Prop} → s.RowJustified opts text origin b starts → starts b →
    s.startFirst.RowJustified opts text origin b starts
  | _, .nil, _, _, _ => trivial
  | _, .cons first rest, _, h, hb => by
    have hfirst := State.Justified.start h.1 hb
    refine ⟨hfirst, ?_⟩
    split
    · next hm => exact States.RowJustified.startFirst h.2 (hfirst.matched hm)
    · exact h.2

theorem States.AllJustified.startAll : {rs : List Regex} → {s : States rs} →
    {starts : Nat → Prop} → s.AllJustified opts text origin b starts → starts b →
    s.startAll.AllJustified opts text origin b starts
  | _, .nil, _, _, _ => trivial
  | _, .cons _ _, _, h, hb =>
    ⟨State.Justified.start h.1 hb, States.AllJustified.startAll h.2 hb⟩

end

/-- An expression may be started if a way arrives only at a starting position. -/
theorem State.Justified.startIf {r : Regex} {s : State r} {starts : Nat → Prop} {arriving : Bool}
    (h : s.Justified opts text origin b starts) (harriving : arriving = true → starts b) :
    (s.startIf arriving).Justified opts text origin b starts := by
  unfold State.startIf
  split
  · next ha => exact h.start (harriving ha)
  · exact h

mutual

/-- Moving over the next byte of the text keeps a state justified. -/
theorem State.Justified.advance {c : UInt8} (hc : text[b]? = some c) : {r : Regex} →
    {s : State r} → {starts : Nat → Prop} → s.Justified opts text origin b starts →
    (s.advance c).Justified opts text origin (b + 1) starts
  | _, .set _ _, _, h => by
    refine ⟨Bool.noConfusion, fun hmoved => ?_⟩
    simp only [Bool.and_eq_true] at hmoved
    exact ⟨b, h.1 hmoved.1, .set hc hmoved.2⟩
  | _, .literal _, _, h => Marks.Justified.shift h hc Bool.noConfusion
  | _, .anchor _ _, _, _ => ⟨Bool.noConfusion, Bool.noConfusion⟩
  | _, .concat _ states, _, h =>
    States.RowJustified.advanceInRow hc (s := states) h Bool.noConfusion
  | _, .alternation states, _, h => States.AllJustified.advanceAll hc (s := states) h
  | _, .repetition state, _, h => by
    have hmoved := State.Justified.advance hc (s := state) h
    exact State.Justified.startIf hmoved fun hm => .inr (Regex.ends_repetition (hmoved.matched hm))
  | _, .optional _ _, _, h => ⟨Bool.noConfusion, State.Justified.advance hc h.2⟩

theorem States.RowJustified.advanceInRow {c : UInt8} (hc : text[b]? = some c) : {rs : List Regex} →
    {s : States rs} → {starts : Nat → Prop} → {arriving : Bool} →
    s.RowJustified opts text origin b starts → (arriving = true → starts (b + 1)) →
    (s.advanceInRow c arriving).RowJustified opts text origin (b + 1) starts
  | _, .nil, _, _, _, _ => trivial
  | _, .cons _ _, _, _, h, harriving => by
    have hfirst := (State.Justified.advance hc h.1).startIf harriving
    exact ⟨hfirst, States.RowJustified.advanceInRow hc h.2 hfirst.matched⟩

theorem States.AllJustified.advanceAll {c : UInt8} (hc : text[b]? = some c) : {rs : List Regex} →
    {s : States rs} → {starts : Nat → Prop} → s.AllJustified opts text origin b starts →
    (s.advanceAll c).AllJustified opts text origin (b + 1) starts
  | _, .nil, _, _ => trivial
  | _, .cons _ _, _, h => ⟨State.Justified.advance hc h.1, States.AllJustified.advanceAll hc h.2⟩

end

mutual

/-- Crossing the anchors that hold at a position keeps a state justified there. -/
theorem State.Justified.crossBy (keeping : Bool) : {r : Regex} → {s : State r} →
    {starts : Nat → Prop} → s.Justified opts text origin b starts →
    (s.crossBy keeping (.around opts text origin b)).Justified opts text origin b starts
  | .set _, _, _, h => h
  | .literal _, _, _, h => h
  | .anchor anchor, .anchor before after, _, h => by
    refine ⟨h.1, fun hcrossed => ?_⟩
    rcases Bool.or_eq_true_iff.1 hcrossed with ha | hcrossed
    · exact h.2 ha
    · simp only [Bool.and_eq_true] at hcrossed
      exact ⟨b, h.1 hcrossed.1, .anchor ((Edges.satisfy_around ..).1 hcrossed.2)⟩
  | .concat _, .concat _ states, _, h =>
    States.RowJustified.crossInRowBy keeping (s := states) h Bool.noConfusion
  | .alternation _, .alternation states, _, h => States.AllJustified.crossAllBy keeping (s := states) h
  | .repetition _, .repetition state, _, h => by
    have hcrossed := State.Justified.crossBy keeping (s := state) h
    show State.Justified opts text origin b _ (State.repetition _)
    simp only [State.Justified]
    split
    · next hm =>
      simp only [Bool.and_eq_true] at hm
      exact State.Justified.crossBy keeping
        (hcrossed.start (.inr (Regex.ends_repetition (hcrossed.matched hm.2))))
    · exact hcrossed
  | .optional _, .optional _ _, _, h => ⟨h.1, State.Justified.crossBy keeping h.2⟩

theorem States.RowJustified.crossInRowBy (keeping : Bool) : {rs : List Regex} →
    {s : States rs} → {starts : Nat → Prop} → {arriving : Bool} →
    s.RowJustified opts text origin b starts → (arriving = true → starts b) →
    (s.crossInRowBy keeping (.around opts text origin b) arriving).RowJustified
      opts text origin b starts
  | [], .nil, _, _, _, _ => trivial
  | _ :: _, .cons _ _, _, _, h, harriving => by
    have hfirst := State.Justified.crossBy keeping (h.1.startIf harriving)
    refine ⟨hfirst, States.RowJustified.crossInRowBy keeping h.2 fun hm => ?_⟩
    simp only [Bool.and_eq_true] at hm
    exact hfirst.matched hm.2

theorem States.AllJustified.crossAllBy (keeping : Bool) : {rs : List Regex} → {s : States rs} →
    {starts : Nat → Prop} → s.AllJustified opts text origin b starts →
    (s.crossAllBy keeping (.around opts text origin b)).AllJustified opts text origin b starts
  | [], .nil, _, _ => trivial
  | _ :: _, .cons _ _, _, h => ⟨State.Justified.crossBy keeping h.1, States.AllJustified.crossAllBy keeping h.2⟩

end

theorem State.Justified.cross {r : Regex} {s : State r} {starts : Nat → Prop}
    (h : s.Justified opts text origin b starts) :
    (s.cross (.around opts text origin b)).Justified opts text origin b starts := by
  rw [← State.crossBy_false]
  exact h.crossBy false

theorem States.RowJustified.crossInRow {rs : List Regex} {s : States rs} {starts : Nat → Prop}
    {arriving : Bool} (h : s.RowJustified opts text origin b starts)
    (harriving : arriving = true → starts b) :
    (s.crossInRow (.around opts text origin b) arriving).RowJustified opts text origin b starts := by
  rw [← States.crossInRowBy_false]
  exact h.crossInRowBy false harriving

namespace Regex

/-- The state before the anchors at a position are crossed is justified by ways
that began where the match was asked to start. -/
theorem justified_trailBefore (keeping : Bool) (r : Regex) (k : Nat)
    (hk : origin + k ≤ text.length) :
    (trailBefore keeping opts text origin r k).Justified opts text origin (origin + k)
      (· = origin) := by
  induction k with
  | zero => exact (State.justified_idle r _).start rfl
  | succ k ih =>
    have hlt : origin + k < text.length := by omega
    have hc : text[origin + k]? = some (text.after (origin + k)) := by
      simp [Bytes.after, List.getElem?_eq_getElem hlt]
    exact ((ih (by omega)).crossBy keeping).advance hc

/-- Where a state on the way is matched, a match ends. -/
theorem matches_of_matched_trailAt {keeping : Bool} {r : Regex} {k : Nat}
    (hk : origin + k ≤ text.length)
    (h : (trailAt keeping opts text origin r k).matched = true) :
    Matches opts text origin r origin (origin + k) := by
  obtain ⟨_, rfl, hm⟩ := ((justified_trailBefore keeping r k hk).crossBy keeping).matched h
  exact hm

/-- Where the state is matched, the text up to there matches. -/
theorem matches_of_matchedAt {r : Regex} {k : Nat} (h : MatchedAt opts text origin r k) :
    Matches opts text origin r origin (origin + k) :=
  matches_of_matched_trailAt h.1 (marksAt_eq_trailAt k ▸ h.2)

/-- From a position inside the text matching is answered, and a position that it answers with is
the end of a match. -/
theorem exists_consume (opts : RegexOptions) {r : Regex} (hr : r.isProper = true)
    (hi : origin ≤ text.length) :
    ∃ result, r.consume opts text origin = .ok result ∧
      ∀ j, result = some j → Matches opts text origin r origin j := by
  obtain ⟨result, hresult, hlongest⟩ := consume_eq opts hr hi
  refine ⟨_, hresult, fun j hj => ?_⟩
  rcases hlongest with ⟨rfl, _⟩ | ⟨k, _, rfl, hm, _⟩
  · cases hj
  · cases hj
    exact matches_of_matchedAt hm

/-- Matching never fails, not even from a position past the end of the text. -/
theorem exists_consume_eq_ok (opts : RegexOptions) {r : Regex} (hr : r.isProper = true)
    (text : Bytes) (i : Nat) : ∃ result, r.consume opts text i = .ok result := by
  obtain ⟨result, hresult, -⟩ := exists_consume opts hr (Nat.zero_le (text.drop i).length)
  unfold consume at hresult ⊢
  rw [List.drop_zero] at hresult
  cases hlongest : longestMatch opts r (text.drop i) with
  | error fault =>
    rw [hlongest] at hresult
    cases hresult
  | ok longest =>
    cases longest with
    | none => exact ⟨none, rfl⟩
    | some n => exact ⟨_, rfl⟩

/-- Matching finds only what is there. From a position inside the text the answer
is a position, not before the first and not past the end, such that the bytes in
between match; or there is no answer, and then the position afterwards,
`result.getD i`, is the one before. -/
theorem consume_sound (opts : RegexOptions) (r : Regex) (text : Bytes) (i : Nat)
    (hr : r.isProper = true) (hi : i ≤ text.length) :
    ∃ result, r.consume opts text i = .ok result ∧
      (result.isSome = true → i ≤ result.getD i ∧ result.getD i ≤ text.length ∧
        Matches opts text i r i (result.getD i)) ∧
      (result = none → result.getD i = i) := by
  obtain ⟨result, hresult, hlongest⟩ := consume_eq opts hr hi
  refine ⟨_, hresult, ?_, ?_⟩
  · rcases hlongest with ⟨rfl, _⟩ | ⟨k, _, rfl, hm, _⟩
    · exact Bool.noConfusion
    · exact fun _ => ⟨Nat.le_add_right i k, hm.1, matches_of_matchedAt hm⟩
  · intro h
    rw [h]
    rfl

/-- The bytes consumed by `'a'+ $` at the second position of `xa` are a match. -/
theorem consume_sound_lineEnd :
    let r := Regex.concat [.repetition (.literal (ascii "a")), .anchor .lineEnd]
    r.isProper = true ∧ 1 ≤ (ascii "xa").length ∧
      r.consume .default (ascii "xa") 1 = .ok (some 2) ∧
      Matches .default (ascii "xa") 1 r 1 2 := by
  have hresult : (Regex.concat [.repetition (.literal (ascii "a")), .anchor .lineEnd]).consume
      .default (ascii "xa") 1 = .ok (some 2) := rfl
  refine ⟨rfl, by decide, hresult, ?_⟩
  obtain ⟨result, h, hfound, -⟩ := consume_sound .default
    (.concat [.repetition (.literal (ascii "a")), .anchor .lineEnd]) (ascii "xa") 1 rfl (by decide)
  rw [hresult] at h
  cases h
  exact (hfound rfl).2.2

end Regex

end PhraseGrammar
