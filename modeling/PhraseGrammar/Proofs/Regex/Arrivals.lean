import PhraseGrammar.Proofs.Regex.Crossing
import PhraseGrammar.Proofs.Regex.Settled

/-!
# Arriving over an anchor

Crossing anchors starts a part of a sequence where the part before it is newly
matched. A part that is matched by merely being started was not newly matched by
the crossing, so the part after it is not started, and the way that arrived is
lost there. `Regex.keepsArrivals` excludes this by the shape of the expression:
where a part that may end on an anchor is followed by one that may be skipped,
nothing else follows. For such expressions crossing settles every state
(`State.Settled.crossBy`), and the one more pass that a repetition makes is enough.
Crossing that is `keeping` settles the states of all expressions.
-/

set_option autoImplicit false

namespace PhraseGrammar

namespace Regex

mutual

/-- Whether the expression is matched as soon as it is started, without a byte
and without an anchor. -/
def skippable : Regex → Bool
  | .set _ => false
  | .literal bytes => bytes.isEmpty
  | .anchor _ => false
  | .concat parts => !parts.isEmpty && allSkippable parts
  | .alternation parts => anySkippable parts
  | .repetition part => part.skippable
  | .optional _ => true

/-- Whether all of several expressions are matched as soon as they are started. -/
def allSkippable : List Regex → Bool
  | [] => true
  | r :: rs => r.skippable && allSkippable rs

/-- Whether one of several expressions is matched as soon as it is started. -/
def anySkippable : List Regex → Bool
  | [] => false
  | r :: rs => r.skippable || anySkippable rs

end

mutual

/-- Whether the expression may become matched by crossing an anchor. -/
def endsOnAnchor : Regex → Bool
  | .set _ => false
  | .literal _ => false
  | .anchor _ => true
  | .concat parts => rowEndsOnAnchor parts
  | .alternation parts => anyEndsOnAnchor parts
  | .repetition part => part.endsOnAnchor
  | .optional part => part.endsOnAnchor

/-- Whether a row of expressions may become matched by crossing an anchor in a
part of which everything after it may be skipped. -/
def rowEndsOnAnchor : List Regex → Bool
  | [] => false
  | r :: rs => rowEndsOnAnchor rs || r.endsOnAnchor && allSkippable rs

/-- Whether one of several expressions may become matched by crossing an anchor. -/
def anyEndsOnAnchor : List Regex → Bool
  | [] => false
  | r :: rs => r.endsOnAnchor || anyEndsOnAnchor rs

end

mutual

/-- Whether every way that arrives at a part of a sequence over an anchor is kept:
where a part that may end on an anchor is followed by one that may be skipped,
nothing else follows in that sequence. -/
def keepsArrivals : Regex → Bool
  | .set _ => true
  | .literal _ => true
  | .anchor _ => true
  | .concat parts => rowKeepsArrivals false parts
  | .alternation parts => allKeepArrivals parts
  | .repetition part => part.keepsArrivals
  | .optional part => part.keepsArrivals

/-- Whether every way that arrives over an anchor is kept in a row of expressions;
`late` says that one may arrive so at the first of them. -/
def rowKeepsArrivals (late : Bool) : List Regex → Bool
  | [] => true
  | r :: rs =>
    r.keepsArrivals && (!(late && r.skippable) || rs.isEmpty) && rowKeepsArrivals r.endsOnAnchor rs

/-- Whether every way that arrives over an anchor is kept in several expressions. -/
def allKeepArrivals : List Regex → Bool
  | [] => true
  | r :: rs => r.keepsArrivals && allKeepArrivals rs

end

end Regex

mutual

/-- An expression without anchors does not end on one. -/
theorem Regex.endsOnAnchor_of_anchorFree : {r : Regex} → r.anchorFree = true →
    r.endsOnAnchor = false
  | .set _, _ => rfl
  | .literal _, _ => rfl
  | .anchor _, h => Bool.noConfusion h
  | .concat parts, h =>
    Regex.rowEndsOnAnchor_of_allAnchorFree (show Regex.allAnchorFree parts = true from h)
  | .alternation parts, h =>
    Regex.anyEndsOnAnchor_of_allAnchorFree (show Regex.allAnchorFree parts = true from h)
  | .repetition part, h => Regex.endsOnAnchor_of_anchorFree (r := part) h
  | .optional part, h => Regex.endsOnAnchor_of_anchorFree (r := part) h

theorem Regex.rowEndsOnAnchor_of_allAnchorFree : {rs : List Regex} → allAnchorFree rs = true →
    rowEndsOnAnchor rs = false
  | [], _ => rfl
  | _ :: _, h => by
    simp only [allAnchorFree, Bool.and_eq_true] at h
    simp only [rowEndsOnAnchor, Regex.rowEndsOnAnchor_of_allAnchorFree h.2,
      Regex.endsOnAnchor_of_anchorFree h.1, Bool.false_and, Bool.or_false]

theorem Regex.anyEndsOnAnchor_of_allAnchorFree : {rs : List Regex} → allAnchorFree rs = true →
    anyEndsOnAnchor rs = false
  | [], _ => rfl
  | _ :: _, h => by
    simp only [allAnchorFree, Bool.and_eq_true] at h
    simp only [anyEndsOnAnchor, Regex.anyEndsOnAnchor_of_allAnchorFree h.2,
      Regex.endsOnAnchor_of_anchorFree h.1, Bool.or_false]

end

mutual

/-- Without anchors no arrival over an anchor can be lost. -/
theorem Regex.keepsArrivals_of_anchorFree : {r : Regex} → r.anchorFree = true →
    r.keepsArrivals = true
  | .set _, _ => rfl
  | .literal _, _ => rfl
  | .anchor _, _ => rfl
  | .concat parts, h =>
    Regex.rowKeepsArrivals_of_allAnchorFree (show Regex.allAnchorFree parts = true from h)
  | .alternation parts, h =>
    Regex.allKeepArrivals_of_allAnchorFree (show Regex.allAnchorFree parts = true from h)
  | .repetition part, h => Regex.keepsArrivals_of_anchorFree (r := part) h
  | .optional part, h => Regex.keepsArrivals_of_anchorFree (r := part) h

theorem Regex.rowKeepsArrivals_of_allAnchorFree : {rs : List Regex} → allAnchorFree rs = true →
    rowKeepsArrivals false rs = true
  | [], _ => rfl
  | _ :: _, h => by
    simp only [allAnchorFree, Bool.and_eq_true] at h
    simp only [rowKeepsArrivals, Regex.keepsArrivals_of_anchorFree h.1,
      Regex.endsOnAnchor_of_anchorFree h.1, Regex.rowKeepsArrivals_of_allAnchorFree h.2,
      Bool.false_and, Bool.not_false, Bool.true_or, Bool.and_self]

theorem Regex.allKeepArrivals_of_allAnchorFree : {rs : List Regex} → allAnchorFree rs = true →
    allKeepArrivals rs = true
  | [], _ => rfl
  | _ :: _, h => by
    simp only [allAnchorFree, Bool.and_eq_true] at h
    simp only [allKeepArrivals, Regex.keepsArrivals_of_anchorFree h.1,
      Regex.allKeepArrivals_of_allAnchorFree h.2, Bool.and_self]

end

/-! ## What starting and crossing newly match -/

/-- A literal that is started is matched if it was or if it has no bytes. -/
theorem Marks.matched_start {bytes : Bytes} (m : Marks bytes) :
    m.start.matched = (m.matched || bytes.isEmpty) := by
  cases m with
  | last here => simp [Marks.start, Marks.matched]
  | more here rest => simp [Marks.start, Marks.matched]

mutual

/-- A settled state that is started is matched if it was or if its expression may be skipped. -/
theorem State.Settled.matched_start : {r : Regex} → {s : State r} → s.Settled .none →
    s.start.matched = (s.matched || r.skippable)
  | _, .set _ _, _ => (Bool.or_false _).symm
  | _, .literal marks, _ => Marks.matched_start marks
  | _, .anchor _ _, _ => (Bool.or_false _).symm
  | _, .concat _ states, h => States.RowSettled.lastMatched_startFirst (s := states) h
  | _, .alternation states, h => States.AllSettled.anyMatched_startAll (s := states) h
  | _, .repetition state, h => State.Settled.matched_start (s := state) h.1
  | _, .optional _ _, _ => (Bool.or_true _).symm

/-- A settled row that is started is matched at its end if it was or if all of it may be skipped. -/
theorem States.RowSettled.lastMatched_startFirst : {rs : List Regex} → {s : States rs} →
    s.RowSettled .none →
    s.startFirst.lastMatched = (s.lastMatched || (!rs.isEmpty && Regex.allSkippable rs))
  | [], .nil, _ => rfl
  | [r], .cons first .nil, h => by
    simp [States.startFirst, States.lastMatched, State.Settled.matched_start h.1,
      Regex.allSkippable]
  | r :: q :: rs, .cons first rest, h => by
    have hrest := States.RowSettled.lastMatched_startFirst h.2.2
    have hstarted := State.Settled.matched_start h.1
    have hlast (other : States (q :: rs)) :
        (States.cons first.start other).lastMatched = other.lastMatched := rfl
    have hskip : Regex.allSkippable (r :: q :: rs) =
        (r.skippable && Regex.allSkippable (q :: rs)) := rfl
    simp only [List.isEmpty_cons, Bool.not_false, Bool.true_and] at hrest ⊢
    rw [States.startFirst, hlast, hskip]
    cases hm : first.matched with
    | true =>
      have hfix : rest.startFirst = rest := h.2.1 hm
      rw [hm] at hstarted
      rw [hfix] at hrest
      have hlastMatched : (States.cons first rest).lastMatched = rest.lastMatched := rfl
      rw [hstarted, Bool.true_or, if_pos rfl, hfix, hlastMatched]
      cases hs : Regex.allSkippable (q :: rs) with
      | true =>
        have hmatched : rest.lastMatched = true := by simpa [hs] using hrest
        simp [hmatched]
      | false => simp
    | false =>
      have hlastMatched : (States.cons first rest).lastMatched = rest.lastMatched := rfl
      rw [hstarted, hm, Bool.false_or, hlastMatched]
      cases r.skippable with
      | true => simpa using hrest
      | false => simp

theorem States.AllSettled.anyMatched_startAll : {rs : List Regex} → {s : States rs} →
    s.AllSettled .none →
    s.startAll.anyMatched = (s.anyMatched || Regex.anySkippable rs)
  | _, .nil, _ => rfl
  | _, .cons first rest, h => by
    simp only [States.startAll, States.anyMatched, State.Settled.matched_start h.1,
      States.AllSettled.anyMatched_startAll h.2, Regex.anySkippable]
    ac_rfl

end

/-- A state that is matched only by a way that arrives belongs to an expression that may
be skipped. -/
theorem State.Settled.skippable_of_startIf {r : Regex} {s : State r} {arriving : Bool}
    (h : s.Settled .none) (hm : ¬ s.matched = true) (hstarted : (s.startIf arriving).matched = true) :
    arriving = true ∧ r.skippable = true := by
  cases arriving with
  | false => exact absurd hstarted hm
  | true =>
    have hstart : s.start.matched = true := hstarted
    rw [h.matched_start] at hstart
    exact ⟨rfl, (Bool.or_eq_true_iff.1 hstart).resolve_left hm⟩

mutual

/-- A settled state that is matched only after anchors are crossed belongs to an
expression that may end on an anchor. -/
theorem State.Settled.endsOnAnchor {e : Edges} : {r : Regex} → {s : State r} → s.Settled .none →
    s.matched = false → (s.cross e).matched = true → r.endsOnAnchor = true
  | .set _, _, _, hm, hc => absurd (hm.symm.trans hc) Bool.noConfusion
  | .literal _, _, _, hm, hc => absurd (hm.symm.trans hc) Bool.noConfusion
  | .anchor _, _, _, _, _ => rfl
  | .concat _, .concat _ states, h, hm, hc =>
    (States.RowSettled.rowEndsOnAnchor (s := states) h hm hc).resolve_right
      fun ha => Bool.noConfusion ha.1
  | .alternation _, .alternation states, h, hm, hc =>
    States.AllSettled.anyEndsOnAnchor (s := states) h hm hc
  | .repetition part, .repetition state, h, hm, hc => by
    have hcrossed : (state.cross e).matched = true := by
      simp only [State.cross, State.matched] at hc
      split at hc
      · next hnew =>
        simp only [Bool.and_eq_true] at hnew
        exact hnew.2
      · exact hc
    have hpart : part.endsOnAnchor = true := State.Settled.endsOnAnchor h.1 hm hcrossed
    exact hpart
  | .optional part, .optional fresh state, h, hm, hc => by
    obtain ⟨hfresh, hmatched⟩ := Bool.or_eq_false_iff.1 hm
    have hcrossed : (state.cross e).matched = true :=
      (Bool.or_eq_true_iff.1 hc).resolve_left fun hf =>
        absurd (hfresh.symm.trans hf) Bool.noConfusion
    have hpart : part.endsOnAnchor = true :=
      State.Settled.endsOnAnchor (s := state) h hmatched hcrossed
    exact hpart

/-- A settled row that is matched only after anchors are crossed may end on an anchor, or a way
arrived at it and all of it may be skipped. -/
theorem States.RowSettled.rowEndsOnAnchor {e : Edges} : {rs : List Regex} → {s : States rs} →
    {arriving : Bool} → s.RowSettled .none → s.lastMatched = false →
    (s.crossInRow e arriving).lastMatched = true →
    Regex.rowEndsOnAnchor rs = true ∨ arriving = true ∧ Regex.allSkippable rs = true
  | [], .nil, _, _, _, hc => Bool.noConfusion hc
  | [r], .cons first .nil, arriving, h, hm, hc => by
    have hfirst : first.matched = false := hm
    have hentered : ((first.startIf arriving).cross e).matched = true := hc
    cases hs : (first.startIf arriving).matched with
    | false =>
      have hends := (State.Settled.startIf h.1 arriving).endsOnAnchor hs hentered
      exact .inl (by simp [Regex.rowEndsOnAnchor, Regex.allSkippable, hends])
    | true =>
      have hunmatched : ¬ first.matched = true := Bool.eq_false_iff.1 hfirst
      obtain ⟨harriving, hskip⟩ := h.1.skippable_of_startIf hunmatched hs
      exact .inr ⟨harriving, by rw [Regex.allSkippable, hskip, Regex.allSkippable, Bool.and_self]⟩
  | r :: _ :: _, .cons first rest, arriving, h, hm, hc => by
    rcases States.RowSettled.rowEndsOnAnchor (s := rest) h.2.2 hm hc with hends | ⟨hnew, hskip⟩
    · exact .inl (by rw [Regex.rowEndsOnAnchor, hends, Bool.true_or])
    · simp only [Bool.and_eq_true, Bool.not_eq_true'] at hnew
      have hends := (State.Settled.startIf h.1 arriving).endsOnAnchor hnew.1 hnew.2
      exact .inl (by rw [Regex.rowEndsOnAnchor, hends, hskip, Bool.and_self, Bool.or_true])

theorem States.AllSettled.anyEndsOnAnchor {e : Edges} : {rs : List Regex} → {s : States rs} →
    s.AllSettled .none → s.anyMatched = false → (s.crossAll e).anyMatched = true →
    Regex.anyEndsOnAnchor rs = true
  | [], .nil, _, _, hc => hc
  | _ :: _, .cons _ _, h, hm, hc => by
    obtain ⟨hfirst, hrest⟩ := Bool.or_eq_false_iff.1 hm
    rcases Bool.or_eq_true_iff.1 hc with hc | hc
    · exact Bool.or_eq_true_iff.2 (.inl (State.Settled.endsOnAnchor h.1 hfirst hc))
    · exact Bool.or_eq_true_iff.2 (.inr (States.AllSettled.anyEndsOnAnchor h.2 hrest hc))

end

/-! ## Crossing settles a state -/

mutual

/-- Crossing anchors settles a state if the crossing or the expression keeps arrivals,
and a state that is started stays so. -/
theorem State.Settled.crossBy {keeping : Bool} {e : Edges} : {r : Regex} → {s : State r} →
    (keeping = false → r.keepsArrivals = true) → s.Settled .none →
    (s.crossBy keeping e).Settled e ∧
      (s.start = s → (s.crossBy keeping e).start = s.crossBy keeping e)
  | .set _, .set _ _, _, _ => ⟨trivial, id⟩
  | .literal _, .literal _, _, _ => ⟨trivial, id⟩
  | .anchor anchor, .anchor before after, _, _ => by
    refine ⟨fun hb hsat => ?_, fun hstart => ?_⟩
    · simp [hb, hsat]
    · simp only [State.start, State.anchor.injEq] at hstart
      simp [State.crossBy, State.start, ← hstart.1]
  | .concat _, .concat stuck states, hk, h => by
    obtain ⟨hsettled, hstart⟩ := States.RowSettled.crossInRowBy (s := states) hk
      (fun _ (hlate : false = true) => hlate) h
    refine ⟨hsettled, fun hs => ?_⟩
    simp only [State.start, State.concat.injEq] at hs
    simp only [State.crossBy, State.start, hs.1, hstart (.inr hs.2)]
  | .alternation _, .alternation states, hk, h => by
    obtain ⟨hsettled, hstart⟩ := States.AllSettled.crossAllBy (s := states) hk h
    refine ⟨hsettled, fun hs => ?_⟩
    simp only [State.start, State.alternation.injEq] at hs
    simp only [State.crossBy, State.start, hstart hs]
  | .repetition part, .repetition state, hk, h => by
    have hpart : keeping = false → part.keepsArrivals = true := hk
    obtain ⟨hsettled, hstart⟩ := State.Settled.crossBy (e := e) hpart h.1
    obtain ⟨hagain, hrestart⟩ := State.Settled.crossBy (e := e) hpart hsettled.weaken.start
    cases hnew : !state.matched && (state.crossBy keeping e).matched with
    | true =>
      -- The part is matched only now: the second pass begins from a started state.
      have hdone := hrestart (State.start_start _)
      simp only [State.crossBy, hnew, if_true, State.Settled, State.start,
        State.repetition.injEq]
      exact ⟨⟨hagain, fun _ => hdone⟩, fun _ => hdone⟩
    | false =>
      have hold (hm : (state.crossBy keeping e).matched = true) : state.matched = true := by
        simpa [hm] using hnew
      simp only [State.crossBy, hnew, State.Settled, State.start, State.repetition.injEq]
      exact ⟨⟨hsettled, fun hm => hstart (h.2 (hold hm))⟩, hstart⟩
  | .optional part, .optional fresh state, hk, h => by
    have hpart : keeping = false → part.keepsArrivals = true := hk
    obtain ⟨hsettled, hstart⟩ := State.Settled.crossBy (e := e) (s := state) hpart h
    refine ⟨hsettled, fun hs => ?_⟩
    simp only [State.start, State.optional.injEq] at hs
    simp only [State.crossBy, State.start, hs.1, hstart hs.2]

/-- Crossing anchors settles a row, and if it was started, by then or by a way that arrives, it
stays so. A way may arrive at its first expression only where the row allows for that. -/
theorem States.RowSettled.crossInRowBy {keeping : Bool} {e : Edges} : {rs : List Regex} →
    {s : States rs} → {arriving late : Bool} →
    (keeping = false → Regex.rowKeepsArrivals late rs = true) →
    (keeping = false → arriving = true → late = true) → s.RowSettled .none →
    (s.crossInRowBy keeping e arriving).RowSettled e ∧
      (arriving = true ∨ s.startFirst = s →
        (s.crossInRowBy keeping e arriving).startFirst = s.crossInRowBy keeping e arriving)
  | [], .nil, _, _, _, _, _ => ⟨trivial, fun _ => rfl⟩
  | r :: rs, .cons first rest, arriving, late, hk, hlate, h => by
    simp only [Regex.rowKeepsArrivals, Bool.and_eq_true] at hk
    have hentered := State.Settled.startIf h.1 arriving
    obtain ⟨hfirst, hfirstStart⟩ :=
      State.Settled.crossBy (e := e) (fun hkeep => (hk hkeep).1.1) hentered
    have hends (hkeep : keeping = false)
        (hnew : (!(if keeping then first.matched else (first.startIf arriving).matched) &&
          ((first.startIf arriving).crossBy keeping e).matched) = true) :
        r.endsOnAnchor = true := by
      subst hkeep
      simp only [Bool.false_eq_true, if_false, Bool.and_eq_true, Bool.not_eq_true',
        State.crossBy_false] at hnew
      exact hentered.endsOnAnchor hnew.1 hnew.2
    obtain ⟨hrest, hrestStart⟩ :=
      States.RowSettled.crossInRowBy (e := e) (fun hkeep => (hk hkeep).2) hends h.2.2
    -- What follows a matched part is started: either it was, or a way arrives at
    -- it now, or the part is skipped by a late arrival and then nothing follows.
    have hnext (hm : ((first.startIf arriving).crossBy keeping e).matched = true) :
        (rest.crossInRowBy keeping e
          (!(if keeping then first.matched else (first.startIf arriving).matched) &&
            ((first.startIf arriving).crossBy keeping e).matched)).startFirst =
        rest.crossInRowBy keeping e
          (!(if keeping then first.matched else (first.startIf arriving).matched) &&
            ((first.startIf arriving).crossBy keeping e).matched) := by
      by_cases hmatched : first.matched = true
      · exact hrestStart (.inr (h.2.1 hmatched))
      cases keeping with
      | true => exact hrestStart (.inl (by simp [hmatched, hm]))
      | false =>
        by_cases hstarted : (first.startIf arriving).matched = true
        · obtain ⟨harriving, hskip⟩ := h.1.skippable_of_startIf hmatched hstarted
          have hend : rs = [] := by simpa [hlate rfl harriving, hskip] using (hk rfl).1.2
          subst hend
          cases rest
          rfl
        · exact hrestStart (.inl (by simp [hstarted, hm]))
    refine ⟨⟨hfirst, hnext, hrest⟩, fun harrived => ?_⟩
    refine States.startFirst_cons (hfirstStart ?_) hnext
    cases arriving with
    | true => exact State.start_start first
    | false =>
      have hstart := harrived.resolve_left Bool.noConfusion
      simp only [States.startFirst, States.cons.injEq] at hstart
      exact hstart.1

theorem States.AllSettled.crossAllBy {keeping : Bool} {e : Edges} : {rs : List Regex} →
    {s : States rs} → (keeping = false → Regex.allKeepArrivals rs = true) →
    s.AllSettled .none →
    (s.crossAllBy keeping e).AllSettled e ∧
      (s.startAll = s → (s.crossAllBy keeping e).startAll = s.crossAllBy keeping e)
  | [], .nil, _, _ => ⟨trivial, fun _ => rfl⟩
  | _ :: _, .cons _ _, hk, h => by
    simp only [Regex.allKeepArrivals, Bool.and_eq_true] at hk
    obtain ⟨hfirst, hfirstStart⟩ :=
      State.Settled.crossBy (e := e) (fun hkeep => (hk hkeep).1) h.1
    obtain ⟨hrest, hrestStart⟩ :=
      States.AllSettled.crossAllBy (e := e) (fun hkeep => (hk hkeep).2) h.2
    refine ⟨⟨hfirst, hrest⟩, fun hs => ?_⟩
    simp only [States.startAll, States.cons.injEq] at hs
    simp only [States.crossAllBy, States.startAll, hfirstStart hs.1, hrestStart hs.2]

end

end PhraseGrammar
