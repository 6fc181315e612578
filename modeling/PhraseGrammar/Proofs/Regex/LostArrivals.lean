import PhraseGrammar.Proofs.Regex.KeptArrivals

/-!
# Which anchored expressions are matched to the end

An expression that keeps arrivals is matched at least as far as every match, with
anchors anywhere in it. The condition cannot be dropped: in a sequence `p q …` whose
first part is passed only across an anchor and whose second part may be skipped, no
way that skips the second part gets to the third (`Regex.not_started_by_skipping`).
For such sequences, if the first part matches the empty piece at the start of every
text, the condition is exact. For all expressions a match is missed exactly where the
answer is not that of a matching that keeps every arrival; see `Regex.anchored_findsAll`.
-/

set_option autoImplicit false

namespace PhraseGrammar

namespace Regex

variable {opts : RegexOptions} {text : Bytes} {origin : Nat}

mutual

/-- An expression that may be skipped matches the empty piece everywhere. -/
theorem matches_of_skippable {a : Nat} : {r : Regex} → r.skippable = true →
    Matches opts text origin r a a
  | .literal bytes, h => by
    obtain rfl := List.isEmpty_iff.1 h
    have hm : Matches opts text origin (.literal []) a (a + 0) := .literal List.nil_prefix
    exact hm
  | .concat parts, h => by
    simp only [skippable, Bool.and_eq_true] at h
    exact .concat (matchesRow_of_allSkippable h.2)
  | .alternation parts, h => by
    obtain ⟨part, hmem, hm⟩ :=
      exists_matches_of_anySkippable (a := a) (show anySkippable parts = true from h)
    exact .alternation hmem hm
  | .repetition part, h => .once (matches_of_skippable (r := part) h)
  | .optional _, _ => .absent

theorem matchesRow_of_allSkippable {a : Nat} : {rs : List Regex} → allSkippable rs = true →
    MatchesRow opts text origin rs a a
  | [], _ => .nil
  | _ :: _, h => by
    simp only [allSkippable, Bool.and_eq_true] at h
    exact .cons (matches_of_skippable h.1) (matchesRow_of_allSkippable h.2)

theorem exists_matches_of_anySkippable {a : Nat} : {rs : List Regex} → anySkippable rs = true →
    ∃ r ∈ rs, Matches opts text origin r a a
  | [], h => Bool.noConfusion h
  | r :: rs, h => by
    rcases Bool.or_eq_true_iff.1 h with h | h
    · exact ⟨r, List.mem_cons_self, matches_of_skippable h⟩
    · obtain ⟨r', hr', hm⟩ := exists_matches_of_anySkippable (a := a) h
      exact ⟨r', List.mem_cons_of_mem _ hr', hm⟩

end

section

variable {p q : Regex} {rest : List Regex}

/-- The states of a sequence `p q …` at position `b` are justified, and the parts
after `q` by ways that have read a byte before them. -/
structure LateRest (opts : RegexOptions) (text : Bytes) (origin b : Nat)
    (s : States (p :: q :: rest)) : Prop where
  first : s.head.Justified opts text origin b (· = origin)
  second : s.tail.head.Justified opts text origin b (ends opts text origin p (· = origin))
  others : s.tail.tail.RowJustified opts text origin b fun c =>
    origin < c ∧ ends opts text origin q (ends opts text origin p (· = origin)) c

/-- At the first position the way that crosses an anchor and skips `q` is lost. -/
theorem lateRest_origin (hp : p.skippable = false) (hq : q.skippable = true)
    (hfree : q.anchorFree = true) :
    LateRest opts text origin origin
      (marksAt opts text origin (.concat (p :: q :: rest)) 0).row := by
  have hunmatched : (State.idle p).start.matched = false := by
    rw [State.Settled.matched_start (State.settled_idle p), State.matched_idle, hp, Bool.or_false]
  have hstarted : (marksBefore opts text origin (.concat (p :: q :: rest)) 0).row =
      .cons (State.idle p).start (.cons (State.idle q) (States.idle rest)) := by
    show States.startFirst (.cons (State.idle p) (.cons (State.idle q) (States.idle rest))) = _
    rw [States.startFirst, hunmatched]
    rfl
  have hcrossed : (marksAt opts text origin (.concat (p :: q :: rest)) 0).row =
      (marksBefore opts text origin (.concat (p :: q :: rest)) 0).row.crossInRow
        (.around opts text origin origin) false := rfl
  have hfirst : (State.idle p).start.Justified opts text origin origin (· = origin) :=
    (State.justified_idle p _).start rfl
  -- A way arrives at `q` if `p` is matched by the crossing. Either way `q` is not
  -- matched by it: it is matched before, or it has no mark.
  have hlost (arriving : Bool) :
      (!((State.idle q).startIf arriving).matched &&
        (((State.idle q).startIf arriving).cross (.around opts text origin origin)).matched) =
      false := by
    cases arriving with
    | true =>
      have hmatched : ((State.idle q).startIf true).matched = true := by
        show (State.idle q).start.matched = true
        rw [State.Settled.matched_start (State.settled_idle q), hq, Bool.or_true]
      rw [hmatched]
      rfl
    | false =>
      refine Bool.and_eq_false_iff.2 (.inr (Bool.eq_false_iff.2 fun hm => ?_))
      have hends := (State.settled_idle q).endsOnAnchor (State.matched_idle q) hm
      rw [endsOnAnchor_of_anchorFree hfree] at hends
      exact Bool.noConfusion hends
  rw [hcrossed, hstarted]
  simp only [States.crossInRow, hlost]
  refine ⟨?_, ?_, ?_⟩
  · exact (hfirst.startIf fun _ => rfl).cross
  · refine ((State.justified_idle q _).startIf fun hm => ?_).cross
    simp only [Bool.and_eq_true] at hm
    exact (hfirst.startIf fun _ => rfl).cross.matched hm.2
  · exact (States.rowJustified_idle rest _).crossInRow Bool.noConfusion

/-- Moving over a byte keeps the parts after `q` late. -/
theorem LateRest.advanceInRow {b : Nat} {c : UInt8} (hb : origin ≤ b) (hc : text[b]? = some c) :
    {s : States (p :: q :: rest)} → LateRest opts text origin b s →
    LateRest opts text origin (b + 1) (s.advanceInRow c false)
  | .cons _ (.cons _ _), h => by
    have hfirst := (State.Justified.advance hc h.first).startIf
      fun hstart : false = true => Bool.noConfusion hstart
    have hsecond := (State.Justified.advance hc h.second).startIf hfirst.matched
    exact ⟨hfirst, hsecond, States.RowJustified.advanceInRow hc h.others fun hm =>
      ⟨by omega, hsecond.matched hm⟩⟩

/-- Crossing anchors after the first position keeps the parts after `q` late. -/
theorem LateRest.crossInRow {b : Nat} (hb : origin < b) :
    {s : States (p :: q :: rest)} → LateRest opts text origin b s →
    LateRest opts text origin b (s.crossInRow (.around opts text origin b) false)
  | .cons sp (.cons sq _), h => by
    have hfirst : ((sp.startIf false).cross (.around opts text origin b)).Justified
        opts text origin b (· = origin) :=
      State.Justified.cross (h.first.startIf Bool.noConfusion)
    have hsecond := State.Justified.cross (h.second.startIf
      fun hm : (!(sp.startIf false).matched &&
          ((sp.startIf false).cross (.around opts text origin b)).matched) = true => by
        simp only [Bool.and_eq_true] at hm
        exact hfirst.matched hm.2)
    refine ⟨hfirst, hsecond, States.RowJustified.crossInRow h.others fun hm => ⟨hb, ?_⟩⟩
    simp only [Bool.and_eq_true] at hm
    exact hsecond.matched hm.2

/-- The parts after `q` stay late along the text. -/
theorem lateRest_marksAt (opts : RegexOptions) (rest : List Regex)
    (hp : p.skippable = false) (hq : q.skippable = true) (hfree : q.anchorFree = true) (k : Nat)
    (hk : origin + k ≤ text.length) :
    LateRest opts text origin (origin + k)
      (marksAt opts text origin (.concat (p :: q :: rest)) k).row := by
  induction k with
  | zero => exact lateRest_origin hp hq hfree
  | succ k ih =>
    have hlt : origin + k < text.length := by omega
    have hc : text[origin + k]? = some (text.after (origin + k)) := by
      simp [Bytes.after, List.getElem?_eq_getElem hlt]
    have hrow : (marksAt opts text origin (.concat (p :: q :: rest)) (k + 1)).row =
        ((marksAt opts text origin (.concat (p :: q :: rest)) k).row.advanceInRow
          (text.after (origin + k)) false).crossInRow
          (.around opts text origin (origin + (k + 1))) false := by
      rw [marksAt_succ]
      cases marksAt opts text origin (.concat (p :: q :: rest)) k
      rfl
    rw [hrow]
    exact ((ih (by omega)).advanceInRow (by omega) hc).crossInRow (by omega)

/-- In a sequence `p q …` whose first part is passed only across an anchor and whose
second part may be skipped, the other parts match from a later position only. -/
theorem not_started_by_skipping (hp : p.skippable = false) (hq : q.skippable = true)
    (hfree : q.anchorFree = true) (hrest : rest ≠ []) {k : Nat}
    (h : MatchedAt opts text origin (.concat (p :: q :: rest)) k) :
    ∃ c, origin < c ∧ MatchesRow opts text origin rest c (origin + k) := by
  have hlate := lateRest_marksAt opts rest hp hq hfree k h.1
  have hm := h.2
  rw [State.matched_eq_row] at hm
  obtain ⟨r, rs, rfl⟩ := List.exists_cons_of_ne_nil hrest
  have hlast : (marksAt opts text origin (.concat (p :: q :: r :: rs)) k).row.tail.tail.lastMatched
      = true := by
    generalize (marksAt opts text origin (.concat (p :: q :: r :: rs)) k).row = s at hm
    match s, hm with
    | .cons _ (.cons _ _), hm => exact hm
  obtain ⟨c, hc, hrow⟩ := hlate.others.lastMatched hlast
  exact ⟨c, hc.1, hrow⟩

end

theorem MatchesRow.alone {rs : List Regex} {a b : Nat} (h : MatchesRow opts text origin rs a b)
    (hfree : allAnchorFree rs = true) (ha : a ≤ text.length) :
    MatchesRow opts ((text.drop a).take (b - a)) 0 rs 0 ((text.drop a).take (b - a)).length := by
  have hlength : ((text.drop a).take (b - a)).length = b - a := by
    have := h.le_length ha
    simp only [List.length_take, List.length_drop]
    omega
  rw [hlength]
  have hmoved := h.move ((text.drop a).take (b - a)) 0 0 hfree
    fun i hi => by
      rw [Nat.zero_add, List.getElem?_take_of_lt (by omega), List.getElem?_drop]
  rwa [Nat.zero_add] at hmoved

/-- Expressions that match some text in a row match one such that they match no shorter one. -/
theorem exists_shortest {rs : List Regex} (h : ∃ text, MatchesRow opts text 0 rs 0 text.length) :
    ∃ text, MatchesRow opts text 0 rs 0 text.length ∧
      ∀ other, MatchesRow opts other 0 rs 0 other.length → text.length ≤ other.length := by
  obtain ⟨text, ht⟩ := h
  induction hn : text.length using Nat.strongRecOn generalizing text with
  | ind n ih =>
    by_cases hmin : ∀ other, MatchesRow opts other 0 rs 0 other.length →
        text.length ≤ other.length
    · exact ⟨text, ht, hmin⟩
    · simp only [Classical.not_forall, Nat.not_le] at hmin
      obtain ⟨other, hother, hlt⟩ := hmin
      exact ih other.length (hn ▸ hlt) other hother rfl

/-- A sequence `p q …` does not match a text to its end, if the parts after `q` match no
shorter text, `p` is passed only across an anchor and `q` may be skipped. -/
theorem misses_shortest (opts : RegexOptions) {p q : Regex} {rest : List Regex}
    (hp : p.skippable = false)
    (hproper : (Regex.concat (p :: q :: rest)).isProper = true)
    (hq : q.skippable = true) (hqfree : q.anchorFree = true) (hrest : rest ≠ [])
    (hfree : allAnchorFree rest = true)
    (hmin : ∀ other, MatchesRow opts other 0 rest 0 other.length → text.length ≤ other.length) :
    ¬ ∃ j, (Regex.concat (p :: q :: rest)).consume opts text 0 = .ok (some j) ∧
      text.length ≤ j := by
  rintro ⟨j, hj, hlength⟩
  obtain ⟨result, hresult, hlongest⟩ :=
    consume_eq opts hproper (Nat.zero_le text.length)
  rcases hlongest with ⟨rfl, _⟩ | ⟨k, _, rfl, hm, _⟩
  · rw [hresult] at hj
    cases hj
  · rw [hresult] at hj
    simp only [Option.map_some, Except.ok.injEq, Option.some.injEq] at hj
    obtain ⟨c, hc, hrow⟩ := not_started_by_skipping hp hq hqfree hrest hm
    have hk := hm.1
    have hcle := hrow.le
    have hshort := hmin _ (hrow.alone hfree (by omega))
    simp only [List.length_take, List.length_drop] at hshort
    omega

/-- A sequence with anchors in its first part only keeps arrivals if that part does and no
second part that may be skipped is followed by others. -/
theorem keepsArrivals_of_first {p q : Regex} {rest : List Regex} (hp : p.keepsArrivals = true)
    (hq : q.anchorFree = true) (hrest : allAnchorFree rest = true)
    (hgap : ¬ (q.skippable = true ∧ rest ≠ [])) :
    (Regex.concat (p :: q :: rest)).keepsArrivals = true := by
  have hsecond : (!(p.endsOnAnchor && q.skippable) || rest.isEmpty) = true := by
    cases hskip : q.skippable with
    | false => simp
    | true =>
      have hnil : rest = [] := Classical.byContradiction fun hne => hgap ⟨hskip, hne⟩
      simp [hnil]
  simp only [keepsArrivals, rowKeepsArrivals, hp, hsecond, keepsArrivals_of_anchorFree hq,
    endsOnAnchor_of_anchorFree hq, rowKeepsArrivals_of_allAnchorFree hrest]
  rfl

/-- A matching that keeps every arrival reaches all matches of every expression, with
anchors anywhere in it, and the simulation does so in a text exactly if it gives the same
answer. It does so in all texts if the expression keeps arrivals by its shape.

The shape is exact for sequences `p q rest` with anchors in `p` only, where `p` keeps
arrivals, may not be skipped and matches the empty piece at the start of every text, as
`^` does: if the sequence keeps no arrivals, that is if `q` may be skipped and something
follows, then some match is missed, unless `rest` matches no text at all. -/
theorem anchored_findsAll (r : Regex) (hr : r.isProper = true) :
    (∀ (opts : RegexOptions) (text : Bytes) (i : Nat), i ≤ text.length →
      (∀ e, Matches opts text i r i e →
        ∃ j, r.consumeKeeping opts text i = some j ∧ e ≤ j) ∧
      (r.FindsAllAt opts text i ↔
        r.consume opts text i = .ok (r.consumeKeeping opts text i))) ∧
    (r.keepsArrivals = true → r.FindsAll) ∧
    ∀ (p q : Regex) (rest : List Regex), r = .concat (p :: q :: rest) →
      p.skippable = false → p.keepsArrivals = true →
      (∀ (opts : RegexOptions) (text : Bytes), Matches opts text 0 p 0 0) →
      q.anchorFree = true → allAnchorFree rest = true →
      (r.FindsAll ↔ r.keepsArrivals = true ∨
        ∀ (opts : RegexOptions) (text : Bytes), ¬ MatchesRow opts text 0 rest 0 text.length) := by
  have hkept : r.keepsArrivals = true → r.FindsAll :=
    fun hk opts text i hi e h => consume_reaches hr hk hi h
  refine ⟨fun opts text i hi => ?_, hkept, ?_⟩
  · exact ⟨fun e h => exists_consumeKeeping hr hi h, findsAllAt_iff opts hr hi⟩
  intro p q rest hsequence hp hpkeeps hstart hqfree hfree
  constructor
  · intro hall
    by_cases hgap : q.skippable = true ∧ rest ≠ []
    · refine .inr fun opts text hsome => ?_
      obtain ⟨shortest, hs, hmin⟩ := exists_shortest ⟨text, hsome⟩
      have hproper : (Regex.concat (p :: q :: rest)).isProper = true := hsequence ▸ hr
      refine misses_shortest opts hp hproper hgap.1 hqfree hgap.2 hfree hmin ?_
      rw [← hsequence]
      refine hall opts shortest 0 (Nat.zero_le _) shortest.length ?_
      rw [hsequence]
      exact .concat (.cons (hstart opts shortest) (.cons (matches_of_skippable hgap.1) hs))
    · refine .inl ?_
      rw [hsequence]
      exact keepsArrivals_of_first hpkeeps hqfree hfree hgap
  · rintro (hk | hnone)
    · exact hkept hk
    · intro opts text i hi e h
      rw [hsequence] at h
      cases h with
      | concat h => cases h with
        | cons hfirst h => cases h with
          | cons hmiddle h =>
            have ha := hmiddle.le_length (hfirst.le_length hi)
            exact absurd (h.alone hfree ha) (hnone _ _)

/-- `^ 'b' 'a'?` finds every match, and `^ 'a'? 'b'` does not: in `b` it has no answer,
where one byte is consumed if every arrival is kept. -/
theorem anchored_findsAll_optional :
    (Regex.concat [.anchor .lineStart, .literal (ascii "b"),
      .optional (.literal (ascii "a"))]).FindsAll ∧
    let r := Regex.concat [.anchor .lineStart, .optional (.literal (ascii "a")),
      .literal (ascii "b")]
    ¬ r.FindsAll ∧ ¬ r.FindsAllAt .default (ascii "b") 0 ∧
      r.consumeKeeping .default (ascii "b") 0 = some 1 := by
  refine ⟨(anchored_findsAll _ rfl).2.1 rfl, ?_⟩
  intro r
  have hm : Matches .default (ascii "b") 0 r 0 1 :=
    .concat (.cons (.anchor rfl) (.cons .absent (.cons (.literal (List.prefix_refl _)) .nil)))
  have hkeeping : r.consumeKeeping .default (ascii "b") 0 = some 1 :=
    (consumeKeeping_eq_some_iff rfl (Nat.zero_le _) 1).2
      ⟨hm, fun e h => h.le_length (Nat.zero_le _)⟩
  refine ⟨fun hall => ?_, fun hall => ?_, hkeeping⟩
  · have hexact := (anchored_findsAll r rfl).2.2 (.anchor .lineStart)
      (.optional (.literal (ascii "a"))) [.literal (ascii "b")] rfl rfl rfl
      (fun opts text => .anchor rfl) rfl rfl
    rcases hexact.1 hall with hkept | hnone
    · exact absurd hkept (by decide)
    · exact hnone .default (ascii "b") (.cons (.literal (List.prefix_refl _)) .nil)
  · have hsame := ((anchored_findsAll r rfl).1 .default (ascii "b") 0 (Nat.zero_le _)).2.1 hall
    have hnone : (Regex.concat [.anchor .lineStart, .optional (.literal (ascii "a")),
        .literal (ascii "b")]).consume .default (ascii "b") 0 = .ok none := rfl
    rw [hkeeping, hnone] at hsame
    cases hsame

/-- At the start of `b`, the expression `^ 'a'? 'b'` matches one byte, and none is consumed. -/
theorem skip_after_anchor_missed :
    ∃ r : Regex, r.isProper = true ∧ Matches .default (ascii "b") 0 r 0 1 ∧
      r.consume .default (ascii "b") 0 = .ok none := by
  refine ⟨.concat [.anchor .lineStart, .optional (.literal (ascii "a")), .literal (ascii "b")],
    rfl, ?_, rfl⟩
  exact .concat (.cons (.anchor rfl) (.cons .absent (.cons (.literal (List.prefix_refl _)) .nil)))

end Regex

end PhraseGrammar
