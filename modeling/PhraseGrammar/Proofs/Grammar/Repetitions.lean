import PhraseGrammar.Proofs.Grammar.Mismatches
import PhraseGrammar.Proofs.Grammar.Refinement
import PhraseGrammar.Proofs.Match.Reports

/-!
# Repeated lines in a description

A choice merges the descriptions of its furthest components and leaves out those that it has
already. It compares them as a whole. A component that is a choice itself, or a row that fails in
one, may bring several lines in one description, and a line among them is not noticed if it is
also in another description.

The report of a rule that fails (`Rule.finding`) keeps what was merged where. No line of a
description is given twice if no merge in its report is of descriptions with a line in common;
and the converse holds too as long as there is only one way to read the lines off the
description, that is if no leaf has a newline in its source.
-/

set_option autoImplicit false

namespace PhraseGrammar

namespace Rule

mutual

/-- What is found where a rule fails on a text. An optional does not fail. -/
def finding (env : MatchEnv) : Rule → Bytes → Finding
  | .leaf _ source _, text => ⟨0, .line (leafMismatch source text)⟩
  | .compound _ .sequence parts, text => findingInRow env text parts 0
  | .compound _ .choice parts, text => .furthest (findings env text parts)
  | .compound _ .optional _, _ => ⟨0, .merged []⟩

/-- What is found where each of several rules fails on a text. -/
def findings (env : MatchEnv) (text : Bytes) : List Rule → List Finding
  | [] => []
  | part :: parts => part.finding env text :: findings env text parts

/-- What is found where one of the components of a row fails, which are matched from position
`pos` of a text on. -/
def findingInRow (env : MatchEnv) (text : Bytes) : List Rule → (pos : Nat) → Finding
  | [], pos => ⟨pos.toUInt64, .merged []⟩
  | part :: parts, pos =>
    match part.matchText env (text.drop pos) with
    | .ok (.matched m) => findingInRow env text parts (pos + m.size)
    | .ok .skipped => findingInRow env text parts pos
    | _ => (part.finding env (text.drop pos)).rebased pos.toUInt64

end

mutual

/-- How many choices are nested in a rule. What is in an optional does not count, for an optional
does not fail. -/
def choiceDepth : Rule → Nat
  | .leaf _ _ _ => 0
  | .compound _ .sequence parts => maxChoiceDepth parts
  | .compound _ .choice parts => maxChoiceDepth parts + 1
  | .compound _ .optional _ => 0

/-- The greatest number of choices that are nested in one of several rules. -/
def maxChoiceDepth : List Rule → Nat
  | [] => 0
  | part :: parts => max part.choiceDepth (maxChoiceDepth parts)

end

/-- The description of a mismatch lists what leaves say that fail where it points, nothing of it
twice. -/
def ListsDistinctly (opts : RegexOptions) (r : Rule) (text : Bytes) (mm : Mismatch) : Prop :=
  ∃ lines, IsRead (r.LeafFails opts (text.drop mm.position.toNat)) mm.description lines ∧
    lines.Nodup

variable {env : MatchEnv}

/-- A leaf that fails says so. -/
theorem finding_of_matchLeaf {n : Nat} {source text : Bytes} {regex : Regex} {mm : Mismatch}
    (h : matchLeaf env.options source regex text = .ok (.failed mm)) :
    ((leaf n source regex).finding env text).mismatch = mm ∧
      ((leaf n source regex).finding env text).IsBacked
        ((leaf n source regex).LeafFails env.options) text := by
  unfold matchLeaf at h
  split at h
  · cases h
  · cases h
  · next hnone =>
    cases h
    rw [finding]
    refine ⟨?_, List.cons_ne_nil _ _, ?_⟩
    · rw [Finding.mismatch, Report.description, Report.lines, inLines_singleton]
    · intro line hline
      rw [List.mem_singleton.1 hline]
      exact ⟨n, source, regex, mem_subrules_self _, hnone, rfl⟩

mutual

/-- The mismatch of a rule has the text of its report, and the lines of that are what leaves below
the rule say that fail. -/
theorem finding_of_matchText : (r : Rule) → {text : Bytes} → {mm : Mismatch} →
    text.length < UInt64.size → r.matchText env text = .ok (.failed mm) →
    (r.finding env text).mismatch = mm ∧
      (r.finding env text).IsBacked (r.LeafFails env.options) text
  | .leaf _ source regex, text, mm, _, h => by
    rw [matchText] at h
    exact finding_of_matchLeaf h
  | .compound n .sequence parts, text, mm, hsize, h => by
    rw [matchText] at h
    split at h
    · cases h
    · rw [finding]
      exact finding_of_matchRow parts (.compound n .sequence parts) (fun part hpart => hpart)
        hsize h
  | .compound n .optional parts, text, mm, _, h => by
    rw [matchText] at h
    split at h
    · cases h
    · split at h
      · cases h
      · next hmatched => exact absurd h (hmatched mm)
  | .compound n .choice parts, text, mm, hsize, h => by
    rw [matchText] at h
    rw [finding]
    exact finding_of_matchFirst parts (.compound n .choice parts) (fun part hpart => hpart)
      hsize [] (fun f hf => (List.not_mem_nil hf).elim) h

/-- The report of components in a row is that of the component that fails. -/
theorem finding_of_matchRow : (parts : List Rule) → (owner : Rule) →
    (∀ part ∈ parts, part ∈ owner.parts) → {text : Bytes} → {placements : List Placement} →
    {slots : Slots} → {pos : Nat} → {mm : Mismatch} → text.length < UInt64.size →
    matchRow env text parts placements slots pos = .ok (.failed mm) →
    (findingInRow env text parts pos).mismatch = mm ∧
      (findingInRow env text parts pos).IsBacked (owner.LeafFails env.options) text
  | [], _, _, text, placements, slots, pos, mm, _, h => by
    simp [matchRow] at h
  | part :: parts, _, _, text, [], slots, pos, mm, _, h => by
    simp [matchRow] at h
  | part :: parts, owner, howner, text, placement :: placements, slots, pos, mm, hsize, h => by
    obtain ⟨hpart, hparts⟩ := List.forall_mem_cons.1 howner
    rw [matchRow] at h
    split at h
    · cases h
    · next hinside =>
      have hpos : pos ≤ text.length := Nat.not_lt.1 hinside
      split at h
      · cases h
      · next failure hfailure =>
        cases h
        have hrest : (text.drop pos).length < UInt64.size := by
          rw [List.length_drop]
          omega
        obtain ⟨rfl, hbacked⟩ := finding_of_matchText part hrest hfailure
        have hpoints := pointsAt_of_matchText part hrest hfailure
        rw [findingInRow, hfailure]
        exact ⟨rfl, (hbacked.imp (LeafFails.of_part hpart)).rebased hpoints hpos hsize⟩
      · next hskipped =>
        rw [findingInRow, hskipped]
        exact finding_of_matchRow parts owner hparts hsize h
      · next m hmatched =>
        rw [findingInRow, hmatched]
        split at h
        · cases h
        · exact finding_of_matchRow parts owner hparts hsize h

/-- The report of a choice is merged from the furthest reports of its components. What was found in
the components before is in `before`. -/
theorem finding_of_matchFirst : (parts : List Rule) → (owner : Rule) →
    (∀ part ∈ parts, part ∈ owner.parts) → {text : Bytes} → {i : Nat} → {mm : Mismatch} →
    text.length < UInt64.size → (before : List Finding) →
    (∀ f ∈ before, f.IsBacked (owner.LeafFails env.options) text) →
    matchFirst env owner text parts i (before.map Finding.mismatch) = .ok (.failed mm) →
    (Finding.furthest (before ++ findings env text parts)).mismatch = mm ∧
      (Finding.furthest (before ++ findings env text parts)).IsBacked
        (owner.LeafFails env.options) text
  | [], owner, _, text, i, mm, _, before, hbefore, h => by
    rw [matchFirst] at h
    obtain ⟨furthest, hfurthest, hmm⟩ := exists_of_map_eq_ok h
    cases hmm
    obtain ⟨hne, -⟩ := Mismatch.furthest_eq_ok hfurthest
    rw [findings, List.append_nil]
    exact ⟨Finding.mismatch_furthest (fun rest line => LeafFails.ne_nil) hbefore hfurthest,
      .furthest (mt List.map_eq_nil_iff.2 hne) hbefore⟩
  | part :: parts, owner, howner, text, i, mm, hsize, before, hbefore, h => by
    obtain ⟨hpart, hparts⟩ := List.forall_mem_cons.1 howner
    rw [matchFirst] at h
    split at h
    · cases h
    · next failure hfailure =>
      obtain ⟨rfl, hbacked⟩ := finding_of_matchText part hsize hfailure
      rw [findings, List.append_cons]
      refine finding_of_matchFirst parts owner hparts (i := i + 1) hsize _ ?_ ?_
      · intro f hf
        rcases List.mem_append.1 hf with hearlier | hlast
        · exact hbefore f hearlier
        · rw [List.mem_singleton.1 hlast]
          exact hbacked.imp (LeafFails.of_part hpart)
      · rw [List.map_append]
        exact h
    · obtain ⟨layout, -, hmatched⟩ := exists_of_map_eq_ok h
      cases hmatched
    · split at h
      · cases h
      · exact absurd h (chosen_ne_failed _ _ _ _ _)

end

/-! ## Reading lines off a description -/

/-- What all leaves say that fail on a text, up to their sources. -/
def leafOpening (text : Bytes) : Bytes :=
  if text.isEmpty then ascii "reached end of input but expected " ++ ['"'.toUInt8]
  else quoted text ++ ascii " does not match " ++ ['"'.toUInt8]

theorem leafMismatch_eq (source text : Bytes) :
    leafMismatch source text = leafOpening text ++ (source ++ ['"'.toUInt8]) := by
  have hquoted : quoted source = ['"'.toUInt8] ++ (source ++ ['"'.toUInt8]) := rfl
  unfold leafMismatch leafOpening
  rw [hquoted]
  split
  · rw [List.append_assoc]
  · simp only [List.append_assoc]

/-- No leaf at or below a rule has a newline in its source. -/
def HasOneLineSources (r : Rule) : Prop :=
  ∀ n source regex, leaf n source regex ∈ r.subrules → Byte.newline ∉ source

/-- Lines of leaves begin alike, and where they differ they have no newlines. -/
theorem HasOneLineSources.exists_endings {opts : RegexOptions} {r : Rule} {text s : Bytes}
    {lines : List Bytes} (hsources : r.HasOneLineSources)
    (h : IsRead (r.LeafFails opts text) s lines) :
    ∃ endings, lines = endings.map (leafOpening text ++ ·) ∧ endings ≠ [] ∧
      ∀ e ∈ endings, Byte.newline ∉ e := by
  have hending : ∀ line ∈ lines, ∃ e, leafOpening text ++ e = line ∧ Byte.newline ∉ e := by
    intro line hline
    obtain ⟨n, source, regex, hleaf, -, rfl⟩ := h.all line hline
    refine ⟨source ++ ['"'.toUInt8], (leafMismatch_eq source text).symm, fun hmem => ?_⟩
    rcases List.mem_append.1 hmem with hsource | hquote
    · exact hsources n source regex hleaf hsource
    · exact absurd hquote (by decide)
  choose! ending hopening hnewline using hending
  refine ⟨lines.map ending, ?_, mt List.map_eq_nil_iff.1 h.ne_nil, ?_⟩
  · rw [List.map_map]
    exact ((List.map_congr_left hopening).trans (List.map_id lines)).symm
  · intro e he
    obtain ⟨line, hline, rfl⟩ := List.mem_map.1 he
    exact hnewline line hline

/-- There is only one way to read lines of leaves off a text. -/
theorem HasOneLineSources.lines_eq {opts : RegexOptions} {r : Rule} {text s : Bytes}
    {lines others : List Bytes} (hsources : r.HasOneLineSources)
    (h : IsRead (r.LeafFails opts text) s lines)
    (hothers : IsRead (r.LeafFails opts text) s others) : lines = others := by
  obtain ⟨endings, rfl, hne, hendings⟩ := hsources.exists_endings h
  obtain ⟨otherEndings, rfl, hothersNe, hotherEndings⟩ := hsources.exists_endings hothers
  have hjoined := h.joined.symm.trans hothers.joined
  rw [inLines_injective hendings hotherEndings hne hothersNe hjoined]

/-! ## Repetitions -/

theorem isRead_finding {r : Rule} {text : Bytes} {mm : Mismatch}
    (hsize : text.length < UInt64.size) (h : r.matchText env text = .ok (.failed mm)) :
    IsRead (r.LeafFails env.options (text.drop mm.position.toNat)) mm.description
      (r.finding env text).report.lines := by
  obtain ⟨rfl, hbacked⟩ := finding_of_matchText r hsize h
  exact ⟨hbacked.ne_nil, rfl, hbacked.all⟩

/-- If no merge is of descriptions with a line in common, then no line is given twice. -/
theorem listsDistinctly_of_isApart {r : Rule} {text : Bytes} {mm : Mismatch}
    (hsize : text.length < UInt64.size) (h : r.matchText env text = .ok (.failed mm))
    (hapart : (r.finding env text).report.IsApart) : r.ListsDistinctly env.options text mm :=
  ⟨_, isRead_finding hsize h, (Report.nodup_lines_iff _).2 hapart⟩

/-- If a merge is of descriptions with a line in common, then the line is given twice. -/
theorem isApart_of_listsDistinctly {r : Rule} {text : Bytes} {mm : Mismatch}
    (hsources : r.HasOneLineSources) (hsize : text.length < UInt64.size)
    (h : r.matchText env text = .ok (.failed mm)) (hlists : r.ListsDistinctly env.options text mm) :
    (r.finding env text).report.IsApart := by
  obtain ⟨lines, hread, hnodup⟩ := hlists
  rw [hsources.lines_eq hread (isRead_finding hsize h)] at hnodup
  exact (Report.nodup_lines_iff _).1 hnodup

/-! ## Choices that are not nested -/

theorem mem_findings {text : Bytes} {parts : List Rule} {f : Finding} :
    f ∈ findings env text parts ↔ ∃ part ∈ parts, part.finding env text = f := by
  induction parts with
  | nil => simp [findings]
  | cons part parts ih => simp [findings, ih, eq_comm]

/-- What is found in a row is found in one of its components, or there is nothing to report. -/
theorem report_findingInRow (env : MatchEnv) (text : Bytes) (parts : List Rule) (pos : Nat) :
    (findingInRow env text parts pos).report = .merged [] ∨
      ∃ part ∈ parts, ∃ rest,
        (findingInRow env text parts pos).report = (part.finding env rest).report := by
  induction parts generalizing pos with
  | nil => exact .inl rfl
  | cons part parts ih =>
    have hlater (next : Nat) : (findingInRow env text parts next).report = .merged [] ∨
        ∃ other ∈ part :: parts, ∃ rest,
          (findingInRow env text parts next).report = (other.finding env rest).report := by
      rcases ih next with hnone | ⟨other, hother, hreport⟩
      · exact .inl hnone
      · exact .inr ⟨other, List.mem_cons_of_mem part hother, hreport⟩
    rw [findingInRow]
    split
    · exact hlater _
    · exact hlater _
    · exact .inr ⟨part, List.mem_cons_self, text.drop pos, rfl⟩

mutual

/-- Without a choice there is one line at most. -/
theorem length_lines_finding_le (env : MatchEnv) : (r : Rule) → r.choiceDepth = 0 →
    ∀ text, (r.finding env text).report.lines.length ≤ 1
  | .leaf _ _ _, _ => fun text => Nat.le_refl 1
  | .compound n .sequence parts, hdepth => fun text => by
    rw [choiceDepth] at hdepth
    rw [finding]
    rcases report_findingInRow env text parts 0 with hnone | ⟨part, hpart, rest, hreport⟩
    · rw [hnone]
      exact Nat.zero_le 1
    · rw [hreport]
      exact forall_length_lines_finding_le env parts hdepth part hpart rest
  | .compound n .choice parts, hdepth => by
    rw [choiceDepth] at hdepth
    cases hdepth
  | .compound _ .optional _, _ => fun text => Nat.zero_le 1

theorem forall_length_lines_finding_le (env : MatchEnv) : (parts : List Rule) →
    maxChoiceDepth parts = 0 →
    ∀ part ∈ parts, ∀ text, (part.finding env text).report.lines.length ≤ 1
  | [], _ => List.forall_mem_nil _
  | part :: parts, hdepth => by
    rw [maxChoiceDepth, Nat.max_eq_zero_iff] at hdepth
    exact List.forall_mem_cons.2 ⟨length_lines_finding_le env part hdepth.1,
      forall_length_lines_finding_le env parts hdepth.2⟩

end

mutual

/-- Where no choice is in another one, nothing is merged that has a line in common. -/
theorem isApart_finding (env : MatchEnv) : (r : Rule) → r.choiceDepth ≤ 1 →
    ∀ text, (r.finding env text).report.IsApart
  | .leaf _ _ _, _ => fun text => by
    rw [finding, Report.IsApart]
    trivial
  | .compound n .sequence parts, hdepth => fun text => by
    rw [choiceDepth] at hdepth
    rw [finding]
    rcases report_findingInRow env text parts 0 with hnone | ⟨part, hpart, rest, hreport⟩
    · rw [hnone]
      exact ⟨.nil, trivial⟩
    · rw [hreport]
      exact forall_isApart_finding env parts hdepth part hpart rest
  | .compound n .choice parts, hdepth => fun text => by
    rw [choiceDepth] at hdepth
    have hflat : maxChoiceDepth parts = 0 := by omega
    rw [finding]
    apply Finding.isApart_furthest
    · intro f hf
      obtain ⟨part, hpart, rfl⟩ := mem_findings.1 hf
      exact forall_isApart_finding env parts (by omega) part hpart text
    · intro f hf
      obtain ⟨part, hpart, rfl⟩ := mem_findings.1 hf
      exact forall_length_lines_finding_le env parts hflat part hpart text
  | .compound _ .optional _, _ => fun text => ⟨.nil, trivial⟩

theorem forall_isApart_finding (env : MatchEnv) : (parts : List Rule) →
    maxChoiceDepth parts ≤ 1 → ∀ part ∈ parts, ∀ text, (part.finding env text).report.IsApart
  | [], _ => List.forall_mem_nil _
  | part :: parts, hdepth => by
    rw [maxChoiceDepth, Nat.max_le] at hdepth
    exact List.forall_mem_cons.2 ⟨isApart_finding env part hdepth.1,
      forall_isApart_finding env parts hdepth.2⟩

end

end Rule

namespace Grammar

theorem matchText_root_of_failed {g : Grammar} {text : Bytes} {mm : Mismatch}
    (h : g.matchText text = .ok (.failed mm)) : g.root.matchText g.env text = .ok (.failed mm) := by
  unfold matchText at h
  split at h
  · obtain ⟨layout, -, hmatched⟩ := exists_of_map_eq_ok h
    cases hmatched
  · exact h

/-- A mismatch has the text of its report. If no merge in the report is of descriptions with a line
in common, then what the leaves say that fail is listed without repetition; and only then if
no leaf has a newline in its source. Where no choice of the grammar is in another one, no merge is
of descriptions with a line in common. -/
theorem matchText_listsDistinctly_iff (g : Grammar) (text : Bytes) (mm : Mismatch)
    (hsize : text.length < UInt64.size) (h : g.matchText text = .ok (.failed mm)) :
    (g.root.finding g.env text).mismatch = mm ∧
    ((g.root.finding g.env text).report.IsApart →
      g.root.ListsDistinctly g.options text mm) ∧
    (g.root.HasOneLineSources →
      (g.root.ListsDistinctly g.options text mm ↔
        (g.root.finding g.env text).report.IsApart)) ∧
    (g.root.choiceDepth ≤ 1 → (g.root.finding g.env text).report.IsApart) := by
  have hroot := matchText_root_of_failed h
  have hsufficient : (g.root.finding g.env text).report.IsApart →
      g.root.ListsDistinctly g.options text mm := Rule.listsDistinctly_of_isApart hsize hroot
  refine ⟨(Rule.finding_of_matchText g.root hsize hroot).1, hsufficient, ?_, ?_⟩
  · intro hsources
    exact ⟨Rule.isApart_of_listsDistinctly hsources hsize hroot, hsufficient⟩
  · intro hdepth
    exact Rule.isApart_finding g.env g.root hdepth text

/-- Two rows that fail in the same leaf, and a third one that fails in another. -/
theorem matchText_listsDistinctly_rows :
    let row (n : Nat) (s : Bytes) := Rule.compound (n + 2) .sequence
      [.literal n (ascii "a"), .literal (n + 1) s]
    let root := Rule.compound 9 .choice [row 0 (ascii "x"), row 3 (ascii "x"), row 6 (ascii "y")]
    let line (source : Bytes) := Rule.leafMismatch source (ascii "b")
    ∃ g mm, ofRoot [] (some root) .default = .ok g ∧ (ascii "ab").length < UInt64.size ∧
      g.matchText (ascii "ab") = .ok (.failed mm) ∧
      mm = ⟨1, inLines [line (ascii "x"), line (ascii "y")]⟩ ∧
      g.root.ListsDistinctly g.options (ascii "ab") mm := by
  intro row root line
  obtain ⟨g, hg⟩ : ∃ g, ofRoot [] (some root) .default = .ok g := ⟨_, rfl⟩
  have hresult : ((ofRoot [] (some root) .default).toOption.bind fun g =>
      (g.matchText (ascii "ab")).toOption.bind Outcome.mismatch?) =
      some ⟨1, inLines [line (ascii "x"), line (ascii "y")]⟩ := by
    decide +kernel
  rw [hg] at hresult
  have hm := Outcome.eq_failed hresult
  have hsize : (ascii "ab").length < UInt64.size := by decide
  obtain ⟨-, hlists, -, hflat⟩ := matchText_listsDistinctly_iff g (ascii "ab") _ hsize hm
  have hdepth : g.root.choiceDepth ≤ 1 := by
    rw [(ofRoot_eq_ok hg).1]
    decide
  exact ⟨g, _, hg, hsize, hm, rfl, hlists (hflat hdepth)⟩

/-- A choice has a choice as its second component, and both begin with the same text. What is said
of that is listed twice. -/
theorem matchText_repeats_nested :
    let inner := Rule.compound 3 .choice [.literal 1 (ascii "a"), .literal 2 (ascii "b")]
    let root := Rule.compound 4 .choice [.literal 0 (ascii "a"), inner]
    let line (source : Bytes) := Rule.leafMismatch source (ascii "x")
    ∃ g mm, ofRoot [] (some root) .default = .ok g ∧
      g.matchText (ascii "x") = .ok (.failed mm) ∧
      mm = ⟨0, inLines [line (ascii "a"), line (ascii "a"), line (ascii "b")]⟩ ∧
      ¬ g.root.ListsDistinctly g.options (ascii "x") mm := by
  intro inner root line
  obtain ⟨g, hg⟩ : ∃ g, ofRoot [] (some root) .default = .ok g := ⟨_, rfl⟩
  have hresult : ((ofRoot [] (some root) .default).toOption.bind fun g =>
      (g.matchText (ascii "x")).toOption.bind Outcome.mismatch?) =
      some ⟨0, inLines [line (ascii "a"), line (ascii "a"), line (ascii "b")]⟩ := by
    decide +kernel
  rw [hg] at hresult
  have hm := Outcome.eq_failed hresult
  refine ⟨g, _, hg, hm, rfl, fun hlists => ?_⟩
  have hroot := (ofRoot_eq_ok hg).1
  have hsources : g.root.HasOneLineSources := by
    rw [hroot]
    intro n source regex hleaf
    simp [root, inner, Rule.literal, Rule.subrules, Rule.subrulesOfAll] at hleaf
    rcases hleaf with ⟨-, rfl, -⟩ | ⟨-, rfl, -⟩ | ⟨-, rfl, -⟩
    all_goals decide
  -- Since the sources have no newlines, there is no other way to read the lines.
  have hapart := Rule.isApart_of_listsDistinctly hsources (by decide)
    (matchText_root_of_failed hm) hlists
  have hlines : (root.finding g.env (ascii "x")).report.lines =
      [line (ascii "a"), line (ascii "a"), line (ascii "b")] := rfl
  rw [hroot, ← Report.nodup_lines_iff, hlines] at hapart
  exact absurd hapart (by decide)

end Grammar

end PhraseGrammar
