import PhraseGrammar.Proofs.Match.Furthest

/-!
# Merging mismatches in groups

Some of the mismatches of a choice may be merged by themselves first, and the result then with
the others. The furthest position is the same. The reasons are the same too, as a set: they may
come in another order, and a reason may be given twice, since the texts that are merged are
compared as a whole and not line by line.

A text may be read as lines in several ways, for the lines may have newlines in them. So
one way has to be found that is right for what is merged first as well as for its parts:
`SameLines.regroup`.
-/

set_option autoImplicit false

namespace PhraseGrammar

/-- Lines into which a text can be read, each of which is as `P` says. -/
structure IsRead (P : Bytes → Prop) (s : Bytes) (lines : List Bytes) : Prop where
  ne_nil : lines ≠ []
  joined : s = inLines lines
  all : ∀ line ∈ lines, P line

/-- Two texts are the same lines, up to order and repetition, each of which is as `P` says. -/
def SameLines (P : Bytes → Prop) (s t : Bytes) : Prop :=
  ∃ lines lines', IsRead P s lines ∧ IsRead P t lines' ∧ ∀ line, line ∈ lines ↔ line ∈ lines'

/-- Texts that are lines themselves give the lines of all of them. -/
theorem inLines_flatMap {α : Type} {parts : List α} {text : α → Bytes} {lines : α → List Bytes}
    (h : ∀ p ∈ parts, lines p ≠ [] ∧ text p = inLines (lines p)) :
    inLines (parts.flatMap lines) = inLines (parts.map text) := by
  induction parts with
  | nil => rfl
  | cons p rest ih =>
    obtain ⟨⟨hne, hp⟩, hrest⟩ := List.forall_mem_cons.1 h
    rw [List.flatMap_cons, List.map_cons]
    by_cases hlast : rest = []
    · subst hlast
      rw [List.flatMap_nil, List.append_nil, List.map_nil, ← hp, inLines_singleton]
    · obtain ⟨q, hq⟩ := List.exists_mem_of_ne_nil rest hlast
      have hmore : rest.flatMap lines ≠ [] := by
        intro hnil
        exact (hrest q hq).1 (List.flatMap_eq_nil_iff.1 hnil q hq)
      have hlater : rest.map text ≠ [] := mt List.map_eq_nil_iff.1 hlast
      rw [inLines_append hne hmore, ih hrest, ← hp, inLines_cons _ hlater]

theorem mem_flatMap_sortDistinct {texts : List Bytes} {lines : Bytes → List Bytes} {line : Bytes} :
    line ∈ (sortDistinct texts).flatMap lines ↔ ∃ s ∈ texts, line ∈ lines s := by
  simp only [List.mem_flatMap, mem_sortDistinct]

variable {P : Bytes → Prop}

/-- A way to read texts is a way to read what they are merged to. -/
theorem IsRead.merged (hP : ∀ line, P line → line ≠ []) {texts : List Bytes}
    {lines : Bytes → List Bytes} (hne : texts ≠ []) (h : ∀ s ∈ texts, IsRead P s (lines s)) :
    IsRead P (joinLines (sortDistinct texts)) ((sortDistinct texts).flatMap lines) := by
  have hsorted (s : Bytes) (hs : s ∈ sortDistinct texts) := h s ((mem_sortDistinct s texts).1 hs)
  have hfilled : ∀ s ∈ sortDistinct texts, s ≠ [] := by
    intro s hs
    rw [(hsorted s hs).joined]
    exact inLines_ne_nil (hsorted s hs).ne_nil fun line hline =>
      hP line ((hsorted s hs).all line hline)
  refine ⟨?_, ?_, fun line hline => ?_⟩
  · obtain ⟨first, hfirst⟩ := List.exists_mem_of_ne_nil texts hne
    obtain ⟨line, hline⟩ := List.exists_mem_of_ne_nil _ (h first hfirst).ne_nil
    exact List.ne_nil_of_mem (mem_flatMap_sortDistinct.2 ⟨first, hfirst, hline⟩)
  · have hlines := inLines_flatMap fun s hs =>
      ⟨(hsorted s hs).ne_nil, (hsorted s hs).joined⟩
    rw [joinLines_eq hfilled, hlines, List.map_id']
  · obtain ⟨s, hs, hline⟩ := mem_flatMap_sortDistinct.1 hline
    exact (h s hs).all line hline

/-- Texts that can be read as lines are merged to a text that can be. -/
theorem SameLines.merged (hP : ∀ line, P line → line ≠ []) {texts : List Bytes} (hne : texts ≠ [])
    (h : ∀ s ∈ texts, ∃ lines, IsRead P s lines) :
    SameLines P (joinLines (sortDistinct texts)) (joinLines (sortDistinct texts)) := by
  choose! lines hlines using h
  have hread := IsRead.merged hP hne hlines
  exact ⟨_, _, hread, hread, fun line => Iff.rfl⟩

/-- Merging some of the texts first gives the same lines. -/
theorem SameLines.regroup (hP : ∀ line, P line → line ≠ []) (before : List Bytes)
    {inner : List Bytes} (after : List Bytes) (hne : inner ≠ [])
    (h : ∀ s ∈ before ++ (inner ++ after), ∃ lines, IsRead P s lines) :
    SameLines P
      (joinLines (sortDistinct (before ++ joinLines (sortDistinct inner) :: after)))
      (joinLines (sortDistinct (before ++ (inner ++ after)))) := by
  choose! chosen hchosen using h
  have hinner : ∀ s ∈ inner, s ∈ before ++ (inner ++ after) := fun s hs =>
    List.mem_append_right _ (List.mem_append_left _ hs)
  have hmerged := IsRead.merged hP hne fun s hs => hchosen s (hinner s hs)
  generalize joinLines (sortDistinct inner) = merged at hmerged
  -- If the merged text is one of the others too, it is read there as it was put together.
  let lines (s : Bytes) := if s = merged then (sortDistinct inner).flatMap chosen else chosen s
  have hself : lines merged = (sortDistinct inner).flatMap chosen := if_pos rfl
  have hother {s : Bytes} (hs : s ≠ merged) : lines s = chosen s := if_neg hs
  have hread : ∀ s, s = merged ∨ s ∈ before ++ (inner ++ after) → IsRead P s (lines s) := by
    intro s hs
    by_cases hsame : s = merged
    · rw [hsame, hself]
      exact hmerged
    · rw [hother hsame]
      exact hchosen s (hs.resolve_left hsame)
  refine ⟨_, _, IsRead.merged hP (by simp) fun s hs => hread s ?_,
    IsRead.merged hP (by simp [hne]) fun s hs => hread s (.inr hs), fun line => ?_⟩
  · simp only [List.mem_append, List.mem_cons] at hs ⊢
    tauto
  · simp only [mem_flatMap_sortDistinct]
    constructor
    · rintro ⟨s, hs, hline⟩
      by_cases hsame : s = merged
      · -- The line comes from one of the texts that are merged first.
        subst hsame
        rw [hself] at hline
        obtain ⟨t, ht, hchosenLine⟩ := mem_flatMap_sortDistinct.1 hline
        refine ⟨t, hinner t ht, ?_⟩
        by_cases hagain : t = s
        · rw [hagain, hself]
          exact hline
        · rw [hother hagain]
          exact hchosenLine
      · refine ⟨s, ?_, hline⟩
        simp only [List.mem_append, List.mem_cons] at hs ⊢
        tauto
    · rintro ⟨s, hs, hline⟩
      by_cases hmem : s ∈ inner
      · refine ⟨merged, by simp, ?_⟩
        by_cases hsame : s = merged
        · rwa [hsame] at hline
        · rw [hself]
          rw [hother hsame] at hline
          exact mem_flatMap_sortDistinct.2 ⟨s, hmem, hline⟩
      · refine ⟨s, ?_, hline⟩
        simp only [List.mem_append, List.mem_cons] at hs ⊢
        tauto

namespace Mismatch

/-- What is said of a position by those mismatches that are there. -/
def saidAt (position : UInt64) (candidates : List Mismatch) : List Bytes :=
  (candidates.filter (·.position == position)).map (·.description)

theorem saidAt_append (position : UInt64) (as bs : List Mismatch) :
    saidAt position (as ++ bs) = saidAt position as ++ saidAt position bs := by
  simp only [saidAt, List.filter_append, List.map_append]

/-- What is said about a position are the descriptions of the mismatches there. -/
theorem mem_saidAt {position : UInt64} {candidates : List Mismatch} {s : Bytes} :
    s ∈ saidAt position candidates ↔ (⟨position, s⟩ : Mismatch) ∈ candidates := by
  simp only [saidAt, List.mem_map, List.mem_filter, beq_iff_eq]
  constructor
  · rintro ⟨mm, ⟨hmem, rfl⟩, rfl⟩
    exact hmem
  · intro hmem
    exact ⟨_, ⟨hmem, rfl⟩, rfl⟩

theorem saidAt_cons_of_eq {position : UInt64} {mm : Mismatch} {rest : List Mismatch}
    (h : mm.position = position) :
    saidAt position (mm :: rest) = mm.description :: saidAt position rest := by
  simp [saidAt, h]

theorem saidAt_cons_of_ne {position : UInt64} {mm : Mismatch} {rest : List Mismatch}
    (h : mm.position ≠ position) : saidAt position (mm :: rest) = saidAt position rest := by
  simp [saidAt, h]

theorem saidAt_furthestPosition_ne_nil {candidates : List Mismatch} (h : candidates ≠ []) :
    saidAt (furthestPosition candidates) candidates ≠ [] := by
  obtain ⟨mm, hmem, hposition⟩ := exists_position_eq h
  rw [← hposition]
  exact List.ne_nil_of_mem (mem_saidAt.2 hmem)

/-- Mismatches are merged at their furthest position, from the different descriptions there. -/
theorem furthest_eq_ok {candidates : List Mismatch} {mm : Mismatch}
    (h : furthest candidates = .ok mm) :
    candidates ≠ [] ∧ mm.position = furthestPosition candidates ∧
      mm.description = joinLines (sortDistinct (saidAt mm.position candidates)) := by
  unfold furthest at h
  split at h
  · cases h
  · next hne =>
    cases h
    exact ⟨fun hnil => hne (List.isEmpty_iff.2 hnil), rfl, rfl⟩

/-- A bound on the furthest position is a bound on all positions. -/
theorem foldl_max_le_iff (candidates : List Mismatch) (start bound : UInt64) :
    candidates.foldl (fun position mm => max position mm.position) start ≤ bound ↔
      start ≤ bound ∧ ∀ mm ∈ candidates, mm.position ≤ bound := by
  induction candidates generalizing start with
  | nil => simp
  | cons mm rest ih =>
    have hmax : max start mm.position ≤ bound ↔ start ≤ bound ∧ mm.position ≤ bound := by
      by_cases hle : start ≤ mm.position
      · rw [show max start mm.position = mm.position from if_pos hle]
        exact ⟨fun h => ⟨UInt64.le_trans hle h, h⟩, And.right⟩
      · rw [show max start mm.position = start from if_neg hle]
        have hlt : mm.position ≤ start := UInt64.le_of_lt (UInt64.not_le.1 hle)
        exact ⟨fun h => ⟨h, UInt64.le_trans hlt h⟩, And.left⟩
    rw [List.foldl_cons, ih, hmax, List.forall_mem_cons, and_assoc]

/-- The furthest position is the least that no mismatch is beyond. -/
theorem furthestPosition_le_iff (candidates : List Mismatch) (bound : UInt64) :
    furthestPosition candidates ≤ bound ↔ ∀ mm ∈ candidates, mm.position ≤ bound := by
  rw [furthestPosition, foldl_max_le_iff]
  exact and_iff_right UInt64.zero_le

variable {before inner after : List Mismatch} {merged : Mismatch}

/-- Merging some of the mismatches first leaves the furthest position. -/
theorem furthestPosition_regroup (h : furthest inner = .ok merged) :
    furthestPosition (before ++ merged :: after) =
      furthestPosition (before ++ (inner ++ after)) := by
  obtain ⟨-, hposition, -⟩ := furthest_eq_ok h
  have hbound (bound : UInt64) : furthestPosition (before ++ merged :: after) ≤ bound ↔
      furthestPosition (before ++ (inner ++ after)) ≤ bound := by
    simp only [furthestPosition_le_iff, List.forall_mem_append, List.forall_mem_cons, hposition]
  exact UInt64.le_antisymm ((hbound _).2 UInt64.le_rfl) ((hbound _).1 UInt64.le_rfl)

variable {grouped plain : Mismatch} (hmerged : furthest inner = .ok merged)
  (hgrouped : furthest (before ++ merged :: after) = .ok grouped)
  (hplain : furthest (before ++ (inner ++ after)) = .ok plain)

include hmerged hgrouped hplain

theorem position_regroup : grouped.position = plain.position := by
  obtain ⟨-, hgroupedAt, -⟩ := furthest_eq_ok hgrouped
  obtain ⟨-, hplainAt, -⟩ := furthest_eq_ok hplain
  rw [hgroupedAt, hplainAt, furthestPosition_regroup hmerged]

/-- Merging some of the mismatches first gives a mismatch with the same lines. Of each mismatch
at the furthest position it has to be known how it can be read. -/
theorem sameLines_regroup (hP : ∀ line, P line → line ≠ [])
    (h : ∀ mm ∈ before ++ (inner ++ after), mm.position = plain.position →
      ∃ lines, IsRead P mm.description lines) :
    SameLines P grouped.description plain.description := by
  obtain ⟨hne, hmergedAt, hmergedText⟩ := furthest_eq_ok hmerged
  obtain ⟨-, -, hgroupedText⟩ := furthest_eq_ok hgrouped
  obtain ⟨hsome, hplainAt, hplainText⟩ := furthest_eq_ok hplain
  have hread : ∀ s ∈ saidAt plain.position (before ++ (inner ++ after)),
      ∃ lines, IsRead P s lines := fun s hs => h _ (mem_saidAt.1 hs) rfl
  rw [position_regroup hmerged hgrouped hplain] at hgroupedText
  rw [hgroupedText, hplainText]
  simp only [saidAt_append] at hread ⊢
  by_cases hthere : merged.position = plain.position
  · rw [saidAt_cons_of_eq hthere, hmergedText, hthere]
    refine SameLines.regroup hP _ _ ?_ hread
    rw [← hthere, hmergedAt]
    exact saidAt_furthestPosition_ne_nil hne
  · -- What was merged first is not furthest, and so is none of its parts.
    have hnone : saidAt plain.position inner = [] := by
      refine List.eq_nil_iff_forall_not_mem.2 fun s hs => hthere ?_
      have hle : plain.position ≤ merged.position := by
        have hmem : (⟨plain.position, s⟩ : Mismatch) ∈ inner := mem_saidAt.1 hs
        rw [hmergedAt]
        exact (furthestPosition_le_iff inner _).1 UInt64.le_rfl ⟨plain.position, s⟩ hmem
      have hge : merged.position ≤ plain.position := by
        rw [hplainAt, ← furthestPosition_regroup hmerged]
        exact (furthestPosition_le_iff _ _).1 UInt64.le_rfl merged (by simp)
      exact UInt64.le_antisymm hge hle
    have hthose := saidAt_furthestPosition_ne_nil hsome
    rw [← hplainAt] at hthose
    simp only [saidAt_append] at hthose
    rw [saidAt_cons_of_ne hthere]
    rw [hnone, List.nil_append] at hread hthose ⊢
    exact SameLines.merged hP hthose hread

end Mismatch

end PhraseGrammar
