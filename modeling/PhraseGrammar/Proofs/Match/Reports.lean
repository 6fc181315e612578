import PhraseGrammar.Proofs.Match.Merging
import Mathlib.Data.List.Nodup

/-!
# Reports

The description of a mismatch is merged from descriptions which may have been merged themselves. A
report keeps that as a tree: its lines are what leaves say, and its merges are those of the
choices. Repetition is looked for at each merge, among the descriptions as a whole, so a line may
come up in two reports that are merged. The lines of a report are distinct exactly if this happens
at no merge in it (`Report.nodup_lines_iff`).
-/

set_option autoImplicit false

namespace PhraseGrammar

/-- With a newline before the first text, there is a newline before each. -/
theorem newline_cons_inLines {texts : List Bytes} (h : texts ≠ []) :
    Byte.newline :: inLines texts = texts.flatMap (Byte.newline :: ·) := by
  induction texts with
  | nil => exact absurd rfl h
  | cons s rest ih =>
    by_cases hrest : rest = []
    · subst hrest
      simp
    · rw [inLines_cons s hrest, ih hrest, List.flatMap_cons, List.cons_append]

/-- What comes before a newline, or before the end of a text, is found in only one way. -/
theorem eq_of_append_eq {s t after others : Bytes} (hs : Byte.newline ∉ s)
    (ht : Byte.newline ∉ t) (hafter : ∀ b ∈ after.head?, b = Byte.newline)
    (hothers : ∀ b ∈ others.head?, b = Byte.newline) (h : s ++ after = t ++ others) :
    s = t ∧ after = others := by
  -- If one text went on after the end of the other, it would go on with a newline.
  have hend {s t more : Bytes} (hmore : ∀ b ∈ (more ++ t).head?, b = Byte.newline)
      (hs : Byte.newline ∉ s ++ more) : more = [] := by
    cases more with
    | nil => rfl
    | cons b rest =>
      rw [hmore b rfl] at hs
      exact absurd (List.mem_append_right s List.mem_cons_self) hs
  rcases List.append_eq_append_iff.1 h with ⟨more, rfl, rfl⟩ | ⟨more, rfl, rfl⟩
  · obtain rfl := hend hafter ht
    exact ⟨(List.append_nil s).symm, rfl⟩
  · obtain rfl := hend hothers hs
    exact ⟨List.append_nil t, rfl⟩

/-- Lines that begin alike and have no newlines after that are found in only one way. -/
theorem eq_of_flatMap_newline_eq {opening : Bytes} {endings others : List Bytes}
    (hendings : ∀ s ∈ endings, Byte.newline ∉ s) (hothers : ∀ s ∈ others, Byte.newline ∉ s)
    (h : endings.flatMap (fun s => Byte.newline :: (opening ++ s)) =
      others.flatMap fun s => Byte.newline :: (opening ++ s)) : endings = others := by
  induction endings generalizing others with
  | nil =>
    cases others with
    | nil => rfl
    | cons t others => cases h
  | cons s endings ih =>
    cases others with
    | nil => cases h
    | cons t others =>
      obtain ⟨hs, hmore⟩ := List.forall_mem_cons.1 hendings
      obtain ⟨ht, hlater⟩ := List.forall_mem_cons.1 hothers
      have hhead (texts : List Bytes) : ∀ b ∈
          (texts.flatMap fun s => Byte.newline :: (opening ++ s)).head?, b = Byte.newline := by
        cases texts with
        | nil => simp
        | cons first rest => simp
      rw [List.flatMap_cons, List.flatMap_cons, List.cons_append, List.cons_append,
        List.cons_inj_right, List.append_assoc, List.append_assoc, List.append_cancel_left_eq] at h
      obtain ⟨rfl, hrest⟩ := eq_of_append_eq hs ht (hhead _) (hhead _) h
      rw [ih hmore hlater hrest]

/-- Texts that begin alike and have no newlines after that can be read off their lines. -/
theorem inLines_injective {opening : Bytes} {endings others : List Bytes}
    (hendings : ∀ s ∈ endings, Byte.newline ∉ s) (hothers : ∀ s ∈ others, Byte.newline ∉ s)
    (hne : endings ≠ []) (hothersNe : others ≠ [])
    (h : inLines (endings.map (opening ++ ·)) = inLines (others.map (opening ++ ·))) :
    endings = others := by
  refine @eq_of_flatMap_newline_eq opening _ _ hendings hothers ?_
  have hlines := congrArg (Byte.newline :: ·) h
  simp only at hlines
  rwa [newline_cons_inLines (mt List.map_eq_nil_iff.1 hne),
    newline_cons_inLines (mt List.map_eq_nil_iff.1 hothersNe), List.flatMap_map, List.flatMap_map]
    at hlines

/-- What is said about a mismatch: by a leaf, or by several reports that were merged. -/
inductive Report
  | line (text : Bytes)
  | merged (parts : List Report)

namespace Report

mutual

/-- The lines of a report. -/
def lines : Report → List Bytes
  | line text => [text]
  | merged parts => linesOfParts parts

/-- The lines of several reports. -/
def linesOfParts : List Report → List Bytes
  | [] => []
  | r :: rs => r.lines ++ linesOfParts rs

end

/-- The text of a report. -/
def description (r : Report) : Bytes :=
  inLines r.lines

mutual

/-- No two reports that are merged in a report have a line in common. -/
def IsApart : Report → Prop
  | line _ => True
  | merged parts => parts.Pairwise (fun r s => r.lines.Disjoint s.lines) ∧ AreApart parts

/-- All merges in several reports are of reports that have no line in common. -/
def AreApart : List Report → Prop
  | [] => True
  | r :: rs => r.IsApart ∧ AreApart rs

end

/-- Adds a report to reports in the order of their texts, unless there is one with its text. -/
def insertByText (r : Report) : List Report → List Report
  | [] => [r]
  | s :: rest =>
    if r.description < s.description then r :: s :: rest
    else if r.description = s.description then s :: rest
    else s :: insertByText r rest

/-- The reports of a list in the order of their texts, one of each text. -/
def sortByText (reports : List Report) : List Report :=
  reports.foldr insertByText []

theorem linesOfParts_eq (parts : List Report) : linesOfParts parts = parts.flatMap lines := by
  induction parts with
  | nil => rfl
  | cons r rs ih => rw [linesOfParts, ih, List.flatMap_cons]

theorem areApart_iff {parts : List Report} : AreApart parts ↔ ∀ r ∈ parts, r.IsApart := by
  induction parts with
  | nil => simp [AreApart]
  | cons r rs ih => simp [AreApart, ih]

mutual

/-- The lines of a report are distinct exactly if no merge in it is of reports with a line in
common. -/
theorem nodup_lines_iff : (r : Report) → (r.lines.Nodup ↔ r.IsApart)
  | line text => by
    rw [lines, IsApart]
    exact iff_of_true (List.nodup_singleton text) trivial
  | merged parts => by
    rw [lines, IsApart, linesOfParts_eq, List.nodup_flatMap, and_comm]
    exact and_congr_right' (forall_nodup_lines_iff parts)

theorem forall_nodup_lines_iff : (parts : List Report) →
    ((∀ r ∈ parts, r.lines.Nodup) ↔ AreApart parts)
  | [] => by simp [AreApart]
  | r :: rs => by
    rw [AreApart, List.forall_mem_cons, nodup_lines_iff r, forall_nodup_lines_iff rs]

end

/-- Inserting a report inserts its text. -/
theorem map_description_insertByText (r : Report) (reports : List Report) :
    (insertByText r reports).map description =
      insertDistinct r.description (reports.map description) := by
  induction reports with
  | nil => rfl
  | cons s rest ih =>
    rw [insertByText, List.map_cons, insertDistinct]
    split
    · rfl
    · split
      · rfl
      · rw [List.map_cons, ih]

/-- Sorting reports sorts their texts. -/
theorem map_description_sortByText (reports : List Report) :
    (sortByText reports).map description =
      sortDistinct (reports.map description) := by
  induction reports with
  | nil => rfl
  | cons r rest ih =>
    rw [sortByText, List.foldr_cons, map_description_insertByText]
    exact congrArg (insertDistinct r.description) ih

theorem mem_of_mem_insertByText {r s : Report} {reports : List Report}
    (h : s ∈ insertByText r reports) :
    s = r ∨ s ∈ reports := by
  induction reports with
  | nil => exact .inl (List.mem_singleton.1 h)
  | cons t rest ih =>
    unfold insertByText at h
    split at h
    · exact List.mem_cons.1 h
    · split at h
      · exact .inr h
      · rcases List.mem_cons.1 h with hfirst | hlater
        · exact .inr (List.mem_cons.2 (.inl hfirst))
        · exact (ih hlater).imp_right (List.mem_cons_of_mem t)

/-- Sorting adds no report. -/
theorem mem_of_mem_sortByText {r : Report} {reports : List Report}
    (h : r ∈ sortByText reports) : r ∈ reports := by
  induction reports with
  | nil => exact h
  | cons s rest ih =>
    rcases mem_of_mem_insertByText h with heq | hmem
    · exact List.mem_cons.2 (.inl heq)
    · exact List.mem_cons_of_mem s (ih hmem)

/-- No two sorted reports have the same text. -/
theorem pairwise_sortByText (reports : List Report) :
    (sortByText reports).Pairwise fun r s => r.description ≠ s.description := by
  have hsorted := pairwise_sortDistinct (reports.map description)
  rw [← map_description_sortByText, List.pairwise_map] at hsorted
  refine hsorted.imp fun hlt heq => ?_
  rw [heq] at hlt
  exact List.lt_irrefl _ hlt

theorem lines_eq_singleton {r : Report} {line : Bytes} (h : r.lines.length ≤ 1)
    (hline : line ∈ r.lines) : r.lines = [line] := by
  obtain ⟨first, rest, hlines⟩ := List.exists_cons_of_ne_nil (List.ne_nil_of_mem hline)
  rw [hlines, List.length_cons] at h
  obtain rfl : rest = [] := List.eq_nil_of_length_eq_zero (by omega)
  rw [hlines] at hline ⊢
  rw [List.mem_singleton.1 hline]

/-- Reports of one line at most are merged without repetition. -/
theorem isApart_merged_sortByText {reports : List Report} (hapart : ∀ r ∈ reports, r.IsApart)
    (h : ∀ r ∈ reports, r.lines.length ≤ 1) : (merged (sortByText reports)).IsApart := by
  have hsorted (r : Report) (hr : r ∈ sortByText reports) : r.lines.length ≤ 1 :=
    h r (mem_of_mem_sortByText hr)
  rw [IsApart, areApart_iff]
  refine ⟨?_, fun r hr => hapart r (mem_of_mem_sortByText hr)⟩
  refine (pairwise_sortByText reports).imp_of_mem fun {r s} hr hs hne line hline hother => ?_
  -- A common line would be all that there is in both.
  apply hne
  rw [description, description, lines_eq_singleton (hsorted r hr) hline,
    lines_eq_singleton (hsorted s hs) hother]

/-- A report has lines, and there is something in each. -/
def IsFilled (r : Report) : Prop :=
  r.lines ≠ [] ∧ ∀ line ∈ r.lines, line ≠ []

/-- Sorted reports are merged to the merged text. -/
theorem joinLines_map_description {reports : List Report} (h : ∀ r ∈ reports, r.IsFilled) :
    joinLines (reports.map description) = (merged reports).description := by
  have hfilled : ∀ s ∈ reports.map description, s ≠ [] := by
    intro s hs
    obtain ⟨r, hr, rfl⟩ := List.mem_map.1 hs
    exact inLines_ne_nil (h r hr).1 (h r hr).2
  rw [joinLines_eq hfilled, description, lines, linesOfParts_eq]
  exact (inLines_flatMap fun r hr => ⟨(h r hr).1, rfl⟩).symm

end Report

/-- A mismatch with a report in place of the description. -/
structure Finding where
  position : UInt64
  report : Report

namespace Finding

/-- The mismatch with the text of the report. -/
def mismatch (f : Finding) : Mismatch :=
  ⟨f.position, f.report.description⟩

/-- The finding as seen from a point that lies `offset` bytes earlier. -/
def rebased (f : Finding) (offset : UInt64) : Finding :=
  { f with position := f.position + offset }

/-- The reports on a position, one of each text. -/
def reportsAt (position : UInt64) (candidates : List Finding) : List Report :=
  Report.sortByText ((candidates.filter (·.position == position)).map (·.report))

/-- The furthest position of some findings, with all reports on it. -/
def furthest (candidates : List Finding) : Finding :=
  let position := Mismatch.furthestPosition (candidates.map mismatch)
  ⟨position, .merged (reportsAt position candidates)⟩

theorem exists_of_mem_reportsAt {position : UInt64} {candidates : List Finding} {r : Report}
    (h : r ∈ reportsAt position candidates) :
    ∃ f ∈ candidates, f.position = position ∧ f.report = r := by
  obtain ⟨f, hf, rfl⟩ := List.mem_map.1 (Report.mem_of_mem_sortByText h)
  obtain ⟨hmem, hposition⟩ := List.mem_filter.1 hf
  exact ⟨f, hmem, beq_iff_eq.1 hposition, rfl⟩

theorem map_description_reportsAt (position : UInt64) (candidates : List Finding) :
    (reportsAt position candidates).map Report.description =
      sortDistinct (Mismatch.saidAt position (candidates.map mismatch)) := by
  rw [reportsAt, Report.map_description_sortByText, Mismatch.saidAt, List.filter_map, List.map_map,
    List.map_map]
  rfl

theorem reportsAt_furthest_ne_nil {candidates : List Finding} (hne : candidates ≠ []) :
    reportsAt (furthest candidates).position candidates ≠ [] := by
  have hsaid := Mismatch.saidAt_furthestPosition_ne_nil
    (mt (List.map_eq_nil_iff (f := mismatch)).1 hne)
  intro hnil
  have htexts := map_description_reportsAt (furthest candidates).position candidates
  obtain ⟨s, hs⟩ := List.exists_mem_of_ne_nil _ hsaid
  have hmem := (mem_sortDistinct s _).2 hs
  rw [hnil] at htexts
  exact List.not_mem_nil (htexts ▸ hmem)

/-- The report of a finding has lines, and of each it is known that `P` holds of the rest of the
text and the line. -/
structure IsBacked (P : Bytes → Bytes → Prop) (text : Bytes) (f : Finding) : Prop where
  ne_nil : f.report.lines ≠ []
  all : ∀ line ∈ f.report.lines, P (text.drop f.position.toNat) line

variable {P Q : Bytes → Bytes → Prop} {text : Bytes}

theorem IsBacked.imp {f : Finding} (h : f.IsBacked P text)
    (himp : ∀ rest line, P rest line → Q rest line) : f.IsBacked Q text :=
  ⟨h.ne_nil, fun line hline => himp _ _ (h.all line hline)⟩

theorem IsBacked.isFilled {f : Finding} (h : f.IsBacked P text)
    (hsome : ∀ rest line, P rest line → line ≠ []) : f.report.IsFilled :=
  ⟨h.ne_nil, fun line hline => hsome _ _ (h.all line hline)⟩

/-- Moving a finding on the rest of a text by the start of the rest. -/
theorem IsBacked.rebased {f : Finding} {pos : Nat} (h : f.IsBacked P (text.drop pos))
    (hpoints : f.mismatch.PointsAt Q (text.drop pos)) (hpos : pos ≤ text.length)
    (hsize : text.length < UInt64.size) : (f.rebased pos.toUInt64).IsBacked P text := by
  have hmoved : (f.rebased pos.toUInt64).position.toNat = pos + f.position.toNat :=
    hpoints.toNat_position_rebased hpos hsize
  refine ⟨h.ne_nil, fun line hline => ?_⟩
  rw [hmoved, ← List.drop_drop]
  exact h.all line hline

theorem IsBacked.furthest {candidates : List Finding} (hne : candidates ≠ [])
    (h : ∀ f ∈ candidates, f.IsBacked P text) : (furthest candidates).IsBacked P text := by
  have hlines : (Finding.furthest candidates).report.lines =
      (reportsAt (Finding.furthest candidates).position candidates).flatMap Report.lines :=
    Report.linesOfParts_eq _
  constructor
  · obtain ⟨r, hr⟩ := List.exists_mem_of_ne_nil _ (reportsAt_furthest_ne_nil hne)
    obtain ⟨f, hf, -, rfl⟩ := exists_of_mem_reportsAt hr
    rw [hlines]
    exact fun hnil => (h f hf).ne_nil (List.flatMap_eq_nil_iff.1 hnil _ hr)
  · intro line hline
    rw [hlines] at hline
    obtain ⟨r, hr, hin⟩ := List.mem_flatMap.1 hline
    obtain ⟨f, hf, hposition, rfl⟩ := exists_of_mem_reportsAt hr
    rw [← hposition]
    exact (h f hf).all line hin

/-- The furthest finding has the text of the furthest mismatch. -/
theorem mismatch_furthest {candidates : List Finding} {mm : Mismatch}
    (hsome : ∀ rest line, P rest line → line ≠ [])
    (h : ∀ f ∈ candidates, f.IsBacked P text)
    (hfurthest : Mismatch.furthest (candidates.map mismatch) = .ok mm) :
    (furthest candidates).mismatch = mm := by
  obtain ⟨-, hposition, hdescription⟩ := Mismatch.furthest_eq_ok hfurthest
  have hfilled : ∀ r ∈ reportsAt mm.position candidates, r.IsFilled := by
    intro r hr
    obtain ⟨f, hf, -, rfl⟩ := exists_of_mem_reportsAt hr
    exact (h f hf).isFilled hsome
  have htext := Report.joinLines_map_description hfilled
  rw [map_description_reportsAt, ← hdescription] at htext
  rw [furthest, mismatch]
  dsimp only
  rw [← hposition, ← htext]

/-- Findings of one line at most are merged without repetition. -/
theorem isApart_furthest {candidates : List Finding}
    (hapart : ∀ f ∈ candidates, f.report.IsApart)
    (h : ∀ f ∈ candidates, f.report.lines.length ≤ 1) : (furthest candidates).report.IsApart := by
  apply Report.isApart_merged_sortByText
  · intro r hr
    obtain ⟨f, hf, rfl⟩ := List.mem_map.1 hr
    exact hapart f (List.mem_of_mem_filter hf)
  · intro r hr
    obtain ⟨f, hf, rfl⟩ := List.mem_map.1 hr
    exact h f (List.mem_of_mem_filter hf)

end Finding

end PhraseGrammar
