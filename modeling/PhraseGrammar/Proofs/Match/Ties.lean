import PhraseGrammar.Proofs.Match.Merging
import Mathlib.Data.List.Sort

/-!
# Mismatches that tie

Of several mismatches the furthest counts, and where several are furthest their descriptions are
joined. What is joined is the ascending list of the different descriptions
(`eq_sortDistinct_iff`), so that only the set of the furthest mismatches matters
(`Mismatch.furthest_congr`): neither their order, nor repetition, nor what is less far.

Each description has a line of its own unless one of them is empty. The empty description comes
first in the order, and no newline is put after it, since nothing precedes that newline
(`joinLines_of_pairwise`). So the empty line is missing if there is anything after it:
`Mismatch.furthest_listsEach_iff`.
-/

set_option autoImplicit false

namespace PhraseGrammar

/-- A list is the sorted one exactly if it is ascending, without repetition, and has the
same texts. -/
theorem eq_sortDistinct_iff {lines texts : List Bytes} :
    lines = sortDistinct texts ↔ lines.Pairwise (· < ·) ∧ ∀ s, s ∈ lines ↔ s ∈ texts := by
  constructor
  · rintro rfl
    exact ⟨pairwise_sortDistinct texts, fun s => mem_sortDistinct s texts⟩
  · rintro ⟨hascending, hmem⟩
    refine hascending.eq_of_mem_iff (pairwise_sortDistinct texts) fun s => ?_
    rw [hmem, mem_sortDistinct]

/-- Texts are sorted in the same way if they are the same up to order and repetition. -/
theorem sortDistinct_congr {texts others : List Bytes} (h : ∀ s, s ∈ texts ↔ s ∈ others) :
    sortDistinct texts = sortDistinct others :=
  eq_sortDistinct_iff.2
    ⟨pairwise_sortDistinct texts, fun s => (mem_sortDistinct s texts).trans (h s)⟩

/-- No newline comes after an empty text at the beginning. -/
theorem joinLines_nil_cons (texts : List Bytes) : joinLines ([] :: texts) = joinLines texts := by
  cases texts <;> rfl

theorem ne_nil_of_lt {s t : Bytes} (h : s < t) : t ≠ [] := by
  rintro rfl
  exact List.not_lt_nil s h

/-- In ascending order only the first text can be empty. -/
theorem ne_nil_of_mem_tail {s : Bytes} {rest : List Bytes} (h : (s :: rest).Pairwise (· < ·)) :
    ∀ t ∈ rest, t ≠ [] :=
  fun _ ht => ne_nil_of_lt (List.rel_of_pairwise_cons h ht)

/-- Of texts in ascending order those that are not empty are joined by newlines. -/
theorem joinLines_of_pairwise {lines : List Bytes} (h : lines.Pairwise (· < ·)) :
    joinLines lines = inLines (lines.filter (· ≠ [])) := by
  cases lines with
  | nil => rfl
  | cons s rest =>
    have hrest := ne_nil_of_mem_tail h
    have hkept : rest.filter (· ≠ []) = rest := List.filter_eq_self.2 (by simpa using hrest)
    by_cases hs : s = []
    · subst hs
      rw [joinLines_nil_cons, joinLines_eq hrest, List.filter_cons_of_neg (by simp), hkept]
    · rw [joinLines_eq (List.forall_mem_cons.2 ⟨hs, hrest⟩), List.filter_cons_of_pos (by simpa),
        hkept]

/-- Texts in ascending order are all joined by newlines exactly if the empty text is not among
them, or is alone. -/
theorem joinLines_eq_inLines_iff {lines : List Bytes} (h : lines.Pairwise (· < ·)) :
    joinLines lines = inLines lines ↔ ([] ∈ lines → ∀ s ∈ lines, s = []) := by
  cases lines with
  | nil => simp [joinLines, inLines]
  | cons s rest =>
    have hrest := ne_nil_of_mem_tail h
    by_cases hs : s = []
    · subst hs
      rw [joinLines_nil_cons, joinLines_eq hrest]
      cases rest with
      | nil => simp [inLines]
      | cons t rest =>
        have ht : t ≠ [] := hrest t List.mem_cons_self
        rw [inLines_cons [] (List.cons_ne_nil t rest), List.nil_append]
        -- With the newline of the empty line the text is longer by one byte.
        have hlonger : inLines (t :: rest) ≠ Byte.newline :: inLines (t :: rest) :=
          fun heq => by simpa using congrArg List.length heq
        simp [hlonger, ht]
    · have hall : ∀ t ∈ s :: rest, t ≠ [] := List.forall_mem_cons.2 ⟨hs, hrest⟩
      exact iff_of_true (joinLines_eq hall) fun hmem => absurd rfl (hall [] hmem)

namespace Mismatch

/-- Some mismatches give one, unless there are none. -/
theorem furthest_of_ne_nil {candidates : List Mismatch} (h : candidates ≠ []) :
    furthest candidates = .ok ⟨furthestPosition candidates,
      joinLines (sortDistinct (saidAt (furthestPosition candidates) candidates))⟩ := by
  rw [furthest, if_neg (by simpa using h)]
  rfl

/-- The position of a mismatch is the greatest of those of the candidates. -/
structure IsFurthestOf (candidates : List Mismatch) (mm : Mismatch) : Prop where
  reached : ∃ s, (⟨mm.position, s⟩ : Mismatch) ∈ candidates
  le : ∀ c ∈ candidates, c.position ≤ mm.position

/-- The description of a mismatch has one line for each of the different descriptions that
candidates give for its position, in ascending order. -/
def ListsEach (candidates : List Mismatch) (mm : Mismatch) : Prop :=
  ∃ lines, lines.Pairwise (· < ·) ∧ (∀ s, s ∈ lines ↔ (⟨mm.position, s⟩ : Mismatch) ∈ candidates) ∧
    mm.description = inLines lines

variable {candidates : List Mismatch}

/-- There is only one furthest position. -/
theorem furthestPosition_eq {position : UInt64}
    (hreached : ∃ s, (⟨position, s⟩ : Mismatch) ∈ candidates)
    (hle : ∀ c ∈ candidates, c.position ≤ position) : furthestPosition candidates = position := by
  obtain ⟨s, hs⟩ := hreached
  have hfurther := (furthestPosition_le_iff candidates _).1 UInt64.le_rfl ⟨position, s⟩ hs
  exact UInt64.le_antisymm ((furthestPosition_le_iff candidates position).2 hle) hfurther

theorem isFurthestOf_of_furthest {mm : Mismatch} (h : furthest candidates = .ok mm) :
    mm.IsFurthestOf candidates := by
  obtain ⟨hne, hposition, -⟩ := furthest_eq_ok h
  constructor
  · obtain ⟨s, hs⟩ := List.exists_mem_of_ne_nil _ (saidAt_furthestPosition_ne_nil hne)
    exact ⟨s, hposition ▸ mem_saidAt.1 hs⟩
  · rw [hposition]
    exact (furthestPosition_le_iff candidates _).1 UInt64.le_rfl

/-- Candidates that have the same furthest mismatches give the same one. -/
theorem furthest_congr {others : List Mismatch} {mm : Mismatch}
    (h : furthest candidates = .ok mm) (hle : ∀ c ∈ others, c.position ≤ mm.position)
    (hsame : ∀ s, (⟨mm.position, s⟩ : Mismatch) ∈ others ↔ ⟨mm.position, s⟩ ∈ candidates) :
    furthest others = .ok mm := by
  obtain ⟨s, hs⟩ := (isFurthestOf_of_furthest h).reached
  have hreached := (hsame s).2 hs
  have hposition := furthestPosition_eq ⟨s, hreached⟩ hle
  have htexts : ∀ t, t ∈ saidAt mm.position others ↔ t ∈ saidAt mm.position candidates := by
    intro t
    rw [mem_saidAt, mem_saidAt, hsame]
  rw [furthest_of_ne_nil (List.ne_nil_of_mem hreached), hposition, sortDistinct_congr htexts,
    ← (furthest_eq_ok h).2.2]

/-- The different descriptions are listed one per line exactly if none of them is empty, or the
empty one is the only one. -/
theorem listsEach_of_furthest_iff {mm : Mismatch} (h : furthest candidates = .ok mm) :
    mm.ListsEach candidates ↔
      ((⟨mm.position, []⟩ : Mismatch) ∈ candidates →
        ∀ s, (⟨mm.position, s⟩ : Mismatch) ∈ candidates → s = []) := by
  obtain ⟨-, -, hdescription⟩ := furthest_eq_ok h
  have hascending := pairwise_sortDistinct (saidAt mm.position candidates)
  have hjoined := joinLines_eq_inLines_iff hascending
  simp only [mem_sortDistinct, mem_saidAt] at hjoined
  rw [← hjoined, ← hdescription]
  constructor
  · rintro ⟨lines, hlines, hmem, hlisted⟩
    have hsorted : lines = sortDistinct (saidAt mm.position candidates) :=
      eq_sortDistinct_iff.2 ⟨hlines, fun s => (hmem s).trans mem_saidAt.symm⟩
    rw [hlisted, hsorted]
  · intro hlisted
    exact ⟨_, hascending, fun s => (mem_sortDistinct s _).trans mem_saidAt, hlisted⟩

/-- From some mismatches one is made, at the furthest position. It lists their descriptions in
ascending order, one per line and each once, exactly if the empty one is not among them or is
the only one; those that are not empty it lists in any case. It stays the same if the mismatches
come in another order or more often, and if one that is less far is left out. -/
theorem furthest_listsEach_iff (hne : candidates ≠ []) :
    ∃ mm, furthest candidates = .ok mm ∧ mm.IsFurthestOf candidates ∧
      (mm.ListsEach candidates ↔
        ((⟨mm.position, []⟩ : Mismatch) ∈ candidates →
          ∀ s, (⟨mm.position, s⟩ : Mismatch) ∈ candidates → s = [])) ∧
      (∃ lines, lines.Pairwise (· < ·) ∧
        (∀ s, s ∈ lines ↔ s ≠ [] ∧ (⟨mm.position, s⟩ : Mismatch) ∈ candidates) ∧
        mm.description = inLines lines) ∧
      (∀ others, (∀ c, c ∈ others ↔ c ∈ candidates) → furthest others = .ok mm) ∧
      (∀ before c after, candidates = before ++ c :: after → c.position ≠ mm.position →
        furthest (before ++ after) = .ok mm) := by
  have h := furthest_of_ne_nil hne
  refine ⟨_, h, ?_⟩
  generalize (⟨furthestPosition candidates, _⟩ : Mismatch) = mm at h
  have hfurthest := isFurthestOf_of_furthest h
  refine ⟨hfurthest, listsEach_of_furthest_iff h, ?_, ?_, ?_⟩
  · obtain ⟨-, -, hdescription⟩ := furthest_eq_ok h
    have hascending := pairwise_sortDistinct (saidAt mm.position candidates)
    refine ⟨_, hascending.filter _, fun s => ?_,
      hdescription.trans (joinLines_of_pairwise hascending)⟩
    simp only [List.mem_filter, mem_sortDistinct, mem_saidAt, decide_eq_true_eq, and_comm]
  · intro others hsame
    exact furthest_congr h (fun c hc => hfurthest.le c ((hsame c).1 hc)) fun s => hsame _
  · rintro before c after rfl hless
    refine furthest_congr h (fun d hd => hfurthest.le d ?_) fun s => ?_
    · simp only [List.mem_append, List.mem_cons] at hd ⊢
      tauto
    · have hother : (⟨mm.position, s⟩ : Mismatch) ≠ c := by
        rintro rfl
        exact hless rfl
      simp [hother]

/-- Three mismatches tie, two of them with the same description. -/
theorem furthest_listsEach_tied :
    let candidates : List Mismatch :=
      [⟨2, ascii "b"⟩, ⟨1, ascii "c"⟩, ⟨2, ascii "a"⟩, ⟨2, ascii "b"⟩]
    candidates ≠ [] ∧ furthest candidates = .ok ⟨2, inLines [ascii "a", ascii "b"]⟩ ∧
      (⟨2, inLines [ascii "a", ascii "b"]⟩ : Mismatch).ListsEach candidates := by
  intro candidates
  have hresult : furthest candidates = .ok ⟨2, inLines [ascii "a", ascii "b"]⟩ := rfl
  have hne : candidates ≠ [] := List.cons_ne_nil _ _
  obtain ⟨mm, hmm, -, hlists, -⟩ := furthest_listsEach_iff hne
  rw [hresult] at hmm
  cases hmm
  refine ⟨hne, hresult, hlists.2 fun hempty => ?_⟩
  exact absurd hempty (by decide)

/-- Of an empty description and another one only the other one is listed. -/
theorem furthest_omits_empty :
    let candidates : List Mismatch := [⟨0, []⟩, ⟨0, ascii "b"⟩]
    furthest candidates = .ok ⟨0, ascii "b"⟩ ∧
      ¬ (⟨0, ascii "b"⟩ : Mismatch).ListsEach candidates := by
  intro candidates
  have hresult : furthest candidates = .ok ⟨0, ascii "b"⟩ := rfl
  refine ⟨hresult, fun hlists => ?_⟩
  have hempty := (listsEach_of_furthest_iff hresult).1 hlists (by decide) (ascii "b") (by decide)
  exact absurd hempty (by decide)

end Mismatch

end PhraseGrammar
