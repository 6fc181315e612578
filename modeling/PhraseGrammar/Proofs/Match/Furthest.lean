import PhraseGrammar.Match.Mismatch
import Mathlib.Data.List.Basic

/-!
# Mismatches and the text they point into

A mismatch points at a place in a text and gives reasons: texts, one per line, each of which
says something about what follows that place. `Mismatch.PointsAt` is about one text at a time,
so that a mismatch of a component, which is seen from the component's start, can be
carried over to the text of the rule around it: moving the mismatch by the component's
start leaves what follows the place as it is. Of several mismatches on one text the
furthest joins only reasons that were given for the furthest place.
-/

set_option autoImplicit false

namespace PhraseGrammar

/-- Texts, one per line. -/
def inLines (texts : List Bytes) : Bytes :=
  [Byte.newline].intercalate texts

@[simp] theorem inLines_singleton (s : Bytes) : inLines [s] = s :=
  List.intercalate_singleton

theorem inLines_cons (s : Bytes) {rest : List Bytes} (h : rest ≠ []) :
    inLines (s :: rest) = s ++ Byte.newline :: inLines rest := by
  rw [inLines, List.intercalate_cons_of_ne_nil h, List.append_assoc]
  rfl

theorem inLines_append {as bs : List Bytes} (has : as ≠ []) (hbs : bs ≠ []) :
    inLines (as ++ bs) = inLines as ++ Byte.newline :: inLines bs := by
  induction as with
  | nil => exact absurd rfl has
  | cons a as ih =>
    by_cases htail : as = []
    · subst htail
      rw [List.singleton_append, inLines_cons a hbs, inLines_singleton]
    · have happend : as ++ bs ≠ [] := List.append_ne_nil_of_left_ne_nil htail bs
      rw [List.cons_append, inLines_cons a happend, ih htail, inLines_cons a htail,
        List.append_assoc, List.cons_append]

theorem inLines_ne_nil {texts : List Bytes} (h : texts ≠ []) (hall : ∀ s ∈ texts, s ≠ []) :
    inLines texts ≠ [] := by
  cases texts with
  | nil => exact absurd rfl h
  | cons s rest =>
    have hs : s ≠ [] := hall s List.mem_cons_self
    by_cases hrest : rest = []
    · subst hrest
      rwa [inLines_singleton]
    · rw [inLines_cons s hrest]
      exact List.append_ne_nil_of_left_ne_nil hs _

theorem mem_insertDistinct (s t : Bytes) (texts : List Bytes) :
    t ∈ insertDistinct s texts ↔ t = s ∨ t ∈ texts := by
  induction texts with
  | nil => simp [insertDistinct]
  | cons first rest ih =>
    unfold insertDistinct
    split
    · simp
    · split
      · next hequal =>
        rw [hequal]
        simp
      · simp only [List.mem_cons, ih]
        exact or_left_comm

/-- Sorting adds no text and loses none. -/
theorem mem_sortDistinct (t : Bytes) (texts : List Bytes) :
    t ∈ sortDistinct texts ↔ t ∈ texts := by
  induction texts with
  | nil => rfl
  | cons s rest ih =>
    rw [sortDistinct, List.foldr_cons, mem_insertDistinct, List.mem_cons]
    exact or_congr_right ih

theorem pairwise_insertDistinct (s : Bytes) {texts : List Bytes} (h : texts.Pairwise (· < ·)) :
    (insertDistinct s texts).Pairwise (· < ·) := by
  induction texts with
  | nil => exact List.pairwise_singleton _ s
  | cons first rest ih =>
    obtain ⟨hfirst, hrest⟩ := List.pairwise_cons.1 h
    unfold insertDistinct
    split
    · next hlt =>
      refine List.pairwise_cons.2 ⟨List.forall_mem_cons.2 ⟨hlt, fun t ht => ?_⟩, h⟩
      exact List.lt_trans hlt (hfirst t ht)
    · next hge =>
      split
      · exact h
      · next hne =>
        have hlt : first < s := by
          rcases List.le_iff_lt_or_eq.1 (List.not_lt.1 hge) with hlt | heq
          · exact hlt
          · exact absurd heq.symm hne
        refine List.pairwise_cons.2 ⟨fun t ht => ?_, ih hrest⟩
        rcases (mem_insertDistinct s t rest).1 ht with rfl | hmem
        · exact hlt
        · exact hfirst t hmem

/-- Sorted texts are in ascending order, each of them once. -/
theorem pairwise_sortDistinct (texts : List Bytes) : (sortDistinct texts).Pairwise (· < ·) := by
  induction texts with
  | nil => exact .nil
  | cons s rest ih => exact pairwise_insertDistinct s ih

/-- Texts that are not empty are joined by newlines. -/
theorem joinLines_eq {texts : List Bytes} (hall : ∀ s ∈ texts, s ≠ []) :
    joinLines texts = inLines texts := by
  -- Once there is a text, each text after it comes after a newline.
  have hgoing (joined : Bytes) (hjoined : joined ≠ []) (rest : List Bytes) :
      rest.foldl (fun joined s => if joined.isEmpty then s else joined ++ Byte.newline :: s)
        joined = inLines (joined :: rest) := by
    induction rest generalizing joined with
    | nil => exact (inLines_singleton joined).symm
    | cons s rest ih =>
      have hnext : joined ++ Byte.newline :: s ≠ [] := List.append_ne_nil_of_left_ne_nil hjoined _
      rw [List.foldl_cons, if_neg (by simpa using hjoined), ih _ hnext,
        inLines_cons joined (List.cons_ne_nil s rest)]
      by_cases hrest : rest = []
      · subst hrest
        rw [inLines_singleton, inLines_singleton]
      · rw [inLines_cons _ hrest, inLines_cons s hrest, List.append_assoc, List.cons_append]
  cases texts with
  | nil => rfl
  | cons s rest => exact hgoing s (hall s List.mem_cons_self) rest

/-- Lines of lines are lines. -/
theorem exists_inLines {P : Bytes → Prop} {texts : List Bytes} (hne : texts ≠ [])
    (h : ∀ s ∈ texts, ∃ lines, lines ≠ [] ∧ s = inLines lines ∧ ∀ line ∈ lines, P line) :
    ∃ lines, lines ≠ [] ∧ inLines texts = inLines lines ∧ ∀ line ∈ lines, P line := by
  induction texts with
  | nil => exact absurd rfl hne
  | cons s rest ih =>
    obtain ⟨hs, hrest⟩ := List.forall_mem_cons.1 h
    obtain ⟨lines, hlines, rfl, hfirst⟩ := hs
    by_cases hlast : rest = []
    · subst hlast
      exact ⟨lines, hlines, inLines_singleton _, hfirst⟩
    · obtain ⟨more, hmore, hjoined, hothers⟩ := ih hlast hrest
      refine ⟨lines ++ more, List.append_ne_nil_of_left_ne_nil hlines more, ?_, ?_⟩
      · rw [inLines_append hlines hmore, ← hjoined, inLines_cons _ hlast]
      · intro line hline
        rcases List.mem_append.1 hline with hline | hline
        · exact hfirst line hline
        · exact hothers line hline

namespace Mismatch

/-- A mismatch points into a text, and its description has one line or more for what
follows: of each it is known that `P` holds of the rest of the text and the line. -/
structure PointsAt (P : Bytes → Bytes → Prop) (text : Bytes) (mm : Mismatch) : Prop where
  inside : mm.position.toNat ≤ text.length
  reasons : ∃ lines, lines ≠ [] ∧ mm.description = inLines lines ∧
    ∀ line ∈ lines, P (text.drop mm.position.toNat) line

variable {P Q : Bytes → Bytes → Prop} {text : Bytes}

theorem PointsAt.imp {mm : Mismatch} (h : mm.PointsAt P text)
    (himp : ∀ rest line, P rest line → Q rest line) : mm.PointsAt Q text := by
  obtain ⟨lines, hne, hdescription, hlines⟩ := h.reasons
  exact ⟨h.inside, lines, hne, hdescription, fun line hline => himp _ _ (hlines line hline)⟩

/-- The sum of the start of the rest of a text and of a position in the rest does not wrap around,
since it lies in the text. -/
theorem PointsAt.toNat_position_rebased {mm : Mismatch} {pos : Nat}
    (h : mm.PointsAt P (text.drop pos)) (hpos : pos ≤ text.length)
    (hsize : text.length < UInt64.size) :
    (mm.rebased pos.toUInt64).position.toNat = pos + mm.position.toNat := by
  have hinside := h.inside
  rw [List.length_drop] at hinside
  have hstart : pos.toUInt64.toNat = pos := Nat.mod_eq_of_lt (Nat.lt_of_le_of_lt hpos hsize)
  have hsum : mm.position.toNat + pos < 2 ^ 64 := by
    have hbound : UInt64.size = 2 ^ 64 := rfl
    omega
  rw [Mismatch.rebased, UInt64.toNat_add, hstart, Nat.mod_eq_of_lt hsum, Nat.add_comm]

/-- Moving a mismatch on the rest of a text by the start of the rest. -/
theorem PointsAt.rebased {mm : Mismatch} {pos : Nat} (h : mm.PointsAt P (text.drop pos))
    (hpos : pos ≤ text.length) (hsize : text.length < UInt64.size) :
    (mm.rebased pos.toUInt64).PointsAt P text := by
  have hmoved := h.toNat_position_rebased hpos hsize
  have hinside := h.inside
  rw [List.length_drop] at hinside
  obtain ⟨lines, hne, hdescription, hlines⟩ := h.reasons
  refine ⟨by omega, lines, hne, hdescription, ?_⟩
  intro line hline
  rw [hmoved, ← List.drop_drop]
  exact hlines line hline

/-- Reasons for one place may be put together. -/
theorem PointsAt.joined {position : UInt64} {texts : List Bytes}
    (hsome : ∀ rest line, P rest line → line ≠ []) (hne : texts ≠ [])
    (hall : ∀ s ∈ texts, (⟨position, s⟩ : Mismatch).PointsAt P text) :
    (⟨position, joinLines (sortDistinct texts)⟩ : Mismatch).PointsAt P text := by
  obtain ⟨first, hfirst⟩ := List.exists_mem_of_ne_nil texts hne
  have hsorted : ∀ s ∈ sortDistinct texts, (⟨position, s⟩ : Mismatch).PointsAt P text := by
    intro s hs
    exact hall s ((mem_sortDistinct s texts).1 hs)
  have hfilled : ∀ s ∈ sortDistinct texts, s ≠ [] := by
    intro s hs
    obtain ⟨lines, hlines, rfl, hreasons⟩ := (hsorted s hs).reasons
    exact inLines_ne_nil hlines fun line hline => hsome _ _ (hreasons line hline)
  have hthere : sortDistinct texts ≠ [] :=
    List.ne_nil_of_mem ((mem_sortDistinct first texts).2 hfirst)
  refine ⟨(hall first hfirst).inside, ?_⟩
  rw [joinLines_eq hfilled]
  exact exists_inLines hthere fun s hs => (hsorted s hs).reasons

/-- Going through mismatches, the greatest position so far is the first one or that of a
mismatch. -/
theorem foldl_max_mem (start : UInt64) (candidates : List Mismatch) :
    candidates.foldl (fun position mm => max position mm.position) start ∈
      start :: candidates.map (·.position) := by
  induction candidates generalizing start with
  | nil => exact List.mem_cons_self
  | cons mm rest ih =>
    rw [List.foldl_cons]
    by_cases hle : start ≤ mm.position
    · have hmax : max start mm.position = mm.position := if_pos hle
      rw [hmax]
      exact List.mem_cons_of_mem _ (ih mm.position)
    · have hmax : max start mm.position = start := if_neg hle
      rw [hmax]
      rcases List.mem_cons.1 (ih start) with hkept | hlater
      · exact List.mem_cons.2 (.inl hkept)
      · exact List.mem_cons_of_mem _ (List.mem_cons_of_mem _ hlater)

/-- The furthest position of some mismatches is that of one of them. -/
theorem exists_position_eq {candidates : List Mismatch} (h : candidates ≠ []) :
    ∃ mm ∈ candidates, mm.position = furthestPosition candidates := by
  cases candidates with
  | nil => exact absurd rfl h
  | cons mm rest =>
    -- The scan starts at 0, and the first position takes the place of that.
    have hzero : max 0 mm.position = mm.position := if_pos UInt64.zero_le
    have hfirst : furthestPosition (mm :: rest) =
        rest.foldl (fun position mm => max position mm.position) mm.position := by
      rw [furthestPosition, List.foldl_cons, hzero]
    rw [hfirst]
    exact List.mem_map.1 (foldl_max_mem mm.position rest)

/-- The furthest of mismatches that point into one text does so too. -/
theorem PointsAt.furthest {candidates : List Mismatch} {mm : Mismatch}
    (hsome : ∀ rest line, P rest line → line ≠ [])
    (hall : ∀ candidate ∈ candidates, candidate.PointsAt P text)
    (h : Mismatch.furthest candidates = .ok mm) : mm.PointsAt P text := by
  unfold Mismatch.furthest at h
  split at h
  · cases h
  · next hcandidates =>
    cases h
    have hne : candidates ≠ [] := by
      rintro rfl
      exact hcandidates rfl
    obtain ⟨first, hfirst, hposition⟩ := exists_position_eq hne
    refine PointsAt.joined hsome ?_ ?_
    · have hthere : first ∈ candidates.filter (·.position == furthestPosition candidates) :=
        List.mem_filter.2 ⟨hfirst, beq_iff_eq.2 hposition⟩
      exact List.ne_nil_of_mem (List.mem_map_of_mem hthere)
    · intro s hs
      obtain ⟨candidate, hcandidate, rfl⟩ := List.mem_map.1 hs
      obtain ⟨hmem, hequal⟩ := List.mem_filter.1 hcandidate
      rw [← beq_iff_eq.1 hequal]
      exact hall candidate hmem

end Mismatch

end PhraseGrammar
