import PhraseGrammar.Pattern.Reader
import PhraseGrammar.Proofs.Pattern.Spelling

/-!
# Joining the items of a branch

The items of a branch are joined to one expression. A literal comes as one item for each of
its bytes, and these are joined again (`joinLiterals_pieces`). So an expression without
redundancies is what its items are joined to (`rowOf_row`): neither is a literal in it joined
to another, nor is a sequence in it unwrapped.
-/

set_option autoImplicit false

namespace PhraseGrammar

namespace Regex

/-- The items for an expression as a part of a sequence: a literal is read byte by byte. -/
def pieces : Regex → List Regex
  | .literal bytes => bytes.map fun b => .literal [b]
  | r => [r]

/-- The items for an expression that has a branch to itself. -/
def row : Regex → List Regex
  | .concat parts => parts.flatMap pieces
  | r => r.pieces

/-- Sequences and alternatives are read as one item. -/
theorem pieces_of_isCompound {r : Regex} (h : r.isCompound = true) : r.pieces = [r] := by
  cases r with
  | literal bytes => cases h
  | _ => rfl

/-- Only a sequence has other items in a branch to itself than as a part. -/
theorem row_of_not_isCompound {r : Regex} (h : r.isCompound = false) : r.row = r.pieces := by
  cases r with
  | concat parts => cases h
  | _ => rfl

theorem isAlternation_of_not_isCompound {r : Regex} (h : r.isCompound = false) :
    r.isAlternation = false := by
  cases r with
  | alternation parts => cases h
  | _ => rfl

end Regex

namespace Pattern

/-- A literal before parts whose literals have been joined. -/
def attach (v : Bytes) : List Regex → List Regex
  | .literal w :: others => .literal (v ++ w) :: others
  | others => if v.isEmpty then others else .literal v :: others

/-- A literal is joined to what the rest is joined to. -/
theorem joinLiterals_literal (v : Bytes) (rest : List Regex) :
    joinLiterals (.literal v :: rest) = attach v (joinLiterals rest) := by
  rw [joinLiterals]
  unfold attach
  rfl

theorem attach_nil (parts : List Regex) : attach [] parts = parts := by
  unfold attach
  split
  · rfl
  · rfl

/-- Two literals may be attached one after the other or as one. -/
theorem attach_attach (v w : Bytes) (parts : List Regex) :
    attach v (attach w parts) = attach (v ++ w) parts := by
  cases w with
  | nil => rw [attach_nil, List.append_nil]
  | cons b w =>
    cases parts with
    | nil => simp [attach]
    | cons r others =>
      cases r with
      | literal u => simp [attach]
      | _ => simp [attach]

/-- What follows an expression counts only as it is joined. -/
theorem joinLiterals_cons_congr (r : Regex) {xs ys : List Regex}
    (h : joinLiterals xs = joinLiterals ys) : joinLiterals (r :: xs) = joinLiterals (r :: ys) := by
  cases r with
  | literal v => rw [joinLiterals_literal, joinLiterals_literal, h]
  | _ => simp only [joinLiterals, h]

/-- The bytes of a literal are joined to the literal again. -/
theorem joinLiterals_pieces (r : Regex) (rest : List Regex) :
    joinLiterals (r.pieces ++ rest) = joinLiterals (r :: rest) := by
  cases r with
  | literal bytes =>
    rw [Regex.pieces]
    induction bytes with
    | nil =>
      rw [joinLiterals_literal, attach_nil]
      rfl
    | cons b bytes ih =>
      rw [List.map_cons, List.cons_append, joinLiterals_literal, ih, joinLiterals_literal,
        joinLiterals_literal, attach_attach]
      rfl
  | _ => rfl

/-- The items of several parts are joined to what the parts are joined to. -/
theorem joinLiterals_flatMap_pieces (parts : List Regex) :
    joinLiterals (parts.flatMap Regex.pieces) = joinLiterals parts := by
  induction parts with
  | nil => rfl
  | cons r parts ih =>
    rw [List.flatMap_cons, joinLiterals_pieces]
    exact joinLiterals_cons_congr r ih

/-- Parts whose literals are separate are joined already. -/
theorem joinLiterals_of_areSeparate {parts : List Regex} (h : Regex.areSeparate parts = true) :
    joinLiterals parts = parts := by
  induction parts with
  | nil => rfl
  | cons r rest ih =>
    cases r with
    | literal v =>
      simp only [Regex.areSeparate, Bool.and_eq_true, Bool.not_eq_true'] at h
      obtain ⟨⟨hv, hnext⟩, hrest⟩ := h
      rw [joinLiterals_literal, ih hrest]
      -- What follows is not a literal, so that this one stays by itself.
      cases rest with
      | nil => simp [attach, hv]
      | cons s others =>
        cases s with
        | literal w => cases hnext
        | _ => simp [attach, hv]
    | _ => simp only [joinLiterals, ih h]

theorem exists_eq_cons_cons {parts : List Regex} (h : 2 ≤ parts.length) :
    ∃ first second others, parts = first :: second :: others := by
  cases parts with
  | nil => simp at h
  | cons first rest =>
    cases rest with
    | nil => simp at h
    | cons second others => exact ⟨first, second, others, rfl⟩

/-- The items of an expression are put together to the expression. -/
theorem rowOf_row {r : Regex} (h : r.isCanonical = true) : rowOf r.row = r := by
  cases r with
  | concat parts =>
    simp only [Regex.isCanonical, Bool.and_eq_true, decide_eq_true_eq] at h
    obtain ⟨⟨hlength, hseparate⟩, -⟩ := h
    rw [Regex.row, rowOf, joinLiterals_flatMap_pieces, joinLiterals_of_areSeparate hseparate]
    obtain ⟨first, second, others, rfl⟩ := exists_eq_cons_cons hlength
    rfl
  | literal v =>
    have hjoined : joinLiterals (Regex.literal v).row = attach v [] := by
      have hrow : (Regex.literal v).row = (Regex.literal v).pieces ++ [] :=
        (List.append_nil _).symm
      rw [hrow, joinLiterals_pieces, joinLiterals_literal]
      rfl
    rw [rowOf, hjoined]
    cases v with
    | nil => rfl
    | cons b v => rfl
  | _ => rfl

end Pattern

end PhraseGrammar
