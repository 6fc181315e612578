import PhraseGrammar.Proofs.Layout.Tables
import PhraseGrammar.Match.Basic

/-!
# Tokens as pieces of a text

The tokens that a rule collects come from its text from left to right, whatever their names
are. `Pieces` says so of a row of tokens by cutting the text: a gap, a token, and
the pieces of what is left. A table of tokens has them under their names; where the text is
cut gives each slot of the table an offset (`Match.exists_hasStarts`).
-/

set_option autoImplicit false

namespace PhraseGrammar

open NameTable

/-- The tokens that are present lie in a text one after the other. -/
def Pieces (text : Bytes) : List (Option Match) → Prop
  | [] => True
  | none :: tokens => Pieces text tokens
  | some m :: tokens => ∃ gap rest, text = gap ++ m.text ++ rest ∧ Pieces rest tokens

namespace Pieces

variable {text rest : Bytes} {tokens : List (Option Match)}

theorem prepend (gap : Bytes) (h : Pieces text tokens) : Pieces (gap ++ text) tokens := by
  induction tokens with
  | nil => trivial
  | cons token tokens ih =>
    cases token with
    | none => exact ih h
    | some m =>
      obtain ⟨first, rest, rfl, hrest⟩ := h
      refine ⟨gap ++ first, rest, ?_, hrest⟩
      simp only [List.append_assoc]

/-- Tokens of two texts lie in the two texts together. -/
theorem append {more : List (Option Match)} (h : Pieces text tokens) (hmore : Pieces rest more) :
    Pieces (text ++ rest) (tokens ++ more) := by
  induction tokens generalizing text with
  | nil => exact hmore.prepend text
  | cons token tokens ih =>
    cases token with
    | none => exact ih h
    | some m =>
      obtain ⟨gap, last, rfl, hlast⟩ := h
      refine ⟨gap, last ++ rest, ?_, ih hlast⟩
      simp only [List.append_assoc]

theorem absent (text : Bytes) (h : ∀ token ∈ tokens, token = none) : Pieces text tokens := by
  induction tokens with
  | nil => trivial
  | cons token tokens ih =>
    obtain ⟨rfl, hrest⟩ := List.forall_mem_cons.1 h
    exact ih hrest

theorem single (m : Match) : Pieces m.text [some m] :=
  ⟨[], [], by rw [List.nil_append, List.append_nil], trivial⟩

/-- Offsets of the tokens of a row: each token is found at its offset, and ends before the
next one starts. -/
structure HasOffsets (text : Bytes) (tokens : List (Option Match)) (offset : Nat → Nat) : Prop where
  inside : ∀ i m, tokens[i]? = some (some m) →
    offset i + m.size ≤ text.length ∧ (text.drop (offset i)).take m.size = m.text
  ordered : ∀ i j m m', i < j → tokens[i]? = some (some m) → tokens[j]? = some (some m') →
    offset i + m.size ≤ offset j

/-- A token that is absent needs no offset. -/
theorem HasOffsets.skip {offset : Nat → Nat} (h : HasOffsets text tokens offset) :
    HasOffsets text (none :: tokens) fun i => offset (i - 1) where
  inside i m hi := by
    cases i with
    | zero => simp at hi
    | succ i => exact h.inside i m hi
  ordered i j m m' hlt hi hj := by
    cases i with
    | zero => simp at hi
    | succ i =>
      cases j with
      | zero => omega
      | succ j => exact h.ordered i j m m' (Nat.lt_of_succ_lt_succ hlt) hi hj

/-- The first token comes after the gap, and all others after the first. -/
theorem HasOffsets.cons {offset : Nat → Nat} (h : HasOffsets rest tokens offset) (gap : Bytes)
    (first : Match) :
    HasOffsets (gap ++ first.text ++ rest) (some first :: tokens) fun i =>
      if i = 0 then gap.length else gap.length + first.size + offset (i - 1) where
  inside i m hi := by
    cases i with
    | zero =>
      simp only [List.getElem?_cons_zero, Option.some.injEq] at hi
      subst hi
      simp only [if_true, List.append_assoc, List.drop_left, List.length_append]
      refine ⟨?_, List.take_left⟩
      rw [Match.size]
      omega
    | succ i =>
      obtain ⟨hbound, hpiece⟩ := h.inside i m hi
      have hlength : (gap ++ first.text).length = gap.length + first.size := List.length_append
      simp only [Nat.succ_ne_zero, if_false, Nat.add_sub_cancel]
      refine ⟨?_, ?_⟩
      · rw [List.length_append, hlength]
        omega
      · rw [← hlength, ← List.drop_drop, List.drop_left]
        exact hpiece
  ordered i j m m' hlt hi hj := by
    cases j with
    | zero => omega
    | succ j =>
      simp only [Nat.succ_ne_zero, if_false, Nat.add_sub_cancel]
      cases i with
      | zero =>
        simp only [List.getElem?_cons_zero, Option.some.injEq] at hi
        subst hi
        rw [if_pos rfl]
        omega
      | succ i =>
        have hle := h.ordered i j m m' (Nat.lt_of_succ_lt_succ hlt) hi hj
        simp only [Nat.succ_ne_zero, if_false, Nat.add_sub_cancel]
        omega

/-- Pieces of a text have offsets. -/
theorem exists_offsets (h : Pieces text tokens) : ∃ offset, HasOffsets text tokens offset := by
  induction tokens generalizing text with
  | nil => exact ⟨fun _ => 0, by simp, by simp⟩
  | cons token tokens ih =>
    cases token with
    | none =>
      obtain ⟨offset, hoffset⟩ := ih h
      exact ⟨_, hoffset.skip⟩
    | some first =>
      obtain ⟨gap, rest, rfl, hrest⟩ := h
      obtain ⟨offset, hoffset⟩ := ih hrest
      exact ⟨_, hoffset.cons gap first⟩

end Pieces

namespace Match

/-- The slots of a match have starts in its text: every token is the piece of the text at
its start; the pieces of two slots do not overlap; and of two slots of one name the
first ends before the second starts. -/
structure HasStarts (m : Match) (start : Bytes → Nat → Nat) : Prop where
  inside : ∀ (name : Bytes) (j : Nat) (token : Match),
    (m.get name).slots[j]? = some (some token) →
    start name j + token.size ≤ m.size ∧ (m.text.drop (start name j)).take token.size = token.text
  apart : ∀ (name other : Bytes) (j k : Nat) (token token' : Match),
    (m.get name).slots[j]? = some (some token) →
    (m.get other).slots[k]? = some (some token') → (name, j) ≠ (other, k) →
    start name j + token.size ≤ start other k ∨ start other k + token'.size ≤ start name j
  ascending : ∀ (name : Bytes) (j k : Nat) (token token' : Match), j < k →
    (m.get name).slots[j]? = some (some token) →
    (m.get name).slots[k]? = some (some token') → start name j + token.size ≤ start name k

/-- Tokens that lie in a text one after the other, put into a table by their names. -/
theorem exists_hasStarts {text : Bytes} {entries : List (Bytes × Option Match)}
    (h : Pieces text (entries.map Prod.snd)) : ∃ start, HasStarts ⟨text, group entries⟩ start := by
  obtain ⟨offset, hinside, hordered⟩ := h.exists_offsets
  have hslot : ∀ (name : Bytes) (j : Nat) (token : Match),
      ((⟨text, group entries⟩ : Match).get name).slots[j]? = some (some token) →
      (valuesOf name entries)[j]? = some (some token) := by
    intro name j token hj
    rwa [Match.get, getD_lookup_group] at hj
  have htoken : ∀ (name : Bytes) (j : Nat) (token : Match),
      (valuesOf name entries)[j]? = some (some token) →
      (entries.map Prod.snd)[position name entries j]? = some (some token) := by
    intro name j token hj
    rw [List.getElem?_map, getElem?_position hj]
    rfl
  refine ⟨fun name j => offset (position name entries j), ?_, ?_, ?_⟩
  · intro name j token hj
    exact hinside _ _ (htoken name j token (hslot name j token hj))
  · intro name other j k token token' hj hk hne
    have hfirst := hslot name j token hj
    have hsecond := hslot other k token' hk
    rcases Nat.lt_trichotomy (position name entries j) (position other entries k) with
      hlt | heq | hlt
    · exact .inl (hordered _ _ _ _ hlt (htoken _ _ _ hfirst) (htoken _ _ _ hsecond))
    · exact absurd (position_inj hfirst hsecond heq) hne
    · exact .inr (hordered _ _ _ _ hlt (htoken _ _ _ hsecond) (htoken _ _ _ hfirst))
  · intro name j k token token' hlt hj hk
    have hfirst := hslot name j token hj
    have hsecond := hslot name k token' hk
    exact hordered _ _ _ _ (position_lt hlt hsecond) (htoken _ _ _ hfirst) (htoken _ _ _ hsecond)

end Match

end PhraseGrammar
