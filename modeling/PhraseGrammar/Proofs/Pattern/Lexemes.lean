import PhraseGrammar.Pattern.Reader
import PhraseGrammar.Proofs.Pattern.Lexing

/-!
# What the lexemes of a text are

`LexemeAt` lists what a lexeme may be: a single byte, a bracket set or an escape, where the last
two may be unreadable (`lexemeAt_readLexeme`). What cannot be read is wrong, not merely odd
(`LexemeAt.isError`). A lexeme that can be read ends within the text, so the lexemes of a text
lie end to end and cover all of it (`areTiles_lexemes`).
-/

set_option autoImplicit false

namespace PhraseGrammar

namespace Pattern

/-- The lexeme of a byte that starts neither a bracket set nor an escape. -/
inductive IsByteLexeme : UInt8 → Lexeme → Prop
  | opening : IsByteLexeme '('.toUInt8 .opening
  | closing : IsByteLexeme ')'.toUInt8 .closing
  | bar : IsByteLexeme '|'.toUInt8 .bar
  | oneOrMore : IsByteLexeme '+'.toUInt8 (.quantifier .oneOrMore)
  | zeroOrOne : IsByteLexeme '?'.toUInt8 (.quantifier .zeroOrOne)
  | zeroOrMore : IsByteLexeme '*'.toUInt8 (.quantifier .zeroOrMore)
  | brace : IsByteLexeme '\x7b'.toUInt8 .brace
  | anyByte : IsByteLexeme '.'.toUInt8 (.item (.set .all))
  | lineStart : IsByteLexeme '^'.toUInt8 (.item (.anchor .lineStart))
  | lineEnd : IsByteLexeme '$'.toUInt8 (.item (.anchor .lineEnd))
  | plain (b : UInt8) (h : b ∉ reserved) : IsByteLexeme b (.item (.literal [b]))

/-- The lexeme at position `pos`, by its first byte and the text after that. -/
inductive LexemeAt (pos : Nat) : UInt8 → Bytes → PlacedLexeme → Prop
  | byte {b : UInt8} {l : Lexeme} (rest : Bytes) (h : IsByteLexeme b l) :
    LexemeAt pos b rest { start := pos, lexeme := l }
  | set {rest : Bytes} {set : CharSet} {stop : Nat}
    (h : (readBracketSet pos rest).result = some (set, stop)) :
    LexemeAt pos '['.toUInt8 rest
      { start := pos
        lexeme := .item (.set set)
        notes := (readBracketSet pos rest).notes
        width := stop - pos }
  | openSet {rest : Bytes} (h : (readBracketSet pos rest).result = none) :
    LexemeAt pos '['.toUInt8 rest
      { start := pos
        lexeme := .unreadable ⟨.unmatchedBracket, pos, pos + 1⟩
        notes := (readBracketSet pos rest).notes }
  | escapedItem {c : UInt8} {r : Regex} (more : Bytes) (h : escapedItem? c = some r) :
    LexemeAt pos backslash (c :: more) { start := pos, lexeme := .item r, width := 2 }
  | escapedByte {rest : Bytes} {b : UInt8} {w : Nat} (hitem : rest.head?.bind escapedItem? = none)
    (h : readEscape patternSpecials pos rest = .ok (b, w)) :
    LexemeAt pos backslash rest { start := pos, lexeme := .item (.literal [b]), width := w }
  | badEscape {rest : Bytes} {note : Note} (hitem : rest.head?.bind escapedItem? = none)
    (h : readEscape patternSpecials pos rest = .error note) :
    LexemeAt pos backslash rest { start := pos, lexeme := .unreadable note }

theorem lexemeAt_bracketLexeme (pos : Nat) (rest : Bytes) :
    LexemeAt pos '['.toUInt8 rest (bracketLexeme pos rest) := by
  simp only [bracketLexeme]
  split
  · next set stop h => exact .set h
  · next h => exact .openSet h

theorem lexemeAt_escapeLexeme (pos : Nat) (rest : Bytes) :
    LexemeAt pos backslash rest (escapeLexeme pos rest) := by
  unfold escapeLexeme
  split
  · next r hitem =>
    obtain ⟨c, hc, hr⟩ := Option.bind_eq_some_iff.1 hitem
    obtain ⟨more, rfl⟩ := List.head?_eq_some_iff.1 hc
    exact .escapedItem more hr
  · next hitem =>
    split
    · next b w h => exact .escapedByte hitem h
    · next note h => exact .badEscape hitem h

/-- The lexeme that is read is one of those listed. -/
theorem lexemeAt_readLexeme (pos : Nat) (b : UInt8) (rest : Bytes) :
    LexemeAt pos b rest (readLexeme pos b rest) := by
  by_cases hplain : b ∈ reserved
  · have hreserved : reserved = [backslash, '.'.toUInt8, '['.toUInt8, '('.toUInt8, ')'.toUInt8,
        '\x7b'.toUInt8, '^'.toUInt8, '$'.toUInt8, '|'.toUInt8, '+'.toUInt8, '*'.toUInt8,
        '?'.toUInt8] := rfl
    simp only [hreserved, List.mem_cons, List.not_mem_nil, or_false] at hplain
    rcases hplain with rfl | rfl | rfl | rfl | rfl | rfl | rfl | rfl | rfl | rfl | rfl | rfl
    · exact lexemeAt_escapeLexeme pos rest
    · exact .byte rest .anyByte
    · exact lexemeAt_bracketLexeme pos rest
    · exact .byte rest .opening
    · exact .byte rest .closing
    · exact .byte rest .brace
    · exact .byte rest .lineStart
    · exact .byte rest .lineEnd
    · exact .byte rest .bar
    · exact .byte rest .oneOrMore
    · exact .byte rest .zeroOrMore
    · exact .byte rest .zeroOrOne
  · obtain ⟨c, more, hc, hread⟩ := isLexeme_plain hplain
    cases hc
    have hlexeme := hread pos rest
    rw [List.nil_append] at hlexeme
    rw [hlexeme]
    exact .byte rest (.plain b hplain)

/-- An escape takes up two or four bytes of the text. -/
theorem width_of_readEscape {special : Bytes} {pos : Nat} {rest : Bytes} {b : UInt8} {w : Nat}
    (h : readEscape special pos rest = .ok (b, w)) : 0 < w ∧ w ≤ rest.length + 1 := by
  unfold readEscape at h
  split at h
  · cases h
  · split at h
    · split at h
      · next pair hpair =>
        cases h
        unfold hexPair? at hpair
        split at hpair
        · simp
        · cases hpair
      · cases h
    · split at h
      · cases h
        simp
      · cases h

/-- What is noted about an escape that cannot be read is wrong. -/
theorem isError_of_readEscape {special : Bytes} {pos : Nat} {rest : Bytes} {note : Note}
    (h : readEscape special pos rest = .error note) : note.isError = true := by
  unfold readEscape at h
  split at h
  · cases h
    rfl
  · split at h
    · split at h
      · cases h
      · cases h
        rfl
    · split at h
      · cases h
      · cases h
        rfl

/-- The closing bracket after the items of a set lies within the text. -/
theorem stop_of_readItems {start pos stop : Nat} {text : Bytes}
    (h : (readItems start pos text).stop = some stop) : pos < stop ∧ stop ≤ pos + text.length := by
  fun_induction readItems start pos text with
  | case1 => cases h
  | case2 pos b rest first next remaining hclosing =>
    have hmore : rest.drop (first.width - 1) ≠ [] := by
      intro hnil
      simp [remaining, hnil] at hclosing
    have hwidth := List.length_pos_iff.2 hmore
    rw [List.length_drop] at hwidth
    cases h
    simp only [next, List.length_cons]
    omega
  | case3 pos b rest first next remaining hopen others ih =>
    have hmore : rest.drop (first.width - 1) ≠ [] := by
      intro hnil
      simp only [others, remaining, hnil] at h
      rw [readItems] at h
      cases h
    have hwidth := List.length_pos_iff.2 hmore
    have hrest := ih h
    simp only [next, remaining, List.length_drop, List.length_cons] at hwidth hrest ⊢
    omega

/-- The closing bracket of a set lies within the text. -/
theorem stop_of_readBracketSet {pos stop : Nat} {body : Bytes} {set : CharSet}
    (h : (readBracketSet pos body).result = some (set, stop)) :
    pos < stop ∧ stop ≤ pos + 1 + body.length := by
  simp only [readBracketSet] at h
  obtain ⟨found, hfound, heq⟩ := Option.map_eq_some_iff.1 h
  cases heq
  split at hfound
  · next hcaret =>
    cases body with
    | nil => cases hcaret
    | cons c more =>
      have hbounds := stop_of_readItems hfound
      simp only [List.tail_cons, List.length_cons] at hbounds ⊢
      omega
  · have hbounds := stop_of_readItems hfound
    omega

section

variable {pos : Nat} {b : UInt8} {rest : Bytes} {l : PlacedLexeme}

theorem LexemeAt.start_eq (h : LexemeAt pos b rest l) : l.start = pos := by
  cases h with
  | _ => rfl

/-- A lexeme that can be read is not empty and ends within the text. -/
theorem LexemeAt.width (h : LexemeAt pos b rest l) (hl : l.lexeme.isUnreadable = false) :
    0 < l.width ∧ l.width ≤ rest.length + 1 := by
  cases h with
  | byte => simp
  | set hset =>
    have hbounds := stop_of_readBracketSet hset
    simp only
    omega
  | escapedItem => simp
  | escapedByte hitem hbyte => exact width_of_readEscape hbyte
  | openSet | badEscape => cases hl

/-- What is noted about a lexeme that cannot be read is wrong. -/
theorem LexemeAt.isError (h : LexemeAt pos b rest l) {note : Note}
    (hl : l.lexeme = .unreadable note) : note.isError = true := by
  cases h with
  | byte _ hbyte =>
    cases hl
    cases hbyte
  | openSet =>
    cases hl
    rfl
  | badEscape hitem hescape =>
    cases hl
    exact isError_of_readEscape hescape
  | set | escapedItem | escapedByte => cases hl

/-- The item that a backslash and a letter stand for. -/
theorem escapedItem?_cases {c : UInt8} {r : Regex} (h : escapedItem? c = some r) :
    (∃ a, r = .anchor a) ∨ ∃ (s : Shorthand) (negated : Bool), r = .set ⟨s.ranges, negated⟩ := by
  unfold escapedItem? at h
  split at h
  · cases h
    exact .inl ⟨_, rfl⟩
  · split at h
    · next s hs =>
      cases h
      exact .inr ⟨s, false, rfl⟩
    · obtain ⟨s, -, rfl⟩ := Option.map_eq_some_iff.1 h
      exact .inr ⟨s, true, rfl⟩

/-- An item is a literal, an anchor or a set: that of all bytes, that of a shorthand, or one
in brackets. -/
theorem LexemeAt.item_cases (h : LexemeAt pos b rest l) {r : Regex} (hr : l.lexeme = .item r) :
    (∃ bytes, r = .literal bytes) ∨ (∃ a, r = .anchor a) ∨ r = .set .all ∨
    (∃ (s : Shorthand) (negated : Bool), r = .set ⟨s.ranges, negated⟩) ∨
    ∃ set stop, r = .set set ∧ (readBracketSet pos rest).result = some (set, stop) ∧
      l.notes = (readBracketSet pos rest).notes := by
  cases h with
  | byte _ hbyte =>
    cases hr
    cases hbyte with
    | anyByte => exact .inr (.inr (.inl rfl))
    | lineStart | lineEnd => exact .inr (.inl ⟨_, rfl⟩)
    | plain => exact .inl ⟨_, rfl⟩
  | set hset =>
    cases hr
    exact .inr (.inr (.inr (.inr ⟨_, _, rfl, hset, rfl⟩)))
  | escapedItem more hitem =>
    cases hr
    rcases escapedItem?_cases hitem with hanchor | hset
    · exact .inr (.inl hanchor)
    · exact .inr (.inr (.inr (.inl hset)))
  | escapedByte =>
    cases hr
    exact .inl ⟨_, rfl⟩
  | openSet | badEscape => cases hr

end

/-- What holds of the lexeme at any place of a text holds of all lexemes of the text. -/
theorem forall_mem_lexemes {P : PlacedLexeme → Prop}
    (h : ∀ pos b rest l, LexemeAt pos b rest l → P l) (pos : Nat) (text : Bytes) :
    ∀ l ∈ lexemes pos text, P l := by
  fun_induction lexemes pos text with
  | case1 => exact fun l hl => (List.not_mem_nil hl).elim
  | case2 pos b rest first _ =>
    exact List.forall_mem_cons.2 ⟨h pos b rest _ (lexemeAt_readLexeme pos b rest),
      fun l hl => (List.not_mem_nil hl).elim⟩
  | case3 pos b rest first _ ih =>
    exact List.forall_mem_cons.2 ⟨h pos b rest _ (lexemeAt_readLexeme pos b rest), ih⟩

/-- Lexemes lie end to end, from a position up to position `stop`. -/
def AreTiles (stop : Nat) : (start : Nat) → List PlacedLexeme → Prop
  | start, [] => start = stop
  | start, l :: ls => l.start = start ∧ 0 < l.width ∧ AreTiles stop (start + l.width) ls

/-- If all lexemes of a text can be read, they cover the text. -/
theorem areTiles_lexemes {pos : Nat} {text : Bytes}
    (h : ∀ l ∈ lexemes pos text, l.lexeme.isUnreadable = false) :
    AreTiles (pos + text.length) pos (lexemes pos text) := by
  fun_induction lexemes pos text with
  | case1 => rfl
  | case2 pos b rest first hunreadable =>
    have hreadable := h first List.mem_cons_self
    rw [hunreadable] at hreadable
    cases hreadable
  | case3 pos b rest first hreadable ih =>
    obtain ⟨hfirst, hlater⟩ := List.forall_mem_cons.1 h
    have hat : LexemeAt pos b rest first := lexemeAt_readLexeme pos b rest
    obtain ⟨hpos, hle⟩ := hat.width hfirst
    refine ⟨hat.start_eq, hpos, ?_⟩
    have hend : pos + first.width + (rest.drop (first.width - 1)).length =
        pos + (b :: rest).length := by
      rw [List.length_drop, List.length_cons]
      omega
    rw [← hend]
    exact ih hlater

end Pattern

end PhraseGrammar
