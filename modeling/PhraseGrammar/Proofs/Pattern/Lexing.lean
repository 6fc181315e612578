import PhraseGrammar.Pattern.Lexeme
import PhraseGrammar.Proofs.Pattern.Spelling

/-!
# Spellings are single lexemes

Each spelling of a byte, an anchor or a set is one lexeme, which leaves no notes and ends
where the spelling ends, whatever comes after it. For a bracket set this needs that no range
is followed by a dash: the next one starts with a backslash, a digit or a letter.
-/

set_option autoImplicit false

namespace PhraseGrammar

namespace Pattern

/-- A text is a lexeme, wherever it stands and whatever follows it. -/
def IsLexeme (text : Bytes) (l : Lexeme) : Prop :=
  ∃ b more, text = b :: more ∧ ∀ (pos : Nat) (rest : Bytes),
    readLexeme pos b (more ++ rest) = { start := pos, lexeme := l, width := text.length }

/-- A lexeme at the beginning of a text is the first one, and the others are those of the rest. -/
theorem IsLexeme.lexemes_append {text : Bytes} {l : Lexeme} (h : IsLexeme text l)
    (hl : l.isUnreadable = false) (pos : Nat) (rest : Bytes) :
    lexemes pos (text ++ rest) =
      { start := pos, lexeme := l, width := text.length } ::
        lexemes (pos + text.length) rest := by
  obtain ⟨b, more, rfl, hread⟩ := h
  have hdrop : (more ++ rest).drop ((b :: more).length - 1) = rest := List.drop_left
  rw [List.cons_append, lexemes]
  simp only [hread, hl, Bool.false_eq_true, if_false, hdrop]

theorem hexValue?_of_isHexDigit {digit : UInt8} {value : Nat} (h : IsHexDigit digit value) :
    Byte.hexValue? digit = some value.toUInt8 := by
  have hlower : ∀ v < 16, ∀ d ∈ (ascii "0123456789abcdef")[v]?,
      Byte.hexValue? d = some v.toUInt8 := by decide +kernel
  have hupper : ∀ v < 16, ∀ d ∈ (ascii "0123456789ABCDEF")[v]?,
      Byte.hexValue? d = some v.toUInt8 := by decide +kernel
  rcases h with h | h
  · exact hlower value (List.getElem?_eq_some_iff.1 h).1 digit h
  · exact hupper value (List.getElem?_eq_some_iff.1 h).1 digit h

/-- The two digits of a byte are read as the byte. -/
theorem hexPair?_digits {b high low : UInt8} (hhigh : IsHexDigit high (b.toNat / 16))
    (hlow : IsHexDigit low (b.toNat % 16)) (rest : Bytes) :
    hexPair? (high :: low :: rest) = some b := by
  -- The sum does not wrap around: it is the byte itself.
  have hvalue : (b.toNat / 16).toUInt8 * 16 + (b.toNat % 16).toUInt8 = b := by
    have hb : b.toNat < 256 := b.toNat_lt
    have hbase : (16 : UInt8).toNat = 16 := rfl
    rw [← UInt8.toNat_inj]
    simp only [UInt8.toNat_add, UInt8.toNat_mul, Nat.toUInt8, UInt8.toNat_ofNat', hbase]
    omega
  rw [hexPair?, hexValue?_of_isHexDigit hhigh, hexValue?_of_isHexDigit hlow]
  exact congrArg some hvalue

/-- A byte is read from its code, after the backslash. -/
theorem readEscape_code {b high low : UInt8} (hhigh : IsHexDigit high (b.toNat / 16))
    (hlow : IsHexDigit low (b.toNat % 16)) (special : Bytes) (pos : Nat) (rest : Bytes) :
    readEscape special pos ('x'.toUInt8 :: high :: low :: rest) = .ok (b, 4) := by
  rw [readEscape, if_pos rfl, hexPair?_digits hhigh hlow]

theorem readLexeme_backslash (pos : Nat) (rest : Bytes) :
    readLexeme pos backslash rest = escapeLexeme pos rest :=
  rfl

/-- A byte that is not reserved stands for itself. -/
theorem isLexeme_plain {b : UInt8} (h : b ∉ reserved) : IsLexeme [b] (.item (.literal [b])) := by
  have hne : ∀ c ∈ reserved, b ≠ c := by
    rintro c hc rfl
    exact h hc
  refine ⟨b, [], rfl, fun pos rest => ?_⟩
  unfold readLexeme
  iterate 12 rw [if_neg (hne _ (by decide))]
  rfl

/-- A byte after a backslash stands for itself, if it may be escaped. -/
theorem isLexeme_escaped {b : UInt8} (h : b ∈ escapable) :
    IsLexeme (ascii "\\" ++ [b]) (.item (.literal [b])) := by
  have hno : ∀ c ∈ escapable, (escapedItem? c).isNone = true ∧ c ≠ 'x'.toUInt8 ∧
      unescape? patternSpecials c = some c := by decide +kernel
  obtain ⟨hitem, hx, hb⟩ := hno b h
  refine ⟨backslash, [b], rfl, fun pos rest => ?_⟩
  have hfirst : ([b] ++ rest).head?.bind escapedItem? = none := Option.isNone_iff_eq_none.1 hitem
  rw [readLexeme_backslash, escapeLexeme, hfirst]
  simp only [List.cons_append, List.nil_append, readEscape, if_neg hx, hb]
  rfl

/-- The code of a byte stands for the byte. -/
theorem isLexeme_code {b : UInt8} {text : Bytes} (h : WrittenCode b text) :
    IsLexeme text (.item (.literal [b])) := by
  obtain ⟨high, low, hhigh, hlow⟩ := h
  refine ⟨backslash, ['x'.toUInt8, high, low], rfl, fun pos rest => ?_⟩
  have hread := readEscape_code hhigh hlow patternSpecials pos rest
  have hfirst : (['x'.toUInt8, high, low] ++ rest).head?.bind escapedItem? = none := rfl
  rw [readLexeme_backslash, escapeLexeme, hfirst]
  simp only [List.cons_append, List.nil_append, hread]
  rfl

/-- Every spelling of a byte is a lexeme. -/
theorem isLexeme_byte {b : UInt8} {text : Bytes} (h : WrittenByte b text) :
    IsLexeme text (.item (.literal [b])) := by
  cases h with
  | plain _ h => exact isLexeme_plain h
  | escaped _ h => exact isLexeme_escaped h
  | code _ h => exact isLexeme_code h
  | newline => exact ⟨backslash, ['n'.toUInt8], rfl, fun _ _ => rfl⟩
  | tab => exact ⟨backslash, ['t'.toUInt8], rfl, fun _ _ => rfl⟩
  | carriageReturn => exact ⟨backslash, ['r'.toUInt8], rfl, fun _ _ => rfl⟩

/-- The spelling of an anchor stands for the anchor. -/
theorem isLexeme_anchor (a : Anchor) : IsLexeme (anchorText a) (.item (.anchor a)) := by
  cases a with
  | wordEdge => exact ⟨backslash, ['b'.toUInt8], rfl, fun _ _ => rfl⟩
  | lineStart => exact ⟨'^'.toUInt8, [], rfl, fun _ _ => rfl⟩
  | lineEnd => exact ⟨'$'.toUInt8, [], rfl, fun _ _ => rfl⟩

/-- The bytes that a range in brackets may start with have no meaning of their own there. -/
structure IsRangeStart (b : UInt8) : Prop where
  ne_dash : b ≠ dash
  ne_closing : b ≠ closingBracket
  ne_caret : b ≠ '^'.toUInt8

/-- The ends of a range of digits or letters. -/
structure IsRangeEnd (b : UInt8) : Prop extends IsRangeStart b where
  ne_backslash : b ≠ backslash
  isPrintable : Byte.isPrintable b = true

/-- Digits and letters may be the ends of a range. -/
theorem isRangeEnd_of_mem {span : Bytes} (hspan : span ∈ ByteRange.spans) {b : UInt8}
    (hb : b ∈ span) : IsRangeEnd b := by
  have hall : ∀ span ∈ ByteRange.spans, ∀ b ∈ span, b ≠ dash ∧ b ≠ closingBracket ∧
      b ≠ '^'.toUInt8 ∧ b ≠ backslash ∧ Byte.isPrintable b = true := by decide +kernel
  obtain ⟨hdash, hclosing, hcaret, hbackslash, hprintable⟩ := hall span hspan b hb
  exact ⟨⟨hdash, hclosing, hcaret⟩, hbackslash, hprintable⟩

theorem isPlainRange_of_mem {span : Bytes} (hspan : span ∈ ByteRange.spans) {first last : UInt8}
    (hfirst : first ∈ span) (hlast : last ∈ span) : isPlainRange first last = true := by
  have hall : ∀ span ∈ ByteRange.spans, ∀ first ∈ span, ∀ last ∈ span,
      isPlainRange first last = true := by decide +kernel
  exact hall span hspan first hfirst last hlast

/-- A range of more than one byte ascends within the digits or the letters of one case. -/
theorem exists_span {first last : UInt8} (h : (ByteRange.mk first last).isCanonical = true)
    (hne : first ≠ last) :
    first < last ∧ ∃ span ∈ ByteRange.spans, first ∈ span ∧ last ∈ span := by
  simp only [ByteRange.isCanonical, Bool.or_eq_true, beq_iff_eq, Bool.and_eq_true,
    decide_eq_true_eq, List.any_eq_true, List.contains_iff_mem] at h
  exact h.resolve_left hne

/-- A written range begins with a byte that has no meaning of its own in brackets. -/
theorem exists_start_of_writtenRange {range : ByteRange} {text : Bytes}
    (h : WrittenRange range text) (hc : range.isCanonical = true) :
    ∃ b more, text = b :: more ∧ IsRangeStart b := by
  cases h with
  | single b hcode =>
    obtain ⟨high, low, -, -⟩ := hcode
    exact ⟨backslash, ['x'.toUInt8, high, low], rfl, by decide, by decide, by decide⟩
  | ends first last hne =>
    obtain ⟨-, span, hspan, hfirst, -⟩ := exists_span hc hne
    exact ⟨first, [dash, last], rfl, (isRangeEnd_of_mem hspan hfirst).toIsRangeStart⟩

theorem startsWithRangeDash_eq_false {text : Bytes} (h : text.head? ≠ some dash) :
    startsWithRangeDash text = false := by
  rw [startsWithRangeDash, beq_eq_false_iff_ne.2 h, Bool.false_and]

theorem readElement_of_isRangeEnd {b : UInt8} (h : IsRangeEnd b) (pos : Nat) (rest : Bytes) :
    readElement pos (b :: rest) = .ok (b, 1) := by
  rw [readElement, if_neg h.ne_backslash, if_pos h.isPrintable]

/-- A written range is read as an item without notes, unless a dash follows. -/
theorem readItem_writtenRange {range : ByteRange} {text : Bytes} (h : WrittenRange range text)
    (hc : range.isCanonical = true) (start pos : Nat) {rest : Bytes}
    (hrest : rest.head? ≠ some dash) :
    ∃ item, readItem start pos (text ++ rest) = ⟨some item, [], text.length⟩ ∧
      item.ranges = [range] := by
  have hdash := startsWithRangeDash_eq_false hrest
  cases h with
  | single b hcode =>
    obtain ⟨high, low, hhigh, hlow⟩ := hcode
    have helement : readElement pos (backslash :: 'x'.toUInt8 :: high :: low :: rest) =
        .ok (b, 4) := by
      rw [readElement, if_pos rfl, readEscape_code hhigh hlow]
      rfl
    have hshorthand :
        leadingShorthand? (backslash :: 'x'.toUInt8 :: high :: low :: rest) = none := rfl
    refine ⟨.single b, ?_, rfl⟩
    show readItem start pos (backslash :: 'x'.toUInt8 :: high :: low :: rest) = _
    simp only [readItem, hshorthand, helement, List.drop_succ_cons, List.drop_zero, hdash,
      Bool.false_eq_true, if_false]
    rfl
  | ends first last hne =>
    obtain ⟨hlt, span, hspan, hfirstMem, hlastMem⟩ := exists_span hc hne
    have hfirst := isRangeEnd_of_mem hspan hfirstMem
    have hlast := isRangeEnd_of_mem hspan hlastMem
    have hplain := isPlainRange_of_mem hspan hfirstMem hlastMem
    have hshorthand : leadingShorthand? (first :: dash :: last :: rest) = none := by
      rw [leadingShorthand?, if_neg hfirst.ne_backslash]
    have hmiddle : startsWithRangeDash (dash :: last :: rest) = true := by
      have hclosing : (some last != some closingBracket) = true := by
        simpa using hlast.ne_closing
      simp only [startsWithRangeDash, List.head?_cons, List.tail_cons, hclosing, beq_self_eq_true,
        Bool.and_self]
    have hflaw : rangeFlaw? first last = none := by
      have hge : ¬ last < first := UInt8.not_lt.2 (UInt8.le_of_lt hlt)
      simp [rangeFlaw?, hne, hge, hplain]
    refine ⟨.range first last, ?_, rfl⟩
    show readItem start pos (first :: dash :: last :: rest) = _
    simp only [readItem, hshorthand, readElement_of_isRangeEnd hfirst, List.drop_succ_cons,
      List.drop_zero, hmiddle, if_true, List.tail_cons, readRangeEnd,
      readElement_of_isRangeEnd hlast, hflaw, hdash, Bool.false_eq_true, if_false]
    rfl

/-- What is read from the first item of a set on. -/
theorem readItems_append {text rest : Bytes} {item : SetItem} {notes : List Note}
    {start pos : Nat} (hne : text ≠ [])
    (h : readItem start pos (text ++ rest) = ⟨some item, notes, text.length⟩) :
    readItems start pos (text ++ rest) =
      if rest.head? = some closingBracket then ⟨[item], notes, some (pos + text.length + 1)⟩
      else
        let others := readItems start (pos + text.length) rest
        ⟨item :: others.items, notes ++ others.notes, others.stop⟩ := by
  obtain ⟨b, more, rfl⟩ := List.exists_cons_of_ne_nil hne
  have hdrop : (more ++ rest).drop ((b :: more).length - 1) = rest := List.drop_left
  rw [List.cons_append] at h ⊢
  rw [readItems]
  simp only [h, hdrop]
  rfl

/-- Written ranges and a closing bracket are read as the items of a set. -/
theorem readItems_writtenRanges {ranges : List ByteRange} {texts : List Bytes}
    (h : List.Forall₂ WrittenRange ranges texts) (hc : ranges.all ByteRange.isCanonical = true)
    (hne : ranges ≠ []) (start pos : Nat) (rest : Bytes) :
    ∃ items, readItems start pos (texts.flatten ++ closingBracket :: rest) =
        ⟨items, [], some (pos + texts.flatten.length + 1)⟩ ∧
      items.flatMap SetItem.ranges = ranges := by
  induction h generalizing pos with
  | nil => exact absurd rfl hne
  | @cons range text ranges texts hrange hranges ih =>
    rw [List.all_cons, Bool.and_eq_true] at hc
    obtain ⟨b, more, htext, -⟩ := exists_start_of_writtenRange hrange hc.1
    have htextNe : text ≠ [] := by
      rw [htext]
      exact List.cons_ne_nil b more
    rw [List.flatten_cons, List.append_assoc]
    cases hranges with
    | nil =>
      have hdash : (closingBracket :: rest).head? ≠ some dash := by
        rw [List.head?_cons]
        decide
      obtain ⟨item, hitem, hitemRanges⟩ := readItem_writtenRange hrange hc.1 start pos hdash
      refine ⟨[item], ?_, ?_⟩
      · rw [List.flatten_nil, List.nil_append, readItems_append htextNe hitem,
          if_pos List.head?_cons, List.append_nil]
      · rw [List.flatMap_cons, hitemRanges]
        rfl
    | @cons next nextText others otherTexts hnext hothers =>
      obtain ⟨c, later, rfl, hstart⟩ := by
        have hcs := hc.2
        rw [List.all_cons, Bool.and_eq_true] at hcs
        exact exists_start_of_writtenRange hnext hcs.1
      -- The text goes on with the start of a range, which is neither a dash nor a bracket.
      have hhead : (((c :: later) :: otherTexts).flatten ++ closingBracket :: rest).head? =
          some c := rfl
      have hdash : (((c :: later) :: otherTexts).flatten ++ closingBracket :: rest).head? ≠
          some dash := by
        rw [hhead]
        exact fun heq => hstart.ne_dash (Option.some.inj heq)
      have hclosing : (((c :: later) :: otherTexts).flatten ++ closingBracket :: rest).head? ≠
          some closingBracket := by
        rw [hhead]
        exact fun heq => hstart.ne_closing (Option.some.inj heq)
      obtain ⟨item, hitem, hitemRanges⟩ := readItem_writtenRange hrange hc.1 start pos hdash
      obtain ⟨items, hitems, hranges⟩ := ih hc.2 (List.cons_ne_nil next others) (pos + text.length)
      refine ⟨item :: items, ?_, ?_⟩
      · rw [readItems_append htextNe hitem, if_neg hclosing, hitems, List.length_append,
          ← Nat.add_assoc]
        rfl
      · rw [List.flatMap_cons, hitemRanges, hranges]
        rfl

/-- What is read after the opening bracket of a written set. -/
theorem readBracketSet_written {ranges : List ByteRange} {texts : List Bytes} (negated : Bool)
    (h : List.Forall₂ WrittenRange ranges texts) (hc : ranges.all ByteRange.isCanonical = true)
    (hne : ranges ≠ []) (pos : Nat) (rest : Bytes) :
    readBracketSet pos
        ((if negated then ascii "^" else []) ++ texts.flatten ++ closingBracket :: rest) =
      ⟨some (⟨ranges, negated⟩,
        pos + 1 + (if negated then ascii "^" else []).length + texts.flatten.length + 1), []⟩ := by
  cases negated with
  | true =>
    obtain ⟨items, hitems, hranges⟩ := readItems_writtenRanges h hc hne pos (pos + 2) rest
    have hcaret : ((ascii "^" ++ texts.flatten ++ closingBracket :: rest).head? ==
        some '^'.toUInt8) = true := rfl
    have htail : (ascii "^" ++ texts.flatten ++ closingBracket :: rest).tail =
        texts.flatten ++ closingBracket :: rest := rfl
    simp only [if_true, readBracketSet, hcaret, htail, hitems, hranges, Option.map_some]
    rfl
  | false =>
    obtain ⟨items, hitems, hranges⟩ := readItems_writtenRanges h hc hne pos (pos + 1) rest
    have hcaret : ((texts.flatten ++ closingBracket :: rest).head? == some '^'.toUInt8) = false := by
      cases h with
      | nil => exact absurd rfl hne
      | cons hrange _ =>
        rw [List.all_cons, Bool.and_eq_true] at hc
        obtain ⟨b, more, rfl, hstart⟩ := exists_start_of_writtenRange hrange hc.1
        exact beq_eq_false_iff_ne.2 fun heq => hstart.ne_caret (Option.some.inj heq)
    simp only [Bool.false_eq_true, if_false, List.nil_append, readBracketSet, hcaret, hitems,
      hranges, Option.map_some]
    rfl

/-- A set without redundancies is a lexeme as it is written. -/
theorem isLexeme_set {set : CharSet} {text : Bytes} (h : WrittenSet set text)
    (hc : set.isCanonical = true) : IsLexeme text (.item (.set set)) := by
  cases h with
  | all => exact ⟨'.'.toUInt8, [], rfl, fun _ _ => rfl⟩
  | brackets ranges negated texts hne h =>
    have hall : ranges.all ByteRange.isCanonical = true := by
      simp only [CharSet.isCanonical, Bool.or_eq_true, beq_iff_eq, Bool.and_eq_true] at hc
      rcases hc with hc | hc
      · exact absurd (congrArg CharSet.ranges hc) hne
      · exact hc.2
    refine ⟨'['.toUInt8, (if negated then ascii "^" else []) ++ texts.flatten ++ ascii "]",
      ?_, fun pos rest => ?_⟩
    · simp only [List.append_assoc]
      rfl
    · have hbracket : ∀ body, readLexeme pos '['.toUInt8 body = bracketLexeme pos body :=
        fun _ => rfl
      have hset := readBracketSet_written negated h hall hne pos rest
      rw [hbracket, bracketLexeme, List.append_assoc _ (ascii "]") rest]
      simp only [show ascii "]" ++ rest = closingBracket :: rest from rfl, hset]
      congr 1
      have hone : (ascii "[").length = 1 ∧ (ascii "]").length = 1 := ⟨rfl, rfl⟩
      simp only [List.length_append]
      omega

end Pattern

end PhraseGrammar
