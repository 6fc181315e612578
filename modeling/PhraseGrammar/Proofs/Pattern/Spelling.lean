import Mathlib.Data.List.Forall2
import PhraseGrammar.Regex.Basic

/-!
# How expressions are written

An expression can be written as a pattern in many ways, since each byte of a literal has
several spellings. `Written` relates an expression to all of its patterns: the parts of a
sequence follow each other, with parentheses around those that are sequences or alternatives
themselves; alternatives have bars in between, with parentheses around those that are
alternatives; and what is repeated or optional always has parentheses.

Not every expression is read back from its patterns. Literals that follow each other become
one literal, and a sequence of one part becomes the part. `Regex.isCanonical` singles out
the expressions without such redundancies; each of them has a pattern.
-/

set_option autoImplicit false

namespace PhraseGrammar

/-- The bytes that a range may span: digits, or letters of one case. -/
def ByteRange.spans : List Bytes :=
  [ascii "0123456789", ascii "ABCDEFGHIJKLMNOPQRSTUVWXYZ", ascii "abcdefghijklmnopqrstuvwxyz"]

/-- A range of one byte, or of several digits, or of several letters of one case. -/
def ByteRange.isCanonical (range : ByteRange) : Bool :=
  range.first == range.last ||
    decide (range.first < range.last) &&
      spans.any fun span => span.contains range.first && span.contains range.last

/-- The set of all bytes, or a set of one or more ranges with or without negation. -/
def CharSet.isCanonical (set : CharSet) : Bool :=
  set == .all || !set.ranges.isEmpty && set.ranges.all ByteRange.isCanonical

namespace Regex

/-- Whether an expression is a literal. -/
def isLiteral : Regex → Bool
  | .literal _ => true
  | _ => false

/-- Whether an expression is a list of alternatives. -/
def isAlternation : Regex → Bool
  | .alternation _ => true
  | _ => false

/-- Whether an expression is a sequence or a list of alternatives. -/
def isCompound : Regex → Bool
  | .concat _ => true
  | .alternation _ => true
  | _ => false

/-- No literal among some parts is empty, and none is followed by another. -/
def areSeparate : List Regex → Bool
  | [] => true
  | .literal v :: rest => !v.isEmpty && !rest.head?.any isLiteral && areSeparate rest
  | _ :: rest => areSeparate rest

mutual

/-- Whether an expression is without redundancies. -/
def isCanonical : Regex → Bool
  | .set bytes => bytes.isCanonical
  | .literal _ => true
  | .anchor _ => true
  | .concat parts => decide (2 ≤ parts.length) && areSeparate parts && allCanonical parts
  | .alternation parts => decide (2 ≤ parts.length) && allCanonical parts
  | .repetition part => part.isCanonical
  | .optional part => part.isCanonical

/-- Whether several expressions are without redundancies. -/
def allCanonical : List Regex → Bool
  | [] => true
  | r :: rs => r.isCanonical && allCanonical rs

end

mutual

/-- How many expressions lie in each other. -/
def height : Regex → Nat
  | .set _ => 0
  | .literal _ => 0
  | .anchor _ => 0
  | .concat parts => maxHeight parts + 1
  | .alternation parts => maxHeight parts + 1
  | .repetition part => part.height + 1
  | .optional part => part.height + 1

/-- The greatest height among several expressions. -/
def maxHeight : List Regex → Nat
  | [] => 0
  | r :: rs => max r.height (maxHeight rs)

end

theorem isCanonical_of_mem {rs : List Regex} {r : Regex} (h : allCanonical rs = true)
    (hr : r ∈ rs) : r.isCanonical = true := by
  induction rs with
  | nil => cases hr
  | cons q qs ih =>
    simp only [allCanonical, Bool.and_eq_true] at h
    rcases List.mem_cons.1 hr with rfl | hlater
    · exact h.1
    · exact ih h.2 hlater

mutual

/-- A fact about expressions that goes from the parts of an expression to the expression
holds of all expressions. -/
theorem induction {motive : Regex → Prop} (set : ∀ bytes, motive (.set bytes))
    (literal : ∀ bytes, motive (.literal bytes)) (anchor : ∀ a, motive (.anchor a))
    (concat : ∀ parts, (∀ part ∈ parts, motive part) → motive (.concat parts))
    (alternation : ∀ parts, (∀ part ∈ parts, motive part) → motive (.alternation parts))
    (repetition : ∀ part, motive part → motive (.repetition part))
    (optional : ∀ part, motive part → motive (.optional part)) : (r : Regex) → motive r
  | .set bytes => set bytes
  | .literal bytes => literal bytes
  | .anchor a => anchor a
  | .concat parts =>
    concat parts
      (forall_mem_of_induction set literal anchor concat alternation repetition optional parts)
  | .alternation parts =>
    alternation parts
      (forall_mem_of_induction set literal anchor concat alternation repetition optional parts)
  | .repetition part =>
    repetition part (induction set literal anchor concat alternation repetition optional part)
  | .optional part =>
    optional part (induction set literal anchor concat alternation repetition optional part)

theorem forall_mem_of_induction {motive : Regex → Prop} (set : ∀ bytes, motive (.set bytes))
    (literal : ∀ bytes, motive (.literal bytes)) (anchor : ∀ a, motive (.anchor a))
    (concat : ∀ parts, (∀ part ∈ parts, motive part) → motive (.concat parts))
    (alternation : ∀ parts, (∀ part ∈ parts, motive part) → motive (.alternation parts))
    (repetition : ∀ part, motive part → motive (.repetition part))
    (optional : ∀ part, motive part → motive (.optional part)) :
    (parts : List Regex) → ∀ part ∈ parts, motive part
  | [] => fun _ hpart => nomatch hpart
  | part :: parts => List.forall_mem_cons.2
    ⟨induction set literal anchor concat alternation repetition optional part,
      forall_mem_of_induction set literal anchor concat alternation repetition optional parts⟩

end

end Regex

namespace Pattern

/-- The bytes that have a meaning of their own where they are not escaped. -/
def reserved : Bytes := ascii "\\.[()\x7b^$|+*?"

/-- The bytes that a backslash may stand before, for the byte itself. -/
def escapable : Bytes := ascii "\\/.[]\x7b\x7d()^$|+*?-"

/-- A hexadecimal digit, in either case. -/
def IsHexDigit (digit : UInt8) (value : Nat) : Prop :=
  (ascii "0123456789abcdef")[value]? = some digit ∨
    (ascii "0123456789ABCDEF")[value]? = some digit

/-- The code of a byte. -/
inductive WrittenCode (b : UInt8) : Bytes → Prop
  | intro (high low : UInt8) (hhigh : IsHexDigit high (b.toNat / 16))
      (hlow : IsHexDigit low (b.toNat % 16)) : WrittenCode b (ascii "\\x" ++ [high, low])

/-- The spellings of a byte outside of bracket sets. -/
inductive WrittenByte : UInt8 → Bytes → Prop
  | plain (b : UInt8) (h : b ∉ reserved) : WrittenByte b [b]
  | escaped (b : UInt8) (h : b ∈ escapable) : WrittenByte b (ascii "\\" ++ [b])
  | code (b : UInt8) {text : Bytes} (h : WrittenCode b text) : WrittenByte b text
  | newline : WrittenByte '\n'.toUInt8 (ascii "\\n")
  | tab : WrittenByte '\t'.toUInt8 (ascii "\\t")
  | carriageReturn : WrittenByte '\r'.toUInt8 (ascii "\\r")

/-- A range in a bracket set: a byte by its code, or the two ends with a dash in between. -/
inductive WrittenRange : ByteRange → Bytes → Prop
  | single (b : UInt8) {text : Bytes} (h : WrittenCode b text) : WrittenRange (.single b) text
  | ends (first last : UInt8) (h : first ≠ last) :
      WrittenRange ⟨first, last⟩ ([first] ++ ascii "-" ++ [last])

/-- A set: a dot for all bytes, or ranges in brackets. -/
inductive WrittenSet : CharSet → Bytes → Prop
  | all : WrittenSet .all (ascii ".")
  | brackets (ranges : List ByteRange) (negated : Bool) (texts : List Bytes) (hne : ranges ≠ [])
      (h : List.Forall₂ WrittenRange ranges texts) :
      WrittenSet ⟨ranges, negated⟩
        (ascii "[" ++ (if negated then ascii "^" else []) ++ texts.flatten ++ ascii "]")

/-- The spelling of an anchor. -/
def anchorText : Anchor → Bytes
  | .wordEdge => ascii "\\b"
  | .lineStart => ascii "^"
  | .lineEnd => ascii "$"

/-- A pattern in parentheses. -/
def parenthesized (text : Bytes) : Bytes :=
  ascii "(" ++ text ++ ascii ")"

mutual

/-- The patterns of an expression. -/
def Written : Regex → Bytes → Prop
  | .set bytes, text => WrittenSet bytes text
  | .literal bytes, text => ∃ spellings, List.Forall₂ WrittenByte bytes spellings ∧
      text = spellings.flatten
  | .anchor a, text => text = anchorText a
  | .concat parts, text => ∃ texts, WrittenParts Regex.isCompound parts texts ∧
      text = texts.flatten
  | .alternation parts, text => ∃ texts, WrittenParts Regex.isAlternation parts texts ∧
      text = (ascii "|").intercalate texts
  | .repetition part, text => ∃ inner, Written part inner ∧
      text = parenthesized inner ++ ascii "+"
  | .optional part, text => ∃ inner, Written part inner ∧
      text = parenthesized inner ++ ascii "?"

/-- The patterns of several parts, where some parts have parentheses around them. -/
def WrittenParts (encloses : Regex → Bool) : List Regex → List Bytes → Prop
  | [], texts => texts = []
  | part :: parts, texts => ∃ inner rest, Written part inner ∧ WrittenParts encloses parts rest ∧
      texts = (if encloses part then parenthesized inner else inner) :: rest

end

theorem exists_isHexDigit (value : Nat) (h : value < 16) : ∃ digit, IsHexDigit digit value :=
  ⟨_, .inl (List.getElem?_eq_getElem h)⟩

/-- Every byte has a code. -/
theorem exists_writtenCode (b : UInt8) : ∃ text, WrittenCode b text := by
  have hb : b.toNat < 256 := b.toNat_lt
  obtain ⟨high, hhigh⟩ := exists_isHexDigit (b.toNat / 16) (by omega)
  obtain ⟨low, hlow⟩ := exists_isHexDigit (b.toNat % 16) (by omega)
  exact ⟨_, .intro high low hhigh hlow⟩

/-- Every range can be written, be it without redundancies or not. -/
theorem exists_writtenRange (range : ByteRange) : ∃ text, WrittenRange range text := by
  obtain ⟨first, last⟩ := range
  by_cases h : first = last
  · obtain ⟨text, htext⟩ := exists_writtenCode first
    subst h
    exact ⟨text, .single first htext⟩
  · exact ⟨_, .ends first last h⟩

/-- If each of several things can be written, they can be written one after the other. -/
theorem exists_forall₂ {α : Type} {R : α → Bytes → Prop} (h : ∀ a, ∃ text, R a text)
    (as : List α) : ∃ texts, List.Forall₂ R as texts := by
  choose f hf using h
  exact ⟨as.map f, List.forall₂_map_right_iff.2 (List.forall₂_same.2 fun a _ => hf a)⟩

/-- Parts can be written if each of them can, with any choice of those that have parentheses. -/
theorem exists_writtenParts (encloses : Regex → Bool) {parts : List Regex}
    (h : ∀ part ∈ parts, ∃ text, Written part text) :
    ∃ texts, WrittenParts encloses parts texts := by
  induction parts with
  | nil => exact ⟨[], rfl⟩
  | cons part parts ih =>
    obtain ⟨⟨inner, hinner⟩, hparts⟩ := List.forall_mem_cons.1 h
    obtain ⟨rest, hrest⟩ := ih hparts
    exact ⟨_, inner, rest, hinner, hrest, rfl⟩

/-- Every expression without redundancies can be written. -/
theorem exists_written {r : Regex} (h : r.isCanonical = true) : ∃ text, Written r text := by
  induction r using Regex.induction with
  | set bytes =>
    obtain ⟨ranges, negated⟩ := bytes
    simp only [Regex.isCanonical, CharSet.isCanonical, Bool.or_eq_true, beq_iff_eq,
      Bool.and_eq_true, Bool.not_eq_true', List.isEmpty_eq_false_iff] at h
    rcases h with hall | ⟨hne, -⟩
    · rw [hall]
      exact ⟨_, .all⟩
    · obtain ⟨texts, htexts⟩ := exists_forall₂ exists_writtenRange ranges
      exact ⟨_, .brackets ranges negated texts hne htexts⟩
  | literal bytes =>
    have hbyte : ∀ b, ∃ text, WrittenByte b text := by
      intro b
      obtain ⟨text, htext⟩ := exists_writtenCode b
      exact ⟨text, .code b htext⟩
    obtain ⟨spellings, hspellings⟩ := exists_forall₂ hbyte bytes
    exact ⟨_, spellings, hspellings, rfl⟩
  | anchor a => exact ⟨_, rfl⟩
  | concat parts ih =>
    simp only [Regex.isCanonical, Bool.and_eq_true] at h
    obtain ⟨texts, htexts⟩ := exists_writtenParts Regex.isCompound fun part hpart =>
      ih part hpart (Regex.isCanonical_of_mem h.2 hpart)
    exact ⟨_, texts, htexts, rfl⟩
  | alternation parts ih =>
    simp only [Regex.isCanonical, Bool.and_eq_true] at h
    obtain ⟨texts, htexts⟩ := exists_writtenParts Regex.isAlternation fun part hpart =>
      ih part hpart (Regex.isCanonical_of_mem h.2 hpart)
    exact ⟨_, texts, htexts, rfl⟩
  | repetition part ih =>
    obtain ⟨inner, hinner⟩ := ih h
    exact ⟨_, inner, hinner, rfl⟩
  | optional part ih =>
    obtain ⟨inner, hinner⟩ := ih h
    exact ⟨_, inner, hinner, rfl⟩

end Pattern

end PhraseGrammar
