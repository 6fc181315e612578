import PhraseGrammar.Proofs.Pattern.Lexemes
import PhraseGrammar.Proofs.Pattern.Nesting

/-!
# Symbols of a pattern

A pattern without bracket sets can be read without regard to what its pieces mean: a symbol is
an escape or a single byte (`scan`). Reading gets stuck at a backslash that starts no escape.

The lexemes of such a text are its symbols one by one, followed by one that is unreadable if
reading gets stuck (`matchUp_scan`). What a lexeme means to the pattern is seen from its symbol
(`Symbol.StandsFor`): only bytes by themselves open and close groups, separate branches and
repeat; everything else is an item.
-/

set_option autoImplicit false

namespace PhraseGrammar

namespace Pattern

/-- The letters that make an escape with a backslash before them. -/
def escapeLetters : Bytes := ascii "bdwsDWStnr"

/-- The digits of a code, in either case. -/
def codeDigits : Bytes := ascii "0123456789abcdefABCDEF"

/-- A symbol: a byte that is no backslash, or a backslash with the bytes after it. -/
inductive Symbol
  | raw (b : UInt8)
  | escape (bytes : Bytes)
  deriving DecidableEq, Repr

namespace Symbol

/-- The symbol that opens a group. -/
def opening : Symbol := raw '('.toUInt8

/-- The symbol that closes a group. -/
def closing : Symbol := raw ')'.toUInt8

/-- The symbol between two branches. -/
def bar : Symbol := raw '|'.toUInt8

/-- The symbol that would start a repetition with a count. -/
def brace : Symbol := raw '\x7b'.toUInt8

/-- The symbol that starts a bracket set. -/
def bracket : Symbol := raw '['.toUInt8

/-- Whether a symbol is a plus sign, an asterisk or a question mark. -/
def isQuantifier (s : Symbol) : Bool :=
  s = raw '+'.toUInt8 || s = raw '*'.toUInt8 || s = raw '?'.toUInt8

/-- Whether a symbol has no part in how a pattern is put together. -/
def isPlain (s : Symbol) : Bool :=
  !s.isQuantifier && s ∉ [opening, closing, bar, brace]

end Symbol

/-- A text as it was read: its symbols, up to where no symbol could be read, and the rest. -/
structure Scan where
  symbols : List Symbol
  rest : Bytes
  deriving DecidableEq, Repr

/-- What was read, with a symbol before it. -/
def Scan.push (s : Symbol) (scan : Scan) : Scan :=
  ⟨s :: scan.symbols, scan.rest⟩

/-- Reads a text from left to right. A backslash goes with a letter that makes an escape, with a
byte that has a meaning of its own, or with an `x` and two digits. -/
def scan : Bytes → Scan
  | [] => ⟨[], []⟩
  | b :: text =>
    if b ≠ backslash then (scan text).push (.raw b)
    else
      match text with
      | [] => ⟨[], [b]⟩
      | c :: more =>
        if c ∈ escapeLetters ++ escapable then (scan more).push (.escape [c])
        else
          match more with
          | high :: low :: others =>
            if c = 'x'.toUInt8 ∧ high ∈ codeDigits ∧ low ∈ codeDigits then
              (scan others).push (.escape [c, high, low])
            else ⟨[], b :: c :: high :: low :: others⟩
          | short => ⟨[], b :: c :: short⟩

/-- A symbol is to a pattern what a lexeme is to it. -/
inductive Symbol.StandsFor : Symbol → Lexeme → Prop
  | opening : StandsFor .opening .opening
  | closing : StandsFor .closing .closing
  | bar : StandsFor .bar .bar
  | brace : StandsFor .brace .brace
  | quantifier {s : Symbol} (q : Quantifier) (h : s.isQuantifier = true) :
    StandsFor s (.quantifier q)
  | item {s : Symbol} (r : Regex) (h : s.isPlain = true) : StandsFor s (.item r)

/-- Symbols match up with lexemes without notes. If there is a rest after the symbols, there is
one more lexeme, which cannot be read. -/
inductive MatchUp : Scan → List PlacedLexeme → Prop
  | finished : MatchUp ⟨[], []⟩ []
  | stuck {rest : Bytes} {l : PlacedLexeme} (hrest : rest ≠ [])
    (hl : l.lexeme.isUnreadable = true) : MatchUp ⟨[], rest⟩ [l]
  | cons {s : Symbol} {l : PlacedLexeme} {syms : List Symbol} {rest : Bytes}
    {ls : List PlacedLexeme} (hs : s.StandsFor l.lexeme) (hnotes : l.notes = [])
    (h : MatchUp ⟨syms, rest⟩ ls) : MatchUp ⟨s :: syms, rest⟩ (l :: ls)

/-- A fact that can be checked for all bytes one by one. -/
theorem forall_byte {P : UInt8 → Prop} (h : ∀ n < 256, P n.toUInt8) (b : UInt8) : P b := by
  have hb : b.toNat.toUInt8 = b := UInt8.ofNat_toNat
  exact hb ▸ h b.toNat b.toNat_lt

/-- A byte that makes no escape by itself stands for no item. -/
theorem escapedItem?_eq_none {c : UInt8} (hc : c ∉ escapeLetters ++ escapable) :
    escapedItem? c = none := by
  have hne : ∀ d ∈ escapeLetters, c ≠ d := by
    rintro d hd rfl
    exact hc (List.mem_append_left _ hd)
  unfold escapedItem? Shorthand.ofByte? Shorthand.ofComplementByte?
  iterate 7 rw [if_neg (hne _ (by decide))]
  rfl

/-- A byte makes an escape by itself if it stands for an item or for a byte. -/
theorem mem_escapes_iff (c : UInt8) : c ∈ escapeLetters ++ escapable ↔
    (escapedItem? c).isSome = true ∨
      c ≠ 'x'.toUInt8 ∧ (unescape? patternSpecials c).isSome = true := by
  have hall : ∀ d ∈ escapeLetters ++ escapable, (escapedItem? d).isSome = true ∨
      d ≠ 'x'.toUInt8 ∧ (unescape? patternSpecials d).isSome = true := by decide +kernel
  refine ⟨hall c, fun h => ?_⟩
  by_contra hc
  have hne : ∀ d ∈ escapeLetters ++ escapable, c ≠ d := by
    rintro d hd rfl
    exact hc hd
  have hspecial : patternSpecials.contains c = false := by
    rw [List.contains_eq_mem]
    exact decide_eq_false fun hmem => hc (List.mem_append_right _ hmem)
  have hbyte : unescape? patternSpecials c = none := by
    unfold unescape?
    iterate 3 rw [if_neg (hne _ (by decide))]
    rw [hspecial]
    rfl
  rw [escapedItem?_eq_none hc, hbyte] at h
  simp at h

theorem mem_codeDigits_iff (c : UInt8) : c ∈ codeDigits ↔ (Byte.hexValue? c).isSome = true := by
  revert c
  apply forall_byte
  decide +kernel

/-- The bytes that are not reserved have no part in how a pattern is put together. -/
theorem isPlain_raw {b : UInt8} (h : b ∉ reserved) : (Symbol.raw b).isPlain = true := by
  have hne : ∀ c ∈ reserved, b ≠ c := by
    rintro c hc rfl
    exact h hc
  simp (disch := decide) [Symbol.isPlain, Symbol.isQuantifier, Symbol.opening, Symbol.closing,
    Symbol.bar, Symbol.brace, hne]

/-- The code of a byte is two digits. -/
theorem isSome_hexPair?_iff (high low : UInt8) (rest : Bytes) :
    (hexPair? (high :: low :: rest)).isSome = true ↔ high ∈ codeDigits ∧ low ∈ codeDigits := by
  rw [mem_codeDigits_iff, mem_codeDigits_iff, hexPair?]
  cases Byte.hexValue? high with
  | none => simp
  | some h =>
    cases Byte.hexValue? low with
    | none => simp
    | some l => simp

/-- A byte that is neither a backslash nor an opening bracket stands for its lexeme. -/
theorem standsFor_raw {b : UInt8} {l : Lexeme} (h : IsByteLexeme b l) :
    (Symbol.raw b).StandsFor l := by
  cases h with
  | opening => exact .opening
  | closing => exact .closing
  | bar => exact .bar
  | brace => exact .brace
  | oneOrMore | zeroOrOne | zeroOrMore => exact .quantifier _ (by decide)
  | anyByte | lineStart | lineEnd => exact .item _ (by decide)
  | plain _ hplain => exact .item _ (isPlain_raw hplain)

theorem standsFor_escape (bytes : Bytes) (r : Regex) : (Symbol.escape bytes).StandsFor (.item r) :=
  .item r rfl

theorem isUnreadable_of_standsFor {s : Symbol} {l : Lexeme} (h : s.StandsFor l) :
    l.isUnreadable = false := by
  cases h with
  | _ => rfl

/-- The lexeme of a byte that starts neither a bracket set nor an escape. -/
theorem readLexeme_raw {b : UInt8} (hb : b ≠ backslash) (hbracket : Symbol.raw b ≠ .bracket)
    (pos : Nat) (rest : Bytes) :
    ∃ l, readLexeme pos b rest = { start := pos, lexeme := l } ∧ (Symbol.raw b).StandsFor l := by
  have hat := lexemeAt_readLexeme pos b rest
  generalize readLexeme pos b rest = placed at hat
  cases hat with
  | byte _ hbyte => exact ⟨_, rfl, standsFor_raw hbyte⟩
  | set | openSet => exact absurd rfl hbracket
  | escapedItem | escapedByte | badEscape => exact absurd rfl hb

/-- An escape of one byte after the backslash is an item. -/
theorem readLexeme_escape {c : UInt8} (hc : c ∈ escapeLetters ++ escapable) (pos : Nat)
    (more : Bytes) : ∃ r, readLexeme pos backslash (c :: more) =
      { start := pos, lexeme := .item r, width := 2 } := by
  rw [readLexeme_backslash, escapeLexeme]
  simp only [List.head?_cons, Option.bind_some]
  cases hitem : escapedItem? c with
  | some r => exact ⟨r, rfl⟩
  | none =>
    have hbyte := (mem_escapes_iff c).1 hc
    simp only [hitem, Option.isSome_none, Bool.false_eq_true, false_or] at hbyte
    obtain ⟨b, hb⟩ := Option.isSome_iff_exists.1 hbyte.2
    simp only [readEscape, if_neg hbyte.1, hb]
    exact ⟨_, rfl⟩

/-- An escape with a code is an item. -/
theorem readLexeme_code {high low : UInt8} (hhigh : high ∈ codeDigits) (hlow : low ∈ codeDigits)
    (pos : Nat) (others : Bytes) :
    ∃ r, readLexeme pos backslash ('x'.toUInt8 :: high :: low :: others) =
      { start := pos, lexeme := .item r, width := 4 } := by
  have hpair := (isSome_hexPair?_iff high low others).2 ⟨hhigh, hlow⟩
  obtain ⟨b, hb⟩ := Option.isSome_iff_exists.1 hpair
  have hitem : escapedItem? 'x'.toUInt8 = none := rfl
  rw [readLexeme_backslash, escapeLexeme]
  simp only [List.head?_cons, Option.bind_some, hitem, readEscape, if_true, hb]
  exact ⟨_, rfl⟩

/-- A backslash that starts no escape cannot be read. -/
theorem isUnreadable_readLexeme {text : Bytes} (pos : Nat)
    (hescape : ∀ c ∈ text.head?, c ∉ escapeLetters ++ escapable)
    (hcode : ∀ high low others, text = 'x'.toUInt8 :: high :: low :: others →
      ¬ (high ∈ codeDigits ∧ low ∈ codeDigits)) :
    (readLexeme pos backslash text).lexeme.isUnreadable = true := by
  rw [readLexeme_backslash, escapeLexeme]
  cases text with
  | nil => rfl
  | cons c more =>
    have hc := hescape c rfl
    simp only [List.head?_cons, Option.bind_some, escapedItem?_eq_none hc, readEscape]
    by_cases hx : c = 'x'.toUInt8
    · rw [if_pos hx]
      cases hpair : hexPair? more with
      | none => rfl
      | some b =>
        cases more with
        | nil => cases hpair
        | cons high rest =>
          cases rest with
          | nil => cases hpair
          | cons low others =>
            have hdigits := (isSome_hexPair?_iff high low others).1 (by rw [hpair]; rfl)
            exact absurd hdigits (hcode high low others (by rw [hx]))
    · rw [if_neg hx]
      cases hbyte : unescape? patternSpecials c with
      | none => rfl
      | some b =>
        exact absurd ((mem_escapes_iff c).2 (.inr ⟨hx, by rw [hbyte]; rfl⟩)) hc

/-- A lexeme of an escape is followed by the lexemes of the text after it. -/
theorem lexemes_escape {pos width : Nat} {text : Bytes} {r : Regex}
    (h : readLexeme pos backslash text = { start := pos, lexeme := .item r, width := width }) :
    lexemes pos (backslash :: text) = { start := pos, lexeme := .item r, width := width } ::
      lexemes (pos + width) (text.drop (width - 1)) := by
  rw [lexemes, h]
  rfl

/-- Where reading gets stuck there is one more lexeme. -/
theorem matchUp_stuck {pos : Nat} {text : Bytes}
    (h : (readLexeme pos backslash text).lexeme.isUnreadable = true) :
    MatchUp ⟨[], backslash :: text⟩ (lexemes pos (backslash :: text)) := by
  rw [lexemes, if_pos h]
  exact .stuck (List.cons_ne_nil _ _) h

/-- The symbols of a text without bracket sets match up with its lexemes. -/
theorem matchUp_scan {text : Bytes} (pos : Nat) (h : .bracket ∉ (scan text).symbols) :
    MatchUp (scan text) (lexemes pos text) := by
  fun_induction scan text generalizing pos with
  | case1 =>
    rw [lexemes]
    exact .finished
  | case2 b text hb ih =>
    obtain ⟨hfirst, hlater⟩ := not_or.1 (List.mem_cons.not.1 h)
    obtain ⟨l, hread, hstands⟩ := readLexeme_raw hb (Ne.symm hfirst) pos text
    rw [lexemes_cons hread (isUnreadable_of_standsFor hstands) rfl]
    exact .cons hstands rfl (ih (pos + 1) hlater)
  | case3 b hb =>
    rw [not_not.1 hb]
    refine matchUp_stuck (isUnreadable_readLexeme pos ?_ ?_)
    · intro c hc
      cases hc
    · intro high low others heq
      cases heq
  | case4 b hb c more hc ih =>
    rw [not_not.1 hb]
    obtain ⟨r, hread⟩ := readLexeme_escape hc pos more
    rw [lexemes_escape hread]
    exact .cons (standsFor_escape [c] r) rfl (ih (pos + 2) (List.not_mem_of_not_mem_cons h))
  | case5 b hb c hc high low others hcode ih =>
    obtain ⟨rfl, hhigh, hlow⟩ := hcode
    rw [not_not.1 hb]
    obtain ⟨r, hread⟩ := readLexeme_code hhigh hlow pos others
    rw [lexemes_escape hread]
    exact .cons (standsFor_escape ['x'.toUInt8, high, low] r) rfl
      (ih (pos + 4) (List.not_mem_of_not_mem_cons h))
  | case6 b hb c hc high low others hcode =>
    rw [not_not.1 hb]
    refine matchUp_stuck (isUnreadable_readLexeme pos ?_ ?_)
    · intro d hd
      cases hd
      exact hc
    · intro high' low' others' heq hdigits
      cases heq
      exact hcode ⟨rfl, hdigits⟩
  | case7 b hb c hc short hshort =>
    rw [not_not.1 hb]
    refine matchUp_stuck (isUnreadable_readLexeme pos ?_ ?_)
    · intro d hd
      cases hd
      exact hc
    · intro high low others heq
      cases heq
      exact (hshort high low others rfl).elim

end Pattern

end PhraseGrammar
