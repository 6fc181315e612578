import PhraseGrammar.Proofs.Pattern.NormalForm
import PhraseGrammar.Proofs.Pattern.Symbols

/-!
# The grammar of bracket sets

A bracket set is read by its grammar: items one after the other up to the closing bracket, where
an item is a shorthand, an element, or two elements with a dash in between. The relations of this
module state the grammar on texts, without positions, notes and widths (`ItemAt`, `ItemsAt`). A
dash right before a closing bracket is an element (`OpensRange`), and so is a closing bracket that
is the first item.

A set is read without errors exactly if its text is in the grammar, and it is then the set of the
items that are written there (`readBracketSet_iff`). A flaw does not end the reading: what
follows an error may still be read as items, but the error stays among the notes.
-/

set_option autoImplicit false

namespace PhraseGrammar

namespace Pattern

/-- The spellings of an element of a bracket set. -/
inductive WrittenElement : UInt8 → Bytes → Prop
  | plain (b : UInt8) (hprintable : Byte.isPrintable b = true) (hne : b ≠ backslash) :
    WrittenElement b [b]
  | escaped (b : UInt8) (h : b ∈ ascii "^\\-]") : WrittenElement b (ascii "\\" ++ [b])
  | newline : WrittenElement '\n'.toUInt8 (ascii "\\n")
  | tab : WrittenElement '\t'.toUInt8 (ascii "\\t")
  | carriageReturn : WrittenElement '\r'.toUInt8 (ascii "\\r")
  | code (b : UInt8) {text : Bytes} (h : WrittenCode b text) : WrittenElement b text

/-- A shorthand as it is written. -/
def Shorthand.text : Shorthand → Bytes
  | digit => ascii "\\d"
  | word => ascii "\\w"
  | space => ascii "\\s"

/-- A text starts with a dash that is not directly before a closing bracket. -/
def OpensRange (text : Bytes) : Prop :=
  ∃ rest, text = dash :: rest ∧ rest.head? ≠ some closingBracket

/-- The ends that a range may have: equal ones, or ascending ones among the digits or among the
letters of one case. -/
def AreEnds (first last : UInt8) : Prop :=
  first = last ∨ first < last ∧
    (Byte.isDigit first = true ∧ Byte.isDigit last = true ∨
      Byte.isUpper first = true ∧ Byte.isUpper last = true ∨
      Byte.isLower first = true ∧ Byte.isLower last = true)

/-- A text begins with an item, and the rest follows. After an element no range is opened, or
else the element would be the first of two; and after a range none may be opened. -/
inductive ItemAt : Bytes → SetItem → Bytes → Prop
  | shorthand (s : Shorthand) (rest : Bytes) : ItemAt (s.text ++ rest) (.shorthand s) rest
  | single {b : UInt8} {text rest : Bytes} (h : WrittenElement b text) (hrest : ¬ OpensRange rest) :
    ItemAt (text ++ rest) (.single b) rest
  | range {first last : UInt8} {text more rest : Bytes} (hfirst : WrittenElement first text)
    (hopens : OpensRange (dash :: (more ++ rest))) (hlast : WrittenElement last more)
    (hends : AreEnds first last) (hrest : ¬ OpensRange rest) :
    ItemAt (text ++ dash :: (more ++ rest)) (.range first last) rest

/-- A text begins with one or more items and a closing bracket, and the rest follows. Only the
first item may start with a closing bracket. -/
inductive ItemsAt : Bytes → List SetItem → Bytes → Prop
  | last {text rest : Bytes} {item : SetItem} (h : ItemAt text item (closingBracket :: rest)) :
    ItemsAt text [item] rest
  | more {text middle rest : Bytes} {item : SetItem} {items : List SetItem}
    (h : ItemAt text item middle) (hopen : middle.head? ≠ some closingBracket)
    (hitems : ItemsAt middle items rest) : ItemsAt text (item :: items) rest

/-- What follows an opening bracket is a set: a caret if the set is negated, then its items and the
closing bracket. A caret is never the first item. -/
inductive SetAt : Bytes → Bool → List SetItem → Bytes → Prop
  | plain {body rest : Bytes} {items : List SetItem} (hcaret : body.head? ≠ some '^'.toUInt8)
    (h : ItemsAt body items rest) : SetAt body false items rest
  | negated {body rest : Bytes} {items : List SetItem} (h : ItemsAt body items rest) :
    SetAt ('^'.toUInt8 :: body) true items rest

/-- The bytes that an item stands for. -/
def SetItem.Covers : SetItem → UInt8 → Prop
  | .shorthand .digit, b => Byte.isDigit b = true
  | .shorthand .word, b => Byte.isAlphanumeric b = true ∨ b = '_'.toUInt8
  | .shorthand .space, b => b = ' '.toUInt8 ∨ '\t'.toUInt8 ≤ b ∧ b ≤ '\r'.toUInt8
  | .single c, b => b = c
  | .range first last, b => first ≤ b ∧ b ≤ last

theorem startsWithRangeDash_iff (text : Bytes) :
    startsWithRangeDash text = true ↔ OpensRange text := by
  unfold startsWithRangeDash OpensRange
  cases text with
  | nil => simp
  | cons b rest => simp

theorem ne_nil_of_writtenElement {b : UInt8} {text : Bytes} (h : WrittenElement b text) :
    text ≠ [] := by
  cases h with
  | code _ hcode =>
    obtain ⟨high, low, -, -⟩ := hcode
    exact List.cons_ne_nil _ _
  | _ => exact List.cons_ne_nil _ _

/-! ## Elements -/

/-- The value of a hexadecimal digit. -/
theorem isHexDigit_of_hexValue? {digit value : UInt8} (h : Byte.hexValue? digit = some value) :
    IsHexDigit digit value.toNat ∧ value.toNat < 16 := by
  have hall : ∀ digit : UInt8, ∀ value ∈ Byte.hexValue? digit,
      ((ascii "0123456789abcdef")[value.toNat]? = some digit ∨
        (ascii "0123456789ABCDEF")[value.toNat]? = some digit) ∧ value.toNat < 16 := by
    apply forall_byte
    decide +kernel
  exact hall digit value h

/-- Two digits that are read as a byte are the code of the byte. -/
theorem writtenCode_of_hexPair? {digits : Bytes} {b : UInt8} (h : hexPair? digits = some b) :
    ∃ high low rest, digits = high :: low :: rest ∧
      WrittenCode b (ascii "\\x" ++ [high, low]) := by
  unfold hexPair? at h
  split at h
  · next high low rest =>
    obtain ⟨upper, hupper, hlower⟩ := Option.bind_eq_some_iff.1 h
    obtain ⟨lower, hlower, hb⟩ := Option.bind_eq_some_iff.1 hlower
    obtain ⟨hhigh, hhighLt⟩ := isHexDigit_of_hexValue? hupper
    obtain ⟨hlow, hlowLt⟩ := isHexDigit_of_hexValue? hlower
    have hvalue : b.toNat = upper.toNat * 16 + lower.toNat := by
      cases hb
      have hbase : (16 : UInt8).toNat = 16 := rfl
      rw [UInt8.toNat_add, UInt8.toNat_mul, hbase]
      omega
    refine ⟨high, low, rest, rfl, .intro high low ?_ ?_⟩
    · have hdiv : b.toNat / 16 = upper.toNat := by omega
      rwa [hdiv]
    · have hmod : b.toNat % 16 = lower.toNat := by omega
      rwa [hmod]
  · cases h

/-- The byte that a backslash and `c` stand for in a bracket set. -/
theorem writtenElement_of_unescape? {c b : UInt8} (h : unescape? setSpecials c = some b) :
    WrittenElement b [backslash, c] := by
  unfold unescape? at h
  split at h
  · next hc =>
    cases h
    rw [hc]
    exact .tab
  · split at h
    · next hc =>
      cases h
      rw [hc]
      exact .newline
    · split at h
      · next hc =>
        cases h
        rw [hc]
        exact .carriageReturn
      · split at h
        · next hc =>
          cases h
          exact .escaped _ (List.contains_iff_mem.1 hc)
        · cases h

/-- An escape that is read in a bracket set spells an element. -/
theorem writtenElement_of_readEscape {pos w : Nat} {rest : Bytes} {b : UInt8}
    (h : readEscape setSpecials pos rest = .ok (b, w)) :
    ∃ text more, backslash :: rest = text ++ more ∧ WrittenElement b text ∧ text.length = w := by
  unfold readEscape at h
  split at h
  · cases h
  · next c digits =>
    split at h
    · next hx =>
      split at h
      · next hpair =>
        cases h
        obtain ⟨high, low, more, rfl, hcode⟩ := writtenCode_of_hexPair? hpair
        rw [hx]
        exact ⟨ascii "\\x" ++ [high, low], more, rfl, .code _ hcode, rfl⟩
      · cases h
    · split at h
      · next hbyte =>
        cases h
        exact ⟨[backslash, c], digits, rfl, writtenElement_of_unescape? hbyte, rfl⟩
      · cases h

/-- What is read as an element is a spelling of it. -/
theorem writtenElement_of_readElement {pos w : Nat} {text : Bytes} {b : UInt8}
    (h : readElement pos text = .ok (b, w)) :
    ∃ spelled rest, text = spelled ++ rest ∧ WrittenElement b spelled ∧ spelled.length = w := by
  unfold readElement at h
  split at h
  · cases h
  · next c rest =>
    split at h
    · next hc =>
      rw [hc]
      cases hescape : readEscape setSpecials pos rest with
      | error note =>
        rw [hescape] at h
        cases h
      | ok read =>
        rw [hescape] at h
        cases h
        exact writtenElement_of_readEscape hescape
    · next hc =>
      split at h
      · next hprintable =>
        cases h
        exact ⟨[b], rest, rfl, .plain b hprintable hc, rfl⟩
      · cases h

/-- A spelling of an element is read as that, whatever follows. -/
theorem readElement_written {b : UInt8} {text : Bytes} (h : WrittenElement b text) (pos : Nat)
    (rest : Bytes) : readElement pos (text ++ rest) = .ok (b, text.length) := by
  cases h with
  | plain _ hprintable hne =>
    rw [List.singleton_append, readElement, if_neg hne, if_pos hprintable]
    rfl
  | escaped _ hb =>
    have hall : ∀ b ∈ ascii "^\\-]", b ≠ 'x'.toUInt8 ∧ unescape? setSpecials b = some b := by
      decide +kernel
    obtain ⟨hx, hbyte⟩ := hall b hb
    show readElement pos (backslash :: b :: rest) = _
    rw [readElement, if_pos rfl, readEscape, if_neg hx, hbyte]
    rfl
  | newline => rfl
  | tab => rfl
  | carriageReturn => rfl
  | code _ hcode =>
    obtain ⟨high, low, hhigh, hlow⟩ := hcode
    show readElement pos (backslash :: 'x'.toUInt8 :: high :: low :: rest) = _
    rw [readElement, if_pos rfl, readEscape_code hhigh hlow]
    rfl

/-! ## Items -/

theorem leadingShorthand?_text (s : Shorthand) (rest : Bytes) :
    leadingShorthand? (s.text ++ rest) = some s := by
  cases s with
  | _ => rfl

theorem eq_text_of_leadingShorthand? {text : Bytes} {s : Shorthand}
    (h : leadingShorthand? text = some s) : ∃ rest, text = s.text ++ rest := by
  unfold leadingShorthand? at h
  split at h
  · next b c rest =>
    split at h
    · next hb =>
      rw [hb]
      unfold Shorthand.ofByte? at h
      split at h
      · next hc =>
        cases h
        rw [hc]
        exact ⟨rest, rfl⟩
      · split at h
        · next hc =>
          cases h
          rw [hc]
          exact ⟨rest, rfl⟩
        · split at h
          · next hc =>
            cases h
            rw [hc]
            exact ⟨rest, rfl⟩
          · cases h
    · cases h
  · cases h

/-- An element does not begin like a shorthand. -/
theorem leadingShorthand?_element {b : UInt8} {text : Bytes} (h : WrittenElement b text)
    (rest : Bytes) : leadingShorthand? (text ++ rest) = none := by
  cases h with
  | plain _ hprintable hne =>
    rw [List.singleton_append]
    cases rest with
    | nil => rfl
    | cons c more => rw [leadingShorthand?, if_neg hne]
  | escaped _ hb =>
    have hall : ∀ b ∈ ascii "^\\-]", Shorthand.ofByte? b = none := by decide +kernel
    exact hall b hb
  | newline => rfl
  | tab => rfl
  | carriageReturn => rfl
  | code _ hcode =>
    obtain ⟨high, low, -, -⟩ := hcode
    rfl

/-- A range has no flaw that is an error exactly if it has ends that it may have. -/
theorem forall_rangeFlaw?_iff (first last : UInt8) :
    (∀ flaw ∈ rangeFlaw? first last, flaw.severity = .warning) ↔ AreEnds first last := by
  have hplain : isPlainRange first last = true ↔
      (Byte.isDigit first = true ∧ Byte.isDigit last = true ∨
        Byte.isUpper first = true ∧ Byte.isUpper last = true ∨
        Byte.isLower first = true ∧ Byte.isLower last = true) := by
    simp only [isPlainRange, Bool.or_eq_true, Bool.and_eq_true, or_assoc]
  unfold rangeFlaw? AreEnds
  rw [← hplain]
  by_cases heq : first = last
  · simp [heq, Flaw.severity]
  · by_cases hlt : last < first
    · have hnot : ¬ first < last := UInt8.not_lt.2 (UInt8.le_of_lt hlt)
      simp [heq, hlt, hnot, Flaw.severity]
    · have hascending : first < last := UInt8.lt_of_le_of_ne (UInt8.not_lt.1 hlt) heq
      cases hkind : isPlainRange first last with
      | true => simp [heq, hlt, hascending]
      | false => simp [heq, hlt, Flaw.severity]

/-- The notes on the end of a range that could be read hold no error exactly if the ends are allowed
and no range is opened right after it. -/
theorem areWarnings_readRangeEnd {start pos w width : Nat} {first last : UInt8} {text : Bytes}
    (h : readElement pos text = .ok (last, w)) :
    AreWarnings (readRangeEnd start first pos text width).notes ↔
      AreEnds first last ∧ ¬ OpensRange (text.drop w) := by
  rw [← forall_rangeFlaw?_iff, ← startsWithRangeDash_iff]
  simp only [readRangeEnd, h, AreWarnings, List.forall_mem_append]
  refine and_congr ⟨fun hnotes flaw hflaw => ?_, fun hflaws note hnote => ?_⟩ ?_
  · have hwarning := hnotes _ (List.mem_map.2 ⟨flaw, Option.mem_toList.2 hflaw, rfl⟩)
    cases hseverity : flaw.severity with
    | warning => rfl
    | error => simp [Note.isError, hseverity] at hwarning
  · obtain ⟨flaw, hflaw, rfl⟩ := List.mem_map.1 hnote
    rw [Note.isError, hflaws flaw (Option.mem_toList.1 hflaw)]
    rfl
  · cases startsWithRangeDash (text.drop w) with
    | true => simp [Note.isError, Flaw.severity]
    | false => simp

/-- The end of a range that is read with nothing but warnings is written there, unless the text
ends before it. -/
theorem writtenElement_of_readRangeEnd {start pos width : Nat} {first : UInt8} {text : Bytes}
    (h : AreWarnings (readRangeEnd start first pos text width).notes) (hne : text ≠ []) :
    ∃ last spelled rest, text = spelled ++ rest ∧ WrittenElement last spelled ∧
      AreEnds first last ∧ ¬ OpensRange rest ∧
      readRangeEnd start first pos text width =
        ⟨some (.range first last), (readRangeEnd start first pos text width).notes,
          width + spelled.length⟩ := by
  obtain ⟨b, more, rfl⟩ := List.exists_cons_of_ne_nil hne
  cases hlast : readElement pos (b :: more) with
  | error notes =>
    have hnotes : (readRangeEnd start first pos (b :: more) width).notes = notes := by
      rw [readRangeEnd, hlast]
    rw [hnotes] at h
    exact absurd h (isError_of_readElement hlast)
  | ok read =>
    obtain ⟨last, w⟩ := read
    obtain ⟨hends, hrest⟩ := (areWarnings_readRangeEnd hlast).1 h
    obtain ⟨spelled, rest, htext, hwritten, hlength⟩ := writtenElement_of_readElement hlast
    rw [htext, ← hlength, List.drop_left] at hrest
    refine ⟨last, spelled, rest, htext, hwritten, hends, hrest, ?_⟩
    rw [hlength]
    simp only [readRangeEnd, hlast]

/-- A range that is read to its end with nothing but warnings is written there, unless the text ends
with it. -/
theorem itemAt_of_readRangeEnd {start pos : Nat} {first : UInt8} {spelled after : Bytes}
    (hwritten : WrittenElement first spelled) (hclosing : after.head? ≠ some closingBracket)
    (h : AreWarnings (readRangeEnd start first pos after (spelled.length + 1)).notes)
    (hmore : (spelled ++ dash :: after).drop
      (readRangeEnd start first pos after (spelled.length + 1)).width ≠ []) :
    ∃ item, (readRangeEnd start first pos after (spelled.length + 1)).item = some item ∧
      ItemAt (spelled ++ dash :: after) item ((spelled ++ dash :: after).drop
        (readRangeEnd start first pos after (spelled.length + 1)).width) := by
  -- After a dash at the end of the text, nothing would be left.
  have hne : after ≠ [] := by
    rintro rfl
    apply hmore
    simp [readRangeEnd, readElement]
  obtain ⟨last, lastSpelled, others, hafter, hlast, hends, hothers, hread⟩ :=
    writtenElement_of_readRangeEnd h hne
  rw [hread, hafter]
  have hrest : (spelled ++ dash :: (lastSpelled ++ others)).drop
      (spelled.length + 1 + lastSpelled.length) = others := by
    rw [List.append_cons, ← List.append_assoc, List.drop_left']
    simp only [List.length_append, List.length_singleton]
  rw [hrest]
  exact ⟨_, rfl, .range hwritten ⟨_, rfl, hafter ▸ hclosing⟩ hlast hends hothers⟩

/-- An item that is read with nothing but warnings is written there, unless the text ends with
it. -/
theorem itemAt_of_readItem {start pos : Nat} {text : Bytes}
    (h : AreWarnings (readItem start pos text).notes)
    (hmore : text.drop (readItem start pos text).width ≠ []) :
    ∃ item, (readItem start pos text).item = some item ∧
      ItemAt text item (text.drop (readItem start pos text).width) := by
  cases hs : leadingShorthand? text with
  | some s =>
    obtain ⟨rest, rfl⟩ := eq_text_of_leadingShorthand? hs
    have hitem : readItem start pos (s.text ++ rest) = ⟨some (.shorthand s), [], 2⟩ := by
      rw [readItem, hs]
    have hlength : s.text.length = 2 := by
      cases s with
      | _ => rfl
    rw [hitem, ← hlength, List.drop_left]
    exact ⟨_, rfl, .shorthand s rest⟩
  | none =>
    cases helement : readElement pos text with
    | error notes =>
      have hitem : readItem start pos text = ⟨none, notes, 1⟩ := by
        rw [readItem, hs]
        simp only [helement]
      cases text with
      | nil => exact absurd rfl hmore
      | cons b more =>
        rw [hitem] at h
        exact absurd h (isError_of_readElement helement)
    | ok read =>
      obtain ⟨first, w⟩ := read
      obtain ⟨spelled, rest, rfl, hwritten, rfl⟩ := writtenElement_of_readElement helement
      have hdrop : (spelled ++ rest).drop spelled.length = rest := List.drop_left
      cases hdash : startsWithRangeDash rest with
      | false =>
        have hitem : readItem start pos (spelled ++ rest) =
            ⟨some (.single first), [], spelled.length⟩ := by
          simp only [readItem, hs, helement, hdrop, hdash, Bool.false_eq_true, if_false]
        rw [hitem, hdrop]
        refine ⟨_, rfl, .single hwritten fun hopens => ?_⟩
        rw [(startsWithRangeDash_iff rest).2 hopens] at hdash
        cases hdash
      | true =>
        have hitem : readItem start pos (spelled ++ rest) =
            readRangeEnd start first (pos + spelled.length + 1) rest.tail
              (spelled.length + 1) := by
          simp only [readItem, hs, helement, hdrop, hdash, if_true]
        have hopens := (startsWithRangeDash_iff rest).1 hdash
        obtain ⟨after, rfl, hclosing⟩ := hopens
        rw [List.tail_cons] at hitem
        rw [hitem] at h hmore ⊢
        exact itemAt_of_readRangeEnd hwritten hclosing h hmore

/-- An item that is written is read with nothing but warnings. -/
theorem readItem_of_itemAt {text rest : Bytes} {item : SetItem} (h : ItemAt text item rest)
    (start pos : Nat) :
    ∃ written notes, text = written ++ rest ∧ written ≠ [] ∧ AreWarnings notes ∧
      readItem start pos text = ⟨some item, notes, written.length⟩ := by
  cases h with
  | shorthand s =>
    refine ⟨s.text, [], rfl, ?_, List.forall_mem_nil _, ?_⟩
    · cases s with
      | _ => exact List.cons_ne_nil _ _
    · rw [readItem, leadingShorthand?_text]
      cases s with
      | _ => rfl
  | @single b spelled _ hwritten hrest =>
    refine ⟨spelled, [], rfl, ne_nil_of_writtenElement hwritten, List.forall_mem_nil _, ?_⟩
    have hdash : ¬ startsWithRangeDash rest = true := fun htrue =>
      hrest ((startsWithRangeDash_iff rest).1 htrue)
    simp only [readItem, leadingShorthand?_element hwritten, readElement_written hwritten,
      List.drop_left, if_neg hdash]
  | @range first last spelled more _ hfirst hopens hlast hends hrest =>
    have hread := readElement_written hlast (pos + spelled.length + 1) rest
    have hwarnings : AreWarnings (readRangeEnd start first (pos + spelled.length + 1)
        (more ++ rest) (spelled.length + 1)).notes := by
      rw [areWarnings_readRangeEnd hread, List.drop_left]
      exact ⟨hends, hrest⟩
    refine ⟨spelled ++ dash :: more, _, by simp, ?_, hwarnings, ?_⟩
    · exact List.append_ne_nil_of_right_ne_nil _ (List.cons_ne_nil _ _)
    · have hdash := (startsWithRangeDash_iff _).2 hopens
      simp only [readItem, leadingShorthand?_element hfirst, readElement_written hfirst,
        List.drop_left, hdash, if_true, List.tail_cons, readRangeEnd, readElement_written hlast]
      simp only [List.length_append, List.length_cons]
      congr 1
      omega

/-! ## The items of a set -/

/-- Reading an item always gets on. -/
theorem width_readItem_pos (start pos : Nat) (text : Bytes) :
    0 < (readItem start pos text).width := by
  unfold readItem
  split
  · exact Nat.two_pos
  · split
    · exact Nat.one_pos
    · next first w hfirst =>
      obtain ⟨spelled, rest, -, hwritten, rfl⟩ := writtenElement_of_readElement hfirst
      dsimp only
      split
      · unfold readRangeEnd
        split
        · exact Nat.succ_pos _
        · exact Nat.add_pos_left (Nat.succ_pos _) _
      · exact List.length_pos_iff.2 (ne_nil_of_writtenElement hwritten)

/-- Items that are read up to the closing bracket with nothing but warnings are written there. -/
theorem itemsAt_of_readItems {start pos stop : Nat} {text : Bytes}
    (hstop : (readItems start pos text).stop = some stop)
    (h : AreWarnings (readItems start pos text).notes) :
    ∃ rest, ItemsAt text (readItems start pos text).items rest := by
  fun_induction readItems start pos text with
  | case1 => cases hstop
  | case2 pos b rest first next remaining hclosing =>
    have hremaining : (b :: rest).drop first.width = remaining :=
      List.drop_cons (width_readItem_pos start pos (b :: rest))
    obtain ⟨after, hafter⟩ := List.head?_eq_some_iff.1 hclosing
    have hmore : (b :: rest).drop first.width ≠ [] := by
      rw [hremaining, hafter]
      exact List.cons_ne_nil _ _
    obtain ⟨item, hitem, hat⟩ := itemAt_of_readItem h hmore
    refine ⟨after, ?_⟩
    dsimp only
    rw [show first.item = some item from hitem]
    refine .last ?_
    rwa [← hafter, ← hremaining]
  | case3 pos b rest first next remaining hopen others ih =>
    obtain ⟨hfirst, hothers⟩ := List.forall_mem_append.1 h
    have hremaining : (b :: rest).drop first.width = remaining :=
      List.drop_cons (width_readItem_pos start pos (b :: rest))
    have hmore : (b :: rest).drop first.width ≠ [] := by
      rw [hremaining]
      intro hnil
      have hnone : others.stop = none := by
        show (readItems start next remaining).stop = none
        rw [hnil, readItems]
      rw [hnone] at hstop
      cases hstop
    obtain ⟨item, hitem, hat⟩ := itemAt_of_readItem hfirst hmore
    obtain ⟨after, hafter⟩ := ih hstop hothers
    refine ⟨after, ?_⟩
    dsimp only
    rw [show first.item = some item from hitem]
    refine .more ?_ hopen hafter
    rwa [← hremaining]

/-- Items that are written are read with nothing but warnings, up to the closing bracket. -/
theorem readItems_of_itemsAt {text rest : Bytes} {items : List SetItem}
    (h : ItemsAt text items rest) (start pos : Nat) :
    ∃ written notes, text = written ++ closingBracket :: rest ∧ AreWarnings notes ∧
      readItems start pos text = ⟨items, notes, some (pos + written.length + 1)⟩ := by
  induction h generalizing pos with
  | @last _ rest item hitem =>
    obtain ⟨written, notes, rfl, hne, hnotes, hread⟩ := readItem_of_itemAt hitem start pos
    refine ⟨written, notes, rfl, hnotes, ?_⟩
    rw [readItems_append hne hread, if_pos List.head?_cons]
  | @more _ middle rest item items hitem hopen hitems ih =>
    obtain ⟨written, notes, rfl, hne, hnotes, hread⟩ := readItem_of_itemAt hitem start pos
    obtain ⟨later, others, rfl, hothers, hreadLater⟩ := ih (pos + written.length)
    refine ⟨written ++ later, notes ++ others, by rw [List.append_assoc],
      List.forall_mem_append.2 ⟨hnotes, hothers⟩, ?_⟩
    rw [readItems_append hne hread, if_neg hopen, hreadLater, List.length_append,
      Nat.add_assoc pos]

/-! ## The set -/

/-- The set that is written after an opening bracket is read, up to its closing bracket. -/
theorem readBracketSet_of_setAt {body rest : Bytes} {negated : Bool} {items : List SetItem}
    (h : SetAt body negated items rest) (start : Nat) :
    ∃ written notes, body = written ++ closingBracket :: rest ∧ AreWarnings notes ∧
      readBracketSet start body =
        ⟨some (⟨items.flatMap SetItem.ranges, negated⟩, start + 1 + written.length + 1),
          notes⟩ := by
  cases h with
  | plain hcaret hitems =>
    obtain ⟨written, notes, htext, hnotes, hread⟩ := readItems_of_itemsAt hitems start (start + 1)
    refine ⟨written, notes, htext, hnotes, ?_⟩
    simp only [readBracketSet, beq_eq_false_iff_ne.2 hcaret, Bool.false_eq_true, if_false, hread,
      Option.map_some]
  | @negated body _ items hitems =>
    obtain ⟨written, notes, rfl, hnotes, hread⟩ := readItems_of_itemsAt hitems start (start + 2)
    refine ⟨'^'.toUInt8 :: written, notes, rfl, hnotes, ?_⟩
    simp only [readBracketSet, List.head?_cons, beq_self_eq_true, if_true, List.tail_cons, hread,
      Option.map_some, List.length_cons]
    have hstop : start + 2 + written.length + 1 = start + 1 + (written.length + 1) + 1 := by omega
    rw [hstop]

/-- A set is read together with nothing but warnings exactly if it is written there. -/
theorem isSome_readBracketSet_iff (start : Nat) (body : Bytes) :
    (readBracketSet start body).result.isSome = true ∧
        AreWarnings (readBracketSet start body).notes ↔
      ∃ negated items rest, SetAt body negated items rest := by
  constructor
  · rintro ⟨hsome, hnotes⟩
    unfold readBracketSet at hsome hnotes
    simp only [Option.isSome_map] at hsome hnotes
    split at hsome
    · next hcaret =>
      rw [if_pos hcaret] at hnotes
      obtain ⟨more, rfl⟩ := List.head?_eq_some_iff.1 (beq_iff_eq.1 hcaret)
      obtain ⟨stop, hstop⟩ := Option.isSome_iff_exists.1 hsome
      obtain ⟨rest, hitems⟩ := itemsAt_of_readItems hstop hnotes
      exact ⟨true, _, rest, .negated hitems⟩
    · next hcaret =>
      rw [if_neg hcaret] at hnotes
      obtain ⟨stop, hstop⟩ := Option.isSome_iff_exists.1 hsome
      obtain ⟨rest, hitems⟩ := itemsAt_of_readItems hstop hnotes
      exact ⟨false, _, rest, .plain (fun heq => hcaret (beq_iff_eq.2 heq)) hitems⟩
  · rintro ⟨negated, items, rest, h⟩
    obtain ⟨written, notes, -, hnotes, hread⟩ := readBracketSet_of_setAt h start
    rw [hread]
    exact ⟨rfl, hnotes⟩

/-- A byte is in the ranges of an item exactly if the item stands for it. -/
theorem SetItem.any_ranges_iff (item : SetItem) (b : UInt8) :
    item.ranges.any (·.contains b) = true ↔ item.Covers b := by
  have hrange (first last : UInt8) :
      (ByteRange.mk first last).contains b = true ↔ first ≤ b ∧ b ≤ last := by
    rw [ByteRange.contains, Bool.and_eq_true, decide_eq_true_eq, decide_eq_true_eq]
  have hsingle (c : UInt8) : (ByteRange.single c).contains b = true ↔ b = c := by
    rw [ByteRange.single, hrange, and_comm, ← UInt8.le_antisymm_iff]
  cases item with
  | shorthand s =>
    cases s with
    | digit =>
      simp only [SetItem.ranges, Shorthand.ranges, CharSet.digits, List.any_cons, List.any_nil,
        Bool.or_false]
      rfl
    | word =>
      simp only [SetItem.ranges, Shorthand.ranges, CharSet.wordBytes, Covers, List.any_cons,
        List.any_nil, Bool.or_false, Bool.or_eq_true, hsingle, Byte.isAlphanumeric, or_assoc]
      rfl
    | space =>
      simp only [SetItem.ranges, Shorthand.ranges, CharSet.spaces, Covers, List.any_cons,
        List.any_nil, Bool.or_false, Bool.or_eq_true, hsingle, hrange]
  | single c =>
    simp only [SetItem.ranges, Covers, List.any_cons, List.any_nil, Bool.or_false, hsingle]
  | range first last =>
    simp only [SetItem.ranges, Covers, List.any_cons, List.any_nil, Bool.or_false, hrange]

/-- A byte is a member of a set of items exactly if one of them stands for it, or none if the set is
negated. -/
theorem contains_items_iff (items : List SetItem) (negated : Bool) (b : UInt8) :
    CharSet.contains ⟨items.flatMap SetItem.ranges, negated⟩ b = true ↔
      ((∃ item ∈ items, item.Covers b) ↔ negated = false) := by
  have hany : (items.flatMap SetItem.ranges).any (·.contains b) = true ↔
      ∃ item ∈ items, item.Covers b := by
    simp only [List.any_flatMap, List.any_eq_true (l := items), SetItem.any_ranges_iff]
  rw [← hany, CharSet.contains]
  dsimp only
  split
  · next hin => simp [hin]
  · next hout => simp [hout]

/-- A bracket set is read without errors exactly if it is written after the opening bracket. It is
then the set of the items that are written there, and the position after it is the one after its
closing bracket. -/
theorem readBracketSet_iff {text body : Bytes} {start : Nat}
    (hopen : text.drop start = '['.toUInt8 :: body) :
    ((readBracketSet start body).result.isSome = true ∧
        (∀ note ∈ (readBracketSet start body).notes, note.isError = false) ↔
      ∃ negated items rest, SetAt body negated items rest) ∧
    ∀ negated items rest, SetAt body negated items rest →
      ∃ closing set, text.drop closing = closingBracket :: rest ∧
        (readBracketSet start body).result = some (set, closing + 1) ∧
        set.negated = negated ∧ set.ranges = items.flatMap SetItem.ranges ∧
        ∀ b, set.contains b = true ↔ ((∃ item ∈ items, item.Covers b) ↔ negated = false) := by
  refine ⟨isSome_readBracketSet_iff start body, fun negated items rest h => ?_⟩
  obtain ⟨written, notes, htext, -, hread⟩ := readBracketSet_of_setAt h start
  refine ⟨start + 1 + written.length, ⟨items.flatMap SetItem.ranges, negated⟩, ?_, ?_, rfl, rfl,
    contains_items_iff items negated⟩
  · rw [Nat.add_assoc, ← List.drop_drop, hopen, Nat.add_comm, List.drop_succ_cons, htext,
      List.drop_left]
  · rw [hread]

/-- A caret, a closing bracket as the first item, and a dash as the last one. -/
theorem readBracketSet_iff_first_last :
    (ascii "x[^]a-z\\d-]y").drop 1 = '['.toUInt8 :: ascii "^]a-z\\d-]y" ∧
      ∃ negated items rest, SetAt (ascii "^]a-z\\d-]y") negated items rest := by
  have hopen : (ascii "x[^]a-z\\d-]y").drop 1 = '['.toUInt8 :: ascii "^]a-z\\d-]y" := rfl
  refine ⟨hopen, (readBracketSet_iff hopen).1.1 ?_⟩
  decide +kernel

end Pattern

end PhraseGrammar
