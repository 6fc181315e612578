import PhraseGrammar.Match.Mismatch
import PhraseGrammar.Proofs.Text.Places

/-!
# Ranges of diagnostics

A diagnostic keeps the places of the first and of the last position of its range. Since the last
position is not before the first one, neither is its place (`Diagnostic.place_first_le_last`), and
the two places are the same only if the positions are.

The range is printed as one place, as a line with two columns, or as two lines. A printed number
has digits only, so the printed text can be read in one way: its marks tell which of the three it
is, and give back the numbers (`eq_of_decimal_append_eq`). Therefore what is said here of the
numbers is said of the printed text.
-/

set_option autoImplicit false

namespace PhraseGrammar

/-! ## Printed numbers -/

theorem toNat_toUInt8_of_isDigit {c : Char} (h : c.isDigit = true) :
    c.toUInt8.toNat = c.toNat ∧ 48 ≤ c.toNat ∧ c.toNat ≤ 57 := by
  simp only [Char.isDigit, Bool.and_eq_true, decide_eq_true_eq, ge_iff_le,
    UInt32.le_iff_toNat_le] at h
  have hlow : 48 ≤ c.toNat := h.1
  have hhigh : c.toNat ≤ 57 := h.2
  have hbyte : c.toUInt8.toNat = c.toNat % 256 := UInt32.toNat_toUInt8 c.val
  omega

theorem isDigit_of_mem_decimal {b : UInt8} {n : ℕ} (h : b ∈ decimal n) :
    Byte.isDigit b = true := by
  obtain ⟨c, hc, rfl⟩ := List.mem_map.1 h
  obtain ⟨hbyte, hlow, hhigh⟩ :=
    toNat_toUInt8_of_isDigit (Nat.isDigit_of_mem_toDigits (by decide) (by decide) hc)
  have hzero : '0'.toUInt8.toNat = 48 := rfl
  have hnine : '9'.toUInt8.toNat = 57 := rfl
  simp only [Byte.isDigit, Bool.and_eq_true, decide_eq_true_eq, UInt8.le_iff_toNat_le]
  omega

/-- Different numbers have different numerals. -/
theorem decimal_injective : Function.Injective decimal := by
  intro m n h
  have hchars (k : ℕ) : (decimal k).map (fun b => Char.ofNat b.toNat) = Nat.toDigits 10 k := by
    rw [decimal, List.map_map]
    refine (List.map_congr_left fun c hc => ?_).trans (List.map_id _)
    have hdigit := Nat.isDigit_of_mem_toDigits (by decide) (by decide) hc
    rw [Function.comp_apply, (toNat_toUInt8_of_isDigit hdigit).1, Char.ofNat_toNat, id]
  have hdigits : Nat.toDigits 10 m = Nat.toDigits 10 n := by rw [← hchars m, h, hchars n]
  calc
    m = Nat.ofDigitChars 10 (Nat.toDigits 10 m) 0 := Nat.ofDigitChars_ten_toDigits.symm
    _ = Nat.ofDigitChars 10 (Nat.toDigits 10 n) 0 := by rw [hdigits]
    _ = n := Nat.ofDigitChars_ten_toDigits

/-- A numeral before a byte that is no digit can be read in one way. -/
theorem eq_of_decimal_append_eq {m n : ℕ} {x y : UInt8} {rest others : Bytes}
    (hx : Byte.isDigit x = false) (hy : Byte.isDigit y = false)
    (h : decimal m ++ x :: rest = decimal n ++ y :: others) :
    m = n ∧ x = y ∧ rest = others := by
  have hread (k : ℕ) {z : UInt8} (hz : Byte.isDigit z = false) (after : Bytes) :
      (decimal k ++ z :: after).takeWhile Byte.isDigit = decimal k := by
    rw [List.takeWhile_append_of_pos fun b hb => isDigit_of_mem_decimal hb,
      List.takeWhile_cons_of_neg (by simp [hz]), List.append_nil]
  have hnumeral : decimal m = decimal n := by rw [← hread m hx rest, h, hread n hy others]
  rw [hnumeral, List.append_cancel_left_eq, List.cons.injEq] at h
  exact ⟨decimal_injective hnumeral, h⟩

theorem decimal_ne_append {k m : ℕ} {x : UInt8} {rest : Bytes} (hx : Byte.isDigit x = false) :
    decimal k ≠ decimal m ++ x :: rest := by
  intro h
  have hmem : x ∈ decimal k := by simp [h]
  exact Bool.noConfusion (hx.symm.trans (isDigit_of_mem_decimal hmem))

/-! ## Printed ranges -/

/-- The range of a diagnostic as it is printed. -/
inductive Location
  /-- A single place. -/
  | place (line column : ℕ)
  /-- A line, and the columns in it of two places. -/
  | columns (line first last : ℕ)
  /-- The lines of two places. -/
  | lines (first last : ℕ)

namespace Location

/-- The printed text. -/
def text : Location → Bytes
  | place line column => decimal line ++ ':'.toUInt8 :: decimal column
  | columns line first last =>
    decimal line ++ ':'.toUInt8 :: (decimal first ++ '-'.toUInt8 :: decimal last)
  | lines first last => decimal first ++ '-'.toUInt8 :: decimal last

/-- Where two numbers are joined by a dash, the first one is less than the second one. -/
def Ascends : Location → Prop
  | place _ _ => True
  | columns _ first last => first < last
  | lines first last => first < last

/-- The printed text can be read in one way. -/
theorem text_injective : Function.Injective text := by
  have hcolon : Byte.isDigit ':'.toUInt8 = false := by decide
  have hdash : Byte.isDigit '-'.toUInt8 = false := by decide
  have hmarks : ':'.toUInt8 ≠ '-'.toUInt8 := by decide
  intro r s h
  -- The byte after the first number tells lines from the others, and a dash after it columns.
  cases r with
  | place line column =>
    cases s with
    | place line' column' =>
      obtain ⟨rfl, -, hcolumn⟩ := eq_of_decimal_append_eq hcolon hcolon h
      rw [decimal_injective hcolumn]
    | columns line' first last =>
      obtain ⟨-, -, hcolumn⟩ := eq_of_decimal_append_eq hcolon hcolon h
      exact absurd hcolumn (decimal_ne_append hdash)
    | lines first last => exact absurd (eq_of_decimal_append_eq hcolon hdash h).2.1 hmarks
  | columns line first last =>
    cases s with
    | place line' column =>
      obtain ⟨-, -, hcolumn⟩ := eq_of_decimal_append_eq hcolon hcolon h
      exact absurd hcolumn.symm (decimal_ne_append hdash)
    | columns line' first' last' =>
      obtain ⟨rfl, -, hcolumns⟩ := eq_of_decimal_append_eq hcolon hcolon h
      obtain ⟨rfl, -, hlast⟩ := eq_of_decimal_append_eq hdash hdash hcolumns
      rw [decimal_injective hlast]
    | lines first' last' => exact absurd (eq_of_decimal_append_eq hcolon hdash h).2.1 hmarks
  | lines first last =>
    cases s with
    | place line column => exact absurd (eq_of_decimal_append_eq hdash hcolon h).2.1.symm hmarks
    | columns line first' last' =>
      exact absurd (eq_of_decimal_append_eq hdash hcolon h).2.1.symm hmarks
    | lines first' last' =>
      obtain ⟨rfl, -, hlast⟩ := eq_of_decimal_append_eq hdash hdash h
      rw [decimal_injective hlast]

end Location

namespace Diagnostic

open Text

/-- What is printed of the range of a diagnostic. -/
def printed (d : Diagnostic) : Location :=
  if d.first.line ≠ d.last.line then .lines d.first.line.toNat d.last.line.toNat
  else if d.first.column ≠ d.last.column then
    .columns d.first.line.toNat d.first.column.toNat d.last.column.toNat
  else .place d.first.line.toNat d.first.column.toNat

theorem location_eq (d : Diagnostic) : d.location = d.printed.text := by
  unfold location printed
  split
  · simp only [Location.text, List.append_assoc]
    rfl
  · split
    · simp only [Location.text, List.append_assoc]
      rfl
    · simp only [Location.text, List.append_assoc]
      rfl

theorem location_eq_text_iff {d : Diagnostic} {r : Location} :
    d.location = r.text ↔ d.printed = r := by
  rw [location_eq, Location.text_injective.eq_iff]

/-- A single place is printed exactly if the range begins and ends there. -/
theorem exists_location_eq_place_iff {d : Diagnostic} :
    (∃ line column, d.location = (Location.place line column).text) ↔ d.first = d.last := by
  simp only [location_eq_text_iff]
  constructor
  · rintro ⟨line, column, hplace⟩
    unfold printed at hplace
    split at hplace
    · cases hplace
    · next hlines =>
      split at hplace
      · cases hplace
      · next hcolumns =>
        exact congrArg₂ LineColumn.mk (not_not.1 hlines) (not_not.1 hcolumns)
  · intro h
    exact ⟨d.first.line.toNat, d.first.column.toNat, by simp [printed, h]⟩

/-- If the last place is not before the first one, the printed numbers ascend. -/
theorem ascends_printed {d : Diagnostic} (h : d.first.place ≤ d.last.place) :
    d.printed.Ascends := by
  rw [LineColumn.place, LineColumn.place, Prod.Lex.toLex_le_toLex] at h
  unfold printed
  split
  · next hlines =>
    have hne : d.first.line.toNat ≠ d.last.line.toNat := mt UInt64.toNat_inj.1 hlines
    exact h.resolve_right fun hsame => hne hsame.1
  · next hline =>
    have heq : d.first.line.toNat = d.last.line.toNat := congrArg _ (not_not.1 hline)
    split
    · next hcolumns =>
      have hne : d.first.column.toNat ≠ d.last.column.toNat := mt UInt64.toNat_inj.1 hcolumns
      rcases h with hlt | ⟨-, hle⟩
      · exact absurd heq hlt.ne
      · exact lt_of_le_of_ne hle hne
    · trivial

/-- The last position of a range: the one before its end, or its start if that is not less. -/
theorem last_ofRange (text : Bytes) (severity : Severity) (start stop : UInt64) (message : Bytes) :
    (ofRange text severity start stop message).last =
      lineColumn text (if start < stop then stop - 1 else start) := by
  rw [ofRange, effectiveStop]
  split
  · next hle => rw [if_neg (UInt64.not_lt.2 hle), UInt64.add_sub_cancel]
  · next hlt => rw [if_pos (UInt64.not_le.1 hlt)]

/-- The last position of a range is not before its start, and not the last word unless the range
is empty. -/
theorem bounds_pred_of_lt {start stop : UInt64} (h : start < stop) :
    (stop - 1).toNat = stop.toNat - 1 ∧ start.toNat < UInt64.size - 1 ∧
      (stop - 1).toNat < UInt64.size - 1 := by
  have hlt := UInt64.lt_iff_toNat_lt.1 h
  have hbound := stop.toNat_lt_size
  have hone : (1 : UInt64).toNat = 1 := rfl
  have hpred : (stop - 1).toNat = stop.toNat - 1 := by
    rw [UInt64.toNat_sub_of_le _ _ (UInt64.le_iff_toNat_le.2 (by omega)), hone]
  omega

theorem place_first_le_last (text : Bytes) (severity : Severity) (start stop : UInt64)
    (message : Bytes) :
    (ofRange text severity start stop message).first.place ≤
      (ofRange text severity start stop message).last.place := by
  rw [last_ofRange]
  split
  · next hlt =>
    obtain ⟨hpred, hstart, hlast⟩ := bounds_pred_of_lt hlt
    have hle : start.toNat ≤ (stop - 1).toNat := by
      have := UInt64.lt_iff_toNat_lt.1 hlt
      omega
    have hwalk := (walk_strictMono text).monotone hle
    rwa [← place_lineColumn text hstart, ← place_lineColumn text hlast] at hwalk
  · exact le_refl _

/-- A range begins and ends in one place exactly if it has at most one position. -/
theorem first_eq_last_iff (text : Bytes) (severity : Severity) (start stop : UInt64)
    (message : Bytes) :
    (ofRange text severity start stop message).first =
        (ofRange text severity start stop message).last ↔
      stop ≤ start ∨ stop = start + 1 := by
  rw [last_ofRange]
  split
  · next hlt =>
    obtain ⟨-, hstart, hlast⟩ := bounds_pred_of_lt hlt
    have hsame : start = stop - 1 ↔ stop = start + 1 := by
      constructor
      · rintro rfl
        rw [UInt64.sub_add_cancel]
      · rintro rfl
        rw [UInt64.add_sub_cancel]
    rw [or_iff_right (UInt64.not_le.2 hlt), ← hsame]
    exact lineColumn_inj hstart hlast
  · next hge => exact iff_of_true rfl (.inl (UInt64.not_lt.1 hge))

/-- The range of a diagnostic is never inverted, wherever in the text or past its end its start and
its stop are. It begins in the place of its start and ends in that of the position before its stop
or, if there is none in it, in the same place. What is printed can be read in one way, and then
the second of two numbers joined by a dash is the greater one. A single place is printed exactly
if the range has at most one position, as that of a mismatch always has. -/
theorem range_ascends (text : Bytes) (severity : Severity) (start stop : UInt64)
    (message : Bytes) :
    let d := ofRange text severity start stop message
    d.first = lineColumn text start ∧
      d.last = lineColumn text (if start < stop then stop - 1 else start) ∧
      d.first.place ≤ d.last.place ∧
      (∃ r : Location, d.location = r.text ∧ r.Ascends ∧
        ∀ s : Location, d.location = s.text → s = r) ∧
      ((∃ line column, d.location = (Location.place line column).text) ↔
        stop ≤ start ∨ stop = start + 1) ∧
      ∀ mm : Mismatch, ∃ line column,
        (mm.toDiagnostic text).location = (Location.place line column).text := by
  intro d
  have hle := place_first_le_last text severity start stop message
  refine ⟨rfl, last_ofRange text severity start stop message, hle,
    ⟨d.printed, location_eq d, ascends_printed hle, fun s hs => ?_⟩, ?_, fun mm => ?_⟩
  · exact (location_eq_text_iff.1 hs).symm
  · rw [exists_location_eq_place_iff]
    exact first_eq_last_iff text severity start stop message
  · rw [exists_location_eq_place_iff]
    exact (first_eq_last_iff text _ _ _ _).2 (.inr rfl)

/-- Three bytes of the second line. -/
example : (ofRange (ascii "first line\nsecond line") .error 14 17 []).location = ascii "2:4-6" := by
  decide +kernel

end Diagnostic

end PhraseGrammar
