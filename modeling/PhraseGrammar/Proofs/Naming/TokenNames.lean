import PhraseGrammar.Rule.Naming
import Mathlib.Computability.Language

/-!
# Token names as a regular language

A token name is a letter, then letters and digits, and then any number of further words of
letters and digits, each after one underscore: `[A-Za-z][A-Za-z0-9]*(_[A-Za-z0-9]+)*`. This
module states the language by the operations on languages, and proves that the checks on
a name, made one after the other, find no flaw exactly in the names of the language
(`TokenName.nameFlaw?_eq_none_iff`).

What follows the first letter is empty, or it goes on with a letter or digit, or with an
underscore and a letter or digit (`TokenName.tails_eq`). So a text is gone through from its
front, at most two bytes at a time.
-/

set_option autoImplicit false

namespace PhraseGrammar

namespace TokenName

open Computability

/-- The texts of one byte from a class. -/
def oneOf (p : UInt8 → Bool) : Language UInt8 :=
  {text | ∃ b, p b = true ∧ text = [b]}

/-- The byte that joins the words of a token name. -/
def underscore : UInt8 := '_'.toUInt8

/-- A letter of either case. -/
def letter : Language UInt8 :=
  oneOf fun b => Byte.isUpper b || Byte.isLower b

/-- A letter or a digit. -/
def alphanumeric : Language UInt8 :=
  oneOf Byte.isAlphanumeric

/-- The rest of a token name, after a letter or digit. -/
def tails : Language UInt8 :=
  alphanumeric∗ * (oneOf (· == underscore) * (alphanumeric * alphanumeric∗))∗

/-- The token names. -/
def language : Language UInt8 :=
  letter * alphanumeric∗ * (oneOf (· == underscore) * (alphanumeric * alphanumeric∗))∗

theorem mem_oneOf_mul_iff {p : UInt8 → Bool} {l : Language UInt8} {text : Bytes} :
    text ∈ oneOf p * l ↔ ∃ b rest, text = b :: rest ∧ p b = true ∧ rest ∈ l := by
  rw [Language.mem_mul]
  constructor
  · rintro ⟨first, ⟨b, hb, rfl⟩, rest, hrest, rfl⟩
    exact ⟨b, rest, rfl, hb, hrest⟩
  · rintro ⟨b, rest, rfl, hb, hrest⟩
    exact ⟨[b], ⟨b, hb, rfl⟩, rest, hrest, rfl⟩

/-- The rest of a token name ends, or it goes on with a letter or digit, or it goes on with an
underscore and a letter or digit. -/
theorem tails_eq :
    tails = 1 + alphanumeric * tails +
      oneOf (· == underscore) * (alphanumeric * tails) := by
  have hwords : alphanumeric∗ = 1 + alphanumeric * alphanumeric∗ :=
    (Language.one_add_self_mul_kstar_eq_kstar alphanumeric).symm
  have hjoined := Language.one_add_self_mul_kstar_eq_kstar
    (oneOf (· == underscore) * (alphanumeric * alphanumeric∗))
  unfold tails
  calc
    _ = (1 + alphanumeric * alphanumeric∗) *
          (oneOf (· == underscore) * (alphanumeric * alphanumeric∗))∗ := by
        rw [← hwords]
    _ = 1 + oneOf (· == underscore) * (alphanumeric * alphanumeric∗) *
            (oneOf (· == underscore) * (alphanumeric * alphanumeric∗))∗ +
          alphanumeric * alphanumeric∗ *
            (oneOf (· == underscore) * (alphanumeric * alphanumeric∗))∗ := by
        rw [add_mul, one_mul, hjoined]
    _ = _ := by
        simp only [mul_assoc]
        rw [add_right_comm]

/-- The bytes that a token name may have. -/
def isNameByte (b : UInt8) : Bool :=
  Byte.isAlphanumeric b || b == underscore

/-- The conditions on the rest of a token name, after a letter or digit. -/
structure IsTail (text : Bytes) : Prop where
  bytes : ∀ b ∈ text, isNameByte b = true
  last : text.getLast? ≠ some underscore
  single : ¬ [underscore, underscore] <:+: text

theorem isAlphanumeric_ne_underscore {b : UInt8} (h : Byte.isAlphanumeric b = true) :
    b ≠ underscore := by
  rintro rfl
  exact absurd h (by decide)

theorem isTail_nil : IsTail [] := by
  refine ⟨fun b hb => (List.not_mem_nil hb).elim, by simp, ?_⟩
  intro hdouble
  exact absurd (List.infix_nil.1 hdouble) (List.cons_ne_nil _ _)

/-- A letter or digit may be put before the rest of a name, and it may be taken away. -/
theorem isTail_cons_alphanumeric {b : UInt8} {rest : Bytes}
    (hb : Byte.isAlphanumeric b = true) : IsTail (b :: rest) ↔ IsTail rest := by
  have hne := isAlphanumeric_ne_underscore hb
  have hlast : (b :: rest).getLast? = some underscore ↔ rest.getLast? = some underscore := by
    cases rest with
    | nil => simp [hne]
    | cons c more => rw [List.getLast?_cons_cons]
  have hdouble : [underscore, underscore] <:+: b :: rest ↔ [underscore, underscore] <:+: rest := by
    rw [List.infix_cons_iff, List.cons_prefix_cons]
    simp [Ne.symm hne]
  constructor
  · intro h
    exact ⟨fun c hc => h.bytes c (List.mem_cons_of_mem b hc), fun hc => h.last (hlast.2 hc),
      fun hc => h.single (hdouble.2 hc)⟩
  · intro h
    refine ⟨List.forall_mem_cons.2 ⟨?_, h.bytes⟩, fun hc => h.last (hlast.1 hc),
      fun hc => h.single (hdouble.1 hc)⟩
    rw [isNameByte, hb, Bool.true_or]

/-- After an underscore, the rest of a name goes on with a letter or digit. -/
theorem isTail_cons_underscore {rest : Bytes} :
    IsTail (underscore :: rest) ↔
      ∃ b more, rest = b :: more ∧ Byte.isAlphanumeric b = true ∧ IsTail more := by
  constructor
  · intro h
    cases rest with
    | nil => exact absurd rfl h.last
    | cons b more =>
      have hb : Byte.isAlphanumeric b = true := by
        have hbyte := h.bytes b (List.mem_cons_of_mem _ List.mem_cons_self)
        rcases Bool.or_eq_true_iff.1 hbyte with halpha | hunderscore
        · exact halpha
        · rw [beq_iff_eq.1 hunderscore] at h
          exact absurd (List.prefix_append [underscore, underscore] more).isInfix h.single
      have hrest : IsTail (b :: more) := by
        refine ⟨fun c hc => h.bytes c (List.mem_cons_of_mem _ hc), fun hc => h.last ?_,
          fun hc => h.single (List.infix_cons hc)⟩
        rw [List.getLast?_cons_cons, hc]
      exact ⟨b, more, rfl, hb, (isTail_cons_alphanumeric hb).1 hrest⟩
  · rintro ⟨b, more, rfl, hb, hmore⟩
    have hrest := (isTail_cons_alphanumeric hb).2 hmore
    refine ⟨List.forall_mem_cons.2 ⟨by decide, hrest.bytes⟩, ?_, ?_⟩
    · rw [List.getLast?_cons_cons]
      exact hrest.last
    · rw [List.infix_cons_iff]
      rintro (hstart | hdouble)
      · rw [List.cons_prefix_cons, List.cons_prefix_cons] at hstart
        exact isAlphanumeric_ne_underscore hb hstart.2.1.symm
      · exact hrest.single hdouble

/-- The conditions on the rest of a token name describe the language of such rests. -/
theorem isTail_iff_mem (text : Bytes) : IsTail text ↔ text ∈ tails := by
  -- An underscore is gone through together with the byte after it.
  induction hlength : text.length using Nat.strong_induction_on generalizing text with
  | _ n ih =>
    subst hlength
    rw [tails_eq, Language.mem_add, Language.mem_add, Language.mem_one, mem_oneOf_mul_iff,
      alphanumeric, mem_oneOf_mul_iff]
    simp only [mem_oneOf_mul_iff]
    cases text with
    | nil => simp [isTail_nil]
    | cons b rest =>
      simp only [List.cons_ne_nil, false_or]
      constructor
      · intro h
        rcases Bool.or_eq_true_iff.1 (h.bytes b List.mem_cons_self) with hb | hb
        · have hrest := (isTail_cons_alphanumeric hb).1 h
          exact .inl ⟨b, rest, rfl, hb, (ih rest.length (by simp) rest rfl).1 hrest⟩
        · rw [beq_iff_eq.1 hb] at h
          obtain ⟨c, more, rfl, hc, hmore⟩ := isTail_cons_underscore.1 h
          have hlength : more.length < (b :: c :: more).length := by
            simp only [List.length_cons]
            omega
          exact .inr ⟨b, c :: more, rfl, hb, c, more, rfl, hc, (ih _ hlength more rfl).1 hmore⟩
      · rintro (⟨c, more, heq, hc, hmore⟩ | ⟨c, more, heq, hc, d, last, rfl, hd, hlast⟩)
        · obtain ⟨rfl, rfl⟩ := List.cons.inj heq
          exact (isTail_cons_alphanumeric hc).2 ((ih rest.length (by simp) rest rfl).2 hmore)
        · obtain ⟨rfl, rfl⟩ := List.cons.inj heq
          have hlength : last.length < (b :: d :: last).length := by
            simp only [List.length_cons]
            omega
          rw [beq_iff_eq.1 hc]
          exact isTail_cons_underscore.2 ⟨d, last, rfl, hd, (ih _ hlength last rfl).2 hlast⟩

theorem mem_language_iff {name : Bytes} :
    name ∈ language ↔ ∃ b rest, name = b :: rest ∧
      (Byte.isUpper b || Byte.isLower b) = true ∧ IsTail rest := by
  rw [language, mul_assoc, letter, mem_oneOf_mul_iff]
  simp only [isTail_iff_mem]
  rfl

theorem not_isDigit_of_letter {b : UInt8} (h : (Byte.isUpper b || Byte.isLower b) = true) :
    ¬ Byte.isDigit b = true := by
  unfold Byte.isUpper Byte.isLower at h
  unfold Byte.isDigit
  simp only [Bool.or_eq_true, Bool.and_eq_true, decide_eq_true_eq, UInt8.le_iff_toNat_le] at h ⊢
  have hbounds : '9'.toUInt8.toNat < 'A'.toUInt8.toNat ∧ '9'.toUInt8.toNat < 'a'.toUInt8.toNat := by
    decide
  omega

/-- There is no flaw exactly if each of the checks passes. -/
theorem nameFlaw?_eq_none_iff_checks (name : Bytes) :
    nameFlaw? name = none ↔
      (∀ b ∈ name, isNameByte b = true) ∧ (∃ b ∈ name, Byte.isAlphanumeric b = true) ∧
      (name.head? ≠ some underscore ∧ name.getLast? ≠ some underscore) ∧
      (¬ ∃ b, name.head? = some b ∧ Byte.isDigit b = true) ∧
      ¬ [underscore, underscore] <:+: name := by
  have hbytes : name.find? (fun b => !(Byte.isAlphanumeric b || b == '_'.toUInt8)) = none ↔
      ∀ b ∈ name, isNameByte b = true := by
    rw [List.find?_eq_none]
    refine forall₂_congr fun b _ => ?_
    rw [Bool.not_eq_true', Bool.not_eq_false]
    rfl
  have hdouble : Bytes.occursIn (ascii "__") name = true ↔ [underscore, underscore] <:+: name :=
    Bytes.occursIn_iff _ name
  have hcheck (flaw : NameFlaw) (p : Prop) [Decidable p] (rest : Option NameFlaw) :
      (if p then some flaw else rest) = none ↔ ¬ p ∧ rest = none := by
    split <;> simp [*]
  rw [← hbytes, ← hdouble]
  unfold nameFlaw?
  simp only
  split
  · next b hb =>
    rw [hb]
    exact iff_of_false (Option.some_ne_none _) fun h => Option.some_ne_none b h.1
  · next hb =>
    rw [hcheck, hcheck, hcheck, hcheck]
    simp only [hb, true_and, and_true, Bool.not_eq_true', Bool.not_eq_false, List.any_eq_true,
      Bool.or_eq_true, beq_iff_eq, not_or, Option.any_eq_true]
    rfl

/-- The checks on a name find no flaw exactly if it is a token name. -/
theorem nameFlaw?_eq_none_iff (name : Bytes) : nameFlaw? name = none ↔ name ∈ language := by
  rw [nameFlaw?_eq_none_iff_checks, mem_language_iff]
  constructor
  · rintro ⟨hbytes, ⟨c, hc, -⟩, ⟨hhead, hlast⟩, hdigit, hsingle⟩
    cases name with
    | nil => exact (List.not_mem_nil hc).elim
    | cons b rest =>
      obtain ⟨hfirst, hrest⟩ := List.forall_mem_cons.1 hbytes
      have hnotDigit : Byte.isDigit b = false :=
        Bool.eq_false_iff.2 fun h => hdigit ⟨b, rfl, h⟩
      have halpha : Byte.isAlphanumeric b = true := by
        rcases Bool.or_eq_true_iff.1 hfirst with halpha | hunderscore
        · exact halpha
        · rw [beq_iff_eq.1 hunderscore] at hhead
          exact absurd rfl hhead
      refine ⟨b, rest, rfl, ?_, (isTail_cons_alphanumeric halpha).1 ⟨hbytes, hlast, hsingle⟩⟩
      rwa [Byte.isAlphanumeric, hnotDigit, Bool.false_or] at halpha
  · rintro ⟨b, rest, rfl, hletter, hrest⟩
    have halpha : Byte.isAlphanumeric b = true := by
      rw [Byte.isAlphanumeric, Bool.or_assoc, hletter, Bool.or_true]
    obtain ⟨hbytes, hlast, hsingle⟩ := (isTail_cons_alphanumeric halpha).2 hrest
    refine ⟨hbytes, ⟨b, List.mem_cons_self, halpha⟩, ⟨?_, hlast⟩, ?_, hsingle⟩
    · intro hhead
      exact isAlphanumeric_ne_underscore halpha (Option.some.inj hhead)
    · rintro ⟨c, hc, hdigit⟩
      obtain rfl : b = c := Option.some.inj hc
      exact not_isDigit_of_letter hletter hdigit

theorem not_mem_language_nil : [] ∉ language := by
  rw [← nameFlaw?_eq_none_iff]
  exact Option.some_ne_none _

end TokenName

end PhraseGrammar
