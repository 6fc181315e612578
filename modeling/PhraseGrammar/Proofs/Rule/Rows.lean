import PhraseGrammar.Proofs.Rule.Refinement

/-!
# What a row of components yields

A row of components that is derived yields the bytes that it consumes and the values of its
declarations. Rows can be put one after the other: the second is derived on what the first
has left, and its mismatch is moved by what the first has consumed. This is associative,
since moving a mismatch twice is moving it once by the sum.
-/

set_option autoImplicit false

namespace PhraseGrammar

open NameTable

/-- The bytes that components consume one after the other, and the values that they give. -/
structure Yield where
  text : Bytes
  values : List (Bytes × Option Match)

namespace Yield

/-- A yield with what comes after it. -/
def followedBy (y : Yield) : Except Mismatch Yield → Except Mismatch Yield
  | .error mm => .error (mm.rebased y.text.length.toUInt64)
  | .ok z => .ok ⟨y.text ++ z.text, y.values ++ z.values⟩

/-- Goes on after what an attempt has consumed. -/
def andThen (first : Attempt Yield) (next : Nat → Attempt Yield) : Attempt Yield :=
  match first with
  | .error fault => .error fault
  | .ok (.error mm) => .ok (.error mm)
  | .ok (.ok y) => (next y.text.length).map y.followedBy

theorem andThen_assoc (first : Attempt Yield) (next last : Nat → Attempt Yield) :
    andThen (andThen first next) last =
      andThen first fun n => andThen (next n) fun m => last (n + m) := by
  rcases first with fault | mm | y
  · rfl
  · rfl
  · rcases hnext : next y.text.length with fault | mm | z
    · simp only [andThen, hnext]
      rfl
    · simp only [andThen, hnext]
      rfl
    · simp only [andThen, hnext, Except.map, followedBy, List.length_append]
      rcases last (y.text.length + z.text.length) with fault | mm | w
      · rfl
      · simp only [Rule.rebased_add]
      · simp only [List.append_assoc]

theorem nothing_andThen (next : Nat → Attempt Yield) :
    andThen (.ok (.ok ⟨[], []⟩)) next = next 0 := by
  rcases hnext : next 0 with fault | mm | y
  · simp only [andThen, List.length_nil, hnext]
    rfl
  · simp only [andThen, List.length_nil, hnext, Except.map, followedBy, Rule.rebased_zero]
  · simp only [andThen, List.length_nil, hnext, Except.map, followedBy, List.nil_append]

/-- The outcome of matching for what a row yields. -/
def outcome : Except Mismatch Yield → Outcome
  | .error mm => .failed mm
  | .ok y => .matched ⟨y.text, group y.values⟩

end Yield

namespace Rule

open Yield

variable (names : Naming) (opts : RegexOptions)

/-- What a component yields to the rule around it. -/
def partYield (part : Rule) (text : Bytes) : Attempt Yield :=
  (part.derive opts text).map
    (Except.map fun d => ⟨d.text, passedOn names part d (values names part d)⟩)

/-- What components yield one after the other. -/
def rowYield (parts : List Rule) (text : Bytes) : Attempt Yield :=
  (deriveRow opts parts text).map
    (Except.map fun ds => ⟨Derivation.textOfAll ds, valuesOfRow names parts ds⟩)

theorem rowYield_cons (part : Rule) (parts : List Rule) (text : Bytes) :
    rowYield names opts (part :: parts) text =
      andThen (partYield names opts part text) fun n => rowYield names opts parts (text.drop n) := by
  rw [rowYield, deriveRow, partYield]
  rcases derive opts part text with fault | mm | d
  · rfl
  · rfl
  · simp only [Except.map, andThen, rowYield]
    rcases deriveRow opts parts (text.drop d.text.length) with fault | mm | ds
    · rfl
    · rfl
    · rfl

/-- A row that is made of two is derived by deriving these one after the other. -/
theorem rowYield_append (before after : List Rule) (text : Bytes) :
    rowYield names opts (before ++ after) text =
      andThen (rowYield names opts before text) fun n => rowYield names opts after (text.drop n) := by
  induction before generalizing text with
  | nil => exact (nothing_andThen fun n => rowYield names opts after (text.drop n)).symm
  | cons part before ih =>
    rw [List.cons_append, rowYield_cons, rowYield_cons, andThen_assoc]
    congr 1
    funext n
    rw [ih]
    simp only [List.drop_drop]

/-- A sequence without a name yields what its components yield. -/
theorem partYield_sequence {n : Nat} {parts : List Rule}
    (h : names.name? (.compound n .sequence parts) = none) (text : Bytes) :
    partYield names opts (.compound n .sequence parts) text = rowYield names opts parts text := by
  rw [partYield, rowYield, derive]
  rcases deriveRow opts parts text with fault | mm | ds
  · rfl
  · rfl
  · simp only [Except.map, passedOn, h, values, Derivation.text]

/-- Components that are grouped yield the same as by themselves. -/
theorem rowYield_regroup {k : Nat} (xs ys zs : List Rule)
    (h : names.name? (.compound k .sequence ys) = none) (text : Bytes) :
    rowYield names opts (xs ++ .compound k .sequence ys :: zs) text =
      rowYield names opts (xs ++ (ys ++ zs)) text := by
  rw [rowYield_append, rowYield_append]
  congr 1
  funext n
  rw [rowYield_cons, partYield_sequence names opts h, rowYield_append]

end Rule

end PhraseGrammar
