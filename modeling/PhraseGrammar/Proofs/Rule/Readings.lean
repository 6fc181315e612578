import PhraseGrammar.Proofs.Rule.Rows

/-!
# What a rule yields

A rule yields something by itself, and it passes something on to the rule around it: the same,
or, if it has a name, its match under that name, unless it was skipped. What a combined rule
yields by itself depends on its components only through what these pass on. So a component may
be exchanged for another that passes on the same; see `Rule.rowYield_map` and
`Rule.firstYield_map`.

The components of a choice are tried one after the other. Trying some and then others is trying
all of them, where the mismatches of the former come first.
-/

set_option autoImplicit false

namespace PhraseGrammar

open NameTable

/-- What a rule yields by itself, and whether it was skipped. -/
structure Reading where
  isSkipped : Bool
  yield : Yield

/-- Whether an optional was skipped. -/
def Derivation.isSkip : Derivation → Bool
  | skip => true
  | _ => false

namespace Reading

/-- What a rule passes on to the rule around it, by its name if it has one. -/
def passedOn (name : Option Bytes) (x : Reading) : Yield :=
  match name with
  | none => x.yield
  | some name =>
    ⟨x.yield.text,
      [(name, if x.isSkipped then none else some ⟨x.yield.text, group x.yield.values⟩)]⟩

/-- The reading of a rule that was not skipped. -/
def taken (y : Yield) : Reading :=
  ⟨false, y⟩

/-- The reading of an optional from what its components yield in a row, with the values that it
gives where they do not match. -/
def orSkipped (values : List (Bytes × Option Match)) :
    Except Mismatch Yield → Except Mismatch Reading
  | .error _ => .ok ⟨true, [], values⟩
  | .ok y => .ok (taken y)

end Reading

namespace Yield

/-- What components have yielded, with components before them that failed and give the values
in `before`. -/
def afterFailures (before : List (Bytes × Option Match)) (failures : List Mismatch) :
    Except (List Mismatch) Yield → Except (List Mismatch) Yield
  | .error more => .error (failures ++ more)
  | .ok y => .ok ⟨y.text, before ++ y.values⟩

/-- Tries more components if all of the first have failed. The values are `before` or `after` for
those that take no part. -/
def orElse (before after : List (Bytes × Option Match))
    (first next : Except Fault (Except (List Mismatch) Yield)) :
    Except Fault (Except (List Mismatch) Yield) :=
  match first with
  | .error fault => .error fault
  | .ok (.error failures) => next.map (afterFailures before failures)
  | .ok (.ok y) => .ok (.ok ⟨y.text, y.values ++ after⟩)

/-- What a choice yields from what its components have yielded: if all of them have failed, the
furthest of their mismatches. -/
def settle : Except (List Mismatch) Yield → Attempt Yield
  | .error failures => (Mismatch.furthest failures).map .error
  | .ok y => .ok (.ok y)

end Yield

namespace Rule

open Yield Reading

variable (names : Naming) (opts : RegexOptions)

/-- What a rule yields by itself on a text. -/
def reading (r : Rule) (text : Bytes) : Attempt Reading :=
  (r.derive opts text).map (Except.map fun d => ⟨d.isSkip, d.text, values names r d⟩)

/-- What the first of some components passes on that matches, or the mismatches of all of them. -/
def firstYield : List Rule → Bytes → Except Fault (Except (List Mismatch) Yield)
  | [], _ => .ok (.error [])
  | part :: parts, text =>
    match partYield names opts part text with
    | .error fault => .error fault
    | .ok (.error mm) =>
      (firstYield parts text).map (afterFailures (blank (part.contributed names)) [mm])
    | .ok (.ok y) => .ok (.ok ⟨y.text, y.values ++ blank (declarationsOfAll names parts)⟩)

theorem partYield_eq (part : Rule) (text : Bytes) :
    partYield names opts part text =
      (reading names opts part text).map (Except.map (Reading.passedOn (names.name? part))) := by
  rw [partYield, reading]
  rcases derive opts part text with fault | mm | d
  · rfl
  · rfl
  · unfold Rule.passedOn
    simp only [Except.map, Reading.passedOn]
    cases names.name? part with
    | none => rfl
    | some name => cases d <;> rfl

theorem partYield_unnamed {part : Rule} (h : names.name? part = none) (text : Bytes) :
    partYield names opts part text =
      (reading names opts part text).map (Except.map Reading.yield) := by
  rw [partYield_eq, h]
  rfl

theorem reading_sequence (n : Nat) (parts : List Rule) (text : Bytes) :
    reading names opts (.compound n .sequence parts) text =
      (rowYield names opts parts text).map (Except.map taken) := by
  rw [reading, rowYield, derive]
  rcases deriveRow opts parts text with fault | mm | ds
  · rfl
  · rfl
  · rfl

theorem reading_optional (n : Nat) (parts : List Rule) (text : Bytes) :
    reading names opts (.compound n .optional parts) text =
      (rowYield names opts parts text).map
        (orSkipped (blank (declarationsOfAll names parts))) := by
  rw [reading, rowYield, derive]
  rcases deriveRow opts parts text with fault | mm | ds
  · rfl
  · rfl
  · rfl

/-- Trying the components of a choice that come after those in `before`, which have failed. -/
theorem deriveFirst_eq_firstYield (n : Nat) (before parts : List Rule) (text : Bytes)
    (failures : List Mismatch) :
    (deriveFirst opts parts text before.length failures).map (Except.map fun d =>
        (⟨d.isSkip, d.text, values names (.compound n .choice (before ++ parts)) d⟩ : Reading)) =
      (((firstYield names opts parts text).map
        (afterFailures (blank (declarationsOfAll names before)) failures)).bind settle).map
          (Except.map taken) := by
  induction parts generalizing before failures with
  | nil =>
    rw [deriveFirst, firstYield]
    simp only [Except.map, Except.bind, afterFailures, settle, List.append_nil]
    rcases Mismatch.furthest failures with fault | mm
    · rfl
    · rfl
  | cons part parts ih =>
    rw [deriveFirst, firstYield, partYield]
    rcases derive opts part text with fault | mm | d
    · rfl
    · have hdeclared : declarationsOfAll names (before ++ [part]) =
          declarationsOfAll names before ++ part.contributed names := by
        rw [declarationsOfAll_append, declarationsOfAll_cons, declarationsOfAll, List.append_nil]
      have hrest := ih (before ++ [part]) (failures ++ [mm])
      rw [List.length_append, List.append_assoc, hdeclared] at hrest
      refine hrest.trans ?_
      rcases firstYield names opts parts text with fault | more | y
      · rfl
      · simp only [Except.map, afterFailures, List.append_assoc]
      · simp only [Except.map, afterFailures, blank_append, List.append_assoc]
    · simp only [Except.map, Except.bind, afterFailures, settle, taken, values,
        valuesOfChoice_append, Derivation.text, Derivation.isSkip, List.append_assoc]

theorem reading_choice (n : Nat) (parts : List Rule) (text : Bytes) :
    reading names opts (.compound n .choice parts) text =
      ((firstYield names opts parts text).bind settle).map (Except.map taken) := by
  have htried := deriveFirst_eq_firstYield names opts n [] parts text []
  rw [reading, derive]
  refine htried.trans ?_
  rcases firstYield names opts parts text with fault | failures | y
  · rfl
  · rfl
  · rfl

/-- A choice without a name yields what the first of its components yields that matches. -/
theorem partYield_choice {n : Nat} {parts : List Rule}
    (h : names.name? (.compound n .choice parts) = none) (text : Bytes) :
    partYield names opts (.compound n .choice parts) text =
      (firstYield names opts parts text).bind settle := by
  rw [partYield_unnamed names opts h, reading_choice]
  rcases (firstYield names opts parts text).bind settle with fault | mm | y
  · rfl
  · rfl
  · rfl

/-- Trying some components and then others. -/
theorem firstYield_append (before after : List Rule) (text : Bytes) :
    firstYield names opts (before ++ after) text =
      orElse (blank (declarationsOfAll names before)) (blank (declarationsOfAll names after))
        (firstYield names opts before text) (firstYield names opts after text) := by
  induction before with
  | nil =>
    rw [List.nil_append, firstYield, orElse]
    rcases firstYield names opts after text with fault | failures | y
    · rfl
    · rfl
    · rfl
  | cons part before ih =>
    rw [List.cons_append, firstYield, firstYield, ih, declarationsOfAll_cons]
    rcases partYield names opts part text with fault | mm | y
    · rfl
    · rcases firstYield names opts before text with fault | failures | y
      · rfl
      · simp only [orElse, Except.map]
        rcases firstYield names opts after text with fault | more | y
        · rfl
        · simp only [afterFailures, List.cons_append, List.nil_append]
        · simp only [afterFailures, blank_append, List.append_assoc]
      · simp only [orElse, Except.map, afterFailures, List.append_assoc]
    · simp only [orElse, declarationsOfAll_append, blank_append, List.append_assoc]

/-- Every component that has failed has a mismatch. -/
theorem firstYield_eq_error {parts : List Rule} {text : Bytes} {failures : List Mismatch}
    (h : firstYield names opts parts text = .ok (.error failures)) :
    failures.length = parts.length ∧
      ∀ mm ∈ failures, ∃ part ∈ parts, derive opts part text = .ok (.error mm) := by
  induction parts generalizing failures with
  | nil =>
    cases h
    exact ⟨rfl, fun mm hmm => (List.not_mem_nil hmm).elim⟩
  | cons part parts ih =>
    rw [firstYield, partYield] at h
    rcases hpart : derive opts part text with fault | mm | d
    · rw [hpart] at h
      cases h
    · rw [hpart] at h
      obtain ⟨tried, hrest, hfailures⟩ := exists_of_map_eq_ok h
      cases tried with
      | ok y => cases hfailures
      | error more =>
        cases hfailures
        obtain ⟨hlength, hmore⟩ := ih hrest
        refine ⟨congrArg (· + 1) hlength, List.forall_mem_cons.2 ⟨?_, fun other hother => ?_⟩⟩
        · exact ⟨part, List.mem_cons_self, hpart⟩
        · obtain ⟨failed, hmem, hfailed⟩ := hmore other hother
          exact ⟨failed, List.mem_cons_of_mem _ hmem, hfailed⟩
    · rw [hpart] at h
      cases h

variable {names opts} {names' : Naming} {other : Rule → Rule}

/-- Components that are exchanged for others that pass on the same yield the same in a row. -/
theorem rowYield_map {parts : List Rule}
    (h : ∀ part ∈ parts, ∀ text,
      partYield names' opts (other part) text = partYield names opts part text) (text : Bytes) :
    rowYield names' opts (parts.map other) text = rowYield names opts parts text := by
  induction parts generalizing text with
  | nil => rfl
  | cons part parts ih =>
    obtain ⟨hpart, hparts⟩ := List.forall_mem_cons.1 h
    rw [List.map_cons, rowYield_cons, rowYield_cons, hpart]
    simp only [ih hparts]

/-- Declarations of the same names have the same places without values. -/
theorem blank_congr {as bs : List (Bytes × Rule)} (h : as.map Prod.fst = bs.map Prod.fst) :
    blank as = blank bs := by
  have hblank (declared : List (Bytes × Rule)) :
      blank declared = (declared.map Prod.fst).map fun name => (name, none) := by
    rw [blank, List.map_map]
    rfl
  rw [hblank, hblank, h]

theorem names_declarationsOfAll_map {parts : List Rule}
    (h : ∀ part ∈ parts,
      ((other part).contributed names').map Prod.fst = (part.contributed names).map Prod.fst) :
    (declarationsOfAll names' (parts.map other)).map Prod.fst =
      (declarationsOfAll names parts).map Prod.fst := by
  induction parts with
  | nil => rfl
  | cons part parts ih =>
    obtain ⟨hpart, hparts⟩ := List.forall_mem_cons.1 h
    rw [List.map_cons, declarationsOfAll_cons, declarationsOfAll_cons, List.map_append, hpart,
      ih hparts, List.map_append]

/-- Components that are exchanged for others that pass on the same, and declare the same names,
yield the same where they are tried in turn. -/
theorem firstYield_map {parts : List Rule} {text : Bytes}
    (h : ∀ part ∈ parts, partYield names' opts (other part) text = partYield names opts part text)
    (hnames : ∀ part ∈ parts,
      ((other part).contributed names').map Prod.fst = (part.contributed names).map Prod.fst) :
    firstYield names' opts (parts.map other) text = firstYield names opts parts text := by
  induction parts with
  | nil => rfl
  | cons part parts ih =>
    obtain ⟨hpart, hparts⟩ := List.forall_mem_cons.1 h
    obtain ⟨hfirst, hrest⟩ := List.forall_mem_cons.1 hnames
    rw [List.map_cons, firstYield, firstYield, hpart, ih hparts hrest, blank_congr hfirst,
      blank_congr (names_declarationsOfAll_map hrest)]

end Rule

end PhraseGrammar
