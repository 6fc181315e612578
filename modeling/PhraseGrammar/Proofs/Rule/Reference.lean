import PhraseGrammar.Rule.Matching
import PhraseGrammar.Proofs.Layout.Tables
import PhraseGrammar.Proofs.Rule.Declarations

/-!
# The reference reading of rules

A rule is read as an expression over texts: the reference evaluates it on a text
and keeps the tree of what was derived. It needs no registry, no slots and no
offsets. Names come in afterwards: from a rule and a derivation the match is
built, with one value for each declaration of the rule, in the order of the
declarations.
-/

set_option autoImplicit false

namespace PhraseGrammar

/-- How a rule consumed a beginning of a text. -/
inductive Derivation
  /-- A leaf that consumed the given bytes. -/
  | leaf (text : Bytes)
  /-- An optional whose components do not match. -/
  | skip
  /-- All components, back to back. -/
  | row (parts : List Derivation)
  /-- The component with index `i` of a choice. -/
  | choice (i : Nat) (part : Derivation)

namespace Derivation

mutual

/-- The bytes that were consumed. -/
def text : Derivation → Bytes
  | leaf consumed => consumed
  | skip => []
  | row parts => textOfAll parts
  | choice _ part => text part

/-- The bytes that were consumed by derivations back to back. -/
def textOfAll : List Derivation → Bytes
  | [] => []
  | d :: ds => text d ++ textOfAll ds

end

end Derivation

/-- The result of a reference evaluation: a value or a mismatch, unless an expression
cannot be evaluated at all. -/
abbrev Attempt (α : Type) := Except Fault (Except Mismatch α)

namespace Rule

/-- Evaluates a leaf on a text. -/
def deriveLeaf (opts : RegexOptions) (source : Bytes) (r : Regex) (text : Bytes) :
    Attempt Derivation :=
  match r.consume opts text 0 with
  | .error fault => .error fault
  | .ok (some n) => .ok (.ok (.leaf (text.take n)))
  | .ok none => .ok (.error ⟨0, leafMismatch source text⟩)

/-- The result for a row that begins with a derivation, from the result for the rest. -/
def prepend (d : Derivation) :
    Except Mismatch (List Derivation) → Except Mismatch (List Derivation)
  | .error mm => .error (mm.rebased d.text.length.toUInt64)
  | .ok ds => .ok (d :: ds)

mutual

/-- Evaluates a rule on a text. -/
def derive (opts : RegexOptions) : Rule → Bytes → Attempt Derivation
  | leaf _ source r, text => deriveLeaf opts source r text
  | compound _ .sequence parts, text =>
    match deriveRow opts parts text with
    | .error fault => .error fault
    | .ok (.error mm) => .ok (.error mm)
    | .ok (.ok ds) => .ok (.ok (.row ds))
  | compound _ .optional parts, text =>
    match deriveRow opts parts text with
    | .error fault => .error fault
    | .ok (.error _) => .ok (.ok .skip)
    | .ok (.ok ds) => .ok (.ok (.row ds))
  | compound _ .choice parts, text => deriveFirst opts parts text 0 []

/-- Evaluates rules one after the other, each on what the ones before it have left. -/
def deriveRow (opts : RegexOptions) : List Rule → Bytes → Attempt (List Derivation)
  | [], _ => .ok (.ok [])
  | part :: parts, text =>
    match derive opts part text with
    | .error fault => .error fault
    | .ok (.error mm) => .ok (.error mm)
    | .ok (.ok d) => (deriveRow opts parts (text.drop d.text.length)).map (prepend d)

/-- Evaluates rules, of which the first has index `i`, until one does not fail. The
mismatches before are `failures`. -/
def deriveFirst (opts : RegexOptions) : List Rule → Bytes → (i : Nat) →
    (failures : List Mismatch) → Attempt Derivation
  | [], _, _, failures => (Mismatch.furthest failures).map .error
  | part :: parts, text, i, failures =>
    match derive opts part text with
    | .error fault => .error fault
    | .ok (.error mm) => deriveFirst opts parts text (i + 1) (failures ++ [mm])
    | .ok (.ok d) => .ok (.ok (.choice i d))

end

/-- What a component gives the rule around it, where `inner` are the values of its own
declarations: a named one its match, unless it was skipped, an unnamed one the values. -/
def passedOn (names : Naming) (part : Rule) (d : Derivation)
    (inner : List (Bytes × Option Match)) : List (Bytes × Option Match) :=
  match names.name? part with
  | none => inner
  | some name =>
    match d with
    | .skip => [(name, none)]
    | _ => [(name, some ⟨d.text, NameTable.group inner⟩)]

/-- Declarations without values. -/
def blank (declared : List (Bytes × Rule)) : List (Bytes × Option Match) :=
  declared.map fun entry => (entry.1, none)

mutual

/-- A value for each declaration of a rule, in the order of the declarations: the match
of the declaring rule if that took part in a derivation. -/
def values (names : Naming) : Rule → Derivation → List (Bytes × Option Match)
  | compound _ _ parts, .row ds => valuesOfRow names parts ds
  | compound _ _ parts, .choice i d => valuesOfChoice names parts i d
  | r, _ => blank (r.declarations names)

/-- The values that components give, which were derived one after the other. -/
def valuesOfRow (names : Naming) : List Rule → List Derivation → List (Bytes × Option Match)
  | part :: parts, d :: ds =>
    passedOn names part d (values names part d) ++ valuesOfRow names parts ds
  | parts, _ => blank (declarationsOfAll names parts)

/-- The values that components give, where only the one with index `i` was derived. -/
def valuesOfChoice (names : Naming) : List Rule → (i : Nat) → Derivation →
    List (Bytes × Option Match)
  | [], _, _ => []
  | part :: parts, 0, d =>
    passedOn names part d (values names part d) ++ blank (declarationsOfAll names parts)
  | part :: parts, i + 1, d => blank (part.contributed names) ++ valuesOfChoice names parts i d

end

/-- The match of a rule for a derivation. -/
def matchOf (names : Naming) (r : Rule) (d : Derivation) : Match :=
  ⟨d.text, NameTable.group (r.values names d)⟩

/-- A named component that took part gives its match. -/
theorem passedOn_named {names : Naming} {part : Rule} {name : Bytes} {d : Derivation}
    (hname : names.name? part = some name) (hd : d ≠ .skip) :
    passedOn names part d (values names part d) = [(name, some (part.matchOf names d))] := by
  rw [passedOn, hname]
  cases d with
  | skip => exact absurd rfl hd
  | leaf => rfl
  | row => rfl
  | choice => rfl

theorem names_blank (declared : List (Bytes × Rule)) :
    (blank declared).map Prod.fst = declared.map Prod.fst := by
  simp [blank]

theorem blank_append (before after : List (Bytes × Rule)) :
    blank (before ++ after) = blank before ++ blank after :=
  List.map_append

/-- A component gives a value for each of its declarations. -/
theorem names_passedOn {names : Naming} {part : Rule} (d : Derivation)
    {inner : List (Bytes × Option Match)}
    (h : inner.map Prod.fst = (part.declarations names).map Prod.fst) :
    (passedOn names part d inner).map Prod.fst = (part.contributed names).map Prod.fst := by
  unfold passedOn
  split
  · next hname => rw [contributed_unnamed hname, h]
  · next name hname =>
    rw [contributed_named hname]
    split
    · rfl
    · rfl

/-- A component that was skipped gives no values. -/
theorem passedOn_skip (names : Naming) (part : Rule) :
    passedOn names part .skip (values names part .skip) = blank (part.contributed names) := by
  have hvalues : values names part .skip = blank (part.declarations names) := by
    cases part with
    | leaf => rfl
    | compound => rfl
  unfold passedOn
  split
  · next hname => rw [contributed_unnamed hname, hvalues]
  · next name hname =>
    rw [contributed_named hname]
    rfl

mutual

/-- There is a value for each declaration of a rule, in the same order. -/
theorem names_values (names : Naming) : (r : Rule) → (d : Derivation) →
    (values names r d).map Prod.fst = (r.declarations names).map Prod.fst
  | .compound _ _ parts, .row ds => names_valuesOfRow names parts ds
  | .compound _ _ parts, .choice i d => names_valuesOfChoice names parts i d
  | .compound _ _ _, .leaf _ => names_blank _
  | .compound _ _ _, .skip => names_blank _
  | .leaf _ _ _, _ => names_blank []

theorem names_valuesOfRow (names : Naming) : (parts : List Rule) → (ds : List Derivation) →
    (valuesOfRow names parts ds).map Prod.fst = (declarationsOfAll names parts).map Prod.fst
  | [], _ => rfl
  | part :: parts, [] => names_blank _
  | part :: parts, d :: ds => by
    rw [valuesOfRow, declarationsOfAll_cons, List.map_append, List.map_append,
      names_passedOn d (names_values names part d), names_valuesOfRow names parts ds]

theorem names_valuesOfChoice (names : Naming) : (parts : List Rule) → (i : Nat) →
    (d : Derivation) →
    (valuesOfChoice names parts i d).map Prod.fst = (declarationsOfAll names parts).map Prod.fst
  | [], _, _ => rfl
  | part :: parts, 0, d => by
    rw [valuesOfChoice, declarationsOfAll_cons, List.map_append, List.map_append,
      names_passedOn d (names_values names part d), names_blank]
  | part :: parts, i + 1, d => by
    rw [valuesOfChoice, declarationsOfAll_cons, List.map_append, List.map_append, names_blank,
      names_valuesOfChoice names parts i d]

end

/-- The values of a choice whose component after those in `before` was derived. -/
theorem valuesOfChoice_append (names : Naming) (before : List Rule) (part : Rule)
    (after : List Rule) (d : Derivation) :
    valuesOfChoice names (before ++ part :: after) before.length d =
      blank (declarationsOfAll names before) ++ passedOn names part d (values names part d) ++
        blank (declarationsOfAll names after) := by
  induction before with
  | nil => rfl
  | cons first rest ih =>
    rw [List.cons_append, List.length_cons, valuesOfChoice, ih, declarationsOfAll_cons,
      blank_append]
    simp only [List.append_assoc]

mutual

/-- What is derived is a beginning of the text. -/
theorem derive_prefix {opts : RegexOptions} : (r : Rule) → {text : Bytes} → {d : Derivation} →
    derive opts r text = .ok (.ok d) → d.text <+: text
  | .leaf _ source regex, text, d, h => by
    rw [derive, deriveLeaf] at h
    split at h
    · cases h
    · next n _ =>
      cases h
      exact List.take_prefix n text
    · cases h
  | .compound _ .sequence parts, text, d, h => by
    rw [derive] at h
    split at h
    · cases h
    · cases h
    · next ds hds =>
      cases h
      exact deriveRow_prefix parts hds
  | .compound _ .optional parts, text, d, h => by
    rw [derive] at h
    split at h
    · cases h
    · cases h
      exact List.nil_prefix
    · next ds hds =>
      cases h
      exact deriveRow_prefix parts hds
  | .compound _ .choice parts, text, d, h => by
    rw [derive] at h
    exact deriveFirst_prefix parts h

/-- What is derived back to back is a beginning of the text. -/
theorem deriveRow_prefix {opts : RegexOptions} : (parts : List Rule) → {text : Bytes} →
    {ds : List Derivation} → deriveRow opts parts text = .ok (.ok ds) →
    Derivation.textOfAll ds <+: text
  | [], text, ds, h => by
    rw [deriveRow] at h
    cases h
    exact List.nil_prefix
  | part :: parts, text, ds, h => by
    rw [deriveRow] at h
    split at h
    · cases h
    · cases h
    · next d hd =>
      have hfirst := derive_prefix part hd
      obtain ⟨attempt, hrest, hprepend⟩ := exists_of_map_eq_ok h
      cases attempt with
      | error mm => cases hprepend
      | ok rest =>
        cases hprepend
        have hsecond := deriveRow_prefix parts hrest
        rw [Derivation.textOfAll, ← List.prefix_iff_eq_append.1 hfirst]
        exact (List.prefix_append_right_inj _).2 hsecond

/-- What the first of several rules derives is a beginning of the text. -/
theorem deriveFirst_prefix {opts : RegexOptions} : (parts : List Rule) → {text : Bytes} →
    {i : Nat} → {failures : List Mismatch} → {d : Derivation} →
    deriveFirst opts parts text i failures = .ok (.ok d) → d.text <+: text
  | [], text, i, failures, d, h => by
    rw [deriveFirst] at h
    obtain ⟨mm, -, hfailed⟩ := exists_of_map_eq_ok h
    cases hfailed
  | part :: parts, text, i, failures, d, h => by
    rw [deriveFirst] at h
    split at h
    · cases h
    · exact deriveFirst_prefix parts h
    · next d hd =>
      cases h
      have hprefix := derive_prefix part hd
      rwa [Derivation.text]

end

end Rule

end PhraseGrammar
