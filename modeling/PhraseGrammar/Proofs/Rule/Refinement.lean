import PhraseGrammar.Grammar
import PhraseGrammar.Proofs.Layout.Filling
import PhraseGrammar.Proofs.Layout.Flattening
import PhraseGrammar.Proofs.Rule.Reference

/-!
# Matching refines the reference

Matching with the registry of a grammar gives what the reference evaluation of the
root derives. While the components of a rule are matched, the slots are those of
the finished components followed by empty ones for the components to come; that
is the invariant of a row. It is kept because the offsets of a component are
the numbers of declarations of the components before it.
-/

set_option autoImplicit false

namespace PhraseGrammar

open NameTable

/-- The layouts that matching looks up for a rule and all rules below it are those of the
rules as trees. -/
def MatchEnv.IsFlat (env : MatchEnv) (names : Naming) (r : Rule) : Prop :=
  ∀ s ∈ r.subrules, env.registry.layout s = .ok (s.flatLayout names)

namespace Rule

variable {env : MatchEnv} {names : Naming}

/-- What matching a rule gives for the result of its reference evaluation. -/
def outcomeOf (names : Naming) (r : Rule) : Except Mismatch Derivation → Outcome
  | .error mm => .failed mm
  | .ok .skip => .skipped
  | .ok d => .matched (r.matchOf names d)

theorem length_placementsAfter (before : List Bytes) (parts : List Rule) :
    (placementsAfter names before parts).length = parts.length := by
  induction parts generalizing before with
  | nil => rfl
  | cons part parts ih => rw [placementsAfter, List.length_cons, ih, List.length_cons]

/-- The placement of a component begins where the components before it end. -/
theorem getElem?_placementsAfter (names : Naming) (before : List Rule) (part : Rule)
    (after : List Rule) (declared : List Bytes) :
    (placementsAfter names declared (before ++ part :: after))[before.length]? =
      some ⟨names.name? part, offsetsAfter
        (declared ++ (declarationsOfAll names before).map Prod.fst) (part.contributed names)⟩ := by
  induction before generalizing declared with
  | nil => simp [placementsAfter, declarationsOfAll]
  | cons first rest ih =>
    rw [List.cons_append, placementsAfter, List.length_cons, List.getElem?_cons_succ, ih,
      declarationsOfAll_cons, List.map_append, List.append_assoc]

/-- The empty slots of a rule group its declarations without values. -/
theorem emptySlots_flatLayout (names : Naming) (r : Rule) :
    (r.flatLayout names).emptySlots = group (blank (r.declarations names)) := by
  rw [blank, group_map fun _ => none, Layout.emptySlots, flatLayout]
  refine List.map_congr_left fun entry _ => ?_
  rw [List.map_const']

/-- Matching finds the layout of a rule as a tree. -/
theorem layout_eq {r : Rule} (h : env.IsFlat names r) :
    env.layout r = .ok (r.flatLayout names) := by
  have hlength : (r.flatLayout names).placements.length = r.parts.length :=
    length_placementsAfter [] r.parts
  rw [MatchEnv.layout, h r (mem_subrules_self r)]
  simp only [hlength, if_true]

/-- The match of a named component fills the slot of the component. -/
theorem fill_group (before after : List (Bytes × Option Match)) (name : Bytes)
    (old new : Option Match) :
    Slots.fill name ((before.map Prod.fst).count name) [new]
        (group (before ++ [(name, old)] ++ after)) =
      ⟨group (before ++ [(name, new)] ++ after), none⟩ := by
  have hnames : [(name, old)].map Prod.fst = [(name, new)].map Prod.fst := rfl
  have hspread := Slots.spread_group before after hnames
  have hpresent : ((group (before ++ [(name, old)] ++ after)).lookup name).isNone = false := by
    rw [lookup_group, if_neg (by simp [valuesOf])]
    rfl
  simp only [group_singleton, offsetsAfter, List.map_cons, List.map_nil, Slots.spread,
    lookup_cons, if_true, hpresent, Bool.false_eq_true, if_false] at hspread
  split at hspread
  · exact hspread
  · next hfault =>
    rw [← hspread]
    generalize Slots.fill name _ [new] _ = filling at hfault
    obtain ⟨slots, fault⟩ := filling
    cases fault with
    | none => rfl
    | some fault => exact absurd rfl hfault

/-- Putting in the match of a component replaces the empty values of the component. -/
theorem place_group (names : Naming) (done after : List (Bytes × Option Match)) (part : Rule)
    {d : Derivation} (hd : d ≠ .skip) :
    (⟨names.name? part, offsetsAfter (done.map Prod.fst) (part.contributed names)⟩ :
        Placement).place (some (part.matchOf names d))
        (group (done ++ blank (part.contributed names) ++ after)) =
      ⟨group (done ++ passedOn names part d (values names part d) ++ after), none⟩ := by
  cases hname : names.name? part with
  | none =>
    have hblank : (blank (part.declarations names)).map Prod.fst =
        (values names part d).map Prod.fst := by
      rw [names_blank, names_values]
    have hoffsets : offsetsAfter (done.map Prod.fst) (part.declarations names) =
        offsetsAfter (done.map Prod.fst) (values names part d) :=
      offsetsAfter_congr _ (names_values names part d).symm
    rw [contributed_unnamed hname, passedOn, hname, hoffsets]
    exact Slots.spread_group done after hblank
  | some name =>
    rw [contributed_named hname, passedOn_named hname hd]
    simp only [Placement.place, offsetsAfter, group_singleton, List.map_cons, List.map_nil,
      lookup_cons, if_true]
    exact fill_group done after name none _

theorem outcomeOf_of_ne_skip (r : Rule) {d : Derivation} (hd : d ≠ .skip) :
    outcomeOf names r (.ok d) = .matched (r.matchOf names d) := by
  cases d with
  | skip => exact absurd rfl hd
  | leaf => rfl
  | row => rfl
  | choice => rfl

/-- What matching several components in a row gives, where the values of the components
before them are `done` and these have consumed the first `pos` bytes. -/
def rowOutcome (names : Naming) (text : Bytes) (parts : List Rule)
    (done : List (Bytes × Option Match)) (pos : Nat) : Except Mismatch (List Derivation) → Outcome
  | .error mm => .failed (mm.rebased pos.toUInt64)
  | .ok ds => .matched ⟨text.take pos ++ Derivation.textOfAll ds,
      group (done ++ valuesOfRow names parts ds)⟩

theorem rebased_add (mm : Mismatch) (n m : Nat) :
    (mm.rebased n.toUInt64).rebased m.toUInt64 = mm.rebased (m + n).toUInt64 := by
  have hsum : (m + n).toUInt64 = n.toUInt64 + m.toUInt64 := by
    rw [Nat.add_comm]
    exact UInt64.ofNat_add n m
  simp only [Mismatch.rebased, hsum, UInt64.add_assoc]

/-- The bytes up to the end of what was derived at a position. -/
theorem take_add_derived {text : Bytes} {pos : Nat} {consumed : Bytes}
    (h : consumed <+: text.drop pos) :
    text.take (pos + consumed.length) = text.take pos ++ consumed := by
  rw [List.take_add, ← List.prefix_iff_eq_take.1 h]

theorem rebased_zero (mm : Mismatch) : mm.rebased (0 : Nat).toUInt64 = mm := by
  show (⟨mm.position + 0, mm.description⟩ : Mismatch) = mm
  rw [UInt64.add_zero]

/-- A row at the start of a text that is made by a rule as a whole. -/
theorem rowOutcome_start (names : Naming) (text : Bytes) (n : Nat) (combinator : Combinator)
    (parts : List Rule) (attempt : Except Mismatch (List Derivation)) :
    rowOutcome names text parts [] 0 attempt =
      outcomeOf names (.compound n combinator parts) (attempt.map .row) := by
  cases attempt with
  | error mm => exact congrArg Outcome.failed (rebased_zero mm)
  | ok ds => rfl

/-- A row whose first component has been derived. -/
theorem rowOutcome_prepend {text : Bytes} {pos : Nat} {d : Derivation} (part : Rule)
    (parts : List Rule) (done : List (Bytes × Option Match)) (hd : d.text <+: text.drop pos)
    (attempt : Except Mismatch (List Derivation)) :
    rowOutcome names text parts (done ++ passedOn names part d (values names part d))
        (pos + d.text.length) attempt =
      rowOutcome names text (part :: parts) done pos (prepend d attempt) := by
  cases attempt with
  | error mm => exact congrArg Outcome.failed (rebased_add mm d.text.length pos).symm
  | ok ds =>
    simp only [rowOutcome, prepend, take_add_derived hd, valuesOfRow, Derivation.textOfAll,
      List.append_assoc]

/-- Going on in a row past a component, whether it was placed or skipped: its values join
those of the finished components. -/
theorem matchRow_derived {text : Bytes} {pos : Nat} {part : Rule} {d : Derivation}
    (parts : List Rule) (done : List (Bytes × Option Match)) (hpos : pos ≤ text.length)
    (hpart : part.matchText env (text.drop pos) = .ok (outcomeOf names part (.ok d))) :
    matchRow env text (part :: parts) (placementsAfter names (done.map Prod.fst) (part :: parts))
        (group (done ++ blank (declarationsOfAll names (part :: parts)))) pos =
      matchRow env text parts
        (placementsAfter names
          ((done ++ passedOn names part d (values names part d)).map Prod.fst) parts)
        (group (done ++ passedOn names part d (values names part d) ++
          blank (declarationsOfAll names parts)))
        (pos + d.text.length) := by
  have hnames : (done ++ passedOn names part d (values names part d)).map Prod.fst =
      done.map Prod.fst ++ (part.contributed names).map Prod.fst := by
    rw [List.map_append, names_passedOn d (names_values names part d)]
  have hblank : done ++ blank (declarationsOfAll names (part :: parts)) =
      done ++ blank (part.contributed names) ++ blank (declarationsOfAll names parts) := by
    rw [declarationsOfAll_cons, blank_append, List.append_assoc]
  rw [hnames, placementsAfter, matchRow, if_neg (Nat.not_lt.2 hpos), hpart, hblank]
  by_cases hskip : d = .skip
  · subst hskip
    rw [passedOn_skip]
    rfl
  · simp only [outcomeOf_of_ne_skip part hskip, place_group names done _ part hskip]
    rfl

/-- The match of a choice, when the component after those in `before` was derived. -/
theorem chosen_derived (names : Naming) (n : Nat) (before : List Rule) (part : Rule)
    (after : List Rule) {d : Derivation} (hd : d ≠ .skip) :
    chosen ((compound n .choice (before ++ part :: after)).flatLayout names)
        (.compound n .choice (before ++ part :: after)) before.length (part.matchOf names d) =
      .ok (outcomeOf names (.compound n .choice (before ++ part :: after))
        (.ok (.choice before.length d))) := by
  have hplacement := getElem?_placementsAfter names before part after []
  have hplace := place_group names (blank (declarationsOfAll names before))
    (blank (declarationsOfAll names after)) part hd
  rw [names_blank] at hplace
  have hslots : ((compound n .choice (before ++ part :: after)).flatLayout names).emptySlots =
      group (blank (declarationsOfAll names before) ++ blank (part.contributed names) ++
        blank (declarationsOfAll names after)) := by
    rw [emptySlots_flatLayout, declarations, declarationsOfAll_append, declarationsOfAll_cons,
      blank_append, blank_append, List.append_assoc]
  rw [List.nil_append] at hplacement
  rw [chosen, hslots]
  simp only [flatLayout, Rule.parts, hplacement, hplace]
  simp only [outcomeOf, matchOf, values, valuesOfChoice_append]
  rfl

mutual

/-- Matching a rule gives what its reference evaluation derives. -/
theorem matchText_eq : (r : Rule) → env.IsFlat names r → (text : Bytes) →
    r.matchText env text = (r.derive env.options text).map (outcomeOf names r)
  | .leaf _ source regex, _, text => by
    rw [matchText, derive, matchLeaf, deriveLeaf]
    cases regex.consume env.options text 0 with
    | error fault => rfl
    | ok result =>
      cases result with
      | none => rfl
      | some n => rfl
  | .compound n .sequence parts, h, text => by
    have hrow := matchRow_eq parts (fun part hpart s hs => h s (mem_subrules_of_mem_parts hpart hs))
      text [] 0 (Nat.zero_le _)
    rw [List.drop_zero] at hrow
    simp only [matchText, layout_eq h, emptySlots_flatLayout, derive]
    refine hrow.trans ?_
    cases deriveRow env.options parts text with
    | error fault => rfl
    | ok attempt =>
      have hstart := rowOutcome_start names text n .sequence parts attempt
      cases attempt with
      | error mm => exact congrArg Except.ok hstart
      | ok ds => rfl
  | .compound n .optional parts, h, text => by
    have hrow := matchRow_eq parts (fun part hpart s hs => h s (mem_subrules_of_mem_parts hpart hs))
      text [] 0 (Nat.zero_le _)
    rw [List.drop_zero] at hrow
    have hbody : matchRow env text parts ((compound n .optional parts).flatLayout names).placements
        (group (blank ((compound n .optional parts).declarations names))) 0 =
        (deriveRow env.options parts text).map (rowOutcome names text parts [] 0) := hrow
    simp only [matchText, layout_eq h, emptySlots_flatLayout, derive, hbody]
    cases deriveRow env.options parts text with
    | error fault => rfl
    | ok attempt =>
      cases attempt with
      | error mm => rfl
      | ok ds => rfl
  | .compound n .choice parts, h, text => by
    rw [matchText, derive]
    exact matchFirst_eq parts [] rfl
      (fun part hpart s hs => h s (mem_subrules_of_mem_parts hpart hs)) h text []

/-- Matching components in a row, from a position inside the text on, gives what their
reference evaluation derives on the rest of the text. The slots are those of the finished
components and empty ones. -/
theorem matchRow_eq : (parts : List Rule) → (∀ part ∈ parts, env.IsFlat names part) →
    (text : Bytes) → (done : List (Bytes × Option Match)) → (pos : Nat) → pos ≤ text.length →
    matchRow env text parts (placementsAfter names (done.map Prod.fst) parts)
        (group (done ++ blank (declarationsOfAll names parts))) pos =
      (deriveRow env.options parts (text.drop pos)).map (rowOutcome names text parts done pos)
  | [], _, text, done, pos, _ => by
    simp [matchRow, deriveRow, rowOutcome, Except.map, declarationsOfAll, blank, valuesOfRow,
      Derivation.textOfAll]
  | part :: parts, h, text, done, pos, hpos => by
    have hpart := matchText_eq part (h part List.mem_cons_self) (text.drop pos)
    have hinside : ¬ text.length < pos := Nat.not_lt.2 hpos
    rw [deriveRow]
    cases hderived : derive env.options part (text.drop pos) with
    | error fault =>
      rw [placementsAfter, matchRow, if_neg hinside, hpart, hderived]
      rfl
    | ok attempt =>
      rw [hderived] at hpart
      cases attempt with
      | error mm =>
        rw [placementsAfter, matchRow, if_neg hinside, hpart]
        rfl
      | ok d =>
        have hd := derive_prefix part hderived
        have hnext : pos + d.text.length ≤ text.length := by
          have hlength := hd.length_le
          rw [List.length_drop] at hlength
          omega
        have hrest := matchRow_eq parts (fun part hmem => h part (List.mem_cons_of_mem _ hmem))
          text (done ++ passedOn names part d (values names part d)) (pos + d.text.length) hnext
        rw [← List.drop_drop] at hrest
        rw [matchRow_derived parts done hpos hpart, hrest]
        show _ = ((deriveRow env.options parts ((text.drop pos).drop d.text.length)).map
          (prepend d)).map (rowOutcome names text (part :: parts) done pos)
        cases deriveRow env.options parts ((text.drop pos).drop d.text.length) with
        | error fault => rfl
        | ok attempt => exact congrArg Except.ok (rowOutcome_prepend part parts done hd attempt)

/-- Matching the first of several components of a choice gives what their reference
evaluation derives. -/
theorem matchFirst_eq {n : Nat} {all : List Rule} : (parts : List Rule) →
    (before : List Rule) → all = before ++ parts → (∀ part ∈ parts, env.IsFlat names part) →
    env.IsFlat names (.compound n .choice all) → (text : Bytes) → (failures : List Mismatch) →
    matchFirst env (.compound n .choice all) text parts before.length failures =
      (deriveFirst env.options parts text before.length failures).map
        (outcomeOf names (.compound n .choice all))
  | [], before, _, _, _, text, failures => by
    rw [matchFirst, deriveFirst]
    cases Mismatch.furthest failures with
    | error fault => rfl
    | ok mm => rfl
  | part :: parts, before, hall, h, howner, text, failures => by
    have hpart := matchText_eq part (h part List.mem_cons_self) text
    rw [matchFirst, deriveFirst, hpart]
    cases derive env.options part text with
    | error fault => rfl
    | ok attempt =>
      cases attempt with
      | error mm =>
        have hrest := matchFirst_eq parts (before ++ [part]) (by rw [hall, List.append_assoc]; rfl)
          (fun part hmem => h part (List.mem_cons_of_mem _ hmem)) howner text (failures ++ [mm])
        rw [List.length_append] at hrest
        exact hrest
      | ok d =>
        by_cases hskip : d = .skip
        · subst hskip
          have hvalues := valuesOfChoice_append names before part parts .skip
          rw [passedOn_skip, ← blank_append, ← blank_append, List.append_assoc,
            ← declarationsOfAll_cons, ← declarationsOfAll_append, ← hall] at hvalues
          simp only [Except.map, outcomeOf, layout_eq howner, emptySlots_flatLayout]
          simp only [matchOf, values, hvalues]
          rfl
        · have hchosen := chosen_derived names n before part parts hskip
          rw [← hall] at hchosen
          simp only [Except.map, outcomeOf_of_ne_skip part hskip, layout_eq howner]
          exact hchosen

end

end Rule

end PhraseGrammar
