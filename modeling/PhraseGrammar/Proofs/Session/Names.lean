import PhraseGrammar.Proofs.Naming.Consistency
import PhraseGrammar.Proofs.Session.Snapshots

/-!
# Names are permanent

A session names rules by steps, in expressions and in builds, and a step that is refused may have
named rules before. In each case a rule is named by `Naming.give`, which gives only token names
and changes no name that was given before. So a naming is only ever extended, by token names
(`Naming.ExtendedBy`), and every run of steps keeps to that.
-/

set_option autoImplicit false

namespace PhraseGrammar

namespace Naming

/-- A later naming has all names of an earlier one, and beside them only token names. -/
structure ExtendedBy (names later : Naming) : Prop where
  kept : ∀ (r : Rule) (name : Bytes), names.name? r = some name → later.name? r = some name
  added : ∀ (r : Rule) (name : Bytes), later.name? r = some name →
    names.name? r = some name ∨ name ∈ TokenName.language

theorem ExtendedBy.refl (names : Naming) : names.ExtendedBy names :=
  ⟨fun _ _ h => h, fun _ _ h => .inl h⟩

theorem ExtendedBy.trans {names middle later : Naming} (hfirst : names.ExtendedBy middle)
    (hsecond : middle.ExtendedBy later) : names.ExtendedBy later := by
  refine ⟨fun r name h => hsecond.kept r name (hfirst.kept r name h), fun r name h => ?_⟩
  rcases hsecond.added r name h with hmiddle | hvalid
  · exact hfirst.added r name hmiddle
  · exact .inr hvalid

/-- A rule can be given a name exactly if that is a token name and the rule has no other name. -/
theorem exists_give_iff (names : Naming) (r : Rule) (name : Bytes) :
    (∃ given, names.give r name = .ok given) ↔
      name ∈ TokenName.language ∧ (names.name? r = none ∨ names.name? r = some name) := by
  rw [← allows_iff, ← check_eq_ok_iff]
  unfold give
  cases names.check r name with
  | error fault => simp [Except.map]
  | ok _ => simp [Except.map]

/-- After a rule has been given a name it has that name, and no other rule has been named. -/
theorem name?_of_give {names given : Naming} {r : Rule} {name : Bytes}
    (h : names.give r name = .ok given) (s : Rule) :
    given.name? s = if s.number = r.number then some name else names.name? s := by
  obtain ⟨-, hfits⟩ := (exists_give_iff names r name).1 ⟨given, h⟩
  obtain ⟨_, -, rfl⟩ := exists_of_map_eq_ok h
  exact Fits.name?_assign hfits s

theorem extendedBy_of_give {names given : Naming} {r : Rule} {name : Bytes}
    (h : names.give r name = .ok given) : names.ExtendedBy given := by
  obtain ⟨hvalid, hfits⟩ := (exists_give_iff names r name).1 ⟨given, h⟩
  constructor
  · intro s other hother
    rw [name?_of_give h]
    split
    · next hnumber =>
      have hsame : names.name? s = names.name? r := by rw [name?, name?, hnumber]
      rw [← hsame, hother] at hfits
      exact (hfits.resolve_left (Option.some_ne_none _)).symm
    · exact hother
  · intro s other hother
    rw [name?_of_give h] at hother
    split at hother
    · exact .inr (Option.some.inj hother ▸ hvalid)
    · exact .inl hother

end Naming

namespace Session

/-- The names after any part of a step extend those before. -/
theorem isStepwise_extendedBy :
    IsStepwise (fun _ => True) fun s t => s.names.ExtendedBy t.names where
  refl s := .refl s.names
  trans _ _ _ := .trans
  count s := .refl s.names
  name _ _ _ _ h := Naming.extendedBy_of_give h
  rule s _ _ := .refl s.names
  builder s _ _ := .refl s.names
  registry s _ _ := .refl s.names
  grammar s _ _ _ := .refl s.names

/-- The names after a run of steps extend those before. -/
theorem extendedBy_after (s : Session) (steps : List Step) :
    s.names.ExtendedBy (s.after steps).names :=
  isStepwise_extendedBy.after (fun _ _ _ _ => trivial) s

/-- The names of a session that was reached extend no names at all. -/
theorem IsReachable.extendedBy {s : Session} (h : s.IsReachable) :
    Naming.ExtendedBy [] s.names := by
  induction h with
  | initial => exact .refl []
  | perform step _ ih => exact ih.trans (extendedBy_after _ [step])

/-- Naming a rule that is kept under an id. -/
theorem perform_nameRule {s : Session} {id : Bytes} {r : Rule}
    (hr : s.rules.lookup id = some (some r)) (name : Bytes) :
    s.perform (.nameRule id name) =
      match s.names.give r name with
      | .error fault => (.error (.ofFault s.names fault), s)
      | .ok names => (.ok (.rule (some (.ofRule names r))), { s with names }) := by
  have hrun : (Step.nameRule id name).take.run s =
      match s.names.give r name with
      | .error fault => (.error fault, s)
      | .ok names => (.ok (.rule (some (.ofRule names r))), { s with names }) := by
    rw [Step.take, run_get_bind, run_bind, run_find hr]
    simp only
    rw [run_bind, giveName, run_get_bind, run_bind]
    cases s.names.give r name with
    | error fault => rfl
    | ok names => rfl
  rw [perform, hrun]
  cases s.names.give r name with
  | error fault => rfl
  | ok names => rfl

/-- In every session that was reached, a rule has no name or a token name, and it keeps its name
through all later steps, whether these are refused or not. A rule can be named exactly by token
names, as long as it has no name or has that very name; and so it is with a rule that the
session keeps under an id and is asked to name. -/
theorem names_permanent (s : Session) (hs : s.IsReachable) :
    (∀ r : Rule, s.names.name? r = none ∨
      ∃ name, s.names.name? r = some name ∧ name ∈ TokenName.language) ∧
    (∀ (r : Rule) (name : Bytes) (steps : List Step), s.names.name? r = some name →
      (s.after steps).names.name? r = some name) ∧
    (∀ (r : Rule) (name : Bytes), (∃ given, s.names.give r name = .ok given) ↔
      name ∈ TokenName.language ∧ (s.names.name? r = none ∨ s.names.name? r = some name)) ∧
    ∀ (id : Bytes) (r : Rule) (name : Bytes), s.rules.lookup id = some (some r) →
      ((∃ answer, (s.perform (.nameRule id name)).1 = .ok answer) ↔
        name ∈ TokenName.language ∧ (s.names.name? r = none ∨ s.names.name? r = some name)) ∧
      ∀ answer, (s.perform (.nameRule id name)).1 = .ok answer →
        (s.perform (.nameRule id name)).2.names.name? r = some name := by
  refine ⟨fun r => ?_, fun r name steps h => ?_, Naming.exists_give_iff s.names,
    fun id r name hr => ?_⟩
  · cases hname : s.names.name? r with
    | none => exact .inl rfl
    | some name =>
      have hvalid := (hs.extendedBy.added r name hname).resolve_left (Option.some_ne_none name).symm
      exact .inr ⟨name, rfl, hvalid⟩
  · exact (extendedBy_after s steps).kept r name h
  · rw [perform_nameRule hr, ← Naming.exists_give_iff]
    cases hgiven : s.names.give r name with
    | error fault => simp
    | ok given =>
      have hname : given.name? r = some name := by
        rw [Naming.name?_of_give hgiven, if_pos rfl]
      simp [hname]

/-- The rule under `b` is named in an expression that is refused, and keeps the name. -/
theorem names_permanent_refused :
    let s := ({} : Session).after [
      .makeRule (ascii "a") (.named (ascii "x") (.literal (ascii "a"))),
      .makeRule (ascii "b") (.literal (ascii "b")),
      .makeRule (ascii "c") (.combine .choice [.named (ascii "y_1") (.ref (ascii "b")), .null])]
    s.IsReachable ∧ s.rules.map Prod.fst = [ascii "b", ascii "a"] ∧
      (∀ steps, (s.after steps).names.name? (.literal 1 (ascii "b")) = some (ascii "y_1")) ∧
      (∃ answer, (s.perform (.nameRule (ascii "b") (ascii "y_1"))).1 = .ok answer) ∧
      ¬ ∃ answer, (s.perform (.nameRule (ascii "b") (ascii "z"))).1 = .ok answer := by
  intro s
  have hs : s.IsReachable := .perform _ (.perform _ (.perform _ .initial))
  have hname : s.names.name? (.literal 1 (ascii "b")) = some (ascii "y_1") := by decide +kernel
  have hkept : s.rules.lookup (ascii "b") = some (some (.literal 1 (ascii "b"))) := rfl
  obtain ⟨-, hlater, -, hnaming⟩ := names_permanent s hs
  refine ⟨hs, rfl, fun steps => hlater _ _ steps hname, ?_, ?_⟩
  · rw [(hnaming _ _ (ascii "y_1") hkept).1, hname]
    exact ⟨(TokenName.nameFlaw?_eq_none_iff _).1 (by decide +kernel), .inr rfl⟩
  · rw [(hnaming _ _ (ascii "z") hkept).1, hname]
    rintro ⟨-, hnone | hsame⟩
    · cases hnone
    · exact absurd (Option.some.inj hsame) (by decide)

end Session

end PhraseGrammar
