import PhraseGrammar.Proofs.Session.Changes
import PhraseGrammar.Proofs.Session.Totality

/-!
# Grammars are snapshots

A session keeps a grammar as it was when it was made. Later steps put other grammars before it,
and they may name rules that the grammar is made of; neither changes what the grammar gives.
So what a grammar gives is what the reference gives under the names at the time when the
grammar was made. The rules that declare a name are listed as they were, too, though they may
be shown with names that they have got since.
-/

set_option autoImplicit false

namespace PhraseGrammar

open NameTable

namespace Session

variable {α β : Type}

/-! ## What later steps leave -/

/-- A relation between the grammars of sessions, which other changes leave alone. -/
theorem isStepwise_grammars {keeps : Bytes → Prop}
    (rel : List (Bytes × Grammar) → List (Bytes × Grammar) → Prop) (refl : ∀ as, rel as as)
    (trans : ∀ as bs cs, rel as bs → rel bs cs → rel as cs)
    (add : ∀ as id g, keeps id → rel as ((id, g) :: as)) :
    IsStepwise keeps fun s t => rel s.grammars t.grammars where
  refl s := refl s.grammars
  trans _ _ _ := trans _ _ _
  count s := refl s.grammars
  name s _ _ _ _ := refl s.grammars
  rule s _ _ := refl s.grammars
  builder s _ _ := refl s.grammars
  registry s _ _ := refl s.grammars
  grammar s id g := add s.grammars id g

/-- Whatever is done with a session, the grammars that it keeps stay. -/
theorem grammars_suffix_after (s : Session) (steps : List Step) :
    s.grammars <:+ (s.after steps).grammars := by
  have hstepwise : IsStepwise (fun _ => True) fun s t => s.grammars <:+ t.grammars :=
    isStepwise_grammars (· <:+ ·) List.suffix_refl (fun _ _ _ => List.IsSuffix.trans)
      fun as id g _ => List.suffix_cons (id, g) as
  exact hstepwise.after (fun _ _ _ _ => trivial) s

/-- Only a step that makes a grammar under an id changes which grammar has the id. -/
theorem lookup_grammars_after {id : Bytes} {steps : List Step}
    (h : ∀ step ∈ steps, step.grammarId? ≠ some id) (s : Session) :
    (s.after steps).grammars.lookup id = s.grammars.lookup id := by
  have hstepwise : IsStepwise (· ≠ id) fun s t => t.grammars.lookup id = s.grammars.lookup id := by
    refine isStepwise_grammars (fun as bs => bs.lookup id = as.lookup id) (fun _ => rfl)
      (fun _ _ _ hab hbc => hbc.trans hab) ?_
    intro as other g hother
    rw [lookup_cons, if_neg (Ne.symm hother)]
  refine hstepwise.after (fun step hstep other hother => ?_) s
  rintro rfl
  exact h step hstep hother

/-! ## What a step that makes a grammar leaves -/

/-- A part of a step is refused, or it puts a grammar under an id before the grammars of a session:
the grammar of some root under the names that there are then. -/
def AddsGrammar (id : Bytes) (s : Session) {α : Type} (x : SessionM α) : Prop :=
  (∃ fault, (x.run s).1 = .error fault) ∨
    ∃ g, (x.run s).2.grammars = (id, g) :: s.grammars ∧
      Grammar.ofRoot (x.run s).2.names (some g.root) g.options = .ok g

/-- As long as no grammar is kept, the grammars of a session are the same. -/
theorem isStepwise_sameGrammars :
    IsStepwise (fun _ => False) fun s t => t.grammars = s.grammars :=
  isStepwise_grammars (fun as bs => bs = as) (fun _ => rfl)
    (fun _ _ _ hab hbc => hbc.trans hab) fun _ _ _ h => h.elim

theorem AddsGrammar.bind {id : Bytes} {s : Session} {x : SessionM α} {f : α → SessionM β}
    (hx : Respects (fun s t => t.grammars = s.grammars) s x)
    (hf : ∀ a t, AddsGrammar id t (f a)) : AddsGrammar id s (x >>= f) := by
  unfold Respects at hx
  unfold AddsGrammar
  rw [run_bind]
  cases hrun : x.run s with
  | mk result middle =>
    rw [hrun] at hx
    cases result with
    | error fault => exact .inl ⟨fault, rfl⟩
    | ok a =>
      have hadded := hf a middle
      unfold AddsGrammar at hadded
      rwa [hx] at hadded

theorem AddsGrammar.get {id : Bytes} {s : Session} {f : Session → SessionM β}
    (hf : AddsGrammar id s (f s)) : AddsGrammar id s (get >>= f) :=
  hf

theorem AddsGrammar.withNames {id : Bytes} {s : Session} {names : Naming}
    {f : PUnit → SessionM β} (hf : AddsGrammar id { s with names } (f .unit)) :
    AddsGrammar id s ((modify fun s : Session => { s with names }) >>= f) :=
  hf

theorem AddsGrammar.keepMade {id : Bytes} {s : Session} {made : Except Fault Grammar}
    (h : ∀ g, made = .ok g → Grammar.ofRoot s.names (some g.root) g.options = .ok g) :
    AddsGrammar id s (do
      let g ← Session.lift made
      Session.keepGrammar id g
      Session.answerRule (some g.root)) := by
  cases made with
  | error fault => exact .inl ⟨fault, rfl⟩
  | ok g => exact .inr ⟨g, rfl, h g rfl⟩

end Session

open Session

namespace Step

/-- A step that makes a grammar is refused, or the grammar is that of a root under the names that
there are after the step. -/
theorem addsGrammar_take {step : Step} {id : Bytes} (h : step.grammarId? = some id)
    (s : Session) : AddsGrammar id s step.take := by
  have hsame := isStepwise_sameGrammars
  cases step with
  | build builderId other root word =>
    obtain rfl : other = id := Option.some.inj h
    refine .get (.bind (.find hsame s _ _) fun b t => ?_)
    refine .bind (root.respects_eval hsame t) fun r u => ?_
    refine .bind (.lift hsame u _) fun options v => .get ?_
    refine .withNames (.keepMade fun g hg => ?_)
    have hbuilt : b.build v.names r options = ((b.build v.names r options).1, .ok g) :=
      Prod.ext rfl hg
    exact (Grammar.self_of_ofRoot (GrammarBuilder.ofRoot_of_build hbuilt)).2
  | makeGrammar other root word =>
    obtain rfl : other = id := Option.some.inj h
    refine .bind (root.respects_eval hsame s) fun r t => ?_
    refine .bind (.lift hsame t _) fun options u => .get (.keepMade fun g hg => ?_)
    exact (Grammar.self_of_ofRoot hg).2
  | _ => cases h

end Step

namespace Session

variable {α β : Type}

/-! ## Asking a grammar -/

theorem run_get_bind (f : Session → SessionM β) (s : Session) :
    (get >>= f).run s = (f s).run s :=
  rfl

theorem run_find {entries : List (Bytes × α)} {id : Bytes} {a : α} (h : entries.lookup id = some a)
    (s : Session) : (Session.find entries id).run s = (.ok a, s) := by
  rw [Session.find, h]
  rfl

/-- Matching a text changes nothing. -/
theorem perform_matchText {s : Session} {id text : Bytes} {g : Grammar} {outcome : Outcome}
    (hg : s.grammars.lookup id = some g) (h : g.matchText text = .ok outcome) :
    s.perform (.matchText id text) = (.ok (.outcome text outcome), s) := by
  have hrun : (Step.matchText id text).take.run s = (.ok (.outcome text outcome), s) := by
    rw [Step.take, run_get_bind, run_bind, run_find hg]
    simp only [h]
    rfl
  rw [perform, hrun]

/-- Rules are shown with the names that they have when they are asked for. -/
theorem perform_tokenRules {s : Session} {id name : Bytes} {g : Grammar} {rules : List Rule}
    (hg : s.grammars.lookup id = some g) (h : g.tokenRules name = .ok rules) :
    s.perform (.tokenRules id name) =
      (.ok (.rules (rules.map (RuleView.ofRule s.names))), s) := by
  have hrun : (Step.tokenRules id name).take.run s =
      (.ok (.rules (rules.map (RuleView.ofRule s.names))), s) := by
    rw [Step.take, run_get_bind, run_bind, run_find hg]
    simp only [h]
    rfl
  rw [perform, hrun]

/-! ## Grammars that were made -/

/-- The answer to a step that was not refused is what taking the step results in. -/
theorem run_eq_ok_of_perform {s : Session} {step : Step} {answer : Answer}
    (h : (s.perform step).1 = .ok answer) : (step.take.run s).1 = .ok answer := by
  unfold perform at h
  split at h
  · next hrun =>
    rw [hrun]
    exact congrArg Except.ok (Except.ok.inj h)
  · cases h

/-- A step that makes a grammar and is not refused keeps the grammar of some root under the names
that there are then. -/
theorem exists_made {s : Session} {step : Step} {id : Bytes} {answer : Answer}
    (hstep : step.grammarId? = some id) (hanswer : (s.perform step).1 = .ok answer) :
    ∃ g, (s.perform step).2.grammars = (id, g) :: s.grammars ∧
      Grammar.ofRoot (s.perform step).2.names (some g.root) g.options = .ok g := by
  rw [snd_perform]
  rcases step.addsGrammar_take hstep s with ⟨fault, hfault⟩ | hadded
  · have hcontra := (run_eq_ok_of_perform hanswer).symm.trans hfault
    cases hcontra
  · exact hadded

/-- A grammar gives what it gave when it was made, whatever has been done with the session since.
For every text this is the outcome that the reference gives under the names of that time, and for
every name it is the rules that declared it then. The session gives the same when it is asked,
as long as no other grammar is made under the same id. -/
theorem grammar_is_snapshot (s : Session) (hs : s.IsReachable) (step : Step) (id : Bytes)
    (answer : Answer) (hstep : step.grammarId? = some id)
    (hanswer : (s.perform step).1 = .ok answer) (steps : List Step) :
    let made := (s.perform step).2
    let later := made.after steps
    ∃ g, made.grammars = (id, g) :: s.grammars ∧ made.grammars <:+ later.grammars ∧
      Grammar.ofRoot made.names (some g.root) g.options = .ok g ∧
      (∀ text, ∃ outcome, outcome.IsDecided ∧ g.matchText text = .ok outcome ∧
        (g.root.derive g.options text).map (Grammar.outcomeOf made.names g.root) = .ok outcome ∧
        (made.perform (.matchText id text)).1 = .ok (.outcome text outcome) ∧
        ((∀ other ∈ steps, other.grammarId? ≠ some id) →
          (later.perform (.matchText id text)).1 = .ok (.outcome text outcome))) ∧
      ∀ name, ∃ rules, g.tokenRules name = .ok rules ∧
        rules = valuesOf name (g.root.declarations made.names) ∧
        (made.perform (.tokenRules id name)).1 =
          .ok (.rules (rules.map (RuleView.ofRule made.names))) ∧
        ((∀ other ∈ steps, other.grammarId? ≠ some id) →
          (later.perform (.tokenRules id name)).1 =
            .ok (.rules (rules.map (RuleView.ofRule later.names)))) := by
  intro made later
  obtain ⟨g, hgrammars, hmade⟩ := exists_made hstep hanswer
  have hfirst : made.grammars.lookup id = some g := by
    show (s.perform step).2.grammars.lookup id = some g
    rw [hgrammars, lookup_cons, if_pos rfl]
  have hlater (h : ∀ other ∈ steps, other.grammarId? ≠ some id) :
      later.grammars.lookup id = some g :=
    (lookup_grammars_after h made).trans hfirst
  obtain ⟨known, hkeeps⟩ := (hs.perform step).keeps
  have hroot : g.root ∈ known := (hkeeps.grammars _ (mem_of_lookup hfirst)).1
  have hcoherent := hkeeps.family.coherent hroot
  have hproper := hkeeps.family.isProperThroughout hroot
  refine ⟨g, hgrammars, grammars_suffix_after made steps, hmade, fun text => ?_, fun name => ?_⟩
  · obtain ⟨outcome, houtcome, hdecided⟩ :=
      Grammar.exists_isDecided_matchText hcoherent hproper hmade text
    refine ⟨outcome, hdecided, houtcome, ?_, ?_, fun h => ?_⟩
    · rw [← Grammar.matchText_eq hcoherent hmade text]
      exact houtcome
    · rw [perform_matchText hfirst houtcome]
    · rw [perform_matchText (hlater h) houtcome]
  · have hrules := Grammar.tokenRules_eq hcoherent hmade name
    refine ⟨_, hrules, rfl, ?_, fun h => ?_⟩
    · rw [perform_tokenRules hfirst hrules]
    · rw [perform_tokenRules (hlater h) hrules]

/-- Both rules of a grammar are named after it was made: the first by itself, and the other by a
build that then fails for want of a root. -/
theorem grammar_is_snapshot_named :
    let s := (({} : Session).after [.makeRule (ascii "item") (.pattern (ascii "a+")),
      .makeRule (ascii "last") (.literal (ascii "b"))])
    let step : Step := .makeGrammar (ascii "g")
      (.combine .sequence [.combine .optional [.ref (ascii "item")], .ref (ascii "last")]) none
    let steps : List Step := [.nameRule (ascii "item") (ascii "x"), .makeBuilder (ascii "b"),
      .define (ascii "b") (ascii "end") (.ref (ascii "last")) none,
      .build (ascii "b") (ascii "h") .null none]
    let made := (s.perform step).2
    let later := made.after steps
    s.IsReachable ∧ later.names = [(1, ascii "end"), (0, ascii "x")] ∧ ∃ outcome m,
      (made.perform (.matchText (ascii "g") (ascii "aab"))).1 =
        .ok (.outcome (ascii "aab") outcome) ∧
      (later.perform (.matchText (ascii "g") (ascii "aab"))).1 =
        .ok (.outcome (ascii "aab") outcome) ∧
      outcome.match? = some m ∧ m.text = ascii "aab" ∧ m.declares (ascii "x") = false ∧
      (later.perform (.tokenRules (ascii "g") (ascii "x"))).1 = .ok (.rules []) := by
  intro s step steps made later
  have hs : s.IsReachable := .perform _ (.perform _ .initial)
  have hsteps : ∀ other ∈ steps, other.grammarId? ≠ some (ascii "g") := by decide
  have hnames : later.names = [(1, ascii "end"), (0, ascii "x")] := by decide +kernel
  obtain ⟨answer, hanswer⟩ : ∃ answer, (s.perform step).1 = .ok answer := by
    have htaken : (s.perform step).1.toOption.isSome = true := by decide +kernel
    cases hresult : (s.perform step).1 with
    | error refusal =>
      rw [hresult] at htaken
      cases htaken
    | ok answer => exact ⟨answer, rfl⟩
  have hfound : ((made.grammars.lookup (ascii "g")).bind fun g =>
      ((g.matchText (ascii "aab")).toOption.bind Outcome.match?).map fun m =>
        (m.text, m.declares (ascii "x"))) = some (ascii "aab", false) := by
    decide +kernel
  have hnone : ((made.grammars.lookup (ascii "g")).bind fun g =>
      (g.tokenRules (ascii "x")).toOption.map List.length) = some 0 := by
    decide +kernel
  obtain ⟨g, hgrammars, -, -, hmatches, hrules⟩ :=
    grammar_is_snapshot s hs step (ascii "g") answer rfl hanswer steps
  obtain ⟨outcome, -, houtcome, -, hmade, hlater⟩ := hmatches (ascii "aab")
  obtain ⟨rules, hlisted, -, -, hshown⟩ := hrules (ascii "x")
  have hlookup : made.grammars.lookup (ascii "g") = some g := by
    rw [hgrammars, lookup_cons, if_pos rfl]
  rw [hlookup, Option.bind_some, houtcome] at hfound
  rw [hlookup, Option.bind_some, hlisted] at hnone
  obtain ⟨m, hm, hfields⟩ := Option.map_eq_some_iff.1 hfound
  obtain ⟨htext, hdeclares⟩ := Prod.mk.inj hfields
  obtain rfl : rules = [] := List.length_eq_zero_iff.1 (Option.some.inj hnone)
  exact ⟨hs, hnames, outcome, m, hmade, hlater hsteps, hm, htext, hdeclares, hshown hsteps⟩

end Session

end PhraseGrammar
