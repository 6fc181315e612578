import PhraseGrammar.Proofs.Session.Sharing

/-!
# What steps change

A step changes a session in few ways: it counts a rule, names a rule, or keeps something under
an id. If a relation between sessions holds for each of these changes, and can be put
together from them, then it holds between a session and what a step makes of it, whether the
step is refused or not; see `Step.respects_take`. So a fact about the changes becomes one about
all steps.

Which grammars may be kept is left open, since a step keeps a grammar only under
`Step.grammarId?`.
-/

set_option autoImplicit false

namespace PhraseGrammar

namespace Session

/-- A relation that holds between a session and what one change makes of it, and between
sessions that several changes lie between. Grammars are kept only under ids as described. -/
structure IsStepwise (keeps : Bytes → Prop) (rel : Session → Session → Prop) : Prop where
  refl : ∀ s, rel s s
  trans : ∀ s t u, rel s t → rel t u → rel s u
  count : ∀ s, rel s { s with nextNumber := s.nextNumber + 1 }
  name : ∀ s r name names, s.names.give r name = .ok names → rel s { s with names }
  rule : ∀ s id r, rel s { s with rules := (id, r) :: s.rules }
  builder : ∀ s id b, rel s { s with builders := (id, b) :: s.builders }
  registry : ∀ s id made, rel s { s with registries := (id, made) :: s.registries }
  grammar : ∀ s id g, keeps id → rel s { s with grammars := (id, g) :: s.grammars }

/-- A part of a step leads from a session to a related one, whether it is refused or not. -/
def Respects {α : Type} (rel : Session → Session → Prop) (s : Session) (x : SessionM α) : Prop :=
  rel s (x.run s).2

variable {α β : Type} {keeps : Bytes → Prop} {rel : Session → Session → Prop}

/-- What is done after reading a session is done with the session that was read. -/
theorem Respects.get (s : Session) {f : Session → SessionM β} (hf : Respects rel s (f s)) :
    Respects rel s (get >>= f) :=
  hf

section

variable (h : IsStepwise keeps rel) (s : Session)
include h

theorem Respects.pure (a : α) : Respects rel s (Pure.pure a) :=
  h.refl s

theorem Respects.throw (fault : Fault) : Respects rel s (throw fault : SessionM α) :=
  h.refl s

/-- Two parts of a step that respect a relation respect it one after the other, also if the first is
refused. -/
theorem Respects.bind {x : SessionM α} {f : α → SessionM β} (hx : Respects rel s x)
    (hf : ∀ a t, Respects rel t (f a)) : Respects rel s (x >>= f) := by
  unfold Respects at hx ⊢
  rw [run_bind]
  cases hrun : x.run s with
  | mk result middle =>
    rw [hrun] at hx
    cases result with
    | error fault => exact hx
    | ok a => exact h.trans s middle _ hx (hf a middle)

theorem Respects.lift (x : Except Fault α) : Respects rel s (Session.lift x) := by
  cases x with
  | error fault => exact throw h s fault
  | ok a => exact pure h s a

theorem Respects.find (entries : List (Bytes × α)) (id : Bytes) :
    Respects rel s (Session.find entries id) := by
  unfold Session.find
  cases entries.lookup id with
  | none => exact throw h s _
  | some a => exact pure h s a

theorem Respects.findPresent (id : Bytes) : Respects rel s (Session.findPresent id) := by
  refine get s (bind h s (find h s _ _) fun r t => ?_)
  cases r with
  | none => exact throw h t _
  | some r => exact pure h t r

/-- Making a rule counts it, and changes nothing if it is refused. -/
theorem Respects.create (make : Nat → Except Fault Rule) :
    Respects rel s (Session.create make) := by
  unfold Respects
  rw [run_create]
  cases make s.nextNumber with
  | error fault => exact h.refl s
  | ok r => exact h.count s

/-- Giving a name changes nothing else. -/
theorem Respects.giveName (name : Bytes) (r : Option Rule) :
    Respects rel s (Session.giveName name r) := by
  cases r with
  | none => exact throw h s _
  | some r =>
    refine get s ?_
    unfold Respects
    rw [run_bind]
    cases hgiven : s.names.give r name with
    | error fault => exact h.refl s
    | ok names => exact h.name s r name names hgiven

theorem Respects.answerRule (r : Option Rule) : Respects rel s (Session.answerRule r) :=
  get s (pure h s _)

/-- The bindings of a builder are given one after the other, also if one of them is refused. -/
theorem IsStepwise.giveAll (bindings : List (Bytes × Rule)) :
    rel s { s with names := (GrammarBuilder.giveAll s.names bindings).1 } := by
  induction bindings generalizing s with
  | nil => exact h.refl s
  | cons binding rest ih =>
    obtain ⟨name, r⟩ := binding
    rw [GrammarBuilder.giveAll]
    cases hgiven : s.names.give r name with
    | error fault => exact h.refl s
    | ok names => exact h.trans s _ _ (h.name s r name names hgiven) (ih { s with names })

/-- Building a grammar gives names, one after the other, also if it is refused in the end. -/
theorem IsStepwise.build (b : GrammarBuilder) (root : Option Rule) (options : RegexOptions) :
    rel s { s with names := (b.build s.names root options).1 } := by
  have hall := h.giveAll s b.bindings
  unfold GrammarBuilder.build
  cases GrammarBuilder.checkAll s.names [] b.bindings with
  | error fault => exact h.refl s
  | ok _ =>
    cases hgiven : GrammarBuilder.giveAll s.names b.bindings with
    | mk names result =>
      rw [hgiven] at hall
      cases result with
      | error fault => exact hall
      | ok _ => exact hall

/-- A grammar is made and kept, unless it is refused. -/
theorem Respects.keepMade {id : Bytes} (hid : keeps id) (made : Except Fault Grammar) :
    Respects rel s (do
      let g ← Session.lift made
      Session.keepGrammar id g
      Session.answerRule (some g.root)) := by
  refine bind h s (lift h s made) fun g t => bind h t ?_ fun _ u => answerRule h u _
  exact h.grammar t id g hid

end

end Session

open Session

mutual

/-- Making a rule, and all rules that it is made of, with their names. -/
theorem RuleExpr.respects_eval {keeps : Bytes → Prop} {rel : Session → Session → Prop}
    (h : IsStepwise keeps rel) : (e : RuleExpr) → (s : Session) → Respects rel s e.eval
  | .null, s => by
    rw [RuleExpr.eval]
    exact .pure h s none
  | .literal text, s => by
    rw [RuleExpr.eval]
    exact .create h s _
  | .pattern source, s => by
    rw [RuleExpr.eval]
    exact .create h s _
  | .combine combinator parts, s => by
    rw [RuleExpr.eval]
    exact .bind h s (RuleExpr.respects_evalAll h parts s) fun rules t => .create h t _
  | .named name e, s => by
    rw [RuleExpr.eval]
    refine .bind h s (RuleExpr.respects_eval h e s) fun r t => ?_
    exact .bind h t (.giveName h t name r) fun _ u => .pure h u r
  | .ref id, s => by
    rw [RuleExpr.eval]
    exact .get s (.find h s s.rules id)

theorem RuleExpr.respects_evalAll {keeps : Bytes → Prop} {rel : Session → Session → Prop}
    (h : IsStepwise keeps rel) : (es : List RuleExpr) → (s : Session) →
    Respects rel s (RuleExpr.evalAll es)
  | [], s => by
    rw [RuleExpr.evalAll]
    exact .pure h s []
  | e :: es, s => by
    rw [RuleExpr.evalAll]
    refine .bind h s (RuleExpr.respects_eval h e s) fun r t => ?_
    exact .bind h t (RuleExpr.respects_evalAll h es t) fun rs u => .pure h u (r :: rs)

end

namespace Step

/-- The id under which a step keeps the grammar that it makes. -/
def grammarId? : Step → Option Bytes
  | build _ id _ _ => some id
  | makeGrammar id _ _ => some id
  | _ => none

/-- A relation that holds for all changes holds for a step. -/
theorem respects_take {keeps : Bytes → Prop} {rel : Session → Session → Prop}
    (h : IsStepwise keeps rel) {step : Step} (hkeeps : ∀ id, step.grammarId? = some id → keeps id)
    (s : Session) : Respects rel s step.take := by
  cases step with
  | makeRule id definition =>
    refine .bind h s (definition.respects_eval h s) fun r t => ?_
    exact .bind h t (h.rule t id r) fun _ u => .answerRule h u r
  | nameRule ruleId name =>
    refine .get s (.bind h s (.find h s _ _) fun r t => ?_)
    exact .bind h t (.giveName h t name r) fun _ u => .answerRule h u r
  | checkName ruleId name =>
    refine .bind h s (.findPresent h s ruleId) fun r t => .get t ?_
    exact .bind h t (.lift h t _) fun _ u => .pure h u _
  | showRule ruleId =>
    exact .get s (.bind h s (.find h s _ _) fun r t => .answerRule h t r)
  | makeBuilder id => exact .bind h s (h.builder s id _) fun _ t => .pure h t _
  | define builderId name definition id =>
    refine .get s (.bind h s (.find h s _ _) fun b t => ?_)
    refine .bind h t (definition.respects_eval h t) fun r u => ?_
    refine .bind h u (.lift h u _) fun extended v => ?_
    refine .bind h v (h.builder v builderId extended) fun _ w => ?_
    cases id with
    | none => exact .answerRule h w r
    | some id => exact .bind h w (h.rule w id r) fun _ x => .answerRule h x r
  | build builderId id root word =>
    refine .get s (.bind h s (.find h s _ _) fun b t => ?_)
    refine .bind h t (root.respects_eval h t) fun r u => ?_
    refine .bind h u (.lift h u _) fun options v => .get v ?_
    exact .bind h v (h.build v b r options) fun _ w => .keepMade h w (hkeeps id rfl) _
  | makeGrammar id root word =>
    refine .bind h s (root.respects_eval h s) fun r t => ?_
    refine .bind h t (.lift h t _) fun options u => .get u ?_
    exact .keepMade h u (hkeeps id rfl) _
  | matchText grammarId text =>
    refine .get s (.bind h s (.find h s _ _) fun g t => ?_)
    exact .bind h t (.lift h t _) fun _ u => .pure h u _
  | tokenRules grammarId name =>
    refine .get s (.bind h s (.find h s _ _) fun g t => ?_)
    exact .bind h t (.lift h t _) fun rules u => .get u (.pure h u _)
  | makeRegistry id root =>
    refine .bind h s (root.respects_eval h s) fun r t => ?_
    cases r with
    | none => exact .throw h t _
    | some r =>
      refine .get t (.bind h t (.lift h t _) fun made u => ?_)
      refine .bind h u (h.registry u id made) fun _ v => ?_
      exact .bind h v (.lift h v _) fun _ w => .pure h w _
  | showLayout registryId ruleId =>
    refine .get s (.bind h s (.find h s _ _) fun found t => ?_)
    refine .bind h t (.findPresent h t ruleId) fun r u => ?_
    exact .bind h u (.lift h u _) fun _ v => .pure h v _
  | matchRule ruleId registryId text word =>
    refine .get s (.bind h s (.find h s _ _) fun found t => ?_)
    refine .bind h t (.findPresent h t ruleId) fun r u => ?_
    refine .bind h u (.lift h u _) fun options v => ?_
    exact .bind h v (.lift h v _) fun _ w => .pure h w _

end Step

namespace Session

/-- The session after the given steps, taken one after the other. -/
def after (s : Session) : List Step → Session
  | [] => s
  | step :: steps => (s.perform step).2.after steps

/-- A relation that holds for all changes holds for a run of steps. -/
theorem IsStepwise.after {keeps : Bytes → Prop} {rel : Session → Session → Prop}
    (h : IsStepwise keeps rel) {steps : List Step}
    (hkeeps : ∀ step ∈ steps, ∀ id, step.grammarId? = some id → keeps id) (s : Session) :
    rel s (s.after steps) := by
  induction steps generalizing s with
  | nil => exact h.refl s
  | cons step steps ih =>
    obtain ⟨hstep, hsteps⟩ := List.forall_mem_cons.1 hkeeps
    have htaken : rel s (s.perform step).2 := by
      rw [snd_perform]
      exact step.respects_take h hstep s
    exact h.trans s _ _ htaken (ih hsteps _)

end Session

end PhraseGrammar
