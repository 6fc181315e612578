import PhraseGrammar.Session.Basic

/-!
# Running a session

Expressions are evaluated from left to right, components before the rule that
they are components of. Each rule that is made takes the next number. A step that
is refused keeps nothing under an id, but the names that it has given and the
numbers that it has used stay.
-/

set_option autoImplicit false

namespace PhraseGrammar

/-- A part of a step: it may be refused, and it changes the session in either case. -/
abbrev SessionM := ExceptT Fault (StateM Session)

namespace Session

/-- Does something that may be refused and does not change the session. -/
def lift {α : Type} : Except Fault α → SessionM α
  | .ok a => pure a
  | .error fault => throw fault

/-- What is kept under an id. -/
def find {α : Type} (entries : List (Bytes × α)) (id : Bytes) : SessionM α :=
  match entries.lookup id with
  | some a => pure a
  | none => throw (.noSuchId id)

/-- The rule that is kept under an id, which has to be present. -/
def findPresent (id : Bytes) : SessionM Rule := do
  match ← find (← get).rules id with
  | some r => pure r
  | none => throw (.noSuchId id)

/-- Makes a rule with the next number. -/
def create (make : Nat → Except Fault Rule) : SessionM (Option Rule) := do
  let r ← lift (make (← get).nextNumber)
  modify fun s => { s with nextNumber := s.nextNumber + 1 }
  return some r

/-- Names a rule, which has to be present. -/
def giveName (name : Bytes) : Option Rule → SessionM Unit
  | none => throw (.nullNamed name)
  | some r => do
    let names ← lift ((← get).names.give r name)
    modify fun s => { s with names }

/-- The answer that shows a rule. -/
def answerRule (r : Option Rule) : SessionM Answer := do
  let names := (← get).names
  return .rule (r.map (RuleView.ofRule names))

/-- Keeps a rule under an id. -/
def keepRule (id : Bytes) (r : Option Rule) : SessionM Unit :=
  modify fun s => { s with rules := (id, r) :: s.rules }

/-- Keeps a grammar under an id. -/
def keepGrammar (id : Bytes) (g : Grammar) : SessionM Unit :=
  modify fun s => { s with grammars := (id, g) :: s.grammars }

end Session

open Session

mutual

/-- The rule that an expression makes. -/
def RuleExpr.eval : RuleExpr → SessionM (Option Rule)
  | .null => pure none
  | .literal text => create fun n => .ok (.literal n text)
  | .pattern source => create fun n => Rule.pattern n source
  | .combine combinator parts => do
    let rules ← RuleExpr.evalAll parts
    create fun n => Rule.combine n combinator rules
  | .named name e => do
    let r ← e.eval
    giveName name r
    return r
  | .ref id => do find (← get).rules id

/-- The rules that several expressions make, from left to right. -/
def RuleExpr.evalAll : List RuleExpr → SessionM (List (Option Rule))
  | [] => pure []
  | e :: es => do
    let r ← e.eval
    let rs ← RuleExpr.evalAll es
    return r :: rs

end

namespace Step

/-- Takes a step. What a step refers to is looked up before its expression is
evaluated, and word bytes are read after it. -/
def take : Step → SessionM Answer
  | .makeRule id definition => do
    let r ← definition.eval
    keepRule id r
    answerRule r
  | .nameRule ruleId name => do
    let r ← find (← get).rules ruleId
    giveName name r
    answerRule r
  | .checkName ruleId name => do
    let r ← findPresent ruleId
    lift ((← get).names.check r name)
    return .done
  | .showRule ruleId => do answerRule (← find (← get).rules ruleId)
  | .makeBuilder id => do
    modify fun s => { s with builders := (id, {}) :: s.builders }
    return .done
  | .define builderId name definition id => do
    let b ← find (← get).builders builderId
    let r ← definition.eval
    let extended ← lift (b.define name r)
    modify fun s => { s with builders := (builderId, extended) :: s.builders }
    match id with
    | some id => keepRule id r
    | none => pure ()
    answerRule r
  | .build builderId id root word => do
    let b ← find (← get).builders builderId
    let r ← root.eval
    let options ← lift (RegexOptions.ofWord? word)
    let (names, result) := b.build (← get).names r options
    modify fun s => { s with names }
    let g ← lift result
    keepGrammar id g
    answerRule (some g.root)
  | .makeGrammar id root word => do
    let r ← root.eval
    let options ← lift (RegexOptions.ofWord? word)
    let g ← lift (Grammar.ofRoot (← get).names r options)
    keepGrammar id g
    answerRule (some g.root)
  | .matchText grammarId text => do
    let g ← find (← get).grammars grammarId
    return .outcome text (← lift (g.matchText text))
  | .tokenRules grammarId name => do
    let g ← find (← get).grammars grammarId
    let rules ← lift (g.tokenRules name)
    let names := (← get).names
    return .rules (rules.map (RuleView.ofRule names))
  | .makeRegistry id root => do
    match ← root.eval with
    | none => throw .nullRoot
    | some r =>
      let made ← lift (Registry.ofRoot (← get).names r)
      modify fun s => { s with registries := (id, made) :: s.registries }
      return .layout (← lift made.rootLayout)
  | .showLayout registryId ruleId => do
    let found ← find (← get).registries registryId
    let r ← findPresent ruleId
    return .layout (← lift (found.layout r))
  | .matchRule ruleId registryId text word => do
    let found ← find (← get).registries registryId
    let r ← findPresent ruleId
    let options ← lift (RegexOptions.ofWord? word)
    return .outcome text (← lift (r.matchText ⟨found, options⟩ text))

end Step

namespace Session

/-- The answer to a step, or why it was refused, and the session after it. -/
def perform (s : Session) (step : Step) : Except Refusal Answer × Session :=
  match step.take.run s with
  | (.ok answer, after) => (.ok answer, after)
  | (.error fault, after) => (.error (.ofFault after.names fault), after)

/-- The answers to the given steps, taken one after the other. -/
def answers (s : Session) : List Step → List (Except Refusal Answer)
  | [] => []
  | step :: steps =>
    let (answer, after) := s.perform step
    answer :: after.answers steps

end Session

end PhraseGrammar
