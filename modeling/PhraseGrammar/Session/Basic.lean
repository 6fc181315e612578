import PhraseGrammar.Grammar

/-!
# Sessions: expressions and steps

A session makes rules, builders, grammars and registries, keeps them under ids,
and uses them. This module holds what a session is asked: expressions that make
rules, and steps. It also holds the state that a session keeps and what it
answers.
-/

set_option autoImplicit false

namespace PhraseGrammar

/-- A set of bytes as a caller gives it: written in brackets, or by its ranges. -/
inductive SetSource
  | brackets (text : Bytes)
  | explicit (set : CharSet)
  deriving Repr

/-- The set that a caller gave. -/
def SetSource.read : SetSource → Except Fault CharSet
  | .brackets text => CharSet.ofBrackets text
  | .explicit set => .ok set

/-- The options for matching with the word bytes that a caller gave, if any. -/
def RegexOptions.ofWord? : Option SetSource → Except Fault RegexOptions
  | none => .ok .default
  | some source => source.read.map fun word => { word }

/-- An expression that makes a rule. -/
inductive RuleExpr
  /-- No rule. -/
  | null
  | literal (text : Bytes)
  | pattern (source : Bytes)
  | combine (combinator : Combinator) (parts : List RuleExpr)
  /-- The rule of an expression, which is given a name. -/
  | named (name : Bytes) (rule : RuleExpr)
  /-- The rule that is kept under an id. -/
  | ref (id : Bytes)
  deriving Repr

/-- What a session can be asked to do. -/
inductive Step
  /-- Makes a rule and keeps it. -/
  | makeRule (id : Bytes) (definition : RuleExpr)
  /-- Names a rule. -/
  | nameRule (ruleId name : Bytes)
  /-- Asks whether a rule may be named. -/
  | checkName (ruleId name : Bytes)
  /-- Shows a rule. -/
  | showRule (ruleId : Bytes)
  /-- Makes a builder and keeps it. -/
  | makeBuilder (id : Bytes)
  /-- Makes a rule, binds a name to it, and keeps it if an id is given. -/
  | define (builderId name : Bytes) (definition : RuleExpr) (id : Option Bytes)
  /-- Makes a root and builds its grammar with the bindings of a builder. -/
  | build (builderId id : Bytes) (root : RuleExpr) (word : Option SetSource)
  /-- Makes a root and its grammar. -/
  | makeGrammar (id : Bytes) (root : RuleExpr) (word : Option SetSource)
  /-- Matches a text with a grammar. -/
  | matchText (grammarId text : Bytes)
  /-- Asks for the rules that declare a name of a grammar. -/
  | tokenRules (grammarId name : Bytes)
  /-- Makes a root and its registry. -/
  | makeRegistry (id : Bytes) (root : RuleExpr)
  /-- Asks for the layout of a rule in a registry. -/
  | showLayout (registryId ruleId : Bytes)
  /-- Matches a text with a rule under a registry. -/
  | matchRule (ruleId registryId text : Bytes) (word : Option SetSource)
  deriving Repr

/-- What a session keeps: the names given, the number of the next rule, and what
is kept under ids. Of several entries under one id the first counts. -/
structure Session where
  names : Naming := []
  nextNumber : Nat := 0
  rules : List (Bytes × Option Rule) := []
  builders : List (Bytes × GrammarBuilder) := []
  grammars : List (Bytes × Grammar) := []
  registries : List (Bytes × Registry) := []

/-- What is shown of a rule. -/
structure RuleView where
  number : Nat
  label : Bytes
  name : Option Bytes
  description : Bytes
  deriving DecidableEq, Repr

/-- What is shown of a rule under the given names. -/
def RuleView.ofRule (names : Naming) (r : Rule) : RuleView where
  number := r.number
  label := r.label
  name := names.name? r
  description := r.describe names

/-- What a session answers to a step. -/
inductive Answer
  /-- The step has been taken, and there is nothing to tell. -/
  | done
  | rule (view : Option RuleView)
  | rules (views : List RuleView)
  /-- The outcome of matching the given text. -/
  | outcome (text : Bytes) (outcome : Outcome)
  | layout (layout : Layout)

/-- Why a step was refused: the class of the fault and its wording, if it has one. -/
structure Refusal where
  kind : Fault.Kind
  message : Option Bytes
  deriving DecidableEq, Repr

/-- The refusal for a fault, worded with the given names. -/
def Refusal.ofFault (names : Naming) (fault : Fault) : Refusal :=
  ⟨fault.kind, fault.message? names⟩

end PhraseGrammar
