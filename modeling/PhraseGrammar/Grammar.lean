import PhraseGrammar.Rule.Authoring
import PhraseGrammar.Rule.Matching

/-!
# Grammars

A grammar is a root rule that is ready for matching: it keeps the registry that
was made for the root when the grammar was made, so that names given later do not
matter to it.

A builder collects bindings of names to rules. The rules are named when a grammar
is built, so that a rule can be used in others before it has its name. All
bindings are checked before the first rule is named.
-/

set_option autoImplicit false

namespace PhraseGrammar

/-- A root rule with its registry and the options for matching. -/
structure Grammar where
  root : Rule
  options : RegexOptions
  registry : Registry

namespace Grammar

/-- The grammar of a root rule, which has to be present, under the given names. -/
def ofRoot (names : Naming) (root : Option Rule) (options : RegexOptions) :
    Except Fault Grammar :=
  match root with
  | none => .error .nullRoot
  | some r => (Registry.ofRoot names r).map fun registry => ⟨r, options, registry⟩

/-- What the rules of a grammar need for matching. -/
def env (g : Grammar) : MatchEnv :=
  ⟨g.registry, g.options⟩

/-- Matches a beginning of a text. A root that is skipped gives an empty match
with all of its slots empty. -/
def matchText (g : Grammar) (text : Bytes) : Except Fault Outcome :=
  match g.root.matchText g.env text with
  | .ok .skipped => g.registry.rootLayout.map fun layout => .matched ⟨[], layout.emptySlots⟩
  | result => result

/-- The rules that declare a name of the root, in order. -/
def tokenRules (g : Grammar) (name : Bytes) : Except Fault (List Rule) :=
  g.registry.rootLayout.map fun layout => (layout.declared.lookup name).getD []

end Grammar

/-- Names bound to rules, in the order of binding. -/
structure GrammarBuilder where
  bindings : List (Bytes × Rule) := []

namespace GrammarBuilder

/-- Binds a name to a rule, which has to be present. -/
def define (b : GrammarBuilder) (name : Bytes) : Option Rule → Except Fault GrammarBuilder
  | none => .error (.nullDefined name)
  | some r => .ok ⟨b.bindings ++ [(name, r)]⟩

/-- Checks bindings against the names given so far and against each other, where
`pending` has the names that earlier bindings will give. -/
def checkAll (names pending : Naming) : List (Bytes × Rule) → Except Fault Unit
  | [] => .ok ()
  | (name, r) :: rest =>
    match names.check r name with
    | .error fault => .error fault
    | .ok () =>
      match pending.name? r with
      | none => checkAll names (pending.assign r name) rest
      | some first =>
        if first = name then checkAll names pending rest else .error (.boundTwice r first name)

/-- Names the bound rules one after the other, up to the first that cannot be named. -/
def giveAll (names : Naming) : List (Bytes × Rule) → Naming × Except Fault Unit
  | [] => (names, .ok ())
  | (name, r) :: rest =>
    match names.give r name with
    | .error fault => (names, .error fault)
    | .ok given => giveAll given rest

/-- Names the bound rules and makes the grammar of a root. Also gives the names
after that: they stay even if there is no grammar for the root. -/
def build (b : GrammarBuilder) (names : Naming) (root : Option Rule) (options : RegexOptions) :
    Naming × Except Fault Grammar :=
  match checkAll names [] b.bindings with
  | .error fault => (names, .error fault)
  | .ok () =>
    match giveAll names b.bindings with
    | (given, .error fault) => (given, .error fault)
    | (given, .ok ()) => (given, Grammar.ofRoot given root options)

end GrammarBuilder

end PhraseGrammar
