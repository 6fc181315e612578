import PhraseGrammar.Bytes
import PhraseGrammar.NameTable
import PhraseGrammar.Text.Lines
import PhraseGrammar.Text.Access
import PhraseGrammar.Diagnostic
import PhraseGrammar.Fault
import PhraseGrammar.Regex.Basic
import PhraseGrammar.Regex.Simulation
import PhraseGrammar.Pattern.Note
import PhraseGrammar.Pattern.Escape
import PhraseGrammar.Pattern.BracketSet
import PhraseGrammar.Pattern.Lexeme
import PhraseGrammar.Pattern.Reader
import PhraseGrammar.Match.Basic
import PhraseGrammar.Match.Access
import PhraseGrammar.Match.Printing
import PhraseGrammar.Match.Mismatch
import PhraseGrammar.Match.Outcome
import PhraseGrammar.Rule.Basic
import PhraseGrammar.Rule.Naming
import PhraseGrammar.Rule.Authoring
import PhraseGrammar.Rule.Matching
import PhraseGrammar.Layout.Placement
import PhraseGrammar.Layout.Basic
import PhraseGrammar.Layout.Registry
import PhraseGrammar.Grammar
import PhraseGrammar.Session.Basic
import PhraseGrammar.Session.Run
import PhraseGrammar.Proofs.Regex.Matching
import PhraseGrammar.Proofs.Regex.Trail
import PhraseGrammar.Proofs.Regex.Crossing
import PhraseGrammar.Proofs.Regex.Soundness
import PhraseGrammar.Proofs.Regex.Settled
import PhraseGrammar.Proofs.Regex.Arrivals
import PhraseGrammar.Proofs.Regex.Completeness
import PhraseGrammar.Proofs.Regex.KeptArrivals
import PhraseGrammar.Proofs.Regex.LostArrivals
import PhraseGrammar.Proofs.Layout.Tables
import PhraseGrammar.Proofs.Layout.Filling
import PhraseGrammar.Proofs.Rule.Declarations
import PhraseGrammar.Proofs.Rule.Comparison
import PhraseGrammar.Proofs.Layout.Flattening
import PhraseGrammar.Proofs.Layout.Clashes
import PhraseGrammar.Proofs.Rule.Reference
import PhraseGrammar.Proofs.Rule.Derivations
import PhraseGrammar.Proofs.Match.Pieces
import PhraseGrammar.Proofs.Rule.Tokens
import PhraseGrammar.Proofs.Rule.Refinement
import PhraseGrammar.Proofs.Rule.Rows
import PhraseGrammar.Proofs.Grammar.Refinement
import PhraseGrammar.Proofs.Grammar.TokenTree
import PhraseGrammar.Proofs.Grammar.Regrouping
import PhraseGrammar.Proofs.Session.Sharing
import PhraseGrammar.Proofs.Session.Totality
import PhraseGrammar.Proofs.Match.Furthest
import PhraseGrammar.Proofs.Grammar.Mismatches
import PhraseGrammar.Proofs.Naming.Bindings
import PhraseGrammar.Proofs.Grammar.Building
import PhraseGrammar.Proofs.Pattern.Acceptance
import PhraseGrammar.Proofs.Pattern.Nesting
import PhraseGrammar.Proofs.Pattern.Expressions
import PhraseGrammar.Proofs.Pattern.Spelling
import PhraseGrammar.Proofs.Pattern.Lexing
import PhraseGrammar.Proofs.Pattern.Joining
import PhraseGrammar.Proofs.Pattern.RoundTrip
import PhraseGrammar.Proofs.Pattern.Lexemes
import PhraseGrammar.Proofs.Pattern.Outcome
import PhraseGrammar.Proofs.Pattern.NormalForm
import PhraseGrammar.Proofs.Pattern.Symbols
import PhraseGrammar.Proofs.Pattern.SetFree
import PhraseGrammar.Proofs.Rule.Totality
import PhraseGrammar.Proofs.Grammar.Alternatives
import PhraseGrammar.Proofs.Rule.Expansion
import PhraseGrammar.Proofs.Grammar.Optionals
import PhraseGrammar.Proofs.Session.Changes
import PhraseGrammar.Proofs.Session.Snapshots
import PhraseGrammar.Proofs.Layout.Registries
import PhraseGrammar.Proofs.Layout.Ownership
import PhraseGrammar.Proofs.Layout.Partition
import PhraseGrammar.Proofs.Naming.TokenNames
import PhraseGrammar.Proofs.Naming.Consistency
import PhraseGrammar.Proofs.Session.Names
import PhraseGrammar.Proofs.Pattern.Brackets
import PhraseGrammar.Proofs.Match.Reports
import PhraseGrammar.Proofs.Grammar.Repetitions
import PhraseGrammar.Proofs.Match.Ties
import PhraseGrammar.Proofs.Text.Places
import PhraseGrammar.Proofs.Text.Ranges
import PhraseGrammar.Proofs.Regex.StepLaws
