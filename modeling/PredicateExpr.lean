import PredicateExpr.Condition.Inspect
import PredicateExpr.Condition.Session
import PredicateExpr.Grammar
import PredicateExpr.Main
import PredicateExpr.Phrase.Climbing
import PredicateExpr.RuleTable
import PredicateExpr.Token.Scanner
import PredicateExpr.Tree.ReversePolish
import PredicateExpr.Tree.Source
import PredicateExpr.Tree.Value
import PredicateExpr.Proofs.Outcome
import PredicateExpr.Proofs.Phrase.Passes
import PredicateExpr.Proofs.Phrase.Chains
import PredicateExpr.Proofs.Grammar.Brackets
import PredicateExpr.Proofs.Nesting.Reading
import PredicateExpr.Proofs.Nesting.Completeness
import PredicateExpr.Proofs.Nesting.Soundness
import PredicateExpr.Proofs.Parsing
import PredicateExpr.Proofs.Evaluation
import PredicateExpr.Proofs.Joining
import PredicateExpr.Proofs.Token.Matching
import PredicateExpr.Proofs.Token.LeftToRight
import PredicateExpr.Proofs.RoundTrip
import PredicateExpr.Proofs.Conservation
import PredicateExpr.Proofs.DepthLimits
import PredicateExpr.Proofs.Token.Coverage
import PredicateExpr.Condition.Course
import PredicateExpr.Proofs.Course
import PredicateExpr.Proofs.Values
import PredicateExpr.Proofs.Findings
import PredicateExpr.Proofs.Token.Source
import PredicateExpr.Token.Source
import PredicateExpr.Error.Place
import PredicateExpr.Proofs.Nesting.Failure
import PredicateExpr.Proofs.Token.Standing
import PredicateExpr.Proofs.ErrorPlaces
import PredicateExpr.Proofs.Token.Trimming
import PredicateExpr.Token.Restatement
import PredicateExpr.Proofs.Phrase.Moving
import PredicateExpr.Proofs.Restatement
import PredicateExpr.Proofs.Reports
import PredicateExpr.Tree.Path
import PredicateExpr.Evaluation.Account
import PredicateExpr.CommandLine.Parts
import PredicateExpr.Proofs.CommandLine
import PredicateExpr.Proofs.ShortCircuit
import PredicateExpr.Phrase.Fault
import PredicateExpr.Proofs.Phrase.Faults
import PredicateExpr.Proofs.Token.Extents
import PredicateExpr.Proofs.Token.Concatenation
import PredicateExpr.Proofs.Token.Spacing
import PredicateExpr.Grammar.Balance
import PredicateExpr.Proofs.Nesting.Enclosing
import PredicateExpr.Proofs.Groups
import PredicateExpr.Proofs.Token.Isolation
import PredicateExpr.Tree.Regrouping
import PredicateExpr.Proofs.TruthTables
import PredicateExpr.Proofs.Bracketing
import PredicateExpr.Proofs.Polarity
import PredicateExpr.Proofs.Rendering
import PredicateExpr.Phrase.InOrder
import PredicateExpr.Phrase.Slots
import PredicateExpr.Proofs.Phrase.Climbing
import PredicateExpr.Proofs.Phrase.Slots
import PredicateExpr.Nesting.Descent
import PredicateExpr.Proofs.Nesting.Calls
import PredicateExpr.Proofs.Nesting.Descent
import PredicateExpr.Condition.Log
import PredicateExpr.Proofs.Log
