import Lox.Grammar.Calls
import Lox.Main
import Lox.Proofs.Grammar.Runs
import Lox.Session
import Lox.Syntax.Equal
import Lox.Syntax.WellFormed
import Lox.Proofs.Grammar.Derivation
import Lox.Proofs.Grammar.Soundness
import Lox.Proofs.Grammar.Completeness
import Lox.Proofs.Grammar.Extension
import Lox.Proofs.Grammar.Ebnf
import Lox.Proofs.Grammar.Yield
import Lox.Proofs.Grammar.Program
import Lox.Proofs.Grammar.Completion
import Lox.Proofs.Grammar.Shape
import Lox.Proofs.Scoping.Resolver
import Lox.Proofs.Scoping.Trace
import Lox.Proofs.Scoping.Lexical
import Lox.Proofs.Token.Breaks
import Lox.Proofs.Grammar.Relabel
import Lox.Proofs.Eval.Mirror
import Lox.Proofs.Repl.Beginning
import Lox.Proofs.Repl.Agreement
import Lox.Proofs.Token.Longest
import Lox.Proofs.Token.Exact
import Lox.Proofs.Grammar.Leaves
import Lox.Proofs.Syntax.Pieces
import Lox.Proofs.Eval.Safety
import Lox.Proofs.Grammar.Lines
import Lox.Proofs.Eval.Lines
import Lox.Proofs.Token.Layout
import Lox.Proofs.Source.Layout
import Lox.Proofs.Token.Numeral
import Lox.Proofs.Syntax.Cutting
import Lox.Proofs.Syntax.Grouping
import Lox.Proofs.Syntax.RoundTrip
import Lox.Proofs.Eval.Actions
import Lox.Proofs.Scoping.Changes
import Lox.Proofs.Eval.Lockstep
import Lox.Proofs.Scoping.Dependence
import Lox.Proofs.Grammar.Origin
import Lox.Proofs.Token.Lines
import Lox.Proofs.Repl.Chunks
import Lox.Proofs.Source.Located
import Lox.Proofs.Token.Continuation
import Lox.Proofs.CommandLine.Exits
import Lox.Proofs.Eval.Levels
import Lox.Proofs.Grammar.Calls
import Lox.Proofs.Scoping.Transparency
import Lox.Proofs.Eval.Parentheses
import Lox.Proofs.Scoping.Store
import Lox.Proofs.Grammar.Progress
