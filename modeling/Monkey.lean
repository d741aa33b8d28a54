import Monkey.Text.Basic
import Monkey.Text.Blank
import Monkey.Text.Line
import Monkey.Text.Numeral
import Monkey.Text.Utf8
import Monkey.Token.Basic
import Monkey.Token.Lexer
import Monkey.Token.Stream
import Monkey.Node.Basic
import Monkey.Node.Printer
import Monkey.Grammar.Diagnostic
import Monkey.Grammar.Precedence
import Monkey.Grammar.Parser
import Monkey.Grammar.Expression
import Monkey.Grammar.Program
import Monkey.Value.Basic
import Monkey.Value.Store
import Monkey.Value.Printer
import Monkey.Failure
import Monkey.Eval.Operator
import Monkey.Eval.Basic
import Monkey.Session
import Monkey.Console.Entry
import Monkey.Console.Shell
import Monkey.Console.Terminal
import Monkey.Main
import Monkey.Proofs.Token.Lexeme
import Monkey.Proofs.Token.Numeral
import Monkey.Proofs.Token.Reading
import Monkey.Proofs.Token.Splicing
import Monkey.Proofs.Token.Tokenization
import Monkey.Proofs.Token.Spacing
import Monkey.Proofs.Token.Scanning
import Monkey.Proofs.Node.WellFormed
import Monkey.Proofs.Node.Renaming
import Monkey.Proofs.Node.Respelling
import Monkey.Proofs.Grammar.Steps
import Monkey.Proofs.Grammar.Inheritance
import Monkey.Proofs.Grammar.Lockstep
import Monkey.Proofs.Grammar.Outcome
import Monkey.Proofs.Grammar.Fuel
import Monkey.Proofs.Grammar.Resynchronization
import Monkey.Proofs.Grammar.Layout
import Monkey.Proofs.Grammar.Spelling
import Monkey.Proofs.Grammar.Climbing
import Monkey.Proofs.Grammar.Precedence
import Monkey.Proofs.Grammar.Exactness
import Monkey.Proofs.Grammar.Joining
import Monkey.Proofs.Grammar.Acceptance
import Monkey.Proofs.Grammar.Recognition
import Monkey.Proofs.Grammar.Viability
import Monkey.Proofs.Grammar.FirstReport
import Monkey.Proofs.Grammar.Reporting
import Monkey.Proofs.Grammar.RoundTrip
import Monkey.Proofs.Grammar.Concatenation
import Monkey.Proofs.Grammar.Respelling
import Monkey.Proofs.Eval.Sequencing
import Monkey.Proofs.Eval.Arithmetic
import Monkey.Proofs.Eval.NonLocalExit
import Monkey.Proofs.Eval.Footprint
import Monkey.Proofs.Eval.Ownership
import Monkey.Proofs.Eval.Invariant
import Monkey.Proofs.Eval.Scope
import Monkey.Proofs.Eval.Operation
import Monkey.Proofs.Eval.Nesting
import Monkey.Proofs.Eval.Visibility
import Monkey.Proofs.Eval.Simulation
import Monkey.Proofs.Eval.Transparency
import Monkey.Proofs.Eval.Renaming
import Monkey.Proofs.Eval.Overlooking
import Monkey.Proofs.Eval.Watching
import Monkey.Proofs.Eval.Sourced
import Monkey.Proofs.Eval.Respelling
import Monkey.Proofs.Eval.Rereading
import Monkey.Proofs.Session.Failures
import Monkey.Proofs.Session.Integers
import Monkey.Proofs.Session.Retyping
import Monkey.Proofs.Session.Likeness
import Monkey.Proofs.Session.Reset
import Monkey.Proofs.Session.Pieces
import Monkey.Proofs.Console.Dialogue
import Monkey.Proofs.Console.Listing
