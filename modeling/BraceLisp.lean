import BraceLisp.Number.Binary64
import BraceLisp.Number.Decimal
import BraceLisp.Number.Text
import BraceLisp.Position
import BraceLisp.Text.Blank
import BraceLisp.Text.Quoted
import BraceLisp.SyntaxError
import BraceLisp.Atom
import BraceLisp.Token
import BraceLisp.Token.Cursor
import BraceLisp.Term
import BraceLisp.Term.OfTokens
import BraceLisp.Expr
import BraceLisp.Term.Form
import BraceLisp.Expr.OfTerm
import BraceLisp.Primitive
import BraceLisp.Value
import BraceLisp.Failure
import BraceLisp.Env
import BraceLisp.Outcome
import BraceLisp.Eval
import BraceLisp.Eval.Depth
import BraceLisp.Program
import BraceLisp.SymbolTable
import BraceLisp.Inspect
import BraceLisp.Shell.Output
import BraceLisp.Shell.Command
import BraceLisp.Shell.Repl
import BraceLisp.Main
import BraceLisp.Proofs.Lockstep
import BraceLisp.Proofs.FreeNames
import BraceLisp.Proofs.Faces
import BraceLisp.Proofs.Simulation
import BraceLisp.Proofs.Coincidence
import BraceLisp.Proofs.Substitution
import BraceLisp.Proofs.Unfolding
import BraceLisp.Proofs.Renaming
import BraceLisp.Proofs.Calls
import BraceLisp.Proofs.Places
import BraceLisp.Proofs.DoubleBits
import BraceLisp.Proofs.Literal
import BraceLisp.Proofs.Nearest
import BraceLisp.Proofs.NumberText
import BraceLisp.Proofs.Lexing
import BraceLisp.Proofs.Reading
import BraceLisp.Proofs.Balance
import BraceLisp.Proofs.LexicalGrammar
import BraceLisp.Proofs.RoundTrip
import BraceLisp.Proofs.Forms
import BraceLisp.Proofs.Grammar
import BraceLisp.Proofs.Sugar
import BraceLisp.Proofs.Canonical
import BraceLisp.Proofs.Postconditions
import BraceLisp.Proofs.Sequencing
import BraceLisp.Proofs.Missing
import BraceLisp.Proofs.Identities
import BraceLisp.Proofs.Faults
import BraceLisp.Proofs.Evidence
import BraceLisp.Proofs.Translation
import BraceLisp.Proofs.Concatenation
import BraceLisp.Proofs.Stages
import BraceLisp.Proofs.Coherence
import BraceLisp.Proofs.Trimming
import BraceLisp.Proofs.Reports
import BraceLisp.Proofs.Session
import BraceLisp.Proofs.LineColumn
import BraceLisp.Proofs.Resuming
import BraceLisp.Proofs.Reads
import BraceLisp.Proofs.Diagnosis
import BraceLisp.Proofs.OneTerm
import BraceLisp.Proofs.Printed
import BraceLisp.Proofs.OlderBindings
import BraceLisp.Proofs.Nesting
import BraceLisp.Proofs.FirstOrder
import BraceLisp.Proofs.Shadowing
import BraceLisp.Proofs.Naming
import BraceLisp.Proofs.Interning
import BraceLisp.Proofs.Rounding
import BraceLisp.Proofs.DoubleValue
import BraceLisp.Proofs.NumberFilters
import BraceLisp.Proofs.DecimalValue
