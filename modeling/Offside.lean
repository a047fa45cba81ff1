import Offside.Command.Options
import Offside.Command.Session
import Offside.Decimal.Basic
import Offside.Decimal.Notation
import Offside.Decimal.Reading
import Offside.Decimal.Shortest
import Offside.Execution.Context
import Offside.Execution.Evaluate
import Offside.Execution.Fault
import Offside.Execution.Frame
import Offside.Execution.Machine
import Offside.Execution.Operation
import Offside.Execution.Overload
import Offside.Execution.Routine
import Offside.Execution.Run
import Offside.Execution.Value
import Offside.Main
import Offside.Program.Basic
import Offside.Program.Grammar.Declaration
import Offside.Program.Grammar.Error
import Offside.Program.Grammar.Expression
import Offside.Program.Grammar.Recursion
import Offside.Program.Grammar.Rule
import Offside.Program.Grammar.Statement
import Offside.Program.Outline
import Offside.Proofs.Command.Output
import Offside.Proofs.Command.Segment
import Offside.Proofs.Decimal.Fields
import Offside.Proofs.Decimal.RoundTrip
import Offside.Proofs.Decimal.Rounding
import Offside.Proofs.Execution.Arity
import Offside.Proofs.Execution.AssignedCall
import Offside.Proofs.Execution.Budget
import Offside.Proofs.Execution.Cell
import Offside.Proofs.Execution.Code
import Offside.Proofs.Execution.Console
import Offside.Proofs.Execution.Construction
import Offside.Proofs.Execution.Contract
import Offside.Proofs.Execution.DefaultValue
import Offside.Proofs.Execution.Ending
import Offside.Proofs.Execution.Erasure
import Offside.Proofs.Execution.Footprint
import Offside.Proofs.Execution.Invariant
import Offside.Proofs.Execution.Isolation
import Offside.Proofs.Execution.Loop
import Offside.Proofs.Execution.Moment
import Offside.Proofs.Execution.Origin
import Offside.Proofs.Execution.Passage
import Offside.Proofs.Execution.Privacy
import Offside.Proofs.Execution.Reference
import Offside.Proofs.Execution.Representation
import Offside.Proofs.Execution.Request
import Offside.Proofs.Execution.Resolution
import Offside.Proofs.Execution.ReturnVariable
import Offside.Proofs.Execution.Routine
import Offside.Proofs.Execution.Scope
import Offside.Proofs.Execution.Store
import Offside.Proofs.Execution.Success
import Offside.Proofs.Execution.Termination
import Offside.Proofs.Grammar.Assignment
import Offside.Proofs.Grammar.Blur
import Offside.Proofs.Grammar.Completion
import Offside.Proofs.Grammar.Composition
import Offside.Proofs.Grammar.Ending
import Offside.Proofs.Grammar.Likeness
import Offside.Proofs.Grammar.Progress
import Offside.Proofs.Grammar.Reading
import Offside.Proofs.Grammar.Recognition
import Offside.Proofs.Grammar.Refusal
import Offside.Proofs.Grammar.RoundTrip
import Offside.Proofs.Grammar.Shape
import Offside.Proofs.Grammar.Surplus
import Offside.Proofs.Program.Rendering
import Offside.Proofs.Program.Shape
import Offside.Proofs.Rule.Blur
import Offside.Proofs.Rule.Completion
import Offside.Proofs.Rule.Likeness
import Offside.Proofs.Rule.Progress
import Offside.Proofs.Rule.Reading
import Offside.Proofs.Rule.Round
import Offside.Proofs.Text.Position
import Offside.Proofs.Token.Arrangement
import Offside.Proofs.Token.Concatenation
import Offside.Proofs.Token.Continuation
import Offside.Proofs.Token.Course
import Offside.Proofs.Token.Displacement
import Offside.Proofs.Token.Fault
import Offside.Proofs.Token.Indentation
import Offside.Proofs.Token.Insertion
import Offside.Proofs.Token.Lexemes
import Offside.Proofs.Token.Lookahead
import Offside.Proofs.Token.Respelling
import Offside.Proofs.Token.Spelling
import Offside.Proofs.Token.Writing
import Offside.Text.Alphabetic
import Offside.Text.Cursor
import Offside.Text.Position
import Offside.Text.Quoted
import Offside.Text.Shown
import Offside.Token.Basic
import Offside.Token.Error
import Offside.Token.Kind
import Offside.Token.Layout
import Offside.Token.Lexeme
import Offside.Token.Scan
