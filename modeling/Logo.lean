import Logo.Argument.Category
import Logo.Argument.Validate
import Logo.Command.Flow
import Logo.Command.Standard
import Logo.Command.Turtle
import Logo.Expression.Apply
import Logo.Expression.Atom
import Logo.Expression.Evaluate
import Logo.Expression.Function
import Logo.Expression.Instruction
import Logo.Expression.Lexeme
import Logo.Expression.Operator
import Logo.Expression.Polish
import Logo.Fault
import Logo.Host.Commands
import Logo.Host.Recorder
import Logo.Interpreter.Action
import Logo.Interpreter.Command
import Logo.Interpreter.Run
import Logo.Message
import Logo.Number.Binary
import Logo.Number.Decimal
import Logo.Number.Text
import Logo.Path.Access
import Logo.Path.Resolve
import Logo.Proofs.Argument.Check
import Logo.Proofs.Argument.Positions
import Logo.Proofs.Argument.Word
import Logo.Proofs.Eval
import Logo.Proofs.Evaluation.Brackets
import Logo.Proofs.Evaluation.Codes
import Logo.Proofs.Evaluation.Consult
import Logo.Proofs.Evaluation.Query
import Logo.Proofs.Evaluation.Step
import Logo.Proofs.Evaluation.Termination
import Logo.Proofs.Expression.Classification
import Logo.Proofs.Expression.Compile
import Logo.Proofs.Expression.Composition
import Logo.Proofs.Expression.Cutting
import Logo.Proofs.Expression.Entry
import Logo.Proofs.Expression.Execution
import Logo.Proofs.Expression.Grammar
import Logo.Proofs.Expression.Machine
import Logo.Proofs.Expression.Operand
import Logo.Proofs.Expression.Reading
import Logo.Proofs.Expression.Respelling
import Logo.Proofs.Expression.Segments
import Logo.Proofs.Expression.Sketch
import Logo.Proofs.Expression.Tree
import Logo.Proofs.Expression.Weight
import Logo.Proofs.Fault.Stage
import Logo.Proofs.Fault.Syntax
import Logo.Proofs.Interpreter.Abort
import Logo.Proofs.Interpreter.Action
import Logo.Proofs.Interpreter.Agree
import Logo.Proofs.Interpreter.Answered
import Logo.Proofs.Interpreter.Assignment
import Logo.Proofs.Interpreter.Atomic
import Logo.Proofs.Interpreter.Batching
import Logo.Proofs.Interpreter.Branches
import Logo.Proofs.Interpreter.Color
import Logo.Proofs.Interpreter.Control
import Logo.Proofs.Interpreter.Cut
import Logo.Proofs.Interpreter.Declared
import Logo.Proofs.Interpreter.Depth
import Logo.Proofs.Interpreter.Dispatch
import Logo.Proofs.Interpreter.Effect
import Logo.Proofs.Interpreter.Ends
import Logo.Proofs.Interpreter.Fallback
import Logo.Proofs.Interpreter.Held
import Logo.Proofs.Interpreter.Keeps
import Logo.Proofs.Interpreter.Keys
import Logo.Proofs.Interpreter.Leave
import Logo.Proofs.Interpreter.Lifecycle
import Logo.Proofs.Interpreter.Lifetime
import Logo.Proofs.Interpreter.LoopFree
import Logo.Proofs.Interpreter.Loops
import Logo.Proofs.Interpreter.Names
import Logo.Proofs.Interpreter.Noting
import Logo.Proofs.Interpreter.Occurrence
import Logo.Proofs.Interpreter.Origin
import Logo.Proofs.Interpreter.Passing
import Logo.Proofs.Interpreter.Rounds
import Logo.Proofs.Interpreter.Script
import Logo.Proofs.Interpreter.Sent
import Logo.Proofs.Interpreter.Sequence
import Logo.Proofs.Interpreter.Settling
import Logo.Proofs.Interpreter.Trace
import Logo.Proofs.Message.Conservation
import Logo.Proofs.Number.Counting
import Logo.Proofs.Number.Decimal
import Logo.Proofs.Number.Parts
import Logo.Proofs.Number.Rounding
import Logo.Proofs.Number.Text
import Logo.Proofs.Path.Bounds
import Logo.Proofs.Path.Display
import Logo.Proofs.Path.InPlace
import Logo.Proofs.Path.Key
import Logo.Proofs.Path.Lens
import Logo.Proofs.Path.Name
import Logo.Proofs.Path.Operand
import Logo.Proofs.Path.Reshape
import Logo.Proofs.Path.Room
import Logo.Proofs.Path.Stray
import Logo.Proofs.Statement.Conservation
import Logo.Proofs.Statement.Juxtaposition
import Logo.Proofs.Statement.Nesting
import Logo.Proofs.Statement.Rebuilding
import Logo.Proofs.Statement.Rendering
import Logo.Proofs.Statement.Step
import Logo.Proofs.Store.Access
import Logo.Proofs.Store.Confined
import Logo.Proofs.Store.Growth
import Logo.Proofs.Store.Region
import Logo.Proofs.Store.Writes
import Logo.Proofs.Text.Enclosed
import Logo.Proofs.Text.Joining
import Logo.Proofs.Text.Spans
import Logo.Proofs.Text.TopLevel
import Logo.Proofs.Token.Layout
import Logo.Proofs.Token.Lossless
import Logo.Proofs.Token.Respacing
import Logo.Proofs.Token.Scan
import Logo.Proofs.Token.Words
import Logo.Proofs.Value.Codes
import Logo.Proofs.Value.Equality
import Logo.Proofs.Value.Fields
import Logo.Proofs.Value.Hereditary
import Logo.Proofs.Value.Text
import Logo.Settings.Reader
import Logo.Statement.Basic
import Logo.Statement.Parse
import Logo.Store
import Logo.Text.Literal
import Logo.Text.Printable
import Logo.Text.Word
import Logo.Token.Basic
import Logo.Token.Scan
import Logo.Value.Basic
import Logo.Value.Text
