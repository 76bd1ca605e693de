import Stepwise.CommandLine
import Stepwise.Decimal.Binary
import Stepwise.Decimal.Reading
import Stepwise.Decimal.Shortest
import Stepwise.Decimal.Written
import Stepwise.Fault.Basic
import Stepwise.Fault.Cause
import Stepwise.Host.Config
import Stepwise.Host.Console
import Stepwise.Host.Files
import Stepwise.Machine.Call
import Stepwise.Machine.Declare
import Stepwise.Machine.Expression
import Stepwise.Machine.Frame
import Stepwise.Machine.Functions
import Stepwise.Machine.Loop
import Stepwise.Machine.Make
import Stepwise.Machine.Resolve
import Stepwise.Machine.State
import Stepwise.Machine.Statement
import Stepwise.Machine.Step
import Stepwise.Machine.Switch
import Stepwise.Main
import Stepwise.Operator.Apply
import Stepwise.Operator.Basic
import Stepwise.Operator.Call
import Stepwise.Operator.Constant
import Stepwise.Operator.Convert
import Stepwise.Operator.Number
import Stepwise.Operator.Pointer
import Stepwise.Overload.Match
import Stepwise.Overload.Shape
import Stepwise.Overload.Signature
import Stepwise.Overload.Table
import Stepwise.Power
import Stepwise.Scope.Namespaces
import Stepwise.Scope.Stack
import Stepwise.Session.Debugger
import Stepwise.Session.Run
import Stepwise.Source.Position
import Stepwise.Stdio.Format
import Stepwise.Stdio.Function
import Stepwise.Stdio.Library
import Stepwise.Syntax.Node
import Stepwise.Syntax.Parse.Expression
import Stepwise.Syntax.Parse.Statement
import Stepwise.Syntax.Parse.Tokens
import Stepwise.Syntax.Tree
import Stepwise.Text.Blank
import Stepwise.Text.Bytes
import Stepwise.Text.Code
import Stepwise.Text.Quoted
import Stepwise.Token.Basic
import Stepwise.Token.Lexer
import Stepwise.Token.Reader
import Stepwise.Ty.Basic
import Stepwise.Ty.Kind
import Stepwise.Ty.Limits
import Stepwise.Value.Basic
import Stepwise.Value.Heap
import Stepwise.Value.SignedFloat
import Stepwise.Value.Text
import Stepwise.Proofs.Binding.Constness
import Stepwise.Proofs.Binding.Initializing
import Stepwise.Proofs.Binding.Parameters
import Stepwise.Proofs.Binding.Pointers
import Stepwise.Proofs.Binding.Ranking
import Stepwise.Proofs.Budget.Variables
import Stepwise.Proofs.Constants.Assignments
import Stepwise.Proofs.Constants.Lasting
import Stepwise.Proofs.Copies.Flags
import Stepwise.Proofs.Copies.Separation
import Stepwise.Proofs.Declarator.RoundTrip
import Stepwise.Proofs.Input.Chunking
import Stepwise.Proofs.Locality.ScopeDiscipline
import Stepwise.Proofs.Locality.Sites
import Stepwise.Proofs.Loops.Elements
import Stepwise.Proofs.Operator.Atomicity
import Stepwise.Proofs.Operator.Integers
import Stepwise.Proofs.Operator.Soundness
import Stepwise.Proofs.Overflow.Runs
import Stepwise.Proofs.Overload.Redeclaration
import Stepwise.Proofs.Parsing.Stopping
import Stepwise.Proofs.Phrases.Spans
import Stepwise.Proofs.Repetition.Blocks
import Stepwise.Proofs.Session.Schedules
import Stepwise.Proofs.Structs.Steps
import Stepwise.Proofs.Switch.Selection
import Stepwise.Proofs.Syntax.Integers
import Stepwise.Proofs.Syntax.Printing
import Stepwise.Proofs.Token.Comments
import Stepwise.Proofs.Building.Conformance
import Stepwise.Proofs.Building.Ranges
import Stepwise.Proofs.Building.Visits
import Stepwise.Proofs.Declarator.Aliases
import Stepwise.Proofs.Operator.Folding
import Stepwise.Proofs.Operator.Increments
import Stepwise.Proofs.Operator.PointerLaws
import Stepwise.Proofs.Operator.Sizes
import Stepwise.Proofs.Operator.Operands
import Stepwise.Proofs.Session.Listing
import Stepwise.Proofs.Strings.Printing
import Stepwise.Proofs.Files.Contents
import Stepwise.Proofs.Format.Arithmetic
import Stepwise.Proofs.Operator.Reduction
import Stepwise.Proofs.Overload.Substitution
