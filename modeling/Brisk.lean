import Brisk.Command.Options
import Brisk.Command.Prompt
import Brisk.Command.Report
import Brisk.Command.Run
import Brisk.Environment
import Brisk.Evaluation.Basic
import Brisk.Evaluation.Call
import Brisk.Evaluation.Tree
import Brisk.Limits
import Brisk.Main
import Brisk.Number.Binary
import Brisk.Number.Decimal
import Brisk.Number.Integer
import Brisk.Number.Shortest
import Brisk.Output
import Brisk.Parse.Basic
import Brisk.Parse.Expression
import Brisk.Parse.Program
import Brisk.Parse.Statement
import Brisk.Position
import Brisk.Session
import Brisk.Source.Basic
import Brisk.Source.Decode
import Brisk.Text.Blank
import Brisk.Text.Bytes
import Brisk.Text.Plain
import Brisk.Text.Quoted
import Brisk.Token.Basic
import Brisk.Token.Fault
import Brisk.Token.Lexer
import Brisk.Token.Scan
import Brisk.Tree.Basic
import Brisk.Tree.Fault
import Brisk.Tree.Outline
import Brisk.Value.Basic
import Brisk.Value.Cast
import Brisk.Value.Fault
import Brisk.Value.Operation
import Brisk.Proofs.Environment.Frame
import Brisk.Proofs.Evaluation.Frame
import Brisk.Proofs.Session.Frame
import Brisk.Proofs.Parse.Reads
import Brisk.Proofs.Parse.Sound
import Brisk.Proofs.Parse.Complete
import Brisk.Proofs.Source.Spells
import Brisk.Proofs.Token.Progress
import Brisk.Proofs.Token.Scan
import Brisk.Proofs.Token.Segment
import Brisk.Proofs.Token.Stream
import Brisk.Proofs.Source.Lines
import Brisk.Proofs.Tree.Inner
import Brisk.Proofs.Parse.Program
import Brisk.Proofs.Parse.Nesting
import Brisk.Proofs.Token.Segmentation
import Brisk.Proofs.Evaluation.Retrace
import Brisk.Proofs.Evaluation.InStep
import Brisk.Proofs.Evaluation.Untraced
import Brisk.Proofs.Evaluation.Isolation
import Brisk.Proofs.Parse.Height
import Brisk.Proofs.Token.Seam
import Brisk.Proofs.Evaluation.Bodies
import Brisk.Proofs.Evaluation.DeadCode
import Brisk.Proofs.Evaluation.Returns
import Brisk.Proofs.Tree.Trim
import Brisk.Proofs.Source.Access
import Brisk.Proofs.Source.Append
import Brisk.Proofs.Source.Breaks
import Brisk.Proofs.Source.Delivery
import Brisk.Proofs.Source.Reader
import Brisk.Proofs.Parse.Append
import Brisk.Proofs.Session.Pieces
import Brisk.Proofs.Evaluation.Abridged
import Brisk.Proofs.Evaluation.Ends
import Brisk.Proofs.Evaluation.Parts
import Brisk.Proofs.Evaluation.CallDepth
import Brisk.Proofs.Evaluation.Room
import Brisk.Proofs.Tree.Demand
import Brisk.Proofs.Value.Operation
import Brisk.Proofs.Environment.Demand
import Brisk.Proofs.Evaluation.Demand
import Brisk.Proofs.Evaluation.LoopFree
import Brisk.Proofs.Evaluation.Origin
import Brisk.Proofs.Evaluation.Monitor
import Brisk.Proofs.Evaluation.Functions
import Brisk.Proofs.Session.Functions
import Brisk.Proofs.Token.Rendering
import Brisk.Proofs.Token.Requests
import Brisk.Proofs.Token.Refusal
import Brisk.Proofs.Token.Sources
import Brisk.Proofs.Tree.Begins
import Brisk.Proofs.Parse.Capped
import Brisk.Proofs.Parse.Rounds
import Brisk.Proofs.Parse.Decision
import Brisk.Proofs.Parse.Decision.Expression
import Brisk.Proofs.Parse.Decision.Statement
import Brisk.Proofs.Parse.Limits
import Brisk.Proofs.Parse.FirstFault
import Brisk.Proofs.Tree.Marks
import Brisk.Proofs.Parse.TooDeep
import Brisk.Proofs.Parse.NestingBound
import Brisk.Proofs.Token.WordBound
import Brisk.Proofs.Token.LengthBounds
import Brisk.Proofs.Evaluation.DepthFree
import Brisk.Proofs.Evaluation.Pipeline
import Brisk.Proofs.Evaluation.Arithmetic
import Brisk.Proofs.Number.Shortest
import Brisk.Proofs.Number.Literal
import Brisk.Proofs.Text.Quoted
import Brisk.Proofs.Tree.Outline
import Brisk.Proofs.Tree.Dump
import Brisk.Proofs.Environment.History
import Brisk.Proofs.Environment.Shadowing
import Brisk.Proofs.Number.Numeral
import Brisk.Proofs.Running
import Brisk.Proofs.Token.Scanner
import Brisk.Proofs.Token.Scanning
import Brisk.Proofs.Parse.Parser
import Brisk.Proofs.Parse.Agreement
import Brisk.Proofs.Parse.Calls
