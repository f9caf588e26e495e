import VimScript.Blocks
import VimScript.CharClass
import VimScript.Command
import VimScript.Command.Lookup
import VimScript.Command.Table
import VimScript.CommandLine
import VimScript.CommandLine.Arguments
import VimScript.CommandLine.Surroundings
import VimScript.Expr
import VimScript.Expr.Name
import VimScript.Expr.Postfix
import VimScript.Expr.Primary
import VimScript.Fault
import VimScript.Fingerprint
import VimScript.Invocation
import VimScript.Json
import VimScript.Json.Reader
import VimScript.LineDiff
import VimScript.LineDiff.Edit
import VimScript.LineDiff.Hunk
import VimScript.LineDiff.Lines
import VimScript.LineDiff.Meeting
import VimScript.LineDiff.Slide
import VimScript.Main
import VimScript.Operator
import VimScript.Options
import VimScript.Position
import VimScript.Scan
import VimScript.Script
import VimScript.Source
import VimScript.Statement
import VimScript.Statement.Argument
import VimScript.Statement.Assignment
import VimScript.Statement.Block
import VimScript.Statement.Evaluation
import VimScript.Statement.Modifier
import VimScript.Statement.Name
import VimScript.Statement.Pattern
import VimScript.Statement.Range
import VimScript.Statement.Raw
import VimScript.Statement.Trail
import VimScript.Target
import VimScript.Token
import VimScript.Token.Lexer
import VimScript.Token.Memo
import VimScript.Tree
import VimScript.Tree.Fold
import VimScript.Tree.Json
import VimScript.Tree.Kind
import VimScript.Tree.NodeType
import VimScript.Verb
import VimScript.Walk
import VimScript.Walk.Field
import VimScript.Proofs.Script.Initials
import VimScript.Proofs.Scan.Delivers
import VimScript.Proofs.Token.Faults
import VimScript.Proofs.Expr.Delivers
import VimScript.Proofs.Tree.Slots
import VimScript.Proofs.Tree.Finished
import VimScript.Proofs.Blocks.Stack
import VimScript.Proofs.Blocks.Edits
import VimScript.Proofs.Statement.Commands
import VimScript.Proofs.Statement.Edits
import VimScript.Proofs.Blocks.Labels
import VimScript.Proofs.Script.Run
import VimScript.Proofs.Script.Structure
import VimScript.Proofs.Scan.Text
import VimScript.Proofs.Token.Text
import VimScript.Proofs.Token.Literals
import VimScript.Proofs.Expr.Printer
import VimScript.Proofs.Expr.Tiers
import VimScript.Proofs.Expr.Enclosed
import VimScript.Proofs.Expr.Sequences
import VimScript.Proofs.Expr.Parts
import VimScript.Proofs.Expr.Names
import VimScript.Proofs.Expr.Lambdas
import VimScript.Proofs.Expr.RoundTrip
import VimScript.Proofs.Grammar.Derivation
import VimScript.Proofs.Grammar.Frames
import VimScript.Proofs.Blocks.Outline
import VimScript.Proofs.Statement.Operands
import VimScript.Proofs.Statement.Text
import VimScript.Proofs.Statement.Lines
import VimScript.Proofs.Source.Layout
import VimScript.Proofs.Script.Grammar
import VimScript.Proofs.Walk.Tour
import VimScript.Proofs.Statement.UserCommand
import VimScript.Proofs.Script.Session
import VimScript.Proofs.Statement.Modifiers
import VimScript.Proofs.Script.Modified
import VimScript.Proofs.Tree.Sight
import VimScript.Proofs.Overlap.Scan
import VimScript.Proofs.Overlap.Token
import VimScript.Proofs.Overlap.Postfix
import VimScript.Proofs.Overlap.Expression
import VimScript.Proofs.Blocks.Sight
import VimScript.Proofs.Overlap.Argument
import VimScript.Proofs.Overlap.Assignment
import VimScript.Proofs.Overlap.Block
import VimScript.Proofs.Overlap.Opening
import VimScript.Proofs.Overlap.Range
import VimScript.Proofs.Statement.OpenEnded
import VimScript.Proofs.Overlap.Statement
import VimScript.Proofs.Overlap.Run
import VimScript.Proofs.Source.Joined
import VimScript.Proofs.Tree.Fold
import VimScript.Proofs.Tree.Fingerprint
import VimScript.Proofs.Script.Concatenation
import VimScript.Proofs.Scan.Gives
import VimScript.Proofs.Token.Spelling
import VimScript.Proofs.Token.Extent
import VimScript.Proofs.Expr.Chains
import VimScript.Proofs.Token.Keys
import VimScript.Proofs.Expr.LiteralDict
import VimScript.Proofs.Tree.Form
import VimScript.Proofs.Expr.Shape
import VimScript.Proofs.Expr.Shaped
import VimScript.Proofs.Tree.Readable
import VimScript.Proofs.Expr.Forms
import VimScript.Proofs.Expr.FormTypes
import VimScript.Proofs.Expr.Distinct
import VimScript.Proofs.Script.Continuation
import VimScript.Proofs.Expr.Targets
import VimScript.Proofs.Overlap.Line
import VimScript.Proofs.Overlap.Mirror
import VimScript.Proofs.Tree.Order
import VimScript.Proofs.Blocks.Order
import VimScript.Proofs.Statement.Heads
import VimScript.Proofs.Statement.Order
import VimScript.Proofs.Statement.Reports
import VimScript.Proofs.Script.Order
import VimScript.Proofs.Script.Positions
import VimScript.Proofs.Tree.Entries
import VimScript.Proofs.Script.Parsed
import VimScript.Proofs.Source.Verbatim
import VimScript.Proofs.Tree.Verbatim
import VimScript.Proofs.Expr.Verbatim
import VimScript.Proofs.Statement.Verbatim
import VimScript.Proofs.Blocks.Takes
import VimScript.Proofs.Blocks.Verbatim
import VimScript.Proofs.Script.Verbatim
import VimScript.Proofs.LineDiff.Patch
import VimScript.Proofs.LineDiff.Replay
import VimScript.Proofs.Token.Requests
import VimScript.Proofs.Script.Termination
import VimScript.Proofs.Script.Recorded
import VimScript.Proofs.Tree.WellFormed
import VimScript.Proofs.Expr.WellFormed
import VimScript.Proofs.Statement.Reads
import VimScript.Proofs.Statement.Built
import VimScript.Proofs.Script.WellFormed
import VimScript.Proofs.Statement.Pattern
import VimScript.Proofs.Statement.ArgumentEnd
import VimScript.Proofs.Statement.Trimmed
import VimScript.Proofs.Script.Bars
import VimScript.Proofs.Expr.Lookahead
import VimScript.Proofs.Statement.Heredoc
import VimScript.Proofs.Script.Heredoc
import VimScript.Proofs.Script.HeredocText
import VimScript.Proofs.Statement.Capture
import VimScript.Proofs.Script.Capture
import VimScript.Proofs.Token.Blobs
import VimScript.Proofs.Statement.Ranges
import VimScript.Proofs.Script.Ranged
import VimScript.Proofs.Statement.Variables
import VimScript.Proofs.Script.Variables
import VimScript.Proofs.Cut.Scan
import VimScript.Proofs.Cut.Number
import VimScript.Proofs.Cut.Token
import VimScript.Proofs.Cut.Glance
import VimScript.Proofs.Cut.Postfix
import VimScript.Proofs.Cut.Operand
import VimScript.Proofs.Expr.Onward
import VimScript.Proofs.Cut.Brace
import VimScript.Proofs.Cut.Expression
import VimScript.Proofs.Expr.Alone
import VimScript.Proofs.Walk.Stops
import VimScript.Proofs.Walk.Dispatch
import VimScript.Proofs.Source.Logical
import VimScript.Proofs.Token.Lexemes
import VimScript.Proofs.Token.Quotes
import VimScript.Proofs.Statement.Parameters
import VimScript.Proofs.Script.Parameters
import VimScript.Proofs.Source.Offsets
import VimScript.Proofs.Source.Breaks
import VimScript.Proofs.Statement.Accounts
import VimScript.Proofs.Statement.Highlighting
import VimScript.Proofs.Script.Highlighting
import VimScript.Proofs.Script.Finish
import VimScript.Proofs.Script.Neovim
import VimScript.Proofs.Expr.Arguments
import VimScript.Proofs.Script.Arguments
