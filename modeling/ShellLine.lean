import ShellLine.Analysis.Argv
import ShellLine.Analysis.Feature
import ShellLine.Analysis.Json
import ShellLine.Analysis.Report
import ShellLine.Bytewise.Command
import ShellLine.Bytewise.CommandList
import ShellLine.Bytewise.Program
import ShellLine.Bytewise.Token
import ShellLine.Bytewise.Word
import ShellLine.CommandLine.Arguments
import ShellLine.CommandLine.Fault
import ShellLine.CommandLine.Help
import ShellLine.CommandLine.Program
import ShellLine.CommandLine.Run
import ShellLine.Config
import ShellLine.Config.Json
import ShellLine.Grammar.Command
import ShellLine.Grammar.CommandList
import ShellLine.Grammar.Compound
import ShellLine.Grammar.Expansion
import ShellLine.Grammar.Redirection
import ShellLine.Grammar.Rules
import ShellLine.Grammar.Token
import ShellLine.Grammar.Word
import ShellLine.Json.Reader
import ShellLine.Json.Value
import ShellLine.Main
import ShellLine.Parse
import ShellLine.ParseError
import ShellLine.Parsing.Engine
import ShellLine.Parsing.Expected
import ShellLine.Parsing.Parser
import ShellLine.Proofs.Analysis.Leads
import ShellLine.Proofs.Analysis.LiteralArgv
import ShellLine.Proofs.Analysis.ReportText
import ShellLine.Proofs.Analysis.StandAside
import ShellLine.Proofs.Analysis.Unquote
import ShellLine.Proofs.Bytewise.Boundaries
import ShellLine.Proofs.Bytewise.Calls
import ShellLine.Proofs.Bytewise.Commands
import ShellLine.Proofs.Bytewise.Matches
import ShellLine.Proofs.Bytewise.Places
import ShellLine.Proofs.Bytewise.Reaches
import ShellLine.Proofs.Bytewise.Refines
import ShellLine.Proofs.Bytewise.Runs
import ShellLine.Proofs.Bytewise.Steps
import ShellLine.Proofs.Bytewise.Tokens
import ShellLine.Proofs.Bytewise.Words
import ShellLine.Proofs.Canonical.Commands
import ShellLine.Proofs.Canonical.Compound
import ShellLine.Proofs.Canonical.Ends
import ShellLine.Proofs.Canonical.Program
import ShellLine.Proofs.Canonical.Syntax
import ShellLine.Proofs.Canonical.Tokens
import ShellLine.Proofs.Canonical.Trees
import ShellLine.Proofs.Closure.Commands
import ShellLine.Proofs.Closure.Compound
import ShellLine.Proofs.Closure.Detour
import ShellLine.Proofs.Closure.Ends
import ShellLine.Proofs.Closure.Extent
import ShellLine.Proofs.Closure.Lists
import ShellLine.Proofs.Closure.Program
import ShellLine.Proofs.Closure.Quotes
import ShellLine.Proofs.Closure.Region
import ShellLine.Proofs.Closure.Simple
import ShellLine.Proofs.Closure.Text
import ShellLine.Proofs.Closure.Words
import ShellLine.Proofs.CommandLine.Documented
import ShellLine.Proofs.CommandLine.Faults
import ShellLine.Proofs.CommandLine.Verdict
import ShellLine.Proofs.Config.Json
import ShellLine.Proofs.Drawn.Commands
import ShellLine.Proofs.Drawn.Nodes
import ShellLine.Proofs.Drawn.Program
import ShellLine.Proofs.Drawn.Takes
import ShellLine.Proofs.Drawn.WordParts
import ShellLine.Proofs.Drawn.Words
import ShellLine.Proofs.Expected.Sorted
import ShellLine.Proofs.Followed.Carry
import ShellLine.Proofs.Followed.Commands
import ShellLine.Proofs.Followed.Compound
import ShellLine.Proofs.Followed.Lists
import ShellLine.Proofs.Followed.Program
import ShellLine.Proofs.Followed.Quotes
import ShellLine.Proofs.Followed.Simple
import ShellLine.Proofs.Followed.Substitution
import ShellLine.Proofs.Followed.Tails
import ShellLine.Proofs.Followed.Words
import ShellLine.Proofs.Forms.Command
import ShellLine.Proofs.Forms.Compound
import ShellLine.Proofs.Forms.Word
import ShellLine.Proofs.Grammar.Advance
import ShellLine.Proofs.Grammar.Alone
import ShellLine.Proofs.Grammar.Calls
import ShellLine.Proofs.Grammar.Command
import ShellLine.Proofs.Grammar.CommandList
import ShellLine.Proofs.Grammar.Expansion
import ShellLine.Proofs.Grammar.Halt
import ShellLine.Proofs.Grammar.Literal
import ShellLine.Proofs.Grammar.Names
import ShellLine.Proofs.Grammar.Progress
import ShellLine.Proofs.Grammar.Ranked
import ShellLine.Proofs.Grammar.Token
import ShellLine.Proofs.Grammar.Word
import ShellLine.Proofs.Grammar.Written
import ShellLine.Proofs.HereDocuments
import ShellLine.Proofs.Json.Written
import ShellLine.Proofs.Lines.Alike
import ShellLine.Proofs.Lines.Command
import ShellLine.Proofs.Lines.CommandList
import ShellLine.Proofs.Lines.Compound
import ShellLine.Proofs.Lines.Join
import ShellLine.Proofs.Lines.Lockstep
import ShellLine.Proofs.Lines.Program
import ShellLine.Proofs.Lines.Spelling
import ShellLine.Proofs.Lines.Token
import ShellLine.Proofs.Lines.Word
import ShellLine.Proofs.Lines.Words
import ShellLine.Proofs.Memo
import ShellLine.Proofs.Nesting.Depth
import ShellLine.Proofs.Nesting.Height
import ShellLine.Proofs.Nesting.Limit
import ShellLine.Proofs.Nesting.Stacked
import ShellLine.Proofs.Nesting.Stacks
import ShellLine.Proofs.Operators.Commands
import ShellLine.Proofs.Operators.Features
import ShellLine.Proofs.Operators.Scan
import ShellLine.Proofs.Operators.Shown
import ShellLine.Proofs.Operators.Words
import ShellLine.Proofs.Padding
import ShellLine.Proofs.Quoting.Machine
import ShellLine.Proofs.Quoting.Pieces
import ShellLine.Proofs.Quoting.Removal
import ShellLine.Proofs.Reading.Basic
import ShellLine.Proofs.Reading.Calls
import ShellLine.Proofs.Reading.Ensures
import ShellLine.Proofs.Reading.Failure
import ShellLine.Proofs.Reading.Gives
import ShellLine.Proofs.Reading.Induction
import ShellLine.Proofs.Reading.Level
import ShellLine.Proofs.Reading.MayEnd
import ShellLine.Proofs.Reading.MayGive
import ShellLine.Proofs.Reading.Program
import ShellLine.Proofs.Reading.Ranked
import ShellLine.Proofs.Reading.Run
import ShellLine.Proofs.Reading.Table
import ShellLine.Proofs.Reading.Within
import ShellLine.Proofs.Running.Counter
import ShellLine.Proofs.Running.Growth
import ShellLine.Proofs.Running.Once
import ShellLine.Proofs.Running.Restore
import ShellLine.Proofs.Running.Runs
import ShellLine.Proofs.Running.Steering
import ShellLine.Proofs.Running.Unique
import ShellLine.Proofs.Running.Upheld
import ShellLine.Proofs.Shape.Compound
import ShellLine.Proofs.Shape.Formed
import ShellLine.Proofs.Shape.Lists
import ShellLine.Proofs.Shape.Program
import ShellLine.Proofs.Shape.SimpleCommand
import ShellLine.Proofs.Shape.Stuck
import ShellLine.Proofs.Shape.Words
import ShellLine.Proofs.Source.Behind
import ShellLine.Proofs.Source.Caret
import ShellLine.Proofs.Source.Location
import ShellLine.Proofs.Source.Rounding
import ShellLine.Proofs.SyntaxErrors.Message
import ShellLine.Proofs.SyntaxErrors.Notes
import ShellLine.Proofs.SyntaxErrors.Recorded
import ShellLine.Proofs.SyntaxErrors.WellFormed
import ShellLine.Proofs.Text.Boundaries
import ShellLine.Proofs.Text.Quoted
import ShellLine.Proofs.Text.Rows
import ShellLine.Proofs.Tree.Descendants
import ShellLine.Proofs.Tree.Levels
import ShellLine.Proofs.Tree.Marks
import ShellLine.Proofs.Tree.Markup
import ShellLine.Proofs.Tree.Merged
import ShellLine.Proofs.Tree.Places
import ShellLine.Proofs.Tree.Settled
import ShellLine.Proofs.Tree.Written
import ShellLine.Source.Cursor
import ShellLine.Source.Location
import ShellLine.Text.Bytes
import ShellLine.Text.Glyph
import ShellLine.Text.Quoted
import ShellLine.Text.Ranges
import ShellLine.Text.WhiteSpace
import ShellLine.Tree.Dump
import ShellLine.Tree.Forest
import ShellLine.Tree.Json
import ShellLine.Tree.Kind
import ShellLine.Tree.Walk
