import Wordloom.Bytes
import Wordloom.CommandLine.Script
import Wordloom.CommandLine.Session
import Wordloom.CommandLine.Settings
import Wordloom.Compile.Block
import Wordloom.Compile.Construct
import Wordloom.Compile.Emitter
import Wordloom.Compile.Error
import Wordloom.Compile.Escape
import Wordloom.Compile.Pattern
import Wordloom.Compile.Query
import Wordloom.Compile.Scopes
import Wordloom.Compile.State
import Wordloom.Compile.Tag
import Wordloom.Container.Load
import Wordloom.Container.Save
import Wordloom.Container.Tables
import Wordloom.Container.Wire
import Wordloom.Decimal.Binary
import Wordloom.Decimal.Layout
import Wordloom.Decimal.Reading
import Wordloom.Decimal.Shortest
import Wordloom.Dictionary
import Wordloom.Engine
import Wordloom.Instr
import Wordloom.Instr.Codec
import Wordloom.Machine.Fault
import Wordloom.Machine.Frame
import Wordloom.Machine.Routine
import Wordloom.Machine.Run
import Wordloom.Machine.Stack
import Wordloom.Machine.Standard
import Wordloom.Machine.State
import Wordloom.Machine.Step
import Wordloom.Main
import Wordloom.Output.Article
import Wordloom.Output.Capitals
import Wordloom.Output.Chain
import Wordloom.Output.NumberFormat
import Wordloom.Output.Writer
import Wordloom.Position
import Wordloom.Program
import Wordloom.Program.Listing
import Wordloom.Proofs.Actions
import Wordloom.Proofs.Balance
import Wordloom.Proofs.Blocks
import Wordloom.Proofs.Bounds
import Wordloom.Proofs.Brackets
import Wordloom.Proofs.Bytes
import Wordloom.Proofs.Capitalization
import Wordloom.Proofs.Carriers
import Wordloom.Proofs.Channels
import Wordloom.Proofs.CharLimit
import Wordloom.Proofs.Checks
import Wordloom.Proofs.Codec
import Wordloom.Proofs.CompileArguments
import Wordloom.Proofs.CompileBlocks
import Wordloom.Proofs.CompileDefinitions
import Wordloom.Proofs.CompileOperands
import Wordloom.Proofs.CompileTags
import Wordloom.Proofs.Compiled
import Wordloom.Proofs.Completes
import Wordloom.Proofs.Concealment
import Wordloom.Proofs.ConstantArguments
import Wordloom.Proofs.Container
import Wordloom.Proofs.Correctness
import Wordloom.Proofs.Delivery
import Wordloom.Proofs.Denotation
import Wordloom.Proofs.DigitGroups
import Wordloom.Proofs.Direct
import Wordloom.Proofs.Directory
import Wordloom.Proofs.Draft
import Wordloom.Proofs.Emissions
import Wordloom.Proofs.Emitter
import Wordloom.Proofs.ErrorPositions
import Wordloom.Proofs.Evaluation
import Wordloom.Proofs.Failures
import Wordloom.Proofs.Frames
import Wordloom.Proofs.Instructions
import Wordloom.Proofs.Invariant
import Wordloom.Proofs.Isolation
import Wordloom.Proofs.Joining
import Wordloom.Proofs.Leads
import Wordloom.Proofs.Limits
import Wordloom.Proofs.Listing
import Wordloom.Proofs.Lockstep
import Wordloom.Proofs.Lowering
import Wordloom.Proofs.LoweringBlocks
import Wordloom.Proofs.LoweringBranches
import Wordloom.Proofs.LoweringDefinitions
import Wordloom.Proofs.LoweringOperands
import Wordloom.Proofs.LoweringTags
import Wordloom.Proofs.Marks
import Wordloom.Proofs.Meaning
import Wordloom.Proofs.Outcomes
import Wordloom.Proofs.Parsing
import Wordloom.Proofs.Pieces
import Wordloom.Proofs.PoolSource
import Wordloom.Proofs.Pools
import Wordloom.Proofs.Positions
import Wordloom.Proofs.Printing
import Wordloom.Proofs.Queries
import Wordloom.Proofs.QueryReading
import Wordloom.Proofs.QueryRoundTrip
import Wordloom.Proofs.QuerySource
import Wordloom.Proofs.Reachable
import Wordloom.Proofs.Readings
import Wordloom.Proofs.References
import Wordloom.Proofs.RegexTokens
import Wordloom.Proofs.Rendering
import Wordloom.Proofs.RepeatedBlocks
import Wordloom.Proofs.Repetition
import Wordloom.Proofs.Safety
import Wordloom.Proofs.Scanning
import Wordloom.Proofs.Scoping
import Wordloom.Proofs.Script
import Wordloom.Proofs.Simulation
import Wordloom.Proofs.Slots
import Wordloom.Proofs.Sound
import Wordloom.Proofs.Source
import Wordloom.Proofs.StaticCode
import Wordloom.Proofs.StaticText
import Wordloom.Proofs.StepBound
import Wordloom.Proofs.StepEffects
import Wordloom.Proofs.Streams
import Wordloom.Proofs.StringTable
import Wordloom.Proofs.TokenRuns
import Wordloom.Proofs.Tracks
import Wordloom.Proofs.Traversal
import Wordloom.Proofs.Tree
import Wordloom.Proofs.Truncation
import Wordloom.Proofs.WeightedChoice
import Wordloom.Proofs.WellFormed
import Wordloom.Proofs.WholeNumbers
import Wordloom.Proofs.Wire
import Wordloom.Query
import Wordloom.Regex.CharSet
import Wordloom.Regex.Class
import Wordloom.Regex.Error
import Wordloom.Regex.Expr
import Wordloom.Regex.Parse
import Wordloom.Regex.Size
import Wordloom.Rng
import Wordloom.Text.Blank
import Wordloom.Text.CaseMap
import Wordloom.Text.Digits
import Wordloom.Text.Hex
import Wordloom.Text.Letter
import Wordloom.Text.Printable
import Wordloom.Text.Quoted
import Wordloom.Text.Ranges
import Wordloom.Text.Utf8
import Wordloom.Token
import Wordloom.Token.Reader
import Wordloom.Token.Scan
import Wordloom.Value
