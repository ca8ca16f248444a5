import ClassTranscript.Command.Arguments
import ClassTranscript.Command.Conversion
import ClassTranscript.Command.Host
import ClassTranscript.Command.Inspection
import ClassTranscript.Command.Invocation
import ClassTranscript.Command.Run
import ClassTranscript.Command.World
import ClassTranscript.Diagnostic.Excerpt
import ClassTranscript.Diagnostic.Report
import ClassTranscript.Diagnostic.Window
import ClassTranscript.Files.Fault
import ClassTranscript.Files.Path
import ClassTranscript.Files.Tree
import ClassTranscript.Java.Declaration
import ClassTranscript.Java.Expression
import ClassTranscript.Java.Grammar
import ClassTranscript.Java.Literal
import ClassTranscript.Java.Statement
import ClassTranscript.Java.StringEscape
import ClassTranscript.Java.Token
import ClassTranscript.Java.TypeName
import ClassTranscript.Json
import ClassTranscript.Language
import ClassTranscript.Main
import ClassTranscript.Peg.CharClass
import ClassTranscript.Peg.Combinator
import ClassTranscript.Peg.Cursor
import ClassTranscript.Peg.Eval
import ClassTranscript.Peg.Expr
import ClassTranscript.Peg.Grammar
import ClassTranscript.Peg.LeadingCall
import ClassTranscript.Peg.Memo
import ClassTranscript.Peg.Nullable
import ClassTranscript.Peg.Op
import ClassTranscript.Peg.Outcome
import ClassTranscript.Peg.Parse
import ClassTranscript.Peg.State
import ClassTranscript.Peg.Trace
import ClassTranscript.Peg.Tree
import ClassTranscript.Proofs.Command.ClassFiles
import ClassTranscript.Proofs.Command.Conversion
import ClassTranscript.Proofs.Diagnostic.Location
import ClassTranscript.Proofs.Files.Path
import ClassTranscript.Proofs.Files.Tree
import ClassTranscript.Proofs.Java.Keywords
import ClassTranscript.Proofs.Java.Literal
import ClassTranscript.Proofs.Java.NodeStarts
import ClassTranscript.Proofs.Java.Omission
import ClassTranscript.Proofs.Java.Operand
import ClassTranscript.Proofs.Java.Operators
import ClassTranscript.Proofs.Java.Precedence
import ClassTranscript.Proofs.Java.Rules
import ClassTranscript.Proofs.Java.Significant
import ClassTranscript.Proofs.Java.Spacing
import ClassTranscript.Proofs.Java.StringEscape
import ClassTranscript.Proofs.Java.Word
import ClassTranscript.Proofs.Language.Chains
import ClassTranscript.Proofs.Language.Rules
import ClassTranscript.Proofs.Language.Words
import ClassTranscript.Proofs.Peg.Acceptance
import ClassTranscript.Proofs.Peg.Activation
import ClassTranscript.Proofs.Peg.Acyclic
import ClassTranscript.Proofs.Peg.Bound
import ClassTranscript.Proofs.Peg.Build
import ClassTranscript.Proofs.Peg.Builder
import ClassTranscript.Proofs.Peg.CallLog
import ClassTranscript.Proofs.Peg.Certificate
import ClassTranscript.Proofs.Peg.Corresponding
import ClassTranscript.Proofs.Peg.Cycle
import ClassTranscript.Proofs.Peg.Deciding
import ClassTranscript.Proofs.Peg.Demand
import ClassTranscript.Proofs.Peg.Derivation
import ClassTranscript.Proofs.Peg.DocumentOrder
import ClassTranscript.Proofs.Peg.Ends
import ClassTranscript.Proofs.Peg.Evaluation
import ClassTranscript.Proofs.Peg.Extension
import ClassTranscript.Proofs.Peg.Follow
import ClassTranscript.Proofs.Peg.Frontier
import ClassTranscript.Proofs.Peg.Growth
import ClassTranscript.Proofs.Peg.Inversion
import ClassTranscript.Proofs.Peg.JustWhere
import ClassTranscript.Proofs.Peg.Limited
import ClassTranscript.Proofs.Peg.LineEnds
import ClassTranscript.Proofs.Peg.Linking
import ClassTranscript.Proofs.Peg.Matching
import ClassTranscript.Proofs.Peg.Nullability
import ClassTranscript.Proofs.Peg.NullableRules
import ClassTranscript.Proofs.Peg.Offsets
import ClassTranscript.Proofs.Peg.Omission
import ClassTranscript.Proofs.Peg.Packrat
import ClassTranscript.Proofs.Peg.Parse
import ClassTranscript.Proofs.Peg.Parts
import ClassTranscript.Proofs.Peg.Position
import ClassTranscript.Proofs.Peg.Pruning
import ClassTranscript.Proofs.Peg.Remembered
import ClassTranscript.Proofs.Peg.Restoring
import ClassTranscript.Proofs.Peg.Run
import ClassTranscript.Proofs.Peg.Saving
import ClassTranscript.Proofs.Peg.Simulation
import ClassTranscript.Proofs.Peg.Taking
import ClassTranscript.Proofs.Peg.TakingLines
import ClassTranscript.Proofs.Peg.Termination
import ClassTranscript.Proofs.Peg.TraceRows
import ClassTranscript.Proofs.Peg.TreeShape
import ClassTranscript.Proofs.Peg.Unwinding
import ClassTranscript.Proofs.Peg.Written.CharClass
import ClassTranscript.Proofs.Peg.Written.Reader
import ClassTranscript.Proofs.Peg.Written.Token
import ClassTranscript.Proofs.Success
import ClassTranscript.Proofs.Text.Decimal
import ClassTranscript.Proofs.Text.Escape
import ClassTranscript.Proofs.Text.LineEnds
import ClassTranscript.Proofs.Text.LineSearch
import ClassTranscript.Proofs.Text.Lines
import ClassTranscript.Proofs.Text.Numeral
import ClassTranscript.Proofs.Text.Partition
import ClassTranscript.Proofs.Text.Positions
import ClassTranscript.Proofs.Text.Slice
import ClassTranscript.Proofs.Text.Utf8
import ClassTranscript.Proofs.Text.Utf8Order
import ClassTranscript.Proofs.Transcript.BlankLines
import ClassTranscript.Proofs.Transcript.Build
import ClassTranscript.Proofs.Transcript.Extension
import ClassTranscript.Proofs.Transcript.LineEnds
import ClassTranscript.Proofs.Transcript.Listing.Class
import ClassTranscript.Proofs.Transcript.Listing.Data
import ClassTranscript.Proofs.Transcript.Listing.Member
import ClassTranscript.Proofs.Transcript.Listing.Name
import ClassTranscript.Proofs.Transcript.Listing.RoundTrip
import ClassTranscript.Proofs.Transcript.Listing.Signature
import ClassTranscript.Proofs.Transcript.Listing.Table
import ClassTranscript.Proofs.Transcript.Listing.Token
import ClassTranscript.Proofs.Transcript.Listing.Type
import ClassTranscript.Proofs.Transcript.Nodes
import ClassTranscript.Proofs.Transcript.Numerals
import ClassTranscript.Proofs.Transcript.Omission
import ClassTranscript.Proofs.Transcript.Projection
import ClassTranscript.Proofs.Transcript.Reading
import ClassTranscript.Proofs.Transcript.Rows
import ClassTranscript.Proofs.Transcript.SpacedWords
import ClassTranscript.Proofs.Transcript.Spreading
import ClassTranscript.Proofs.Transcript.StringLiterals
import ClassTranscript.Proofs.Transcript.TableEnds
import ClassTranscript.Proofs.Transcript.Tables
import ClassTranscript.Proofs.Transcript.TypeRules
import ClassTranscript.Text.Alphabetic
import ClassTranscript.Text.Blank
import ClassTranscript.Text.CodePoints
import ClassTranscript.Text.Escape
import ClassTranscript.Text.Extender
import ClassTranscript.Text.Lines
import ClassTranscript.Text.Numeral
import ClassTranscript.Text.Numeric
import ClassTranscript.Text.Palette
import ClassTranscript.Text.Pieces
import ClassTranscript.Text.Quoted
import ClassTranscript.Text.Shown
import ClassTranscript.Text.Span
import ClassTranscript.Text.Unprintable
import ClassTranscript.Text.Utf8
import ClassTranscript.Text.Width
import ClassTranscript.Transcript.Grammar
import ClassTranscript.Transcript.Projection
import ClassTranscript.Transcript.Reading
import ClassTranscript.Transcript.Record
