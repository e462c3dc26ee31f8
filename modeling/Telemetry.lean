import Telemetry.Analysis
import Telemetry.Call.Argument
import Telemetry.Call.Basic
import Telemetry.Call.Scope
import Telemetry.Catalog
import Telemetry.Command.Arguments
import Telemetry.Command.Init
import Telemetry.Command.Line
import Telemetry.Command.Outcome
import Telemetry.Command.Program
import Telemetry.Command.Scan
import Telemetry.Config.Basic
import Telemetry.Config.Reading
import Telemetry.Entry
import Telemetry.FileTree.Basic
import Telemetry.FileTree.Walk
import Telemetry.Glob.Match
import Telemetry.Glob.Pattern
import Telemetry.Main
import Telemetry.Path
import Telemetry.Proofs.Analysis
import Telemetry.Proofs.Call.Blocks
import Telemetry.Proofs.Call.Comments
import Telemetry.Proofs.Call.Implicit
import Telemetry.Proofs.Call.Phrases
import Telemetry.Proofs.Call.Sites
import Telemetry.Proofs.Catalog.Aggregation
import Telemetry.Proofs.Path
import Telemetry.Proofs.Receiver
import Telemetry.Proofs.Report.Csv
import Telemetry.Proofs.Search
import Telemetry.Proofs.Sorting
import Telemetry.Proofs.Source.Agreement
import Telemetry.Proofs.Source.Arguments
import Telemetry.Proofs.Source.Balance
import Telemetry.Proofs.Source.Braces
import Telemetry.Proofs.Source.Characters
import Telemetry.Proofs.Source.Comments
import Telemetry.Proofs.Source.Coverage
import Telemetry.Proofs.Source.Lexing
import Telemetry.Proofs.Source.Nesting
import Telemetry.Proofs.Source.Resynchronisation
import Telemetry.Proofs.Template.Expansion
import Telemetry.Proofs.Template.Recursion
import Telemetry.Proofs.Template.Soundness
import Telemetry.Proofs.Template.Steps
import Telemetry.Proofs.Template.Tokens
import Telemetry.Proofs.Text.Bytes
import Telemetry.Proofs.Text.Decoding
import Telemetry.Proofs.Text.Occurrences
import Telemetry.Proofs.Text.Reading
import Telemetry.Receiver
import Telemetry.Report.Csv
import Telemetry.Report.Format
import Telemetry.Report.Json
import Telemetry.Report.Pretty
import Telemetry.Report.Style
import Telemetry.Report.Version
import Telemetry.Search
import Telemetry.Source.Coverage
import Telemetry.Source.Delimiters
import Telemetry.Source.Lexeme
import Telemetry.Source.Phrase
import Telemetry.Survey
import Telemetry.Symbol.Declaration
import Telemetry.Symbol.Table
import Telemetry.Template.Piece
import Telemetry.Template.Resolution
import Telemetry.Text.Alphanumeric
import Telemetry.Text.Blank
import Telemetry.Text.CharClass
import Telemetry.Text.Digit
import Telemetry.Text.Identifier
import Telemetry.Text.Occurrence
import Telemetry.Text.Quoted
import Telemetry.Text.Search
import Telemetry.Text.Slice
import Telemetry.Text.Utf8
import Telemetry.Text.Word
import Telemetry.ValueType
import Telemetry.Yaml.Cursor
import Telemetry.Yaml.Document
import Telemetry.Yaml.Fault
import Telemetry.Yaml.Property
import Telemetry.Yaml.Scalar
import Telemetry.Yaml.Token
import Telemetry.Yaml.Token.Lexer
import Telemetry.Proofs.Symbol.Overrides
import Telemetry.Proofs.Config.Overrides
import Telemetry.Proofs.Survey
import Telemetry.Proofs.Catalog.OpenNames
import Telemetry.Proofs.Command.Ending
import Telemetry.Proofs.Source.Erasure
import Telemetry.Proofs.Template.Literals
import Telemetry.Proofs.Template.Locality
import Telemetry.Proofs.Template.History
import Telemetry.Proofs.Template.Size
import Telemetry.Proofs.Source.Endings
import Telemetry.Proofs.Symbol.Declarations
import Telemetry.Proofs.NameSize
import Telemetry.Proofs.Template.Remembered
import Telemetry.Proofs.Template.Order
import Telemetry.Proofs.Call.Union
import Telemetry.Proofs.ValueType.Arrays
import Telemetry.Proofs.Catalog.Rows
import Telemetry.Proofs.Source.Lines
import Telemetry.Proofs.Symbol.Lines
import Telemetry.Proofs.Receiver.Aliases
import Telemetry.Proofs.Report.Json.Document
import Telemetry.Proofs.FileTree.Writing
import Telemetry.Proofs.Command.Output
import Telemetry.Proofs.FileTree.Walk
