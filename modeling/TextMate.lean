import TextMate.CommandLine.Arguments
import TextMate.CommandLine.FileTree
import TextMate.CommandLine.Plan
import TextMate.CommandLine.Style
import TextMate.Document.Compile
import TextMate.Document.Event
import TextMate.Document.Step
import TextMate.Error
import TextMate.Grammar
import TextMate.Journal
import TextMate.Json.Writer
import TextMate.Lumen.Grammar
import TextMate.Lumen.Lexeme
import TextMate.Main
import TextMate.Numeral
import TextMate.Pattern.Basic
import TextMate.Pattern.CharClass
import TextMate.Pattern.Checked
import TextMate.Pattern.Regex
import TextMate.Repository
import TextMate.Rule
import TextMate.Sink
import TextMate.Proofs.Json.Grammar
import TextMate.Proofs.Json.Parser
import TextMate.Proofs.Json.Writing
import TextMate.Proofs.Pattern.Text
import TextMate.Proofs.Document.Steps
import TextMate.Proofs.Document.Tree
import TextMate.Proofs.Document.Placement
import TextMate.Proofs.Regex.Parser
import TextMate.Proofs.Pattern.Constructible
import TextMate.Proofs.Pattern.Leaves
import TextMate.Proofs.Regex.Shape
import TextMate.Proofs.Regex.Emission
import TextMate.Proofs.Regex.Matching
import TextMate.Proofs.Document.Parts
import TextMate.Proofs.Repository.Runs
import TextMate.Proofs.Document.Places
import TextMate.Proofs.Document.Extraction
import TextMate.Proofs.Document.Safety
import TextMate.Proofs.Pattern.Nodes
import TextMate.Proofs.Pattern.Repeats
import TextMate.Proofs.Regex.Merging
import TextMate.Proofs.Document.Keys
import TextMate.Proofs.Repository.Mapping
import TextMate.Proofs.Document.Renaming
import TextMate.Proofs.Document.Identity
import TextMate.Proofs.Document.Refreshing
import TextMate.Proofs.Document.Separation
import TextMate.Proofs.Document.Streaming
import TextMate.Proofs.Json.Dictation
import TextMate.Proofs.Json.Commas
import TextMate.Proofs.Regex.Groups
import TextMate.Proofs.Repository.Registration
import TextMate.Proofs.Numeral
import TextMate.Proofs.Repository.Generation
import TextMate.Proofs.Pattern.Flattening
import TextMate.Proofs.Regex.Spans
import TextMate.Proofs.Regex.Languages
import TextMate.Proofs.Lumen.Words
import TextMate.Proofs.Lumen.Numbers
import TextMate.Proofs.Document.Journal
import TextMate.Proofs.Pattern.SharedBracket
import TextMate.Proofs.Repository.Names
