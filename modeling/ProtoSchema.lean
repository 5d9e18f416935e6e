import ProtoSchema.Text.Position
import ProtoSchema.Text.LineTable
import ProtoSchema.Number.Binary64
import ProtoSchema.Number.Decimal
import ProtoSchema.Number.Shortest
import ProtoSchema.Token.Basic
import ProtoSchema.Token.Numeral
import ProtoSchema.Token.Scan
import ProtoSchema.Schema.Basic
import ProtoSchema.Schema.Map
import ProtoSchema.Schema.Node
import ProtoSchema.Print.Quote
import ProtoSchema.Print.Text
import ProtoSchema.Print.Printer
import ProtoSchema.Parse.Error
import ProtoSchema.Parse.Rule
import ProtoSchema.Parse.Grammar
import ProtoSchema.Parse.Document
import ProtoSchema.Proofs.Text.Bytes
import ProtoSchema.Proofs.Token.Enclosed
import ProtoSchema.Proofs.Token.Genuine
import ProtoSchema.Proofs.Token.Lossless
import ProtoSchema.Proofs.Token.Division
import ProtoSchema.Proofs.Token.Joining
import ProtoSchema.Proofs.Schema.Notes
import ProtoSchema.Proofs.Schema.Parts
import ProtoSchema.Proofs.Schema.Renaming
import ProtoSchema.Proofs.Grammar.Phrase
import ProtoSchema.Proofs.Grammar.Derivation
import ProtoSchema.Proofs.Grammar.Reading
import ProtoSchema.Proofs.Grammar.Choosing
import ProtoSchema.Proofs.Grammar.Sentence
import ProtoSchema.Proofs.Grammar.Soundness.Statement
import ProtoSchema.Proofs.Grammar.Soundness.Schema
import ProtoSchema.Proofs.Grammar.Elsewhere
import ProtoSchema.Proofs.Grammar.Soundness.Parse
import ProtoSchema.Proofs.Grammar.Signs
import ProtoSchema.Proofs.Grammar.Layout
import ProtoSchema.Proofs.Grammar.Occurrence
import ProtoSchema.Proofs.Grammar.Bodies
import ProtoSchema.Proofs.Grammar.Placement
import ProtoSchema.Proofs.Grammar.Coverage
import ProtoSchema.Proofs.Token.Scans
import ProtoSchema.Proofs.Token.Numeral
import ProtoSchema.Proofs.Token.Lexeme
import ProtoSchema.Proofs.Number.Digits
import ProtoSchema.Proofs.Number.Nearest
import ProtoSchema.Proofs.Number.Written
import ProtoSchema.Proofs.Grammar.Completeness.Accepting
import ProtoSchema.Proofs.Grammar.Completeness.Statement
import ProtoSchema.Proofs.Grammar.Completeness.Schema
import ProtoSchema.Proofs.Print.Writing
import ProtoSchema.Proofs.Print.Statement
import ProtoSchema.Proofs.Grammar.Completeness.Parse
import ProtoSchema.Proofs.Grammar.Joining
import ProtoSchema.Proofs.Grammar.Renaming
import ProtoSchema.Proofs.Grammar.Nesting
import ProtoSchema.Proofs.Grammar.Excerpt
import ProtoSchema.Proofs.Grammar.Padding
import ProtoSchema.Proofs.Print.Schema
import ProtoSchema.Proofs.Print.RoundTrip
import ProtoSchema.Proofs.Grammar.WellFormed
import ProtoSchema.Proofs.Schema.WellFormed
import ProtoSchema.Proofs.Grammar.Breaking
import ProtoSchema.Proofs.Grammar.Charges
import ProtoSchema.Proofs.Grammar.Filtering
import ProtoSchema.Proofs.Grammar.Unmet
import ProtoSchema.Proofs.Grammar.Stricter
import ProtoSchema.Proofs.Grammar.Promptness.Prompt
import ProtoSchema.Proofs.Grammar.Promptness.Statement
import ProtoSchema.Proofs.Grammar.Promptness.Schema
import ProtoSchema.Proofs.Grammar.Promptness.Parse
import ProtoSchema.Proofs.Grammar.Progress
import ProtoSchema.Proofs.Grammar.Legible
import ProtoSchema.Proofs.Grammar.Foresight
import ProtoSchema.Proofs.Grammar.Stepping
import ProtoSchema.Proofs.Grammar.Blame
import ProtoSchema.Proofs.Grammar.Bounds
import ProtoSchema.Proofs.Grammar.Lookahead
import ProtoSchema.Proofs.Token.Lexical
import ProtoSchema.Proofs.Token.Longest
import ProtoSchema.Proofs.Token.Lexing
import ProtoSchema.Proofs.Token.Lexed
import ProtoSchema.Proofs.Token.Bytewise
import ProtoSchema.Proofs.Token.Faults
import ProtoSchema.Proofs.Grammar.Dotted
import ProtoSchema.Proofs.Grammar.Lone
import ProtoSchema.Proofs.Schema.Sayable
import ProtoSchema.Proofs.Print.Handmade
import ProtoSchema.Proofs.Grammar.Failing
import ProtoSchema.Proofs.Grammar.Fields
import ProtoSchema.Proofs.Token.Spelling
import ProtoSchema.Proofs.Grammar.Gaps
import ProtoSchema.Proofs.Grammar.Closing
import ProtoSchema.Proofs.Grammar.Filling
import ProtoSchema.Proofs.Grammar.Overflowing
import ProtoSchema.Proofs.Grammar.Integers
import ProtoSchema.Proofs.Text.Lines
import ProtoSchema.Proofs.Print.Quoting
import ProtoSchema.Proofs.Print.OneLine
import ProtoSchema.Proofs.Print.Composition
import ProtoSchema.Proofs.Grammar.Assigning
import ProtoSchema.Proofs.Grammar.Constants
