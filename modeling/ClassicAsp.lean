import ClassicAsp.Text
import ClassicAsp.Text.Alphanumeric
import ClassicAsp.Text.Escaped
import ClassicAsp.Text.Utf8
import ClassicAsp.Vocabulary
import ClassicAsp.Number
import ClassicAsp.DateLiteral
import ClassicAsp.Lexeme
import ClassicAsp.Lexeme.Literal
import ClassicAsp.Lexeme.Source
import ClassicAsp.Include
import ClassicAsp.Token
import ClassicAsp.TokenStream
import ClassicAsp.Layout
import ClassicAsp.Format
import ClassicAsp.Lint
import ClassicAsp.FileTree
import ClassicAsp.CommandLine
import ClassicAsp.Main
import ClassicAsp.Proofs.Number.Decimal
import ClassicAsp.Proofs.Number.Binary64
import ClassicAsp.Proofs.Text
import ClassicAsp.Proofs.Vocabulary
import ClassicAsp.Proofs.DateLiteral
import ClassicAsp.Proofs.Include
import ClassicAsp.Proofs.Number.Integer
import ClassicAsp.Proofs.Lexeme.Literal
import ClassicAsp.Proofs.Lexeme.Source
import ClassicAsp.Proofs.Token
import ClassicAsp.Proofs.Stream
import ClassicAsp.Proofs.Reading
import ClassicAsp.Proofs.Transcript
import ClassicAsp.Proofs.Layout
import ClassicAsp.Proofs.Preservation
import ClassicAsp.Proofs.Rewriting
import ClassicAsp.Proofs.Gluing
import ClassicAsp.Proofs.Remark
import ClassicAsp.Proofs.Page
import ClassicAsp.Proofs.Lexeme.Slice
import ClassicAsp.Proofs.Drawing
import ClassicAsp.Proofs.LineNumber
import ClassicAsp.Proofs.WellFormed
import ClassicAsp.Proofs.Depth
import ClassicAsp.Proofs.Indentation
import ClassicAsp.Proofs.Delivery
import ClassicAsp.Proofs.Batch
import ClassicAsp.Proofs.Coherence
import ClassicAsp.Proofs.Delimiters
import ClassicAsp.Proofs.Continuation
import ClassicAsp.Proofs.Emission
import ClassicAsp.Proofs.LineKeeping
import ClassicAsp.Proofs.LetterCase.Character
import ClassicAsp.Proofs.LetterCase.Literal
import ClassicAsp.Proofs.LetterCase.Source
import ClassicAsp.Proofs.LetterCase.Token
import ClassicAsp.Proofs.LetterCase.Stream
import ClassicAsp.Proofs.LetterCase.Page
import ClassicAsp.Proofs.Include.Division
import ClassicAsp.Proofs.Quotation
import ClassicAsp.Proofs.Numeral
import ClassicAsp.Proofs.Findings
import ClassicAsp.Proofs.Reports
import ClassicAsp.Proofs.Number.Rounding
import ClassicAsp.Proofs.Float
import ClassicAsp.Proofs.Progress
import ClassicAsp.Proofs.Underscore
import ClassicAsp.Proofs.FilePath
import ClassicAsp.Proofs.FileTree
