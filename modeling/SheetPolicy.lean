import SheetPolicy.Command.Arguments
import SheetPolicy.Command.Check
import SheetPolicy.Command.Init
import SheetPolicy.Command.Lookup
import SheetPolicy.Command.RuleList
import SheetPolicy.Command.Run
import SheetPolicy.Command.World
import SheetPolicy.Config
import SheetPolicy.Decimal.Binary64
import SheetPolicy.Decimal.Reader
import SheetPolicy.Decimal.Shortest
import SheetPolicy.Files.Glob
import SheetPolicy.Files.Path
import SheetPolicy.Files.Search
import SheetPolicy.Files.Tree
import SheetPolicy.Linter
import SheetPolicy.Main
import SheetPolicy.Options.Basic
import SheetPolicy.Options.Form
import SheetPolicy.Options.WordList
import SheetPolicy.Pattern.CharSet
import SheetPolicy.Pattern.Reader
import SheetPolicy.Pattern.Regex
import SheetPolicy.Proofs.Located
import SheetPolicy.Report.Directive
import SheetPolicy.Report.Finding
import SheetPolicy.Report.Format
import SheetPolicy.Report.Json
import SheetPolicy.Report.Severity
import SheetPolicy.Report.Violation
import SheetPolicy.Rule.Basic
import SheetPolicy.Rule.FontWeight
import SheetPolicy.Rule.Preset
import SheetPolicy.Rule.PseudoClass
import SheetPolicy.Rule.RangeOperator
import SheetPolicy.Rule.SingleLine
import SheetPolicy.Selector.Component
import SheetPolicy.Selector.Event
import SheetPolicy.Sheet.Event
import SheetPolicy.Sheet.Excerpt
import SheetPolicy.Sheet.Lexeme
import SheetPolicy.Sheet.Node
import SheetPolicy.Sheet.ParseError
import SheetPolicy.Sheet.Prelude
import SheetPolicy.Text.Blank
import SheetPolicy.Text.CaseFold
import SheetPolicy.Text.Digits
import SheetPolicy.Text.Located
import SheetPolicy.Text.Position
import SheetPolicy.Text.Scanner
import SheetPolicy.Text.Vendor
import SheetPolicy.Text.WordChar
import SheetPolicy.Toml.Datetime
import SheetPolicy.Toml.Draft
import SheetPolicy.Toml.Reader
import SheetPolicy.Toml.Value
import SheetPolicy.Toml.Writer
import SheetPolicy.Value.Dialect
import SheetPolicy.Value.Keywords
import SheetPolicy.Value.Number
import SheetPolicy.Value.Part
import SheetPolicy.Proofs.Excerpt
import SheetPolicy.Proofs.Reading
import SheetPolicy.Proofs.Statement
import SheetPolicy.Proofs.Units
import SheetPolicy.Proofs.Takes
import SheetPolicy.Proofs.Move
import SheetPolicy.Proofs.Locality
import SheetPolicy.Proofs.Outline
import SheetPolicy.Proofs.Division
import SheetPolicy.Proofs.Layout
import SheetPolicy.Proofs.Position
import SheetPolicy.Proofs.PseudoScan
import SheetPolicy.Proofs.Diagnostic
import SheetPolicy.Proofs.Retouch
import SheetPolicy.Proofs.Unmarking
import SheetPolicy.Proofs.Allowance
import SheetPolicy.Proofs.Filling
import SheetPolicy.Proofs.Joining
import SheetPolicy.Proofs.OptionGate
import SheetPolicy.Proofs.Sorting
import SheetPolicy.Proofs.Independence
import SheetPolicy.Proofs.ReportOrder
import SheetPolicy.Proofs.Insertion
import SheetPolicy.Proofs.Transparency
import SheetPolicy.Proofs.SourceOrder
import SheetPolicy.Proofs.Grading
import SheetPolicy.Proofs.RelativePath
import SheetPolicy.Proofs.Isolation
import SheetPolicy.Proofs.SheetFailure
import SheetPolicy.Proofs.SelectorFailure
import SheetPolicy.Proofs.Registration
import SheetPolicy.Proofs.Shorthand
import SheetPolicy.Proofs.Cursor.Access
import SheetPolicy.Proofs.Cursor.Lexeme
import SheetPolicy.Proofs.Cursor.Clip
import SheetPolicy.Proofs.Cursor.Sheet
import SheetPolicy.Proofs.Cursor.Unit
import SheetPolicy.Proofs.Cursor.Selector
import SheetPolicy.Proofs.IgnoredValue
import SheetPolicy.Proofs.Parts
import SheetPolicy.Proofs.Operators
import SheetPolicy.Proofs.SelectorScan
import SheetPolicy.Proofs.SelectorPrint
import SheetPolicy.Proofs.LineTable
import SheetPolicy.Proofs.Coverage
import SheetPolicy.Proofs.Precedence
import SheetPolicy.Proofs.TableOrder
import SheetPolicy.Proofs.Layering
import SheetPolicy.Proofs.PlainText
import SheetPolicy.Proofs.NumberGrammar
import SheetPolicy.Proofs.DirectiveGrammar
import SheetPolicy.Proofs.OneLine
import SheetPolicy.Proofs.Tokenization
