import TypeSchema.Definition.Parameters
import TypeSchema.Definition.Printer
import TypeSchema.Load
import TypeSchema.Proofs.Grammar
import TypeSchema.Proofs.Grammar.Takes
import TypeSchema.Proofs.Cursor.Tokens
import TypeSchema.Proofs.Read.Outcome
import TypeSchema.Proofs.Read.Layout
import TypeSchema.Proofs.Meaning
import TypeSchema.Proofs.Scope.Known
import TypeSchema.Proofs.Token.Spelling
import TypeSchema.Proofs.Read.Definition
import TypeSchema.Proofs.Reader
import TypeSchema.Proofs.Library
import TypeSchema.Proofs.Read.Advance
import TypeSchema.Proofs.References
import TypeSchema.Proofs.Reader.Calls
import TypeSchema.Proofs.Token.Printed
import TypeSchema.Proofs.Unplaced
import TypeSchema.Proofs.Written.Layout
import TypeSchema.Proofs.Written.TypeExpr
import TypeSchema.Proofs.Written.Definition
import TypeSchema.Proofs.Written.Library
import TypeSchema.Proofs.Reader.Symbols
import TypeSchema.Proofs.Read.Blame
import TypeSchema.Proofs.Token.Place
import TypeSchema.Proofs.Reader.Faults
import TypeSchema.Proofs.Token.Append
import TypeSchema.Proofs.Reader.Append
import TypeSchema.Proofs.Grammar.Order
import TypeSchema.Proofs.Members
import TypeSchema.Proofs.Larger
import TypeSchema.Proofs.Grammar.Relaid
import TypeSchema.Proofs.Token.Edited
import TypeSchema.Proofs.Reader.Edited
import TypeSchema.Proofs.Token.Form
import TypeSchema.Proofs.Loading
import TypeSchema.Proofs.Reader.Invalid
import TypeSchema.Proofs.Normal
import TypeSchema.Proofs.Culprit
import TypeSchema.Proofs.Source.Line
import TypeSchema.Proofs.Read.Progress
import TypeSchema.Proofs.Reader.Progress
import TypeSchema.Proofs.Grammar.Numbers
import TypeSchema.Proofs.Read.Overflow
import TypeSchema.Proofs.Reader.Numbers
import TypeSchema.Proofs.Parameters
import TypeSchema.Proofs.Labels
import TypeSchema.Proofs.Terminal.Report
import TypeSchema.Proofs.Cursor.Operations
import TypeSchema.Proofs.Reader.Lines
import TypeSchema.Proofs.Terminal.Colors
import TypeSchema.Proofs.Terminal.Columns
import TypeSchema.Proofs.Table
import TypeSchema.Proofs.Cursor.BlankLines
