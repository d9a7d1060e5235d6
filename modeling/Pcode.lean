import Pcode.Byte.Adler
import Pcode.Byte.BigEndian
import Pcode.Byte.Hex
import Pcode.Byte.Sha256
import Pcode.Byte.Utf8
import Pcode.Bytecode
import Pcode.Command.Convert
import Pcode.Command.Format
import Pcode.Container
import Pcode.Convert
import Pcode.Data.Read
import Pcode.Data.Value
import Pcode.Data.Write
import Pcode.Decimal.Binary
import Pcode.Decimal.Read
import Pcode.Decimal.Text
import Pcode.Files.Basic
import Pcode.Files.Path
import Pcode.Indent.Document
import Pcode.Indent.Line
import Pcode.Indent.Setting
import Pcode.Indent.State
import Pcode.Indent.Statement
import Pcode.Main
import Pcode.NameTable
import Pcode.Packaging.Bundle
import Pcode.Packaging.CommandLine
import Pcode.Packaging.Installer
import Pcode.Packaging.Site
import Pcode.Sample
import Pcode.Scramble
import Pcode.Shell
import Pcode.Spacing.Cut
import Pcode.Spacing.Literal
import Pcode.Spacing.Probe
import Pcode.Spacing.Rules
import Pcode.Spacing.Tree
import Pcode.Survey.Bench
import Pcode.Survey.Coverage
import Pcode.Survey.Fingerprint
import Pcode.Survey.Plateau
import Pcode.Survey.Report
import Pcode.Survey.Round
import Pcode.Survey.Runner
import Pcode.Survey.SelfCheck
import Pcode.Survey.Share
import Pcode.Text.Blank
import Pcode.Text.Digit
import Pcode.Text.Line
import Pcode.Text.Pad
import Pcode.Text.Printable
import Pcode.Text.Quoted
import Pcode.Text.Ranges
import Pcode.Text.Word
import Pcode.Window
import Pcode.Workload
import Pcode.Zlib.Code
import Pcode.Zlib.Inflate
import Pcode.Zlib.Store
import Pcode.Proofs.Byte.Utf8
import Pcode.Proofs.NameTable
import Pcode.Proofs.Scramble
import Pcode.Proofs.Bytecode
import Pcode.Proofs.Container
import Pcode.Proofs.Convert.Reading
import Pcode.Proofs.Spacing.Respaced
import Pcode.Proofs.Indent.Statement
import Pcode.Proofs.Indent.Line
import Pcode.Proofs.Indent.Document
import Pcode.Proofs.Convert.Outcome
import Pcode.Proofs.Indent.Blocks
import Pcode.Proofs.Convert.Sequence
import Pcode.Proofs.Bytecode.Words
import Pcode.Proofs.Files.Path
import Pcode.Proofs.Window
import Pcode.Proofs.Indent.Bare
import Pcode.Proofs.Indent.Nesting
import Pcode.Proofs.Spacing.Trailing.Tree
import Pcode.Proofs.Indent.LineEnd
import Pcode.Proofs.Command.Format
import Pcode.Proofs.Bytecode.References
import Pcode.Proofs.Indent.Leftover
import Pcode.Proofs.Indent.Level
import Pcode.Proofs.Indent.BrokenHead
import Pcode.Proofs.Indent.Siblings
import Pcode.Proofs.Spacing.Literals
import Pcode.Proofs.Text.Gap
import Pcode.Proofs.Text.Place
import Pcode.Proofs.Spacing.Gap.Probe
import Pcode.Proofs.Spacing.Gap.Tree
import Pcode.Proofs.Spacing.Gap.Lost
import Pcode.Proofs.Spacing.Sign.Probe
import Pcode.Proofs.Spacing.Sign.Tree
import Pcode.Proofs.Spacing.Sign.Lost
import Pcode.Proofs.Scramble.Words
import Pcode.Proofs.NameTable.Places
import Pcode.Proofs.Indent.BlockComment
import Pcode.Proofs.Spacing.Quoted
import Pcode.Proofs.Indent.Brackets
import Pcode.Proofs.Spacing.Tight
import Pcode.Proofs.Indent.Layout
import Pcode.Proofs.Spacing.View
import Pcode.Proofs.Spacing.Step
import Pcode.Proofs.Spacing.Keep
import Pcode.Proofs.Spacing.Alike
import Pcode.Proofs.Spacing.Bracket
import Pcode.Proofs.Spacing.Twice
import Pcode.Proofs.Indent.Reading
import Pcode.Proofs.Indent.Orderly
import Pcode.Proofs.Indent.Twice
import Pcode.Proofs.Survey.Plateau
import Pcode.Proofs.Indent.Mode
import Pcode.Proofs.Command.Mode
import Pcode.Proofs.Spacing.Descent
