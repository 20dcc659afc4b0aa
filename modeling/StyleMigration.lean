import StyleMigration.Command.Batch
import StyleMigration.Command.Pattern
import StyleMigration.Command.Programs
import StyleMigration.Command.Shell.Arithmetic
import StyleMigration.Command.Shell.Field
import StyleMigration.Command.Shell.Lexeme
import StyleMigration.Command.Shell.Process
import StyleMigration.Command.Shell.Reader
import StyleMigration.Command.Shell.Run
import StyleMigration.Command.Shell.Script
import StyleMigration.Command.Shell.Signal
import StyleMigration.Command.Shell.Word
import StyleMigration.Command.Utility.Basic
import StyleMigration.Command.Utility.Condition
import StyleMigration.Command.Utility.Edit
import StyleMigration.Command.Utility.Expr
import StyleMigration.Command.Utility.FileWork
import StyleMigration.Command.Utility.Filter
import StyleMigration.Command.Utility.Print
import StyleMigration.Command.Utility.Regex
import StyleMigration.Command.Utility.Table
import StyleMigration.CommandLine
import StyleMigration.Component.Section
import StyleMigration.Component.Staging
import StyleMigration.Failure
import StyleMigration.Files.Discovery
import StyleMigration.Files.Tree
import StyleMigration.Language
import StyleMigration.Main
import StyleMigration.Markup.Character
import StyleMigration.Markup.Document
import StyleMigration.Markup.Reader
import StyleMigration.Markup.Repair.Grammar
import StyleMigration.Markup.Repair.Place
import StyleMigration.Markup.Repair.Run
import StyleMigration.Markup.Repair.Scan
import StyleMigration.Markup.Repair.Stack
import StyleMigration.Markup.Repair.Symbol
import StyleMigration.Markup.Repair.Tree
import StyleMigration.Markup.Repair.View
import StyleMigration.Markup.Tag
import StyleMigration.Markup.Token
import StyleMigration.Markup.Wellformed
import StyleMigration.Migration
import StyleMigration.Path
import StyleMigration.Proofs.Command.Batch
import StyleMigration.Proofs.Component.Extraction
import StyleMigration.Proofs.Component.Recording
import StyleMigration.Proofs.Component.Refill
import StyleMigration.Proofs.Component.Staging
import StyleMigration.Proofs.Component.StagingName
import StyleMigration.Proofs.Component.Substitution
import StyleMigration.Proofs.Component.Written
import StyleMigration.Proofs.Files.Change
import StyleMigration.Proofs.Files.Discovery
import StyleMigration.Proofs.Files.Lookup
import StyleMigration.Proofs.Files.Paths
import StyleMigration.Proofs.Files.Search
import StyleMigration.Proofs.Files.Sites
import StyleMigration.Proofs.Markup.Comment
import StyleMigration.Proofs.Markup.Levels
import StyleMigration.Proofs.Markup.Locality
import StyleMigration.Proofs.Markup.StartTag
import StyleMigration.Proofs.Markup.Written
import StyleMigration.Proofs.Migration.Aftermath
import StyleMigration.Proofs.Migration.Cleanup
import StyleMigration.Proofs.Migration.Outcome
import StyleMigration.Proofs.Migration.Phases
import StyleMigration.Proofs.Migration.Scene
import StyleMigration.Proofs.Migration.StagingArea
import StyleMigration.Proofs.Migration.Steps
import StyleMigration.Proofs.Migration.Trail
import StyleMigration.Proofs.Selector.Appending
import StyleMigration.Proofs.Selector.Combinators
import StyleMigration.Proofs.Selector.Comments
import StyleMigration.Proofs.Selector.Cuts
import StyleMigration.Proofs.Selector.Deep
import StyleMigration.Proofs.Selector.Escapes
import StyleMigration.Proofs.Selector.Exchange
import StyleMigration.Proofs.Selector.Grammar
import StyleMigration.Proofs.Selector.Locality
import StyleMigration.Proofs.Selector.Lossless
import StyleMigration.Proofs.Selector.Plain
import StyleMigration.Proofs.Selector.Recovery
import StyleMigration.Proofs.Selector.Rereading
import StyleMigration.Proofs.Selector.Respelling
import StyleMigration.Proofs.Selector.Stability
import StyleMigration.Proofs.Selector.Table
import StyleMigration.Proofs.Selector.TableEdits
import StyleMigration.Proofs.Selector.TableHoist
import StyleMigration.Proofs.Selector.TableLinks
import StyleMigration.Proofs.Selector.TableModern
import StyleMigration.Proofs.Selector.TableReading
import StyleMigration.Proofs.Selector.TableText
import StyleMigration.Proofs.Selector.TableTree
import StyleMigration.Proofs.Selector.Weight
import StyleMigration.Proofs.Sheet.Agreement
import StyleMigration.Proofs.Sheet.BraceGrammar
import StyleMigration.Proofs.Sheet.BranchPolicy
import StyleMigration.Proofs.Sheet.Canonical
import StyleMigration.Proofs.Sheet.Compositional
import StyleMigration.Proofs.Sheet.Concatenation
import StyleMigration.Proofs.Sheet.Forest
import StyleMigration.Proofs.Sheet.Indentation
import StyleMigration.Proofs.Sheet.Locality
import StyleMigration.Proofs.Sheet.Lossless
import StyleMigration.Proofs.Sheet.Nesting
import StyleMigration.Proofs.Sheet.Readback
import StyleMigration.Proofs.Sheet.Untouched
import StyleMigration.Proofs.Splice
import StyleMigration.Proofs.Splice.Refusal
import StyleMigration.Proofs.Walk.Access
import StyleMigration.Proofs.Walk.Braces
import StyleMigration.Proofs.Walk.Lines
import StyleMigration.Proofs.Walk.Safety
import StyleMigration.Proofs.Walk.Selectors
import StyleMigration.Proofs.Walk.Spans
import StyleMigration.Proofs.Walk.Statements
import StyleMigration.Selector.Basic
import StyleMigration.Selector.Deep
import StyleMigration.Selector.Reader
import StyleMigration.Selector.Span
import StyleMigration.Selector.Table
import StyleMigration.Settings
import StyleMigration.Sheet.Basic
import StyleMigration.Sheet.Braces
import StyleMigration.Sheet.File
import StyleMigration.Sheet.Header
import StyleMigration.Sheet.Indentation
import StyleMigration.Sheet.Migration
import StyleMigration.Sheet.Path
import StyleMigration.Sheet.Reader
import StyleMigration.Splice
import StyleMigration.Text.Blank
import StyleMigration.Text.Bytes
import StyleMigration.Text.Octets
import StyleMigration.Toml.Reader
import StyleMigration.Toml.Scalar
import StyleMigration.Toml.Value
