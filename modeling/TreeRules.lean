import TreeRules.Text.Slice
import TreeRules.Text.Utf8
import TreeRules.Text.Tabs
import TreeRules.Text.Blank
import TreeRules.Text.Word
import TreeRules.Text.Printable
import TreeRules.Text.Digit
import TreeRules.Text.LetterCase
import TreeRules.Text.Quoted
import TreeRules.Number.Real64
import TreeRules.Value.Basic
import TreeRules.Value.Shown
import TreeRules.Value.Writer
import TreeRules.Value.Reader
import TreeRules.Error
import TreeRules.Indent.Offset
import TreeRules.Highlight.Span
import TreeRules.Highlight.Overlay
import TreeRules.Highlight.Feature
import TreeRules.Field
import TreeRules.Pattern.Expr
import TreeRules.Pattern.Matcher
import TreeRules.Pattern.Reader
import TreeRules.Pattern.Basic
import TreeRules.Predicate.Basic
import TreeRules.Predicate.Reader
import TreeRules.Source
import TreeRules.Tree.Basic
import TreeRules.Tree.Walk
import TreeRules.Grammar
import TreeRules.Document
import TreeRules.Target
import TreeRules.Predicate.Evaluation
import TreeRules.Table
import TreeRules.Value.Access
import TreeRules.Outline.Category
import TreeRules.Outline.NameSource
import TreeRules.Indent.Action
import TreeRules.Ruleset.Basic
import TreeRules.Ruleset.Reader
import TreeRules.Snapshot
import TreeRules.Ruleset.Entry
import TreeRules.Builtin.Python
import TreeRules.Builtin.Solidity
import TreeRules.Builtin.Language
import TreeRules.Highlight.Projection
import TreeRules.Outline.Thing
import TreeRules.Outline.Entry
import TreeRules.Indent.Column
import TreeRules.Indent.Line
import TreeRules.Ruleset.Validity
import TreeRules.Settings
import TreeRules.FileName
import TreeRules.Workspace
import TreeRules.Session
import TreeRules.Report
import TreeRules.Console.Markup
import TreeRules.Console.Screen
import TreeRules.Console.Grid
import TreeRules.Console.Styling
import TreeRules.Command.Arguments
import TreeRules.Command.Basic
import TreeRules.Command.Run
import TreeRules.Main
import TreeRules.Proofs.StableOrder
import TreeRules.Proofs.FirstMatch
import TreeRules.Proofs.Highlight.Coverage
import TreeRules.Proofs.Highlight.Layering
import TreeRules.Proofs.Highlight.Viewport
import TreeRules.Proofs.Predicate.Acceptance
import TreeRules.Proofs.Ruleset.Lineage
import TreeRules.Proofs.Ruleset.Inheritance
import TreeRules.Proofs.Ruleset.Acceptance
import TreeRules.Proofs.Predicate.Sight
import TreeRules.Proofs.Source.Rows
import TreeRules.Proofs.Tree.Places
import TreeRules.Proofs.Tree.Relocation
import TreeRules.Proofs.Indent.Idempotence
import TreeRules.Proofs.Outline.Staleness
import TreeRules.Proofs.Predicate.Capture
import TreeRules.Proofs.Highlight.Refinement
import TreeRules.Proofs.Highlight.Switching
import TreeRules.Proofs.Predicate.Shape
import TreeRules.Proofs.Ruleset.Shape
import TreeRules.Proofs.Predicate.Recollection
import TreeRules.Proofs.Outline.Agreement
import TreeRules.Proofs.Outline.Tour
import TreeRules.Proofs.Indent.RowTarget
import TreeRules.Proofs.Indent.NodeTarget
import TreeRules.Proofs.Outline.Enclosure
import TreeRules.Proofs.Highlight.Provenance
import TreeRules.Proofs.Highlight.CaptureOrder
import TreeRules.Proofs.Text.Columns
import TreeRules.Proofs.Indent.ChainAlignment
import TreeRules.Proofs.Indent.CommentText
import TreeRules.Proofs.Predicate.Fitness
import TreeRules.Proofs.Predicate.Writing
import TreeRules.Proofs.Resolution
import TreeRules.Proofs.Ruleset.Links
import TreeRules.Proofs.Value.Reordering
import TreeRules.Proofs.Predicate.KeyOrder
import TreeRules.Proofs.Predicate.PatternFaults
import TreeRules.Proofs.Text.Numerals
import TreeRules.Proofs.Indent.OffsetText
import TreeRules.Proofs.Outline.Naming
import TreeRules.Proofs.Highlight.Refusal
import TreeRules.Proofs.Highlight.RowRange
import TreeRules.Proofs.Pattern.PlainNames
import TreeRules.Proofs.Tree.RangeWalk
import TreeRules.Proofs.Command.SettingsBounds
import TreeRules.Proofs.Text.Encoding
import TreeRules.Proofs.Console.Rendering
import TreeRules.Proofs.Source.Partition
import TreeRules.Proofs.Source.ColumnOrder
import TreeRules.Proofs.Highlight.Gaps
