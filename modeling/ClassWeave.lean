import ClassWeave.Assoc
import ClassWeave.Build.Failure
import ClassWeave.Build.Plan
import ClassWeave.Build.Run
import ClassWeave.Command.Args
import ClassWeave.Command.Run
import ClassWeave.Command.Watch
import ClassWeave.Config
import ClassWeave.Failure
import ClassWeave.Files.Disk
import ClassWeave.Files.Filter
import ClassWeave.Files.IgnoreRule
import ClassWeave.Files.Path
import ClassWeave.Glob.Basic
import ClassWeave.Glob.Parser
import ClassWeave.Main
import ClassWeave.Markup.Attribute
import ClassWeave.Markup.Component
import ClassWeave.Markup.Expr
import ClassWeave.Markup.Mustache
import ClassWeave.Markup.Token
import ClassWeave.Markup.Tree
import ClassWeave.Markup.Walk
import ClassWeave.Options
import ClassWeave.Process
import ClassWeave.Proofs.Assoc
import ClassWeave.Proofs.Markup.Appending
import ClassWeave.Proofs.Markup.Building
import ClassWeave.Proofs.Markup.Fitting
import ClassWeave.Proofs.Markup.Layout
import ClassWeave.Proofs.Markup.Offsets
import ClassWeave.Proofs.Markup.Places
import ClassWeave.Proofs.Markup.Reading
import ClassWeave.Proofs.Markup.Recovery
import ClassWeave.Proofs.Markup.Rereading
import ClassWeave.Proofs.Markup.Revision
import ClassWeave.Proofs.Markup.Unplaced
import ClassWeave.Proofs.Process.Basic
import ClassWeave.Proofs.Process.Frame
import ClassWeave.Proofs.Process.Inert
import ClassWeave.Proofs.Process.Reparse
import ClassWeave.Proofs.Process.Rewriting
import ClassWeave.Proofs.Scan.Basic
import ClassWeave.Proofs.Scan.Edits
import ClassWeave.Proofs.Scan.Success
import ClassWeave.Proofs.Session.History
import ClassWeave.Proofs.Session.Reload
import ClassWeave.Proofs.Splice.Patched
import ClassWeave.Proofs.Style.Inert
import ClassWeave.Proofs.Text.Blank
import ClassWeave.Proofs.Text.Cursor
import ClassWeave.Proofs.Text.Words
import ClassWeave.Proofs.Utility.Compiled
import ClassWeave.Proofs.Utility.Inert
import ClassWeave.Proofs.Utility.Names
import ClassWeave.Resolution
import ClassWeave.Scan
import ClassWeave.Session
import ClassWeave.Splice
import ClassWeave.Style.Declaration
import ClassWeave.Style.Rule
import ClassWeave.Style.Sheet
import ClassWeave.Style.Split
import ClassWeave.Text.Blank
import ClassWeave.Text.Bytes
import ClassWeave.Text.Cursor
import ClassWeave.Text.Nesting
import ClassWeave.Toml.Document
import ClassWeave.Toml.Reader
import ClassWeave.Toml.Text
import ClassWeave.Toml.Value
import ClassWeave.Toml.Word
import ClassWeave.Utility.Builtin
import ClassWeave.Utility.ClassName
import ClassWeave.Utility.Digest
import ClassWeave.Utility.Table
import ClassWeave.Proofs.Style.Combine
import ClassWeave.Proofs.Style.Sorting
import ClassWeave.Proofs.Process.Sheet
import ClassWeave.Proofs.Session.Preflight
import ClassWeave.Proofs.Utility.ClassName
import ClassWeave.Proofs.Utility.Tokens
import ClassWeave.Proofs.Scan.Sheets
import ClassWeave.Proofs.Process.Utilities
import ClassWeave.Proofs.Markup.Sound
import ClassWeave.Proofs.Markup.SoundTokens
import ClassWeave.Proofs.Markup.SoundTree
import ClassWeave.Proofs.Markup.Canonical
import ClassWeave.Proofs.Markup.Printing
import ClassWeave.Proofs.Style.Layering
import ClassWeave.Proofs.Process.Layers
import ClassWeave.Proofs.Markup.TopStyles
import ClassWeave.Proofs.Process.StyleBlocks
import ClassWeave.Proofs.Glob.Plain
import ClassWeave.Proofs.Files.Descent
import ClassWeave.Proofs.Build.Discovery
import ClassWeave.Proofs.Text.Spots
import ClassWeave.Proofs.Slicing.Basic
import ClassWeave.Proofs.Slicing.Expr
import ClassWeave.Proofs.Slicing.Mustache
import ClassWeave.Proofs.Slicing.Attribute
import ClassWeave.Proofs.Slicing.Token
import ClassWeave.Proofs.Session.Independence
import ClassWeave.Proofs.Markup.Matched
import ClassWeave.Proofs.Markup.Parentheses
import ClassWeave.Proofs.Markup.Ternary
import ClassWeave.Proofs.Splice.Written
import ClassWeave.Proofs.Splice.Ordered
import ClassWeave.Proofs.Slicing.Splice
import ClassWeave.Proofs.Splice.Reordering
import ClassWeave.Proofs.Scan.Chains
import ClassWeave.Proofs.Process.Glued
import ClassWeave.Proofs.Scan.Collected
import ClassWeave.Proofs.Style.Lasting
import ClassWeave.Proofs.Style.Cascade
import ClassWeave.Proofs.Style.Repetition
import ClassWeave.Proofs.Process.Assembly
import ClassWeave.Proofs.Utility.Agreement
import ClassWeave.Proofs.Utility.Repetition
import ClassWeave.Proofs.Markup.Preorder
import ClassWeave.Proofs.Utility.SelectorTags
import ClassWeave.Proofs.Markup.Quotation
import ClassWeave.Proofs.Markup.Conditionals
import ClassWeave.Proofs.Markup.Operands
import ClassWeave.Proofs.Markup.Blocks
import ClassWeave.Proofs.Markup.Ascending
import ClassWeave.Proofs.Markup.Visits
import ClassWeave.Proofs.Style.TopLevel
import ClassWeave.Proofs.Files.Pieces
import ClassWeave.Proofs.Glob.Stem
import ClassWeave.Proofs.Command.Roots
import ClassWeave.Proofs.Files.Reach
import ClassWeave.Proofs.Files.Writing
import ClassWeave.Proofs.Build.Listing
import ClassWeave.Proofs.Build.Relative
import ClassWeave.Proofs.Build.Runs
import ClassWeave.Proofs.Markup.Numerals
import ClassWeave.Proofs.Scan.Numerals
import ClassWeave.Proofs.Style.Wrapping
