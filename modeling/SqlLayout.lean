import SqlLayout.Block
import SqlLayout.Block.Draft
import SqlLayout.Block.Segment
import SqlLayout.Casing
import SqlLayout.Clause
import SqlLayout.Command
import SqlLayout.Document
import SqlLayout.Document.Lexeme
import SqlLayout.Document.Reader
import SqlLayout.Fault
import SqlLayout.Item
import SqlLayout.Item.Alias
import SqlLayout.Item.Modifier
import SqlLayout.Item.Reflow
import SqlLayout.Item.Split
import SqlLayout.Keyword
import SqlLayout.Layout
import SqlLayout.Layout.Indent
import SqlLayout.Layout.Legacy
import SqlLayout.Layout.River
import SqlLayout.Line
import SqlLayout.Main
import SqlLayout.Options
import SqlLayout.Options.File
import SqlLayout.Preserve
import SqlLayout.Query
import SqlLayout.Script
import SqlLayout.Source
import SqlLayout.Text
import SqlLayout.Token
import SqlLayout.Token.Lexer
import SqlLayout.Token.Nesting
import SqlLayout.With
import SqlLayout.Proofs.Letter
import SqlLayout.Proofs.Blank
import SqlLayout.Proofs.Scan
import SqlLayout.Proofs.Relex
import SqlLayout.Proofs.Trim
import SqlLayout.Proofs.Unclosed
import SqlLayout.Proofs.Inks
import SqlLayout.Proofs.Rows
import SqlLayout.Proofs.Items
import SqlLayout.Proofs.Breaks
import SqlLayout.Proofs.Lists
import SqlLayout.Proofs.Places
import SqlLayout.Proofs.Styles
import SqlLayout.Proofs.Sections
import SqlLayout.Proofs.Recase
import SqlLayout.Proofs.Select
import SqlLayout.Proofs.Count
import SqlLayout.Proofs.Lossless
import SqlLayout.Proofs.Definitions
import SqlLayout.Proofs.Order
import SqlLayout.Proofs.Stretches
import SqlLayout.Proofs.Segments
import SqlLayout.Proofs.Preserved
import SqlLayout.Proofs.Stacks
import SqlLayout.Proofs.Looks
import SqlLayout.Proofs.Upper
import SqlLayout.Proofs.Shades
import SqlLayout.Proofs.Tiles
import SqlLayout.Proofs.Locality
import SqlLayout.Proofs.Readers
import SqlLayout.Proofs.Accepts
import SqlLayout.Proofs.Verdict
import SqlLayout.Proofs.Again
import SqlLayout.Proofs.Dropped
import SqlLayout.Proofs.Endings
import SqlLayout.Proofs.Newlines
import SqlLayout.Proofs.Literals
import SqlLayout.Proofs.Bodies
import SqlLayout.Proofs.Layouts
import SqlLayout.Proofs.Extents
import SqlLayout.Proofs.Matching
import SqlLayout.Proofs.LetterCase
import SqlLayout.Proofs.Recased
import SqlLayout.Proofs.Alone
import SqlLayout.Proofs.Masked
import SqlLayout.Proofs.Isolated
import SqlLayout.Proofs.Toplevel
import SqlLayout.Proofs.Single
import SqlLayout.Proofs.Enclosed
import SqlLayout.Proofs.Splits
import SqlLayout.Proofs.Joins
import SqlLayout.Proofs.Checked.Script
import SqlLayout.Proofs.Checked.Spans
import SqlLayout.Proofs.Blame
import SqlLayout.Proofs.Grammar
import SqlLayout.Proofs.Attachment
import SqlLayout.Proofs.Qualified
import SqlLayout.Proofs.Seams
import SqlLayout.Proofs.Firm
import SqlLayout.Proofs.Aliases
import SqlLayout.Proofs.Tidy
import SqlLayout.Proofs.Spread
import SqlLayout.Proofs.Reflow
import SqlLayout.Proofs.Flush
import SqlLayout.Proofs.Columns
import SqlLayout.Proofs.Beads
import SqlLayout.Proofs.Gaps
import SqlLayout.Proofs.Cuts
import SqlLayout.Proofs.Strands
import SqlLayout.Proofs.Remade
import SqlLayout.Proofs.Settled
import SqlLayout.Proofs.Resplit
import SqlLayout.Proofs.Rebuilt
import SqlLayout.Proofs.Idempotent
