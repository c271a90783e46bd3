import CodePane.Main
import CodePane.Settings.Writer
import CodePane.View.Checked
import CodePane.Proofs.Source.Order
import CodePane.Proofs.Source.Resume
import CodePane.Proofs.Coverage.Overlay
import CodePane.Proofs.Coverage.Runs
import CodePane.Proofs.Coverage.Owner
import CodePane.Proofs.Grid.HitTest
import CodePane.Proofs.View.Boundaries
import CodePane.Proofs.View.HitTest
import CodePane.Proofs.View.Reveal
import CodePane.Proofs.Scrollbar
import CodePane.Proofs.Text.Edge
import CodePane.Proofs.Text.Traversal
import CodePane.Proofs.Source.Edges
import CodePane.Proofs.Source.Recognized
import CodePane.Proofs.TokenBoundaries
import CodePane.Proofs.Source.Classes
import CodePane.Proofs.View.Content
import CodePane.Proofs.Coverage.Relay
import CodePane.Proofs.Listing.Lines
import CodePane.Proofs.Listing.Stages
import CodePane.Proofs.Source.Gaps
import CodePane.Proofs.Source.Directives
import CodePane.Proofs.Source.Free
import CodePane.Proofs.Coverage.Independent
import CodePane.Proofs.View.Clip
import CodePane.Proofs.View.Highlight
import CodePane.Proofs.View.Reload
import CodePane.Proofs.View.ScrollValue
import CodePane.Proofs.View.Goal
import CodePane.Proofs.View.Report
import CodePane.Proofs.Cursor
import CodePane.Proofs.Drawing.Pieces
import CodePane.Proofs.View.Memory
import CodePane.Proofs.Source.Literals
import CodePane.Proofs.Source.Comments
import CodePane.Proofs.View.Rows
import CodePane.Proofs.View.InSight
import CodePane.Proofs.Grid.UnderPixel
import CodePane.Proofs.Text.Encoding
import CodePane.Proofs.Text.Split
import CodePane.Proofs.Text.Words
import CodePane.Proofs.Coverage.Lookup
import CodePane.Proofs.Listing.Operands
import CodePane.Proofs.Source.DirectiveComments
import CodePane.Proofs.Decimal.Grammar
import CodePane.Proofs.Json.RoundTrip
import CodePane.Proofs.Settings.RoundTrip
import CodePane.Proofs.Settings.Overrides
import CodePane.Proofs.Listing.Registers
import CodePane.Proofs.Coverage.Overwrite
import CodePane.Proofs.Text.LineIndex
