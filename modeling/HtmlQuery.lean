import HtmlQuery.Cli.Options
import HtmlQuery.Cli.Outline
import HtmlQuery.Cli.Run
import HtmlQuery.Cli.Style
import HtmlQuery.Html.Attributes
import HtmlQuery.Html.Builder
import HtmlQuery.Html.Config
import HtmlQuery.Html.Issue
import HtmlQuery.Html.Load
import HtmlQuery.Main
import HtmlQuery.Selector.Chain
import HtmlQuery.Selector.Condition
import HtmlQuery.Selector.Consult
import HtmlQuery.Selector.Match
import HtmlQuery.Text.Blank
import HtmlQuery.Text.Cased
import HtmlQuery.Text.Cursor
import HtmlQuery.Text.Lowercase
import HtmlQuery.Text.Scan
import HtmlQuery.Text.Utf8
import HtmlQuery.Tree.Attrs
import HtmlQuery.Tree.Basic
import HtmlQuery.Tree.Markup
import HtmlQuery.Tree.Tags
import HtmlQuery.Tree.Walk
import HtmlQuery.Proofs.Tree.Arena
import HtmlQuery.Proofs.Tree.Ancestry
import HtmlQuery.Proofs.Html.Drafts
import HtmlQuery.Proofs.Tree.WellFormed
import HtmlQuery.Proofs.Tree.Reachable
import HtmlQuery.Proofs.Selector.Semantics
import HtmlQuery.Proofs.Selector.Greedy
import HtmlQuery.Proofs.Tree.SortedAttrs
import HtmlQuery.Proofs.Markup.Doc
import HtmlQuery.Proofs.Markup.Canonical
import HtmlQuery.Proofs.Markup.OpenTag
import HtmlQuery.Proofs.Markup.Balanced
import HtmlQuery.Proofs.Markup.Graft
import HtmlQuery.Proofs.Markup.Reading
import HtmlQuery.Proofs.Markup.RoundTrip
import HtmlQuery.Proofs.Selector.Scanning
import HtmlQuery.Proofs.Selector.Brackets
import HtmlQuery.Proofs.Selector.Display
import HtmlQuery.Proofs.Html.Fragment
import HtmlQuery.Proofs.Tree.Append
import HtmlQuery.Proofs.Tree.DocumentOrder
import HtmlQuery.Proofs.Text.CursorRuns
import HtmlQuery.Proofs.Selector.Shortcuts
import HtmlQuery.Proofs.Html.Reads
import HtmlQuery.Proofs.Html.Issues
import HtmlQuery.Proofs.Selector.Compound
import HtmlQuery.Proofs.Selector.AttributeTest
import HtmlQuery.Proofs.Html.DepthLimit
import HtmlQuery.Proofs.Tree.Siblings
import HtmlQuery.Proofs.Selector.Union
import HtmlQuery.Proofs.Selector.Locality
import HtmlQuery.Proofs.Tree.IdClasses
import HtmlQuery.Proofs.Text.QuotedRead
import HtmlQuery.Proofs.Text.BalancedRead
import HtmlQuery.Proofs.Html.Progress
import HtmlQuery.Proofs.Cli.TreeDump
import HtmlQuery.Proofs.Text.QuoteRuns
import HtmlQuery.Proofs.Html.AttributeNames
import HtmlQuery.Proofs.Html.Parsed
import HtmlQuery.Proofs.Markup.Rereading
