import StyleSplit.Command.Tree
import StyleSplit.Diagnostic.Catalog
import StyleSplit.Main
import StyleSplit.Position.LineIndex
import StyleSplit.Proofs.Artifacts
import StyleSplit.Proofs.Block.Appends
import StyleSplit.Proofs.Collisions
import StyleSplit.Proofs.Command.Run
import StyleSplit.Proofs.Position.Offset
import StyleSplit.Proofs.Registry.Numbered
import StyleSplit.Proofs.Routing.Answers
import StyleSplit.Proofs.Routing.Issues
import StyleSplit.Proofs.Routing.Locations
import StyleSplit.Proofs.Routing.Partition
import StyleSplit.Proofs.Routing.Policies
import StyleSplit.Proofs.Routing.Pragma
import StyleSplit.Proofs.Routing.Sources
import StyleSplit.Proofs.SourceMap.Buffer
import StyleSplit.Proofs.SourceMap.Inverse
import StyleSplit.Proofs.SourceMap.Numeral
import StyleSplit.Proofs.SourceMap.Queries
import StyleSplit.Proofs.SourceMap.RoundTrip
import StyleSplit.Proofs.SourceMap.Tables
import StyleSplit.Proofs.Stylesheet.Closing
import StyleSplit.Proofs.Stylesheet.InPlace
import StyleSplit.Proofs.Stylesheet.Unterminated
import StyleSplit.Proofs.Unmapped
