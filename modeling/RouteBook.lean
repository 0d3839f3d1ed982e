import RouteBook.Main
import RouteBook.Proofs.Constraint.Validation
import RouteBook.Proofs.Pattern.Filling
import RouteBook.Proofs.Table.Alike
import RouteBook.Proofs.Table.Duplicates
import RouteBook.Proofs.Table.Methods
import RouteBook.Proofs.Table.Sequential
import RouteBook.Table.Publication
import RouteBook.Text.Percent.Spelling
import RouteBook.Proofs.Text.Trim
import RouteBook.Proofs.Manifest.Compiled
import RouteBook.Proofs.Document.JsonRoundTrip
import RouteBook.Proofs.Pattern.Leftmost
import RouteBook.Proofs.Manifest.RoundTrip
import RouteBook.Proofs.Table.Labels
import RouteBook.Proofs.Table.Redundant
import RouteBook.Proofs.Pattern.Shown
import RouteBook.Proofs.Pattern.HostGrammar
import RouteBook.Proofs.Document.JsonIndented
import RouteBook.Proofs.Pattern.Braces
import RouteBook.Proofs.Command.Validate
import RouteBook.Proofs.Pattern.Offsets
import RouteBook.Proofs.Settings.Threshold
import RouteBook.Proofs.Request.Undecodable
