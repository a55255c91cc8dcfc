import SuiteView.Main
import SuiteView.Plan.Same
import SuiteView.Plan.Walk
import SuiteView.Proofs.Plan.Forest
import SuiteView.Proofs.Preorder
import SuiteView.Proofs.Plan.Descendants
import SuiteView.Proofs.Node.Store
import SuiteView.Proofs.View.Mirror
import SuiteView.Proofs.View.Attach
import SuiteView.Proofs.View.Build
import SuiteView.Proofs.View.Insert
import SuiteView.Proofs.Session
import SuiteView.Proofs.Effect
import SuiteView.Proofs.View.Leaves
import SuiteView.Proofs.Filter
import SuiteView.Proofs.View.Growth
import SuiteView.Proofs.View.Failure
import SuiteView.Proofs.Plan.Tables
import SuiteView.Proofs.Plan.Turns
import SuiteView.Proofs.Manifest.Document
import SuiteView.Proofs.Manifest.Reading
import SuiteView.Proofs.Manifest.Grammar
import SuiteView.Proofs.Manifest.Acceptance
import SuiteView.Proofs.Manifest.Faults
import SuiteView.Proofs.Manifest.Nesting
import SuiteView.Proofs.Stream
import SuiteView.Proofs.Ending
import SuiteView.Proofs.View.Tests
import SuiteView.Proofs.Plan.Branch
import SuiteView.Proofs.Manifest.Branch
import SuiteView.Proofs.View.Replayed
import SuiteView.Proofs.Listing
import SuiteView.Proofs.Decimal.Rounding
import SuiteView.Proofs.Decimal.Shortest
import SuiteView.Proofs.Json.Reads
import SuiteView.Proofs.Text.Utf8
import SuiteView.Proofs.Files.Writing
import SuiteView.Proofs.Json.Doubles
import SuiteView.Proofs.Json.Plain
import SuiteView.Proofs.Json.ReadBack
import SuiteView.Proofs.Settings.Copies
import SuiteView.Proofs.Settings.Loading
import SuiteView.Proofs.Settings.Saving
import SuiteView.Proofs.Refusal
import SuiteView.Proofs.Report.Listed
import SuiteView.Proofs.Report.Selection
import SuiteView.Proofs.Report.Tree
import SuiteView.Proofs.Report.ReadBack
import SuiteView.Proofs.Permanence
import SuiteView.Proofs.Plan.Interleaving
import SuiteView.Proofs.View.Admission
import SuiteView.Proofs.View.Replay
import SuiteView.Proofs.View.Interleaving
import SuiteView.Proofs.View.Arrival
import SuiteView.Proofs.View.LeafGrowth
import SuiteView.Proofs.View.Union
import SuiteView.Proofs.Target
import SuiteView.Proofs.View.Overloads
import SuiteView.Proofs.Identity
import SuiteView.Proofs.IdOptions
import SuiteView.Proofs.View.Twins
import SuiteView.Proofs.Report.Renamed
import SuiteView.Proofs.RootName
import SuiteView.Proofs.Node.Sharing
