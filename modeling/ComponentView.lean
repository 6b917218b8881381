import ComponentView.Proofs.Repeat.Patch
import ComponentView.Proofs.Visits
import ComponentView.Proofs.WatchList
import ComponentView.Session.Report
import ComponentView.Session.Survey
import ComponentView.Proofs.Ownership
import ComponentView.Proofs.Ownership.Build
import ComponentView.Proofs.Stillness
import ComponentView.Proofs.Stillness.Pass
import ComponentView.Proofs.Layout.Apart
import ComponentView.Proofs.Ownership.Events
import ComponentView.Proofs.Ownership.Session
import ComponentView.Proofs.OnePlace
import ComponentView.Proofs.SecondUpdate
import ComponentView.Proofs.Slots
import ComponentView.Proofs.Directives
import ComponentView.Proofs.Document.Reached
import ComponentView.Proofs.Document.Handled
import ComponentView.Proofs.WrittenForm
import ComponentView.Proofs.Containers
import ComponentView.Proofs.Toggles
import ComponentView.Proofs.Repeat.Sequential
import ComponentView.Proofs.Tight
import ComponentView.Proofs.Cascade
import ComponentView.Proofs.Writing
import ComponentView.Proofs.Equality
import ComponentView.Proofs.Loss
import ComponentView.Proofs.PathText
import ComponentView.Proofs.Lookups
import ComponentView.Proofs.Styles
import ComponentView.Proofs.FailedBuilds
import ComponentView.Proofs.Classes
import ComponentView.Proofs.Inheritance
import ComponentView.Proofs.Sharing
import ComponentView.Proofs.Bindings
import ComponentView.Proofs.Tracking
import ComponentView.Proofs.Reuse
import ComponentView.Proofs.Ledger
import ComponentView.Proofs.Descent
import ComponentView.Proofs.Remains
