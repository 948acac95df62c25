import OperatorBundle.Main
import OperatorBundle.Proofs.Build.TimeStamp
import OperatorBundle.Proofs.Build.Validation
import OperatorBundle.Proofs.Bundle.Subscriptions
import OperatorBundle.Proofs.Command.ExitStatus
import OperatorBundle.Proofs.Command.JsonOutput
import OperatorBundle.Proofs.Command.Reload
import OperatorBundle.Proofs.Command.Summary
import OperatorBundle.Proofs.Layout.FreshPieces
import OperatorBundle.Proofs.Layout.KeySplit
import OperatorBundle.Proofs.Layout.Locality
import OperatorBundle.Proofs.Layout.OffsetRendering
import OperatorBundle.Proofs.Layout.Removal
import OperatorBundle.Proofs.Locator.Walk
import OperatorBundle.Proofs.Locator.Written
import OperatorBundle.Proofs.Manifest.KeyOrder
import OperatorBundle.Proofs.Patch.Commute
import OperatorBundle.Proofs.Patch.Guards
import OperatorBundle.Proofs.Patch.NamedEntries
import OperatorBundle.Proofs.Patch.Policies
import OperatorBundle.Proofs.Patch.ReadBack
import OperatorBundle.Proofs.Patch.Replacing
import OperatorBundle.Proofs.Patch.Target
