import Nftables.Main
import Nftables.Proofs.Accepted
import Nftables.Proofs.AddOrder
import Nftables.Proofs.Binding
import Nftables.Proofs.ByteOrder
import Nftables.Proofs.Clauses
import Nftables.Proofs.CommandText
import Nftables.Proofs.Container
import Nftables.Proofs.Dangling
import Nftables.Proofs.Defines
import Nftables.Proofs.Delete
import Nftables.Proofs.Destroy
import Nftables.Proofs.DestroyText
import Nftables.Proofs.Distinct
import Nftables.Proofs.DryRun
import Nftables.Proofs.ElementHistory
import Nftables.Proofs.Entry
import Nftables.Proofs.Frame
import Nftables.Proofs.Frontier
import Nftables.Proofs.Handles
import Nftables.Proofs.History
import Nftables.Proofs.InPlace
import Nftables.Proofs.KnownMaps
import Nftables.Proofs.LineByLine
import Nftables.Proofs.Log
import Nftables.Proofs.MapValue
import Nftables.Proofs.Meeting
import Nftables.Proofs.Parts
import Nftables.Proofs.Placement
import Nftables.Proofs.Plain
import Nftables.Proofs.Presence
import Nftables.Proofs.Priority
import Nftables.Proofs.Reading
import Nftables.Proofs.Reading.Bare
import Nftables.Proofs.Reading.Content
import Nftables.Proofs.Reading.Keyed
import Nftables.Proofs.Reading.Table
import Nftables.Proofs.Rebuild
import Nftables.Proofs.Reconstruction
import Nftables.Proofs.Reload
import Nftables.Proofs.Renaming
import Nftables.Proofs.RoundTrip
import Nftables.Proofs.Routing
import Nftables.Proofs.Splitting
import Nftables.Proofs.Step
import Nftables.Proofs.Substitution
import Nftables.Proofs.Turns
import Nftables.Proofs.Validate
import Nftables.Proofs.WellFormed
import Nftables.RuleText
