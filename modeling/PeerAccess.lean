import PeerAccess.CommandLine
import PeerAccess.Listener
import PeerAccess.Main
import PeerAccess.Settings.Json
import PeerAccess.Proofs.Mask
import PeerAccess.Proofs.Spelling
import PeerAccess.Proofs.Compiling
import PeerAccess.Proofs.Blocks
import PeerAccess.Proofs.History
import PeerAccess.Proofs.Families
import PeerAccess.Proofs.PatternText
import PeerAccess.Proofs.Export
import PeerAccess.Proofs.Readings
import PeerAccess.Proofs.Layers
import PeerAccess.Proofs.FrontEnds
import PeerAccess.Proofs.MatcherEquality
import PeerAccess.Proofs.AddressText
import PeerAccess.Proofs.GuardTree
import PeerAccess.Proofs.Connections
import PeerAccess.Proofs.Installation
import PeerAccess.Proofs.Precedence
import PeerAccess.Proofs.JsonText
import PeerAccess.Proofs.SettingsText
import PeerAccess.Proofs.HostBits
import PeerAccess.Proofs.AddressPatterns
import PeerAccess.Proofs.AllowedFirst
import PeerAccess.Proofs.EnvironmentText
import PeerAccess.Proofs.Undecided
import PeerAccess.Proofs.FlagText
import PeerAccess.Proofs.Reports
import PeerAccess.Proofs.CheckedReader
import PeerAccess.Proofs.Refusals
import PeerAccess.Proofs.KindOverlap
import PeerAccess.Proofs.AuditTrail
