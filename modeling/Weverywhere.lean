import Weverywhere.Identity
import Weverywhere.BoundedQueue
import Weverywhere.DedupLog
import Weverywhere.MessageLog
import Weverywhere.Node
import Weverywhere.PeersRegistry
import Weverywhere.SelfSignature
import Weverywhere.ReplayedDatagrams
import Weverywhere.FabricWorld
import Weverywhere.FabricAuthenticity
import Weverywhere.ProgramAttribution
import Weverywhere.PidTable
import Weverywhere.PidLifecycle
import Weverywhere.ExitReports
import Weverywhere.FairRuns
import Weverywhere.Listeners
import Weverywhere.Cbor
import Weverywhere.MessagesRead
import Weverywhere.LayeredConfig
import Weverywhere.TrustSets
import Weverywhere.Bare
import Weverywhere.WireFormat
import Weverywhere.DepthBudget
import Weverywhere.VisitedPath
import Weverywhere.LoopPrevention
import Weverywhere.IdentityValidity
import Weverywhere.CborItems
import Weverywhere.FabricPayloads
import Weverywhere.RelaySessions
import Weverywhere.RowProvenance
import Weverywhere.NodeAttestations
import Weverywhere.BoundedBuffer
import Weverywhere.RecordWriter
import Weverywhere.CborHeads
import Weverywhere.FittingPrefix
import Weverywhere.Chat
import Weverywhere.ChatWalk
import Weverywhere.ChatLines
import Weverywhere.ChatSafety
import Weverywhere.StdoutForwarder
import Weverywhere.GuestMemory
import Weverywhere.Outlines
import Weverywhere.MapCoverage
import Weverywhere.MapNesting
import Weverywhere.TargetSelection
import Weverywhere.ChatInput
import Weverywhere.Countdown
import Weverywhere.ForwardedProgram
import Weverywhere.KeyListing
import Weverywhere.ReplyLoops
import Weverywhere.Numerals
import Weverywhere.PeerReports
import Weverywhere.ChatIdentity
import Weverywhere.Replication
import Weverywhere.FreshRows
import Weverywhere.Precedence
import Weverywhere.DrawingOrder
import Weverywhere.StableOutput
import Weverywhere.IpAddresses
import Weverywhere.Toml
import Weverywhere.PinnedPeers
import Weverywhere.ReplyBuffers
import Weverywhere.SharedBits
import Weverywhere.LocalAddress
import Weverywhere.Calendar
import Weverywhere.BuildVersion
import Weverywhere.OrderedChoice
import Weverywhere.FormatDetection
import Weverywhere.TextCounts
import Weverywhere.UnitFiles
import Weverywhere.UnitCounts
import Weverywhere.XmlText
import Weverywhere.WindowsArguments
import Weverywhere.PathDisplay
import Weverywhere.DaemonRegistration
import Weverywhere.RingSlots
import Weverywhere.Terminal
import Weverywhere.ChatScreen
import Weverywhere.FollowedLog
import Weverywhere.ChatFollowing
import Weverywhere.ChatDelivery
import Weverywhere.SimplePaths
import Weverywhere.DiscoveryCoverage
import Weverywhere.QuietWindow
import Weverywhere.RelayTiming
import Weverywhere.DrawnAnswers
import Weverywhere.DebugText
import Weverywhere.SecurityAudit
import Weverywhere.Accountability
import Weverywhere.BareSizes
import Weverywhere.ArgsEcho
import Weverywhere.WaitBudget
import Weverywhere.RunOutput
import Weverywhere.DiscoveryProgram
import Weverywhere.ChatRoom
import Weverywhere.ReplicatedCopies
