import VpnP2p.Foundation.Outcome
import VpnP2p.Foundation.CString
import VpnP2p.Foundation.Decimal
import VpnP2p.Foundation.Unwritten
import VpnP2p.Foundation.Lines
import VpnP2p.Foundation.Stream
import VpnP2p.Foundation.Chain
import VpnP2p.Foundation.Loops
import VpnP2p.Foundation.Lasting
import VpnP2p.Foundation.Growing
import VpnP2p.Foundation.KeyedMerge
import VpnP2p.Foundation.Buckets
import VpnP2p.Foundation.Positions
import VpnP2p.Foundation.Simulation
import VpnP2p.Foundation.Network
import VpnP2p.Foundation.Gossip
import VpnP2p.NodeInfo.Model
import VpnP2p.NodeInfo.Encode
import VpnP2p.NodeInfo.Decode
import VpnP2p.NodeInfo.Strand
import VpnP2p.NodeInfo.DecodeRun
import VpnP2p.NodeInfo.Ledger
import VpnP2p.NodeInfo.StackFrame
import VpnP2p.NodeInfo.LedgerRun
import VpnP2p.NodeInfo.FileFormat
import VpnP2p.NodeInfo.Generate
import VpnP2p.NodeInfo.WireFormat
import VpnP2p.NodeInfo.LastNewline
import VpnP2p.NodeInfo.Sheets
import VpnP2p.NodeInfo.WireValues
import VpnP2p.NodeInfo.Fields
import VpnP2p.NodeInfo.CutFile
import VpnP2p.NodeInfo.Records
import VpnP2p.NodeInfo.Hostile
import VpnP2p.NodeInfo.LeftOut
import VpnP2p.NodeInfo.LocalAddresses
import VpnP2p.NodeInfo.Identical
import VpnP2p.NodeInfo.Merge
import VpnP2p.NodeInfo.MergeLaws
import VpnP2p.NodeInfo.Repeated
import VpnP2p.NodeInfo.IpMerge
import VpnP2p.NodeInfo.IpUnion
import VpnP2p.NodeInfo.Identity
import VpnP2p.NodeInfo.Convergence
import VpnP2p.NodeInfo.Received
import VpnP2p.NodeInfo.IpCounts
import VpnP2p.Util.Message
import VpnP2p.Util.Transfer
import VpnP2p.Server.Register
import VpnP2p.Server.ResetNode
import VpnP2p.Server.Machines
import VpnP2p.Server.Uniqueness
import VpnP2p.Server.HandOver
import VpnP2p.Server.Dispatch
import VpnP2p.Server.Segments
import VpnP2p.CronJob.Refresh
import VpnP2p.CronJob.Interleaving
import VpnP2p.CronJob.Routes
import VpnP2p.CronJob.Others
import VpnP2p.CronJob.LocalIps
import VpnP2p.Join.Recheck
import VpnP2p.Join.Join
import VpnP2p.Join.Bodies
import VpnP2p.Join.IpChecks
import VpnP2p.Join.JoinServer
import VpnP2p.CronJob.Threads
import VpnP2p.CronJob.SharedMemory
import VpnP2p.CronJob.ThreadRuns
import VpnP2p.CronJob.Windows
import VpnP2p.Server.Descriptors
import VpnP2p.Server.Crashes
import VpnP2p.Join.Replies
import VpnP2p.Join.Commands
import VpnP2p.Join.Joining
import VpnP2p.Join.Lifetime
import VpnP2p.Join.Cluster
import VpnP2p.Table.Code
import VpnP2p.Table.Chains
import VpnP2p.Table.Refine
import VpnP2p.Table.FiniteMap
import VpnP2p.Table.ToArray
import VpnP2p.Table.Free
import VpnP2p.CronJob.RouterRefresh
import VpnP2p.CronJob.RouteRuns
import VpnP2p.Punch.Client
import VpnP2p.Punch.Recognition
import VpnP2p.Punch.Sweep
import VpnP2p.Punch.Traffic
import VpnP2p.Punch.UdpServer
import VpnP2p.Punch.Network
