import Treeless.Machinery.Bytes
import Treeless.Machinery.Probe
import Treeless.Machinery.Run
import Treeless.Machinery.Register
import Treeless.Hashing
import Treeless.PMap.Store
import Treeless.PMap.Log
import Treeless.PMap.HashMap
import Treeless.PMap.Checksum
import Treeless.PMap.PMap
import Treeless.PMap.Ledger
import Treeless.PMap.Buckets
import Treeless.PMap.Index
import Treeless.PMap.Search
import Treeless.PMap.Refine
import Treeless.PMap.Runs
import Treeless.PMap.Atomic
import Treeless.PMap.Converge
import Treeless.PMap.Replay
import Treeless.PMap.Restore
import Treeless.PMap.Iterate
import Treeless.Core.Defrag
import Treeless.Core.Core
import Treeless.Core.Revision
import Treeless.Dist.Release
import Treeless.Client.Replica
import Treeless.Client.Client
import Treeless.Client.Chain
import Treeless.Com.Protocol
import Treeless.Com.Reader
import Treeless.Com.Framing
import Treeless.Com.Writer
import Treeless.Com.Closing
import Treeless.Com.Queue
import Treeless.Com.Deadlines
import Treeless.Dist.ServerGroup
import Treeless.Core.Crash
import Treeless.Dist.Repair
import Treeless.Server.Server
import Treeless.Server.Robust
import Treeless.Com.Broker
import Treeless.Com.Matching
import Treeless.Machinery.Tally
import Treeless.PMap.Content
import Treeless.PMap.Timestamps
import Treeless.PMap.Windows
import Treeless.PMap.Space
import Treeless.PMap.Accounting
import Treeless.Com.Flusher
import Treeless.Com.Ticker
import Treeless.Dist.Duplicate
import Treeless.Dist.Reconnect
import Treeless.Core.Locking
import Treeless.Core.Lifetime
import Treeless.Com.Heartbeat
import Treeless.Core.Count
import Treeless.Dist.Heartbeater
import Treeless.PMap.Puts
import Treeless.PMap.Scan
import Treeless.PMap.Edge
import Treeless.PMap.Reachable
import Treeless.PMap.Compare
import Treeless.PMap.Forwards
import Treeless.PMap.Mirror
import Treeless.PMap.Probing
import Treeless.Com.Decode
import Treeless.Dist.Snapshot
import Treeless.Dist.Gossip
import Treeless.Dist.Rounds
import Treeless.Client.ReadRepair
import Treeless.Core.Life
import Treeless.Core.Database
import Treeless.Com.Channel
import Treeless.Core.Torn
import Treeless.Server.Frontend
import Treeless.Client.Writes
import Treeless.Core.Reclaim
import Treeless.Dist.Handover
import Treeless.Dist.Views
import Treeless.Core.Protection
import Treeless.Server.Calls
