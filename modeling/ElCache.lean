import ElCache.Lib.Runs
import ElCache.Lib.Slice
import ElCache.Lib.Prog
import ElCache.Types
import ElCache.Chunk
import ElCache.Chunk.Ranges
import ElCache.Arc.Lists
import ElCache.Arc.Cache
import ElCache.Arc.Spec
import ElCache.Level
import ElCache.Memory.Cache
import ElCache.Disk.Cache
import ElCache.Memory.Spec
import ElCache.Disk.Spec
import ElCache.Disk.Index
import ElCache.Disk.Budget
import ElCache.Assembly
import ElCache.Assembly.Checked
import ElCache.Disk.Torn
import ElCache.Disk.Recovery
import ElCache.Memory.Concurrent
import ElCache.Arc.Bound
import ElCache.Arc.Capacity
import ElCache.Memory.Budget
import ElCache.Partial.Gaps
import ElCache.Partial.Reads
import ElCache.Lib.Digits
import ElCache.Lib.Hex
import ElCache.Availability
import ElCache.Availability.Ranges
import ElCache.Availability.Check
import ElCache.Arc.Run
import ElCache.Lib.Recency
import ElCache.Arc.Recency
import ElCache.Arc.Scan
import ElCache.Frame.Lengths
import ElCache.Frame.Remove
import ElCache.Coordinator.Cache
import ElCache.Coordinator.Check
import ElCache.Coordinator.Spec
import ElCache.Coordinator.Streams
import ElCache.Coordinator.Fresh
import ElCache.Coordinator.Complete
import ElCache.Coordinator.Peers
import ElCache.Coordinator.Concurrent
import ElCache.Lib.Overlay
import ElCache.Sparse.Cache
import ElCache.Sparse.Upload
import ElCache.Sparse.Bounds
import ElCache.Lib.Bytes
import ElCache.Unix.Payload
import ElCache.Lib.OrderedMap
import ElCache.Cluster.HashRing
import ElCache.Cluster.RingTermination
import ElCache.Lib.Mixing
import ElCache.Cluster.RingPoints
import ElCache.Lib.Latest
import ElCache.Cluster.Gossip
import ElCache.Lib.Decoder
import ElCache.Protocol.Codec
import ElCache.Protocol.Safety
import ElCache.Protocol.RoundTrip
import ElCache.Protocol.Kinds
import ElCache.Lib.Stream
import ElCache.Lib.Linear
import ElCache.Unix.Server
import ElCache.Unix.Store
import ElCache.Unix.Linear
import ElCache.Sdk.Client
import ElCache.Sdk.Exchange
import ElCache.Sdk.SendBuffer
import ElCache.Sdk.RecvBuffer
import ElCache.Sdk.Session
import ElCache.Sdk.Store
import ElCache.Sdk.Timeouts
import ElCache.Cluster.Connection
import ElCache.Cluster.Remote
import ElCache.Cluster.Receive
import ElCache.Cluster.Frames
import ElCache.Cluster.Fleet
import ElCache.Cluster.Answers
import ElCache.Cluster.Membership
import ElCache.Cluster.Handshake
import ElCache.Cluster.Routing
import ElCache.Lib.Part
import ElCache.Disk.Steps
import ElCache.Coordinator.Absent
import ElCache.Coordinator.Nodes
import ElCache.Protocol.Prefixes
import ElCache.Lib.Text
import ElCache.Lib.Search
import ElCache.Config.Json
import ElCache.Config.File
import ElCache.Config.Sections
import ElCache.Config.RoundTrip
import ElCache.Http.Message
import ElCache.Http.Handler
import ElCache.Coordinator.Outcome
import ElCache.Http.Numbers
import ElCache.Http.Ttl
import ElCache.Http.Finalize
import ElCache.Coordinator.Answer
import ElCache.Coordinator.Resident
import ElCache.Http.Ranges
import ElCache.Coordinator.Failed
import ElCache.Http.Service
import ElCache.Http.Refinement
import ElCache.Server
import ElCache.Lib.Account
import ElCache.Server.Uploads
import ElCache.Disk.Files
import ElCache.Disk.ShortReads
import ElCache.Disk.Restart
import ElCache.Disk.Host
import ElCache.Disk.Races
import ElCache.Disk.Rewrites
