import MessageBroker.Lib.Runs
import MessageBroker.Lib.Maps
import MessageBroker.Lib.Ascii
import MessageBroker.Lib.Bytes
import MessageBroker.Lib.Tiling
import MessageBroker.Lib.Varint
import MessageBroker.Lib.Cursors
import MessageBroker.Lib.Layouts
import MessageBroker.Lib.Search
import MessageBroker.Lib.Heap
import MessageBroker.Lib.Decimal
import MessageBroker.Lib.Text
import MessageBroker.Controller.State
import MessageBroker.Controller.Apply
import MessageBroker.Controller.Snapshot
import MessageBroker.Controller.Validation
import MessageBroker.Controller.Invariant
import MessageBroker.Controller.Fencing
import MessageBroker.Controller.Replay
import MessageBroker.Controller.Rejoin
import MessageBroker.Controller.Commands
import MessageBroker.Controller.Metadata
import MessageBroker.Storage.Batch
import MessageBroker.Storage.Segment
import MessageBroker.Storage.Index
import MessageBroker.Storage.EpochCache
import MessageBroker.Storage.Log
import MessageBroker.Storage.Truncate
import MessageBroker.Storage.Layout
import MessageBroker.Storage.Stamping
import MessageBroker.Storage.Encoding
import MessageBroker.Storage.SizeEstimate
import MessageBroker.Storage.Decoding
import MessageBroker.Storage.Recovery
import MessageBroker.Storage.Indexing
import MessageBroker.Storage.Growth
import MessageBroker.Storage.Appends
import MessageBroker.Storage.Cutting
import MessageBroker.Storage.Reopening
import MessageBroker.Storage.Tiling
import MessageBroker.Storage.Opening
import MessageBroker.Storage.Gaps
import MessageBroker.Storage.Exactness
import MessageBroker.Storage.Restart
import MessageBroker.Storage.Crash
import MessageBroker.Storage.Residue
import MessageBroker.Storage.Salvage
import MessageBroker.Storage.EndOffset
import MessageBroker.Storage.Acceptance
import MessageBroker.Storage.Scanning
import MessageBroker.Storage.Checkpoint
import MessageBroker.Storage.EpochHistory
import MessageBroker.Storage.Reading
import MessageBroker.Storage.Ranges
import MessageBroker.Storage.Epochs
import MessageBroker.Storage.EpochQueries
import MessageBroker.Storage.Reachable
import MessageBroker.Storage.History
import MessageBroker.Storage.Replication
import MessageBroker.Storage.Prefixes
import MessageBroker.Storage.Leftovers
import MessageBroker.Storage.Spans
import MessageBroker.Storage.Divergence
import MessageBroker.Storage.Boundaries
import MessageBroker.Broker.Partition
import MessageBroker.Broker.PartitionRaw
import MessageBroker.Broker.Operations
import MessageBroker.Broker.Watermark
import MessageBroker.Broker.Interleaving
import MessageBroker.Broker.Purgatory
import MessageBroker.Broker.Goroutines
import MessageBroker.Broker.Completion
import MessageBroker.Broker.Wakeups
import MessageBroker.Broker.EpochTrace
import MessageBroker.Broker.Reconcile
import MessageBroker.Broker.Stuck
import MessageBroker.Broker.Visibility
import MessageBroker.Broker.FetchPass
import MessageBroker.Broker.FetchPaths
import MessageBroker.Broker.SingleEpoch
import MessageBroker.Broker.Topics
import MessageBroker.Broker.TopicRecovery
import MessageBroker.Broker.Standalone
import MessageBroker.Broker.Assignments
import MessageBroker.Broker.Roles
import MessageBroker.Broker.Isolation
import MessageBroker.Protocol.Decoder
import MessageBroker.Protocol.Header
import MessageBroker.Protocol.Wire
import MessageBroker.Protocol.RecordBatch
import MessageBroker.Protocol.HeaderCodec
import MessageBroker.Protocol.Fetch
import MessageBroker.Protocol.FetchRequest
import MessageBroker.Protocol.Compact
import MessageBroker.Protocol.LeaderEpoch
import MessageBroker.Protocol.LeaderEpochSafety
import MessageBroker.Storage.DecodeSafety
import MessageBroker.Protocol.RecordSafety
import MessageBroker.Protocol.Requests
import MessageBroker.Protocol.Layouts
import MessageBroker.Server.Response
import MessageBroker.Server.Connection
import MessageBroker.Broker.FetchStream
import MessageBroker.Broker.ReplicaClient
import MessageBroker.Broker.FetchWorker
import MessageBroker.Broker.FetchManager
