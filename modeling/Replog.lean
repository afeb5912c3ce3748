import Replog.Checker.Duplicates
import Replog.Checker.HistoryFile
import Replog.Checker.Readers
import Replog.Client.Attempts
import Replog.Client.Connection
import Replog.Client.Consuming
import Replog.Client.Metadata
import Replog.Client.Producer
import Replog.Client.Routing
import Replog.Controller.Settling
import Replog.Controller.SnapshotFile
import Replog.Controller.Timing
import Replog.Controller.Versions
import Replog.Groups.Consumer
import Replog.Groups.Coverage
import Replog.Groups.Deliveries
import Replog.Groups.DurableCommits
import Replog.Groups.StoreRestarts
import Replog.Groups.Incarnations
import Replog.Groups.OffsetsCache
import Replog.Groups.Ranges
import Replog.Groups.Replay
import Replog.Groups.Starvation
import Replog.Hosting.Directories
import Replog.Hosting.Standalone
import Replog.Library.Transition
import Replog.Library.Turns
import Replog.Partition.Commands
import Replog.Partition.CommitTimer
import Replog.Partition.DurableAcks
import Replog.Partition.DurableQueue
import Replog.Partition.EpochStarts
import Replog.Partition.LostBytes
import Replog.Proto.FrameStream
import Replog.Proto.RoundTrip
import Replog.Proto.Spellings
import Replog.Replication.Admission
import Replog.Replication.AdmittedAlive
import Replog.Replication.Contents
import Replog.Replication.Controller
import Replog.Replication.Projection
import Replog.Replication.Reconciliation
import Replog.Replication.Succession
import Replog.Runtime.Refresh
import Replog.Serving.FrameSizes
import Replog.Serving.Pipelines
import Replog.Storage.ByteCorruption
import Replog.Storage.Counters
import Replog.Storage.DurableOffset
import Replog.Storage.FaultyRuns
import Replog.Storage.IndexCache
import Replog.Storage.OtherConfig
import Replog.Storage.Reconfigured
import Replog.Storage.TornTails
import Replog.Storage.TruncationErrors
import Replog.Torture.Judged
import Replog.Torture.Run
