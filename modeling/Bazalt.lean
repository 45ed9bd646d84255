import Bazalt.Api.FlowContent
import Bazalt.Api.Login
import Bazalt.Api.MatchProjection
import Bazalt.Api.Sessions
import Bazalt.Capture.CacheBudget
import Bazalt.Capture.Encapsulation
import Bazalt.Capture.Prefilter
import Bazalt.Capture.Truncation
import Bazalt.Capture.Worker
import Bazalt.Flow.Drain
import Bazalt.Flow.Expiry
import Bazalt.Flow.FinBound
import Bazalt.Flow.FinSafety
import Bazalt.Flow.FirstWins
import Bazalt.Flow.GapAge
import Bazalt.Flow.Mirror
import Bazalt.Flow.OrderIndependence
import Bazalt.Flow.Outputs
import Bazalt.Flow.Termination
import Bazalt.Flow.Timers
import Bazalt.Flow.Tombstones
import Bazalt.Flow.Wraparound
import Bazalt.Http.BrokenChunks
import Bazalt.Http.ChunkedEncoding
import Bazalt.Http.Decompression
import Bazalt.Http.Headers
import Bazalt.Http.Pairing
import Bazalt.Http.Resync
import Bazalt.Http.Scanning
import Bazalt.Http.Segmentation
import Bazalt.Http.Wire
import Bazalt.Live.Drain
import Bazalt.Live.Queues
import Bazalt.Live.Workers
import Bazalt.Matching.Activation
import Bazalt.Matching.Housekeeping
import Bazalt.Matching.Limits
import Bazalt.Matching.Manager
import Bazalt.Matching.Scoping
import Bazalt.Replay.Agreement
import Bazalt.Replay.Checkpoint
import Bazalt.Replay.Coverage
import Bazalt.Replay.Decoded
import Bazalt.Replay.JobSettled
import Bazalt.Replay.JobWorkers
import Bazalt.Services.Registry
import Bazalt.Storage.Barriers
import Bazalt.Storage.Budget
import Bazalt.Storage.IndexConsistency
import Bazalt.Storage.Retention
import Bazalt.Storage.RoundTrip
import Bazalt.Storage.Sql
import Bazalt.Storage.TailRecovery
import Bazalt.Topology.RuleBook
import Bazalt.Topology.Snapshots
import Bazalt.Topology.XdpSource
