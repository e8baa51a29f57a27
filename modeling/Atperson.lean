import Atperson.Wire.LittleEndian
import Atperson.Wire.CText
import Atperson.Wire.FramedLog
import Atperson.Wire.TornLog
import Atperson.Wire.Cursor
import Atperson.Ledger.Types
import Atperson.Ledger.Format
import Atperson.Ledger.Recover
import Atperson.Ledger.Query
import Atperson.Ledger.Operations
import Atperson.Ledger.Compact
import Atperson.Ledger.Consistency
import Atperson.Ledger.FailedCommits
import Atperson.Ledger.Machine
import Atperson.Ledger.Commitment
import Atperson.Ledger.Clean
import Atperson.Ledger.Crash
import Atperson.Ledger.Release
import Atperson.Ledger.Numbered
import Atperson.Core.Types
import Atperson.Core.Tokenize
import Atperson.Runs.Filling
import Atperson.Core.Truncation
import Atperson.Core.Network
import Atperson.Core.Groups
import Atperson.Core.Observe
import Atperson.Core.Lifecycle
import Atperson.Core.Capacity
import Atperson.Core.Migration
import Atperson.Core.Replay
import Atperson.Core.Unlearning
import Atperson.Core.Rebuild
import Atperson.Runs.Fallible
import Atperson.Runs.Guarded
import Atperson.Runs.SlidingWindow
import Atperson.Wire.Json
import Atperson.Outbound.Budget
import Atperson.Outbound.BudgetFile
import Atperson.Outbound.Evaluate
import Atperson.Outbound.Limits
import Atperson.Outbound.Pacing
import Atperson.Outbound.Deferral
import Atperson.Wire.Double
import Atperson.Control.State
import Atperson.Outbound.Spool
import Atperson.Outbound.Conservation
import Atperson.Wire.Decimal
import Atperson.Wire.Timestamp
import Atperson.Journal.Types
import Atperson.Outbound.Action
import Atperson.Outbound.Expectation
import Atperson.Outbound.Execute
import Atperson.Outbound.Attempt
import Atperson.Outbound.GateOrder
import Atperson.Control.Remote
import Atperson.Control.Poll
import Atperson.Control.InOrder
import Atperson.Control.Repeated
import Atperson.Lock.StateLock
import Atperson.Lock.Exclusive
import Atperson.Runs.CountCursor
import Atperson.Thought.Store
import Atperson.Replicate.Records
import Atperson.Replicate.Cursor
import Atperson.Replicate.Publish
import Atperson.Replicate.Acts
import Atperson.Replicate.Working
import Atperson.Replicate.Host
import Atperson.Replicate.Observations
import Atperson.Replicate.Counted
import Atperson.Replicate.Bounded
import Atperson.Replicate.Publication
import Atperson.Replicate.Delivery
import Atperson.Protocol.Evidence
import Atperson.Protocol.Survival
import Atperson.Cli.Writers
import Atperson.Sync.Learning
import Atperson.Daemon.Graceful
import Atperson.Cli.TwoRebuilds
import Atperson.Sync.Faithful
import Atperson.Sync.Jetstream
import Atperson.Sync.Withdrawals
import Atperson.Sync.LiveGraph
import Atperson.Sync.Crashes
import Atperson.Core.ValenceFold
import Atperson.Core.Vocabulary
import Atperson.Core.Lineage
import Atperson.Cli.Restorable
import Atperson.Cli.Histories
import Atperson.Core.Growth
import Atperson.Journal.Rules
import Atperson.Intent.State
import Atperson.Journal.Resolve
import Atperson.Intent.Conversations
import Atperson.Intent.Bounds
import Atperson.Journal.Command
import Atperson.Journal.Desk
import Atperson.Sync.JetstreamClient
import Atperson.Sync.Gaps
import Atperson.Sync.Checkpoints
import Atperson.Worker.Pool
import Atperson.Worker.Recovery
import Atperson.Core.Boundaries
import Atperson.Runs.Blocks
import Atperson.Core.Roles
import Atperson.Core.Expansion
import Atperson.Ledger.RoundTrip
import Atperson.Wire.Image
import Atperson.Snapshot.Sections
import Atperson.Snapshot.Load
import Atperson.Runs.Compaction
import Atperson.Runs.Roster
import Atperson.Core.Recall
import Atperson.Core.Prune
import Atperson.Snapshot.Save
import Atperson.Snapshot.Reload
import Atperson.Core.ValenceBook
import Atperson.Snapshot.Bookkeeping
import Atperson.Ledger.Migrate
import Atperson.Ledger.Migration
import Atperson.Control.Progress
import Atperson.Wire.Calendar
import Atperson.Wire.Instant
import Atperson.Wire.Search
import Atperson.Outbound.SpoolText
import Atperson.Control.Envelope
import Atperson.Control.Coverage
import Atperson.Control.Saving
import Atperson.Sync.Parallel
import Atperson.Runs.Ranking
import Atperson.Wire.Strcmp
import Atperson.Floats.Binary32
import Atperson.Runs.Terminal
import Atperson.Core.Candidates
import Atperson.Core.Plans
import Atperson.Core.Guard
import Atperson.Core.Decision
import Atperson.Core.Ties
import Atperson.Core.Settled
import Atperson.Core.Continuity
import Atperson.Scheduler.Breaker
import Atperson.Scheduler.BreakerLaw
import Atperson.Wire.Utf8
import Atperson.Wire.Occurrences
import Atperson.Scheduler.TextGuard
import Atperson.Scheduler.TextRules
import Atperson.Floats.Order
import Atperson.Scheduler.Drives
import Atperson.Runs.StableSort
import Atperson.Scheduler.DriveOrder
import Atperson.Wire.SortableDigits
import Atperson.Scheduler.Engagement
import Atperson.Scheduler.Proposals
import Atperson.Scheduler.RecordKeys
import Atperson.Scheduler.Execution
import Atperson.Scheduler.ExecutionSteps
import Atperson.Scheduler.Starvation
import Atperson.Wire.Delimited
import Atperson.Protocol.Identifiers
import Atperson.Control.RequestKeys
import Atperson.Runs.Words
import Atperson.Core.NeuralLayout
import Atperson.Protocol.Grammar
import Atperson.Journal.Mac
import Atperson.Journal.MacBinding
import Atperson.Runs.Probing
import Atperson.Ledger.Index
import Atperson.Core.Indexes
import Atperson.Floats.Counts
import Atperson.Core.Episodic
import Atperson.Snapshot.Probe
import Atperson.Runs.Owing
import Atperson.Wire.Cbor
import Atperson.Protocol.CborRecord
import Atperson.Resource.Profile
import Atperson.Resource.Budget
import Atperson.Resource.Ceilings
import Atperson.Resource.Expanding
import Atperson.Scheduler.Cycle
import Atperson.Scheduler.Puts
import Atperson.Scheduler.Paced
import Atperson.Scheduler.OnRecord
import Atperson.Runs.FirstSeen
import Atperson.Sync.Linkage
import Atperson.Scheduler.Draining
