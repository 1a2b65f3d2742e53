import Jetpack.Library.Tally
import Jetpack.Library.Transition
import Jetpack.Library.Voting
import Jetpack.Library.Rank
import Jetpack.Library.BallotWindow
import Jetpack.Library.SerialHistory
import Jetpack.Library.Decoding
import Jetpack.Library.Precedence
import Jetpack.Command
import Jetpack.Candidates
import Jetpack.CommandPool
import Jetpack.QuorumEvent
import Jetpack.RecoveryQuorum
import Jetpack.Raft.Server
import Jetpack.Raft.System
import Jetpack.Raft.Control
import Jetpack.Raft.Election
import Jetpack.Raft.ElectionSafety
import Jetpack.Raft.Timing
import Jetpack.Raft.Lease
import Jetpack.Recovery.Server
import Jetpack.Recovery.System
import Jetpack.Recovery.Ballots
import Jetpack.Recovery.Agreement
import Jetpack.Recovery.Witnesses
import Jetpack.Recovery.FastCommits
import Jetpack.Recovery.Epochs
import Jetpack.Recovery.Frozen
import Jetpack.Recovery.SingleEpoch
import Jetpack.Rule.Coordinator
import Jetpack.Rule.Evidence
import Jetpack.Scheduler.Server
import Jetpack.Scheduler.ExactlyOnce
import Jetpack.Scheduler.Replay
import Jetpack.Mencius.Server
import Jetpack.Mencius.ExecutionOrder
import Jetpack.Occ.Server
import Jetpack.Occ.Serializability
import Jetpack.Marshal.Values
import Jetpack.Marshal.Commands
import Jetpack.Marshal.RoundTrip
import Jetpack.Copilot.Server
import Jetpack.Copilot.System
import Jetpack.Copilot.Handled
import Jetpack.Copilot.Agreement
import Jetpack.Copilot.Coverage
import Jetpack.Swift.Server
import Jetpack.Swift.System
import Jetpack.Swift.Votes
import Jetpack.Swift.Sequence
import Jetpack.Swift.Delivery
import Jetpack.Swift.Merge
import Jetpack.Swift.Ballots
import Jetpack.Swift.Recovery
import Jetpack.Swift.Committers
import Jetpack.PoolCounts
import Jetpack.Library.Calls
import Jetpack.RecoverableId
import Jetpack.FastPath.Server
import Jetpack.FastPath.Admission
import Jetpack.FastPath.Phantoms
import Jetpack.Rule.Completion
import Jetpack.Library.Stream
import Jetpack.Library.Multimap
import Jetpack.Library.Ring
import Jetpack.Rpc.Marshal
import Jetpack.Rpc.Chunks
import Jetpack.Rpc.ByteQueue
import Jetpack.Memdb.Snapshot
import Jetpack.Memdb.Visibility
import Jetpack.Memdb.Groups
import Jetpack.Memdb.Links
import Jetpack.Memdb.Isolation
import Jetpack.Reactor.Loop
import Jetpack.Reactor.WakeUp
import Jetpack.Recovery.Adoption
import Jetpack.Recovery.Resubmission
import Jetpack.Raft.MatchIndex
import Jetpack.Copilot.Watermarks
import Jetpack.Swift.Dependencies
import Jetpack.Rpc.SparseInt
import Jetpack.Lock.WaitDie
import Jetpack.Lock.Wound
import Jetpack.Lock.Guard
import Jetpack.Paxos.Server
import Jetpack.Paxos.Partition
import Jetpack.Paxos.Replicas
import Jetpack.Occ.Removal
import Jetpack.Occ.Rollback
import Jetpack.Occ.Leader
import Jetpack.Occ.Checks
import Jetpack.EPaxos.Search
import Jetpack.Rpc.Extraction
import Jetpack.Rpc.Client
import Jetpack.Rpc.Replies
import Jetpack.Rpc.Session
import Jetpack.Rpc.Exchange
import Jetpack.Rpc.Delivery
import Jetpack.Curp.Witness
import Jetpack.Tapir.Records
import Jetpack.Carousel.Pending
import Jetpack.Memdb.Collection
import Jetpack.Memdb.FirstMatch
import Jetpack.Memdb.MergedCursor
import Jetpack.Memdb.NestedCommit
import Jetpack.Rcc.StrongConnect
import Jetpack.Sharding
import Jetpack.Mencius.Skips
import Jetpack.CommandKeys
import Jetpack.Scheduler.RecentAverage
import Jetpack.Library.Packing
import Jetpack.Rows.Schema
import Jetpack.Rows.Creation
import Jetpack.Rows.Coherence
import Jetpack.Occ.AtomicCommit
import Jetpack.Library.Leadership
import Jetpack.Raft.Reigns
import Jetpack.Raft.LeaderLogs
import Jetpack.Raft.LeaderWrites
import Jetpack.Raft.Commits
import Jetpack.Raft.StateMachine
import Jetpack.Raft.Agreement
