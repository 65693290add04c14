import NimbusVault.Lib.Machine
import NimbusVault.Coordinator
import NimbusVault.Lib.Fold
import NimbusVault.Payload
import NimbusVault.TableOp
import NimbusVault.ChunkStore
import NimbusVault.StorageRpc
import NimbusVault.PutChunk
import NimbusVault.Service
import NimbusVault.Client
import NimbusVault.History
import NimbusVault.QuorumRead
import NimbusVault.Reconfig
import NimbusVault.Race
import NimbusVault.Recovery
import NimbusVault.ReconfigRun
import NimbusVault.PutVersions
import NimbusVault.StableHolders
import NimbusVault.Follower
import NimbusVault.Replication
import NimbusVault.LogPrefix
import NimbusVault.Quorum
import NimbusVault.LeaderFirst
import NimbusVault.LogTable
import NimbusVault.FollowerCommit
import NimbusVault.LeaderReplay
import NimbusVault.MetaWal
import NimbusVault.Lib.Prefix
import NimbusVault.Reopen
import NimbusVault.Snapshot
import NimbusVault.SnapshotRace
import NimbusVault.Lib.Scan
import NimbusVault.SnapshotReads
import NimbusVault.Bootstrap
import NimbusVault.Repair
import NimbusVault.StaleLists
import NimbusVault.OldCopies
import NimbusVault.ReadRace
import NimbusVault.AvailableReads
import NimbusVault.NodeTable
import NimbusVault.VersionMap
import NimbusVault.ChunkIds
import NimbusVault.WalDb
import NimbusVault.FailingAppend
import NimbusVault.CatchUp
import NimbusVault.LoggedOp
import NimbusVault.LeaderTable
import NimbusVault.Policy
import NimbusVault.PolicyLoop
import NimbusVault.FetchStream
import NimbusVault.CopyVersion
import NimbusVault.Lib.Greedy
import NimbusVault.Lib.Binary64
import NimbusVault.Placement
import NimbusVault.TargetSets
import NimbusVault.Hysteresis
import NimbusVault.Eviction
import NimbusVault.RepairRun
import NimbusVault.StatsReporter
import NimbusVault.StubCache
import NimbusVault.Lib.Worklist
import NimbusVault.RegisterChecker
import NimbusVault.Linearizable
import NimbusVault.HistoryTracer
import NimbusVault.Workload
import NimbusVault.FollowerStatus
import NimbusVault.HeartbeatLog
import NimbusVault.SelfHealing
import NimbusVault.RestartRepair
import NimbusVault.CrashLog
import NimbusVault.SnapshotStream
import NimbusVault.AccessFlow
import NimbusVault.HistoryStats
import NimbusVault.WorkloadRun
import NimbusVault.ReplicaAdmin
import NimbusVault.LeaderLife
import NimbusVault.SerialChunk
