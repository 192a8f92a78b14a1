import KVStore.Splice
import KVStore.Replay
import KVStore.Run
import KVStore.Exec
import KVStore.Storage
import KVStore.RaftNode
import KVStore.NodeSpec
import KVStore.CommitSpec
import KVStore.SendSpec
import KVStore.Events
import KVStore.SingleNode
import KVStore.Follower
import KVStore.Terms
import KVStore.Proposal
import KVStore.Quorum
import KVStore.Cluster
import KVStore.LogMatching
import KVStore.Election
import KVStore.Replication
import KVStore.Deposed
import KVStore.Reads
import KVStore.Merge
import KVStore.Server
import KVStore.Tables
import KVStore.Faults
import KVStore.Regime
import KVStore.Recovery
import KVStore.FailedWrites
import KVStore.Interrupted
import KVStore.Unapplied
import KVStore.Catchup
import KVStore.CommitRule
import KVStore.PartialMerge
import KVStore.Credit
import KVStore.VoteFutures
import KVStore.Tallies
import KVStore.Client
import KVStore.RpcClient
import KVStore.Durability
import KVStore.Replicas
import KVStore.Concurrent
import KVStore.Sharing
import KVStore.Interleavings
import KVStore.Scheduling
import KVStore.Deployment
import KVStore.Leadership
import KVStore.FaultyInterleavings
import KVStore.FaultyDeployment
import KVStore.Fairness
import KVStore.Settling
