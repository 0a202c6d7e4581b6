import OrcDb.Proof.Raft.Commit
import OrcDb.Proof.Raft.Propose
import OrcDb.Proof.Storage.Restart
import OrcDb.Proof.Storage.Torn
import OrcDb.Proof.Raft.Durable
import OrcDb.Proof.Raft.Expiry
import OrcDb.Proof.Network.Chunks
import OrcDb.Proof.Network.Closing
import OrcDb.Proof.Network.Descriptors
import OrcDb.Proof.Api.StoreLog
import OrcDb.Proof.Auth.Bypass
import OrcDb.Proof.Raft.Peer
import OrcDb.Proof.Raft.Wire
import OrcDb.Proof.Storage.WatchOrder
import OrcDb.Proof.Raft.Repair
import OrcDb.Proof.Raft.CommitRule
import OrcDb.Proof.Raft.LeaderId
import OrcDb.Proof.Raft.SelfListed
import OrcDb.Proof.Raft.Response
import OrcDb.Proof.Raft.Batch
import OrcDb.Proof.Raft.Compacted
import OrcDb.Proof.Raft.RpcServer
import OrcDb.Proof.Storage.FailedWrite
import OrcDb.Proof.Storage.Corrupt
import OrcDb.Proof.Network.Hostile
import OrcDb.Proof.Auth.Token
import OrcDb.Proof.Auth.Revocation
import OrcDb.Proof.Api.Put
import OrcDb.Proof.Storage.Scan
import OrcDb.Proof.Raft.LeaderView
import OrcDb.Proof.Storage.Checksum
import OrcDb.Proof.Api.Match
import OrcDb.Proof.Api.PathKey
import OrcDb.Proof.Auth.Base64
import OrcDb.Proof.Raft.WellFormed
import OrcDb.Lib.Reach
import OrcDb.Proof.Raft.Elect
import OrcDb.Proof.Raft.Recovery
import OrcDb.Proof.Raft.Serving
import OrcDb.Proof.Raft.Order
import OrcDb.Proof.Raft.Link
import OrcDb.Proof.Raft.Wakeups
import OrcDb.Proof.Raft.Timer
import OrcDb.Proof.Api.Consistency
import OrcDb.Proof.Api.Provenance
import OrcDb.Proof.Api.Polls
import OrcDb.Proof.Locks
import OrcDb.Proof.Storage.WalDirectory
