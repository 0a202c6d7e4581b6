import OrcDb.Lib.Locks

/-!
# The mutexes of a process

Every `std::mutex` and `std::shared_mutex` that the process of `src/main.cpp` takes, and for each
function which of them it takes, in which scope, and what it calls there. What a function does
besides is left out, and so is the outcome of its tests: `many` stands for a loop, whatever its
bound, and a scope may be left early (`Lib/Locks.lean`). So this has every order in which the
source can take its mutexes, and some that it cannot.

Three mutexes of `src/` are never taken: `main` makes no `ThreadPool` and no `OneShotTimer`, and
nobody calls a function of the `TokenStore` that it hands to the middleware.

`BecomeLeader`, `BecomeFollower`, `PersistHardState`, `AdvanceCommitIndex`, `IsLogUpToDate` and
`MaybeSnapshot` run under the `mu_` of their caller and take none themselves. `ApplyLoop` is
the one that calls a function which takes the mutexes of the store, once with `mu_` given back
(`ApplyEntry`) and once without (`MaybeSnapshot`).

Futures and `join` are waited for without a mutex. Those of the standard library and of `spdlog`
are not visible here.
-/

set_option autoImplicit false

namespace OrcDb

open Lib

inductive Mutex where
  /-- `RaftNode::mu_` -/
  | raftNode
  /-- `RaftLog::mu_` -/
  | raftLog
  /-- `WriteAheadLog::mu_` -/
  | wal
  /-- `KVStore::mu_` -/
  | store
  /-- `KVStore::watchMu_` -/
  | watch
  /-- The local `mu` of a call of `WatchHandler::Watch`. -/
  | poll (k : Nat)
  /-- `RaftPeer::sendMu_` -/
  | send (p : Nat)
  /-- `RaftPeer::pendingMu_` -/
  | pending (p : Nat)
  /-- `TcpServer::connMu_` -/
  | connections
  /-- `TcpConnection::writeMu` -/
  | writeBuf (c : Nat)
  /-- `Histogram::mu_` -/
  | histogram (k : Nat)
  /-- `Logger::mu_` -/
  | logger
deriving DecidableEq

namespace Locks

/-- A `std::lock_guard` or `std::unique_lock` to the end of its scope. -/
abbrev guarded (l : Mutex) (cs : List (LockCode Mutex)) : LockCode Mutex :=
  .locked l .exclusive (cs.foldr .seq .skip)

/-- A `std::shared_lock`. -/
abbrev reading (l : Mutex) : LockCode Mutex := .locked l .shared .skip

abbrev block (cs : List (LockCode Mutex)) : LockCode Mutex := cs.foldr .seq .skip

/-- A condition variable's `wait`, `wait_for` or `wait_until`: as often as the predicate fails. -/
abbrev wait : LockCode Mutex := .many (.unlocked .skip)

/-! ## Storage -/

namespace WriteAheadLog

def appendLogEntry : LockCode Mutex := guarded .wal []

def writeHardState : LockCode Mutex := guarded .wal []

def writeSnapshot : LockCode Mutex := guarded .wal []

end WriteAheadLog

namespace WatchHandler

/-- What `Watch` hands to `KVStore::Watch`. -/
def callback (k : Nat) : LockCode Mutex := guarded (.poll k) []

end WatchHandler

namespace KVStore

def get : LockCode Mutex := reading .store

def scan : LockCode Mutex := reading .store

def takeSnapshot : LockCode Mutex := reading .store

def size : LockCode Mutex := reading .store

def restoreSnapshot : LockCode Mutex := guarded .store []

def watch : LockCode Mutex := guarded .watch []

def unwatch : LockCode Mutex := guarded .watch []

def notifyWatchers : LockCode Mutex := guarded .watch [.many (.any WatchHandler.callback)]

def put : LockCode Mutex := block [guarded .store [], notifyWatchers]

def delete : LockCode Mutex := block [guarded .store [], notifyWatchers]

def cas : LockCode Mutex := block [guarded .store [], notifyWatchers]

def purgeExpired : LockCode Mutex := block [guarded .store [], .many notifyWatchers]

end KVStore

/-! ## Raft -/

namespace RaftLog

def append : LockCode Mutex := guarded .raftLog [WriteAheadLog.appendLogEntry]

def appendAll : LockCode Mutex := guarded .raftLog [.many WriteAheadLog.appendLogEntry]

def setSnapshot : LockCode Mutex := guarded .raftLog []

def getEntry : LockCode Mutex := reading .raftLog

def lastIndex : LockCode Mutex := reading .raftLog

def lastTerm : LockCode Mutex := reading .raftLog

def getTerm : LockCode Mutex := reading .raftLog

def size : LockCode Mutex := reading .raftLog

end RaftLog

namespace RaftPeer

def disconnect (p : Nat) : LockCode Mutex := guarded (.pending p) []

def recvLoop (p : Nat) : LockCode Mutex := .many (.alt (disconnect p) (guarded (.pending p) []))

/-- A failed `send` disconnects under `sendMu_`. -/
def sendRaw (p : Nat) : LockCode Mutex := guarded (.send p) [disconnect p]

/-- `SendAppendEntries` and `SendRequestVote`: the entry of `pending_` is made before the
    request is sent, and taken back if that fails. -/
def sendRequest (p : Nat) : LockCode Mutex :=
  block [guarded (.pending p) [], sendRaw p, guarded (.pending p) []]

end RaftPeer

namespace RaftNode

def persistHardState : LockCode Mutex := WriteAheadLog.writeHardState

def becomeFollower : LockCode Mutex := persistHardState

def becomeLeader : LockCode Mutex := block [RaftLog.lastIndex, RaftLog.append]

def isLogUpToDate : LockCode Mutex := block [RaftLog.lastTerm, RaftLog.lastIndex]

def advanceCommitIndex : LockCode Mutex := block [RaftLog.lastIndex, .many RaftLog.getTerm]

def startElection : LockCode Mutex := block [
  guarded .raftNode [persistHardState, RaftLog.lastIndex, RaftLog.lastTerm],
  .many (.any RaftPeer.sendRequest),
  .many (guarded .raftNode [becomeFollower]),
  guarded .raftNode [becomeLeader]]

/-- The lock is not taken again after the election. The scope ends without it. -/
def electionLoop : LockCode Mutex := .many (guarded .raftNode [
  wait,
  .alt wait (.unlocked startElection)])

def replicateToPeer (p : Nat) : LockCode Mutex := block [
  guarded .raftNode [RaftLog.lastIndex, RaftLog.getTerm, RaftLog.lastIndex,
    .many RaftLog.getEntry],
  RaftPeer.sendRequest p,
  guarded .raftNode [.alt becomeFollower
    (.alt advanceCommitIndex (block [RaftLog.lastIndex, .many RaftLog.getTerm]))]]

def sendHeartbeatsToAll : LockCode Mutex := .many (.any replicateToPeer)

def replicationLoop : LockCode Mutex := .many sendHeartbeatsToAll

def applyEntry : LockCode Mutex := .alt KVStore.put KVStore.delete

def maybeSnapshot : LockCode Mutex := block [RaftLog.size, KVStore.takeSnapshot, RaftLog.getTerm,
  WriteAheadLog.writeSnapshot, RaftLog.setSnapshot]

def applyLoop : LockCode Mutex := .many (guarded .raftNode [
  wait,
  .many (block [RaftLog.getEntry, .unlocked applyEntry]),
  maybeSnapshot])

def handleAppendEntries : LockCode Mutex := guarded .raftNode [
  becomeFollower,
  RaftLog.lastIndex, RaftLog.lastIndex, RaftLog.getTerm, .many RaftLog.getTerm,
  RaftLog.appendAll,
  RaftLog.lastIndex]

def handleRequestVote : LockCode Mutex :=
  guarded .raftNode [becomeFollower, isLogUpToDate, persistHardState]

def propose : LockCode Mutex := guarded .raftNode [RaftLog.lastIndex, RaftLog.append, wait]

def getLeaderId : LockCode Mutex := guarded .raftNode []

/-- The constructor, before there are other threads. -/
def recover : LockCode Mutex :=
  block [KVStore.restoreSnapshot, RaftLog.setSnapshot, .many RaftLog.append]

end RaftNode

def RaftRpcServer.handleConn : LockCode Mutex :=
  .many (.alt RaftNode.handleAppendEntries RaftNode.handleRequestVote)

/-! ## HTTP -/

/-- `wait_for` in `Watch` is under the poll's own mutex. -/
def WatchHandler.watch (k : Nat) : LockCode Mutex :=
  block [KVStore.watch, guarded (.poll k) [wait], KVStore.unwatch]

namespace KVHandler

def redirectToLeader : LockCode Mutex := RaftNode.getLeaderId

def get : LockCode Mutex := KVStore.get

def put : LockCode Mutex :=
  .alt redirectToLeader (block [RaftNode.propose, redirectToLeader])

def delete : LockCode Mutex :=
  .alt redirectToLeader (block [KVStore.get, RaftNode.propose])

def list : LockCode Mutex := KVStore.scan

def compareAndSwap : LockCode Mutex := .alt redirectToLeader KVStore.cas

end KVHandler

/-- `Status` and `Leader`. -/
def ClusterHandler.status : LockCode Mutex := RaftNode.getLeaderId

def HealthHandler.readiness : LockCode Mutex :=
  block [RaftNode.getLeaderId, RaftNode.getLeaderId]

/-- The two histograms, one after the other. -/
def OrcMetrics.collect : LockCode Mutex :=
  block [guarded (.histogram 0) [], guarded (.histogram 1) []]

/-- Whichever handler the path leads to. -/
def Router.dispatch : LockCode Mutex :=
  .alt KVHandler.get <| .alt KVHandler.put <| .alt KVHandler.delete <| .alt KVHandler.list <|
  .alt KVHandler.compareAndSwap <| .alt (.any WatchHandler.watch) <|
  .alt ClusterHandler.status <| .alt HealthHandler.readiness OrcMetrics.collect

namespace TcpServer

def queueWrite (c : Nat) : LockCode Mutex := guarded (.writeBuf c) []

def hasPendingWrite (c : Nat) : LockCode Mutex := guarded (.writeBuf c) []

def handleRead (c : Nat) : LockCode Mutex := .many (block [Router.dispatch, queueWrite c])

def handleWrite (c : Nat) : LockCode Mutex := guarded (.writeBuf c) []

def ioLoop : LockCode Mutex := .many (.any fun c => block [
  guarded .connections [],
  handleRead c, handleWrite c, hasPendingWrite c,
  guarded .connections []])

def acceptLoop : LockCode Mutex := .many (guarded .connections [])

def activeConnections : LockCode Mutex := guarded .connections []

end TcpServer

/-- The thread of `main`, with the destructors of the peers at its end. -/
def main : LockCode Mutex := block [
  guarded .logger [],
  RaftNode.recover,
  .many (block [KVStore.size, TcpServer.activeConnections]),
  .many (.any RaftPeer.disconnect)]

/-- What a thread of the process runs. There is one receiving thread for each peer, and one
    `HandleConn` for each connection that another node has opened. -/
inductive Entry : LockCode Mutex → Prop
  | main : Entry main
  | electionLoop : Entry RaftNode.electionLoop
  | replicationLoop : Entry RaftNode.replicationLoop
  | applyLoop : Entry RaftNode.applyLoop
  | recvLoop (p : Nat) : Entry (RaftPeer.recvLoop p)
  | handleConn : Entry RaftRpcServer.handleConn
  | acceptLoop : Entry TcpServer.acceptLoop
  | ioLoop : Entry TcpServer.ioLoop
  /-- Nothing of the process calls it, but it is there for whoever wants to. -/
  | purgeExpired : Entry KVStore.purgeExpired

end Locks
end OrcDb
