import OrcDb.Raft.Log

/-!
# `RaftNode` — one node, one critical section at a time

`src/raft/RaftNode.{hpp,cpp}`. Every function here is the body of one `mu_`-protected
section, as a function on the node; a call that gives up the lock half-way
(`StartElection`, `ReplicateToPeer`, `Propose`, `ApplyLoop`) is split at that point, and its
local variables live in a `…Call` record on the node until its next section runs.

`wal` is the disk as the list of completed record writes; it alone survives a stop.
`applied` is the sequence of entries passed to `ApplyEntry`, which is all the store is ever
told. Clocks and timers are not modelled: an election timeout, an RPC timeout and a
deadline are steps that may be taken at any time.
-/

set_option autoImplicit false

namespace OrcDb

open Lib

inductive RaftRole where
  | Follower
  | Candidate
  | Leader
deriving DecidableEq

/-- What `RaftNode` reads of its configuration. -/
structure RaftConfig where
  nodeId : String
  peers : List String
  snapshotThreshold : Nat := 10000

/-- `std::unordered_map<std::string, uint64_t>`. -/
abbrev IndexMap := AList (fun _ : String => Nat)

/-- `m[k]` of the map: a missing key reads as 0. -/
def IndexMap.at (m : IndexMap) (k : String) : Nat := (m.lookup k).getD 0

/-- The locals of a `StartElection` call: `pending` are the peers whose futures it has
    not waited for yet, in the order of `peers_`. -/
structure ElectionCall where
  id : Nat
  term : Nat
  votes : Nat
  pending : List String
deriving DecidableEq

/-- The locals of a `ReplicateToPeer` call that are read after the RPC: the peer, the
    captured `currentTerm` and `prevIndex`, and `entries.size()`. -/
structure ReplicateCall where
  id : Nat
  peerId : String
  term : Nat
  prevIndex : Nat
  count : Nat
deriving DecidableEq

/-- The locals of a waiting `Propose` call. -/
structure ProposeCall where
  id : Nat
  index : Nat
  entry : LogEntry
deriving DecidableEq

structure ProposeResult where
  ok : Bool := false
  error : String := ""
  index : Nat := 0
deriving DecidableEq

structure RaftNode where
  currentTerm : Nat := 0
  votedFor : String := ""
  commitIndex : Nat := 0
  lastApplied : Nat := 0
  role : RaftRole := .Follower
  leaderId : String := ""
  nextIndex : IndexMap := ∅
  matchIndex : IndexMap := ∅
  log : RaftLog := RaftLog.empty
  running : Bool := true
  election : Option ElectionCall := none
  replication : Option ReplicateCall := none
  proposals : List ProposeCall := []
  /-- `next` and `entry` of `ApplyLoop` while it has released the lock. -/
  applying : Option (Nat × LogEntry) := none
  applied : List LogEntry := []
  wal : List WalRecord := []

namespace RaftNode

/-- `QuorumSize`. -/
def quorumSize (cfg : RaftConfig) : Nat := (cfg.peers.length + 1) / 2 + 1

/-- `PersistHardState`. -/
def persistHardState (n : RaftNode) : RaftNode :=
  { n with wal := n.wal ++ [.hardState { term := n.currentTerm, votedFor := n.votedFor }] }

/-- `log_->Append(e)`. -/
def appendLog (J : Json.Codec) (n : RaftNode) (e : LogEntry) : RaftNode :=
  let (log, records) := n.log.append J e
  { n with log, wal := n.wal ++ records }

/-- `log_->AppendAll(es)`. -/
def appendAllLog (J : Json.Codec) (n : RaftNode) (es : List LogEntry) : RaftNode :=
  let (log, records) := n.log.appendAll J es
  { n with log, wal := n.wal ++ records }

/-! ## Election -/

/-- `BecomeFollower`; `leaderId` is `""` when the caller does not know the leader. -/
def becomeFollower (n : RaftNode) (term : Nat) (leaderId : String) : RaftNode :=
  persistHardState
    { n with currentTerm := term, role := .Follower, votedFor := "",
             leaderId := if leaderId ≠ "" then leaderId else n.leaderId }

/-- `BecomeLeader`. -/
def becomeLeader (J : Json.Codec) (cfg : RaftConfig) (n : RaftNode) : RaftNode :=
  let lastIndex := n.log.lastIndex
  let n' :=
    { n with role := .Leader, leaderId := cfg.nodeId,
             nextIndex := cfg.peers.foldl (fun m p => m.insert p (lastIndex + 1)) n.nextIndex,
             matchIndex := cfg.peers.foldl (fun m p => m.insert p 0) n.matchIndex }
  -- a no-op commits the entries of prior terms
  n'.appendLog J (LogEntry.noOp J n.currentTerm (lastIndex + 1))

/-- The first section of `StartElection`, and the request it sends to every peer. -/
def startElection (cfg : RaftConfig) (id : Nat) (n : RaftNode) : RaftNode × RequestVoteRequest :=
  let term := n.currentTerm + 1
  let n' := persistHardState
    { n with currentTerm := term, votedFor := cfg.nodeId, role := .Candidate }
  ({ n' with election := some { id, term, votes := 1, pending := cfg.peers } },
   { term, candidateId := cfg.nodeId, lastLogIndex := n.log.lastIndex,
     lastLogTerm := n.log.lastTerm })

/-- A `StartElection` call takes the response of the first future it still waits for. -/
def recvVote (n : RaftNode) (call : ElectionCall) (resp : RequestVoteResponse) : RaftNode :=
  if resp.term > n.currentTerm then
    { n.becomeFollower resp.term "" with election := none }
  else if resp.voteGranted ∧ n.currentTerm = call.term ∧ n.role = .Candidate then
    let call := { call with votes := call.votes + 1, pending := call.pending.tail }
    { n with election := some call }
  else
    { n with election := some { call with pending := call.pending.tail } }

/-- That future timed out or threw. -/
def skipVote (n : RaftNode) (call : ElectionCall) : RaftNode :=
  { n with election := some { call with pending := call.pending.tail } }

/-- The test in front of `BecomeLeader()`. -/
def Wins (cfg : RaftConfig) (n : RaftNode) (call : ElectionCall) : Prop :=
  n.role = .Candidate ∧ n.currentTerm = call.term ∧ call.votes ≥ quorumSize cfg

instance (cfg : RaftConfig) (n : RaftNode) (call : ElectionCall) :
    Decidable (n.Wins cfg call) :=
  inferInstanceAs (Decidable (_ ∧ _ ∧ _))

/-- The last section of `StartElection`. -/
def finishElection (J : Json.Codec) (cfg : RaftConfig) (n : RaftNode) (call : ElectionCall) :
    RaftNode :=
  let n' := { n with election := none }
  if n.Wins cfg call then n'.becomeLeader J cfg else n'

/-- `IsLogUpToDate`. -/
def isLogUpToDate (n : RaftNode) (lastLogIndex lastLogTerm : Nat) : Bool :=
  if lastLogTerm ≠ n.log.lastTerm then lastLogTerm > n.log.lastTerm
  else lastLogIndex ≥ n.log.lastIndex

/-- The line both handlers share: `if (req.term > currentTerm_) BecomeFollower(req.term, …)`. -/
def adoptTerm (n : RaftNode) (term : Nat) (leaderId : String) : RaftNode :=
  if term > n.currentTerm then n.becomeFollower term leaderId else n

/-- `!alreadyVoted && logUpToDate`. -/
def Grants (n : RaftNode) (req : RequestVoteRequest) : Prop :=
  ¬ (n.votedFor ≠ "" ∧ n.votedFor ≠ req.candidateId) ∧
    n.isLogUpToDate req.lastLogIndex req.lastLogTerm = true

instance (n : RaftNode) (req : RequestVoteRequest) : Decidable (n.Grants req) :=
  inferInstanceAs (Decidable (_ ∧ _))

/-- `HandleRequestVote`. `resp.term` is read before `BecomeFollower` may raise the term. -/
def handleRequestVote (n : RaftNode) (req : RequestVoteRequest) :
    RaftNode × RequestVoteResponse :=
  let resp : RequestVoteResponse := { term := n.currentTerm }
  if req.term < n.currentTerm then (n, resp)
  else
    let n := n.adoptTerm req.term ""
    if n.Grants req then
      (persistHardState { n with votedFor := req.candidateId }, { resp with voteGranted := true })
    else (n, resp)

/-! ## Replication -/

/-- The loop that collects at most `budget` entries from index `i` on; `GetEntry` throwing
    ends it. -/
def collectEntries (log : RaftLog) (lastIndex : Nat) : Nat → Nat → List LogEntry
  | _, 0 => []
  | i, budget + 1 =>
      if i ≤ lastIndex then
        match log.getEntry i with
        | some e => e :: collectEntries log lastIndex (i + 1) budget
        | none => []
      else []

/-- The first section of `ReplicateToPeer`: the request for `peerId` and the call's locals.
    `prevIndex = next - 1` is an unsigned subtraction. -/
def startReplicate (cfg : RaftConfig) (id : Nat) (n : RaftNode) (peerId : String) :
    RaftNode × AppendEntriesRequest :=
  let next := (n.nextIndex.lookup peerId).getD (n.log.lastIndex + 1)
  let prevIndex := if next = 0 then 2 ^ 64 - 1 else next - 1
  let entries := collectEntries n.log n.log.lastIndex next 100
  let call : ReplicateCall :=
    { id, peerId, term := n.currentTerm, prevIndex, count := entries.length }
  ({ n with replication := some call },
   { term := n.currentTerm, leaderId := cfg.nodeId, prevLogIndex := prevIndex,
     prevLogTerm := n.log.getTerm prevIndex, entries, leaderCommit := n.commitIndex })

/-- How many replicas hold index `k` as far as the leader knows: itself and every peer whose
    `matchIndex_` reaches it. -/
def replicated (n : RaftNode) (k : Nat) : Nat :=
  1 + (n.matchIndex.entries.filter (fun e => k ≤ e.2)).length

/-- The search of `AdvanceCommitIndex`, counting down from `k` to `commitIndex_ + 1`: the
    index to commit, if there is one. -/
def findCommit (cfg : RaftConfig) (n : RaftNode) : Nat → Option Nat
  | 0 => none
  | k + 1 =>
      if k + 1 > n.commitIndex then
        if n.log.getTerm (k + 1) = n.currentTerm ∧ n.replicated (k + 1) ≥ quorumSize cfg then
          some (k + 1)
        else findCommit cfg n k
      else none

/-- `AdvanceCommitIndex`. -/
def advanceCommitIndex (cfg : RaftConfig) (n : RaftNode) : RaftNode :=
  match findCommit cfg n n.log.lastIndex with
  | some k => { n with commitIndex := k }
  | none => n

/-- The loop over the leader's log for the last entry of `term`, from index `i` down to the
    snapshot; 0 when there is none. -/
def lastInTerm (log : RaftLog) (term : Nat) : Nat → Nat
  | 0 => 0
  | i + 1 =>
      if i + 1 > log.snapshotIndex then
        if log.getTerm (i + 1) = term then i + 1 else lastInTerm log term i
      else 0

/-- Where a rejected leader goes next. -/
def backUp (n : RaftNode) (resp : AppendEntriesResponse) : Nat :=
  if resp.conflictTerm > 0 then
    let last := lastInTerm n.log resp.conflictTerm n.log.lastIndex
    if last > 0 then last + 1 else resp.conflictIndex
  else if resp.conflictIndex > 0 then resp.conflictIndex else 1

/-- The second section of `ReplicateToPeer`. -/
def finishReplicate (cfg : RaftConfig) (n : RaftNode) (call : ReplicateCall)
    (resp : AppendEntriesResponse) : RaftNode :=
  let n := { n with replication := none }
  if resp.term > n.currentTerm then n.becomeFollower resp.term ""
  else if n.role ≠ .Leader ∨ resp.term ≠ n.currentTerm then n
  else if resp.success then
    let newMatch := max (n.matchIndex.at call.peerId) (call.prevIndex + call.count)
    advanceCommitIndex cfg
      { n with matchIndex := n.matchIndex.insert call.peerId newMatch,
               nextIndex := n.nextIndex.insert call.peerId (newMatch + 1) }
  else { n with nextIndex := n.nextIndex.insert call.peerId (n.backUp resp) }

/-- The follower's search for the first index of the conflicting term. -/
def firstInTerm (log : RaftLog) (term : Nat) : Nat → Nat
  | 0 => 0
  | ci + 1 =>
      if ci + 1 > log.snapshotIndex ∧ log.getTerm ci = term then firstInTerm log term ci
      else ci + 1

/-- The consistency check of `HandleAppendEntries`: the rejection to send, if it fails. -/
def rejection (n : RaftNode) (req : AppendEntriesRequest) (resp : AppendEntriesResponse) :
    Option AppendEntriesResponse :=
  if req.prevLogIndex > 0 then
    if req.prevLogIndex > n.log.lastIndex then
      some { resp with conflictIndex := n.log.lastIndex + 1, conflictTerm := 0 }
    else
      let prevTerm := n.log.getTerm req.prevLogIndex
      if prevTerm ≠ req.prevLogTerm then
        some { resp with conflictTerm := prevTerm,
                         conflictIndex := firstInTerm n.log prevTerm req.prevLogIndex }
      else none
  else none

/-- The accepting tail of `HandleAppendEntries`: merge the entries, then take
    `min(leaderCommit, LastIndex())` as the commit index if the leader is ahead. -/
def acceptEntries (J : Json.Codec) (n : RaftNode) (req : AppendEntriesRequest) : RaftNode :=
  let n := n.appendAllLog J req.entries
  if req.leaderCommit > n.commitIndex then
    { n with commitIndex := min req.leaderCommit n.log.lastIndex }
  else n

/-- `HandleAppendEntries`. A candidate of the same term keeps its role. -/
def handleAppendEntries (J : Json.Codec) (n : RaftNode) (req : AppendEntriesRequest) :
    RaftNode × AppendEntriesResponse :=
  let resp : AppendEntriesResponse := { term := n.currentTerm }
  if req.term < n.currentTerm then (n, resp)
  else
    let n := { n.adoptTerm req.term req.leaderId with leaderId := req.leaderId }
    match n.rejection req resp with
    | some rej => (n, rej)
    | none => (n.acceptEntries J req, { resp with success := true })

/-! ## Propose -/

/-- `Propose` up to the wait. A node that is not the leader answers at once. -/
def propose (J : Json.Codec) (id : Nat) (n : RaftNode) (key value : String) (op : OpType)
    (ttlMs : Int) : RaftNode × Option ProposeResult :=
  if n.role ≠ .Leader then
    (n, some { ok := false, error := "not leader (leader=" ++ n.leaderId ++ ")", index := 0 })
  else
    let index := n.log.lastIndex + 1
    let e : LogEntry := { term := n.currentTerm, index, opType := op, key, value, ttlMs }
    let e := { e with command := e.serialize J }
    let n := n.appendLog J e
    ({ n with proposals := n.proposals ++ [{ id, index, entry := e }] }, none)

/-- What a waiting `Propose` returns when its predicate is tested; `none` is to wait on.
    At the deadline a false predicate is a timeout. -/
def proposeOutcome (n : RaftNode) (call : ProposeCall) (deadline : Bool) :
    Option ProposeResult :=
  if n.lastApplied ≥ call.index ∨ n.role ≠ .Leader then
    if n.role ≠ .Leader then
      some { ok := false, error := "lost leadership during proposal", index := call.index }
    else some { ok := true, error := "", index := call.index }
  else if deadline then
    some { ok := false, error := "timeout waiting for commit", index := call.index }
  else none

/-! ## Apply and compaction -/

/-- `MaybeSnapshot`; `data` is the text `TakeSnapshot` returned. -/
def maybeSnapshot (cfg : RaftConfig) (n : RaftNode) (data : String) : RaftNode :=
  if n.log.size > cfg.snapshotThreshold then
    let term := n.log.getTerm n.lastApplied
    { n with log := n.log.setSnapshot n.lastApplied term,
             wal := n.wal ++ [.snapshot n.lastApplied term data] }
  else n

/-- `ApplyLoop` reads the next entry, drops the lock and calls `ApplyEntry` on it. -/
def beginApply (n : RaftNode) : Option RaftNode :=
  if n.lastApplied < n.commitIndex then
    match n.log.getEntry (n.lastApplied + 1) with
    | some e => some { n with applying := some (n.lastApplied + 1, e), applied := n.applied ++ [e] }
    | none => none
  else none

/-- The loop of `ApplyLoop` ends: nothing left to apply, or `GetEntry` threw. -/
def applyLoopEnds (n : RaftNode) : Bool :=
  n.lastApplied ≥ n.commitIndex || (n.log.getEntry (n.lastApplied + 1)).isNone

/-- `ApplyLoop` has the lock again after `ApplyEntry`; a loop that ends here goes on to
    `MaybeSnapshot` in the same section. -/
def endApply (cfg : RaftConfig) (n : RaftNode) (next : Nat) (data : String) : RaftNode :=
  let n := { n with lastApplied := next, applying := none }
  if n.applyLoopEnds then n.maybeSnapshot cfg data else n

/-! ## Stop and restart -/

/-- A stopped process: only the disk is left. -/
def stopped (wal : List WalRecord) : RaftNode := { running := false, wal }

/-- The entries the constructor reads back, up to the first one `Deserialize` throws on. -/
def recoveredEntries (J : Json.Codec) (r : RecoveryResult) : List LogEntry :=
  ((r.entries.map (fun raw => LogEntry.deserialize J raw.command)).takeWhile
    Option.isSome).reduceOption

/-- The constructor's state after `Recover` and the snapshot, before it re-appends. -/
def recoveredBase (wal : List WalRecord) (r : RecoveryResult) : RaftNode :=
  let n : RaftNode :=
    { currentTerm := r.hardState.term, votedFor := r.hardState.votedFor, wal }
  if r.latestSnapshot.isSome then
    { n with log := n.log.setSnapshot r.snapshotIndex r.snapshotTerm,
             lastApplied := r.snapshotIndex, commitIndex := r.snapshotIndex }
  else n

/-- The constructor: recover, then append every recovered entry to the log — which writes
    it to the same WAL again. `none` is an entry that does not deserialize. -/
def recover (J : Json.Codec) (wal : List WalRecord) : Option RaftNode :=
  let r := replay wal
  let es := recoveredEntries J r
  if es.length = r.entries.length then
    some (es.foldl (fun n e => n.appendLog J e) (recoveredBase wal r))
  else none

/-- The disk when the process stops after `k` of those appends. -/
def recoverInterrupted (J : Json.Codec) (wal : List WalRecord) (k : Nat) : List WalRecord :=
  wal ++ ((recoveredEntries J (replay wal)).take k).map (LogEntry.record J)

end RaftNode
end OrcDb
