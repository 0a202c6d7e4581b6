import OrcDb.Raft.Persist

/-!
# One node on its own

`Raft/Cluster.lean` ties the sections of a node to packets in a network. Here the same
sections run on one node with the rest of the world left open: any request may arrive, any
response may answer a waiting call, any timeout may fire. It is what a statement about "every
run of one node" ranges over.

A life of the process begins with the constructor. `wal` then lists the records of this life
only, and what they do to the directory is up to the machine that runs the sections.

A cluster needs `2^64` elections to come to the end of `currentTerm_`. A node on its own is there
after one request, so where terms are what a statement is about the sections are those of
`run64`, in which `++currentTerm_` wraps.
-/

set_option autoImplicit false

namespace OrcDb

open Lib

/-- The `mu_`-protected sections, with what they are handed from outside. -/
inductive Section where
  | startElection (id : Nat)
  | recvVote (resp : RequestVoteResponse)
  | skipVote
  | finishElection
  | startReplicate (id : Nat) (peer : String)
  | finishReplicate (resp : AppendEntriesResponse)
  | abandonReplicate
  | requestVote (req : RequestVoteRequest)
  | appendEntries (req : AppendEntriesRequest)
  | propose (id : Nat) (key value : String) (op : OpType) (ttlMs : Int)
  | wakePropose (id : Nat) (deadline : Bool)
  | beginApply
  | endApply (data : String)
  | stallApply (data : String)

namespace Section

/-- The node after the section; `none` when the section cannot run now. -/
def run (J : Json.Codec) (cfg : RaftConfig) (n : RaftNode) : Section → Option RaftNode
  | .startElection id =>
      if n.election.isSome ∨ n.role = .Leader then none else some (n.startElection cfg id).1
  | .recvVote resp => do
      let call ← n.election
      if call.pending = [] then none else return n.recvVote call resp
  | .skipVote => do
      let call ← n.election
      if call.pending = [] then none else return n.skipVote call
  | .finishElection => do
      let call ← n.election
      if call.pending = [] then return n.finishElection J cfg call else none
  | .startReplicate id peer =>
      if n.replication = none ∧ n.role = .Leader ∧ peer ∈ cfg.peers then
        some (n.startReplicate cfg id peer).1
      else none
  | .finishReplicate resp => do
      let call ← n.replication
      return n.finishReplicate cfg call resp
  | .abandonReplicate => do
      let _ ← n.replication
      return { n with replication := none }
  | .requestVote req => some (n.handleRequestVote req).1
  | .appendEntries req => some (n.handleAppendEntries J req).1
  | .propose id key value op ttlMs => some (n.propose J id key value op ttlMs).1
  | .wakePropose id deadline => do
      let call ← n.proposals.find? (fun call => call.id = id)
      let _ ← n.proposeOutcome call deadline
      return { n with proposals := n.proposals.filter (·.id ≠ id) }
  | .beginApply => if n.applying.isSome then none else n.beginApply
  | .endApply data => do
      let (next, _) ← n.applying
      return n.endApply cfg next data
  | .stallApply data =>
      if n.applying = none ∧ n.lastApplied < n.commitIndex ∧ n.applyLoopEnds then
        some (n.maybeSnapshot cfg data)
      else none

/-- The votes the section tells the world about, as a term and a candidate: the requests
    `StartElection` sends, and a granting response of `HandleRequestVote`. -/
def announces (cfg : RaftConfig) (n : RaftNode) : Section → List (Nat × String)
  | .startElection id =>
      cfg.peers.map fun _ =>
        ((n.startElection cfg id).2.term, (n.startElection cfg id).2.candidateId)
  | .requestVote req =>
      if (n.handleRequestVote req).2.voteGranted then [(req.term, req.candidateId)] else []
  | _ => []

end Section

/-- The first section of `StartElection` with `currentTerm_` as the `uint64_t` it is. -/
def RaftNode.startElection64 (cfg : RaftConfig) (id : Nat) (n : RaftNode) :
    RaftNode × RequestVoteRequest :=
  let term := (n.currentTerm + 1) % 2 ^ 64
  let n' := persistHardState
    { n with currentTerm := term, votedFor := cfg.nodeId, role := .Candidate }
  ({ n' with election := some { id, term, votes := 1, pending := cfg.peers } },
   { term, candidateId := cfg.nodeId, lastLogIndex := n.log.lastIndex,
     lastLogTerm := n.log.lastTerm })

namespace Section

/-- `run`, with the one section that counts the term up in 64 bits. -/
def run64 (J : Json.Codec) (cfg : RaftConfig) (n : RaftNode) : Section → Option RaftNode
  | .startElection id =>
      if n.election.isSome ∨ n.role = .Leader then none else some (n.startElection64 cfg id).1
  | sec => sec.run J cfg n

def announces64 (cfg : RaftConfig) (n : RaftNode) : Section → List (Nat × String)
  | .startElection id =>
      cfg.peers.map fun _ =>
        ((n.startElection64 cfg id).2.term, (n.startElection64 cfg id).2.candidateId)
  | sec => sec.announces cfg n

/-- The term can be counted up once more. -/
def TermFits (n : RaftNode) : Section → Prop
  | .startElection _ => n.currentTerm < 2 ^ 64 - 1
  | _ => True

instance (n : RaftNode) (sec : Section) : Decidable (sec.TermFits n) :=
  match sec with
  | .startElection _ => inferInstanceAs (Decidable (n.currentTerm < 2 ^ 64 - 1))
  | .recvVote _ | .skipVote | .finishElection | .startReplicate _ _ | .finishReplicate _
  | .abandonReplicate | .requestVote _ | .appendEntries _ | .propose _ _ _ _ _
  | .wakePropose _ _ | .beginApply | .endApply _ | .stallApply _ => .isTrue trivial

end Section

/-- The constructor on what `Recover` returned: every recovered entry is appended to the log,
    which writes it again. `none` is an entry that does not deserialize. -/
def RaftNode.construct (J : Json.Codec) (r : RecoveryResult) : Option RaftNode :=
  let es := recoveredEntries J r
  if es.length = r.entries.length then
    some (es.foldl (fun n e => n.appendLog J e) (recoveredBase [] r))
  else none

end OrcDb
