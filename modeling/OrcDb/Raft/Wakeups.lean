import OrcDb.Raft.Section
import OrcDb.Lib.Monitor

/-!
# The threads of a node and what wakes them

`mu_` and the condition variables of `src/raft/RaftNode.cpp`: `ApplyLoop` sleeps on `applyCv_`,
`ElectionLoop` on `electionCv_` while the node leads, and every `Propose` call on `proposeCv_`
until its deadline. The sections are those of `Raft/Section.lean`; added is which of the three a
section notifies. A deadline that passes is a `wake`, and so is a spurious wake-up.

The flag is `running_`. `Stop` clears it and notifies all three without `mu_`. The predicate of
`Propose` does not look at it.

The wait of `ElectionLoop` that ends by itself is not a sleeper here.
-/

set_option autoImplicit false

namespace OrcDb

open Lib

inductive RaftThread where
  | apply
  | election
  | proposer (id : Nat)
deriving DecidableEq

namespace RaftThread

/-- The predicates handed to `wait` and `wait_until`, `running_` apart. -/
def pred : RaftThread → RaftNode → Bool
  | .apply, n => n.lastApplied < n.commitIndex
  | .election, n => n.role ≠ .Leader
  | .proposer id, n =>
      n.proposals.any fun call =>
        call.id = id && (call.index ≤ n.lastApplied || n.role ≠ .Leader)

/-- Whether the predicate begins with `!running_`. -/
def heeds : RaftThread → Bool
  | .apply => true
  | .election => true
  | .proposer _ => false

end RaftThread

namespace Section

/-- The thread a section belongs to, where it is one of those that sleep. -/
def owner : Section → Option RaftThread
  | .startElection _ => some .election
  | .recvVote _ => some .election
  | .skipVote => some .election
  | .finishElection => some .election
  | .beginApply => some .apply
  | .endApply _ => some .apply
  | .stallApply _ => some .apply
  | .propose id _ _ _ _ => some (.proposer id)
  | .wakePropose id _ => some (.proposer id)
  | _ => none

/-- The section calls `ResetElectionTimer`: in `BecomeFollower`, in `HandleAppendEntries` and
    where `HandleRequestVote` grants. -/
def resetsTimer (n : RaftNode) : Section → Bool
  | .recvVote resp => n.currentTerm < resp.term
  | .finishReplicate resp => n.currentTerm < resp.term
  | .requestVote req => n.currentTerm < req.term || (n.handleRequestVote req).2.voteGranted
  | .appendEntries req => n.currentTerm ≤ req.term
  | _ => false

/-- `AdvanceCommitIndex` finds an index, stores it and notifies. -/
def advances (cfg : RaftConfig) (n : RaftNode) (resp : AppendEntriesResponse) : Bool :=
  n.replication.any fun call => n.commitIndex < (n.finishReplicate cfg call resp).commitIndex

/-- The `notify_all` calls of a section. -/
def notifies (J : Json.Codec) (cfg : RaftConfig) (n : RaftNode) : Section → RaftThread → Bool
  | sec, .election => sec.resetsTimer n
  | .appendEntries req, .apply =>
      (n.handleAppendEntries J req).2.success && n.commitIndex < req.leaderCommit
  | .finishReplicate resp, .apply => advances cfg n resp
  | .finishReplicate resp, .proposer _ => advances cfg n resp
  | .endApply _, .proposer _ => true
  | _, _ => false

end Section

def raftThreads (J : Json.Codec) (cfg : RaftConfig) : Discipline RaftNode Section RaftThread where
  run := fun n sec => sec.run J cfg n
  owner := Section.owner
  notifies := Section.notifies J cfg
  pred := RaftThread.pred
  heeds := RaftThread.heeds

end OrcDb
