import OrcDb.Raft.Node

/-!
# The exits of the handlers

`HandleAppendEntries` returns from three places: the term is stale, the consistency check
fails, the entries are merged. `Handled` lists them with what the node and the response are at
each, and every later argument about the handler is a case analysis of it. `VoteHandled` does the
same for `HandleRequestVote`, and `VoteAnswered` and `Finished` for what a node does with the
answers to its own requests.

What the node has become before the check is `heard`: `BecomeFollower` if the term rose, and
the sender as the leader in any case.
-/

set_option autoImplicit false

namespace OrcDb
namespace Proof

open Lib

/-! ## `HandleAppendEntries` -/

/-- The node once it has looked at the term and the sender of a request. -/
def heard (n : RaftNode) (req : AppendEntriesRequest) : RaftNode :=
  { n.adoptTerm req.term req.leaderId with leaderId := req.leaderId }

section Heard

variable {n : RaftNode} {req : AppendEntriesRequest}

theorem heard_of_eq (h : n.currentTerm = req.term) :
    heard n req = { n with leaderId := req.leaderId } := by
  have hadopt : n.adoptTerm req.term req.leaderId = n :=
    if_neg (Nat.not_lt.mpr (Nat.le_of_eq h.symm))
  rw [heard, hadopt]

theorem heard_of_lt (h : n.currentTerm < req.term) :
    heard n req =
      { n with
        currentTerm := req.term
        role := .Follower
        votedFor := ""
        leaderId := req.leaderId
        wal := n.wal ++ [.hardState { term := req.term, votedFor := "" }] } := by
  have hadopt : n.adoptTerm req.term req.leaderId = n.becomeFollower req.term req.leaderId :=
    if_pos h
  rw [heard, hadopt]
  rfl

@[simp] theorem heard_log : (heard n req).log = n.log := by
  unfold heard RaftNode.adoptTerm
  split <;> rfl

@[simp] theorem heard_commitIndex : (heard n req).commitIndex = n.commitIndex := by
  unfold heard RaftNode.adoptTerm
  split <;> rfl

/-- The consistency check reads nothing but the log. -/
theorem heard_rejection (resp : AppendEntriesResponse) :
    (heard n req).rejection req resp = n.rejection req resp := by
  unfold RaftNode.rejection
  rw [heard_log]

@[simp] theorem heard_leaderId : (heard n req).leaderId = req.leaderId := rfl

theorem heard_currentTerm (h : n.currentTerm ≤ req.term) :
    (heard n req).currentTerm = req.term := by
  rcases Nat.eq_or_lt_of_le h with heq | hlt
  · rw [heard_of_eq heq]
    exact heq
  · rw [heard_of_lt hlt]

end Heard

/-- What `HandleAppendEntries` leaves and returns. -/
inductive Handled (J : Json.Codec) (n : RaftNode) (req : AppendEntriesRequest) :
    RaftNode × AppendEntriesResponse → Prop
  | stale (term : req.term < n.currentTerm) : Handled J n req (n, { term := n.currentTerm })
  | rejected {rej : AppendEntriesResponse} (term : n.currentTerm ≤ req.term)
      (check : n.rejection req { term := n.currentTerm } = some rej) :
      Handled J n req (heard n req, rej)
  | accepted (term : n.currentTerm ≤ req.term)
      (check : n.rejection req { term := n.currentTerm } = none) :
      Handled J n req
        ((heard n req).acceptEntries J req, { term := n.currentTerm, success := true })

theorem handled (J : Json.Codec) (n : RaftNode) (req : AppendEntriesRequest) :
    Handled J n req (n.handleAppendEntries J req) := by
  unfold RaftNode.handleAppendEntries
  dsimp only
  rcases Nat.lt_or_ge req.term n.currentTerm with hlt | hge
  · rw [if_pos hlt]
    exact .stale hlt
  · rw [if_neg (Nat.not_lt.mpr hge)]
    rw [← heard, heard_rejection]
    cases h : n.rejection req { term := n.currentTerm } with
    | some rej => exact .rejected hge h
    | none => exact .accepted hge h

/-- What the check asks of the log: `prevLogIndex` is 0, or the log has it with that term. -/
def Consistent (log : RaftLog) (req : AppendEntriesRequest) : Prop :=
  req.prevLogIndex = 0 ∨
    (req.prevLogIndex ≤ log.lastIndex ∧ log.getTerm req.prevLogIndex = req.prevLogTerm)

instance (log : RaftLog) (req : AppendEntriesRequest) : Decidable (Consistent log req) :=
  inferInstanceAs (Decidable (_ ∨ _))

theorem rejection_eq_none_iff {n : RaftNode} {req : AppendEntriesRequest}
    {resp : AppendEntriesResponse} : n.rejection req resp = none ↔ Consistent n.log req := by
  unfold RaftNode.rejection Consistent
  dsimp only
  split
  · rename_i hpos
    split
    · rename_i hshort
      refine iff_of_false (by simp) ?_
      rintro (h0 | ⟨hle, -⟩)
      · exact absurd h0 (Nat.ne_of_gt hpos)
      · exact absurd hle (Nat.not_le.mpr hshort)
    · rename_i hle
      split
      · rename_i hne
        refine iff_of_false (by simp) ?_
        rintro (h0 | ⟨-, hterm⟩)
        · exact absurd h0 (Nat.ne_of_gt hpos)
        · exact hne hterm
      · rename_i hterm
        exact iff_of_true rfl (Or.inr ⟨Nat.le_of_not_lt hle, not_not.mp hterm⟩)
  · rename_i h0
    exact iff_of_true rfl (Or.inl (Nat.eq_zero_of_not_pos h0))

/-- It failed: the log is too short, or has another term there. -/
theorem rejection_cases {n : RaftNode} {req : AppendEntriesRequest}
    {resp rej : AppendEntriesResponse}
    (h : n.rejection req resp = some rej) :
    0 < req.prevLogIndex ∧
      ((n.log.lastIndex < req.prevLogIndex ∧
          rej = { resp with conflictIndex := n.log.lastIndex + 1, conflictTerm := 0 }) ∨
        (req.prevLogIndex ≤ n.log.lastIndex ∧
          n.log.getTerm req.prevLogIndex ≠ req.prevLogTerm ∧
          rej = { resp with
            conflictTerm := n.log.getTerm req.prevLogIndex,
            conflictIndex := RaftNode.firstInTerm n.log (n.log.getTerm req.prevLogIndex)
              req.prevLogIndex })) := by
  unfold RaftNode.rejection at h
  split at h
  · rename_i hprev
    refine ⟨hprev, ?_⟩
    split at h
    · rename_i hshort
      exact Or.inl ⟨hshort, (Option.some.inj h).symm⟩
    · rename_i hle
      dsimp only at h
      split at h
      · rename_i hne
        exact Or.inr ⟨Nat.le_of_not_lt hle, hne, (Option.some.inj h).symm⟩
      · exact absurd h (by simp)
  · exact absurd h (by simp)

/-- An acceptance comes from the last exit. -/
theorem handleAppendEntries_of_success {J : Json.Codec} {n : RaftNode}
    {req : AppendEntriesRequest} (h : (n.handleAppendEntries J req).2.success = true) :
    n.currentTerm ≤ req.term ∧ Consistent n.log req ∧
      (n.handleAppendEntries J req).1 = (heard n req).acceptEntries J req := by
  have h' := handled J n req
  generalize n.handleAppendEntries J req = out at h h' ⊢
  cases h' with
  | stale _ => exact absurd h (by simp)
  | rejected _ hcheck =>
    obtain ⟨-, ⟨-, rfl⟩ | ⟨-, -, rfl⟩⟩ := rejection_cases hcheck
    · exact absurd h (by simp)
    · exact absurd h (by simp)
  | accepted hle hcheck => exact ⟨hle, rejection_eq_none_iff.mp hcheck, rfl⟩

/-- An accepted request writes the log, the disk and `commitIndex_`. -/
theorem acceptEntries_eq (J : Json.Codec) (n : RaftNode) (req : AppendEntriesRequest) :
    n.acceptEntries J req =
      { n with
        log := (n.log.appendAll J req.entries).1
        wal := n.wal ++ (n.log.appendAll J req.entries).2
        commitIndex :=
          if req.leaderCommit > n.commitIndex then
            min req.leaderCommit (n.log.appendAll J req.entries).1.lastIndex
          else n.commitIndex } := by
  unfold RaftNode.acceptEntries
  dsimp only [RaftNode.appendAllLog]
  split
  · rfl
  · rfl

/-! ## `HandleRequestVote` -/

/-- What `HandleRequestVote` leaves and returns. -/
inductive VoteHandled (n : RaftNode) (req : RequestVoteRequest) :
    RaftNode × RequestVoteResponse → Prop
  | stale (term : req.term < n.currentTerm) : VoteHandled n req (n, { term := n.currentTerm })
  | granted (term : n.currentTerm ≤ req.term) (grants : (n.adoptTerm req.term "").Grants req) :
      VoteHandled n req
        (({ n.adoptTerm req.term "" with votedFor := req.candidateId } :
            RaftNode).persistHardState,
          { term := n.currentTerm, voteGranted := true })
  | denied (term : n.currentTerm ≤ req.term) (denies : ¬(n.adoptTerm req.term "").Grants req) :
      VoteHandled n req (n.adoptTerm req.term "", { term := n.currentTerm })

theorem voteHandled (n : RaftNode) (req : RequestVoteRequest) :
    VoteHandled n req (n.handleRequestVote req) := by
  unfold RaftNode.handleRequestVote
  dsimp only
  rcases Nat.lt_or_ge req.term n.currentTerm with hlt | hge
  · rw [if_pos hlt]
    exact .stale hlt
  · rw [if_neg (Nat.not_lt.mpr hge)]
    split
    · rename_i hgrants
      exact .granted hge hgrants
    · rename_i hdenies
      exact .denied hge hdenies

theorem adoptTerm_currentTerm {n : RaftNode} {t : Nat} (h : n.currentTerm ≤ t)
    (leaderId : String) : (n.adoptTerm t leaderId).currentTerm = t := by
  unfold RaftNode.adoptTerm
  split
  · rfl
  · rename_i hle
    exact Nat.le_antisymm h (Nat.not_lt.mp hle)

/-! ## The loop of `StartElection` over the futures -/

/-- What one answer leaves: a later term ends the candidacy, a vote for this election is
    counted, anything else moves on to the next future. -/
inductive VoteAnswered (n : RaftNode) (call : ElectionCall) (resp : RequestVoteResponse) :
    RaftNode → Prop
  | newer (term : n.currentTerm < resp.term) :
      VoteAnswered n call resp { n.becomeFollower resp.term "" with election := none }
  | vote (term : resp.term ≤ n.currentTerm) (granted : resp.voteGranted = true)
      (same : n.currentTerm = call.term) (role : n.role = .Candidate) :
      VoteAnswered n call resp
        { n with
          election := some { call with votes := call.votes + 1, pending := call.pending.tail } }
  | other (term : resp.term ≤ n.currentTerm)
      (guard : ¬(resp.voteGranted ∧ n.currentTerm = call.term ∧ n.role = .Candidate)) :
      VoteAnswered n call resp
        { n with election := some { call with pending := call.pending.tail } }

theorem voteAnswered (n : RaftNode) (call : ElectionCall) (resp : RequestVoteResponse) :
    VoteAnswered n call resp (n.recvVote call resp) := by
  unfold RaftNode.recvVote
  split
  · rename_i hlt
    exact .newer hlt
  · rename_i hle
    split
    · rename_i hvote
      exact .vote (Nat.le_of_not_lt hle) hvote.1 hvote.2.1 hvote.2.2
    · rename_i hguard
      exact .other (Nat.le_of_not_lt hle) hguard

/-! ## The second section of `ReplicateToPeer` -/

/-- `AdvanceCommitIndex` writes nothing but `commitIndex_`. -/
theorem advanceCommitIndex_eq (cfg : RaftConfig) (n : RaftNode) :
    RaftNode.advanceCommitIndex cfg n =
      { n with commitIndex := (RaftNode.findCommit cfg n n.log.lastIndex).getD n.commitIndex } := by
  unfold RaftNode.advanceCommitIndex
  cases RaftNode.findCommit cfg n n.log.lastIndex with
  | none => rfl
  | some k => rfl

/-- The leader once it has written down an acceptance: `matchIndex_` moves to the end of the
    batch, if it is not there yet. -/
def recorded (n : RaftNode) (call : ReplicateCall) : RaftNode :=
  { n with
    replication := none
    matchIndex := n.matchIndex.insert call.peerId
      (max (n.matchIndex.at call.peerId) (call.prevIndex + call.count))
    nextIndex := n.nextIndex.insert call.peerId
      (max (n.matchIndex.at call.peerId) (call.prevIndex + call.count) + 1) }

/-- What the second section of `ReplicateToPeer` leaves. -/
inductive Finished (cfg : RaftConfig) (n : RaftNode) (call : ReplicateCall)
    (resp : AppendEntriesResponse) : RaftNode → Prop
  | newer (term : n.currentTerm < resp.term) :
      Finished cfg n call resp
        (({ n with replication := none } : RaftNode).becomeFollower resp.term "")
  | dropped (term : resp.term ≤ n.currentTerm)
      (guard : n.role ≠ .Leader ∨ resp.term ≠ n.currentTerm) :
      Finished cfg n call resp { n with replication := none }
  | success (role : n.role = .Leader) (term : resp.term = n.currentTerm)
      (answer : resp.success = true) :
      Finished cfg n call resp (RaftNode.advanceCommitIndex cfg (recorded n call))
  | failure (role : n.role = .Leader) (term : resp.term = n.currentTerm)
      (answer : resp.success = false) :
      Finished cfg n call resp
        { n with
          replication := none
          nextIndex := n.nextIndex.insert call.peerId (n.backUp resp) }

theorem finished (cfg : RaftConfig) (n : RaftNode) (call : ReplicateCall)
    (resp : AppendEntriesResponse) :
    Finished cfg n call resp (n.finishReplicate cfg call resp) := by
  unfold RaftNode.finishReplicate
  dsimp only
  rcases Nat.lt_or_ge n.currentTerm resp.term with hlt | hge
  · rw [if_pos hlt]
    exact .newer hlt
  · rw [if_neg (Nat.not_lt.mpr hge)]
    split
    · rename_i hguard
      exact .dropped hge hguard
    · rename_i hguard
      obtain ⟨hrole, hterm⟩ : n.role = .Leader ∧ resp.term = n.currentTerm := by
        simpa [not_or] using hguard
      split
      · rename_i hsuccess
        exact .success hrole hterm hsuccess
      · rename_i hfailure
        exact .failure hrole hterm (Bool.eq_false_iff.mpr hfailure)

section FinishReplicate

variable (cfg : RaftConfig) {n : RaftNode} (call : ReplicateCall) {resp : AppendEntriesResponse}

/-- The answer of a peer that has not reached the leader's term is dropped. -/
theorem finishReplicate_of_lt (h : resp.term < n.currentTerm) :
    n.finishReplicate cfg call resp = { n with replication := none } := by
  have h' := finished cfg n call resp
  generalize n.finishReplicate cfg call resp = out at h' ⊢
  cases h' with
  | newer hlt => exact absurd h (Nat.lt_asymm hlt)
  | dropped _ _ => rfl
  | success _ hterm _ | failure _ hterm _ => exact absurd hterm (Nat.ne_of_lt h)

theorem finishReplicate_of_success (hrole : n.role = .Leader) (hterm : resp.term = n.currentTerm)
    (hsuccess : resp.success = true) :
    n.finishReplicate cfg call resp = RaftNode.advanceCommitIndex cfg (recorded n call) := by
  have h' := finished cfg n call resp
  generalize n.finishReplicate cfg call resp = out at h' ⊢
  cases h' with
  | newer hlt => exact absurd hlt (Nat.not_lt.mpr (Nat.le_of_eq hterm))
  | dropped _ hguard => exact absurd hguard (by simp [hrole, hterm])
  | success _ _ _ => rfl
  | failure _ _ hfailure => exact absurd hsuccess (by simp [hfailure])

/-- A rejection in the leader's term moves `nextIndex_` back. -/
theorem finishReplicate_of_failure (hrole : n.role = .Leader) (hterm : resp.term = n.currentTerm)
    (hfailure : resp.success = false) :
    n.finishReplicate cfg call resp =
      { n with
        replication := none
        nextIndex := n.nextIndex.insert call.peerId (n.backUp resp) } := by
  have h' := finished cfg n call resp
  generalize n.finishReplicate cfg call resp = out at h' ⊢
  cases h' with
  | newer hlt => exact absurd hlt (Nat.not_lt.mpr (Nat.le_of_eq hterm))
  | dropped _ hguard => exact absurd hguard (by simp [hrole, hterm])
  | success _ _ hsuccess => exact absurd hsuccess (by simp [hfailure])
  | failure _ _ _ => rfl

end FinishReplicate

end Proof
end OrcDb
