import OrcDb.Proof.Raft.Handler
import OrcDb.Lib.JsonText

/-!
# What the handlers leave and answer

Two things go wrong at the top of `HandleAppendEntries`. The role is only touched by
`BecomeFollower`, which is only called when the term rises: a candidate that hears the leader
of its own term stays a candidate (`leaves_iff`). And `resp.term` is read before
`BecomeFollower`, so a node that has just joined the leader's term still answers with its old
one; the leader takes that for the answer to an old request and drops it (`credited_iff`).
`HandleRequestVote` fills its answer in the same order.
-/

set_option autoImplicit false

namespace OrcDb
namespace Proof

open Lib

variable {J : Json.Codec} {n : RaftNode} {req : AppendEntriesRequest}

/-! ## The state -/

/-- Where a request of the current term or a later one takes the node; a leader of that very
    term is left out. -/
structure Follows (n : RaftNode) (req : AppendEntriesRequest) (n' : RaftNode) : Prop where
  role : n'.role = .Follower
  currentTerm : n'.currentTerm = req.term
  leaderId : n'.leaderId = req.leaderId

/-- What `HandleAppendEntries` should leave of the node `n`. -/
structure Leaves (n : RaftNode) (req : AppendEntriesRequest) (n' : RaftNode) : Prop where
  stale : req.term < n.currentTerm →
    n'.currentTerm = n.currentTerm ∧ n'.votedFor = n.votedFor ∧ n'.role = n.role ∧
      n'.leaderId = n.leaderId ∧ n'.log = n.log ∧ n'.commitIndex = n.commitIndex
  follows : n.currentTerm ≤ req.term → ¬(n.role = .Leader ∧ n.currentTerm = req.term) →
    Follows n req n'
  keeps : n.currentTerm = req.term → n'.votedFor = n.votedFor
  clears : n.currentTerm < req.term → n'.votedFor = ""
  checked : n.currentTerm ≤ req.term → ¬Consistent n.log req →
    n'.log = n.log ∧ n'.commitIndex = n.commitIndex

/-- Past the stale exit, these four fields are those of `heard`, whatever the check says. -/
theorem handleAppendEntries_office (J : Json.Codec) (h : n.currentTerm ≤ req.term) :
    (n.handleAppendEntries J req).1.currentTerm = (heard n req).currentTerm ∧
      (n.handleAppendEntries J req).1.votedFor = (heard n req).votedFor ∧
      (n.handleAppendEntries J req).1.role = (heard n req).role ∧
      (n.handleAppendEntries J req).1.leaderId = (heard n req).leaderId := by
  have h' := handled J n req
  generalize n.handleAppendEntries J req = out at h' ⊢
  cases h' with
  | stale hlt => exact absurd h (Nat.not_le.mpr hlt)
  | rejected _ _ => exact ⟨rfl, rfl, rfl, rfl⟩
  | accepted _ _ =>
    rw [acceptEntries_eq]
    exact ⟨rfl, rfl, rfl, rfl⟩

theorem handleAppendEntries_stale (J : Json.Codec) (h : req.term < n.currentTerm) :
    n.handleAppendEntries J req = (n, { term := n.currentTerm }) := by
  have h' := handled J n req
  generalize n.handleAppendEntries J req = out at h' ⊢
  cases h' with
  | stale _ => rfl
  | rejected hle _ => exact absurd h (Nat.not_lt.mpr hle)
  | accepted hle _ => exact absurd h (Nat.not_lt.mpr hle)

/-- A request that fails the check changes neither the log nor the commit index. -/
theorem handleAppendEntries_inconsistent (J : Json.Codec) (h : ¬Consistent n.log req) :
    (n.handleAppendEntries J req).1.log = n.log ∧
      (n.handleAppendEntries J req).1.commitIndex = n.commitIndex := by
  have h' := handled J n req
  generalize n.handleAppendEntries J req = out at h' ⊢
  cases h' with
  | stale _ => exact ⟨rfl, rfl⟩
  | rejected _ _ => exact ⟨heard_log, heard_commitIndex⟩
  | accepted _ hcheck => exact absurd (rejection_eq_none_iff.mp hcheck) h

/-- **Where `HandleAppendEntries` takes a node**: it is as it should be exactly if the node is
    not a candidate of the request's term. -/
theorem leaves_iff (J : Json.Codec) (n : RaftNode) (req : AppendEntriesRequest) :
    Leaves n req (n.handleAppendEntries J req).1 ↔
      ¬(n.role = .Candidate ∧ n.currentTerm = req.term) := by
  constructor
  · rintro hleaves ⟨hrole, hterm⟩
    obtain ⟨-, -, hkept, -⟩ := handleAppendEntries_office J (Nat.le_of_eq hterm)
    have hfollower := (hleaves.follows (Nat.le_of_eq hterm) (by simp [hrole])).role
    rw [hkept, heard_of_eq hterm, hrole] at hfollower
    exact absurd hfollower (by simp)
  · intro hcand
    refine ⟨fun hlt => ?_, fun hle hlead => ?_, fun heq => ?_, fun hlt => ?_, fun _ hcons =>
      handleAppendEntries_inconsistent J hcons⟩
    · rw [handleAppendEntries_stale J hlt]
      exact ⟨rfl, rfl, rfl, rfl, rfl, rfl⟩
    · obtain ⟨hterm, -, hrole, hleader⟩ := handleAppendEntries_office J hle
      refine ⟨?_, hterm.trans (heard_currentTerm hle), hleader.trans heard_leaderId⟩
      rw [hrole]
      rcases Nat.eq_or_lt_of_le hle with heq | hlt
      · -- neither leader nor candidate of this term
        rw [heard_of_eq heq]
        cases hr : n.role with
        | Follower => rfl
        | Candidate => exact absurd ⟨hr, heq⟩ hcand
        | Leader => exact absurd ⟨hr, heq⟩ hlead
      · rw [heard_of_lt hlt]
    · rw [(handleAppendEntries_office J (Nat.le_of_eq heq)).2.1, heard_of_eq heq]
    · rw [(handleAppendEntries_office J (Nat.le_of_lt hlt)).2.1, heard_of_lt hlt]

/-- A candidate of term 1 hears the leader of term 1. -/
theorem leaves_fails :
    ¬Leaves { currentTerm := 1, votedFor := "B", role := .Candidate }
      { term := 1, leaderId := "A" }
      (RaftNode.handleAppendEntries Json.text
        { currentTerm := 1, votedFor := "B", role := .Candidate }
        { term := 1, leaderId := "A" }).1 := by
  intro h
  exact absurd (h.follows (Nat.le_refl 1) (by simp)).role (by decide)

/-! ## The response -/

/-- Every response carries the term the node had before the request. -/
theorem handleAppendEntries_term (J : Json.Codec) (n : RaftNode) (req : AppendEntriesRequest) :
    (n.handleAppendEntries J req).2.term = n.currentTerm := by
  have h' := handled J n req
  generalize n.handleAppendEntries J req = out at h' ⊢
  cases h' with
  | stale _ => rfl
  | accepted _ _ => rfl
  | rejected _ hcheck =>
    obtain ⟨-, ⟨-, rfl⟩ | ⟨-, -, rfl⟩⟩ := rejection_cases hcheck
    · rfl
    · rfl

/-- The term of the response is that of the node afterwards exactly if the request did not
    raise it. -/
theorem handleAppendEntries_term_iff (J : Json.Codec) (n : RaftNode)
    (req : AppendEntriesRequest) :
    (n.handleAppendEntries J req).2.term = (n.handleAppendEntries J req).1.currentTerm ↔
      req.term ≤ n.currentTerm := by
  rw [handleAppendEntries_term]
  rcases Nat.lt_or_ge req.term n.currentTerm with hlt | hge
  · rw [handleAppendEntries_stale J hlt]
    exact iff_of_true rfl (Nat.le_of_lt hlt)
  · rw [(handleAppendEntries_office J hge).1, heard_currentTerm hge]
    exact ⟨fun h => Nat.le_of_eq h.symm, fun h => Nat.le_antisymm hge h⟩

theorem handleRequestVote_term_iff (n : RaftNode) (req : RequestVoteRequest) :
    (n.handleRequestVote req).2.term = (n.handleRequestVote req).1.currentTerm ↔
      req.term ≤ n.currentTerm := by
  have hraised : n.currentTerm ≤ req.term →
      (n.currentTerm = (n.adoptTerm req.term "").currentTerm ↔ req.term ≤ n.currentTerm) := by
    intro hle
    rw [adoptTerm_currentTerm hle]
    exact ⟨fun h => Nat.le_of_eq h.symm, fun h => Nat.le_antisymm hle h⟩
  have h' := voteHandled n req
  generalize n.handleRequestVote req = out at h' ⊢
  cases h' with
  | stale hlt => exact iff_of_true rfl (Nat.le_of_lt hlt)
  | granted hle _ => exact hraised hle
  | denied hle _ => exact hraised hle

/-- **When an acceptance is credited.** A leader `n` sends a request, the peer `m` accepts it,
    and the sender, by now in the state `n'`, is still leader of its term: `matchIndex_` reaches
    the end of the batch exactly if the peer was in the leader's term before the request, or
    it was there anyway. Each handler answers with the term it is in afterwards exactly if the
    request is not of a later one. -/
theorem credited_iff (J : Json.Codec) (cfg : RaftConfig) (id : Nat) (peer : String)
    {n n₁ m m' n' : RaftNode} {req : AppendEntriesRequest} {resp : AppendEntriesResponse}
    {call : ReplicateCall} (hsend : n.startReplicate cfg id peer = (n₁, req))
    (hcall : n₁.replication = some call) (hanswer : m.handleAppendEntries J req = (m', resp))
    (hsuccess : resp.success = true) (hrole : n'.role = .Leader)
    (hterm : n'.currentTerm = req.term) :
    (req.prevLogIndex + req.entries.length ≤
        (n'.finishReplicate cfg call resp).matchIndex.at peer ↔
      m.currentTerm = req.term ∨
        req.prevLogIndex + req.entries.length ≤ n'.matchIndex.at peer) ∧
    (∀ (r : RaftNode) (req : AppendEntriesRequest),
      (r.handleAppendEntries J req).2.term = (r.handleAppendEntries J req).1.currentTerm ↔
        req.term ≤ r.currentTerm) ∧
    ∀ (r : RaftNode) (req : RequestVoteRequest),
      (r.handleRequestVote req).2.term = (r.handleRequestVote req).1.currentTerm ↔
        req.term ≤ r.currentTerm := by
  refine ⟨?_, handleAppendEntries_term_iff J, handleRequestVote_term_iff⟩
  have hlocals : call.peerId = peer ∧ call.prevIndex = req.prevLogIndex ∧
      call.count = req.entries.length := by
    cases hsend
    cases hcall
    exact ⟨rfl, rfl, rfl⟩
  have hresp : resp.term = m.currentTerm := by
    rw [← handleAppendEntries_term J m req, hanswer]
  have hle : m.currentTerm ≤ req.term := by
    apply And.left
    apply handleAppendEntries_of_success (J := J)
    rw [hanswer]
    exact hsuccess
  rcases Nat.eq_or_lt_of_le hle with heq | hlt
  · rw [finishReplicate_of_success cfg call hrole (by rw [hresp, hterm, heq]) hsuccess,
      advanceCommitIndex_eq, recorded, hlocals.1, hlocals.2.1, hlocals.2.2]
    refine iff_of_true ?_ (Or.inl heq)
    simp only [IndexMap.at, AList.lookup_insert, Option.getD_some]
    exact Nat.le_max_right _ _
  · rw [finishReplicate_of_lt cfg call (by rw [hresp, hterm]; exact hlt)]
    exact ⟨Or.inr, fun h => h.resolve_left (Nat.ne_of_lt hlt)⟩

def trio : RaftConfig := { nodeId := "A", peers := ["B", "C"] }

/-- `A` has just won term 1, and has a request for `B` on the way: its no-op. -/
def newLeader : RaftNode × AppendEntriesRequest :=
  (RaftNode.becomeLeader Json.text trio
    { currentTerm := 1, votedFor := "A", role := .Candidate }).startReplicate trio 0 "B"

/-- `B` in term `t` answers it. -/
def answerIn (t : Nat) : RaftNode × AppendEntriesResponse :=
  RaftNode.handleAppendEntries Json.text { currentTerm := t } newLeader.2

def newLeaderCall : ReplicateCall :=
  { id := 0, peerId := "B", term := 1, prevIndex := 0, count := 1 }

/-- `B` has voted in term 1, so it is there already. -/
theorem credited_iff_voter :
    (answerIn 1).2.success = true ∧
      newLeader.2.prevLogIndex + newLeader.2.entries.length ≤
        (newLeader.1.finishReplicate trio newLeaderCall (answerIn 1).2).matchIndex.at "B" :=
  ⟨by decide +kernel,
    (credited_iff Json.text trio 0 "B" rfl (show newLeader.1.replication = some newLeaderCall by
      decide +kernel) (show _ = answerIn 1 from rfl) (by decide +kernel)
      (show newLeader.1.role = .Leader by decide +kernel) (by decide +kernel)).1.mpr
      (Or.inl (by decide +kernel))⟩

/-- `B` has not heard of term 1 before. It accepts the no-op and says so in term 0, and nothing
    is credited. -/
theorem credited_fails :
    (answerIn 0).2.success = true ∧ (answerIn 0).2.term ≠ (answerIn 0).1.currentTerm ∧
      newLeader.1.role = .Leader ∧ newLeader.1.currentTerm = newLeader.2.term ∧
      newLeader.1.replication = some newLeaderCall ∧
      ¬ newLeader.2.prevLogIndex + newLeader.2.entries.length ≤
        (newLeader.1.finishReplicate trio newLeaderCall (answerIn 0).2).matchIndex.at "B" := by
  decide +kernel

end Proof
end OrcDb
