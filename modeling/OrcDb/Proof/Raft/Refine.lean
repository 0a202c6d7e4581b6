import OrcDb.Proof.Raft.Election
import OrcDb.Proof.Raft.Log
import OrcDb.Lib.ReplicaMoves

/-!
# A node refines a replica

`raft c` is the protocol of `Lib/Replicas.lean` this cluster plays. `NodeOk c a i n` says that
the abstract state `a` is a correct reading of node `n`: same term, same log, its votes on
disk are votes of the protocol, it is leader exactly when the protocol says so, and what it
believes about its peers (`matchIndex_`, `nextIndex_`, the call in progress) is true.

Each function of `RaftNode` is then a few moves of its replica. The lemmas here are about one
node and one abstract state, with the facts a message brings as hypotheses; the cluster comes
in `Proof/Raft/Simulation.lean`. They are for nodes that never restarted and never compacted.
-/

set_option autoImplicit false

namespace OrcDb
namespace Proof

open Lib Replicas

/-- The abstract protocol: entries carry their term, an entry stands at its index, quorums
    are majorities. -/
def raft (c : Cluster) : Protocol String LogEntry where
  key := LogEntry.term
  root := RaftLog.sentinel 0 0
  key_root := rfl
  Fits := fun k e => e.index = k
  fits_root := rfl
  IsQuorum := Quorum c
  inter := fun _ _ h h' => h.inter h'

/-- A `ReplicateToPeer` call was made as leader, for a stretch of that term's log. -/
structure CallOk (c : Cluster) (a : Replicas String LogEntry) (i : String)
    (call : ReplicateCall) : Prop where
  leader : a.leader call.term = some i
  peer : call.peerId ∈ c.peers i
  within : call.prevIndex + call.count < (a.leaderLog call.term).length

structure NodeOk (c : Cluster) (a : Replicas String LogEntry) (i : String) (n : RaftNode) :
    Prop where
  running : n.running = true
  snapshotIndex : n.log.snapshotIndex = 0
  snapshotTerm : n.log.snapshotTerm = 0
  term : a.term i = n.currentTerm
  log : a.log i = n.log.entries
  disk : ∀ t x, x ≠ "" → WalRecord.hardState { term := t, votedFor := x } ∈ n.wal →
    a.voted t i x
  vote : ∀ x, a.voted n.currentTerm i x → x ≠ "" ∧ n.votedFor = x
  leader : n.role = .Leader ↔ a.leader n.currentTerm = some i
  candidate : n.role = .Candidate →
    n.log.entries = a.cand n.currentTerm i ∨ ∃ x, a.leader n.currentTerm = some x
  call : ∀ call, n.replication = some call → CallOk c a i call
  keys : ∀ p ∈ n.matchIndex, p ∈ c.peers i
  matchIndex : n.role = .Leader →
    ∀ p k, n.matchIndex.lookup p = some k → k ≤ a.ack n.currentTerm p
  nextIndex : n.role = .Leader → ∀ p ∈ c.peers i, ∀ k, n.nextIndex.lookup p = some k →
    0 < k ∧ k ≤ n.log.entries.length

theorem nodeOk_init (c : Cluster) (i : String) : NodeOk c (init (raft c)) i {} where
  running := rfl
  snapshotIndex := rfl
  snapshotTerm := rfl
  term := rfl
  log := rfl
  disk := fun _ _ _ h => absurd h (by simp)
  vote := fun _ h => h.elim
  leader := by simp [init]
  candidate := fun h => absurd h (by simp)
  call := fun _ h => absurd h (by simp)
  keys := fun _ h => absurd h (AList.notMem_empty _)
  matchIndex := fun h => absurd h (by simp)
  nextIndex := fun h => absurd h (by simp)

/-- What the protocol sees of a node, its open call apart. -/
def protocolPart (n : RaftNode) : RaftNode where
  running := n.running
  log := n.log
  currentTerm := n.currentTerm
  votedFor := n.votedFor
  role := n.role
  wal := n.wal
  matchIndex := n.matchIndex
  nextIndex := n.nextIndex

/-- Some moves of `i` take `a` to a correct reading of `n'`. -/
def Simulates (c : Cluster) (a : Replicas String LogEntry) (i : String) (n' : RaftNode) : Prop :=
  ∃ a', Moves (raft c) i a a' ∧ NodeOk c a' i n'

variable {c : Cluster} {a a' : Replicas String LogEntry} {i : String} {n n' : RaftNode}

theorem CallOk.mono (hg : a ≤ a') {call : ReplicateCall} (h : CallOk c a i call) :
    CallOk c a' i call :=
  ⟨hg.leader _ _ h.leader, h.peer, Nat.lt_of_lt_of_le h.within (hg.leaderLog _).length_le⟩

namespace NodeOk

/-- The moves of another replica. -/
theorem frame (inv : Inv (raft c) a) {j : String} (h : NodeOk c a j n) (hij : j ≠ i)
    (hm : Moves (raft c) i a a') : NodeOk c a' j n := by
  have hg : a ≤ a' := hm.grows inv
  have hu : Untouched j a a' := hm.untouched inv hij
  exact
    { h with
      term := hu.term.trans h.term
      log := hu.log.trans h.log
      disk := fun t x hx hd => (hu.voted t x).mpr (h.disk t x hx hd)
      vote := fun x hv => h.vote x ((hu.voted _ x).mp hv)
      leader := h.leader.trans (hu.leader _).symm
      candidate := fun hr => by
        rcases h.candidate hr with hlog | ⟨x, hx⟩
        · exact Or.inl (by rw [hu.cand]; exact hlog)
        · exact Or.inr ⟨x, hg.leader _ _ hx⟩
      call := fun call hc => (h.call call hc).mono hg
      matchIndex := fun hr p k hk => Nat.le_trans (h.matchIndex hr p k hk) (hg.ack _ p) }

/-- Only parts of the node that the protocol does not see have changed, or a call was closed. -/
theorem congr (h : NodeOk c a i n) (hsame : protocolPart n' = protocolPart n)
    (hcall : ∀ call, n'.replication = some call → n.replication = some call) :
    NodeOk c a i n' := by
  have hpart : NodeOk c a i (protocolPart n) :=
    { h with call := fun _ hc => absurd hc (by simp [protocolPart]) }
  rw [← hsame] at hpart
  exact { hpart with call := fun call hc => h.call call (hcall call hc) }

theorem simulates (h : NodeOk c a i n) : Simulates c a i n := ⟨a, .refl, h⟩

/-! ## The log of a node -/

variable (inv : Inv (raft c) a) (h : NodeOk c a i n)
include inv h

theorem logged : Logged (raft c) a n.log.entries := by
  rw [← h.log]
  exact inv.shape.log i

theorem shaped : Shaped n.log where
  snapshotIndex := h.snapshotIndex
  snapshotTerm := h.snapshotTerm
  head := inv.shape.head_of_logged (h.logged inv)
  index := fun _ _ he => inv.shape.fits_of_logged (h.logged inv) he

theorem lastIs : LastIs LogEntry.term (a.log i) n.log.lastIndex n.log.lastTerm := by
  have hs := h.shaped inv
  rw [h.log]
  refine ⟨?_, n.log.back, hs.entry_lastIndex, rfl⟩
  have := hs.length_pos
  rw [hs.lastIndex_eq]
  omega

/-- A leader's log is the log of its term. -/
theorem leaderLog (hr : n.role = .Leader) : a.leaderLog n.currentTerm = n.log.entries := by
  have hl := h.leader.mp hr
  rw [← h.term] at hl ⊢
  rw [← inv.shape.leading i hl, h.log]

/-! ## Terms and votes -/

/-- `BecomeFollower` in a higher term. -/
theorem becomeFollower {t : Nat} (ht : n.currentTerm < t) (leaderId : String) :
    Simulates c a i (n.becomeFollower t leaderId) := by
  have hmove : Move (raft c) i a (a.raise i t) := .raise (by rw [h.term]; omega)
  have hg : a ≤ a.raise i t := hmove.grows inv.shape
  refine ⟨a.raise i t, .single hmove, ?_⟩
  exact
    { running := h.running
      snapshotIndex := h.snapshotIndex
      snapshotTerm := h.snapshotTerm
      term := by simp [Replicas.raise, RaftNode.becomeFollower, RaftNode.persistHardState]
      log := h.log
      disk := fun t' x hx hd => by
        -- the new record names nobody
        rcases List.mem_append.mp hd with hd | hd
        · exact h.disk t' x hx hd
        · simp only [List.mem_singleton, WalRecord.hardState.injEq, HardState.mk.injEq] at hd
          exact absurd hd.2 hx
      vote := fun x hv => by
        have := (inv.shape.voted t i x hv).1
        rw [h.term] at this
        omega
      leader := by
        constructor
        · intro hr
          exact absurd hr (by simp [RaftNode.becomeFollower, RaftNode.persistHardState])
        · intro hl
          have := inv.shape.leader_term_le (t := t) hl
          rw [h.term] at this
          omega
      candidate := fun hr =>
        absurd hr (by simp [RaftNode.becomeFollower, RaftNode.persistHardState])
      call := fun call hc => (h.call call hc).mono hg
      keys := h.keys
      matchIndex := fun hr =>
        absurd hr (by simp [RaftNode.becomeFollower, RaftNode.persistHardState])
      nextIndex := fun hr =>
        absurd hr (by simp [RaftNode.becomeFollower, RaftNode.persistHardState]) }

theorem adoptTerm (t : Nat) (leaderId : String) :
    Simulates c a i (n.adoptTerm t leaderId) := by
  unfold RaftNode.adoptTerm
  split
  · rename_i ht
    exact h.becomeFollower inv ht leaderId
  · exact h.simulates

/-- The first half of `StartElection` stands with the node's log. -/
theorem startElection (hi : i ≠ "") (id : Nat) :
    ∃ a', Moves (raft c) i a a' ∧ NodeOk c a' i (n.startElection (c.config i) id).1 ∧
      LastIs LogEntry.term (a'.cand (n.currentTerm + 1) i) n.log.lastIndex n.log.lastTerm := by
  have hg : a ≤ a.stand i := (Move.stand (P := raft c)).grows inv.shape
  have hstood : (a.stand i).cand (n.currentTerm + 1) i = a.log i := by
    simp [Replicas.stand, h.term]
  refine ⟨a.stand i, .single .stand, ?_, by rw [hstood]; exact h.lastIs inv⟩
  exact
    { running := h.running
      snapshotIndex := h.snapshotIndex
      snapshotTerm := h.snapshotTerm
      term := by simp [Replicas.stand, RaftNode.startElection, RaftNode.persistHardState, h.term]
      log := h.log
      disk := fun t x hx hd => by
        rcases List.mem_append.mp hd with hd | hd
        · exact Or.inl (h.disk t x hx hd)
        · simp only [List.mem_singleton, WalRecord.hardState.injEq, HardState.mk.injEq] at hd
          exact Or.inr ⟨by rw [h.term]; exact hd.1, rfl, hd.2⟩
      vote := fun x hv => by
        rcases hv with hv | ⟨-, -, rfl⟩
        · have := (inv.shape.voted _ i x hv).1
          rw [h.term] at this
          simp only [RaftNode.startElection, RaftNode.persistHardState] at this
          omega
        · exact ⟨hi, rfl⟩
      leader := by
        constructor
        · intro hr
          exact absurd hr (by simp [RaftNode.startElection, RaftNode.persistHardState])
        · intro hl
          have := inv.shape.leader_term_le (t := n.currentTerm + 1) hl
          rw [h.term] at this
          omega
      candidate := fun _ => Or.inl (h.log.symm.trans hstood.symm)
      call := fun call hc => (h.call call hc).mono hg
      keys := h.keys
      matchIndex := fun hr =>
        absurd hr (by simp [RaftNode.startElection, RaftNode.persistHardState])
      nextIndex := fun hr =>
        absurd hr (by simp [RaftNode.startElection, RaftNode.persistHardState]) }

/-- Casting a vote in the current term, for a candidate whose log passes `IsLogUpToDate`. -/
theorem castVote {req : RequestVoteRequest} (hterm : n.currentTerm = req.term)
    (hcand : LastIs LogEntry.term (a.cand req.term req.candidateId) req.lastLogIndex
      req.lastLogTerm) (hne : req.candidateId ≠ "") (hg : n.Grants req) :
    Simulates c a i (RaftNode.persistHardState { n with votedFor := req.candidateId }) := by
  obtain ⟨hfree, hgood⟩ := hg
  have hfree' : ∀ y, a.voted (a.term i) i y → y = req.candidateId := by
    intro y hy
    rw [h.term] at hy
    obtain ⟨hy0, hv⟩ := h.vote y hy
    by_contra hyne
    exact hfree ⟨by rw [hv]; exact hy0, by rw [hv]; exact hyne⟩
  have hbetter : n.log.lastTerm < req.lastLogTerm ∨
      n.log.lastTerm = req.lastLogTerm ∧ n.log.lastIndex ≤ req.lastLogIndex := by
    unfold RaftNode.isLogUpToDate at hgood
    split at hgood
    · exact Or.inl (of_decide_eq_true hgood)
    · rename_i heq
      exact Or.inr ⟨(not_not.mp heq).symm, of_decide_eq_true hgood⟩
  have hmove : Move (raft c) i a (a.vote i req.candidateId) :=
    .vote hfree' (h.lastIs inv) (by rw [h.term, hterm]; exact hcand) hbetter
  refine ⟨_, .single hmove, ?_⟩
  exact
    { h with
      disk := fun t x hx hd => by
        rcases List.mem_append.mp hd with hd | hd
        · exact Or.inl (h.disk t x hx hd)
        · simp only [List.mem_singleton, WalRecord.hardState.injEq, HardState.mk.injEq] at hd
          exact Or.inr ⟨by rw [h.term]; exact hd.1, rfl, hd.2⟩
      vote := fun x hv => by
        rcases hv with hv | ⟨-, -, rfl⟩
        · exact ⟨(h.vote x hv).1, (hfree' x (by rw [h.term]; exact hv)).symm⟩
        · exact ⟨hne, rfl⟩
      call := fun call hc => (h.call call hc).mono (hmove.grows inv.shape) }

/-! ## Leading -/

/-- `Append` by the leader, in its own term and at the next index. -/
theorem appendLog (hr : n.role = .Leader) {e : LogEntry} (ht : e.term = n.currentTerm)
    (hidx : e.index = n.log.lastIndex + 1) : Simulates c a i (n.appendLog c.json e) := by
  have hs := h.shaped inv
  have hl : a.leader (a.term i) = some i := by rw [h.term]; exact h.leader.mp hr
  have hlen : (a.log i).length = n.log.lastIndex + 1 := (h.lastIs inv).1
  have hmove : Move (raft c) i a (a.extend i e) :=
    .extend hl (by rw [h.term]; exact ht) (by rw [hlen]; exact hidx)
  have hg : a ≤ a.extend i e := hmove.grows inv.shape
  refine ⟨_, .single hmove, ?_⟩
  exact
    { running := h.running
      snapshotIndex := h.snapshotIndex
      snapshotTerm := h.snapshotTerm
      term := h.term
      log := by simp [Replicas.extend, RaftNode.appendLog, RaftLog.append, h.log]
      disk := fun t x hx hd => by
        rcases List.mem_append.mp hd with hd | hd
        · exact h.disk t x hx hd
        · simp [LogEntry.record] at hd
      vote := h.vote
      leader := h.leader
      candidate := fun hr' => by
        have hrole : n.role = .Candidate := hr'
        rw [hr] at hrole
        exact absurd hrole (by simp)
      call := fun call hc => (h.call call hc).mono hg
      keys := h.keys
      matchIndex := fun _ p k hk => Nat.le_trans (h.matchIndex hr p k hk) (hg.ack _ p)
      nextIndex := fun _ p hp k hk => by
        obtain ⟨h₁, h₂⟩ := h.nextIndex hr p hp k hk
        refine ⟨h₁, ?_⟩
        simp only [RaftNode.appendLog, RaftLog.append, List.length_append]
        omega }

end NodeOk

/-- A map with one value for every key of a list, set over an older map. -/
theorem lookup_foldl_insert (ps : List String) (v : Nat) (m : IndexMap) (q : String) :
    (ps.foldl (fun m p => m.insert p v) m).lookup q =
      if q ∈ ps then some v else m.lookup q := by
  induction ps generalizing m with
  | nil => simp
  | cons p ps ih =>
    rw [List.foldl_cons, ih]
    by_cases hq : q ∈ ps
    · simp [hq]
    · by_cases hqp : q = p
      · subst hqp
        simp [hq, AList.lookup_insert]
      · simp [hq, hqp, AList.lookup_insert_ne hqp]

theorem mem_foldl_insert {ps : List String} {v : Nat} {m : IndexMap} {q : String}
    (hq : q ∈ ps.foldl (fun m p => m.insert p v) m) : q ∈ ps ∨ q ∈ m := by
  rw [← AList.lookup_isSome, lookup_foldl_insert] at hq
  split at hq
  · exact Or.inl (by assumption)
  · exact Or.inr (AList.lookup_isSome.mp hq)

/-- Over a map of these keys only, nothing of the older map is left. -/
theorem eq_of_lookup_foldl_insert {ps : List String} {v k : Nat} {m : IndexMap} {q : String}
    (hkeys : ∀ p ∈ m, p ∈ ps)
    (h : (ps.foldl (fun m p => m.insert p v) m).lookup q = some k) : k = v := by
  rw [lookup_foldl_insert] at h
  split at h
  · exact (Option.some.inj h).symm
  · rename_i hq
    exact absurd (hkeys q (AList.lookup_isSome.mp (by rw [h]; rfl))) hq

namespace NodeOk

variable (inv : Inv (raft c) a) (h : NodeOk c a i n)
include inv h

/-- `BecomeLeader` on a candidate that a quorum voted for: it takes the lead with the log it
    stood with, then appends the no-op. -/
theorem becomeLeader (hr : n.role = .Candidate) {Q : Finset String} (hQ : Quorum c Q)
    (hv : ∀ j ∈ Q, a.voted n.currentTerm j i) :
    Simulates c a i (n.becomeLeader c.json (c.config i)) := by
  have hvacant : a.leader n.currentTerm = none := by
    cases hl : a.leader n.currentTerm with
    | none => rfl
    | some x =>
      -- another leader of this term would share a voter
      have hx : x = i := inv.shape.leader_unique hl hQ hv
      rw [hx, ← h.leader, hr] at hl
      exact absurd hl (by simp)
  have hsame : n.log.entries = a.cand n.currentTerm i := by
    rcases h.candidate hr with hlog | ⟨x, hx⟩
    · exact hlog
    · rw [hvacant] at hx
      exact absurd hx (by simp)
  have hmove : Move (raft c) i a (a.lead i) :=
    .lead hQ (by rw [h.term]; exact hv) (by rw [h.term]; exact hvacant)
      (by rw [h.term, h.log]; exact hsame)
  have hg : a ≤ a.lead i := hmove.grows inv.shape
  have hs := h.shaped inv
  -- the node between the two: leader, without the no-op
  let n₁ : RaftNode :=
    { n with
      role := .Leader, leaderId := i
      nextIndex := (c.peers i).foldl (fun m p => m.insert p (n.log.lastIndex + 1)) n.nextIndex
      matchIndex := (c.peers i).foldl (fun m p => m.insert p 0) n.matchIndex }
  have h₁ : NodeOk c (a.lead i) i n₁ :=
    { running := h.running
      snapshotIndex := h.snapshotIndex
      snapshotTerm := h.snapshotTerm
      term := h.term
      log := h.log
      disk := h.disk
      vote := h.vote
      leader := ⟨fun _ => by simp [Replicas.lead, h.term, n₁], fun _ => rfl⟩
      candidate := fun hr' => absurd hr' (by simp [n₁])
      call := fun call hc => (h.call call hc).mono hg
      keys := fun p hp => (mem_foldl_insert hp).elim id (h.keys p)
      matchIndex := fun _ p k hk => by
        rw [eq_of_lookup_foldl_insert h.keys hk]
        exact Nat.zero_le _
      nextIndex := fun _ p hp k hk => by
        simp only [n₁, lookup_foldl_insert, hp, if_true] at hk
        cases hk
        have := hs.lastIndex_lt
        exact ⟨by omega, this⟩ }
  obtain ⟨a', hm', h'⟩ := h₁.appendLog (hmove.inv inv) rfl
    (e := LogEntry.noOp c.json n.currentTerm (n.log.lastIndex + 1)) rfl rfl
  exact ⟨a', Relation.ReflTransGen.head hmove hm', h'⟩

/-- A vote response: a later term ends the candidacy, anything else is counted in the call. -/
theorem recvVote (call : ElectionCall) (resp : RequestVoteResponse) :
    Simulates c a i (n.recvVote call resp) := by
  have hr := voteAnswered n call resp
  generalize n.recvVote call resp = out at hr ⊢
  cases hr with
  | newer hlt =>
    obtain ⟨a', hm, h'⟩ := h.becomeFollower inv hlt ""
    exact ⟨a', hm, h'.congr rfl (fun _ hc => hc)⟩
  | vote _ _ _ _ | other _ _ => exact NodeOk.simulates (h.congr rfl (fun _ hc => hc))

/-- The end of an election, in which the winner has a quorum behind it. -/
theorem finishElection (call : ElectionCall)
    (hwins : n.Wins (c.config i) call →
      ∃ Q, Quorum c Q ∧ ∀ j ∈ Q, a.voted n.currentTerm j i) :
    Simulates c a i (n.finishElection c.json (c.config i) call) := by
  have h₀ : NodeOk c a i { n with election := none } := h.congr rfl (fun _ hc => hc)
  unfold RaftNode.finishElection
  dsimp only
  split
  · rename_i hw
    obtain ⟨Q, hQ, hv⟩ := hwins hw
    exact h₀.becomeLeader inv hw.1 hQ hv
  · exact h₀.simulates

theorem propose (id : Nat) (key value : String) (op : OpType) (ttlMs : Int) :
    Simulates c a i (n.propose c.json id key value op ttlMs).1 := by
  unfold RaftNode.propose
  split
  · exact h.simulates
  · rename_i hr
    obtain ⟨a', hm, h'⟩ := h.appendLog inv (not_not.mp hr)
      (e := { term := n.currentTerm, index := n.log.lastIndex + 1, opType := op, key, value,
              ttlMs, command := LogEntry.serialize c.json
                { term := n.currentTerm, index := n.log.lastIndex + 1, opType := op, key,
                  value, ttlMs } }) rfl rfl
    exact ⟨a', hm, h'.congr rfl (fun _ hc => hc)⟩

end NodeOk

/-! ## Replicating -/

/-- What an `AppendEntries` request from `src` carries: a stretch of the log of its term, and
    the term in front of it. -/
structure RequestOk (a : Replicas String LogEntry) (src : String) (req : AppendEntriesRequest) :
    Prop where
  leader : a.leader req.term = some src
  prev : ∃ e, (a.leaderLog req.term)[req.prevLogIndex]? = some e ∧ e.term = req.prevLogTerm
  piece : PieceOf (a.leaderLog req.term) (req.prevLogIndex + 1) req.entries

/-- What a response from `src` is worth to a call for `count` entries behind `prevIndex` in
    the log of `term`. A rejection for an outdated term carries no hints; a rejection by the
    consistency check points into the log it was asked about. -/
structure ResponseOk (a : Replicas String LogEntry) (src : String) (term prevIndex count : Nat)
    (resp : AppendEntriesResponse) : Prop where
  success : resp.success = true → resp.term ≤ term ∧ prevIndex + count ≤ a.ack term src
  failure : resp.success = false → resp.conflictTerm = 0 ∧ resp.conflictIndex = 0 ∨
    resp.term ≤ term ∧ 0 < resp.conflictIndex ∧ resp.conflictIndex ≤ prevIndex + 1

theorem RequestOk.mono (hg : a ≤ a') {src : String} {req : AppendEntriesRequest}
    (h : RequestOk a src req) : RequestOk a' src req := by
  obtain ⟨zs, hz⟩ := hg.leaderLog req.term
  obtain ⟨e, he, ht⟩ := h.prev
  have hprev := (List.getElem?_eq_some_iff.mp he).1
  have hlen := h.piece.length_le hprev
  refine ⟨hg.leader _ _ h.leader, ⟨e, ?_, ht⟩, fun k hk => ?_⟩
  · rw [← hz, List.getElem?_append_left hprev]
    exact he
  · rw [← hz, List.getElem?_append_left (by omega)]
    exact h.piece k hk

theorem RequestOk.index (inv : Inv (raft c) a) {src : String} {req : AppendEntriesRequest}
    (h : RequestOk a src req) (k : Nat) (x : LogEntry) (hx : req.entries[k]? = some x) :
    x.index = req.prevLogIndex + 1 + k := by
  have hlt := (List.getElem?_eq_some_iff.mp hx).1
  exact (inv.shape.termLog req.term).fits _ x ((h.piece k hlt).trans hx)

theorem ResponseOk.mono (hg : a ≤ a') {src : String} {term prevIndex count : Nat}
    {resp : AppendEntriesResponse} (h : ResponseOk a src term prevIndex count resp) :
    ResponseOk a' src term prevIndex count resp :=
  ⟨fun hs => ⟨(h.success hs).1, Nat.le_trans (h.success hs).2 (hg.ack term src)⟩, h.failure⟩

/-- The consistency check passed: position 0, or the terms match. -/
theorem rejection_eq_none {req : AppendEntriesRequest} {resp : AppendEntriesResponse}
    (hs : Shaped n.log) (h : n.rejection req resp = none) :
    req.prevLogIndex = 0 ∨
      ∃ e, n.log.entries[req.prevLogIndex]? = some e ∧ e.term = req.prevLogTerm := by
  unfold RaftNode.rejection at h
  split at h
  · split at h
    · exact absurd h (by simp)
    · rename_i hle
      dsimp only at h
      split at h
      · exact absurd h (by simp)
      · rename_i hterm
        have hlt := hs.le_lastIndex_iff.mp (Nat.le_of_not_lt hle)
        refine Or.inr ⟨_, List.getElem?_eq_getElem hlt, ?_⟩
        rw [← hs.getTerm_eq (List.getElem?_eq_getElem hlt)]
        exact not_not.mp hterm
  · rename_i h0
    exact Or.inl (by omega)

/-- The hints of a rejection point at an index from 1 to the one that was asked about. -/
theorem rejection_eq_some {req : AppendEntriesRequest} {resp rej : AppendEntriesResponse}
    (hs : Shaped n.log)
    (hpos : ∀ (k : Nat) (e : LogEntry), n.log.entries[k]? = some e → 0 < k → 0 < e.term)
    (h : n.rejection req resp = some rej) :
    rej.success = resp.success ∧ rej.term = resp.term ∧ 0 < rej.conflictIndex ∧
      rej.conflictIndex ≤ req.prevLogIndex + 1 := by
  obtain ⟨hprev, ⟨hshort, rfl⟩ | ⟨hle, -, rfl⟩⟩ := rejection_cases h
  · exact ⟨rfl, rfl, Nat.succ_pos _, by simp only; omega⟩
  · have hget := List.getElem?_eq_getElem (hs.le_lastIndex_iff.mp hle)
    have hterm : 0 < n.log.getTerm req.prevLogIndex := by
      rw [hs.getTerm_eq hget]
      exact hpos _ _ hget hprev
    have hfirst := firstInTerm_le n.log (n.log.getTerm req.prevLogIndex) req.prevLogIndex
    exact ⟨rfl, rfl, firstInTerm_pos hs hterm _ hprev, Nat.le_succ_of_le hfirst⟩

namespace NodeOk

variable (inv : Inv (raft c) a) (h : NodeOk c a i n)
include inv h

/-- The first half of `ReplicateToPeer`: the call it opens and the request it sends. -/
theorem startReplicate (hr : n.role = .Leader) {peer : String} (hp : peer ∈ c.peers i)
    (id : Nat) :
    NodeOk c a i (n.startReplicate (c.config i) id peer).1 ∧
      RequestOk a i (n.startReplicate (c.config i) id peer).2 := by
  have hs := h.shaped inv
  have hlog := h.leaderLog inv hr
  obtain ⟨next, hnext⟩ : ∃ next, (n.nextIndex.lookup peer).getD (n.log.lastIndex + 1) = next :=
    ⟨_, rfl⟩
  have hbound : 0 < next ∧ next ≤ n.log.entries.length := by
    cases hl : n.nextIndex.lookup peer with
    | some k =>
      rw [hl, Option.getD_some] at hnext
      rw [← hnext]
      exact h.nextIndex hr peer hp k hl
    | none =>
      rw [hl, Option.getD_none] at hnext
      have := hs.lastIndex_lt
      omega
  have hpiece := collectEntries_piece hs n.log.lastIndex 100 next
  have hlen := hpiece.length_le hbound.2
  have hprev : next - 1 < n.log.entries.length := by omega
  constructor
  · refine { h with call := fun call hc => ?_ }
    simp only [RaftNode.startReplicate, hnext, Option.some.injEq] at hc
    subst hc
    refine ⟨h.leader.mp hr, hp, ?_⟩
    simp only [hlog]
    rw [if_neg (by omega)]
    omega
  · simp only [RaftNode.startReplicate, hnext]
    rw [if_neg (by omega : ¬ next = 0)]
    refine ⟨h.leader.mp hr, ⟨_, by rw [hlog]; exact List.getElem?_eq_getElem hprev, ?_⟩, ?_⟩
    · exact (hs.getTerm_eq (List.getElem?_eq_getElem hprev)).symm
    · simp only [hlog]
      rw [Nat.sub_add_cancel hbound.1]
      exact hpiece

omit inv in
/-- The leader moves a peer to another place of its own log. -/
theorem setNext (hr : n.role = .Leader) (peer : String) {k : Nat} (hpos : 0 < k)
    (hk : k ≤ n.log.entries.length) :
    NodeOk c a i { n with nextIndex := n.nextIndex.insert peer k } :=
  { h with
    nextIndex := fun _ p hp x hx => by
      by_cases hpe : p = peer
      · subst hpe
        rw [AList.lookup_insert, Option.some.injEq] at hx
        exact hx ▸ ⟨hpos, hk⟩
      · rw [AList.lookup_insert_ne hpe] at hx
        exact h.nextIndex hr p hp x hx }

/-- The leader notes what a peer has acknowledged. -/
theorem setMatch (hr : n.role = .Leader) {peer : String} (hp : peer ∈ c.peers i) {m : Nat}
    (hm : m ≤ a.ack n.currentTerm peer) :
    NodeOk c a i
      { n with
        matchIndex := n.matchIndex.insert peer m
        nextIndex := n.nextIndex.insert peer (m + 1) } := by
  have hlen : m + 1 ≤ n.log.entries.length := by
    have hlog := h.leaderLog inv hr
    have hpos := (h.shaped inv).length_pos
    have := inv.shape.ack_lt n.currentTerm peer
    rw [hlog] at *
    omega
  exact
    { h.setNext hr peer (Nat.succ_pos m) hlen with
      keys := fun p hmem => by
        rcases (AList.mem_insert _).mp hmem with rfl | hmem
        · exact hp
        · exact h.keys p hmem
      matchIndex := fun _ p k hk => by
        by_cases hpe : p = peer
        · subst hpe
          rw [AList.lookup_insert, Option.some.injEq] at hk
          exact hk ▸ hm
        · rw [AList.lookup_insert_ne hpe] at hk
          exact h.matchIndex hr p k hk }

omit inv in
theorem matchIndex_at_le (hr : n.role = .Leader) (peer : String) :
    n.matchIndex.at peer ≤ a.ack n.currentTerm peer := by
  unfold IndexMap.at
  cases hl : n.matchIndex.lookup peer with
  | none => exact Nat.zero_le _
  | some k => exact h.matchIndex hr _ k hl

/-- After a rejection the leader goes back to a place of its own log. -/
theorem backUp_bounds (hr : n.role = .Leader) {call : ReplicateCall}
    {resp : AppendEntriesResponse} (hc : CallOk c a i call) (hterm : resp.term = n.currentTerm)
    (hresp : ResponseOk a call.peerId call.term call.prevIndex call.count resp)
    (hfail : resp.success = false) :
    0 < n.backUp resp ∧ n.backUp resp ≤ n.log.entries.length := by
  have hs := h.shaped inv
  have hcall : call.term ≤ n.currentTerm := by
    rw [← h.term]
    exact inv.shape.leader_term_le hc.leader
  have hwithin := hc.within
  have hlast := hs.lastIndex_lt
  have hpos := hs.length_pos
  unfold RaftNode.backUp
  dsimp only
  rcases hresp.failure hfail with ⟨h₁, h₂⟩ | ⟨hle, h₁, h₂⟩
  · rw [h₁, h₂]
    simp only [Nat.lt_irrefl, if_false]
    omega
  · rw [show call.term = n.currentTerm by omega, h.leaderLog inv hr] at hwithin
    have hin := lastInTerm_le n.log resp.conflictTerm n.log.lastIndex
    split
    · split
      · omega
      · omega
    · omega

/-- The second half of `ReplicateToPeer`: the leader's view of the peer stays true. -/
theorem finishReplicate {call : ReplicateCall} {resp : AppendEntriesResponse}
    (hc : CallOk c a i call)
    (hresp : ResponseOk a call.peerId call.term call.prevIndex call.count resp) :
    Simulates c a i (n.finishReplicate (c.config i) call resp) := by
  have h₀ : NodeOk c a i { n with replication := none } :=
    h.congr rfl (fun _ hcall => absurd hcall (by simp))
  have h' := finished (c.config i) n call resp
  generalize n.finishReplicate (c.config i) call resp = out at h' ⊢
  cases h' with
  | newer hlt => exact h₀.becomeFollower inv hlt ""
  | dropped _ _ => exact h₀.simulates
  | success hr hterm hsucc =>
    obtain ⟨hle, hack⟩ := hresp.success hsucc
    have hcall : call.term ≤ n.currentTerm := by
      rw [← h.term]
      exact inv.shape.leader_term_le hc.leader
    rw [show call.term = n.currentTerm by omega] at hack
    have h₁ : NodeOk c a i (recorded n call) := h₀.setMatch inv hr hc.peer
      (Nat.max_le.mpr ⟨h.matchIndex_at_le hr call.peerId, hack⟩)
    rw [advanceCommitIndex_eq]
    exact NodeOk.simulates (h₁.congr rfl (fun _ hx => hx))
  | failure hr hterm hfail =>
    obtain ⟨hpos, hlen⟩ := h.backUp_bounds inv hr hc hterm hresp hfail
    exact NodeOk.simulates (h₀.setNext hr call.peerId hpos hlen)

/-- A request that passed the consistency check continues a common prefix. -/
theorem checked {src : String} {req : AppendEntriesRequest} {resp : AppendEntriesResponse}
    (hreq : RequestOk a src req) (hok : n.rejection req resp = none) :
    ∃ e e', n.log.entries[req.prevLogIndex]? = some e ∧
      (a.leaderLog req.term)[req.prevLogIndex]? = some e' ∧ e.term = e'.term := by
  have hs := h.shaped inv
  have hlogged := inv.shape.leaderLog req.term src hreq.leader
  obtain ⟨e', he', ht'⟩ := hreq.prev
  rcases rejection_eq_none hs hok with h0 | ⟨e, he, ht⟩
  · -- position 0 is the sentinel on both sides
    rw [h0]
    exact ⟨_, _, hs.head, inv.shape.head_of_logged hlogged, rfl⟩
  · exact ⟨e, e', he, he', by rw [ht, ht']⟩

/-- `AppendAll` on the entries of a request is the merge behind `prevLogIndex`. -/
theorem appendAll_eq {src : String} {req : AppendEntriesRequest} (hreq : RequestOk a src req) :
    (n.log.appendAll c.json req.entries).1.entries =
        merge LogEntry.term n.log.entries (req.prevLogIndex + 1) req.entries ∧
      (n.log.appendAll c.json req.entries).1.snapshotIndex = 0 ∧
      (n.log.appendAll c.json req.entries).1.snapshotTerm = 0 := by
  obtain ⟨h₁, h₂, h₃⟩ := Shaped.appendAll_entries c.json h.snapshotIndex (hreq.index inv)
  exact ⟨h₁, h₂, h₃.trans h.snapshotTerm⟩

/-- After `AppendAll` the log agrees with the leader's through the end of the request, and
    where it agreed before it still does. -/
theorem merged {src : String} {req : AppendEntriesRequest} {resp : AppendEntriesResponse}
    (hreq : RequestOk a src req) (hok : n.rejection req resp = none) :
    AgreeUpTo (n.log.appendAll c.json req.entries).1.entries (a.leaderLog req.term)
        (req.prevLogIndex + req.entries.length) ∧
      ∀ k, AgreeUpTo n.log.entries (a.leaderLog req.term) k →
        AgreeUpTo (n.log.appendAll c.json req.entries).1.entries (a.leaderLog req.term) k := by
  obtain ⟨e, e', he, he', ht⟩ := h.checked inv hreq hok
  rw [(h.appendAll_eq inv hreq).1, ← h.log] at *
  exact (inv.shape.accept_log hreq.leader he he' ht hreq.piece).2

/-- An accepted request: the replica takes the piece and acknowledges to its end. -/
theorem acceptEntries {src : String} {req : AppendEntriesRequest} {resp : AppendEntriesResponse}
    (hterm : n.currentTerm = req.term) (hreq : RequestOk a src req) (hsrc : src ≠ i)
    (hok : n.rejection req resp = none) :
    ∃ a', Moves (raft c) i a a' ∧ NodeOk c a' i (n.acceptEntries c.json req) ∧
      req.prevLogIndex + req.entries.length ≤ a'.ack req.term i := by
  obtain ⟨e, e', he, he', ht⟩ := h.checked inv hreq hok
  obtain ⟨hentries, hsi, hst⟩ := h.appendAll_eq inv hreq
  have hnot : n.role ≠ .Leader := by
    intro hr
    have := h.leader.mp hr
    rw [hterm, hreq.leader] at this
    exact hsrc (Option.some.inj this)
  have hmove : Move (raft c) i a (a.accept (raft c) i req.prevLogIndex req.entries) :=
    .accept (x := src) (by rw [h.term, hterm]; exact hreq.leader) hsrc
      (by rw [h.log]; exact he) (by rw [h.term, hterm]; exact he') ht
      (by rw [h.term, hterm]; exact hreq.piece)
  refine ⟨_, .single hmove, ?_, ?_⟩
  · have h₁ : NodeOk c (a.accept (raft c) i req.prevLogIndex req.entries) i
        (n.appendAllLog c.json req.entries) :=
      { running := h.running
        snapshotIndex := hsi
        snapshotTerm := hst
        term := h.term
        log := by
          simp only [Replicas.accept, Function.update_self, RaftNode.appendAllLog, h.log]
          exact hentries.symm
        disk := fun t x hx hd => by
          rcases List.mem_append.mp hd with hd | hd
          · exact h.disk t x hx hd
          · simp [appendAll_records, LogEntry.record] at hd
        vote := h.vote
        leader := h.leader
        candidate := fun _ => Or.inr ⟨src, by
          simp only [RaftNode.appendAllLog, hterm]
          exact hreq.leader⟩
        call := fun call hc => (h.call call hc).mono (hmove.grows inv.shape)
        keys := h.keys
        matchIndex := fun hr => absurd hr hnot
        nextIndex := fun hr => absurd hr hnot }
    rw [acceptEntries_eq]
    exact h₁.congr rfl (fun _ hx => hx)
  · simp only [Replicas.accept, h.term, hterm, true_and, if_true]
    exact Nat.le_max_right _ _

/-- `HandleAppendEntries`, with the response it gives. -/
theorem handleAppendEntries {src : String} {req : AppendEntriesRequest}
    (hreq : RequestOk a src req) (hsrc : src ≠ i) :
    ∃ a', Moves (raft c) i a a' ∧ NodeOk c a' i (n.handleAppendEntries c.json req).1 ∧
      ResponseOk a' i req.term req.prevLogIndex req.entries.length
        (n.handleAppendEntries c.json req).2 := by
  obtain ⟨a₁, hm₁, hadopt⟩ := h.adoptTerm inv req.term req.leaderId
  have h₁ : NodeOk c a₁ i (heard n req) := hadopt.congr rfl (fun _ hx => hx)
  have h' := handled c.json n req
  generalize n.handleAppendEntries c.json req = out at h' ⊢
  cases h' with
  | stale _ =>
    exact ⟨a, .refl, h, fun hx => absurd hx (by simp), fun _ => Or.inl ⟨rfl, rfl⟩⟩
  | rejected hle hrej =>
    obtain ⟨hsucc, hterm, hci, hci'⟩ := rejection_eq_some (h.shaped inv)
      (fun k e he hk => inv.shape.key_pos (h.logged inv) he hk) hrej
    refine ⟨a₁, hm₁, h₁, fun hx => ?_, fun _ => Or.inr ⟨by rw [hterm]; exact hle, hci, hci'⟩⟩
    rw [hsucc] at hx
    exact absurd hx (by simp)
  | accepted hle hok =>
    rw [← heard_rejection] at hok
    obtain ⟨a₂, hm₂, h₂, hack⟩ := h₁.acceptEntries (hm₁.inv inv) (heard_currentTerm hle)
      (hreq.mono (hm₁.grows inv)) hsrc hok
    exact ⟨a₂, hm₁.trans hm₂, h₂, fun _ => ⟨hle, hack⟩, fun hx => absurd hx (by simp)⟩

/-- `HandleRequestVote`. -/
theorem handleRequestVote {req : RequestVoteRequest}
    (hcand : LastIs LogEntry.term (a.cand req.term req.candidateId) req.lastLogIndex
      req.lastLogTerm) (hne : req.candidateId ≠ "") :
    Simulates c a i (n.handleRequestVote req).1 := by
  obtain ⟨a₁, hm₁, h₁⟩ := h.adoptTerm inv req.term ""
  have h' := voteHandled n req
  generalize n.handleRequestVote req = out at h' ⊢
  cases h' with
  | stale _ => exact h.simulates
  | granted hle hg =>
    have hstood : a.cand req.term req.candidateId ≠ [] := by
      intro h0
      have := hcand.1
      rw [h0] at this
      exact absurd this (by simp)
    have hcand₁ := hcand
    rw [← (hm₁.grows inv).cand _ _ hstood] at hcand₁
    obtain ⟨a₂, hm₂, h₂⟩ := h₁.castVote (hm₁.inv inv) (adoptTerm_currentTerm hle "") hcand₁
      hne hg
    exact ⟨a₂, hm₁.trans hm₂, h₂⟩
  | denied _ _ => exact ⟨a₁, hm₁, h₁⟩

end NodeOk

end Proof
end OrcDb
