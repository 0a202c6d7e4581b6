import OrcDb.Raft.Section
import OrcDb.Proof.Raft.HardState

/-!
# What a section does to one node

`Acts` is `Section.run` read backwards, as `Does` is for the cluster: one constructor per
section, with the guards that held. What a node does in a cluster it does on its own
(`Does.run`), so a statement about every run of one node is about every node of every
cluster.

The second half is the disk side of a section. It persists what it promises
(`Acts.persists`), and a vote is written before it is announced (`Acts.announced`): the
record `{T, c}` is among those the section writes.
-/

set_option autoImplicit false

namespace OrcDb
namespace Proof

open Lib

inductive Acts (J : Json.Codec) (cfg : RaftConfig) (n : RaftNode) : Section → RaftNode → Prop
  | startElection {id : Nat} (idle : n.election = none) (role : n.role ≠ .Leader) :
      Acts J cfg n (.startElection id) (n.startElection cfg id).1
  | recvVote {call : ElectionCall} {resp : RequestVoteResponse}
      (open' : n.election = some call) (pending : call.pending ≠ []) :
      Acts J cfg n (.recvVote resp) (n.recvVote call resp)
  | skipVote {call : ElectionCall} (open' : n.election = some call)
      (pending : call.pending ≠ []) : Acts J cfg n .skipVote (n.skipVote call)
  | finishElection {call : ElectionCall} (open' : n.election = some call)
      (pending : call.pending = []) :
      Acts J cfg n .finishElection (n.finishElection J cfg call)
  | startReplicate {id : Nat} {peer : String} (idle : n.replication = none)
      (role : n.role = .Leader) (peer_mem : peer ∈ cfg.peers) :
      Acts J cfg n (.startReplicate id peer) (n.startReplicate cfg id peer).1
  | finishReplicate {call : ReplicateCall} {resp : AppendEntriesResponse}
      (open' : n.replication = some call) :
      Acts J cfg n (.finishReplicate resp) (n.finishReplicate cfg call resp)
  | abandonReplicate {call : ReplicateCall} (open' : n.replication = some call) :
      Acts J cfg n .abandonReplicate { n with replication := none }
  | requestVote {req : RequestVoteRequest} :
      Acts J cfg n (.requestVote req) (n.handleRequestVote req).1
  | appendEntries {req : AppendEntriesRequest} :
      Acts J cfg n (.appendEntries req) (n.handleAppendEntries J req).1
  | propose {id : Nat} {key value : String} {op : OpType} {ttlMs : Int} :
      Acts J cfg n (.propose id key value op ttlMs) (n.propose J id key value op ttlMs).1
  | wakePropose {id : Nat} {deadline : Bool} {call : ProposeCall} {result : ProposeResult}
      (found : n.proposals.find? (fun call => call.id = id) = some call)
      (outcome : n.proposeOutcome call deadline = some result) :
      Acts J cfg n (.wakePropose id deadline)
        { n with proposals := n.proposals.filter (·.id ≠ id) }
  | beginApply {e : LogEntry} (idle : n.applying = none)
      (behind : n.lastApplied < n.commitIndex)
      (entry : n.log.getEntry (n.lastApplied + 1) = some e) :
      Acts J cfg n .beginApply
        { n with applying := some (n.lastApplied + 1, e), applied := n.applied ++ [e] }
  | endApply {data : String} {next : Nat} {e : LogEntry} (busy : n.applying = some (next, e)) :
      Acts J cfg n (.endApply data) (n.endApply cfg next data)
  | stallApply {data : String} (idle : n.applying = none)
      (behind : n.lastApplied < n.commitIndex) (ends : n.applyLoopEnds = true) :
      Acts J cfg n (.stallApply data) (n.maybeSnapshot cfg data)

variable {J : Json.Codec} {cfg : RaftConfig} {n n' : RaftNode} {sec : Section}

/-- The inversion. -/
theorem acts_of_run (h : sec.run J cfg n = some n') : Acts J cfg n sec n' := by
  cases sec with
  | startElection id =>
    simp only [Section.run] at h
    split at h
    · exact absurd h (by simp)
    · rename_i hc
      simp only [not_or, Option.not_isSome_iff_eq_none] at hc
      cases h
      exact .startElection hc.1 hc.2
  | recvVote resp =>
    simp only [Section.run, Option.bind_eq_bind, Option.bind_eq_some_iff] at h
    obtain ⟨call, hcall, h⟩ := h
    split at h
    · exact absurd h (by simp)
    · rename_i hp
      cases h
      exact .recvVote hcall hp
  | skipVote =>
    simp only [Section.run, Option.bind_eq_bind, Option.bind_eq_some_iff] at h
    obtain ⟨call, hcall, h⟩ := h
    split at h
    · exact absurd h (by simp)
    · rename_i hp
      cases h
      exact .skipVote hcall hp
  | finishElection =>
    simp only [Section.run, Option.bind_eq_bind, Option.bind_eq_some_iff] at h
    obtain ⟨call, hcall, h⟩ := h
    split at h
    · rename_i hp
      cases h
      exact .finishElection hcall hp
    · exact absurd h (by simp)
  | startReplicate id peer =>
    simp only [Section.run] at h
    split at h
    · rename_i hc
      cases h
      exact .startReplicate hc.1 hc.2.1 hc.2.2
    · exact absurd h (by simp)
  | finishReplicate resp =>
    simp only [Section.run, Option.bind_eq_bind, Option.bind_eq_some_iff] at h
    obtain ⟨call, hcall, h⟩ := h
    cases h
    exact .finishReplicate hcall
  | abandonReplicate =>
    simp only [Section.run, Option.bind_eq_bind, Option.bind_eq_some_iff] at h
    obtain ⟨call, hcall, h⟩ := h
    cases h
    exact .abandonReplicate hcall
  | requestVote req =>
    cases h
    exact .requestVote
  | appendEntries req =>
    cases h
    exact .appendEntries
  | propose id key value op ttlMs =>
    cases h
    exact .propose
  | wakePropose id deadline =>
    simp only [Section.run, Option.bind_eq_bind, Option.bind_eq_some_iff] at h
    obtain ⟨call, hfind, result, hres, h⟩ := h
    cases h
    exact .wakePropose hfind hres
  | beginApply =>
    simp only [Section.run, RaftNode.beginApply] at h
    split at h
    · exact absurd h (by simp)
    · rename_i hidle
      split at h
      · rename_i hlt
        split at h
        · rename_i e he
          cases h
          exact .beginApply (by simpa using hidle) hlt he
        · exact absurd h (by simp)
      · exact absurd h (by simp)
  | endApply data =>
    simp only [Section.run, Option.bind_eq_bind, Option.bind_eq_some_iff] at h
    obtain ⟨⟨next, e⟩, hbusy, h⟩ := h
    cases h
    exact .endApply hbusy
  | stallApply data =>
    simp only [Section.run] at h
    split at h
    · rename_i hc
      cases h
      exact .stallApply hc.1 hc.2.1 hc.2.2
    · exact absurd h (by simp)

/-- What a node does in a cluster, it can do on its own. -/
theorem Does.run {c : Cluster} {s : State} {a : Action} {e : Effect} (h : Does c s a e) :
    ∃ sec : Section, sec.run c.json (c.config e.actor) (s.node e.actor) = some e.node := by
  cases h with
  | startElection up idle role =>
    exact ⟨.startElection s.nextCall, by simp [Section.run, up.node, idle, role]⟩
  | @recvVote _ _ _ _ _ _ resp up open' pending =>
    exact ⟨.recvVote resp, by simp [Section.run, up.node, open', pending]⟩
  | skipVote up open' pending =>
    exact ⟨.skipVote, by simp [Section.run, up.node, open', pending]⟩
  | finishElection up open' pending =>
    exact ⟨.finishElection, by simp [Section.run, up.node, open', pending]⟩
  | @startReplicate _ peer _ up idle role peer_mem =>
    exact ⟨.startReplicate s.nextCall peer,
      by simp [Section.run, up.node, idle, role, Cluster.config, peer_mem]⟩
  | @finishReplicate _ _ _ _ resp up open' =>
    exact ⟨.finishReplicate resp, by simp [Section.run, up.node, open']⟩
  | abandonReplicate up open' =>
    exact ⟨.abandonReplicate, by simp [Section.run, up.node, open']⟩
  | @handleRequestVote _ _ _ _ _ req up =>
    exact ⟨.requestVote req, by simp [Section.run, up.node]⟩
  | @handleAppendEntries _ _ _ _ _ req up =>
    exact ⟨.appendEntries req, by simp [Section.run, up.node]⟩
  | @propose _ key value op ttlMs _ up =>
    exact ⟨.propose s.nextCall key value op ttlMs, by simp [Section.run, up.node]⟩
  | @wakePropose _ id deadline _ _ _ up found outcome =>
    exact ⟨.wakePropose id deadline, by simp [Section.run, up.node, found, outcome]⟩
  | beginApply up idle behind entry =>
    exact ⟨.beginApply, by simp [Section.run, RaftNode.beginApply, up.node, idle, behind, entry]⟩
  | @endApply _ data _ _ _ up busy =>
    exact ⟨.endApply data, by simp [Section.run, up.node, busy]⟩
  | @stallApply _ data _ up idle behind ends =>
    exact ⟨.stallApply data, by simp [Section.run, up.node, idle, behind, ends]⟩

/-! ## Terms of 64 bits -/

theorem startElection64_eq (cfg : RaftConfig) (id : Nat) {n : RaftNode}
    (h : n.currentTerm < 2 ^ 64 - 1) : n.startElection64 cfg id = n.startElection cfg id := by
  unfold RaftNode.startElection64 RaftNode.startElection
  rw [Nat.mod_eq_of_lt (by omega)]

/-- Below the largest term a section is the one over `Nat`. -/
theorem run64_eq (J : Json.Codec) (cfg : RaftConfig) {n : RaftNode} {sec : Section}
    (h : sec.TermFits n) : sec.run64 J cfg n = sec.run J cfg n := by
  cases sec with
  | startElection id => rw [Section.run64, Section.run, startElection64_eq cfg id h]
  | _ => rfl

theorem announces64_eq (cfg : RaftConfig) {n : RaftNode} {sec : Section} (h : sec.TermFits n) :
    sec.announces64 cfg n = sec.announces cfg n := by
  cases sec with
  | startElection id =>
    rw [Section.announces64, Section.announces, startElection64_eq cfg id h]
  | _ => rfl

/-! ## The disk -/

/-- **Every section persists what it promises.** -/
theorem Acts.persists (h : Acts J cfg n sec n') : Persists n n' := by
  cases h with
  | startElection => exact persists_startElection _ _ _
  | recvVote => exact persists_recvVote _ _ _
  | skipVote => exact .refl rfl rfl
  | finishElection => exact persists_finishElection _ _ _ _
  | startReplicate => exact .refl rfl rfl
  | finishReplicate => exact persists_finishReplicate _ _ _ _
  | abandonReplicate => exact .refl rfl rfl
  | requestVote => exact persists_handleRequestVote _ _
  | appendEntries => exact persists_handleAppendEntries _ _ _
  | propose => exact persists_propose _ _ _ _ _ _ _
  | wakePropose => exact .refl rfl rfl
  | beginApply => exact .refl rfl rfl
  | endApply => exact persists_endApply _ _ _ _
  | stallApply => exact persists_maybeSnapshot _ _ _

/-- **A vote is written before it is announced.** -/
theorem Acts.announced (h : Acts J cfg n sec n') {v : Nat × String}
    (hv : v ∈ sec.announces cfg n) :
    .hardState { term := v.1, votedFor := v.2 } ∈ n'.wal.drop n.wal.length := by
  cases h with
  | startElection =>
    simp only [Section.announces, List.mem_map] at hv
    obtain ⟨-, -, rfl⟩ := hv
    simp [RaftNode.startElection, RaftNode.persistHardState]
  | @requestVote req =>
    simp only [Section.announces] at hv
    split at hv
    · rename_i hg
      rw [List.mem_singleton.mp hv, handleRequestVote_writes hg]
      obtain ⟨rs, hrs, -⟩ := persists_adoptTerm n req.term ""
      rw [hrs, List.append_assoc, List.drop_left]
      simp
    · exact absurd hv (by simp)
  | _ => exact absurd hv (by simp [Section.announces])

/-! ## Snapshots on disk -/

/-- The snapshot records of a WAL. -/
def snapshotsOf (wal : List WalRecord) : List WalRecord :=
  wal.filter fun rec => match rec with
    | .snapshot _ _ _ => true
    | _ => false

@[simp] theorem snapshotsOf_append (wal wal' : List WalRecord) :
    snapshotsOf (wal ++ wal') = snapshotsOf wal ++ snapshotsOf wal' :=
  List.filter_append _ _

@[simp] theorem snapshotsOf_hardState (hs : HardState) : snapshotsOf [.hardState hs] = [] := rfl

@[simp] theorem snapshotsOf_records (J : Json.Codec) (es : List LogEntry) :
    snapshotsOf (es.map (LogEntry.record J)) = [] := by
  rw [snapshotsOf, List.filter_eq_nil_iff]
  intro rec hrec
  obtain ⟨e, -, rfl⟩ := List.mem_map.mp hrec
  simp [LogEntry.record]

theorem mem_snapshotsOf {wal : List WalRecord} {i t : Nat} {data : String} :
    .snapshot i t data ∈ snapshotsOf wal ↔ .snapshot i t data ∈ wal := by
  simp [snapshotsOf]

theorem snapshotsOf_persistHardState (n : RaftNode) :
    snapshotsOf n.persistHardState.wal = snapshotsOf n.wal := by
  simp [RaftNode.persistHardState]

theorem snapshotsOf_appendLog (J : Json.Codec) (n : RaftNode) (e : LogEntry) :
    snapshotsOf (n.appendLog J e).wal = snapshotsOf n.wal := by
  have := snapshotsOf_records J [e]
  simp only [List.map_singleton] at this
  simp [RaftNode.appendLog, RaftLog.append, this]

theorem snapshotsOf_becomeFollower (n : RaftNode) (term : Nat) (leaderId : String) :
    snapshotsOf (n.becomeFollower term leaderId).wal = snapshotsOf n.wal :=
  snapshotsOf_persistHardState _

theorem snapshotsOf_adoptTerm (n : RaftNode) (term : Nat) (leaderId : String) :
    snapshotsOf (n.adoptTerm term leaderId).wal = snapshotsOf n.wal := by
  unfold RaftNode.adoptTerm
  split
  · exact snapshotsOf_becomeFollower n term leaderId
  · rfl

theorem snapshotsOf_recvVote (n : RaftNode) (call : ElectionCall) (resp : RequestVoteResponse) :
    snapshotsOf (n.recvVote call resp).wal = snapshotsOf n.wal := by
  have h' := voteAnswered n call resp
  generalize n.recvVote call resp = out at h' ⊢
  cases h' with
  | newer _ => exact snapshotsOf_becomeFollower n resp.term ""
  | vote _ _ _ _ | other _ _ => rfl

theorem snapshotsOf_finishElection (J : Json.Codec) (n : RaftNode) (call : ElectionCall) :
    snapshotsOf (n.finishElection J cfg call).wal = snapshotsOf n.wal := by
  unfold RaftNode.finishElection
  split
  · exact snapshotsOf_appendLog J _ _
  · rfl

theorem snapshotsOf_handleRequestVote (n : RaftNode) (req : RequestVoteRequest) :
    snapshotsOf (n.handleRequestVote req).1.wal = snapshotsOf n.wal := by
  have h' := voteHandled n req
  generalize n.handleRequestVote req = out at h' ⊢
  cases h' with
  | stale _ => rfl
  | granted _ _ =>
    rw [snapshotsOf_persistHardState]
    exact snapshotsOf_adoptTerm n req.term ""
  | denied _ _ => exact snapshotsOf_adoptTerm n req.term ""

theorem snapshotsOf_handleAppendEntries (J : Json.Codec) (n : RaftNode)
    (req : AppendEntriesRequest) :
    snapshotsOf (n.handleAppendEntries J req).1.wal = snapshotsOf n.wal := by
  have hheard : snapshotsOf (heard n req).wal = snapshotsOf n.wal :=
    snapshotsOf_adoptTerm n req.term req.leaderId
  have h' := handled J n req
  generalize n.handleAppendEntries J req = out at h' ⊢
  cases h' with
  | stale _ => rfl
  | rejected _ _ => exact hheard
  | accepted _ _ =>
    -- what the merge writes are entries
    have haccept : snapshotsOf ((heard n req).acceptEntries J req).wal =
        snapshotsOf (heard n req).wal := by
      rw [acceptEntries_eq]
      simp [appendAll_records]
    exact haccept.trans hheard

theorem snapshotsOf_finishReplicate (n : RaftNode) (call : ReplicateCall)
    (resp : AppendEntriesResponse) :
    snapshotsOf (n.finishReplicate cfg call resp).wal = snapshotsOf n.wal := by
  have h' := finished cfg n call resp
  generalize n.finishReplicate cfg call resp = out at h' ⊢
  cases h' with
  | newer _ => exact snapshotsOf_becomeFollower _ resp.term ""
  | success _ _ _ =>
    rw [advanceCommitIndex_eq]
    rfl
  | dropped _ _ | failure _ _ _ => rfl

theorem snapshotsOf_propose (J : Json.Codec) (id : Nat) (n : RaftNode) (key value : String)
    (op : OpType) (ttlMs : Int) :
    snapshotsOf (n.propose J id key value op ttlMs).1.wal = snapshotsOf n.wal := by
  unfold RaftNode.propose
  split
  · rfl
  · exact snapshotsOf_appendLog J n _

/-- `MaybeSnapshot` writes at most one record, with the text it was handed. -/
theorem maybeSnapshot_snapshots {data data' : String} {i t : Nat}
    (h : .snapshot i t data ∈ (n.maybeSnapshot cfg data').wal) :
    .snapshot i t data ∈ n.wal ∨ data' = data := by
  unfold RaftNode.maybeSnapshot at h
  split at h
  · rcases List.mem_append.mp h with hmem | hmem
    · exact Or.inl hmem
    · rw [List.mem_singleton] at hmem
      injection hmem with _ _ hdata
      exact Or.inr hdata.symm
  · exact Or.inl h

/-- **A snapshot on disk is one the apply thread wrote.** -/
theorem Acts.snapshots (h : Acts J cfg n sec n') {i t : Nat} {data : String}
    (hrec : .snapshot i t data ∈ n'.wal) :
    .snapshot i t data ∈ n.wal ∨ sec = .endApply data ∨ sec = .stallApply data := by
  have hsame : snapshotsOf n'.wal = snapshotsOf n.wal → .snapshot i t data ∈ n.wal := by
    intro heq
    rw [← mem_snapshotsOf, ← heq, mem_snapshotsOf]
    exact hrec
  cases h with
  | startElection => exact Or.inl (hsame (snapshotsOf_persistHardState _))
  | recvVote => exact Or.inl (hsame (snapshotsOf_recvVote n _ _))
  | skipVote => exact Or.inl hrec
  | finishElection => exact Or.inl (hsame (snapshotsOf_finishElection J n _))
  | startReplicate => exact Or.inl hrec
  | finishReplicate => exact Or.inl (hsame (snapshotsOf_finishReplicate n _ _))
  | abandonReplicate => exact Or.inl hrec
  | requestVote => exact Or.inl (hsame (snapshotsOf_handleRequestVote n _))
  | appendEntries => exact Or.inl (hsame (snapshotsOf_handleAppendEntries J n _))
  | propose => exact Or.inl (hsame (snapshotsOf_propose J _ n _ _ _ _))
  | wakePropose => exact Or.inl hrec
  | beginApply => exact Or.inl hrec
  | @endApply data' next e busy =>
    unfold RaftNode.endApply at hrec
    dsimp only at hrec
    split at hrec
    · rcases maybeSnapshot_snapshots hrec with hmem | rfl
      · exact Or.inl hmem
      · exact Or.inr (Or.inl rfl)
    · exact Or.inl hrec
  | @stallApply data' idle behind ends =>
    rcases maybeSnapshot_snapshots hrec with hmem | rfl
    · exact Or.inl hmem
    · exact Or.inr (Or.inr rfl)

end Proof
end OrcDb
