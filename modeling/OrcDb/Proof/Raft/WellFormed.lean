import OrcDb.Proof.Raft.Kindred
import OrcDb.Proof.Raft.Safety

/-!
# Every log stays in order

`AppendAll` pushes what it is given wherever the index says, so a log is in order only if the
requests are. A request is (`Orderly`): it carries a piece of its sender's log and the term in
front of it, and a follower that accepts it has that term there. So the two are one invariant
(`LogsOk`), of nodes and packets together; nothing in it asks who is whose peer.

One thing could break it: with `nextIndex_` at 0 the unsigned `next - 1` would wrap. It never gets
there, because a rejection that names a term also names an index above 0.
-/

set_option autoImplicit false

namespace OrcDb

open Lib

/-- Neither a restart nor a compaction: no stopped node comes back, and the apply loop leaves the
    log as it is. -/
def Event.KeepsLog (c : Cluster) (s : State) : Event → Prop
  | .act (.endApply i data) => ∀ p ∈ (s.node i).applying,
      ((s.node i).endApply (c.config i) p.1 data).log = (s.node i).log
  | .act (.stallApply i data) => ((s.node i).maybeSnapshot (c.config i) data).log = (s.node i).log
  | .restart _ | .stopDuringRestart _ _ => False
  | _ => True

instance (c : Cluster) (s : State) : (ev : Event) → Decidable (ev.KeepsLog c s)
  | .act (.endApply i data) => inferInstanceAs (Decidable (∀ p ∈ (s.node i).applying,
      ((s.node i).endApply (c.config i) p.1 data).log = (s.node i).log))
  | .act (.stallApply i data) =>
      inferInstanceAs
        (Decidable (((s.node i).maybeSnapshot (c.config i) data).log = (s.node i).log))
  | .restart _ | .stopDuringRestart _ _ => .isFalse id
  | .act (.startElection _) | .act (.recvVote _ _) | .act (.skipVote _)
  | .act (.finishElection _) | .act (.startReplicate _ _) | .act (.finishReplicate _ _)
  | .act (.abandonReplicate _) | .act (.deliver _) | .act (.propose _ _ _ _ _)
  | .act (.wakePropose _ _ _) | .act (.beginApply _) | .drop _ | .stop _ | .stopDuring _ _ =>
      .isTrue trivial

namespace Proof

/-! ## Logs -/

theorem intact_empty : Intact RaftLog.empty where
  toShaped := shaped_empty
  pos := by
    intro k e he hk
    have hlt := (List.getElem?_eq_some_iff.mp he).1
    simp only [RaftLog.empty, List.length_singleton] at hlt
    omega
  rising := List.pairwise_singleton _ _

theorem Intact.append {log : RaftLog} (h : Intact log) {e : LogEntry}
    (hindex : e.index = log.lastIndex + 1) (hpos : 0 < e.term)
    (hle : ∀ x ∈ log.entries, x.term ≤ e.term) (J : Json.Codec) : Intact (log.append J e).1 where
  toShaped := h.toShaped.append e hindex J
  pos := by
    intro k x hx hk
    simp only [RaftLog.append] at hx
    rcases Nat.lt_or_ge k log.entries.length with hlt | hge
    · rw [List.getElem?_append_left hlt] at hx
      exact h.pos k x hx hk
    · rw [List.getElem?_append_right hge] at hx
      rw [List.mem_singleton.mp (List.mem_of_getElem? hx)]
      exact hpos
  rising := h.rising.concat hle

section Batch

variable {log : RaftLog} {es : List LogEntry} {p : Nat} (J : Json.Codec) (h : Intact log)
  (hp : p ≤ log.lastIndex)
  (hindex : ∀ (k : Nat) (e : LogEntry), es[k]? = some e → e.index = p + 1 + k)
include h hp hindex

/-- A batch in order that fits behind an entry of the log leaves a log in order. -/
theorem Intact.appendAll (hpos : ∀ e ∈ es, 0 < e.term)
    (hrises : RisesFrom LogEntry.term (log.getTerm p) es) : Intact (log.appendAll J es).1 where
  toShaped := h.toShaped.appendAll J hindex hp
  pos := by
    rw [(Shaped.appendAll_entries J h.snapshotIndex hindex).1]
    exact merge_forall (h.le_lastIndex_iff.mp hp) h.pos
      fun k e he _ => hpos e (List.mem_of_getElem? he)
  rising := by
    have hx := List.getElem?_eq_getElem (h.le_lastIndex_iff.mp hp)
    rw [h.getTerm_eq hx] at hrises
    rw [(Shaped.appendAll_entries J h.snapshotIndex hindex).1]
    exact h.rising.merge hx hrises

/-- Every entry comes from the log or from the batch. -/
theorem Intact.term_le_appendAll {t : Nat} (hlog : ∀ e ∈ log.entries, e.term ≤ t)
    (hes : ∀ e ∈ es, e.term ≤ t) : ∀ e ∈ (log.appendAll J es).1.entries, e.term ≤ t := by
  intro e he
  rw [(Shaped.appendAll_entries J h.snapshotIndex hindex).1] at he
  obtain ⟨k, hk⟩ := List.getElem?_of_mem he
  exact merge_forall (R := fun _ x => x.term ≤ t) (h.le_lastIndex_iff.mp hp)
    (fun j x hx => hlog x (List.mem_of_getElem? hx))
    (fun j x hx => hes x (List.mem_of_getElem? hx)) k e hk

end Batch

/-! ## Nodes and requests -/

/-- The log of a node, and what the node will send or append. -/
structure NodeInOrder (n : RaftNode) : Prop where
  log : Intact n.log
  bounded : ∀ e ∈ n.log.entries, e.term ≤ n.currentTerm
  active : n.role ≠ .Follower → 0 < n.currentTerm
  next : ∀ p k, n.nextIndex.lookup p = some k → 0 < k

/-- The entries follow `prevLogIndex`, and their terms `prevLogTerm`. -/
structure Orderly (req : AppendEntriesRequest) : Prop where
  index : ∀ (k : Nat) (e : LogEntry), req.entries[k]? = some e → e.index = req.prevLogIndex + 1 + k
  rises : RisesFrom LogEntry.term req.prevLogTerm req.entries
  pos : ∀ e ∈ req.entries, 0 < e.term
  bounded : ∀ e ∈ req.entries, e.term ≤ req.term

/-- A rejection that names a term names an index behind the sentinel. -/
def Hints (resp : AppendEntriesResponse) : Prop := 0 < resp.conflictTerm → 0 < resp.conflictIndex

theorem nodeInOrder_of_empty {n : RaftNode} (hlog : n.log = RaftLog.empty)
    (hrole : n.role = .Follower) (hnext : n.nextIndex = ∅) : NodeInOrder n where
  log := by
    rw [hlog]
    exact intact_empty
  bounded := by
    intro e he
    rw [hlog] at he
    rw [List.mem_singleton.mp he]
    exact Nat.zero_le _
  active := fun h => absurd hrole h
  next := by
    intro p k hk
    rw [hnext] at hk
    exact absurd hk (by simp)

theorem lookup_insert_pos {m : IndexMap} (h : ∀ p k, m.lookup p = some k → 0 < k) {q : String}
    {v : Nat} (hv : 0 < v) : ∀ p k, (m.insert q v).lookup p = some k → 0 < k := by
  intro p k hk
  by_cases hpq : p = q
  · rw [hpq, AList.lookup_insert] at hk
    cases hk
    exact hv
  · rw [AList.lookup_insert_ne hpq] at hk
    exact h p k hk

/-- `MaybeSnapshot` writes the log and the disk and nothing else. -/
theorem maybeSnapshot_eq (cfg : RaftConfig) (n : RaftNode) (data : String) :
    n.maybeSnapshot cfg data =
      { n with log := (n.maybeSnapshot cfg data).log, wal := (n.maybeSnapshot cfg data).wal } := by
  unfold RaftNode.maybeSnapshot
  split <;> rfl

namespace NodeInOrder

variable {n : RaftNode} (h : NodeInOrder n)
include h

theorem frame {m : RaftNode} (hlog : m.log = n.log) (hterm : m.currentTerm = n.currentTerm)
    (hrole : m.role = n.role) (hnext : m.nextIndex = n.nextIndex) : NodeInOrder m where
  log := by
    rw [hlog]
    exact h.log
  bounded := by
    rw [hlog, hterm]
    exact h.bounded
  active := by
    rw [hrole, hterm]
    exact h.active
  next := by
    rw [hnext]
    exact h.next

theorem becomeFollower {t : Nat} (ht : n.currentTerm ≤ t) (leaderId : String) :
    NodeInOrder (n.becomeFollower t leaderId) where
  log := h.log
  bounded := fun e he => (h.bounded e he).trans ht
  active := fun hrole => absurd rfl hrole
  next := h.next

theorem adoptTerm (t : Nat) (leaderId : String) : NodeInOrder (n.adoptTerm t leaderId) := by
  unfold RaftNode.adoptTerm
  split
  · rename_i hlt
    exact h.becomeFollower (Nat.le_of_lt hlt) leaderId
  · exact h

theorem heard (req : AppendEntriesRequest) : NodeInOrder (heard n req) :=
  (h.adoptTerm req.term req.leaderId).frame rfl rfl rfl rfl

/-- The entry a leader makes itself has its term, which is positive and the last there is. -/
theorem append (J : Json.Codec) {m : RaftNode} {e : LogEntry}
    (hlog : m.log = (n.log.append J e).1) (hsame : m.currentTerm = n.currentTerm)
    (hindex : e.index = n.log.lastIndex + 1) (hterm : e.term = n.currentTerm)
    (hpos : 0 < n.currentTerm) (hnext : ∀ p k, m.nextIndex.lookup p = some k → 0 < k) :
    NodeInOrder m where
  log := by
    rw [hlog]
    exact h.log.append hindex (by rwa [hterm]) (by rw [hterm]; exact h.bounded) J
  bounded := by
    intro x hx
    rw [hlog] at hx
    rw [hsame]
    rcases List.mem_append.mp hx with hx | hx
    · exact h.bounded x hx
    · rw [List.mem_singleton.mp hx]
      exact Nat.le_of_eq hterm
  active := fun _ => by rwa [hsame]
  next := hnext

theorem propose (J : Json.Codec) (id : Nat) (key value : String) (op : OpType) (ttlMs : Int) :
    NodeInOrder (n.propose J id key value op ttlMs).1 := by
  unfold RaftNode.propose
  split
  · exact h
  · rename_i hrole
    have hpos : 0 < n.currentTerm := h.active (by rw [not_not.mp hrole]; decide)
    exact h.append J rfl rfl rfl rfl hpos h.next

/-! ### Elections -/

theorem startElection (cfg : RaftConfig) (id : Nat) : NodeInOrder (n.startElection cfg id).1 where
  log := h.log
  bounded := fun e he => Nat.le_succ_of_le (h.bounded e he)
  active := fun _ => Nat.succ_pos n.currentTerm
  next := h.next

theorem recvVote (call : ElectionCall) (resp : RequestVoteResponse) :
    NodeInOrder (n.recvVote call resp) := by
  have h' := voteAnswered n call resp
  generalize n.recvVote call resp = out at h' ⊢
  cases h' with
  | newer hlt => exact (h.becomeFollower (Nat.le_of_lt hlt) "").frame rfl rfl rfl rfl
  | vote _ _ _ _ | other _ _ => exact h.frame rfl rfl rfl rfl

theorem becomeLeader (J : Json.Codec) (cfg : RaftConfig) (hrole : n.role ≠ .Follower) :
    NodeInOrder (n.becomeLeader J cfg) := by
  refine h.append J rfl rfl rfl rfl (h.active hrole) ?_
  intro p k hk
  change (cfg.peers.foldl (fun m p => m.insert p (n.log.lastIndex + 1)) n.nextIndex).lookup p =
    some k at hk
  rw [lookup_foldl_insert] at hk
  split at hk
  · cases hk
    exact Nat.succ_pos _
  · exact h.next p k hk

theorem finishElection (J : Json.Codec) (cfg : RaftConfig) (call : ElectionCall) :
    NodeInOrder (n.finishElection J cfg call) := by
  have hn : NodeInOrder { n with election := none } := h.frame rfl rfl rfl rfl
  unfold RaftNode.finishElection
  dsimp only
  split
  · rename_i hwins
    exact hn.becomeLeader J cfg (by rw [hwins.1]; decide)
  · exact hn

theorem handleRequestVote (req : RequestVoteRequest) : NodeInOrder (n.handleRequestVote req).1 := by
  have hadopt := h.adoptTerm req.term ""
  have h' := voteHandled n req
  generalize n.handleRequestVote req = out at h' ⊢
  cases h' with
  | stale _ => exact h
  | granted _ _ => exact hadopt.frame rfl rfl rfl rfl
  | denied _ _ => exact hadopt

/-! ### Replication -/

theorem orderly_startReplicate (cfg : RaftConfig) (id : Nat) (peerId : String) :
    Orderly (n.startReplicate cfg id peerId).2 := by
  obtain ⟨p, hp⟩ : ∃ p, (n.nextIndex.lookup peerId).getD (n.log.lastIndex + 1) = p + 1 := by
    cases hnext : n.nextIndex.lookup peerId with
    | none => exact ⟨n.log.lastIndex, rfl⟩
    | some k => exact ⟨k - 1, (Nat.sub_add_cancel (h.next peerId k hnext)).symm⟩
  unfold RaftNode.startReplicate
  dsimp only
  rw [hp, if_neg (Nat.succ_ne_zero p), Nat.add_sub_cancel]
  have hpiece := collectEntries_piece h.log.toShaped n.log.lastIndex 100 (p + 1)
  generalize RaftNode.collectEntries n.log n.log.lastIndex (p + 1) 100 = es at hpiece ⊢
  have hentry : ∀ (k : Nat) (e : LogEntry), es[k]? = some e →
      n.log.entries[p + 1 + k]? = some e := by
    intro k e he
    rw [hpiece k (List.getElem?_eq_some_iff.mp he).1, he]
  refine ⟨fun k e he => h.log.index _ e (hentry k e he), ?_, ?_, ?_⟩
  · cases es with
    | nil => exact List.pairwise_singleton _ _
    | cons e rest =>
      have hlt := (List.getElem?_eq_some_iff.mp hpiece.head).1
      have hx := List.getElem?_eq_getElem (Nat.lt_of_succ_lt hlt)
      rw [h.log.getTerm_eq hx]
      exact h.log.rising.piece hx hpiece
  · intro e he
    obtain ⟨k, hk⟩ := List.getElem?_of_mem he
    exact h.log.pos _ e (hentry k e hk) (by omega)
  · exact fun e he => h.bounded e (hpiece.sublist.subset he)

theorem acceptEntries (J : Json.Codec) {req : AppendEntriesRequest} (hreq : Orderly req)
    (hterm : req.term ≤ n.currentTerm) (hcheck : Consistent n.log req) :
    NodeInOrder (n.acceptEntries J req) := by
  have hprev : req.prevLogIndex ≤ n.log.lastIndex := by
    rcases hcheck with h0 | ⟨hle, -⟩
    · rw [h0]
      exact Nat.zero_le _
    · exact hle
  have hrises : RisesFrom LogEntry.term (n.log.getTerm req.prevLogIndex) req.entries := by
    rcases hcheck with h0 | ⟨-, heq⟩
    · -- in front of the first entry there is the sentinel
      rw [h0, h.log.getTerm_zero]
      exact hreq.rises.of_le (Nat.zero_le _)
    · rw [heq]
      exact hreq.rises
  rw [acceptEntries_eq]
  exact ⟨h.log.appendAll J hprev hreq.index hreq.pos hrises,
    h.log.term_le_appendAll J hprev hreq.index h.bounded
      fun e he => (hreq.bounded e he).trans hterm,
    h.active, h.next⟩

theorem handleAppendEntries (J : Json.Codec) {req : AppendEntriesRequest} (hreq : Orderly req) :
    NodeInOrder (n.handleAppendEntries J req).1 := by
  have h' := handled J n req
  generalize n.handleAppendEntries J req = out at h' ⊢
  cases h' with
  | stale _ => exact h
  | rejected _ _ => exact h.heard req
  | accepted hterm hcheck =>
    refine (h.heard req).acceptEntries J hreq (Nat.le_of_eq (heard_currentTerm hterm).symm) ?_
    rw [heard_log]
    exact rejection_eq_none_iff.mp hcheck

theorem hints_handleAppendEntries (J : Json.Codec) (req : AppendEntriesRequest) :
    Hints (n.handleAppendEntries J req).2 := by
  have h' := handled J n req
  generalize n.handleAppendEntries J req = out at h' ⊢
  cases h' with
  | stale _ | accepted _ _ => exact fun hpos => absurd hpos (Nat.lt_irrefl 0)
  | rejected _ hcheck =>
    obtain ⟨hprev, ⟨-, rfl⟩ | ⟨-, -, rfl⟩⟩ := rejection_cases hcheck
    · exact fun hpos => absurd hpos (Nat.lt_irrefl 0)
    · exact fun hpos => firstInTerm_pos h.log.toShaped hpos _ hprev

omit h in
theorem backUp_pos {resp : AppendEntriesResponse} (hresp : Hints resp) : 0 < n.backUp resp := by
  unfold RaftNode.backUp
  dsimp only
  split
  · rename_i hterm
    split
    · exact Nat.succ_pos _
    · exact hresp hterm
  · split
    · assumption
    · exact Nat.one_pos

theorem finishReplicate (cfg : RaftConfig) (call : ReplicateCall) {resp : AppendEntriesResponse}
    (hresp : Hints resp) : NodeInOrder (n.finishReplicate cfg call resp) := by
  have h' := finished cfg n call resp
  generalize n.finishReplicate cfg call resp = out at h' ⊢
  have hn : NodeInOrder { n with replication := none } := h.frame rfl rfl rfl rfl
  cases h' with
  | newer hlt => exact hn.becomeFollower (Nat.le_of_lt hlt) ""
  | dropped _ _ => exact hn
  | success _ _ _ =>
    rw [advanceCommitIndex_eq]
    exact ⟨h.log, h.bounded, h.active, lookup_insert_pos h.next (Nat.succ_pos _)⟩
  | failure _ _ _ =>
    exact ⟨h.log, h.bounded, h.active, lookup_insert_pos h.next (backUp_pos hresp)⟩

/-! ### The apply loop, as long as it does not compact -/

theorem maybeSnapshot {cfg : RaftConfig} {data : String}
    (hkeep : (n.maybeSnapshot cfg data).log = n.log) : NodeInOrder (n.maybeSnapshot cfg data) := by
  rw [maybeSnapshot_eq]
  exact h.frame hkeep rfl rfl rfl

theorem endApply {cfg : RaftConfig} {next : Nat} {data : String}
    (hkeep : (n.endApply cfg next data).log = n.log) : NodeInOrder (n.endApply cfg next data) := by
  have hn : NodeInOrder { n with lastApplied := next, applying := none } := h.frame rfl rfl rfl rfl
  unfold RaftNode.endApply at hkeep ⊢
  dsimp only at hkeep ⊢
  split at hkeep
  · rename_i hends
    rw [if_pos hends]
    exact hn.maybeSnapshot hkeep
  · rename_i hgoes
    rw [if_neg hgoes]
    exact hn

end NodeInOrder

/-! ## The cluster -/

def PayloadOk : Payload → Prop
  | .appendRequest req => Orderly req
  | .appendResponse resp => Hints resp
  | .voteRequest _ | .voteResponse _ => True

structure LogsOk (s : State) : Prop where
  nodes : ∀ i, NodeInOrder (s.node i)
  packets : ∀ p ∈ s.network, PayloadOk p.payload

section Run

variable {c : Cluster} {s s' : State} {a : Action} {e : Effect}

theorem logsOk_init : LogsOk State.init where
  nodes := fun _ => nodeInOrder_of_empty rfl rfl rfl
  packets := fun _ hp => absurd hp List.not_mem_nil

theorem nodeInOrder_stopped (wal : List WalRecord) : NodeInOrder (RaftNode.stopped wal) :=
  nodeInOrder_of_empty rfl rfl rfl

namespace LogsOk

variable (ok : LogsOk s)
include ok

theorem up {i : String} {n : RaftNode} (up : Up c s i n) : NodeInOrder n := up.node ▸ ok.nodes i

theorem packet {src dst : String} {id k : Nat} {payload : Payload}
    (h : s.network[k]? = some ⟨src, dst, id, payload⟩) : PayloadOk payload :=
  ok.packets _ (List.mem_of_getElem? h)

/-- The node a section runs on stays in order. -/
theorem node (hd : Does c s a e) (hkeep : (Event.act a).KeepsLog c s) : NodeInOrder e.node := by
  cases hd with
  | startElection up => exact (ok.up up).startElection _ _
  | recvVote up => exact (ok.up up).recvVote _ _
  | finishElection up => exact (ok.up up).finishElection _ _ _
  | finishReplicate up _ pkt => exact (ok.up up).finishReplicate _ _ (ok.packet pkt)
  | handleRequestVote up => exact (ok.up up).handleRequestVote _
  | handleAppendEntries up pkt => exact (ok.up up).handleAppendEntries _ (ok.packet pkt)
  | propose up => exact (ok.up up).propose _ _ _ _ _ _
  | skipVote up | startReplicate up | abandonReplicate up | wakePropose up | beginApply up =>
    exact (ok.up up).frame rfl rfl rfl rfl
  | endApply up busy =>
    obtain ⟨-, rfl, -⟩ := up
    exact (ok.nodes _).endApply (hkeep _ busy)
  | stallApply up =>
    obtain ⟨-, rfl, -⟩ := up
    exact (ok.nodes _).maybeSnapshot hkeep

/-- What a section sends is in order too. -/
theorem sent (hd : Does c s a e) : ∀ p ∈ e.sent, PayloadOk p.payload := by
  intro p hp
  cases hd with
  | startElection =>
    obtain ⟨peer, -, rfl⟩ := List.mem_map.mp hp
    exact trivial
  | startReplicate up =>
    rw [List.mem_singleton.mp hp]
    exact (ok.up up).orderly_startReplicate _ _ _
  | handleRequestVote =>
    rw [List.mem_singleton.mp hp]
    exact trivial
  | handleAppendEntries up =>
    rw [List.mem_singleton.mp hp]
    exact (ok.up up).hints_handleAppendEntries _ _
  | recvVote | skipVote | finishElection | finishReplicate | abandonReplicate | propose
  | wakePropose | beginApply | endApply | stallApply => exact absurd hp List.not_mem_nil

theorem set {n : RaftNode} (hn : NodeInOrder n) (i : String) {network : List Packet}
    (hpackets : ∀ p ∈ network, PayloadOk p.payload) (nextCall : Nat) :
    LogsOk { node := Function.update s.node i n, network, nextCall } where
  nodes := (Function.forall_update_iff s.node fun _ n => NodeInOrder n).mpr
    ⟨hn, fun j _ => ok.nodes j⟩
  packets := hpackets

theorem step {ev : Event} (hkeep : ev.KeepsLog c s) (h : ev.step c s = some s') : LogsOk s' := by
  cases stepped h with
  | act hd =>
    refine ok.set (ok.node hd hkeep) _ ?_ _
    intro p hp
    rcases List.mem_append.mp hp with hp | hp
    · exact ok.packets p (hd.network_subset p hp)
    · exact ok.sent hd p hp
  | @drop k =>
    exact ⟨ok.nodes, fun p hp => ok.packets p ((List.eraseIdx_sublist s.network k).subset hp)⟩
  | stop => exact ok.set (nodeInOrder_stopped _) _ ok.packets _
  | stopDuring hd =>
    exact ok.set (nodeInOrder_stopped _) _
      (fun p hp => ok.packets p (hd.network_subset p hp)) _
  | restart | stopDuringRestart => exact hkeep.elim

end LogsOk

theorem logsOk_of_run {tr : List (State × Event)}
    (run : Runs (Event.step c) (fun s ev => ev.KeepsLog c s) State.init tr s) : LogsOk s :=
  run.invariant (fun _ _ _ ok hkeep hstep => ok.step hkeep hstep) logsOk_init

/-- Every log is in order in every state a cluster can reach without restarts and compaction:
indices are positions, terms never fall, are positive behind the sentinel and no later than
`currentTerm_`, and `LastIndex()` is `Size()`. -/
theorem logs_wellFormed {tr : List (State × Event)}
    (run : Runs (Event.step c) (fun s ev => ev.KeepsLog c s) State.init tr s) (i : String) :
    (∀ (k : Nat) (e : LogEntry), (s.node i).log.entries[k]? = some e → e.index = k) ∧
      ((s.node i).log.entries.map LogEntry.term).Pairwise (· ≤ ·) ∧
      (∀ (k : Nat) (e : LogEntry), (s.node i).log.entries[k]? = some e → 0 < k → 0 < e.term) ∧
      (∀ e ∈ (s.node i).log.entries, e.term ≤ (s.node i).currentTerm) ∧
      (s.node i).log.lastIndex = (s.node i).log.size := by
  have h := (logsOk_of_run run).nodes i
  exact ⟨h.log.index, h.log.rising, h.log.pos, h.bounded, h.log.lastIndex_eq⟩

/-- The follower `B` has the no-op of the leader `A`. -/
theorem logs_wellFormed_three : ∃ tr s,
    Runs (Event.step three) (fun s ev => ev.KeepsLog three s) State.init tr s ∧
      (s.node "B").log.size = 1 ∧ (s.node "B").log.lastIndex = 1 ∧
      ∀ e ∈ (s.node "B").log.entries, e.term ≤ (s.node "B").currentTerm := by
  obtain ⟨s, hs, h⟩ := (Option.any_eq_true _ _).mp
    (show (exec (Event.step three) (fun s ev => ev.KeepsLog three s) State.init leadA).any (fun s =>
      decide ((s.node "B").log.size = 1)) = true by decide +kernel)
  have hsize := of_decide_eq_true h
  have run := runs_of_exec hs
  obtain ⟨-, -, -, hbounded, hlast⟩ := logs_wellFormed run "B"
  exact ⟨_, s, run, hsize, hlast.trans hsize, hbounded⟩

end Run

end Proof
end OrcDb
