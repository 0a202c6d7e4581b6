import OrcDb.Raft.Cluster
import OrcDb.Proof.Raft.Handler

/-!
# What a section can do

`Action.effect` is a function with a guard in front of every branch. `Does` is the same
thing read backwards, once: one constructor per section, carrying every guard that held and
the exact effect. Every invariant below is proved by cases on it, and no proof unfolds
`effect` again. `Stepped` does the same for the steps of the cluster.
-/

set_option autoImplicit false

namespace OrcDb
namespace Proof

open Lib

/-- `n` is the running member `i`. -/
structure Up (c : Cluster) (s : State) (i : String) (n : RaftNode) : Prop where
  mem : i ∈ c.ids
  node : s.node i = n
  running : n.running = true

theorem up_of_running? {c : Cluster} {s : State} {i : String} {n : RaftNode}
    (h : s.running? c i = some n) : Up c s i n := by
  unfold State.running? at h
  split at h
  · rename_i hi
    simp only [Option.some.injEq] at h
    exact ⟨hi.1, h, h ▸ hi.2⟩
  · exact absurd h (by simp)

inductive Does (c : Cluster) (s : State) : Action → Effect → Prop
  | startElection {i : String} {n : RaftNode} (up : Up c s i n) (idle : n.election = none)
      (role : n.role ≠ .Leader) :
      Does c s (.startElection i)
        { actor := i, node := (n.startElection (c.config i) s.nextCall).1, network := s.network
          sent := (c.peers i).map fun p =>
            { src := i, dst := p, call := s.nextCall,
              payload := .voteRequest (n.startElection (c.config i) s.nextCall).2 } }
  | recvVote {i p : String} {k : Nat} {n : RaftNode} {call : ElectionCall} {rest : List String}
      {resp : RequestVoteResponse} (up : Up c s i n) (open' : n.election = some call)
      (pending : call.pending = p :: rest)
      (pkt : s.network[k]? = some ⟨p, i, call.id, .voteResponse resp⟩) :
      Does c s (.recvVote i k)
        { actor := i, node := n.recvVote call resp, network := s.network.eraseIdx k }
  | skipVote {i : String} {n : RaftNode} {call : ElectionCall} (up : Up c s i n)
      (open' : n.election = some call) (pending : call.pending ≠ []) :
      Does c s (.skipVote i) { actor := i, node := n.skipVote call, network := s.network }
  | finishElection {i : String} {n : RaftNode} {call : ElectionCall} (up : Up c s i n)
      (open' : n.election = some call) (pending : call.pending = []) :
      Does c s (.finishElection i)
        { actor := i, node := n.finishElection c.json (c.config i) call, network := s.network }
  | startReplicate {i peer : String} {n : RaftNode} (up : Up c s i n)
      (idle : n.replication = none) (role : n.role = .Leader) (peer_mem : peer ∈ c.peers i) :
      Does c s (.startReplicate i peer)
        { actor := i, node := (n.startReplicate (c.config i) s.nextCall peer).1
          network := s.network
          sent := [⟨i, peer, s.nextCall,
            .appendRequest (n.startReplicate (c.config i) s.nextCall peer).2⟩] }
  | finishReplicate {i : String} {k : Nat} {n : RaftNode} {call : ReplicateCall}
      {resp : AppendEntriesResponse} (up : Up c s i n) (open' : n.replication = some call)
      (pkt : s.network[k]? = some ⟨call.peerId, i, call.id, .appendResponse resp⟩) :
      Does c s (.finishReplicate i k)
        { actor := i, node := n.finishReplicate (c.config i) call resp
          network := s.network.eraseIdx k }
  | abandonReplicate {i : String} {n : RaftNode} {call : ReplicateCall} (up : Up c s i n)
      (open' : n.replication = some call) :
      Does c s (.abandonReplicate i)
        { actor := i, node := { n with replication := none }, network := s.network }
  | handleRequestVote {src i : String} {id k : Nat} {n : RaftNode} {req : RequestVoteRequest}
      (up : Up c s i n) (pkt : s.network[k]? = some ⟨src, i, id, .voteRequest req⟩) :
      Does c s (.deliver k)
        { actor := i, node := (n.handleRequestVote req).1, network := s.network.eraseIdx k
          sent := [⟨i, src, id, .voteResponse (n.handleRequestVote req).2⟩] }
  | handleAppendEntries {src i : String} {id k : Nat} {n : RaftNode} {req : AppendEntriesRequest}
      (up : Up c s i n) (pkt : s.network[k]? = some ⟨src, i, id, .appendRequest req⟩) :
      Does c s (.deliver k)
        { actor := i, node := (n.handleAppendEntries c.json req).1
          network := s.network.eraseIdx k
          sent := [⟨i, src, id, .appendResponse (n.handleAppendEntries c.json req).2⟩] }
  | propose {i key value : String} {op : OpType} {ttlMs : Int} {n : RaftNode} (up : Up c s i n) :
      Does c s (.propose i key value op ttlMs)
        { actor := i, node := (n.propose c.json s.nextCall key value op ttlMs).1
          network := s.network }
  | wakePropose {i : String} {id : Nat} {deadline : Bool} {n : RaftNode} {call : ProposeCall}
      {result : ProposeResult} (up : Up c s i n)
      (found : n.proposals.find? (fun call => call.id = id) = some call)
      (outcome : n.proposeOutcome call deadline = some result) :
      Does c s (.wakePropose i id deadline)
        { actor := i, node := { n with proposals := n.proposals.filter (·.id ≠ id) }
          network := s.network }
  | beginApply {i : String} {n : RaftNode} {e : LogEntry} (up : Up c s i n)
      (idle : n.applying = none) (behind : n.lastApplied < n.commitIndex)
      (entry : n.log.getEntry (n.lastApplied + 1) = some e) :
      Does c s (.beginApply i)
        { actor := i
          node := { n with applying := some (n.lastApplied + 1, e), applied := n.applied ++ [e] }
          network := s.network }
  | endApply {i data : String} {n : RaftNode} {next : Nat} {e : LogEntry} (up : Up c s i n)
      (busy : n.applying = some (next, e)) :
      Does c s (.endApply i data)
        { actor := i, node := n.endApply (c.config i) next data, network := s.network }
  | stallApply {i data : String} {n : RaftNode} (up : Up c s i n) (idle : n.applying = none)
      (behind : n.lastApplied < n.commitIndex) (ends : n.applyLoopEnds = true) :
      Does c s (.stallApply i data)
        { actor := i, node := n.maybeSnapshot (c.config i) data, network := s.network }

/-- The inversion: whatever `effect` answers, one of the sections above ran. -/
theorem does_of_effect {c : Cluster} {s : State} {a : Action} {e : Effect}
    (h : a.effect c s = some e) : Does c s a e := by
  cases a with
  | startElection i =>
    simp only [Action.effect, Option.bind_eq_bind, Option.bind_eq_some_iff] at h
    obtain ⟨n, hn, h⟩ := h
    split at h
    · exact absurd h (by simp)
    · rename_i hc
      simp only [not_or, Option.not_isSome_iff_eq_none] at hc
      cases h
      exact .startElection (up_of_running? hn) hc.1 hc.2
  | recvVote i k =>
    simp only [Action.effect, Option.bind_eq_bind, Option.bind_eq_some_iff] at h
    obtain ⟨n, hn, call, hcall, ⟨src, dst, id, payload⟩, hk, h⟩ := h
    split at h
    · rename_i resp p rest hpay hpend
      split at h
      · rename_i hm
        obtain ⟨hd, hs, hid⟩ := hm
        simp only at hpay hd hs hid
        subst hpay hd hs hid
        cases h
        exact .recvVote (up_of_running? hn) hcall hpend hk
      · exact absurd h (by simp)
    · exact absurd h (by simp)
  | skipVote i =>
    simp only [Action.effect, Option.bind_eq_bind, Option.bind_eq_some_iff] at h
    obtain ⟨n, hn, call, hcall, h⟩ := h
    split at h
    · exact absurd h (by simp)
    · rename_i hp
      cases h
      exact .skipVote (up_of_running? hn) hcall hp
  | finishElection i =>
    simp only [Action.effect, Option.bind_eq_bind, Option.bind_eq_some_iff] at h
    obtain ⟨n, hn, call, hcall, h⟩ := h
    split at h
    · rename_i hp
      cases h
      exact .finishElection (up_of_running? hn) hcall hp
    · exact absurd h (by simp)
  | startReplicate i peer =>
    simp only [Action.effect, Option.bind_eq_bind, Option.bind_eq_some_iff] at h
    obtain ⟨n, hn, h⟩ := h
    split at h
    · rename_i hc
      cases h
      exact .startReplicate (up_of_running? hn) hc.1 hc.2.1 hc.2.2
    · exact absurd h (by simp)
  | finishReplicate i k =>
    simp only [Action.effect, Option.bind_eq_bind, Option.bind_eq_some_iff] at h
    obtain ⟨n, hn, call, hcall, ⟨src, dst, id, payload⟩, hk, h⟩ := h
    split at h
    · rename_i resp hpay
      split at h
      · rename_i hm
        obtain ⟨hd, hs, hid⟩ := hm
        simp only at hpay hd hs hid
        subst hpay hd hs hid
        cases h
        exact .finishReplicate (up_of_running? hn) hcall hk
      · exact absurd h (by simp)
    · exact absurd h (by simp)
  | abandonReplicate i =>
    simp only [Action.effect, Option.bind_eq_bind, Option.bind_eq_some_iff] at h
    obtain ⟨n, hn, call, hcall, h⟩ := h
    cases h
    exact .abandonReplicate (up_of_running? hn) hcall
  | deliver k =>
    simp only [Action.effect, Option.bind_eq_bind, Option.bind_eq_some_iff] at h
    obtain ⟨⟨src, dst, id, payload⟩, hk, n, hn, h⟩ := h
    split at h
    · rename_i req hpay
      simp only at hpay
      subst hpay
      cases h
      exact .handleRequestVote (up_of_running? hn) hk
    · rename_i req hpay
      simp only at hpay
      subst hpay
      cases h
      exact .handleAppendEntries (up_of_running? hn) hk
    · exact absurd h (by simp)
  | propose i key value op ttlMs =>
    simp only [Action.effect, Option.bind_eq_bind, Option.bind_eq_some_iff] at h
    obtain ⟨n, hn, h⟩ := h
    cases h
    exact .propose (up_of_running? hn)
  | wakePropose i id deadline =>
    simp only [Action.effect, Option.bind_eq_bind, Option.bind_eq_some_iff] at h
    obtain ⟨n, hn, call, hfind, result, hres, h⟩ := h
    cases h
    exact .wakePropose (up_of_running? hn) hfind hres
  | beginApply i =>
    simp only [Action.effect, Option.bind_eq_bind, Option.bind_eq_some_iff] at h
    obtain ⟨n, hn, h⟩ := h
    split at h
    · exact absurd h (by simp)
    · rename_i hidle
      simp only [Option.bind_eq_some_iff, RaftNode.beginApply] at h
      obtain ⟨n', hn', h⟩ := h
      split at hn'
      · rename_i hlt
        split at hn'
        · rename_i e he
          cases hn'
          cases h
          exact .beginApply (up_of_running? hn) (by simpa using hidle) hlt he
        · exact absurd hn' (by simp)
      · exact absurd hn' (by simp)
  | endApply i data =>
    simp only [Action.effect, Option.bind_eq_bind, Option.bind_eq_some_iff] at h
    obtain ⟨n, hn, ⟨next, e⟩, hbusy, h⟩ := h
    cases h
    exact .endApply (up_of_running? hn) hbusy
  | stallApply i data =>
    simp only [Action.effect, Option.bind_eq_bind, Option.bind_eq_some_iff] at h
    obtain ⟨n, hn, h⟩ := h
    split at h
    · rename_i hc
      cases h
      exact .stallApply (up_of_running? hn) hc.1 hc.2.1 hc.2.2
    · exact absurd h (by simp)

theorem Up.running? {c : Cluster} {s : State} {i : String} {n : RaftNode} (up : Up c s i n) :
    s.running? c i = some n := by
  obtain ⟨hmem, rfl, hrun⟩ := up
  exact if_pos ⟨hmem, hrun⟩

/-- The other direction: a section whose guards hold can run. -/
theorem Does.effect {c : Cluster} {s : State} {a : Action} {e : Effect} (h : Does c s a e) :
    a.effect c s = some e := by
  cases h with
  | startElection up idle role => simp [Action.effect, up.running?, idle, role]
  | recvVote up open' pending pkt => simp [Action.effect, up.running?, open', pending, pkt]
  | skipVote up open' pending => simp [Action.effect, up.running?, open', pending]
  | finishElection up open' pending => simp [Action.effect, up.running?, open', pending]
  | startReplicate up idle role peer_mem =>
    simp [Action.effect, up.running?, idle, role, peer_mem]
  | finishReplicate up open' pkt => simp [Action.effect, up.running?, open', pkt]
  | abandonReplicate up open' => simp [Action.effect, up.running?, open']
  | handleRequestVote up pkt => simp [Action.effect, up.running?, pkt, Packet.reply]
  | handleAppendEntries up pkt => simp [Action.effect, up.running?, pkt, Packet.reply]
  | propose up => simp [Action.effect, up.running?]
  | wakePropose up found outcome => simp [Action.effect, up.running?, found, outcome]
  | beginApply up idle behind entry =>
    simp [Action.effect, up.running?, idle, RaftNode.beginApply, behind, entry]
  | endApply up busy => simp [Action.effect, up.running?, busy]
  | stallApply up idle behind ends => simp [Action.effect, up.running?, idle, behind, ends]

/-- The node a section runs on is a running member. -/
theorem Does.up {c : Cluster} {s : State} {a : Action} {e : Effect} (h : Does c s a e) :
    Up c s e.actor (s.node e.actor) := by
  cases h with
  | startElection up | recvVote up | skipVote up | finishElection up | startReplicate up
  | finishReplicate up | abandonReplicate up | handleRequestVote up | handleAppendEntries up
  | propose up | wakePropose up | beginApply up | endApply up | stallApply up =>
    exact ⟨up.mem, rfl, by rw [up.node]; exact up.running⟩

/-- A section consumes packets, it does not make them up. -/
theorem Does.network_subset {c : Cluster} {s : State} {a : Action} {e : Effect}
    (h : Does c s a e) : ∀ p ∈ e.network, p ∈ s.network := by
  intro p hp
  cases h with
  | @recvVote _ _ k | @finishReplicate _ k | @handleRequestVote _ _ _ k
  | @handleAppendEntries _ _ _ k => exact (List.eraseIdx_sublist s.network k).subset hp
  | startElection | skipVote | finishElection | startReplicate | abandonReplicate | propose
  | wakePropose | beginApply | endApply | stallApply => exact hp

/-- What a step of the cluster leaves: one constructor per event, with its guards. -/
inductive Stepped (c : Cluster) (s : State) : Event → State → Prop
  | act {a : Action} {e : Effect} (does : Does c s a e) :
      Stepped c s (.act a)
        { node := Function.update s.node e.actor e.node
          network := e.network ++ e.sent, nextCall := s.nextCall + 1 }
  | drop {k : Nat} : Stepped c s (.drop k) { s with network := s.network.eraseIdx k }
  | stop {i : String} {n : RaftNode} (up : Up c s i n) :
      Stepped c s (.stop i)
        { s with node := Function.update s.node i (RaftNode.stopped n.wal) }
  | stopDuring {a : Action} {k : Nat} {e : Effect} (does : Does c s a e) :
      Stepped c s (.stopDuring a k)
        { s with
          node := Function.update s.node e.actor
            (RaftNode.stopped ((s.node e.actor).wal ++ (e.written s).take k))
          network := e.network }
  | restart {i : String} {n : RaftNode} (mem : i ∈ c.ids) (down : (s.node i).running = false)
      (recovered : RaftNode.recover c.json (s.node i).wal = some n) :
      Stepped c s (.restart i) { s with node := Function.update s.node i n }
  | stopDuringRestart {i : String} {k : Nat} (mem : i ∈ c.ids)
      (down : (s.node i).running = false) :
      Stepped c s (.stopDuringRestart i k)
        { s with
          node := Function.update s.node i
            (RaftNode.stopped (RaftNode.recoverInterrupted c.json (s.node i).wal k)) }

theorem stepped {c : Cluster} {s s' : State} {ev : Event} (h : ev.step c s = some s') :
    Stepped c s ev s' := by
  cases ev with
  | act a =>
    simp only [Event.step, Option.bind_eq_bind, Option.bind_eq_some_iff] at h
    obtain ⟨e, he, h⟩ := h
    cases h
    exact .act (does_of_effect he)
  | drop k =>
    cases h
    exact .drop
  | stop i =>
    simp only [Event.step, Option.bind_eq_bind, Option.bind_eq_some_iff] at h
    obtain ⟨n, hn, h⟩ := h
    cases h
    exact .stop (up_of_running? hn)
  | stopDuring a k =>
    simp only [Event.step, Option.bind_eq_bind, Option.bind_eq_some_iff] at h
    obtain ⟨e, he, h⟩ := h
    cases h
    exact .stopDuring (does_of_effect he)
  | restart i =>
    simp only [Event.step] at h
    split at h
    · rename_i hdown
      simp only [Option.bind_eq_bind, Option.bind_eq_some_iff] at h
      obtain ⟨n, hn, h⟩ := h
      cases h
      exact .restart hdown.1 hdown.2 hn
    · exact absurd h (by simp)
  | stopDuringRestart i k =>
    simp only [Event.step] at h
    split at h
    · rename_i hdown
      cases h
      exact .stopDuringRestart hdown.1 hdown.2
    · exact absurd h (by simp)

/-! ## Frames

What the helpers of the sections leave alone. -/

section Frames

variable (J : Json.Codec) (cfg : RaftConfig) (n : RaftNode)

@[simp] theorem advanceCommitIndex_election :
    (RaftNode.advanceCommitIndex cfg n).election = n.election := by
  rw [advanceCommitIndex_eq]

@[simp] theorem maybeSnapshot_election (data : String) :
    (n.maybeSnapshot cfg data).election = n.election := by
  unfold RaftNode.maybeSnapshot; split <;> rfl

@[simp] theorem endApply_election (next : Nat) (data : String) :
    (n.endApply cfg next data).election = n.election := by
  unfold RaftNode.endApply; dsimp only; split <;> simp

@[simp] theorem becomeFollower_election (term : Nat) (leaderId : String) :
    (n.becomeFollower term leaderId).election = n.election := rfl

@[simp] theorem adoptTerm_election (term : Nat) (leaderId : String) :
    (n.adoptTerm term leaderId).election = n.election := by
  unfold RaftNode.adoptTerm; split <;> rfl

@[simp] theorem finishReplicate_election (call : ReplicateCall) (resp : AppendEntriesResponse) :
    (n.finishReplicate cfg call resp).election = n.election := by
  have h' := finished cfg n call resp
  generalize n.finishReplicate cfg call resp = out at h' ⊢
  cases h' with
  | success _ _ _ => exact advanceCommitIndex_election cfg (recorded n call)
  | newer _ | dropped _ _ | failure _ _ _ => rfl

@[simp] theorem handleRequestVote_election (req : RequestVoteRequest) :
    (n.handleRequestVote req).1.election = n.election := by
  have h' := voteHandled n req
  generalize n.handleRequestVote req = out at h' ⊢
  cases h' with
  | stale _ => rfl
  | granted _ _ | denied _ _ => exact adoptTerm_election n req.term ""

@[simp] theorem handleAppendEntries_election (req : AppendEntriesRequest) :
    (n.handleAppendEntries J req).1.election = n.election := by
  have h' := handled J n req
  generalize n.handleAppendEntries J req = out at h' ⊢
  cases h' with
  | stale _ => rfl
  | rejected _ _ => exact adoptTerm_election n req.term req.leaderId
  | accepted _ _ =>
    rw [acceptEntries_eq]
    exact adoptTerm_election n req.term req.leaderId

@[simp] theorem propose_election (id : Nat) (key value : String) (op : OpType) (ttlMs : Int) :
    (n.propose J id key value op ttlMs).1.election = n.election := by
  unfold RaftNode.propose
  split <;> rfl

@[simp] theorem advanceCommitIndex_replication :
    (RaftNode.advanceCommitIndex cfg n).replication = n.replication := by
  rw [advanceCommitIndex_eq]

@[simp] theorem adoptTerm_replication (term : Nat) (leaderId : String) :
    (n.adoptTerm term leaderId).replication = n.replication := by
  unfold RaftNode.adoptTerm; split <;> rfl

@[simp] theorem recvVote_replication (call : ElectionCall) (resp : RequestVoteResponse) :
    (n.recvVote call resp).replication = n.replication := by
  have h' := voteAnswered n call resp
  generalize n.recvVote call resp = out at h' ⊢
  cases h' with
  | newer _ | vote _ _ _ _ | other _ _ => rfl

@[simp] theorem finishElection_replication (call : ElectionCall) :
    (n.finishElection J cfg call).replication = n.replication := by
  unfold RaftNode.finishElection; split <;> rfl

@[simp] theorem finishReplicate_replication (call : ReplicateCall)
    (resp : AppendEntriesResponse) : (n.finishReplicate cfg call resp).replication = none := by
  have h' := finished cfg n call resp
  generalize n.finishReplicate cfg call resp = out at h' ⊢
  cases h' with
  | success _ _ _ => exact advanceCommitIndex_replication cfg (recorded n call)
  | newer _ | dropped _ _ | failure _ _ _ => rfl

@[simp] theorem handleRequestVote_replication (req : RequestVoteRequest) :
    (n.handleRequestVote req).1.replication = n.replication := by
  have h' := voteHandled n req
  generalize n.handleRequestVote req = out at h' ⊢
  cases h' with
  | stale _ => rfl
  | granted _ _ | denied _ _ => exact adoptTerm_replication n req.term ""

@[simp] theorem handleAppendEntries_replication (req : AppendEntriesRequest) :
    (n.handleAppendEntries J req).1.replication = n.replication := by
  have h' := handled J n req
  generalize n.handleAppendEntries J req = out at h' ⊢
  cases h' with
  | stale _ => rfl
  | rejected _ _ => exact adoptTerm_replication n req.term req.leaderId
  | accepted _ _ =>
    rw [acceptEntries_eq]
    exact adoptTerm_replication n req.term req.leaderId

@[simp] theorem propose_replication (id : Nat) (key value : String) (op : OpType)
    (ttlMs : Int) : (n.propose J id key value op ttlMs).1.replication = n.replication := by
  unfold RaftNode.propose
  split <;> rfl

/-- Below the threshold `MaybeSnapshot` does nothing. -/
theorem maybeSnapshot_of_le (cfg : RaftConfig) {n : RaftNode}
    (h : n.log.size ≤ cfg.snapshotThreshold) (data : String) : n.maybeSnapshot cfg data = n := by
  unfold RaftNode.maybeSnapshot
  rw [if_neg (Nat.not_lt.mpr h)]

theorem endApply_of_le (cfg : RaftConfig) {n : RaftNode}
    (h : n.log.size ≤ cfg.snapshotThreshold) (next : Nat) (data : String) :
    n.endApply cfg next data = { n with lastApplied := next, applying := none } := by
  unfold RaftNode.endApply
  dsimp only
  rw [maybeSnapshot_of_le cfg (n := { n with lastApplied := next, applying := none }) h data,
    ite_self]

end Frames

end Proof
end OrcDb
