import OrcDb.Raft.Node
import OrcDb.Lib.Run

/-!
# The cluster — nodes, messages in flight, and every interleaving

The nodes run the sections of `Raft/Node.lean`, one section at a time in any order. A
request and its response are packets in `network`; a packet carries the number of the call
that sent the request, as `RaftPeer` matches a response to its call by sequence number. A
packet may be delivered after any delay, lost, or — a request — handled once; a response is
taken at most once, by the call that is waiting for it.

A node has at most one `StartElection` and one `ReplicateToPeer` call in progress (one
election thread, one replication thread), any number of waiting `Propose` calls, and one
apply thread. A node may stop between two sections, or inside a section or its own
constructor after any number of the record writes there; all completed record writes are
on disk when it restarts.
-/

set_option autoImplicit false

namespace OrcDb

open Lib

/-- The fixed part: the nodes, what each of them was configured with, and the JSON library. -/
structure Cluster where
  ids : List String
  peers : String → List String
  snapshotThreshold : Nat := 10000
  json : Json.Codec

namespace Cluster

def config (c : Cluster) (i : String) : RaftConfig :=
  { nodeId := i, peers := c.peers i, snapshotThreshold := c.snapshotThreshold }

/-- Every node's `peers_` are exactly the other nodes, all ids are distinct and non-empty. -/
structure FullMesh (c : Cluster) : Prop where
  nodup : c.ids.Nodup
  nonempty : ∀ i ∈ c.ids, i ≠ ""
  peers : ∀ i ∈ c.ids, (c.peers i).Perm (c.ids.erase i)

end Cluster

inductive Payload where
  | voteRequest (req : RequestVoteRequest)
  | voteResponse (resp : RequestVoteResponse)
  | appendRequest (req : AppendEntriesRequest)
  | appendResponse (resp : AppendEntriesResponse)

/-- A message in flight. `call` numbers the call that sent the request. -/
structure Packet where
  src : String
  dst : String
  call : Nat
  payload : Payload

structure State where
  node : String → RaftNode
  network : List Packet
  /-- The number the next call gets. -/
  nextCall : Nat

/-- All nodes have just started on an empty disk. -/
def State.init : State := { node := fun _ => {}, network := [], nextCall := 0 }

/-- The `mu_`-protected sections. `k` is the position of a packet in the network. -/
inductive Action where
  | startElection (i : String)
  | recvVote (i : String) (k : Nat)
  | skipVote (i : String)
  | finishElection (i : String)
  | startReplicate (i peer : String)
  | finishReplicate (i : String) (k : Nat)
  | abandonReplicate (i : String)
  | deliver (k : Nat)
  | propose (i key value : String) (op : OpType) (ttlMs : Int)
  | wakePropose (i : String) (id : Nat) (deadline : Bool)
  | beginApply (i : String)
  | endApply (i : String) (data : String)
  | stallApply (i : String) (data : String)

/-- What a section does: the node it runs on, that node afterwards, the packets left in the
    network once the section has taken the one it consumes, and the packets it sends. -/
structure Effect where
  actor : String
  node : RaftNode
  network : List Packet
  sent : List Packet := []

/-- The node `i`, if it is a running member. -/
def State.running? (c : Cluster) (s : State) (i : String) : Option RaftNode :=
  if i ∈ c.ids ∧ (s.node i).running then some (s.node i) else none

/-- The response a handler produces, on its way back. -/
def Packet.reply (p : Packet) (payload : Payload) : Packet :=
  { src := p.dst, dst := p.src, call := p.call, payload }

def Action.effect (c : Cluster) (s : State) : Action → Option Effect
  | .startElection i => do
      let n ← s.running? c i
      -- `ElectionLoop` calls it only while the node is not leader, one call at a time
      if n.election.isSome ∨ n.role = .Leader then none
      else
        let (n', req) := n.startElection (c.config i) s.nextCall
        return { actor := i, node := n', network := s.network
                 sent := (c.peers i).map fun p =>
                   { src := i, dst := p, call := s.nextCall, payload := .voteRequest req } }
  | .recvVote i k => do
      let n ← s.running? c i
      let call ← n.election
      let pkt ← s.network[k]?
      match pkt.payload, call.pending with
      | .voteResponse resp, p :: _ =>
          if pkt.dst = i ∧ pkt.src = p ∧ pkt.call = call.id then
            return { actor := i, node := n.recvVote call resp, network := s.network.eraseIdx k }
          else none
      | _, _ => none
  | .skipVote i => do
      let n ← s.running? c i
      let call ← n.election
      if call.pending = [] then none
      else return { actor := i, node := n.skipVote call, network := s.network }
  | .finishElection i => do
      let n ← s.running? c i
      let call ← n.election
      if call.pending = [] then
        return { actor := i, node := n.finishElection c.json (c.config i) call,
                 network := s.network }
      else none
  | .startReplicate i peer => do
      let n ← s.running? c i
      if n.replication = none ∧ n.role = .Leader ∧ peer ∈ c.peers i then
        let (n', req) := n.startReplicate (c.config i) s.nextCall peer
        return { actor := i, node := n', network := s.network
                 sent := [{ src := i, dst := peer, call := s.nextCall,
                            payload := .appendRequest req }] }
      else none
  | .finishReplicate i k => do
      let n ← s.running? c i
      let call ← n.replication
      let pkt ← s.network[k]?
      match pkt.payload with
      | .appendResponse resp =>
          if pkt.dst = i ∧ pkt.src = call.peerId ∧ pkt.call = call.id then
            return { actor := i, node := n.finishReplicate (c.config i) call resp,
                     network := s.network.eraseIdx k }
          else none
      | _ => none
  | .abandonReplicate i => do
      let n ← s.running? c i
      let _ ← n.replication
      return { actor := i, node := { n with replication := none }, network := s.network }
  | .deliver k => do
      let pkt ← s.network[k]?
      let n ← s.running? c pkt.dst
      match pkt.payload with
      | .voteRequest req =>
          let (n', resp) := n.handleRequestVote req
          return { actor := pkt.dst, node := n', network := s.network.eraseIdx k
                   sent := [pkt.reply (.voteResponse resp)] }
      | .appendRequest req =>
          let (n', resp) := n.handleAppendEntries c.json req
          return { actor := pkt.dst, node := n', network := s.network.eraseIdx k
                   sent := [pkt.reply (.appendResponse resp)] }
      | _ => none
  | .propose i key value op ttlMs => do
      let n ← s.running? c i
      return { actor := i, node := (n.propose c.json s.nextCall key value op ttlMs).1,
               network := s.network }
  | .wakePropose i id deadline => do
      let n ← s.running? c i
      let call ← n.proposals.find? (fun call => call.id = id)
      let _ ← n.proposeOutcome call deadline
      return { actor := i, node := { n with proposals := n.proposals.filter (·.id ≠ id) },
               network := s.network }
  | .beginApply i => do
      let n ← s.running? c i
      if n.applying.isSome then none
      else
        let n' ← n.beginApply
        return { actor := i, node := n', network := s.network }
  | .endApply i data => do
      let n ← s.running? c i
      let (next, _) ← n.applying
      return { actor := i, node := n.endApply (c.config i) next data, network := s.network }
  | .stallApply i data => do
      let n ← s.running? c i
      -- woken with something to apply, but `GetEntry` throws at once
      if n.applying = none ∧ n.lastApplied < n.commitIndex ∧ n.applyLoopEnds then
        return { actor := i, node := n.maybeSnapshot (c.config i) data, network := s.network }
      else none

/-- One step of the cluster: a section, the loss of a packet, or a node stopping (between
    sections, after `k` of the record writes of a section, or of the constructor) and
    starting again. -/
inductive Event where
  | act (a : Action)
  | drop (k : Nat)
  | stop (i : String)
  | stopDuring (a : Action) (k : Nat)
  | restart (i : String)
  | stopDuringRestart (i : String) (k : Nat)

/-- The records a section wrote: what it added to the disk of its node. -/
def Effect.written (e : Effect) (s : State) : List WalRecord :=
  e.node.wal.drop (s.node e.actor).wal.length

def Event.step (c : Cluster) (s : State) : Event → Option State
  | .act a => do
      let e ← a.effect c s
      return { node := Function.update s.node e.actor e.node
               network := e.network ++ e.sent, nextCall := s.nextCall + 1 }
  | .drop k => some { s with network := s.network.eraseIdx k }
  | .stop i => do
      let n ← s.running? c i
      return { s with node := Function.update s.node i (RaftNode.stopped n.wal) }
  | .stopDuring a k => do
      let e ← a.effect c s
      let wal := (s.node e.actor).wal ++ (e.written s).take k
      return { s with node := Function.update s.node e.actor (RaftNode.stopped wal)
                      network := e.network }
  | .restart i =>
      if i ∈ c.ids ∧ (s.node i).running = false then do
        let n ← RaftNode.recover c.json (s.node i).wal
        return { s with node := Function.update s.node i n }
      else none
  | .stopDuringRestart i k =>
      if i ∈ c.ids ∧ (s.node i).running = false then
        let wal := RaftNode.recoverInterrupted c.json (s.node i).wal k
        some { s with node := Function.update s.node i (RaftNode.stopped wal) }
      else none

/-- Neither a restart nor a compaction: the step is a section or the loss of a packet, and no
    log exceeds `snapshotThreshold`. -/
def Event.Plain (c : Cluster) (s : State) : Event → Prop
  | .act _ | .drop _ => ∀ i ∈ c.ids, (s.node i).log.size ≤ c.snapshotThreshold
  | _ => False

instance (c : Cluster) (s : State) (ev : Event) : Decidable (ev.Plain c s) := by
  cases ev <;> unfold Event.Plain <;> infer_instance

/-- No node stops or starts: the step is a section or the loss of a packet. -/
def Event.NoStop : Event → Prop
  | .act _ | .drop _ => True
  | _ => False

instance (ev : Event) : Decidable ev.NoStop := by
  cases ev <;> unfold Event.NoStop <;> infer_instance

/-- The step runs `BecomeLeader` on node `i`, whose term is `t`. -/
def Event.EntersBecomeLeader (c : Cluster) (s : State) (ev : Event) (i : String) (t : Nat) :
    Prop :=
  (ev = .act (.finishElection i) ∨ ∃ k, ev = .stopDuring (.finishElection i) k) ∧
    ∃ call, (s.node i).election = some call ∧ (s.node i).Wins (c.config i) call ∧
      (s.node i).currentTerm = t

/-- In the step, node `i` with term `t` sets `commitIndex_` to `n` in `AdvanceCommitIndex`,
    which only `ReplicateToPeer` calls. -/
def Event.Commits (c : Cluster) (s : State) (ev : Event) (i : String) (t n : Nat) : Prop :=
  (∃ k, ev = .act (.finishReplicate i k)) ∧ (s.node i).currentTerm = t ∧
    (s.node i).commitIndex < n ∧ ∃ s', ev.step c s = some s' ∧ (s'.node i).commitIndex = n

/-- In the step, the waiting `Propose` call of node `i` returns `result`. -/
def Event.Returns (s : State) (ev : Event) (i : String) (call : ProposeCall)
    (result : ProposeResult) : Prop :=
  ∃ id deadline, ev = .act (.wakePropose i id deadline) ∧
    (s.node i).proposals.find? (fun call => call.id = id) = some call ∧
    (s.node i).proposeOutcome call deadline = some result

end OrcDb
