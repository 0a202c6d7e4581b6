import OrcDb.Proof.Raft.Refine

/-!
# The cluster refines the protocol

`Sim c s a`: the abstract state `a` is a correct reading of every node of `s`, and every
packet in flight says something true of it. `Sim.step` is the refinement: a section is a few
moves of the replica it runs on, so along every run without restarts and compactions the
abstract state moves with the cluster, and its history only grows.

Messages are related to the open call they answer by the call's number. A packet outlives its
call; it then says nothing about the next one.
-/

set_option autoImplicit false

namespace OrcDb
namespace Proof

open Lib Replicas

def LogPacketOk (s : State) (a : Replicas String LogEntry) (p : Packet) : Prop :=
  match p.payload with
  | .voteRequest req =>
      LastIs LogEntry.term (a.cand req.term p.src) req.lastLogIndex req.lastLogTerm
  | .voteResponse _ => True
  | .appendRequest req => p.src ≠ p.dst ∧ RequestOk a p.src req ∧
      ∀ call, (s.node p.src).replication = some call → call.id = p.call →
        call.term = req.term ∧ call.prevIndex = req.prevLogIndex ∧
          call.count = req.entries.length
  | .appendResponse resp =>
      ∀ call, (s.node p.dst).replication = some call → call.id = p.call →
        ResponseOk a p.src call.term call.prevIndex call.count resp

structure Sim (c : Cluster) (s : State) (a : Replicas String LogEntry) : Prop where
  election : ElectionInv c s
  inv : Inv (raft c) a
  nodes : ∀ i, NodeOk c a i (s.node i)
  calls : ∀ i call, (s.node i).replication = some call → call.id < s.nextCall
  packets : ∀ p ∈ s.network, LogPacketOk s a p

theorem sim_init (c : Cluster) : Sim c State.init (init (raft c)) where
  election := electionInv_init c
  inv := inv_init (raft c)
  nodes := nodeOk_init c
  calls := fun _ _ h => absurd h (by simp [State.init])
  packets := fun _ h => absurd h (by simp [State.init])

variable {c : Cluster} {s s' : State} {a a' : Replicas String LogEntry} {i : String}
  {n n' : RaftNode}

theorem Sim.node (sim : Sim c s a) (up : Up c s i n) : NodeOk c a i n := by
  have hok := sim.nodes i
  rw [up.node] at hok
  exact hok

/-- A packet stays true while the history grows, as long as the calls it may be related to
    are the old ones. -/
theorem LogPacketOk.mono (hg : a ≤ a') {p : Packet}
    (hcalls : ∀ j call, (s'.node j).replication = some call → call.id = p.call →
      (s.node j).replication = some call) (h : LogPacketOk s a p) : LogPacketOk s' a' p := by
  unfold LogPacketOk at *
  split
  · rename_i req hp
    rw [hp] at h
    simp only at h
    rw [hg.cand]
    · exact h
    · intro h0
      have := h.1
      rw [h0] at this
      exact absurd this (by simp)
  · trivial
  · rename_i req hp
    rw [hp] at h
    exact ⟨h.1, h.2.1.mono hg, fun call hc hid => h.2.2 call (hcalls _ call hc hid) hid⟩
  · rename_i resp hp
    rw [hp] at h
    exact fun call hc hid => (h call (hcalls _ call hc hid) hid).mono hg

/-- The invariant through the replacement of one node. -/
theorem Sim.replace (sim : Sim c s a) (helect : ElectionInv c s')
    (hnode : s'.node = Function.update s.node i n') (hnext : s.nextCall ≤ s'.nextCall)
    (hm : Moves (raft c) i a a') (hok : NodeOk c a' i n')
    (hcall : ∀ call, n'.replication = some call → (s.node i).replication = some call ∨
      call.id = s.nextCall ∧ call.id < s'.nextCall)
    (hpkts : ∀ p ∈ s'.network, p ∈ s.network ∨ LogPacketOk s' a' p) : Sim c s' a' := by
  -- an open call of `s'` is an old one, or has the next number
  have hold : ∀ j call, (s'.node j).replication = some call →
      (s.node j).replication = some call ∨ call.id = s.nextCall ∧ call.id < s'.nextCall := by
    intro j call hc
    rw [hnode] at hc
    by_cases hj : j = i
    · subst hj
      rw [Function.update_self] at hc
      exact hcall call hc
    · rw [Function.update_of_ne hj] at hc
      exact Or.inl hc
  refine ⟨helect, hm.inv sim.inv, fun j => ?_, fun j call hc => ?_, fun p hp => ?_⟩
  · rw [hnode]
    by_cases hj : j = i
    · subst hj
      rw [Function.update_self]
      exact hok
    · rw [Function.update_of_ne hj]
      exact (sim.nodes j).frame sim.inv hj hm
  · rcases hold j call hc with hc' | ⟨-, hlt⟩
    · exact Nat.lt_of_lt_of_le (sim.calls j call hc') hnext
    · exact hlt
  · rcases hpkts p hp with hp' | hnew
    · refine (sim.packets p hp').mono (hm.grows sim.inv) (fun j call hc hid => ?_)
      refine (hold j call hc).resolve_right (fun h' => ?_)
      have := (sim.election.packets p hp').fresh
      omega
    · exact hnew

/-- A section that opens no call and sends nothing but what `hsent` allows. -/
theorem Sim.section {act : Action} {e : Effect} (sim : Sim c s a) (hd : Does c s act e)
    (helect : ElectionInv c s') (hnode : s'.node = Function.update s.node e.actor e.node)
    (hnet : s'.network = e.network ++ e.sent) (hnext : s'.nextCall = s.nextCall + 1)
    (hcall : ∀ call, e.node.replication = some call →
      (s.node e.actor).replication = some call)
    (hsim : ∃ a', Moves (raft c) e.actor a a' ∧ NodeOk c a' e.actor e.node ∧
      ∀ p ∈ e.sent, LogPacketOk s' a' p) : ∃ a', Steps (raft c) a a' ∧ Sim c s' a' := by
  obtain ⟨a', hm, hok, hsent⟩ := hsim
  refine ⟨a', hm.steps, sim.replace helect hnode (by omega) hm hok
    (fun call hc => Or.inl (hcall call hc)) (fun p hp => ?_)⟩
  rw [hnet] at hp
  rcases List.mem_append.mp hp with hp | hp
  · exact Or.inl (hd.network_subset p hp)
  · exact Or.inr (hsent p hp)

/-- A section that sends nothing. -/
theorem Simulates.silent {e : Effect} (h : Simulates c a e.actor e.node) (hsent : e.sent = []) :
    ∃ a', Moves (raft c) e.actor a a' ∧ NodeOk c a' e.actor e.node ∧
      ∀ p ∈ e.sent, LogPacketOk s' a' p := by
  obtain ⟨a', hm, hok⟩ := h
  exact ⟨a', hm, hok, by rw [hsent]; exact fun _ hp => absurd hp (by simp)⟩

/-- **Refinement, one section**: the section is some moves of its replica. -/
theorem Sim.act (hc : c.FullMesh) {act : Action} {e : Effect} (sim : Sim c s a)
    (hd : Does c s act e) (helect : ElectionInv c s')
    (hnode : s'.node = Function.update s.node e.actor e.node)
    (hnet : s'.network = e.network ++ e.sent) (hnext : s'.nextCall = s.nextCall + 1)
    (hsmall : ∀ i ∈ c.ids, (s.node i).log.size ≤ c.snapshotThreshold) :
    ∃ a', Steps (raft c) a a' ∧ Sim c s' a' := by
  have inv := sim.inv
  cases hd with
  | @startElection i n up idle role =>
    have hok := sim.node up
    obtain ⟨a', hm, hok', hlast⟩ := hok.startElection inv (hc.nonempty i up.mem) s.nextCall
    refine sim.section (.startElection up idle role) helect hnode hnet hnext
      (fun call h => by rw [up.node]; exact h) ⟨a', hm, hok', fun p hp => ?_⟩
    obtain ⟨q, -, rfl⟩ := List.mem_map.mp hp
    exact hlast
  | @recvVote i p k n call rest resp up open' pending pkt =>
    exact sim.section (.recvVote up open' pending pkt) helect hnode hnet hnext
      (by simp [up.node]) (Simulates.silent ((sim.node up).recvVote inv call resp) rfl)
  | @skipVote i n call up open' pending =>
    have hok := sim.node up
    refine sim.section (.skipVote up open' pending) helect hnode hnet hnext
      (by simp [up.node, RaftNode.skipVote]) (Simulates.silent ?_ rfl)
    exact NodeOk.simulates (hok.congr rfl (fun _ h => h))
  | @finishElection i n call up open' pending =>
    refine sim.section (.finishElection up open' pending) helect hnode hnet hnext
      (by simp [up.node]) (Simulates.silent ((sim.node up).finishElection inv call ?_) rfl)
    intro hwins
    -- the votes behind the count are on the voters' disks, hence votes of the protocol
    have henter : (Event.act (.finishElection i)).EntersBecomeLeader c s i
        (s.node i).currentTerm :=
      ⟨Or.inl rfl, call, by rw [up.node]; exact open', by rw [up.node]; exact hwins, rfl⟩
    obtain ⟨Q, hQ, hv⟩ := sim.election.elected hc henter
    rw [up.node] at hv
    exact ⟨Q, hQ, fun j hj => (sim.nodes j).disk _ _ (hv j hj).1 (hv j hj).2⟩
  | @startReplicate i peer n up idle role peer_mem =>
    have hok := sim.node up
    obtain ⟨hok', hreq⟩ := hok.startReplicate inv role peer_mem s.nextCall
    refine ⟨a, .refl, sim.replace helect hnode (by omega) .refl hok' ?_ (fun p hp => ?_)⟩
    · intro call hcall
      cases hcall
      exact Or.inr ⟨rfl, by simp only [hnext]; omega⟩
    · rw [hnet] at hp
      rcases List.mem_append.mp hp with hp | hp
      · exact Or.inl hp
      · rw [List.mem_singleton] at hp
        subst hp
        refine Or.inr ⟨(hc.mem_peers up.mem peer_mem).2.symm, hreq, fun call hcall _ => ?_⟩
        simp only [hnode, Function.update_self] at hcall
        cases hcall
        exact ⟨rfl, rfl, rfl⟩
  | @finishReplicate i k n call resp up open' pkt =>
    have hok := sim.node up
    have hresp := sim.packets _ (List.mem_of_getElem? pkt)
    have hresp' := hresp call (by rw [up.node]; exact open') rfl
    exact sim.section (.finishReplicate up open' pkt) helect hnode hnet hnext (by simp)
      (Simulates.silent (hok.finishReplicate inv (hok.call call open') hresp') rfl)
  | @abandonReplicate i n call up open' =>
    have hok := sim.node up
    refine sim.section (.abandonReplicate up open') helect hnode hnet hnext (by simp)
      (Simulates.silent ?_ rfl)
    exact NodeOk.simulates (hok.congr rfl (fun _ h => absurd h (by simp)))
  | @handleRequestVote src i id k n req up pkt =>
    have hok := sim.node up
    have hmem := List.mem_of_getElem? pkt
    have hpkt := sim.election.packets _ hmem
    have hlast : LastIs LogEntry.term (a.cand req.term src) req.lastLogIndex req.lastLogTerm :=
      sim.packets _ hmem
    have hsrc : req.candidateId = src := hpkt.vote.1
    rw [← hsrc] at hlast
    obtain ⟨a', hm, hok'⟩ := hok.handleRequestVote inv hlast
      (by rw [hsrc]; exact hc.nonempty _ hpkt.src)
    refine sim.section (.handleRequestVote up pkt) helect hnode hnet hnext (by simp [up.node])
      ⟨a', hm, hok', fun p hp => ?_⟩
    rw [List.mem_singleton] at hp
    subst hp
    trivial
  | @handleAppendEntries src i id k n req up pkt =>
    have hok := sim.node up
    obtain ⟨hne, hreq, hlink⟩ := sim.packets _ (List.mem_of_getElem? pkt)
    obtain ⟨a', hm, hok', hresp⟩ := hok.handleAppendEntries inv hreq hne
    refine sim.section (.handleAppendEntries up pkt) helect hnode hnet hnext (by simp [up.node])
      ⟨a', hm, hok', fun p hp => ?_⟩
    rw [List.mem_singleton] at hp
    subst hp
    intro call hcall hid
    simp only [hnode, Function.update_of_ne (show src ≠ i from hne)] at hcall
    obtain ⟨h₁, h₂, h₃⟩ := hlink call hcall hid
    rw [h₁, h₂, h₃]
    exact hresp
  | @propose i key value op ttlMs n up =>
    have hok := sim.node up
    exact sim.section (.propose up) helect hnode hnet hnext (by simp [up.node])
      (Simulates.silent (hok.propose inv _ _ _ _ _) rfl)
  | @wakePropose i id deadline n call result up found outcome =>
    have hok := sim.node up
    refine sim.section (.wakePropose up found outcome) helect hnode hnet hnext
      (by simp [up.node]) (Simulates.silent ?_ rfl)
    exact NodeOk.simulates (hok.congr rfl (fun _ h => h))
  | @beginApply i n e up idle behind entry =>
    have hok := sim.node up
    refine sim.section (.beginApply up idle behind entry) helect hnode hnet hnext
      (by simp [up.node]) (Simulates.silent ?_ rfl)
    exact NodeOk.simulates (hok.congr rfl (fun _ h => h))
  | @endApply i data n next e up busy =>
    have hok := sim.node up
    have hle := hsmall i up.mem
    rw [up.node] at hle
    have hend := endApply_of_le (c.config i) hle next data
    refine sim.section (.endApply up busy) helect hnode hnet hnext
      (by simp [up.node, hend]) (Simulates.silent ?_ rfl)
    simp only [hend]
    exact NodeOk.simulates (hok.congr rfl (fun _ h => h))
  | @stallApply i data n up idle behind ends =>
    have hok := sim.node up
    have hle := hsmall i up.mem
    rw [up.node] at hle
    have hend := maybeSnapshot_of_le (c.config i) hle data
    refine sim.section (.stallApply up idle behind ends) helect hnode hnet hnext
      (by simp [up.node, hend]) (Simulates.silent ?_ rfl)
    simp only [hend]
    exact hok.simulates

/-- **Refinement, one event**: a section is some moves of its replica, the loss of a packet is
    none. -/
theorem Sim.steps (hc : c.FullMesh) {ev : Event} (sim : Sim c s a) (hplain : ev.Plain c s)
    (h : ev.step c s = some s') : ∃ a', Steps (raft c) a a' ∧ Sim c s' a' := by
  have helect := (sim.election.step hc h).1
  cases stepped h with
  | act hd => exact sim.act hc hd helect rfl rfl rfl hplain
  | @drop k =>
    refine ⟨a, .refl, helect, sim.inv, sim.nodes, sim.calls, fun p hp => ?_⟩
    exact sim.packets p ((List.eraseIdx_sublist s.network k).subset hp)
  | stop | stopDuring | restart | stopDuringRestart => exact hplain.elim

/-- What most proofs need of it: the history only grows. -/
theorem Sim.step (hc : c.FullMesh) {ev : Event} (sim : Sim c s a) (hplain : ev.Plain c s)
    (h : ev.step c s = some s') : ∃ a', a ≤ a' ∧ Sim c s' a' := by
  obtain ⟨a', hsteps, sim'⟩ := sim.steps hc hplain h
  exact ⟨a', hsteps.grows sim.inv, sim'⟩

/-- **Refinement, a run**: the abstract state moves along, and its history only grows. -/
theorem Sim.run (hc : c.FullMesh) {P : State → Event → Prop} (hP : ∀ s ev, P s ev → ev.Plain c s)
    {tr : List (State × Event)} (run : Runs (Event.step c) P s tr s') (sim : Sim c s a) :
    ∃ a', a ≤ a' ∧ Sim c s' a' :=
  run.ghost (I := Sim c) (fun _ _ _ _ hs hok hstep => hs.step hc (hP _ _ hok) hstep) sim

end Proof
end OrcDb
