import OrcDb.Proof.Raft.HardState

/-!
# Votes on disk, and what a count rests on

The votes are on the voters' disks, so "`j` voted for `i` in term `t`" is a fact about `j`'s
WAL (`Voted`), and it can only become true: records are never removed. Two majorities of one
cluster share a voter, and a disciplined disk names one candidate per term.

What has to be carried along a run is small (`Tally`): disks are disciplined and agree with
memory, a response that grants a vote is backed by the voter's disk for the term of the call
it answers, and the count of a `StartElection` call rests on a ballot. What a ballot is depends
on who is in `peers_`. It is a parameter here, with the rules it has to follow
(`BallotRules`): it holds of a call that starts, and is kept when the call takes a grant or
gives up on a peer.
-/

set_option autoImplicit false

namespace OrcDb
namespace Proof

open Lib

/-! ## Votes and majorities -/

/-- `j`'s disk says that it voted for `i` in term `t`. -/
def Voted (s : State) (t : Nat) (j i : String) : Prop :=
  i ≠ "" ∧ WalRecord.hardState { term := t, votedFor := i } ∈ (s.node j).wal

/-- More than half of the members of the cluster. -/
structure Quorum (c : Cluster) (Q : Finset String) : Prop where
  members : ∀ j ∈ Q, j ∈ c.ids
  majority : c.ids.length / 2 + 1 ≤ Q.card

theorem Quorum.inter {c : Cluster} {Q Q' : Finset String} (h : Quorum c Q)
    (h' : Quorum c Q') : ∃ j, j ∈ Q ∧ j ∈ Q' := by
  have hQ : Q ⊆ c.ids.toFinset := fun j hj => List.mem_toFinset.mpr (h.members j hj)
  have hQ' : Q' ⊆ c.ids.toFinset := fun j hj => List.mem_toFinset.mpr (h'.members j hj)
  have hcard : c.ids.toFinset.card ≤ c.ids.length := List.toFinset_card_le _
  have hlt : c.ids.toFinset.card < Q.card + Q'.card := by
    have := h.majority
    have := h'.majority
    omega
  obtain ⟨j, hj⟩ := Finset.inter_nonempty_of_card_lt_card_add_card hQ hQ' hlt
  exact ⟨j, Finset.mem_inter.mp hj⟩

/-- A majority voted for `i` in term `t`. -/
def Elected (c : Cluster) (s : State) (t : Nat) (i : String) : Prop :=
  ∃ Q, Quorum c Q ∧ ∀ j ∈ Q, Voted s t j i

/-! ## The invariant -/

/-- What a vote message in flight is worth. A request names its sender, and carries the term
    of the call that sent it; a grant is on the disk of the node it comes from. Both are
    about the call only as long as it is open. -/
def VoteOk (s : State) (p : Packet) : Prop :=
  match p.payload with
  | .voteRequest req => req.candidateId = p.src ∧
      ∀ call, (s.node p.src).election = some call → call.id = p.call → req.term = call.term
  | .voteResponse resp => resp.voteGranted = true →
      ∀ call, (s.node p.dst).election = some call → call.id = p.call →
        Voted s call.term p.src p.dst
  | _ => True

structure PacketOk (c : Cluster) (s : State) (p : Packet) : Prop where
  src : p.src ∈ c.ids
  dst : p.dst ∈ c.ids
  fresh : p.call < s.nextCall
  vote : VoteOk s p

structure Tally (c : Cluster) (B : State → String → ElectionCall → Prop) (s : State) : Prop where
  disk : ∀ i, Disciplined {} (s.node i).wal
  memory : ∀ i, (s.node i).running = true → hardAfter {} (s.node i).wal = hardOf (s.node i)
  calls : ∀ i call, (s.node i).election = some call → call.id < s.nextCall ∧ B s i call
  packets : ∀ p ∈ s.network, PacketOk c s p

variable {c : Cluster} {B : State → String → ElectionCall → Prop}

theorem tally_init : Tally c B State.init where
  disk := fun _ => trivial
  memory := fun _ _ => rfl
  calls := fun _ _ h => absurd h (by simp [State.init])
  packets := fun _ h => absurd h (by simp [State.init])

/-! ## Disks only grow -/

/-- Every disk of `s'` extends the one of `s`. -/
def DisksGrow (s s' : State) : Prop := ∀ i, (s.node i).wal <+: (s'.node i).wal

theorem DisksGrow.refl (s : State) : DisksGrow s s := fun _ => List.prefix_rfl

theorem DisksGrow.trans {s s' s'' : State} (h : DisksGrow s s') (h' : DisksGrow s' s'') :
    DisksGrow s s'' := fun i => (h i).trans (h' i)

theorem DisksGrow.update {s s' : State} {i : String} {n' : RaftNode}
    (hnode : s'.node = Function.update s.node i n') (hw : (s.node i).wal <+: n'.wal) :
    DisksGrow s s' := by
  intro j
  rw [hnode]
  by_cases hj : j = i
  · subst hj; simpa using hw
  · simp [Function.update_of_ne hj]

theorem Voted.mono {s s' : State} {t : Nat} {j i : String} (hg : DisksGrow s s')
    (h : Voted s t j i) : Voted s' t j i :=
  ⟨h.1, (hg j).subset h.2⟩

theorem Elected.mono {c : Cluster} {s s' : State} {t : Nat} {i : String}
    (hg : DisksGrow s s') (h : Elected c s t i) : Elected c s' t i :=
  let ⟨Q, hQ, hv⟩ := h
  ⟨Q, hQ, fun j hj => (hv j hj).mono hg⟩

/-- What a ballot has to obey. A grant from the peer in front is on that peer's disk. -/
structure BallotRules (c : Cluster) (B : State → String → ElectionCall → Prop) : Prop where
  peers : ∀ i ∈ c.ids, ∀ p ∈ c.peers i, p ∈ c.ids
  nonempty : ∀ i ∈ c.ids, i ≠ ""
  mono : ∀ {s s' : State} {i : String} {call : ElectionCall}, DisksGrow s s' → B s i call →
    B s' i call
  start : ∀ {s : State} {i : String} {n : RaftNode} {id : Nat}, i ∈ c.ids →
    s.node i = (n.startElection (c.config i) id).1 →
    B s i { id, term := n.currentTerm + 1, votes := 1, pending := c.peers i }
  skip : ∀ {s : State} {i : String} {call call' : ElectionCall}, B s i call →
    call'.term = call.term → call'.pending = call.pending.tail → call'.votes = call.votes →
    B s i call'
  grant : ∀ {s : State} {i p : String} {call call' : ElectionCall} {rest : List String},
    B s i call → call.pending = p :: rest → call'.term = call.term →
    call'.pending = call.pending.tail → call'.votes = call.votes + 1 → Voted s call.term p i →
    B s i call'

/-! ## The step

One lemma covers every kind of step: some node `i` is replaced by `n'`. -/

/-- The election call of the replaced node: closed, new, or the old one moved on. -/
def CallMoves (s : State) (i : String) (n' : RaftNode) : Prop :=
  ∀ call', n'.election = some call' → call'.id = s.nextCall ∨
    ∃ call, (s.node i).election = some call ∧ call'.id = call.id ∧ call'.term = call.term

/-- A packet that was fine stays fine. -/
theorem VoteOk.mono {s s' : State} {i : String} {n' : RaftNode} {p : Packet}
    (hnode : s'.node = Function.update s.node i n') (hw : (s.node i).wal <+: n'.wal)
    (hcall : CallMoves s i n') (hfresh : p.call < s.nextCall) (h : VoteOk s p) :
    VoteOk s' p := by
  have hg : DisksGrow s s' := .update hnode hw
  -- an open call of `s'` with this packet's number was open in `s`, for the same term
  have hback : ∀ j call', (s'.node j).election = some call' → call'.id = p.call →
      ∃ call, (s.node j).election = some call ∧ call.id = p.call ∧ call.term = call'.term := by
    intro j call' he hid
    rw [hnode] at he
    by_cases hj : j = i
    · subst hj
      rw [Function.update_self] at he
      rcases hcall call' he with hnew | ⟨call, hc, hid', ht⟩
      · omega
      · exact ⟨call, hc, by omega, ht.symm⟩
    · rw [Function.update_of_ne hj] at he
      exact ⟨call', he, hid, rfl⟩
  unfold VoteOk at *
  split
  · rename_i req hp
    rw [hp] at h
    refine ⟨h.1, fun call' he hid => ?_⟩
    obtain ⟨call, hc, hid', ht⟩ := hback _ _ he hid
    rw [← ht]
    exact h.2 call hc hid'
  · rename_i resp hp
    rw [hp] at h
    intro hgr call' he hid
    obtain ⟨call, hc, hid', ht⟩ := hback _ _ he hid
    rw [← ht]
    exact (h hgr call hc hid').mono hg
  · trivial

/-- The invariant through the replacement of one node: the new disk is disciplined and
    matches the new memory, the new call has its ballot, new packets are fine. -/
theorem Tally.replace (rules : BallotRules c B) {s s' : State} {i : String} {n' : RaftNode}
    (inv : Tally c B s) (hnode : s'.node = Function.update s.node i n')
    (hw : (s.node i).wal <+: n'.wal) (hdisk : Disciplined {} n'.wal)
    (hmem : n'.running = true → hardAfter {} n'.wal = hardOf n')
    (hnext : s.nextCall ≤ s'.nextCall) (hmoves : CallMoves s i n')
    (hballot : ∀ call, n'.election = some call → call.id < s'.nextCall ∧ B s' i call)
    (hpkts : ∀ p ∈ s'.network, p ∈ s.network ∨ PacketOk c s' p) : Tally c B s' := by
  have hg : DisksGrow s s' := .update hnode hw
  refine ⟨fun j => ?_, fun j hr => ?_, fun j call he => ?_, fun p hp => ?_⟩
  · rw [hnode]
    by_cases hj : j = i
    · subst hj; simpa using hdisk
    · simpa [Function.update_of_ne hj] using inv.disk j
  · rw [hnode] at hr ⊢
    by_cases hj : j = i
    · subst hj
      rw [Function.update_self] at hr ⊢
      exact hmem hr
    · rw [Function.update_of_ne hj] at hr ⊢
      exact inv.memory j hr
  · rw [hnode] at he
    by_cases hj : j = i
    · subst hj
      rw [Function.update_self] at he
      exact hballot call he
    · rw [Function.update_of_ne hj] at he
      obtain ⟨hid, hb⟩ := inv.calls j call he
      exact ⟨by omega, rules.mono hg hb⟩
  · rcases hpkts p hp with hold | hnew
    · obtain ⟨hsrc, hdst, hfresh, hv⟩ := inv.packets p hold
      exact ⟨hsrc, hdst, by omega, hv.mono hnode hw hmoves hfresh⟩
    · exact hnew

/-- What a section leaves on disk: the old records, then disciplined ones that end in the
    new term and vote. -/
theorem Does.disk {s : State} {a : Action} {e : Effect} (inv : Tally c B s)
    (h : Does c s a e) :
    (s.node e.actor).wal <+: e.node.wal ∧ Disciplined {} e.node.wal ∧
      hardAfter {} e.node.wal = hardOf e.node := by
  obtain ⟨rs, hw, hd, ha⟩ := h.persists
  have hm := inv.memory _ h.up.running
  refine ⟨⟨rs, hw.symm⟩, ?_, ?_⟩
  · rw [hw, disciplined_append, hm]
    exact ⟨inv.disk _, hd⟩
  · rw [hw, hardAfter_append, hm, ha]

/-- A section that is no part of an election: the call stays as it is, and what it sends is
    no vote message. -/
theorem Tally.quiet (rules : BallotRules c B) {s s' : State} {a : Action} {e : Effect}
    (inv : Tally c B s) (h : Does c s a e)
    (hnode : s'.node = Function.update s.node e.actor e.node)
    (hnet : s'.network = e.network ++ e.sent) (hnext : s'.nextCall = s.nextCall + 1)
    (hcall : e.node.election = (s.node e.actor).election)
    (hsub : ∀ p ∈ e.network, p ∈ s.network) (hsent : ∀ p ∈ e.sent, PacketOk c s' p) :
    Tally c B s' := by
  obtain ⟨hw, hdisk, hmem⟩ := h.disk inv
  refine inv.replace rules hnode hw hdisk (fun _ => hmem) (by omega) ?_ ?_ ?_
  · intro call' he
    rw [hcall] at he
    exact Or.inr ⟨call', he, rfl, rfl⟩
  · intro call he
    rw [hcall] at he
    obtain ⟨hid, hb⟩ := inv.calls _ call he
    exact ⟨by omega, rules.mono (.update hnode hw) hb⟩
  · intro p hp
    rw [hnet] at hp
    rcases List.mem_append.mp hp with hp | hp
    · exact Or.inl (hsub p hp)
    · exact Or.inr (hsent p hp)

/-- A granted vote is on the voter's disk when `HandleRequestVote` returns. -/
theorem handleRequestVote_granted {n : RaftNode} {req : RequestVoteRequest}
    (h : (n.handleRequestVote req).2.voteGranted = true) :
    WalRecord.hardState { term := req.term, votedFor := req.candidateId } ∈
      (n.handleRequestVote req).1.wal := by
  rw [handleRequestVote_writes h]
  simp

/-- `recvVote` closes the call, or moves it on by one future. -/
theorem recvVote_election {n : RaftNode} {call call' : ElectionCall} {resp : RequestVoteResponse}
    (h : (n.recvVote call resp).election = some call') :
    call'.id = call.id ∧ call'.term = call.term ∧ call'.pending = call.pending.tail ∧
      (call'.votes = call.votes ∨ call'.votes = call.votes + 1 ∧ resp.voteGranted = true) := by
  have h' := voteAnswered n call resp
  generalize n.recvVote call resp = out at h h'
  cases h' with
  | newer _ => exact absurd h (by simp)
  | vote _ hgranted _ _ =>
    obtain rfl := Option.some.inj h
    exact ⟨rfl, rfl, rfl, Or.inr ⟨rfl, hgranted⟩⟩
  | other _ _ =>
    obtain rfl := Option.some.inj h
    exact ⟨rfl, rfl, rfl, Or.inl rfl⟩

theorem finishElection_election (J : Json.Codec) (cfg : RaftConfig) (n : RaftNode)
    (call : ElectionCall) : (n.finishElection J cfg call).election = none := by
  unfold RaftNode.finishElection
  split <;> rfl

/-- A section that only moves the open call on: it sends nothing. -/
theorem Tally.moveCall (rules : BallotRules c B) {s s' : State} {a : Action} {e : Effect}
    (inv : Tally c B s) (h : Does c s a e)
    (hnode : s'.node = Function.update s.node e.actor e.node)
    (hnet : s'.network = e.network ++ e.sent) (hnext : s'.nextCall = s.nextCall + 1)
    {call : ElectionCall} (hopen : (s.node e.actor).election = some call)
    (hmove : ∀ call', e.node.election = some call' → call'.id = call.id ∧
      call'.term = call.term ∧ B s' e.actor call')
    (hsub : ∀ p ∈ e.network, p ∈ s.network) (hsent : e.sent = []) : Tally c B s' := by
  obtain ⟨hw, hdisk, hmem⟩ := h.disk inv
  refine inv.replace rules hnode hw hdisk (fun _ => hmem) (by omega) ?_ ?_ ?_
  · intro call' he
    exact Or.inr ⟨call, hopen, (hmove call' he).1, (hmove call' he).2.1⟩
  · intro call' he
    obtain ⟨hid, -, hb⟩ := hmove call' he
    have := (inv.calls _ call hopen).1
    exact ⟨by omega, hb⟩
  · intro p hp
    rw [hnet, hsent, List.append_nil] at hp
    exact Or.inl (hsub p hp)

theorem Tally.act (rules : BallotRules c B) {s s' : State} {a : Action}
    {e : Effect} (inv : Tally c B s) (h : Does c s a e)
    (hnode : s'.node = Function.update s.node e.actor e.node)
    (hnet : s'.network = e.network ++ e.sent) (hnext : s'.nextCall = s.nextCall + 1) :
    Tally c B s' := by
  have hself : s'.node e.actor = e.node := by rw [hnode, Function.update_self]
  have herase : ∀ k, ∀ p ∈ s.network.eraseIdx k, p ∈ s.network := fun k p hp =>
    (List.eraseIdx_sublist s.network k).subset hp
  cases h with
  | @startElection i n up idle role =>
    have hd := Does.startElection up idle role
    obtain ⟨hw, hdisk, hmem⟩ := hd.disk inv
    refine inv.replace rules hnode hw hdisk (fun _ => hmem) (by omega) ?_ ?_ ?_
    · intro call' he
      cases he
      exact Or.inl rfl
    · intro call' he
      cases he
      exact ⟨by simp only [hnext]; omega, rules.start up.mem hself⟩
    · intro p hp
      rw [hnet] at hp
      rcases List.mem_append.mp hp with hp | hp
      · exact Or.inl hp
      · obtain ⟨q, hq, rfl⟩ := List.mem_map.mp hp
        refine Or.inr ⟨up.mem, rules.peers _ up.mem _ hq, by simp only [hnext]; omega, rfl, ?_⟩
        intro call he _
        simp only at he hself
        rw [hself] at he
        cases he
        rfl
  | @recvVote i p k n call rest resp up open' pending pkt =>
    have hd := Does.recvVote up open' pending pkt
    obtain ⟨hw, -, -⟩ := hd.disk inv
    have hopen : (s.node i).election = some call := by rw [up.node]; exact open'
    have hb : B s' i call := rules.mono (.update hnode hw) (inv.calls i call hopen).2
    refine inv.moveCall rules hd hnode hnet hnext hopen ?_ (herase k) rfl
    intro call' he
    obtain ⟨hid, ht, hp, hv⟩ := recvVote_election he
    refine ⟨hid, ht, ?_⟩
    rcases hv with hv | ⟨hv, hg⟩
    · exact rules.skip hb ht hp hv
    · have hok := (inv.packets _ (List.mem_of_getElem? pkt)).vote
      have hvoted : Voted s call.term p i := hok hg call hopen rfl
      exact rules.grant hb pending ht hp hv (hvoted.mono (.update hnode hw))
  | @skipVote i n call up open' pending =>
    have hd := Does.skipVote up open' pending
    obtain ⟨hw, -, -⟩ := hd.disk inv
    have hopen : (s.node i).election = some call := by rw [up.node]; exact open'
    have hb : B s' i call := rules.mono (.update hnode hw) (inv.calls i call hopen).2
    refine inv.moveCall rules hd hnode hnet hnext hopen ?_ (fun _ h => h) rfl
    intro call' he
    cases he
    exact ⟨rfl, rfl, rules.skip hb rfl rfl rfl⟩
  | @finishElection i n call up open' pending =>
    have hopen : (s.node i).election = some call := by rw [up.node]; exact open'
    refine inv.moveCall rules (.finishElection up open' pending) hnode hnet hnext hopen ?_
      (fun _ h => h) rfl
    intro call' he
    rw [finishElection_election] at he
    exact absurd he (by simp)
  | @handleRequestVote src i id k n req up pkt =>
    have hd := Does.handleRequestVote up pkt
    have hpkt := inv.packets _ (List.mem_of_getElem? pkt)
    refine inv.quiet rules hd hnode hnet hnext (by simp [up.node]) (herase k) ?_
    intro q hq
    rw [List.mem_singleton] at hq
    subst hq
    refine ⟨hpkt.dst, hpkt.src, by have := hpkt.fresh; simp only at this ⊢; omega, ?_⟩
    obtain ⟨hcand, hterm⟩ := hpkt.vote
    intro hg call he hid
    simp only at he hid hcand hterm ⊢
    have hcall : (s.node src).election = some call := by
      rw [hnode] at he
      by_cases hsi : src = i
      · subst hsi
        rw [Function.update_self] at he
        simpa [up.node] using he
      · rwa [Function.update_of_ne hsi] at he
    refine ⟨rules.nonempty _ hpkt.src, ?_⟩
    rw [hself, ← hcand, ← hterm call hcall hid]
    exact handleRequestVote_granted hg
  | @startReplicate i peer n up idle role peer_mem =>
    refine inv.quiet rules (.startReplicate up idle role peer_mem) hnode hnet hnext
      (by simp [up.node, RaftNode.startReplicate]) (fun _ h => h) ?_
    intro q hq
    rw [List.mem_singleton] at hq
    subst hq
    exact ⟨up.mem, rules.peers _ up.mem _ peer_mem, by simp only [hnext]; omega, trivial⟩
  | @handleAppendEntries src i id k n req up pkt =>
    have hpkt := inv.packets _ (List.mem_of_getElem? pkt)
    refine inv.quiet rules (.handleAppendEntries up pkt) hnode hnet hnext (by simp [up.node])
      (herase k) ?_
    intro q hq
    rw [List.mem_singleton] at hq
    subst hq
    exact ⟨hpkt.dst, hpkt.src, by have := hpkt.fresh; simp only at this ⊢; omega, trivial⟩
  | @finishReplicate i k n call resp up open' pkt =>
    exact inv.quiet rules (.finishReplicate up open' pkt) hnode hnet hnext (by simp [up.node])
      (herase k) (by simp)
  | abandonReplicate up open' =>
    exact inv.quiet rules (.abandonReplicate up open') hnode hnet hnext (by simp [up.node])
      (fun _ h => h) (by simp)
  | propose up =>
    exact inv.quiet rules (.propose up) hnode hnet hnext (by simp [up.node]) (fun _ h => h)
      (by simp)
  | wakePropose up found outcome =>
    exact inv.quiet rules (.wakePropose up found outcome) hnode hnet hnext (by simp [up.node])
      (fun _ h => h) (by simp)
  | beginApply up idle behind entry =>
    exact inv.quiet rules (.beginApply up idle behind entry) hnode hnet hnext (by simp [up.node])
      (fun _ h => h) (by simp)
  | endApply up busy =>
    exact inv.quiet rules (.endApply up busy) hnode hnet hnext (by simp [up.node]) (fun _ h => h)
      (by simp)
  | stallApply up idle behind ends =>
    exact inv.quiet rules (.stallApply up idle behind ends) hnode hnet hnext (by simp [up.node])
      (fun _ h => h) (by simp)

/-! ## Stops and restarts -/

/-- The constructor comes up with the term and the vote of the disk, and adds no hard
    state. -/
theorem recover_spec {J : Json.Codec} {wal : List WalRecord} {n : RaftNode}
    (h : RaftNode.recover J wal = some n) :
    hardOf n = hardAfter {} wal ∧ n.election = none ∧
      ∃ es : List LogEntry, n.wal = wal ++ es.map (LogEntry.record J) := by
  unfold RaftNode.recover at h
  dsimp only at h
  split at h
  · simp only [Option.some.injEq] at h
    subst h
    have hbase : hardOf (RaftNode.recoveredBase wal (replay wal)) = hardAfter {} wal ∧
        (RaftNode.recoveredBase wal (replay wal)).election = none ∧
        (RaftNode.recoveredBase wal (replay wal)).wal = wal := by
      rw [← replay_hardState]
      unfold RaftNode.recoveredBase
      dsimp only
      split <;> exact ⟨rfl, rfl, rfl⟩
    -- appending entries touches neither the hard state nor the (absent) call
    have hfold : ∀ (es : List LogEntry) (m : RaftNode),
        hardOf (es.foldl (fun n e => n.appendLog J e) m) = hardOf m ∧
        (es.foldl (fun n e => n.appendLog J e) m).election = m.election ∧
        (es.foldl (fun n e => n.appendLog J e) m).wal = m.wal ++ es.map (LogEntry.record J) := by
      intro es
      induction es with
      | nil => intro m; exact ⟨rfl, rfl, by simp⟩
      | cons e es ih =>
        intro m
        obtain ⟨h₁, h₂, h₃⟩ := ih (m.appendLog J e)
        refine ⟨h₁, h₂, ?_⟩
        rw [List.foldl_cons, h₃]
        simp [RaftNode.appendLog, RaftLog.append]
    obtain ⟨h₁, h₂, h₃⟩ := hfold (RaftNode.recoveredEntries J (replay wal))
      (RaftNode.recoveredBase wal (replay wal))
    exact ⟨by rw [h₁, hbase.1], by rw [h₂, hbase.2.1], _, by rw [h₃, hbase.2.2]⟩
  · exact absurd h (by simp)

/-- Log-entry records after a disciplined disk leave it disciplined. -/
theorem Disciplined.append_entries {wal : List WalRecord} (h : Disciplined {} wal)
    (J : Json.Codec) (es : List LogEntry) :
    Disciplined {} (wal ++ es.map (LogEntry.record J)) ∧
      hardAfter {} (wal ++ es.map (LogEntry.record J)) = hardAfter {} wal := by
  induction es generalizing wal with
  | nil => simpa using h
  | cons e es ih =>
    have h' : Disciplined {} (wal ++ [e.record J]) := by
      rw [disciplined_append]
      exact ⟨h, trivial, trivial⟩
    obtain ⟨hd, ha⟩ := ih h'
    rw [List.append_assoc] at hd ha
    refine ⟨hd, ha.trans ?_⟩
    rw [hardAfter_append]
    rfl

/-- A step that takes the call of one node away, and otherwise only moves its disk on. -/
theorem Tally.closeCall (rules : BallotRules c B) {s s' : State} {i : String} {n' : RaftNode}
    (inv : Tally c B s) (hnode : s'.node = Function.update s.node i n')
    (hnext : s'.nextCall = s.nextCall) (hsub : ∀ p ∈ s'.network, p ∈ s.network)
    (hw : (s.node i).wal <+: n'.wal) (hdisk : Disciplined {} n'.wal)
    (hmem : n'.running = true → hardAfter {} n'.wal = hardOf n') (hcall : n'.election = none) :
    Tally c B s' := by
  refine inv.replace rules hnode hw hdisk hmem (by omega) ?_ ?_ (fun p hp => Or.inl (hsub p hp))
  · intro call' he
    rw [hcall] at he
    exact absurd he (by simp)
  · intro call' he
    rw [hcall] at he
    exact absurd he (by simp)

/-- **The step lemma**: every event keeps the invariant, and every disk. -/
theorem Tally.step (rules : BallotRules c B) {s s' : State} {ev : Event}
    (inv : Tally c B s) (h : ev.step c s = some s') : Tally c B s' ∧ DisksGrow s s' := by
  cases stepped h with
  | act hd => exact ⟨inv.act rules hd rfl rfl rfl, .update rfl (hd.disk inv).1⟩
  | @drop k =>
    have hg : DisksGrow s { s with network := s.network.eraseIdx k } := fun _ => List.prefix_rfl
    refine ⟨⟨inv.disk, inv.memory, fun i call he => ?_, fun p hp => ?_⟩, hg⟩
    · obtain ⟨hid, hb⟩ := inv.calls i call he
      exact ⟨hid, rules.mono hg hb⟩
    · obtain ⟨hsrc, hdst, hfresh, hv⟩ :=
        inv.packets p ((List.eraseIdx_sublist s.network k).subset hp)
      exact ⟨hsrc, hdst, hfresh, hv⟩
  | @stop i n up =>
    have hw : (s.node i).wal <+: (RaftNode.stopped n.wal).wal := by rw [up.node]; rfl
    refine ⟨inv.closeCall rules rfl rfl (fun _ h => h) hw ?_ (fun h => by cases h) rfl,
      .update rfl hw⟩
    have := inv.disk i
    rw [up.node] at this
    exact this
  | @stopDuring a k e hd =>
    obtain ⟨rs, hrs, hdis, -⟩ := hd.persists
    have hwritten : e.written s = rs := by
      unfold Effect.written
      rw [hrs, List.drop_left]
    have hw : (s.node e.actor).wal <+:
        (RaftNode.stopped ((s.node e.actor).wal ++ (e.written s).take k)).wal :=
      List.prefix_append _ _
    refine ⟨inv.closeCall rules rfl rfl hd.network_subset hw ?_ (fun h => by cases h) rfl,
      .update rfl hw⟩
    rw [hwritten]
    simp only [RaftNode.stopped]
    rw [disciplined_append, inv.memory _ hd.up.running]
    exact ⟨inv.disk _, hdis.take k⟩
  | @restart i n _ _ hn =>
    obtain ⟨hhard, hcall, es, hw⟩ := recover_spec hn
    obtain ⟨hd, ha⟩ := (inv.disk i).append_entries c.json es
    have hpre : (s.node i).wal <+: n.wal := ⟨_, hw.symm⟩
    rw [← hw] at hd ha
    exact ⟨inv.closeCall rules rfl rfl (fun _ h => h) hpre hd (fun _ => by rw [ha, hhard]) hcall,
      .update rfl hpre⟩
  | @stopDuringRestart i k _ _ =>
    have hpre : (s.node i).wal <+:
        (RaftNode.stopped (RaftNode.recoverInterrupted c.json (s.node i).wal k)).wal :=
      List.prefix_append _ _
    refine ⟨inv.closeCall rules rfl rfl (fun _ h => h) hpre ?_ (fun h => by cases h) rfl,
      .update rfl hpre⟩
    exact ((inv.disk i).append_entries c.json _).1

/-! ## One leader per term -/

/-- One term elects one node. -/
theorem Tally.elected_unique {s : State} {t : Nat} {i j : String} (inv : Tally c B s)
    (hi : Elected c s t i) (hj : Elected c s t j) : i = j := by
  obtain ⟨Q, hQ, hv⟩ := hi
  obtain ⟨Q', hQ', hv'⟩ := hj
  obtain ⟨k, hk, hk'⟩ := hQ.inter hQ'
  obtain ⟨hi, hmi⟩ := hv k hk
  obtain ⟨hj, hmj⟩ := hv' k hk'
  exact (inv.disk k).one_vote hmi hmj rfl hi hj

section Run

variable (rules : BallotRules c B) {P : State → Event → Prop} {tr : List (State × Event)}
  {s : State}
include rules

theorem tally_run (run : Runs (Event.step c) P State.init tr s) : Tally c B s :=
  run.invariant (fun _ _ _ inv _ h => (inv.step rules h).1) tally_init

theorem Tally.disksGrow {s' : State} (inv : Tally c B s) (run : Runs (Event.step c) P s tr s') :
    DisksGrow s s' :=
  run.monotone (I := Tally c B) DisksGrow.refl (fun _ _ _ => .trans)
    (fun _ _ _ inv _ h => inv.step rules h) inv

/-- Where a ballot behind a winning count is a majority of voters, two steps of one run that
    enter `BecomeLeader` in the same term are steps of the same node. -/
theorem one_leader_of_rules
    (majority : ∀ (s : State) (ev : Event) (i : String) (t : Nat), Tally c B s →
      ev.EntersBecomeLeader c s i t → Elected c s t i)
    (run : Runs (Event.step c) P State.init tr s) {s₁ s₂ : State} {ev₁ ev₂ : Event}
    {i j : String} {t : Nat} (h₁ : (s₁, ev₁) ∈ tr) (h₂ : (s₂, ev₂) ∈ tr)
    (lead₁ : ev₁.EntersBecomeLeader c s₁ i t) (lead₂ : ev₂.EntersBecomeLeader c s₂ j t) :
    i = j := by
  obtain ⟨tr₁, _, _, run₁, -⟩ := run.split h₁
  obtain ⟨tr₂, _, _, run₂, -⟩ := run.split h₂
  have inv₁ := tally_run rules run₁
  have inv₂ := tally_run rules run₂
  have hi := majority _ _ _ _ inv₁ lead₁
  have hj := majority _ _ _ _ inv₂ lead₂
  -- the votes behind the earlier of the two elections are still there at the later one
  rcases run.ordered h₁ h₂ with ⟨tr', hle⟩ | ⟨tr', hle⟩
  · exact inv₂.elected_unique (hi.mono (inv₁.disksGrow rules hle)) hj
  · exact inv₁.elected_unique hi (hj.mono (inv₂.disksGrow rules hle))

end Run

end Proof
end OrcDb
