import OrcDb.Proof.Raft.Votes
import OrcDb.Lib.JsonText

/-!
# Election safety, across restarts

With `peers_` the other nodes, the count of a `StartElection` call stands for as many
different voters, none of them still pending (`Ballot`), and `QuorumSize` is a majority of the
cluster. So a candidate that enters `BecomeLeader` was elected, and two winners of one term are
the same node.
-/

set_option autoImplicit false

namespace OrcDb

open Lib

/-- With `peers_` the other nodes, `QuorumSize` is a majority of the cluster. -/
theorem Cluster.FullMesh.quorumSize_eq {c : Cluster} (hc : c.FullMesh) {i : String}
    (hi : i ∈ c.ids) : RaftNode.quorumSize (c.config i) = c.ids.length / 2 + 1 := by
  have hlen : (c.peers i).length = c.ids.length - 1 := by
    rw [(hc.peers i hi).length_eq, List.length_erase_of_mem hi]
  have hpos : 0 < c.ids.length := List.length_pos_of_mem hi
  simp only [RaftNode.quorumSize, Cluster.config, hlen]
  congr 2
  omega

theorem Cluster.FullMesh.mem_peers {c : Cluster} (hc : c.FullMesh) {i j : String}
    (hi : i ∈ c.ids) (hj : j ∈ c.peers i) : j ∈ c.ids ∧ j ≠ i := by
  have hmem : j ∈ c.ids.erase i := (hc.peers i hi).mem_iff.mp hj
  rw [hc.nodup.mem_erase_iff] at hmem
  exact ⟨hmem.2, hmem.1⟩

theorem Cluster.FullMesh.peers_nodup {c : Cluster} (hc : c.FullMesh) {i : String}
    (hi : i ∈ c.ids) : (c.peers i).Nodup :=
  (hc.peers i hi).nodup_iff.mpr (hc.nodup.erase i)

namespace Proof

/-! ## The ballot -/

/-- A `StartElection` call has `votes` different voters behind it, none of them pending. -/
structure Ballot (c : Cluster) (s : State) (i : String) (call : ElectionCall) : Prop where
  mem : i ∈ c.ids
  nodup : call.pending.Nodup
  pending : ∀ p ∈ call.pending, p ∈ c.ids
  voters : ∃ S : Finset String, call.votes ≤ S.card ∧
    ∀ j ∈ S, j ∈ c.ids ∧ j ∉ call.pending ∧ Voted s call.term j i

theorem Ballot.mono {c : Cluster} {s s' : State} {i : String} {call : ElectionCall}
    (hg : DisksGrow s s') (h : Ballot c s i call) : Ballot c s' i call :=
  let ⟨S, hcard, hS⟩ := h.voters
  ⟨h.mem, h.nodup, h.pending, S, hcard, fun j hj =>
    ⟨(hS j hj).1, (hS j hj).2.1, (hS j hj).2.2.mono hg⟩⟩

/-- Dropping the future in front keeps the ballot. -/
theorem Ballot.tail {c : Cluster} {s : State} {i : String} {call call' : ElectionCall}
    (h : Ballot c s i call) (ht : call'.term = call.term)
    (hp : call'.pending = call.pending.tail) (hv : call'.votes = call.votes) :
    Ballot c s i call' := by
  obtain ⟨S, hcard, hS⟩ := h.voters
  refine ⟨h.mem, by rw [hp]; exact h.nodup.tail, ?_, S, by omega, fun j hj => ?_⟩
  · intro p hm
    rw [hp] at hm
    exact h.pending p (List.mem_of_mem_tail hm)
  · rw [hp, ht]
    exact ⟨(hS j hj).1, fun hm => (hS j hj).2.1 (List.mem_of_mem_tail hm), (hS j hj).2.2⟩

/-- A grant from the peer in front adds one voter that was not counted before. -/
theorem Ballot.grant {c : Cluster} {s : State} {i p : String} {call call' : ElectionCall}
    {rest : List String} (h : Ballot c s i call) (hpend : call.pending = p :: rest)
    (ht : call'.term = call.term) (hp : call'.pending = call.pending.tail)
    (hv : call'.votes = call.votes + 1) (hvoted : Voted s call.term p i) :
    Ballot c s i call' := by
  obtain ⟨S, hcard, hS⟩ := h.voters
  have hnd := h.nodup
  rw [hpend] at hnd hp
  simp only [List.tail_cons] at hp
  have hpS : p ∉ S := fun hm => (hS p hm).2.1 (by rw [hpend]; simp)
  refine ⟨h.mem, by rw [hp]; exact hnd.of_cons, ?_, insert p S, ?_, fun j hj => ?_⟩
  · intro q hq
    rw [hp] at hq
    exact h.pending q (by rw [hpend]; simp [hq])
  · rw [Finset.card_insert_of_notMem hpS]
    omega
  · rw [hp, ht]
    rcases Finset.mem_insert.mp hj with rfl | hj
    · exact ⟨h.pending j (by rw [hpend]; simp), (List.nodup_cons.mp hnd).1, hvoted⟩
    · refine ⟨(hS j hj).1, fun hm => (hS j hj).2.1 ?_, (hS j hj).2.2⟩
      rw [hpend]
      simp [hm]

/-- A candidate starts with its own vote, on its own disk. -/
theorem Ballot.start {c : Cluster} (hc : c.FullMesh) {s : State} {i : String} {n : RaftNode}
    {id : Nat} (hi : i ∈ c.ids) (hnode : s.node i = (n.startElection (c.config i) id).1) :
    Ballot c s i { id, term := n.currentTerm + 1, votes := 1, pending := c.peers i } := by
  refine ⟨hi, hc.peers_nodup hi, fun p hp => (hc.mem_peers hi hp).1, {i}, by simp, ?_⟩
  intro j hj
  rw [Finset.mem_singleton] at hj
  subst hj
  refine ⟨hi, fun hm => (hc.mem_peers hi hm).2 rfl, hc.nonempty _ hi, ?_⟩
  rw [hnode]
  simp [RaftNode.startElection, RaftNode.persistHardState, Cluster.config]

/-- The ballot follows the rules. -/
theorem ballotRules {c : Cluster} (hc : c.FullMesh) : BallotRules c (Ballot c) where
  peers := fun _ hi _ hp => (hc.mem_peers hi hp).1
  nonempty := hc.nonempty
  mono := fun hg h => h.mono hg
  start := fun hi hnode => .start hc hi hnode
  skip := fun h ht hp hv => h.tail ht hp hv
  grant := fun h hpend ht hp hv hvoted => h.grant hpend ht hp hv hvoted

/-! ## The invariant -/

structure ElectionInv (c : Cluster) (s : State) : Prop where
  disk : ∀ i, Disciplined {} (s.node i).wal
  memory : ∀ i, (s.node i).running = true → hardAfter {} (s.node i).wal = hardOf (s.node i)
  calls : ∀ i call, (s.node i).election = some call → call.id < s.nextCall ∧ Ballot c s i call
  packets : ∀ p ∈ s.network, PacketOk c s p

theorem electionInv_init (c : Cluster) : ElectionInv c State.init where
  disk := fun _ => trivial
  memory := fun _ _ => rfl
  calls := fun _ _ h => absurd h (by simp [State.init])
  packets := fun _ h => absurd h (by simp [State.init])

theorem ElectionInv.tally {c : Cluster} {s : State} (inv : ElectionInv c s) :
    Tally c (Ballot c) s :=
  ⟨inv.disk, inv.memory, inv.calls, inv.packets⟩

theorem Tally.electionInv {c : Cluster} {s : State} (inv : Tally c (Ballot c) s) :
    ElectionInv c s :=
  ⟨inv.disk, inv.memory, inv.calls, inv.packets⟩

/-- **The step lemma**: every event keeps the invariant, and every disk. -/
theorem ElectionInv.step {c : Cluster} (hc : c.FullMesh) {s s' : State} {ev : Event}
    (inv : ElectionInv c s) (h : ev.step c s = some s') : ElectionInv c s' ∧ DisksGrow s s' := by
  obtain ⟨inv', hg⟩ := inv.tally.step (ballotRules hc) h
  exact ⟨inv'.electionInv, hg⟩

/-! ## The theorem -/

/-- A node that enters `BecomeLeader` was elected: the count it compared with `QuorumSize`
    stands for as many voters. -/
theorem ElectionInv.elected {c : Cluster} (hc : c.FullMesh) {s : State} {ev : Event}
    {i : String} {t : Nat} (inv : ElectionInv c s) (hl : ev.EntersBecomeLeader c s i t) :
    Elected c s t i := by
  obtain ⟨-, call, hopen, ⟨-, hterm, hvotes⟩, rfl⟩ := hl
  obtain ⟨-, hb⟩ := inv.calls i call hopen
  obtain ⟨S, hcard, hS⟩ := hb.voters
  rw [hc.quorumSize_eq hb.mem] at hvotes
  refine ⟨S, ⟨fun j hj => (hS j hj).1, by omega⟩, fun j hj => ?_⟩
  rw [hterm]
  exact (hS j hj).2.2

/-- Two steps of one run that enter `BecomeLeader` in the same term are steps of the same
    node. -/
theorem one_leader {c : Cluster} (hc : c.FullMesh) {P : State → Event → Prop}
    {tr : List (State × Event)} {s : State} (run : Runs (Event.step c) P State.init tr s)
    {s₁ s₂ : State} {ev₁ ev₂ : Event} {i j : String} {t : Nat}
    (h₁ : (s₁, ev₁) ∈ tr) (h₂ : (s₂, ev₂) ∈ tr)
    (lead₁ : ev₁.EntersBecomeLeader c s₁ i t) (lead₂ : ev₂.EntersBecomeLeader c s₂ j t) :
    i = j :=
  one_leader_of_rules (ballotRules hc) (fun _ _ _ _ inv lead => inv.electionInv.elected hc lead)
    run h₁ h₂ lead₁ lead₂

/-- **Election safety.** In every run of a full mesh — any interleaving of the sections, any
    loss and delay, nodes stopping anywhere and restarting from their disks — two steps that
    enter `BecomeLeader` in the same term are steps of the same node. -/
theorem election_safety {c : Cluster} (hc : c.FullMesh) {tr : List (State × Event)} {s : State}
    (run : Runs (Event.step c) (fun _ _ => True) State.init tr s)
    {s₁ s₂ : State} {ev₁ ev₂ : Event} {i j : String} {t : Nat}
    (h₁ : (s₁, ev₁) ∈ tr) (h₂ : (s₂, ev₂) ∈ tr)
    (lead₁ : ev₁.EntersBecomeLeader c s₁ i t) (lead₂ : ev₂.EntersBecomeLeader c s₂ j t) :
    i = j :=
  one_leader hc run h₁ h₂ lead₁ lead₂

/-! ### A cluster of three -/

/-- Three nodes over the compact JSON text. -/
def three : Cluster where
  ids := ["A", "B", "C"]
  peers := fun i => ["A", "B", "C"].erase i
  json := Json.text

theorem three_fullMesh : three.FullMesh :=
  ⟨by decide, by decide, fun _ _ => List.Perm.refl _⟩

/-- `A` stands and is granted both votes; what is left is its last section. -/
def standA : List Event :=
  [.act (.startElection "A"), .act (.deliver 0), .act (.deliver 0), .act (.recvVote "A" 0),
    .act (.recvVote "A" 0)]

theorem entersBecomeLeader_of_wins {c : Cluster} {s : State} {i : String}
    (h : ((s.node i).election.any fun call => (s.node i).Wins (c.config i) call) = true) :
    (Event.act (.finishElection i)).EntersBecomeLeader c s i (s.node i).currentTerm := by
  cases hcall : (s.node i).election with
  | none =>
    rw [hcall] at h
    exact absurd h (by simp)
  | some call =>
    rw [hcall] at h
    exact ⟨Or.inl rfl, call, hcall, of_decide_eq_true h, rfl⟩

/-- The step that follows a list of labels, when these leave a candidate that wins. -/
theorem enters_of_exec {c : Cluster} {P : State → Event → Prop} [∀ s ev, Decidable (P s ev)]
    (evs : List Event) {i : String} {t : Nat}
    (h : ((exec (Event.step c) P State.init evs).any fun s =>
      ((s.node i).election.any fun call => (s.node i).Wins (c.config i) call) &&
        (s.node i).currentTerm == t) = true) (evs' : List Event) :
    ∃ s₁, (s₁, Event.act (.finishElection i)) ∈
        traceOf (Event.step c) State.init (evs ++ .act (.finishElection i) :: evs') ∧
      (Event.act (.finishElection i)).EntersBecomeLeader c s₁ i t := by
  obtain ⟨s₁, hs₁, hw⟩ := (Option.any_eq_true _ _).mp h
  rw [Bool.and_eq_true, beq_iff_eq] at hw
  have hlead := entersBecomeLeader_of_wins hw.1
  rw [hw.2] at hlead
  exact ⟨s₁, mem_traceOf hs₁ _ evs', hlead⟩

theorem election_safety_three : ∃ tr s s₁,
    Runs (Event.step three) (fun _ _ => True) State.init tr s ∧
    (s₁, Event.act (.finishElection "A")) ∈ tr ∧
    (Event.act (.finishElection "A")).EntersBecomeLeader three s₁ "A" 1 ∧
    ∀ s₂ ev₂ j, (s₂, ev₂) ∈ tr → ev₂.EntersBecomeLeader three s₂ j 1 → "A" = j := by
  obtain ⟨s, hs⟩ : ∃ s, exec (Event.step three) (fun _ _ => True) State.init
      (standA ++ [.act (.finishElection "A")]) = some s :=
    Option.isSome_iff_exists.mp (by decide +kernel)
  obtain ⟨s₁, hmem, hlead⟩ := enters_of_exec (c := three) (P := fun _ _ => True) standA
    (i := "A") (t := 1) (by decide +kernel) []
  have run := runs_of_exec hs
  exact ⟨_, s, s₁, run, hmem, hlead, fun s₂ ev₂ j h₂ lead₂ =>
    election_safety three_fullMesh run hmem h₂ hlead lead₂⟩

end Proof
end OrcDb
