import OrcDb.Proof.Raft.Election
import OrcDb.Util.Config

/-!
# A node among its own peers

When every node is started from one `PEERS` list that names all of them, `peers_` has `n`
entries and the node itself is one. `QuorumSize` then is `(n + 1) / 2 + 1`, and a candidate
counts itself twice: `StartElection` begins with one vote, and its own `HandleRequestVote`
grants another. A winning count is backed by one voter less than it says (`SelfBallot`). For an
odd `n` that is still a majority, for an even `n` it is half of the cluster.
-/

set_option autoImplicit false

namespace OrcDb

open Lib

/-- All nodes are started from the text `env` of `PEERS`, which names each of them once.
    `listens` is the network's part: the node behind a host and a port. -/
structure Cluster.StartedFrom (c : Cluster) (env : Bytes) (listens : PeerConfig → String) :
    Prop where
  nodup : c.ids.Nodup
  nonempty : ∀ i ∈ c.ids, i ≠ ""
  load : ∃ ps, Config.loadPeers env = some ps ∧ (ps.map listens).Perm c.ids ∧
    ∀ i ∈ c.ids, c.peers i = ps.map listens

namespace Proof

variable {c : Cluster} {env : Bytes} {listens : PeerConfig → String}

theorem startedFrom_of_loadPeers (hnodup : c.ids.Nodup) (hne : ∀ i ∈ c.ids, i ≠ "")
    (hpeers : ∀ i ∈ c.ids, c.peers i = c.ids)
    (h : ((Config.loadPeers env).any fun ps => ps.map listens = c.ids) = true) :
    c.StartedFrom env listens := by
  obtain ⟨ps, hload, hids⟩ := (Option.any_eq_true _ _).mp h
  have hmap : ps.map listens = c.ids := of_decide_eq_true hids
  refine ⟨hnodup, hne, ps, hload, by rw [hmap], fun i hi => ?_⟩
  rw [hmap, hpeers i hi]

theorem peers_perm (hc : c.StartedFrom env listens) {i : String} (hi : i ∈ c.ids) :
    (c.peers i).Perm c.ids := by
  obtain ⟨ps, -, hperm, hpeers⟩ := hc.load
  rw [hpeers i hi]
  exact hperm

/-- The voters behind a count: the candidate is one of them, and counts twice once its own
    request is off the list. -/
structure SelfBallot (c : Cluster) (s : State) (i : String) (call : ElectionCall) : Prop where
  mem : i ∈ c.ids
  nodup : call.pending.Nodup
  pending : ∀ p ∈ call.pending, p ∈ c.ids
  voters : ∃ S : Finset String, call.votes ≤ S.card + (if i ∈ call.pending then 0 else 1) ∧
    ∀ j ∈ S, j ∈ c.ids ∧ (j = i ∨ j ∉ call.pending) ∧ Voted s call.term j i

namespace SelfBallot

variable {s s' : State} {i p : String} {call call' : ElectionCall}

theorem mono (hg : DisksGrow s s') (h : SelfBallot c s i call) : SelfBallot c s' i call :=
  let ⟨S, hcard, hS⟩ := h.voters
  ⟨h.mem, h.nodup, h.pending, S, hcard, fun j hj =>
    ⟨(hS j hj).1, (hS j hj).2.1, (hS j hj).2.2.mono hg⟩⟩

theorem start (hc : c.StartedFrom env listens) {n : RaftNode} {id : Nat} (hi : i ∈ c.ids)
    (hnode : s.node i = (n.startElection (c.config i) id).1) :
    SelfBallot c s i { id, term := n.currentTerm + 1, votes := 1, pending := c.peers i } := by
  have hperm := peers_perm hc hi
  refine ⟨hi, hperm.nodup_iff.mpr hc.nodup, fun p hp => hperm.mem_iff.mp hp, {i}, ?_, ?_⟩
  · rw [Finset.card_singleton]
    exact Nat.le_add_right 1 _
  · intro j hj
    rw [Finset.mem_singleton] at hj
    subst hj
    refine ⟨hi, Or.inl rfl, hc.nonempty _ hi, ?_⟩
    rw [hnode]
    simp [RaftNode.startElection, RaftNode.persistHardState, Cluster.config]

/-- Giving up on the peer in front may only free the second vote. -/
theorem skip (h : SelfBallot c s i call) (ht : call'.term = call.term)
    (hp : call'.pending = call.pending.tail) (hv : call'.votes = call.votes) :
    SelfBallot c s i call' := by
  obtain ⟨S, hcard, hS⟩ := h.voters
  have htail : ∀ p ∈ call'.pending, p ∈ call.pending := fun p hm =>
    List.mem_of_mem_tail (by rw [← hp]; exact hm)
  refine ⟨h.mem, by rw [hp]; exact h.nodup.tail, fun p hm => h.pending p (htail p hm), S, ?_, ?_⟩
  · rw [hv]
    refine Nat.le_trans hcard (Nat.add_le_add_left ?_ _)
    split
    · exact Nat.zero_le _
    · rename_i hout
      rw [if_neg fun hm => hout (htail i hm)]
  · intro j hj
    rw [ht]
    exact ⟨(hS j hj).1, (hS j hj).2.1.imp_right fun hn hm => hn (htail j hm), (hS j hj).2.2⟩

/-- A grant adds a voter, or it is the candidate's own and is its second vote. -/
theorem grant {rest : List String} (h : SelfBallot c s i call)
    (hpend : call.pending = p :: rest) (ht : call'.term = call.term)
    (hp : call'.pending = call.pending.tail) (hv : call'.votes = call.votes + 1)
    (hvoted : Voted s call.term p i) : SelfBallot c s i call' := by
  obtain ⟨S, hcard, hS⟩ := h.voters
  have hnd := h.nodup
  have hmem := h.pending
  rw [hpend] at hnd hp hcard hS hmem
  rw [List.tail_cons] at hp
  obtain ⟨hout, hrest⟩ := List.nodup_cons.mp hnd
  refine ⟨h.mem, by rw [hp]; exact hrest, fun q hq => hmem q (by rw [hp] at hq; simp [hq]), ?_⟩
  rw [hp, ht, hv]
  by_cases hpi : p = i
  · subst hpi
    refine ⟨S, ?_, fun j hj => ⟨(hS j hj).1, (hS j hj).2.1.imp_right fun hn hm => hn ?_,
      (hS j hj).2.2⟩⟩
    · rw [if_pos List.mem_cons_self] at hcard
      rw [if_neg hout]
      omega
    · exact List.mem_cons_of_mem p hm
  · have hpS : p ∉ S := fun hm => by
      rcases (hS p hm).2.1 with heq | hn
      · exact hpi heq
      · exact hn List.mem_cons_self
    have hsame : i ∈ p :: rest ↔ i ∈ rest := by
      rw [List.mem_cons]
      exact or_iff_right fun heq => hpi heq.symm
    refine ⟨insert p S, ?_, fun j hj => ?_⟩
    · rw [Finset.card_insert_of_notMem hpS]
      simp only [hsame] at hcard
      omega
    · rcases Finset.mem_insert.mp hj with rfl | hj
      · exact ⟨hmem _ List.mem_cons_self, Or.inr hout, hvoted⟩
      · exact ⟨(hS j hj).1, (hS j hj).2.1.imp_right fun hn hm => hn (List.mem_cons_of_mem p hm),
          (hS j hj).2.2⟩

end SelfBallot

theorem selfBallotRules (hc : c.StartedFrom env listens) : BallotRules c (SelfBallot c) where
  peers := fun _ hi _ hp => (peers_perm hc hi).mem_iff.mp hp
  nonempty := hc.nonempty
  mono := fun hg h => h.mono hg
  start := fun hi hnode => .start hc hi hnode
  skip := fun h ht hp hv => h.skip ht hp hv
  grant := fun h hpend ht hp hv hvoted => h.grant hpend ht hp hv hvoted

/-- One voter less than the count is a majority of an odd cluster. -/
theorem elected_of_odd (hc : c.StartedFrom env listens) (hodd : Odd c.ids.length) {s : State}
    {ev : Event} {i : String} {t : Nat} (inv : Tally c (SelfBallot c) s)
    (hl : ev.EntersBecomeLeader c s i t) : Elected c s t i := by
  obtain ⟨-, call, hopen, ⟨-, hterm, hvotes⟩, rfl⟩ := hl
  obtain ⟨-, hb⟩ := inv.calls i call hopen
  obtain ⟨S, hcard, hS⟩ := hb.voters
  refine ⟨S, ⟨fun j hj => (hS j hj).1, ?_⟩, fun j hj => ?_⟩
  · have hlen : (c.config i).peers.length = c.ids.length := (peers_perm hc hb.mem).length_eq
    have hslack : (if i ∈ call.pending then 0 else 1) ≤ 1 := by
      split
      · exact Nat.zero_le 1
      · exact Nat.le_refl 1
    obtain ⟨m, hm⟩ := hodd
    rw [RaftNode.quorumSize, hlen] at hvotes
    omega
  · rw [hterm]
    exact (hS j hj).2.2

/-- **Election safety with a node among its own peers.** When all nodes are started from one
    `PEERS` list that names an odd number of them, two steps of a run that enter `BecomeLeader` in
    the same term are steps of the same node. -/
theorem self_listed_safety (hc : c.StartedFrom env listens) (hodd : Odd c.ids.length)
    {P : State → Event → Prop} {tr : List (State × Event)} {s : State}
    (run : Runs (Event.step c) P State.init tr s) {s₁ s₂ : State} {ev₁ ev₂ : Event}
    {i j : String} {t : Nat} (h₁ : (s₁, ev₁) ∈ tr) (h₂ : (s₂, ev₂) ∈ tr)
    (lead₁ : ev₁.EntersBecomeLeader c s₁ i t) (lead₂ : ev₂.EntersBecomeLeader c s₂ j t) :
    i = j :=
  one_leader_of_rules (selfBallotRules hc) (fun _ _ _ _ inv lead => elected_of_odd hc hodd inv lead)
    run h₁ h₂ lead₁ lead₂

/-! ### The manifest's cluster -/

/-- `PEERS` of the Kubernetes manifest. -/
def manifestPeers : Bytes :=
  toBytes "orcdb-0.orcdb-headless.orcdb.svc.cluster.local:2380," ++
  toBytes "orcdb-1.orcdb-headless.orcdb.svc.cluster.local:2380," ++
  toBytes "orcdb-2.orcdb-headless.orcdb.svc.cluster.local:2380"

/-- The first label of a host name is the pod's, which is its `NODE_ID`. -/
def podOf (p : PeerConfig) : String := (ofBytes? (p.host.takeWhile (· ≠ 46))).getD ""

def manifest : Cluster where
  ids := ["orcdb-0", "orcdb-1", "orcdb-2"]
  peers := fun _ => ["orcdb-0", "orcdb-1", "orcdb-2"]
  json := Json.text

theorem manifest_startedFrom : manifest.StartedFrom manifestPeers podOf :=
  startedFrom_of_loadPeers (by decide) (by decide) (fun _ _ => rfl) (by decide +kernel)

/-- The first node stands, and has its own vote twice and that of the second. -/
def standFirst : List Event :=
  [.act (.startElection "orcdb-0"), .act (.deliver 0), .act (.recvVote "orcdb-0" 2),
    .act (.deliver 0), .act (.recvVote "orcdb-0" 1), .act (.skipVote "orcdb-0")]

theorem self_listed_safety_manifest : ∃ tr s s₁,
    Runs (Event.step manifest) (fun _ ev => ev.NoStop) State.init tr s ∧
    (s₁, Event.act (.finishElection "orcdb-0")) ∈ tr ∧
    (Event.act (.finishElection "orcdb-0")).EntersBecomeLeader manifest s₁ "orcdb-0" 1 ∧
    ∀ s₂ ev₂ j, (s₂, ev₂) ∈ tr → ev₂.EntersBecomeLeader manifest s₂ j 1 → "orcdb-0" = j := by
  obtain ⟨s, hs⟩ : ∃ s, exec (Event.step manifest) (fun _ ev => ev.NoStop) State.init
      (standFirst ++ [.act (.finishElection "orcdb-0")]) = some s :=
    Option.isSome_iff_exists.mp (by decide +kernel)
  obtain ⟨s₁, hmem, hlead⟩ := enters_of_exec (c := manifest) (P := fun _ ev => ev.NoStop)
    standFirst (i := "orcdb-0") (t := 1) (by decide +kernel) []
  have run := runs_of_exec hs
  exact ⟨_, s, s₁, run, hmem, hlead, fun s₂ ev₂ j h₂ lead₂ =>
    self_listed_safety manifest_startedFrom (by decide) run hmem h₂ hlead lead₂⟩

/-! ### Two nodes -/

/-- Two nodes that are started with `PEERS=A:2380,B:2380`. -/
def twoListed : Cluster where
  ids := ["A", "B"]
  peers := fun _ => ["A", "B"]
  json := Json.text

/-- `A` counts its own vote twice, and does not wait for `B`'s answer. -/
def aloneA : List Event :=
  [.act (.startElection "A"), .act (.deliver 0), .act (.recvVote "A" 1), .act (.skipVote "A")]

/-- Then `B` does the same, in the same term: it has not seen `A`'s request yet. -/
def aloneB : List Event :=
  [.act (.startElection "B"), .act (.deliver 2), .act (.skipVote "B"), .act (.recvVote "B" 2)]

/-- Both nodes lead term 1. -/
theorem self_listed_safety_fails :
    twoListed.StartedFrom (toBytes "A:2380,B:2380") podOf ∧
    ∃ tr s s₁ s₂, Runs (Event.step twoListed) (fun _ ev => ev.NoStop) State.init tr s ∧
      (s₁, Event.act (.finishElection "A")) ∈ tr ∧ (s₂, Event.act (.finishElection "B")) ∈ tr ∧
      (Event.act (.finishElection "A")).EntersBecomeLeader twoListed s₁ "A" 1 ∧
      (Event.act (.finishElection "B")).EntersBecomeLeader twoListed s₂ "B" 1 := by
  refine ⟨?_, ?_⟩
  · exact startedFrom_of_loadPeers (by decide) (by decide) (fun _ _ => rfl) (by decide +kernel)
  · obtain ⟨s, hs⟩ : ∃ s, exec (Event.step twoListed) (fun _ ev => ev.NoStop) State.init
        (aloneA ++ .act (.finishElection "A") :: (aloneB ++ [.act (.finishElection "B")])) =
          some s :=
      Option.isSome_iff_exists.mp (by decide +kernel)
    obtain ⟨s₁, hmem₁, hlead₁⟩ := enters_of_exec (c := twoListed) (P := fun _ ev => ev.NoStop)
      aloneA (i := "A") (t := 1) (by decide +kernel)
      (aloneB ++ [.act (.finishElection "B")])
    obtain ⟨s₂, hmem₂, hlead₂⟩ := enters_of_exec (c := twoListed) (P := fun _ ev => ev.NoStop)
      (aloneA ++ .act (.finishElection "A") :: aloneB) (i := "B") (t := 1)
      (by decide +kernel) []
    rw [List.append_assoc, List.cons_append] at hmem₂
    exact ⟨_, s, s₁, s₂, runs_of_exec hs, hmem₁, hmem₂, hlead₁, hlead₂⟩

end Proof
end OrcDb
