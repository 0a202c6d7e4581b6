import OrcDb.Proof.Raft.Simulation

/-!
# Log matching and leader completeness

The protocol's two theorems, read off the cluster through the refinement.

A leader commits index `n` when it counts a quorum in `matchIndex_` and the entry is of its
own term. What it believes is true (`NodeOk.matchIndex`), so at that moment the protocol has
*chosen* `n` in that term (`NodeOk.chosen`). Being chosen never goes away, and the log of any
later leader agrees with what was chosen.
-/

set_option autoImplicit false

namespace OrcDb
namespace Proof

open Lib Replicas

variable {c : Cluster} {s s' : State} {a a' : Replicas String LogEntry} {i j : String}
  {n : RaftNode} {tr tr' : List (State × Event)}

/-- A run without restarts and without compaction. -/
abbrev PlainRun (c : Cluster) : State → List (State × Event) → State → Prop :=
  Runs (Event.step c) (fun s ev => ev.Plain c s)

theorem sim_of_run (hc : c.FullMesh) (run : PlainRun c State.init tr s) : ∃ a, Sim c s a :=
  let ⟨a, _, sim⟩ := (sim_init c).run hc (fun _ _ h => h) run
  ⟨a, sim⟩

/-! ## Log matching -/

/-- **Log matching.** Two logs that hold an entry of the same term at one index are the same
    up to that index. -/
theorem log_matching (hc : c.FullMesh) (run : PlainRun c State.init tr s) {k : Nat}
    {e e' : LogEntry} (hi : (s.node i).log.getEntry k = some e)
    (hj : (s.node j).log.getEntry k = some e') (ht : e.term = e'.term) :
    ∀ m ≤ k, ∃ x, (s.node i).log.getEntry m = some x ∧ (s.node j).log.getEntry m = some x := by
  obtain ⟨a, sim⟩ := sim_of_run hc run
  have hsi := (sim.nodes i).shaped sim.inv
  have hsj := (sim.nodes j).shaped sim.inv
  rw [hsi.getEntry_eq] at hi
  rw [hsj.getEntry_eq] at hj
  have hag : AgreeUpTo (s.node i).log.entries (s.node j).log.entries k :=
    ((sim.nodes i).logged sim.inv).matching ((sim.nodes j).logged sim.inv) k e e' hi hj ht
  intro m hm
  have hlt : m < (s.node i).log.entries.length :=
    Nat.lt_of_le_of_lt hm (List.getElem?_eq_some_iff.mp hi).1
  have hget := List.getElem?_eq_getElem hlt
  rw [hsi.getEntry_eq, hsj.getEntry_eq, ← hag m hm]
  exact ⟨_, hget, hget⟩

/-- `A` leads term 1 and its no-op has reached `B`. -/
def leadA : List Event :=
  standA ++ [.act (.finishElection "A"), .act (.startReplicate "A" "B"), .act (.deliver 0)]

theorem log_matching_three : ∃ tr s e e', PlainRun three State.init tr s ∧
    (s.node "A").log.getEntry 1 = some e ∧ (s.node "B").log.getEntry 1 = some e' ∧
    e.term = e'.term ∧ ∀ m ≤ 1, ∃ x, (s.node "A").log.getEntry m = some x ∧
      (s.node "B").log.getEntry m = some x := by
  obtain ⟨s, hs, h⟩ := (Option.any_eq_true _ _).mp
    (show (exec (Event.step three) (fun s ev => ev.Plain three s) State.init leadA).any (fun s =>
      ((s.node "A").log.getEntry 1).any fun e => ((s.node "B").log.getEntry 1).any fun e' =>
        e.term = e'.term) = true by decide +kernel)
  obtain ⟨e, he, h⟩ := (Option.any_eq_true _ _).mp h
  obtain ⟨e', he', h⟩ := (Option.any_eq_true _ _).mp h
  have ht := of_decide_eq_true h
  have run := runs_of_exec hs
  exact ⟨_, s, e, e', run, he, he', ht, log_matching three_fullMesh run he he' ht⟩

/-! ## What a leader commits is chosen -/

/-- When the second half of `ReplicateToPeer` raises the commit index, the node is leader and
    the search of `AdvanceCommitIndex` found the new index. -/
theorem finishReplicate_commit {cfg : RaftConfig} {call : ReplicateCall}
    {resp : AppendEntriesResponse}
    (h : n.commitIndex < (n.finishReplicate cfg call resp).commitIndex) :
    ∃ n₁ m, n₁.role = .Leader ∧ n₁.log = n.log ∧ n₁.currentTerm = n.currentTerm ∧
      RaftNode.findCommit cfg n₁ n.log.lastIndex = some m ∧
      n.finishReplicate cfg call resp = { n₁ with commitIndex := m } := by
  have h' := finished cfg n call resp
  generalize n.finishReplicate cfg call resp = out at h h' ⊢
  cases h' with
  | newer _ | dropped _ _ | failure _ _ _ => exact absurd h (Nat.lt_irrefl _)
  | success hr _ _ =>
    rw [advanceCommitIndex_eq] at h ⊢
    cases hm : RaftNode.findCommit cfg (recorded n call) (recorded n call).log.lastIndex with
    | none =>
      rw [hm] at h
      exact absurd h (Nat.lt_irrefl _)
    | some m => exact ⟨recorded n call, m, hr, rfl, rfl, hm, rfl⟩

/-- What a leader counts as replicated to a quorum, in its own term, is chosen. -/
theorem NodeOk.chosen (hc : c.FullMesh) (inv : Inv (raft c) a) (h : NodeOk c a i n)
    (hi : i ∈ c.ids) (hr : n.role = .Leader) {m : Nat} (hm : m ≤ n.log.lastIndex)
    (hterm : n.log.getTerm m = n.currentTerm)
    (hcount : RaftNode.quorumSize (c.config i) ≤ n.replicated m) :
    Chosen (raft c) a n.currentTerm m := by
  have hs := h.shaped inv
  have hlog := h.leaderLog inv hr
  have hlt := hs.le_lastIndex_iff.mp hm
  have hget := List.getElem?_eq_getElem hlt
  refine ⟨⟨_, by rw [hlog]; exact hget, (hs.getTerm_eq hget).symm.trans hterm⟩, ?_⟩
  -- the peers that count, as a set; the map has each of them once
  let ps := (n.matchIndex.entries.filter (fun e => m ≤ e.2)).map Sigma.fst
  have hps : ∀ p ∈ ps, ∃ k, n.matchIndex.lookup p = some k ∧ m ≤ k := by
    intro p hp
    obtain ⟨⟨q, k⟩, hq, rfl⟩ := List.mem_map.mp hp
    obtain ⟨hmem, hk⟩ := List.mem_filter.mp hq
    exact ⟨k, AList.mem_lookup_iff.mpr hmem, of_decide_eq_true hk⟩
  have hpeer : ∀ p ∈ ps, p ∈ c.peers i := by
    intro p hp
    obtain ⟨k, hk, -⟩ := hps p hp
    exact h.keys p (AList.lookup_isSome.mp (by rw [hk]; rfl))
  have hnodup : ps.Nodup :=
    List.Nodup.sublist (List.filter_sublist.map _) n.matchIndex.nodupKeys
  have hcard : ps.toFinset.card = (n.matchIndex.entries.filter (fun e => m ≤ e.2)).length := by
    rw [List.toFinset_card_of_nodup hnodup, List.length_map]
  have hself : i ∉ ps.toFinset := by
    rw [List.mem_toFinset]
    exact fun hp => (hc.mem_peers hi (hpeer i hp)).2 rfl
  refine ⟨insert i ps.toFinset, ⟨?_, ?_⟩, ?_⟩
  · intro p hp
    rcases Finset.mem_insert.mp hp with rfl | hp
    · exact hi
    · exact (hc.mem_peers hi (hpeer p (List.mem_toFinset.mp hp))).1
  · rw [Finset.card_insert_of_notMem hself, hcard, ← hc.quorumSize_eq hi]
    unfold RaftNode.replicated at hcount
    omega
  · intro p hp
    rcases Finset.mem_insert.mp hp with rfl | hp
    · have := inv.shape.ack_self _ p (h.leader.mp hr)
      rw [hlog] at this
      omega
    · obtain ⟨k, hk, hmk⟩ := hps p (List.mem_toFinset.mp hp)
      exact Nat.le_trans hmk (h.matchIndex hr p k hk)

/-- After a step that commits `m`, the protocol has chosen it, and the committing leader's
    log is the log of its term. -/
theorem Sim.commits (hc : c.FullMesh) (sim' : Sim c s' a') {ev : Event}
    {t m : Nat} (hstep : ev.step c s = some s') (h : ev.Commits c s i t m) :
    Chosen (raft c) a' t m ∧ a'.leaderLog t = (s.node i).log.entries := by
  obtain ⟨⟨k, rfl⟩, hterm, hlt, s'', hs'', hm⟩ := h
  rw [hstep, Option.some.injEq] at hs''
  subst hs''
  obtain ⟨hd⟩ := stepped hstep
  have hok := sim'.nodes i
  cases hd with
  | @finishReplicate _ _ n call resp up open' pkt =>
    simp only [Function.update_self] at hm hok
    rw [up.node] at hterm hlt
    rw [← hm] at hlt
    obtain ⟨n₁, k, hr, hlog, hct, hfind, heq⟩ := finishReplicate_commit hlt
    rw [heq] at hm hok
    have hkm : k = m := hm
    subst hkm
    obtain ⟨hle, -, hgt, hq⟩ := findCommit_spec hfind
    have hch := hok.chosen hc sim'.inv up.mem hr (m := k) (by rw [← hlog] at hle; exact hle)
      hgt hq
    have hll := hok.leaderLog sim'.inv hr
    simp only [hct, hlog, hterm] at hch hll
    exact ⟨hch, by rw [hll, up.node]⟩

/-! ## Leader completeness -/

/-- Every leader of a term from `t` on holds what was chosen in `t`. -/
theorem Sim.leader_holds (sim : Sim c s a) {t m : Nat} (h : Chosen (raft c) a t m)
    (hr : (s.node j).role = .Leader) (ht : t ≤ (s.node j).currentTerm) :
    AgreeUpTo (s.node j).log.entries (a.leaderLog t) m := by
  have hok := sim.nodes j
  rw [← hok.leaderLog sim.inv hr]
  exact sim.inv.chosen h (hok.leader.mp hr) ht

/-- `BecomeLeader` leaves a leader of the candidate's term. -/
theorem becomeLeader_role {ev : Event} {t : Nat} (hplain : ev.Plain c s)
    (hstep : ev.step c s = some s') (h : ev.EntersBecomeLeader c s j t) :
    (s'.node j).role = .Leader ∧ (s'.node j).currentTerm = t := by
  obtain ⟨rfl | ⟨k, rfl⟩, call, hopen, hwins, hterm⟩ := h
  · obtain ⟨hd⟩ := stepped hstep
    cases hd with
    | @finishElection _ n call' up open' pending =>
      rw [up.node] at hopen hwins hterm
      have hcall : call = call' := Option.some.inj (hopen.symm.trans open')
      subst hcall
      simp only [Function.update_self, RaftNode.finishElection, hwins, if_true]
      exact ⟨rfl, hterm⟩
  · exact hplain.elim

/-- **Leader completeness.** If a leader of term `T` sets `commitIndex_` to `n` in
    `AdvanceCommitIndex`, every node that later becomes leader in a term greater than `T` has
    at every index up to `n` the entry that leader had when it committed `n`. -/
theorem leader_completeness (hc : c.FullMesh) {s₁ s₁' s₂ s₂' : State} {ev₁ ev₂ : Event}
    {T n t : Nat} (run₁ : PlainRun c State.init tr s₁) (plain₁ : ev₁.Plain c s₁)
    (step₁ : ev₁.step c s₁ = some s₁') (commits : ev₁.Commits c s₁ i T n)
    (run₂ : PlainRun c s₁' tr' s₂) (plain₂ : ev₂.Plain c s₂)
    (step₂ : ev₂.step c s₂ = some s₂') (leads : ev₂.EntersBecomeLeader c s₂ j t)
    (later : T < t) :
    ∀ m ≤ n, ∃ e, (s₁.node i).log.getEntry m = some e ∧
      (s₂'.node j).log.getEntry m = some e := by
  obtain ⟨a₁, sim₁⟩ := sim_of_run hc run₁
  obtain ⟨a₁', -, sim₁'⟩ := sim₁.step hc plain₁ step₁
  obtain ⟨hchosen, hlog⟩ := sim₁'.commits hc step₁ commits
  obtain ⟨a₂, hg₂, sim₂⟩ := sim₁'.run hc (fun _ _ h => h) run₂
  obtain ⟨a₂', hg₂', sim₂'⟩ := sim₂.step hc plain₂ step₂
  have hg : a₁' ≤ a₂' := le_trans hg₂ hg₂'
  obtain ⟨hr, ht⟩ := becomeLeader_role plain₂ step₂ leads
  have hag := sim₂'.leader_holds (hchosen.mono hg) hr (by omega)
  have hlt : n < (s₁.node i).log.entries.length := by
    rw [← hlog]
    exact hchosen.1.lt
  intro m hm
  have hm' : m < (s₁.node i).log.entries.length := by omega
  have hget := List.getElem?_eq_getElem hm'
  rw [((sim₁.nodes i).shaped sim₁.inv).getEntry_eq,
    ((sim₂'.nodes j).shaped sim₂'.inv).getEntry_eq, hag m hm]
  -- the log of term `T` has only grown since the commit
  obtain ⟨zs, hzs⟩ := hg.leaderLog T
  rw [← hzs, hlog, List.getElem?_append_left hm']
  exact ⟨_, hget, hget⟩

/-- `B` stands in term 2 and is granted both votes. -/
def standB : List Event :=
  [.act (.startElection "B"), .act (.deliver 0), .act (.deliver 0), .act (.recvVote "B" 0),
    .act (.recvVote "B" 0)]

/-- `A` commits its no-op with `B`'s acknowledgement, then `B` becomes leader of term 2. -/
theorem leader_completeness_three : ∃ s₁ s₁' s₂ s₂' : State, ∃ ev₁ ev₂ : Event,
    ev₁.step three s₁ = some s₁' ∧ ev₁.Commits three s₁ "A" 1 1 ∧
    ev₂.step three s₂ = some s₂' ∧ ev₂.EntersBecomeLeader three s₂ "B" 2 ∧
    ∀ m ≤ 1, ∃ e, (s₁.node "A").log.getEntry m = some e ∧
      (s₂'.node "B").log.getEntry m = some e := by
  let P := fun (s : State) (ev : Event) => ev.Plain three s
  let ev₁ := Event.act (.finishReplicate "A" 0)
  let ev₂ := Event.act (.finishElection "B")
  obtain ⟨s₁, hs₁, h⟩ := (Option.any_eq_true _ _).mp
    (show (exec (Event.step three) P State.init leadA).any (fun s₁ =>
      decide (ev₁.Plain three s₁) && decide ((s₁.node "A").currentTerm = 1) &&
      decide ((s₁.node "A").commitIndex < 1) && (ev₁.step three s₁).any fun s₁' =>
        decide ((s₁'.node "A").commitIndex = 1) &&
        (exec (Event.step three) P s₁' standB).any fun s₂ =>
          decide (ev₂.Plain three s₂) && decide ((s₂.node "B").currentTerm = 2) &&
          ((s₂.node "B").election.any fun call => (s₂.node "B").Wins (three.config "B") call) &&
          (ev₂.step three s₂).isSome) = true by decide +kernel)
  simp only [Bool.and_eq_true, decide_eq_true_eq] at h
  obtain ⟨⟨⟨plain₁, hterm₁⟩, hlt⟩, h⟩ := h
  obtain ⟨s₁', hs₁', h⟩ := (Option.any_eq_true _ _).mp h
  simp only [Bool.and_eq_true, decide_eq_true_eq] at h
  obtain ⟨hcommit, h⟩ := h
  obtain ⟨s₂, hs₂, h⟩ := (Option.any_eq_true _ _).mp h
  simp only [Bool.and_eq_true, decide_eq_true_eq] at h
  obtain ⟨⟨⟨plain₂, hterm₂⟩, hwins⟩, hsome⟩ := h
  obtain ⟨s₂', hs₂'⟩ := Option.isSome_iff_exists.mp hsome
  have commits : ev₁.Commits three s₁ "A" 1 1 := ⟨⟨0, rfl⟩, hterm₁, hlt, s₁', hs₁', hcommit⟩
  have leads := entersBecomeLeader_of_wins hwins
  rw [hterm₂] at leads
  exact ⟨s₁, s₁', s₂, s₂', ev₁, ev₂, hs₁', commits, hs₂', leads,
    leader_completeness three_fullMesh (runs_of_exec hs₁) plain₁ hs₁' commits
      (runs_of_exec hs₂) plain₂ hs₂' leads (by omega)⟩

end Proof
end OrcDb
