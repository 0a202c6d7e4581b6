import OrcDb.Proof.Raft.Safety

/-!
# A leader commits as far as it may

`AdvanceCommitIndex` is called in one place, after an acknowledgement. What else could create
a majority is a new leader and a new entry, and both come with a count of one: `BecomeLeader`
sets every `matchIndex_` to 0, and an entry that was just appended lies behind every
`matchIndex_`. So nothing is missed where one is not a majority (`Current`, kept by every
section), and in a cluster of a single node everything is (`commit_rule_iff`).
-/

set_option autoImplicit false

namespace OrcDb
namespace Proof

open Lib Replicas

variable {c : Cluster} {s s' : State} {a a' : Replicas String LogEntry} {i : String}
  {n n' : RaftNode} {cfg : RaftConfig}

/-! ## The rule -/

/-- The leader itself and the peers whose `matchIndex_` has come to `k`. -/
def holders (cfg : RaftConfig) (n : RaftNode) (k : Nat) : Nat :=
  1 + (cfg.peers.filter fun p => k ≤ n.matchIndex.at p).length

/-- `k` is of the current term and on a quorum. -/
def Committable (cfg : RaftConfig) (n : RaftNode) (k : Nat) : Prop :=
  n.log.getTerm k = n.currentTerm ∧ RaftNode.quorumSize cfg ≤ holders cfg n k

instance (cfg : RaftConfig) (n : RaftNode) (k : Nat) : Decidable (Committable cfg n k) :=
  inferInstanceAs (Decidable (_ ∧ _))

theorem mem_filter_entries {m : IndexMap} {k : Nat} {p : String} :
    p ∈ (m.entries.filter fun e => k ≤ e.2).map Sigma.fst ↔ ∃ v, m.lookup p = some v ∧ k ≤ v := by
  rw [List.mem_map]
  constructor
  · rintro ⟨⟨q, v⟩, hq, rfl⟩
    obtain ⟨hmem, hk⟩ := List.mem_filter.mp hq
    exact ⟨v, AList.mem_lookup_iff.mpr hmem, of_decide_eq_true hk⟩
  · rintro ⟨v, hv, hk⟩
    exact ⟨⟨p, v⟩, List.mem_filter.mpr ⟨AList.mem_lookup_iff.mp hv, decide_eq_true hk⟩, rfl⟩

/-- The code counts the entries of the map, which are the peers. -/
theorem replicated_eq_holders (cfg : RaftConfig) (hkeys : ∀ p ∈ n.matchIndex, p ∈ cfg.peers)
    (hnodup : cfg.peers.Nodup) {k : Nat} (hk : 0 < k) : n.replicated k = holders cfg n k := by
  have hperm : ((n.matchIndex.entries.filter fun e => k ≤ e.2).map Sigma.fst).Perm
      (cfg.peers.filter fun p => k ≤ n.matchIndex.at p) := by
    rw [List.perm_ext_iff_of_nodup
      (List.Nodup.sublist (List.filter_sublist.map _) n.matchIndex.nodupKeys) (hnodup.filter _)]
    intro p
    rw [mem_filter_entries, List.mem_filter, decide_eq_true_eq, IndexMap.at]
    constructor
    · rintro ⟨v, hv, hkv⟩
      refine ⟨hkeys p (AList.lookup_isSome.mp (by rw [hv]; rfl)), ?_⟩
      rw [hv]
      exact hkv
    · rintro ⟨-, hat⟩
      cases hv : n.matchIndex.lookup p with
      | none =>
        rw [hv] at hat
        exact absurd hat (Nat.not_le.mpr hk)
      | some v =>
        rw [hv] at hat
        exact ⟨v, rfl, hat⟩
  rw [RaftNode.replicated, holders, ← hperm.length_eq, List.length_map]

/-- Behind every `matchIndex_` the leader is alone. -/
theorem replicated_eq_one {k : Nat} (h : ∀ p v, n.matchIndex.lookup p = some v → v < k) :
    n.replicated k = 1 := by
  have hnil : n.matchIndex.entries.filter (fun e => k ≤ e.2) = [] := by
    rw [List.filter_eq_nil_iff]
    rintro ⟨p, v⟩ hmem
    rw [decide_eq_true_eq]
    exact Nat.not_le.mpr (h p v (AList.mem_lookup_iff.mpr hmem))
  rw [RaftNode.replicated, hnil]
  rfl

/-- The search starts at the end of the log, so it stops at the last index there is. -/
theorem findCommit_last {m : Nat} : ∀ k,
    (RaftNode.findCommit cfg n k).getD n.commitIndex < m → m ≤ k →
    n.log.getTerm m = n.currentTerm → n.replicated m < RaftNode.quorumSize cfg := by
  intro k
  induction k with
  | zero =>
    intro hlt hle
    exact absurd hle (by omega)
  | succ k ih =>
    intro hlt hle hterm
    rw [RaftNode.findCommit] at hlt
    split at hlt
    · split at hlt
      · exact absurd hlt (by rw [Option.getD_some]; omega)
      · rename_i hc
        rcases Nat.lt_or_ge k m with hkm | hmk
        · obtain rfl : m = k + 1 := by omega
          exact Nat.lt_of_not_le fun hq => hc ⟨hterm, hq⟩
        · exact ih hlt hmk hterm
    · rename_i hc
      exact absurd hlt (by rw [Option.getD_none]; omega)

/-! ## What every section keeps -/

/-- A leader has nothing left to commit in its log. -/
def Current (cfg : RaftConfig) (n : RaftNode) : Prop :=
  n.role = .Leader → ∀ k ≤ n.log.lastIndex, n.commitIndex < k →
    n.log.getTerm k = n.currentTerm → n.replicated k < RaftNode.quorumSize cfg

namespace Current

theorem of_not_leader (h : n.role ≠ .Leader) : Current cfg n := fun hr => absurd hr h

/-- It depends on these fields only. -/
theorem congr (h : Current cfg n) (hrole : n'.role = n.role) (hlog : n'.log = n.log)
    (hterm : n'.currentTerm = n.currentTerm) (hcommit : n'.commitIndex = n.commitIndex)
    (hmatch : n'.matchIndex = n.matchIndex) : Current cfg n' := by
  unfold Current RaftNode.replicated at *
  rw [hrole, hlog, hterm, hcommit, hmatch]
  exact h

/-- After the search, whatever was there before. -/
theorem advanceCommitIndex (cfg : RaftConfig) (n : RaftNode) :
    Current cfg (RaftNode.advanceCommitIndex cfg n) := by
  rw [advanceCommitIndex_eq]
  exact fun _ k hk hlt hterm => findCommit_last (n := n) n.log.lastIndex hlt hk hterm

theorem finishReplicate (h : Current cfg n) (call : ReplicateCall)
    (resp : AppendEntriesResponse) : Current cfg (n.finishReplicate cfg call resp) := by
  have h' := finished cfg n call resp
  generalize n.finishReplicate cfg call resp = out at h' ⊢
  cases h' with
  | newer _ => exact of_not_leader (by simp [RaftNode.becomeFollower, RaftNode.persistHardState])
  | success _ _ _ => exact advanceCommitIndex cfg (recorded n call)
  | dropped _ _ | failure _ _ _ => exact h.congr rfl rfl rfl rfl rfl

theorem recvVote (h : Current cfg n) (call : ElectionCall) (resp : RequestVoteResponse) :
    Current cfg (n.recvVote call resp) := by
  have h' := voteAnswered n call resp
  generalize n.recvVote call resp = out at h' ⊢
  cases h' with
  | newer _ => exact of_not_leader (by simp [RaftNode.becomeFollower, RaftNode.persistHardState])
  | vote _ _ _ _ | other _ _ => exact h.congr rfl rfl rfl rfl rfl

theorem adoptTerm (h : Current cfg n) (t : Nat) (leaderId : String) :
    Current cfg (n.adoptTerm t leaderId) := by
  unfold RaftNode.adoptTerm
  split
  · exact of_not_leader (by simp [RaftNode.becomeFollower, RaftNode.persistHardState])
  · exact h

theorem handleRequestVote (h : Current cfg n) (req : RequestVoteRequest) :
    Current cfg (n.handleRequestVote req).1 := by
  have h' := voteHandled n req
  generalize n.handleRequestVote req = out at h' ⊢
  cases h' with
  | stale _ => exact h
  | granted _ _ => exact (h.adoptTerm req.term "").congr rfl rfl rfl rfl rfl
  | denied _ _ => exact h.adoptTerm req.term ""

/-- Only a leader of a later term is heard by a leader. -/
theorem handleAppendEntries (h : Current cfg n) {req : AppendEntriesRequest}
    (hother : n.role = .Leader → n.currentTerm ≠ req.term) (J : Json.Codec) :
    Current cfg (n.handleAppendEntries J req).1 := by
  have hrole : n.currentTerm ≤ req.term → (heard n req).role ≠ .Leader := by
    intro hle
    rcases Nat.eq_or_lt_of_le hle with heq | hlt
    · rw [heard_of_eq heq]
      exact fun hr => hother hr heq
    · rw [heard_of_lt hlt]
      simp
  have h' := handled J n req
  generalize n.handleAppendEntries J req = out at h' ⊢
  cases h' with
  | stale _ => exact h
  | rejected hle _ => exact of_not_leader (hrole hle)
  | accepted hle _ =>
    refine of_not_leader ?_
    rw [acceptEntries_eq]
    exact hrole hle

/-- A new entry lies behind every `matchIndex_`. -/
theorem appendLog (h : Current cfg n) (hs : Shaped n.log) {e : LogEntry}
    (he : e.index = n.log.lastIndex + 1) (hquorum : 1 < RaftNode.quorumSize cfg)
    (hbound : ∀ p v, n.matchIndex.lookup p = some v → v ≤ n.log.lastIndex) (J : Json.Codec) :
    Current cfg (n.appendLog J e) := by
  intro hr k hk hlt hterm
  rcases Nat.lt_or_ge n.log.lastIndex k with hnew | hold
  · have hone : (n.appendLog J e).replicated k = 1 :=
      replicated_eq_one fun p v hv => Nat.lt_of_le_of_lt (hbound p v hv) hnew
    omega
  · have hget := List.getElem?_eq_getElem (hs.le_lastIndex_iff.mp hold)
    refine h hr k hold hlt ?_
    rw [hs.getTerm_eq hget, ← (hs.append e he J).getTerm_eq]
    · exact hterm
    · rw [RaftLog.append, List.getElem?_append_left (hs.le_lastIndex_iff.mp hold), hget]

/-- A new leader has acknowledged nothing to itself. -/
theorem becomeLeader (hs : Shaped n.log) (hkeys : ∀ p ∈ n.matchIndex, p ∈ cfg.peers)
    (hquorum : 1 < RaftNode.quorumSize cfg) (J : Json.Codec) :
    Current cfg (n.becomeLeader J cfg) := by
  have hzero : ∀ p v,
      (cfg.peers.foldl (fun m p => m.insert p 0) n.matchIndex).lookup p = some v → v = 0 :=
    fun _ _ hv => eq_of_lookup_foldl_insert hkeys hv
  let n₁ : RaftNode :=
    { n with
      role := .Leader, leaderId := cfg.nodeId
      nextIndex := cfg.peers.foldl (fun m p => m.insert p (n.log.lastIndex + 1)) n.nextIndex
      matchIndex := cfg.peers.foldl (fun m p => m.insert p 0) n.matchIndex }
  have h₁ : Current cfg n₁ := by
    intro _ k _ hlt _
    rw [replicated_eq_one fun p v hv => by rw [hzero p v hv]; omega]
    exact hquorum
  exact h₁.appendLog (n := n₁) hs (e := LogEntry.noOp J n.currentTerm (n.log.lastIndex + 1)) rfl
    hquorum (fun p v hv => by rw [hzero p v hv]; exact Nat.zero_le _) J

end Current

/-- What a leader believes of a peer lies in its own log. -/
theorem NodeOk.matchIndex_le (inv : Inv (raft c) a) (h : NodeOk c a i n) (hr : n.role = .Leader)
    {p : String} {v : Nat} (hv : n.matchIndex.lookup p = some v) : v ≤ n.log.lastIndex := by
  have hs := h.shaped inv
  have hack := h.matchIndex hr p v hv
  rcases inv.shape.ack_lt n.currentTerm p with h0 | hlt
  · omega
  · rw [h.leaderLog inv hr] at hlt
    exact hs.le_lastIndex_iff.mpr (Nat.lt_of_le_of_lt hack hlt)

theorem one_lt_quorumSize (hc : c.FullMesh) (hi : i ∈ c.ids)
    (htwo : 2 ≤ c.ids.length) : 1 < RaftNode.quorumSize (c.config i) := by
  rw [hc.quorumSize_eq hi]
  omega

/-- **The step lemma**, section by section. -/
theorem Does.current (hc : c.FullMesh) (htwo : 2 ≤ c.ids.length) (sim : Sim c s a) {act : Action}
    {e : Effect} (hd : Does c s act e)
    (hsmall : ∀ i ∈ c.ids, (s.node i).log.size ≤ c.snapshotThreshold)
    (h : Current (c.config e.actor) (s.node e.actor)) : Current (c.config e.actor) e.node := by
  have inv := sim.inv
  cases hd with
  | @startElection i n up idle role =>
    exact .of_not_leader (by simp [RaftNode.startElection, RaftNode.persistHardState])
  | @recvVote i p k n call rest resp up open' pending pkt =>
    rw [up.node] at h
    exact h.recvVote call resp
  | @skipVote i n call up open' pending =>
    rw [up.node] at h
    exact h.congr rfl rfl rfl rfl rfl
  | @finishElection i n call up open' pending =>
    rw [up.node] at h
    have hok := sim.node up
    unfold RaftNode.finishElection
    dsimp only
    split
    · have hshaped : Shaped n.log := hok.shaped inv
      exact .becomeLeader (n := { n with election := none }) hshaped hok.keys
        (one_lt_quorumSize hc up.mem htwo) c.json
    · exact h.congr rfl rfl rfl rfl rfl
  | @startReplicate i peer n up idle role peer_mem =>
    rw [up.node] at h
    exact h.congr rfl rfl rfl rfl rfl
  | @finishReplicate i k n call resp up open' pkt =>
    rw [up.node] at h
    exact h.finishReplicate call resp
  | @abandonReplicate i n call up open' =>
    rw [up.node] at h
    exact h.congr rfl rfl rfl rfl rfl
  | @handleRequestVote src i id k n req up pkt =>
    rw [up.node] at h
    exact h.handleRequestVote req
  | @handleAppendEntries src i id k n req up pkt =>
    rw [up.node] at h
    have hok := sim.node up
    obtain ⟨hne, hreq, -⟩ := sim.packets _ (List.mem_of_getElem? pkt)
    refine h.handleAppendEntries (fun hr hterm => hne ?_) c.json
    have hleader := hok.leader.mp hr
    rw [hterm, hreq.leader] at hleader
    exact Option.some.inj hleader
  | @propose i key value op ttlMs n up =>
    rw [up.node] at h
    have hok := sim.node up
    unfold RaftNode.propose
    split
    · exact h
    · rename_i hr
      have hlead : n.role = .Leader := not_not.mp hr
      exact (h.appendLog (hok.shaped inv) rfl (one_lt_quorumSize hc up.mem htwo)
        (fun p v hv => hok.matchIndex_le inv hlead hv) c.json).congr rfl rfl rfl rfl rfl
  | @wakePropose i id deadline n call result up found outcome =>
    rw [up.node] at h
    exact h.congr rfl rfl rfl rfl rfl
  | @beginApply i n e up idle behind entry =>
    rw [up.node] at h
    exact h.congr rfl rfl rfl rfl rfl
  | @endApply i data n next e up busy =>
    have hle := hsmall i up.mem
    rw [up.node] at h hle
    simp only [endApply_of_le (c.config i) hle next data]
    exact h.congr rfl rfl rfl rfl rfl
  | @stallApply i data n up idle behind ends =>
    have hle := hsmall i up.mem
    rw [up.node] at h hle
    simp only [maybeSnapshot_of_le (c.config i) hle data]
    exact h

theorem current_run (hc : c.FullMesh) (htwo : 2 ≤ c.ids.length) {tr : List (State × Event)}
    (run : PlainRun c State.init tr s) :
    (∃ a, Sim c s a) ∧ ∀ i, Current (c.config i) (s.node i) := by
  refine run.invariant (I := fun s => (∃ a, Sim c s a) ∧ ∀ i, Current (c.config i) (s.node i))
    ?_ ⟨⟨_, sim_init c⟩, fun i => .of_not_leader (by simp [State.init])⟩
  rintro s ev s' ⟨⟨a, sim⟩, h⟩ hplain hstep
  obtain ⟨a', -, sim'⟩ := sim.step hc hplain hstep
  refine ⟨⟨a', sim'⟩, ?_⟩
  cases stepped hstep with
  | act hd =>
    exact (Function.forall_update_iff s.node fun i n => Current (c.config i) n).mpr
      ⟨hd.current hc htwo sim hplain (h _), fun i _ => h i⟩
  | drop => exact h
  | stop | stopDuring | restart | stopDuringRestart => exact hplain.elim

/-! ## A single node -/

/-- The only node of a cluster stands for election and wins with its own vote. -/
theorem lone_leader (hi : i ∈ c.ids) (hp : c.peers i = []) :
    ∃ tr s, PlainRun c State.init tr s ∧ (s.node i).role = .Leader ∧
      (s.node i).commitIndex = 0 ∧ Committable (c.config i) (s.node i) 1 := by
  let n₁ : RaftNode := (({} : RaftNode).startElection (c.config i) 0).1
  let s₁ : State :=
    { node := Function.update State.init.node i n₁, network := [], nextCall := 1 }
  let s₂ : State :=
    { node := Function.update s₁.node i
        (n₁.finishElection c.json (c.config i) { id := 0, term := 1, votes := 1, pending := [] })
      network := [], nextCall := 2 }
  have hstep₁ : (Event.act (.startElection i)).step c State.init = some s₁ := by
    simp [Event.step, Action.effect, State.running?, hi, hp, State.init, s₁, n₁]
  have hcall : n₁.election = some { id := 0, term := 1, votes := 1, pending := [] } := by
    simp [n₁, RaftNode.startElection, Cluster.config, hp]
  have hstep₂ : (Event.act (.finishElection i)).step c s₁ = some s₂ := by
    have hup : s₁.running? c i = some n₁ := by
      simp [State.running?, hi, s₁, n₁, RaftNode.startElection, RaftNode.persistHardState]
    simp [Event.step, Action.effect, hup, hcall, s₂, s₁]
  have hwins : n₁.Wins (c.config i) { id := 0, term := 1, votes := 1, pending := [] } := by
    simp [RaftNode.Wins, n₁, RaftNode.startElection, RaftNode.persistHardState,
      RaftNode.quorumSize, Cluster.config, hp]
  have hnode : s₂.node i =
      ({ n₁ with election := none } : RaftNode).becomeLeader c.json (c.config i) := by
    simp only [s₂, Function.update_self, RaftNode.finishElection, hwins, if_true]
  have hsmall : ∀ (s : State) (act : Action), (∀ j, (s.node j).log = RaftLog.empty) →
      (Event.act act).Plain c s := by
    intro s act hs j _
    rw [hs j]
    exact Nat.zero_le _
  have hempty : ∀ j, (s₁.node j).log = RaftLog.empty := by
    intro j
    by_cases hj : j = i
    · subst hj
      simp [s₁, n₁, RaftNode.startElection, RaftNode.persistHardState]
    · simp [s₁, Function.update_of_ne hj, State.init]
  refine ⟨_, s₂, .tail (.tail (.refl _) (hsmall _ _ fun _ => rfl) hstep₁)
    (hsmall _ _ hempty) hstep₂, ?_⟩
  rw [hnode]
  refine ⟨rfl, rfl, rfl, ?_⟩
  have hquorum : RaftNode.quorumSize (c.config i) = 1 := by
    simp [RaftNode.quorumSize, Cluster.config, hp]
  rw [hquorum]
  exact Nat.le_add_right 1 _

/-- What `AdvanceCommitIndex` moves to. -/
theorem Sim.commits_committable (hc : c.FullMesh) (sim' : Sim c s' a') {ev : Event} {t k : Nat}
    (hstep : ev.step c s = some s') (h : ev.Commits c s i t k) :
    Committable (c.config i) (s'.node i) k := by
  obtain ⟨⟨j, rfl⟩, -, hlt, s'', hs'', hk⟩ := h
  rw [hstep, Option.some.injEq] at hs''
  subst hs''
  obtain ⟨hd⟩ := stepped hstep
  have hok := sim'.nodes i
  cases hd with
  | @finishReplicate _ _ n call resp up open' pkt =>
    simp only [Function.update_self] at hk hok ⊢
    rw [up.node] at hlt
    rw [← hk] at hlt
    obtain ⟨n₁, m, -, -, -, hfind, heq⟩ := finishReplicate_commit hlt
    have hpos : 0 < m := Nat.lt_of_le_of_lt (Nat.zero_le _) (findCommit_spec hfind).2.1
    obtain ⟨-, -, hterm, hcount⟩ := findCommit_spec hfind
    rw [heq] at hk hok ⊢
    obtain rfl : m = k := hk
    refine ⟨hterm, ?_⟩
    rw [← replicated_eq_holders (c.config i) hok.keys (hc.peers_nodup up.mem) hpos]
    exact hcount

/-- **How far a leader commits.** In every state of every run, no leader has an index left
    that it could commit, exactly if the cluster is more than one node; and whatever
    `AdvanceCommitIndex` moves `commitIndex_` to could be committed. -/
theorem commit_rule_iff (hc : c.FullMesh) (hne : c.ids ≠ []) :
    ((∀ tr s, PlainRun c State.init tr s → ∀ i ∈ c.ids, (s.node i).role = .Leader →
        ∀ k, (s.node i).commitIndex < k → ¬Committable (c.config i) (s.node i) k) ↔
      2 ≤ c.ids.length) ∧
    ∀ tr s (ev : Event) s' i t k, PlainRun c State.init tr s → ev.Plain c s →
      ev.step c s = some s' → ev.Commits c s i t k → Committable (c.config i) (s'.node i) k := by
  refine ⟨⟨fun hall => ?_, fun htwo tr s run i hi hr k hk hcommit => ?_⟩, ?_⟩
  · by_contra hlt
    obtain ⟨i, hids⟩ : ∃ i, c.ids = [i] := by
      have hlen := List.length_pos_of_ne_nil hne
      exact List.length_eq_one_iff.mp (by omega)
    have hi : i ∈ c.ids := by rw [hids]; exact List.mem_singleton_self i
    have hp : c.peers i = [] := by
      have hperm := hc.peers i hi
      rw [hids, List.erase_cons_head] at hperm
      exact hperm.eq_nil
    obtain ⟨tr, s, run, hr, h0, hcommit⟩ := lone_leader hi hp
    exact hall tr s run i hi hr 1 (by omega) hcommit
  · obtain ⟨⟨a, sim⟩, hcurrent⟩ := current_run hc htwo run
    have hok := sim.nodes i
    have hquorum := one_lt_quorumSize hc hi htwo
    have heq := replicated_eq_holders (c.config i) hok.keys (hc.peers_nodup hi)
      (Nat.lt_of_le_of_lt (Nat.zero_le _) hk)
    have hcount := hcommit.2
    rw [← heq] at hcount
    rcases Nat.lt_or_ge (s.node i).log.lastIndex k with hbeyond | hle
    · have hone := replicated_eq_one fun p v hv =>
        Nat.lt_of_le_of_lt (hok.matchIndex_le sim.inv hr hv) hbeyond
      omega
    · have hfew := hcurrent i hr k hle hk hcommit.1
      omega
  · intro tr s ev s' i t k run hplain hstep hcommits
    obtain ⟨a, sim⟩ := sim_of_run hc run
    obtain ⟨a', -, sim'⟩ := sim.step hc hplain hstep
    exact sim'.commits_committable hc hstep hcommits

theorem commit_rule_iff_three :
    2 ≤ three.ids.length ∧ ∀ tr s, PlainRun three State.init tr s → ∀ i ∈ three.ids,
      (s.node i).role = .Leader → ∀ k, (s.node i).commitIndex < k →
        ¬Committable (three.config i) (s.node i) k :=
  ⟨by decide, (commit_rule_iff three_fullMesh (by decide)).1.mpr (by decide)⟩

/-- The cluster of the API tests. -/
def solo : Cluster where
  ids := ["solo"]
  peers := fun _ => []
  json := Json.text

/-- The node leads, and puts a key: both entries could be committed, and neither is. -/
theorem commit_rule_fails : solo.FullMesh ∧ ∃ tr s, PlainRun solo State.init tr s ∧
    (s.node "solo").role = .Leader ∧ (s.node "solo").commitIndex = 0 ∧
    Committable (solo.config "solo") (s.node "solo") 1 ∧
    Committable (solo.config "solo") (s.node "solo") 2 := by
  refine ⟨⟨by decide, by decide, by decide⟩, ?_⟩
  obtain ⟨s, hs, h⟩ := (Option.any_eq_true _ _).mp
    (show (exec (Event.step solo) (fun s ev => ev.Plain solo s) State.init
        [.act (.startElection "solo"), .act (.finishElection "solo"),
          .act (.propose "solo" "k" "v" .Put 0)]).any (fun s =>
      decide ((s.node "solo").role = .Leader) && decide ((s.node "solo").commitIndex = 0) &&
        decide (Committable (solo.config "solo") (s.node "solo") 1) &&
        decide (Committable (solo.config "solo") (s.node "solo") 2)) = true by decide +kernel)
  simp only [Bool.and_eq_true, decide_eq_true_eq] at h
  exact ⟨_, s, runs_of_exec hs, h.1.1.1, h.1.1.2, h.1.2, h.2⟩

end Proof
end OrcDb
