import OrcDb.Proof.Raft.Elect

/-!
# The cluster can always recover

A leader in the highest term exchanges requests and answers with one peer after the other. The
first exchange brings a peer into the leader's term. From then on the two are `Repairable`, and
what `Proof/Raft/Repair.lean` says of a leader and a peer left alone ends the loop: `matchIndex_`
gets to the end of the leader's log. With the last of the answers the commit rule has moved
`commitIndex_` there, too.

So whatever state a run has come to, it can go on to one in which everybody has the same log
and all of it is committed (`recovers`); and a client can still write (`serves`). The runs are
those without restarts and compaction, and the continuation must not compact either: the logs
have room for what it appends.
-/

set_option autoImplicit false

namespace OrcDb
namespace Proof

open Lib Replicas

variable {c : Cluster} {s s' : State} {i p : String} {n n' : RaftNode}

/-! ## What an exchange leaves -/

/-- A leader that has taken an answer of a term not after its own. -/
structure TookAnswer (n n' : RaftNode) (p : String) : Prop where
  role : n'.role = n.role
  term : n'.currentTerm = n.currentTerm
  log : n'.log = n.log
  idle : n'.replication = none
  proposals : n'.proposals = n.proposals
  others : ∀ q, q ≠ p → n'.matchIndex.at q = n.matchIndex.at q

theorem tookAnswer_finishReplicate (cfg : RaftConfig) (call : ReplicateCall)
    {resp : AppendEntriesResponse} (h : resp.term ≤ n.currentTerm) :
    TookAnswer n (n.finishReplicate cfg call resp) call.peerId := by
  have h' := finished cfg n call resp
  generalize n.finishReplicate cfg call resp = out at h' ⊢
  cases h' with
  | newer hlt => exact absurd h (Nat.not_le.mpr hlt)
  | dropped _ _ => exact ⟨rfl, rfl, rfl, rfl, rfl, fun _ _ => rfl⟩
  | failure _ _ _ => exact ⟨rfl, rfl, rfl, rfl, rfl, fun _ _ => rfl⟩
  | success _ _ _ =>
    rw [advanceCommitIndex_eq]
    exact ⟨rfl, rfl, rfl, rfl, rfl, fun q hq => IndexMap.at_insert_ne _ hq _⟩

/-- Every answer carries the term the peer had before. -/
theorem handleAppendEntries_respTerm (J : Json.Codec) (n : RaftNode) (req : AppendEntriesRequest) :
    (n.handleAppendEntries J req).2.term = n.currentTerm := by
  have h' := handled J n req
  generalize n.handleAppendEntries J req = out at h' ⊢
  cases h' with
  | stale _ => rfl
  | rejected _ hcheck =>
    obtain ⟨-, ⟨-, rfl⟩ | ⟨-, -, rfl⟩⟩ := rejection_cases hcheck
    · rfl
    · rfl
  | accepted _ _ => rfl

theorem handleAppendEntries_newTerm (J : Json.Codec) {req : AppendEntriesRequest}
    (h : n.currentTerm ≤ req.term) :
    (n.handleAppendEntries J req).1.currentTerm = req.term := by
  have h' := handled J n req
  generalize n.handleAppendEntries J req = out at h' ⊢
  cases h' with
  | stale hlt => exact absurd h (Nat.not_le.mpr hlt)
  | rejected hle _ => exact heard_currentTerm hle
  | accepted hle _ =>
    rw [acceptEntries_eq]
    exact heard_currentTerm hle

/-- A request that continues a common beginning leaves a log no longer than one of the two. -/
theorem Kindred.size_le (J : Json.Codec) {F L : RaftLog} (h : Kindred F L)
    {req : AppendEntriesRequest} (hprev : req.prevLogIndex < L.entries.length)
    (hterm : req.prevLogTerm = L.getTerm req.prevLogIndex)
    (hpiece : PieceOf L.entries (req.prevLogIndex + 1) req.entries) (hok : Consistent F req) :
    (F.appendAll J req.entries).1.size ≤ max F.size L.size := by
  have hF := h.follower
  have hL := h.leader
  obtain ⟨hagree, hlen⟩ : AgreeUpTo F.entries L.entries req.prevLogIndex ∧
      req.prevLogIndex < F.entries.length := by
    rcases hok with h0 | ⟨hle, heq⟩
    · rw [h0]
      refine ⟨fun k hk => ?_, hF.length_pos⟩
      rw [Nat.le_zero.mp hk, hF.head, hL.head]
    · have hlt := hF.le_lastIndex_iff.mp hle
      have hf := List.getElem?_eq_getElem hlt
      have hl := List.getElem?_eq_getElem hprev
      refine ⟨h.matching _ _ _ hf hl ?_, hlt⟩
      rw [← hF.getTerm_eq hf, ← hL.getTerm_eq hl, heq, hterm]
  obtain ⟨-, hsame | htake⟩ :=
    appendAll_cases J hF.toShaped hL.toShaped h.matching hpiece hagree hlen
  · rw [hsame]
    exact Nat.le_max_left _ _
  · rw [htake]
    apply Nat.le_trans _ (Nat.le_max_right _ _)
    simp only [RaftLog.size, List.length_take]
    omega

namespace Reigns

variable (hc : c.FullMesh) (h : Live c s) (hr : Reigns c s i) (hp : p ∈ c.peers i)
include hc h hr hp

theorem next : ∃ next, (s.node i).nextIndex.lookup p = some next ∧
    (s.node i).matchIndex.at p < next ∧ next ≤ (s.node i).log.lastIndex + 1 := by
  obtain ⟨tr, run⟩ := h
  exact (leader_view hc run hr.role hp).1

/-- A leader and a peer in its term can be left alone. -/
theorem repairable (hterm : (s.node p).currentTerm = (s.node i).currentTerm) :
    Repairable p (pairOf s i p) := by
  obtain ⟨next, hnext, hlt, hle⟩ := hr.next hc h hp
  have heq : (pairOf s i p).nextIndex p = next := by
    show ((s.node i).nextIndex.lookup p).getD _ = next
    rw [hnext]
    rfl
  refine ⟨h.kindred hc i p, hr.role, hterm, ?_, ?_, ?_, ?_⟩
  · rw [heq]
    omega
  · rw [heq]
    exact hle
  · rw [heq]
    exact hlt
  · intro k hk
    have hF := h.intact hc p
    have hL := h.intact hc i
    show (s.node p).log.entries[k]? = (s.node i).log.entries[k]?
    rcases Nat.eq_zero_or_pos k with rfl | hpos
    · rw [hF.head, hL.head]
    · obtain ⟨tr, run⟩ := h
      obtain ⟨e, hi, hj⟩ := (leader_view hc run hr.role hp).2 hterm k hpos hk
      rw [← hF.getEntry_eq, ← hL.getEntry_eq, hi, hj]

theorem request_eq (cfg : RaftConfig) (id : Nat) : ∃ next, 1 ≤ next ∧
    next ≤ (s.node i).log.lastIndex + 1 ∧ (pairOf s i p).request cfg id p =
      { term := (s.node i).currentTerm, leaderId := cfg.nodeId, prevLogIndex := next - 1,
        prevLogTerm := (s.node i).log.getTerm (next - 1),
        entries := RaftNode.collectEntries (s.node i).log (s.node i).log.lastIndex next 100,
        leaderCommit := (s.node i).commitIndex } := by
  obtain ⟨next, hnext, hlt, hle⟩ := hr.next hc h hp
  refine ⟨next, by omega, hle, ?_⟩
  show ((s.node i).startReplicate cfg id p).2 = _
  unfold RaftNode.startReplicate
  dsimp only
  rw [hnext, Option.getD_some, if_neg (by omega)]

theorem exchange_size (cfg : RaftConfig) (id : Nat) :
    ((pairOf s i p).exchange c.json cfg id p).follower.log.size ≤
      max (s.node p).log.size (s.node i).log.size := by
  obtain ⟨next, hpos, hle, hreq⟩ := hr.request_eq hc h hp cfg id
  have hL := h.intact hc i
  have hsucc : next - 1 + 1 = next := Nat.sub_add_cancel hpos
  rw [Pair.exchange_eq]
  have h' := handled c.json (s.node p) ((pairOf s i p).request cfg id p)
  show ((s.node p).handleAppendEntries c.json ((pairOf s i p).request cfg id p)).1.log.size ≤ _
  generalize (s.node p).handleAppendEntries c.json ((pairOf s i p).request cfg id p) = out at h' ⊢
  cases h' with
  | stale _ => exact Nat.le_max_left _ _
  | rejected _ _ =>
    rw [heard_log]
    exact Nat.le_max_left _ _
  | accepted _ hcheck =>
    rw [acceptEntries_eq]
    show ((heard _ _).log.appendAll _ _).1.size ≤ _
    rw [heard_log]
    apply (h.kindred hc i p).size_le c.json _ _ _ (rejection_eq_none_iff.mp hcheck)
    · rw [hreq]
      show next - 1 < _
      exact hL.le_lastIndex_iff.mp (by omega)
    · rw [hreq]
    · rw [hreq]
      show PieceOf _ (next - 1 + 1) _
      rw [hsucc]
      exact collectEntries_piece hL.toShaped _ 100 _

end Reigns

/-! ## Replicating to everybody -/

/-- `i` reigns with this log, and these calls are waiting in `Propose`. -/
structure Replicates (c : Cluster) (i : String) (n : RaftNode) (s : State) : Prop where
  live : Live c s
  below : Uncompacted c s
  reigns : Reigns c s i
  term : (s.node i).currentTerm = n.currentTerm
  log : (s.node i).log = n.log
  proposals : (s.node i).proposals = n.proposals

/-- `p` is in the leader's term and has acknowledged the whole log. -/
def CaughtUp (i : String) (n : RaftNode) (p : String) (s : State) : Prop :=
  (s.node p).currentTerm = n.currentTerm ∧ (s.node i).matchIndex.at p = n.log.lastIndex

namespace Replicates

/-- One exchange with `p`: it is in the leader's term afterwards, and the others stay where
    they are. -/
theorem can_exchange (hc : c.FullMesh) (h : Replicates c i n s) (hp : p ∈ c.peers i) :
    CanReach c (fun s' => Replicates c i n s' ∧ (s'.node p).currentTerm = n.currentTerm ∧
      (∀ q, q ≠ p → CaughtUp i n q s → CaughtUp i n q s') ∧
      ∃ id, pairOf s' i p = (pairOf s i p).exchange c.json (c.config i) id p) s := by
  have hr := h.reigns
  obtain ⟨hmem, hne⟩ := hc.mem_peers hr.mem hp
  have hup := h.live.up hc hr.mem
  have hupp := h.live.up hc hmem
  have hsize : ((pairOf s i p).exchange c.json (c.config i) s.nextCall p).follower.log.size ≤
      c.snapshotThreshold :=
    Nat.le_trans (hr.exchange_size hc h.live hp _ _)
      (Nat.max_le.mpr ⟨h.below p hmem, h.below i hr.mem⟩)
  have hcan := Proof.can_exchange hup hupp hne hp hr.role hr.idle h.below hsize
  apply (h.live.can hcan).mono
  rintro s' ⟨hlive, hnode, -⟩
  have hle := hr.top p hmem
  -- the leader has taken an answer of a term not after its own
  have hanswer : TookAnswer (s.node i)
      ((pairOf s i p).exchange c.json (c.config i) s.nextCall p).leader p := by
    rw [Pair.exchange_eq]
    obtain ⟨h₁, h₂, h₃, h₄, h₅, h₆⟩ := tookAnswer_finishReplicate
      (n := ((s.node i).startReplicate (c.config i) s.nextCall p).1) (c.config i)
      { id := s.nextCall, peerId := p, term := (s.node i).currentTerm,
        prevIndex := ((pairOf s i p).request (c.config i) s.nextCall p).prevLogIndex,
        count := ((pairOf s i p).request (c.config i) s.nextCall p).entries.length }
      (show ((pairOf s i p).answer c.json (c.config i) s.nextCall p).term ≤ _ by
        rw [Pair.answer, handleAppendEntries_respTerm]
        exact hle)
    exact ⟨h₁, h₂, h₃, h₄, h₅, h₆⟩
  have hfollower : ((pairOf s i p).exchange c.json (c.config i) s.nextCall p).follower.currentTerm =
      (s.node i).currentTerm := handleAppendEntries_newTerm c.json hle
  have hi' : s'.node i = ((pairOf s i p).exchange c.json (c.config i) s.nextCall p).leader := by
    rw [hnode, Function.update_self]
  have hp' : s'.node p = ((pairOf s i p).exchange c.json (c.config i) s.nextCall p).follower := by
    rw [hnode, Function.update_of_ne hne, Function.update_self]
  have hother : ∀ q, q ≠ i → q ≠ p → s'.node q = s.node q := by
    intro q hqi hqp
    rw [hnode, Function.update_of_ne hqi, Function.update_of_ne hqp]
  refine ⟨⟨hlive, fun q hq => ?_, ⟨hr.mem, ?_, ?_, fun q hq => ?_⟩, ?_, ?_, ?_⟩, ?_, ?_, ?_⟩
  · by_cases hqi : q = i
    · rw [hqi, hi', hanswer.log]
      exact h.below i hr.mem
    · by_cases hqp : q = p
      · rw [hqp, hp']
        exact hsize
      · rw [hother q hqi hqp]
        exact h.below q hq
  · rw [hi', hanswer.role]
    exact hr.role
  · rw [hi']
    exact hanswer.idle
  · rw [hi', hanswer.term]
    by_cases hqi : q = i
    · rw [hqi, hi', hanswer.term]
    · by_cases hqp : q = p
      · rw [hqp, hp', hfollower]
      · rw [hother q hqi hqp]
        exact hr.top q hq
  · rw [hi', hanswer.term]
    exact h.term
  · rw [hi', hanswer.log]
    exact h.log
  · rw [hi', hanswer.proposals]
    exact h.proposals
  · rw [hp', hfollower]
    exact h.term
  · rintro q hqp ⟨hterm, hmatch⟩
    refine ⟨?_, ?_⟩
    · by_cases hqi : q = i
      · rw [hqi, hi', hanswer.term]
        exact h.term
      · rw [hother q hqi hqp]
        exact hterm
    · rw [hi', hanswer.others q hqp]
      exact hmatch
  · refine ⟨s.nextCall, ?_⟩
    rw [pairOf, hi', hp']

/-- Something is missing as long as `matchIndex_` is not at the end. -/
theorem distance_pos (h : Replicates c i n s) (hrep : Repairable p (pairOf s i p))
    (hbehind : (s.node i).matchIndex.at p ≠ n.log.lastIndex) :
    0 < (pairOf s i p).distance p := by
  have hlt : (s.node i).matchIndex.at p < (pairOf s i p).nextIndex p := hrep.match_lt
  have hle : (pairOf s i p).nextIndex p ≤ (s.node i).log.lastIndex + 1 := hrep.next_le
  rw [h.log] at hle
  show 0 < (s.node i).log.lastIndex - (s.node i).matchIndex.at p +
    ((pairOf s i p).nextIndex p - 1 - (s.node i).matchIndex.at p)
  rw [h.log]
  omega

/-- A peer can be brought to the end of the leader's log. -/
theorem can_catchUp (hc : c.FullMesh) (h : Replicates c i n s) (hp : p ∈ c.peers i) :
    CanReach c (fun s' => Replicates c i n s' ∧ CaughtUp i n p s' ∧
      ∀ q, CaughtUp i n q s → CaughtUp i n q s') s := by
  apply (h.can_exchange hc hp).bind
  rintro s₁ ⟨h₁, hterm₁, hkeep₁, -⟩
  -- from here on the distance falls with every exchange
  have hloop : CanReach c (fun s' => (Replicates c i n s' ∧
      (s'.node p).currentTerm = n.currentTerm ∧
      ∀ q, q ≠ p → CaughtUp i n q s → CaughtUp i n q s') ∧ CaughtUp i n p s') s₁ := by
    refine Can.descend (fun s' => (pairOf s' i p).distance p) ?_ ⟨h₁, hterm₁, hkeep₁⟩
    rintro s₂ ⟨h₂, hterm₂, hkeep₂⟩ hbehind
    have hrep := h₂.reigns.repairable hc h₂.live hp (hterm₂.trans h₂.term.symm)
    have hpos := h₂.distance_pos hrep fun heq => hbehind ⟨hterm₂, heq⟩
    apply (h₂.can_exchange hc hp).mono
    rintro s₃ ⟨h₃, hterm₃, hkeep₃, id, hpair⟩
    refine ⟨⟨h₃, hterm₃, fun q hqp hq => hkeep₃ q hqp (hkeep₂ q hqp hq)⟩, ?_⟩
    have hdist := hrep.distance_exchange c.json (c.config i) id
    rw [← hpair] at hdist
    omega
  apply hloop.mono
  rintro s' ⟨⟨h', -, hkeep'⟩, hdone⟩
  refine ⟨h', hdone, fun q hq => ?_⟩
  by_cases hqp : q = p
  · rw [hqp]
    exact hdone
  · exact hkeep' q hqp hq

/-- **All peers can be brought to the end of the leader's log.** -/
theorem can_finish (hc : c.FullMesh) (h : Replicates c i n s) :
    CanReach c (fun s' => Replicates c i n s' ∧ ∀ p ∈ c.peers i, CaughtUp i n p s') s :=
  Can.each (fun _ hp _ hs => hs.can_catchUp hc hp) h

/-- What the commit rule then has done. -/
theorem committed (hc : c.FullMesh) (htwo : 2 ≤ c.ids.length) (h : Replicates c i n s)
    (hdone : ∀ p ∈ c.peers i, CaughtUp i n p s) :
    (s.node i).log.lastIndex ≤ (s.node i).commitIndex := by
  have hr := h.reigns
  have hL := h.live.intact hc i
  obtain ⟨tr, run⟩ := h.live
  obtain ⟨⟨a, sim⟩, hcurrent⟩ := current_run hc htwo run
  by_contra hlt
  have hterm : (s.node i).log.getTerm (s.node i).log.lastIndex = (s.node i).currentTerm := by
    rw [hL.getTerm_eq hL.entry_lastIndex]
    exact h.live.endsInTerm hc i hr.role
  have hcount := hcurrent i hr.role _ (Nat.le_refl _) (Nat.lt_of_not_le hlt) hterm
  rw [replicated_eq_holders (c.config i) (sim.nodes i).keys (hc.peers_nodup hr.mem) (by omega)]
    at hcount
  have hall : ((c.config i).peers.filter fun p =>
      (s.node i).log.lastIndex ≤ (s.node i).matchIndex.at p) = c.peers i := by
    apply List.filter_eq_self.mpr
    intro p hp
    rw [(hdone p hp).2, h.log]
    exact decide_eq_true (Nat.le_refl _)
  rw [holders, hall] at hcount
  have hquorum : RaftNode.quorumSize (c.config i) = ((c.peers i).length + 1) / 2 + 1 := rfl
  omega

/-- And the logs are the same. -/
theorem agree (hc : c.FullMesh) (h : Replicates c i n s)
    (hdone : ∀ p ∈ c.peers i, CaughtUp i n p s) {j : String} (hj : j ∈ c.ids) :
    (s.node j).currentTerm = (s.node i).currentTerm ∧
      ∀ k ≤ (s.node i).log.lastIndex,
        (s.node j).log.getEntry k = (s.node i).log.getEntry k := by
  have hr := h.reigns
  by_cases hji : j = i
  · rw [hji]
    exact ⟨rfl, fun _ _ => rfl⟩
  · have hp := mem_peers_of_ne hc hr.mem hj hji
    obtain ⟨hterm, hmatch⟩ := hdone j hp
    have hsame : (s.node j).currentTerm = (s.node i).currentTerm := hterm.trans h.term.symm
    have hrep := hr.repairable hc h.live hp hsame
    refine ⟨hsame, fun k hk => ?_⟩
    rw [(h.live.intact hc j).getEntry_eq, (h.live.intact hc i).getEntry_eq]
    apply hrep.agree k
    show k ≤ (s.node i).matchIndex.at j
    rw [hmatch, ← h.log]
    exact hk

end Replicates

/-- **The cluster can always recover.** From every state of every run of a full mesh without
    restarts and compaction in which every log has room for two more entries below the snapshot
    threshold, it can go on to one in which a node leads, everybody is in its term and has its
    log, and all of that log is committed; the log has only grown. -/
theorem recovers (hc : c.FullMesh) (htwo : 2 ≤ c.ids.length) {tr : List (State × Event)}
    (run : PlainRun c State.init tr s)
    (hroom : ∀ j ∈ c.ids, (s.node j).log.size + 2 ≤ c.snapshotThreshold) :
    ∃ tr' s' i, PlainRun c s tr' s' ∧ i ∈ c.ids ∧ (s'.node i).role = .Leader ∧
      (s.node i).log.entries <+: (s'.node i).log.entries ∧
      (s'.node i).log.lastIndex ≤ (s'.node i).commitIndex ∧
      ∀ j ∈ c.ids, (s'.node j).currentTerm = (s'.node i).currentTerm ∧
        ∀ k ≤ (s'.node i).log.lastIndex,
          (s'.node j).log.getEntry k = (s'.node i).log.getEntry k := by
  have h : Live c s := ⟨tr, run⟩
  obtain ⟨i, hreign⟩ := can_reign hc htwo h hroom
  have hcan : CanReach c (fun s' => ∃ n, (s.node i).log.entries <+: n.log.entries ∧
      Replicates c i n s' ∧ ∀ p ∈ c.peers i, CaughtUp i n p s') s := by
    apply (h.can hreign).bind
    rintro s₁ ⟨hlive, hbelow, hreigns, hbegins, -⟩
    have hstart : Replicates c i (s₁.node i) s₁ := ⟨hlive, hbelow, hreigns, rfl, rfl, rfl⟩
    apply (hstart.can_finish hc).mono
    rintro s₂ ⟨hrep, hdone⟩
    exact ⟨s₁.node i, hbegins, hrep, hdone⟩
  obtain ⟨tr', s', run', n, hbegins, hrep, hdone⟩ := hcan
  refine ⟨tr', s', i, run', hrep.reigns.mem, hrep.reigns.role, ?_, hrep.committed hc htwo hdone,
    fun j hj => hrep.agree hc hdone hj⟩
  rw [hrep.log]
  exact hbegins

/-- `A` leads in term 1 and has replicated nothing; `B` and `C` stand against each other in
    term 2. -/
def splitABC : List Event :=
  standA ++ [.act (.finishElection "A"), .act (.startElection "B"), .act (.startElection "C")]

theorem recovers_three : ∃ tr s, PlainRun three State.init tr s ∧
    ((s.node "A").role = .Leader ∧ (s.node "B").role = .Candidate ∧
      (s.node "C").role = .Candidate) ∧
    ∃ tr' s' i, PlainRun three s tr' s' ∧ i ∈ three.ids ∧ (s'.node i).role = .Leader ∧
      (s.node i).log.entries <+: (s'.node i).log.entries ∧
      (s'.node i).log.lastIndex ≤ (s'.node i).commitIndex ∧
      ∀ j ∈ three.ids, (s'.node j).currentTerm = (s'.node i).currentTerm ∧
        ∀ k ≤ (s'.node i).log.lastIndex,
          (s'.node j).log.getEntry k = (s'.node i).log.getEntry k := by
  obtain ⟨s, hs, hok⟩ := (Option.any_eq_true _ _).mp
    (show (exec (Event.step three) (fun s ev => ev.Plain three s) State.init splitABC).any (fun s =>
      decide (((s.node "A").role = .Leader ∧ (s.node "B").role = .Candidate ∧
          (s.node "C").role = .Candidate) ∧
        ∀ j ∈ three.ids, (s.node j).log.size + 2 ≤ three.snapshotThreshold)) = true by
      decide +kernel)
  have hok := of_decide_eq_true hok
  have run : PlainRun three State.init _ s := runs_of_exec hs
  exact ⟨_, s, run, hok.1, recovers three_fullMesh (by decide) run hok.2⟩

end Proof
end OrcDb
