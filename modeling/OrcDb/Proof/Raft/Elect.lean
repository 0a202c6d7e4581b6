import OrcDb.Lib.Reach
import OrcDb.Proof.Raft.CommitRule
import OrcDb.Proof.Raft.Data
import OrcDb.Proof.Raft.LeaderView
import OrcDb.Proof.Raft.Repair

/-!
# A leader can always be found

Safety says what no run can do. Here is the other side: from every state that a run without
restarts and compaction has reached — whatever packets were lost, whatever elections are half
done — the cluster can go on to one in which a node leads and nobody is in a later term
(`can_reign`).

The node is one whose log no other log is ahead of. It ends its own calls; if it leads already
but not in the highest term, it sends a request to somebody who knows better and steps down;
it stands until its term is above all others, and then collects every vote.

Between these parts nothing is carried but the state itself: what a part needs to know of logs
and terms holds in every state of a run (`Live`).
-/

set_option autoImplicit false

namespace OrcDb
namespace Proof

open Lib Replicas

variable {c : Cluster} {s s' : State} {a : Replicas String LogEntry} {i p : String}
  {n n' : RaftNode}

/-! ## What holds in every state of a run -/

/-- A run without restarts and compaction has come to `s`. -/
def Live (c : Cluster) (s : State) : Prop := ∃ tr, PlainRun c State.init tr s

theorem Live.step {ev : Event} (h : Live c s) (hplain : ev.Plain c s)
    (hstep : ev.step c s = some s') : Live c s' := by
  obtain ⟨tr, run⟩ := h
  exact ⟨_, .tail run hplain hstep⟩

/-- The last entry of a leader is of its own term: `BecomeLeader` appends one at once. -/
def EndsInTerm (n : RaftNode) : Prop := n.role = .Leader → n.log.lastTerm = n.currentTerm

theorem lastTerm_append (J : Json.Codec) (log : RaftLog) (e : LogEntry) :
    (log.append J e).1.lastTerm = e.term := by
  simp [RaftLog.append, RaftLog.lastTerm, RaftLog.back, List.getLastD_eq_getLast?]

theorem lastIndex_append (J : Json.Codec) (log : RaftLog) (e : LogEntry) :
    (log.append J e).1.lastIndex = e.index := by
  simp [RaftLog.append, RaftLog.lastIndex, RaftLog.back, List.getLastD_eq_getLast?]

theorem Does.endsInTerm {act : Action} {e : Effect} (sim : Sim c s a) (hd : Does c s act e)
    (hsmall : ∀ i ∈ c.ids, (s.node i).log.size ≤ c.snapshotThreshold)
    (h : EndsInTerm (s.node e.actor)) : EndsInTerm e.node := by
  intro hr
  have ht := hd.touch hsmall
  have hseen := hd.seen hsmall
  generalize hn : s.node e.actor = n at h ht hseen
  generalize e.node = n' at hr ht hseen ⊢
  cases hseen with
  | lost role => exact absurd hr role
  | elected role => exact lastTerm_append c.json _ _
  | opened => exact h hr
  | accepted role =>
    rw [advanceCommitIndex_eq]
    exact h role
  | refused role => exact h role
  | kept same =>
    have hlead : n.role = .Leader := same.role.symm.trans hr
    rw [same.term]
    cases ht with
    | quiet _ log | commit _ log =>
      rw [log]
      exact h hlead
    | noOp _ _ log =>
      rw [log]
      exact lastTerm_append c.json _ _
    | propose _ _ term =>
      rw [← term]
      exact lastTerm_append c.json _ _
    | @accept src id k req _ _ pkt _ term =>
      -- a leader is not sent requests of its own term
      obtain ⟨hne, hreq, -⟩ := sim.packets _ (List.mem_of_getElem? pkt)
      have hok := sim.nodes e.actor
      rw [hn] at hok
      have hl := hok.leader.mp hlead
      rw [← same.term, term, hreq.leader] at hl
      exact absurd (Option.some.inj hl) hne
    | beginApply | endApply => exact h hlead

namespace Live

variable (hc : c.FullMesh) (h : Live c s)
include hc h

theorem sim : ∃ a, Sim c s a := by
  obtain ⟨tr, run⟩ := h
  exact sim_of_run hc run

theorem up (hi : i ∈ c.ids) : Up c s i (s.node i) := by
  obtain ⟨a, sim⟩ := h.sim hc
  exact ⟨hi, rfl, (sim.nodes i).running⟩

theorem intact (i : String) : Intact (s.node i).log := by
  obtain ⟨a, sim⟩ := h.sim hc
  have hok := sim.nodes i
  exact intact_of_logged sim.inv hok.snapshotIndex hok.snapshotTerm (hok.logged sim.inv)

theorem kindred (i p : String) : Kindred (s.node p).log (s.node i).log := by
  obtain ⟨a, sim⟩ := h.sim hc
  have hi := (sim.nodes i).logged sim.inv
  have hp := (sim.nodes p).logged sim.inv
  exact ⟨h.intact hc p, h.intact hc i, hp.matching hi, hp.sameStarts hi⟩

theorem lastTerm_le (i : String) : (s.node i).log.lastTerm ≤ (s.node i).currentTerm := by
  obtain ⟨a, sim⟩ := h.sim hc
  have hok := sim.nodes i
  have hback := (h.intact hc i).entry_lastIndex
  rw [← hok.log] at hback
  rw [← hok.term]
  exact sim.inv.shape.log_key i _ _ hback

theorem endsInTerm (i : String) : EndsInTerm (s.node i) := by
  obtain ⟨tr, run⟩ := h
  have hinv := run.invariant (I := fun s => (∃ a, Sim c s a) ∧ ∀ i, EndsInTerm (s.node i))
    (fun s ev s' hI hplain hstep => by
      obtain ⟨⟨a, sim⟩, hends⟩ := hI
      obtain ⟨a', -, sim'⟩ := sim.step hc hplain hstep
      refine ⟨⟨a', sim'⟩, ?_⟩
      cases stepped hstep with
      | act hd =>
        exact (Function.forall_update_iff s.node fun _ n => EndsInTerm n).mpr
          ⟨hd.endsInTerm sim hplain (hends _), fun i _ => hends i⟩
      | drop => exact hends
      | stop | stopDuring | restart | stopDuringRestart => exact hplain.elim)
    ⟨⟨_, sim_init c⟩, fun i hr => absurd hr (by simp [State.init])⟩
  exact hinv.2 i

end Live

/-! ## Single moves of a continuation -/

abbrev CanReach (c : Cluster) : (State → Prop) → State → Prop :=
  Can (Event.step c) (fun s ev => ev.Plain c s)

theorem Live.can {Q : State → Prop} (h : Live c s) (hcan : CanReach c Q s) :
    CanReach c (fun s' => Live c s' ∧ Q s') s :=
  hcan.carrying (fun _ _ _ hlive hplain hstep => hlive.step hplain hstep) h

/-- No log is above the threshold. -/
def Uncompacted (c : Cluster) (s : State) : Prop :=
  ∀ i ∈ c.ids, (s.node i).log.size ≤ c.snapshotThreshold

theorem Uncompacted.update (h : Uncompacted c s) (hnode : s'.node = Function.update s.node i n)
    (hn : n.log.size ≤ c.snapshotThreshold) : Uncompacted c s' := by
  intro j hj
  rw [hnode]
  by_cases hji : j = i
  · rw [hji, Function.update_self]
    exact hn
  · rw [Function.update_of_ne hji]
    exact h j hj

/-- A section whose guards hold may come next. -/
theorem Does.first {act : Action} {e : Effect} {Q : State → Prop} (hd : Does c s act e)
    (hsmall : Uncompacted c s) (hsize : e.node.log.size ≤ c.snapshotThreshold)
    (next : ∀ s₁ : State, s₁.node = Function.update s.node e.actor e.node →
      s₁.network = e.network ++ e.sent → Uncompacted c s₁ → CanReach c Q s₁) : CanReach c Q s := by
  have hstep : (Event.act act).step c s = some
      { node := Function.update s.node e.actor e.node
        network := e.network ++ e.sent, nextCall := s.nextCall + 1 } := by
    simp only [Event.step, hd.effect]
    rfl
  have hsmall' : Uncompacted c
      { node := Function.update s.node e.actor e.node
        network := e.network ++ e.sent, nextCall := s.nextCall + 1 } := hsmall.update rfl hsize
  have hplain : (Event.act act).Plain c s := hsmall
  exact .first hplain hstep (next _ rfl rfl hsmall')

/-- Only node `i` has changed. -/
structure Alone (s s' : State) (i : String) (n' : RaftNode) : Prop where
  node : s'.node = Function.update s.node i n'
  network : s.network <+: s'.network

theorem Alone.refl (s : State) (i : String) : Alone s s i (s.node i) :=
  ⟨(Function.update_eq_self i s.node).symm, List.prefix_rfl⟩

theorem Alone.self (h : Alone s s' i n') : s'.node i = n' := by
  rw [h.node, Function.update_self]

theorem Alone.other (h : Alone s s' i n') {j : String} (hj : j ≠ i) : s'.node j = s.node j := by
  rw [h.node, Function.update_of_ne hj]

theorem Alone.trans {s₁ s₂ s₃ : State} {n₂ n₃ : RaftNode} (h : Alone s₁ s₂ i n₂)
    (h' : Alone s₂ s₃ i n₃) : Alone s₁ s₃ i n₃ where
  node := by rw [h'.node, h.node, Function.update_idem]
  network := h.network.trans h'.network

/-- The futures of an election that are still open are given up, one after the other. -/
theorem can_skip (up : Up c s i n) (hsmall : Uncompacted c s) {call : ElectionCall}
    (hcall : n.election = some call) :
    CanReach c (fun s' => Alone s s' i { n with election := some { call with pending := [] } })
      s := by
  induction hpending : call.pending generalizing s n call with
  | nil =>
    have hsame : { n with election := some { call with pending := [] } } = s.node i := by
      rw [up.node, ← hpending, ← hcall]
    rw [hsame]
    exact .now (.refl s i)
  | cons q rest ih =>
    have hd : Does c s (.skipVote i) _ := .skipVote up hcall (by rw [hpending]; simp)
    have hsize := hsmall i up.mem
    rw [up.node] at hsize
    apply hd.first hsmall hsize
    intro s₁ hnode hnet hsmall₁
    have hone : Alone s s₁ i (n.skipVote call) :=
      ⟨hnode, by rw [hnet]; exact List.prefix_append _ _⟩
    have htail : ({ call with pending := call.pending.tail } : ElectionCall).pending = rest := by
      rw [hpending]
      rfl
    have hrest := ih ⟨up.mem, hone.self, up.running⟩ hsmall₁ rfl htail
    exact hrest.mono fun s' hs' => hone.trans hs'

/-! ## A node whose log no other is ahead of -/

/-- What `IsLogUpToDate` compares. -/
def standing (n : RaftNode) : Nat ×ₗ Nat := toLex (n.log.lastTerm, n.log.lastIndex)

theorem isLogUpToDate_iff :
    n.isLogUpToDate n'.log.lastIndex n'.log.lastTerm = true ↔ standing n ≤ standing n' := by
  rw [standing, standing, Prod.Lex.toLex_le_toLex]
  unfold RaftNode.isLogUpToDate
  split
  · rename_i hne
    simp only [gt_iff_lt, decide_eq_true_eq]
    exact ⟨Or.inl, fun h => h.resolve_right fun h' => hne h'.1.symm⟩
  · rename_i heq
    have heq' : n'.log.lastTerm = n.log.lastTerm := not_not.mp heq
    simp [heq']

theorem standing_append (J : Json.Codec) {e : LogEntry}
    (hterm : n.log.lastTerm ≤ e.term) (hindex : e.index = n.log.lastIndex + 1)
    (hlog : n'.log = (n.log.append J e).1) : standing n ≤ standing n' := by
  rw [standing, standing, Prod.Lex.toLex_le_toLex, hlog, lastTerm_append, lastIndex_append, hindex]
  rcases Nat.lt_or_eq_of_le hterm with hlt | heq
  · exact Or.inl hlt
  · exact Or.inr ⟨heq, Nat.le_succ _⟩

/-- The node has no call in progress; its log has grown by one entry at most. -/
structure Settled (n n' : RaftNode) : Prop where
  election : n'.election = none
  replication : n'.replication = none
  term : n'.currentTerm = n.currentTerm
  standing : standing n ≤ standing n'
  log : n.log.entries <+: n'.log.entries
  size : n'.log.size ≤ n.log.size + 1

/-- The end of an election, lost or won. -/
theorem settled_finishElection (J : Json.Codec) (cfg : RaftConfig) (call : ElectionCall)
    (hrep : n.replication = none) (hterm : n.log.lastTerm ≤ n.currentTerm) :
    Settled n (n.finishElection J cfg call) := by
  unfold RaftNode.finishElection
  dsimp only
  split
  · refine ⟨rfl, hrep, rfl, ?_, List.prefix_append _ _, ?_⟩
    · exact standing_append J hterm rfl rfl
    · simp only [RaftNode.becomeLeader, RaftNode.appendLog, RaftLog.append, RaftLog.size,
        List.length_append, List.length_singleton]
      omega
  · exact ⟨rfl, hrep, rfl, le_refl _, List.prefix_rfl, Nat.le_succ _⟩

theorem can_close (up : Up c s i n) (hsmall : Uncompacted c s) :
    CanReach c (fun s' => Alone s s' i { n with replication := none }) s := by
  cases hrep : n.replication with
  | none =>
    have hsame : { n with replication := none } = s.node i := by rw [up.node, ← hrep]
    rw [hsame]
    exact .now (.refl s i)
  | some call =>
    have hd : Does c s (.abandonReplicate i) _ := .abandonReplicate up hrep
    have hsize := hsmall i up.mem
    rw [up.node] at hsize
    apply hd.first hsmall hsize
    intro s₁ hnode hnet _
    exact .now ⟨hnode, by rw [hnet]; exact List.prefix_append _ _⟩

/-- A node can end the calls it has in progress. -/
theorem can_settle (up : Up c s i n) (hsmall : Uncompacted c s)
    (hroom : n.log.size + 1 ≤ c.snapshotThreshold) (hterm : n.log.lastTerm ≤ n.currentTerm) :
    CanReach c (fun s' => Uncompacted c s' ∧ ∃ n', Alone s s' i n' ∧ Settled n n') s := by
  have hsize : n.log.size ≤ c.snapshotThreshold := Nat.le_of_succ_le hroom
  apply (can_close up hsmall).bind
  intro s₁ h₁
  have up₁ : Up c s₁ i { n with replication := none } := ⟨up.mem, h₁.self, up.running⟩
  have hsmall₁ : Uncompacted c s₁ := hsmall.update h₁.node hsize
  cases helect : n.election with
  | none =>
    exact .now ⟨hsmall₁, _, h₁, helect, rfl, rfl, le_refl _, List.prefix_rfl, Nat.le_succ _⟩
  | some call =>
    apply (can_skip up₁ hsmall₁ helect).bind
    intro s₂ h₂
    have up₂ : Up c s₂ i _ := ⟨up.mem, h₂.self, up.running⟩
    have hd : Does c s₂ (.finishElection i) _ := .finishElection up₂ rfl rfl
    obtain ⟨hs₁, hs₂, hs₃, hs₄, hs₅, hs₆⟩ := settled_finishElection
      (n := { n with replication := none, election := some { call with pending := [] } })
      c.json (c.config i) { call with pending := [] } rfl hterm
    apply hd.first (hsmall₁.update h₂.node hsize) (Nat.le_trans hs₆ hroom)
    intro s₃ hnode hnet hsmall₃
    have h₃ : Alone s₂ s₃ i _ := ⟨hnode, by rw [hnet]; exact List.prefix_append _ _⟩
    exact .now ⟨hsmall₃, _, (h₁.trans h₂).trans h₃, hs₁, hs₂, hs₃, hs₄, hs₅, hs₆⟩

/-! ## An exchange -/

/-- A leader and a peer, as a pair that can be left alone. -/
def pairOf (s : State) (i p : String) : Pair := ⟨s.node i, s.node p⟩

theorem eraseIdx_append_length {α : Type} (xs : List α) (x : α) :
    (xs ++ [x]).eraseIdx xs.length = xs := by
  rw [List.eraseIdx_append_of_length_le (Nat.le_refl _), Nat.sub_self]
  exact List.append_nil xs

theorem getElem?_append_length {α : Type} (xs : List α) (x : α) :
    (xs ++ [x])[xs.length]? = some x := by
  rw [List.getElem?_append_right (Nat.le_refl _), Nat.sub_self]
  rfl

theorem finishReplicate_log (cfg : RaftConfig) (call : ReplicateCall)
    (resp : AppendEntriesResponse) : (n.finishReplicate cfg call resp).log = n.log := by
  have h' := finished cfg n call resp
  generalize n.finishReplicate cfg call resp = out at h' ⊢
  cases h' with
  | success _ _ _ => rw [advanceCommitIndex_eq]; rfl
  | newer _ | dropped _ _ | failure _ _ _ => rfl

/-- One round between a leader and a peer, with nothing else happening. -/
theorem can_exchange (hi : Up c s i n) (hp : Up c s p n') (hne : p ≠ i) (hpeer : p ∈ c.peers i)
    (hrole : n.role = .Leader) (hidle : n.replication = none) (hsmall : Uncompacted c s)
    (hsize : ((pairOf s i p).exchange c.json (c.config i) s.nextCall p).follower.log.size ≤
      c.snapshotThreshold) :
    CanReach c (fun s' =>
      s'.node = Function.update (Function.update s.node p
        ((pairOf s i p).exchange c.json (c.config i) s.nextCall p).follower) i
        ((pairOf s i p).exchange c.json (c.config i) s.nextCall p).leader ∧
      s'.network = s.network) s := by
  obtain ⟨hmem, rfl, hrun⟩ := hi
  obtain ⟨hmemp, rfl, hrunp⟩ := hp
  have hd₁ : Does c s (.startReplicate i p) _ :=
    .startReplicate ⟨hmem, rfl, hrun⟩ hidle hrole hpeer
  apply hd₁.first hsmall (hsmall i hmem)
  intro s₁ hnode₁ hnet₁ hsmall₁
  have hpkt₁ : s₁.network[s.network.length]? = some ⟨i, p, s.nextCall,
      .appendRequest ((pairOf s i p).request (c.config i) s.nextCall p)⟩ := by
    rw [hnet₁]
    exact getElem?_append_length s.network _
  have hp₁ : s₁.node p = s.node p := by rw [hnode₁, Function.update_of_ne hne]
  have hd₂ : Does c s₁ (.deliver s.network.length) _ :=
    .handleAppendEntries ⟨hmemp, hp₁, hrunp⟩ hpkt₁
  apply hd₂.first hsmall₁ hsize
  intro s₂ hnode₂ hnet₂ hsmall₂
  have hnet₂' : s₂.network = s.network ++ [⟨p, i, s.nextCall,
      .appendResponse ((pairOf s i p).answer c.json (c.config i) s.nextCall p)⟩] := by
    rw [hnet₂, hnet₁, eraseIdx_append_length]
    rfl
  have hpkt₂ : s₂.network[s.network.length]? = some ⟨p, i, s.nextCall,
      .appendResponse ((pairOf s i p).answer c.json (c.config i) s.nextCall p)⟩ := by
    rw [hnet₂']
    exact getElem?_append_length s.network _
  have hi₂ : s₂.node i = ((s.node i).startReplicate (c.config i) s.nextCall p).1 := by
    rw [hnode₂, Function.update_of_ne hne.symm, hnode₁, Function.update_self]
  have hd₃ : Does c s₂ (.finishReplicate i s.network.length) _ :=
    .finishReplicate ⟨hmem, hi₂, hrun⟩ rfl hpkt₂
  apply hd₃.first hsmall₂
  · show (RaftNode.finishReplicate _ _ _ _).log.size ≤ _
    rw [finishReplicate_log]
    exact hsmall i hmem
  · intro s₃ hnode₃ hnet₃ _
    refine .now ⟨?_, ?_⟩
    · rw [hnode₃, hnode₂, hnode₁, Function.update_comm hne.symm, Function.update_idem]
      rfl
    · rw [hnet₃, hnet₂', eraseIdx_append_length, List.append_nil]

/-! ## Standing for election -/

/-- Free to stand. -/
structure Idle (n : RaftNode) : Prop where
  election : n.election = none
  replication : n.replication = none
  role : n.role ≠ .Leader

/-- The node as `StartElection` leaves it when nobody else votes. -/
def defeated (cfg : RaftConfig) (n : RaftNode) : RaftNode :=
  { (n.startElection cfg 0).1 with election := none }

theorem can_stand (hc : c.FullMesh) (htwo : 2 ≤ c.ids.length) (up : Up c s i n)
    (hsmall : Uncompacted c s) (hidle : Idle n) :
    CanReach c (fun s' => Uncompacted c s' ∧ Alone s s' i (defeated (c.config i) n)) s := by
  have hsize := hsmall i up.mem
  rw [up.node] at hsize
  have hd₁ : Does c s (.startElection i) _ := .startElection up hidle.election hidle.role
  apply hd₁.first hsmall hsize
  intro s₁ hnode₁ hnet₁ hsmall₁
  have h₁ : Alone s s₁ i _ := ⟨hnode₁, by rw [hnet₁]; exact List.prefix_append _ _⟩
  have up₁ : Up c s₁ i _ := ⟨up.mem, h₁.self, up.running⟩
  apply (can_skip up₁ hsmall₁ rfl).bind
  intro s₂ h₂
  have up₂ : Up c s₂ i _ := ⟨up.mem, h₂.self, up.running⟩
  have hd₂ : Does c s₂ (.finishElection i) _ := .finishElection up₂ rfl rfl
  have hlost : RaftNode.finishElection c.json (c.config i)
      { (n.startElection (c.config i) s.nextCall).1 with
        election := some
          { id := s.nextCall, term := n.currentTerm + 1, votes := 1, pending := [] } }
      { id := s.nextCall, term := n.currentTerm + 1, votes := 1, pending := [] } =
      defeated (c.config i) n := by
    unfold RaftNode.finishElection
    dsimp only
    rw [if_neg]
    · rfl
    · rintro ⟨-, -, hvotes⟩
      exact absurd (one_lt_quorumSize hc up.mem htwo) (Nat.not_lt.mpr hvotes)
  apply hd₂.first (hsmall₁.update h₂.node hsize)
  · show (RaftNode.finishElection _ _ _ _).log.size ≤ _
    rw [hlost]
    exact hsize
  · intro s₃ hnode₃ hnet₃ hsmall₃
    refine .now ⟨hsmall₃, (h₁.trans h₂).trans ⟨?_, by rw [hnet₃]; exact List.prefix_append _ _⟩⟩
    rw [← hlost]
    exact hnode₃

/-- By standing again and again a node gets to any term. -/
theorem can_climb (hc : c.FullMesh) (htwo : 2 ≤ c.ids.length) (up : Up c s i n)
    (hsmall : Uncompacted c s) (hidle : Idle n) (k : Nat) :
    CanReach c (fun s' => Uncompacted c s' ∧ ∃ n', Alone s s' i n' ∧ Idle n' ∧ n'.log = n.log ∧
      n'.running = true ∧ n'.currentTerm = n.currentTerm + k) s := by
  induction k with
  | zero =>
    refine .now ⟨hsmall, n, ?_, hidle, rfl, up.running, rfl⟩
    rw [← up.node]
    exact .refl s i
  | succ k ih =>
    apply ih.bind
    rintro s₁ ⟨hsmall₁, n₁, h₁, hidle₁, hlog, hrun, hterm⟩
    apply (can_stand hc htwo ⟨up.mem, h₁.self, hrun⟩ hsmall₁ hidle₁).mono
    rintro s₂ ⟨hsmall₂, h₂⟩
    refine ⟨hsmall₂, _, h₁.trans h₂, ⟨rfl, hidle₁.replication, ?_⟩, hlog, hrun, ?_⟩
    · simp [defeated, RaftNode.startElection, RaftNode.persistHardState]
    · show n₁.currentTerm + 1 = _
      omega

/-! ## Winning -/

/-- A node of an earlier term votes for a candidate whose log its own is not ahead of. -/
theorem handleRequestVote_earlier {req : RequestVoteRequest} (hlt : n.currentTerm < req.term)
    (hlog : n.isLogUpToDate req.lastLogIndex req.lastLogTerm = true) :
    (n.handleRequestVote req).2 = { term := n.currentTerm, voteGranted := true } ∧
      (n.handleRequestVote req).1.currentTerm = req.term ∧
      (n.handleRequestVote req).1.log = n.log := by
  have hadopt : n.adoptTerm req.term "" = n.becomeFollower req.term "" := if_pos hlt
  have hgrants : (n.adoptTerm req.term "").Grants req := by
    rw [hadopt]
    exact ⟨fun h => h.1 rfl, hlog⟩
  have h' := voteHandled n req
  generalize n.handleRequestVote req = out at h' ⊢
  cases h' with
  | stale hstale => exact absurd hstale (Nat.lt_asymm hlt)
  | granted _ _ =>
    refine ⟨rfl, ?_, ?_⟩
    · exact adoptTerm_currentTerm (Nat.le_of_lt hlt) ""
    · rw [hadopt]
      rfl
  | denied _ hdenies => exact absurd hgrants hdenies

/-- What a candidate asks of the peers it still waits for. -/
structure Votable (c : Cluster) (s : State) (i : String) (req : RequestVoteRequest) (p : String) :
    Prop where
  up : Up c s p (s.node p)
  other : p ≠ i
  earlier : (s.node p).currentTerm < req.term
  behind : (s.node p).isLogUpToDate req.lastLogIndex req.lastLogTerm = true

/-- One peer after the other is asked and answers, and its vote is counted. -/
theorem can_collect {req : RequestVoteRequest} {net : List Packet} {rest : List String}
    (hnodup : rest.Nodup) {call : ElectionCall} (up : Up c s i n) (hsmall : Uncompacted c s)
    (hcall : n.election = some call) (hpending : call.pending = rest)
    (hrole : n.role = .Candidate) (hterm : n.currentTerm = call.term)
    (hreq : req.term = call.term) (hvoters : ∀ p ∈ rest, Votable c s i req p)
    (hnet : s.network = net ++ rest.map fun p => ⟨i, p, call.id, .voteRequest req⟩) :
    CanReach c (fun s' => Uncompacted c s' ∧
      s'.node i = { n with
        election := some { call with votes := call.votes + rest.length, pending := [] } } ∧
      (∀ p ∈ rest, (s'.node p).currentTerm = req.term ∧ (s'.node p).log = (s.node p).log) ∧
      ∀ j, j ≠ i → j ∉ rest → s'.node j = s.node j) s := by
  induction rest generalizing s n call with
  | nil =>
    refine .now ⟨hsmall, ?_, fun _ hp => absurd hp (by simp), fun _ _ _ => rfl⟩
    rw [up.node, List.length_nil, Nat.add_zero, ← hpending, ← hcall]
  | cons p rest ih =>
    obtain ⟨hp, hnodup'⟩ := List.nodup_cons.mp hnodup
    obtain ⟨upp, hne, hlt, hlog⟩ := hvoters p List.mem_cons_self
    obtain ⟨hresp, htermp, hlogp⟩ := handleRequestVote_earlier hlt hlog
    -- the request to `p` is the first of those left
    have hpkt₁ : s.network[net.length]? = some ⟨i, p, call.id, .voteRequest req⟩ := by
      rw [hnet, List.getElem?_append_right (Nat.le_refl _), Nat.sub_self]
      rfl
    have hd₁ : Does c s (.deliver net.length) _ := .handleRequestVote upp hpkt₁
    apply hd₁.first hsmall
    · show (RaftNode.handleRequestVote _ _).1.log.size ≤ _
      rw [hlogp]
      exact hsmall p upp.mem
    intro s₁ hnode₁ hnet₁ hsmall₁
    have hleft : s.network.eraseIdx net.length =
        net ++ rest.map fun p => ⟨i, p, call.id, .voteRequest req⟩ := by
      rw [hnet, List.eraseIdx_append_of_length_le (Nat.le_refl _), Nat.sub_self]
      rfl
    rw [hleft, hresp] at hnet₁
    have hi₁ : s₁.node i = n := by
      rw [hnode₁, Function.update_of_ne hne.symm, up.node]
    have hpkt₂ : s₁.network[(net ++ rest.map fun p => (⟨i, p, call.id, .voteRequest req⟩ :
        Packet)).length]? = some ⟨p, i, call.id,
          .voteResponse { term := (s.node p).currentTerm, voteGranted := true }⟩ := by
      rw [hnet₁]
      exact getElem?_append_length _ _
    have hd₂ : Does c s₁ (.recvVote i _) _ :=
      .recvVote ⟨up.mem, hi₁, up.running⟩ hcall hpending hpkt₂
    have hsize := hsmall i up.mem
    rw [up.node] at hsize
    have hvote : n.recvVote call { term := (s.node p).currentTerm, voteGranted := true } =
        { n with election := some { call with votes := call.votes + 1, pending := rest } } := by
      unfold RaftNode.recvVote
      rw [if_neg (by simp only; omega), if_pos ⟨rfl, hterm, hrole⟩, hpending]
      rfl
    apply hd₂.first hsmall₁
    · show (RaftNode.recvVote _ _ _).log.size ≤ _
      rw [hvote]
      exact hsize
    intro s₂ hnode₂ hnet₂ hsmall₂
    have hother : ∀ j, j ≠ i → j ≠ p → s₂.node j = s.node j := by
      intro j hji hjp
      rw [hnode₂, Function.update_of_ne hji, hnode₁, Function.update_of_ne hjp]
    have hp₂ : s₂.node p = ((s.node p).handleRequestVote req).1 := by
      rw [hnode₂, Function.update_of_ne hne, hnode₁, Function.update_self]
    have hi₂ : s₂.node i =
        { n with election := some { call with votes := call.votes + 1, pending := rest } } := by
      rw [hnode₂, Function.update_self, ← hvote]
    have hnext := ih (n := { n with
        election := some { call with votes := call.votes + 1, pending := rest } })
      hnodup' ⟨up.mem, hi₂, up.running⟩ hsmall₂ rfl rfl hrole hterm hreq
      (fun q hq => by
        have hqp : q ≠ p := fun heq => hp (heq ▸ hq)
        obtain ⟨upq, hqi, hlt, hlog⟩ := hvoters q (List.mem_cons_of_mem p hq)
        have hsame := hother q hqi hqp
        exact ⟨⟨upq.mem, rfl, by rw [hsame]; exact upq.running⟩, hqi, by rw [hsame]; exact hlt,
          by rw [hsame]; exact hlog⟩)
      (by rw [hnet₂, hnet₁, eraseIdx_append_length, List.append_nil])
    apply hnext.mono
    rintro s₃ ⟨hsmall₃, hi₃, hvoted, hrest⟩
    refine ⟨hsmall₃, ?_, fun q hq => ?_, fun j hji hj => ?_⟩
    · rw [hi₃, List.length_cons]
      simp only [Nat.add_assoc, Nat.add_comm 1]
    · rcases List.mem_cons.mp hq with rfl | hq
      · rw [hrest q hne hp, hp₂]
        exact ⟨htermp, hlogp⟩
      · have hqp : q ≠ p := fun heq => hp (heq ▸ hq)
        rw [← hother q (hvoters q (List.mem_cons_of_mem p hq)).other hqp]
        exact hvoted q hq
    · rw [List.mem_cons, not_or] at hj
      rw [hrest j hji hj.2, hother j hji hj.1]

/-- `i` leads, has no call in progress, and no node is in a later term. -/
structure Reigns (c : Cluster) (s : State) (i : String) : Prop where
  mem : i ∈ c.ids
  role : (s.node i).role = .Leader
  idle : (s.node i).replication = none
  top : ∀ j ∈ c.ids, (s.node j).currentTerm ≤ (s.node i).currentTerm

theorem mem_peers_of_ne (hc : c.FullMesh) (hi : i ∈ c.ids) {j : String} (hj : j ∈ c.ids)
    (hne : j ≠ i) : j ∈ c.peers i :=
  (hc.peers i hi).mem_iff.mpr (hc.nodup.mem_erase_iff.mpr ⟨hne, hj⟩)

theorem finishElection_wins (J : Json.Codec) {cfg : RaftConfig} {call : ElectionCall}
    (h : n.Wins cfg call) :
    (n.finishElection J cfg call).role = .Leader ∧
      (n.finishElection J cfg call).currentTerm = n.currentTerm ∧
      (n.finishElection J cfg call).replication = n.replication ∧
      n.log.entries <+: (n.finishElection J cfg call).log.entries ∧
      (n.finishElection J cfg call).log.size ≤ n.log.size + 1 := by
  unfold RaftNode.finishElection
  dsimp only
  rw [if_pos h]
  refine ⟨rfl, rfl, rfl, List.prefix_append _ _, ?_⟩
  simp only [RaftNode.becomeLeader, RaftNode.appendLog, RaftLog.append, RaftLog.size,
    List.length_append, List.length_singleton]
  omega

/-- A node in the highest term whose log no other is ahead of can get itself elected. -/
theorem can_win (hc : c.FullMesh) (h : Live c s) (up : Up c s i n) (hsmall : Uncompacted c s)
    (hroom : n.log.size + 1 ≤ c.snapshotThreshold) (hidle : Idle n)
    (htop : ∀ j ∈ c.ids, (s.node j).currentTerm ≤ n.currentTerm)
    (hbest : ∀ j ∈ c.ids, standing (s.node j) ≤ standing n) :
    CanReach c (fun s' => Uncompacted c s' ∧ Reigns c s' i ∧
      n.log.entries <+: (s'.node i).log.entries ∧
      (s'.node i).log.size ≤ n.log.size + 1) s := by
  have hsize : n.log.size ≤ c.snapshotThreshold := Nat.le_of_succ_le hroom
  have hd₁ : Does c s (.startElection i) _ := .startElection up hidle.election hidle.role
  apply hd₁.first hsmall hsize
  intro s₁ hnode₁ hnet₁ hsmall₁
  have hi₁ : s₁.node i = (n.startElection (c.config i) s.nextCall).1 := by
    rw [hnode₁, Function.update_self]
  have hother : ∀ j, j ≠ i → s₁.node j = s.node j := by
    intro j hj
    rw [hnode₁, Function.update_of_ne hj]
  have hvoters : ∀ p ∈ c.peers i,
      Votable c s₁ i (n.startElection (c.config i) s.nextCall).2 p := by
    intro p hp
    obtain ⟨hmem, hne⟩ := hc.mem_peers up.mem hp
    refine ⟨⟨hmem, rfl, ?_⟩, hne, ?_, ?_⟩
    · rw [hother p hne]
      exact (h.up hc hmem).running
    · rw [hother p hne]
      exact Nat.lt_succ_of_le (htop p hmem)
    · rw [hother p hne]
      exact isLogUpToDate_iff.mpr (hbest p hmem)
  have hcollect := can_collect (hc.peers_nodup up.mem) ⟨up.mem, hi₁, up.running⟩ hsmall₁ rfl rfl
    rfl rfl rfl hvoters hnet₁
  apply hcollect.bind
  rintro s₂ ⟨hsmall₂, hi₂, hvoted, hrest⟩
  have hd₂ : Does c s₂ (.finishElection i) _ := .finishElection ⟨up.mem, hi₂, up.running⟩ rfl rfl
  have hwins : RaftNode.Wins (c.config i)
      { (n.startElection (c.config i) s.nextCall).1 with
        election := some { id := s.nextCall, term := n.currentTerm + 1,
                           votes := 1 + (c.peers i).length, pending := [] } }
      { id := s.nextCall, term := n.currentTerm + 1, votes := 1 + (c.peers i).length,
        pending := [] } := by
    refine ⟨rfl, rfl, ?_⟩
    show (c.peers i).length.succ / 2 + 1 ≤ 1 + (c.peers i).length
    omega
  obtain ⟨hrole, hterm, hrep, hlog, hgrown⟩ := finishElection_wins c.json hwins
  apply hd₂.first hsmall₂ (Nat.le_trans hgrown hroom)
  intro s₃ hnode₃ _ hsmall₃
  have hi₃ := congrFun hnode₃ i
  rw [Function.update_self] at hi₃
  refine .now ⟨hsmall₃, ⟨up.mem, by rw [hi₃]; exact hrole,
    by rw [hi₃]; exact hrep.trans hidle.replication, ?_⟩, ?_, ?_⟩
  · intro j hj
    rw [hi₃, hterm]
    by_cases hji : j = i
    · rw [hji, hi₃, hterm]
    · rw [hnode₃, Function.update_of_ne hji]
      exact Nat.le_of_eq (hvoted j (mem_peers_of_ne hc up.mem hj hji)).1
  · rw [hi₃]
    exact hlog
  · rw [hi₃]
    exact hgrown

/-- A request to a node of a later term changes nothing there. -/
theorem handleAppendEntries_of_lt (J : Json.Codec) {req : AppendEntriesRequest}
    (h : req.term < n.currentTerm) :
    n.handleAppendEntries J req = (n, { term := n.currentTerm }) := by
  unfold RaftNode.handleAppendEntries
  exact if_pos h

/-- A leader that is not in the highest term can be told so. -/
theorem can_stepDown (hc : c.FullMesh) (h : Live c s) (hsmall : Uncompacted c s) (hi : i ∈ c.ids)
    (hrole : (s.node i).role = .Leader) (helect : (s.node i).election = none)
    (hrep : (s.node i).replication = none) (hp : p ∈ c.ids)
    (hlater : (s.node i).currentTerm < (s.node p).currentTerm) :
    CanReach c (fun s' => Uncompacted c s' ∧ ∃ n', Alone s s' i n' ∧ Idle n' ∧
      n'.log = (s.node i).log) s := by
  have hne : p ≠ i := by
    rintro rfl
    exact Nat.lt_irrefl _ hlater
  have hstale : ((pairOf s i p).request (c.config i) s.nextCall p).term <
      (s.node p).currentTerm := hlater
  have hex : (pairOf s i p).exchange c.json (c.config i) s.nextCall p =
      { leader := ({ s.node i with replication := none } : RaftNode).becomeFollower
          (s.node p).currentTerm ""
        follower := s.node p } := by
    have hhandle := handleAppendEntries_of_lt c.json hstale
    have hanswer : (pairOf s i p).answer c.json (c.config i) s.nextCall p =
        { term := (s.node p).currentTerm } := by
      rw [Pair.answer]
      exact congrArg Prod.snd hhandle
    rw [Pair.exchange_eq, hanswer]
    have hfollower : ((pairOf s i p).follower.handleAppendEntries c.json
        ((pairOf s i p).request (c.config i) s.nextCall p)).1 = s.node p :=
      congrArg Prod.fst hhandle
    rw [hfollower]
    congr 1
    unfold RaftNode.finishReplicate
    exact if_pos hlater
  have hcan := can_exchange (h.up hc hi) (h.up hc hp) hne (mem_peers_of_ne hc hi hp hne) hrole hrep
    hsmall (by rw [hex]; exact hsmall p hp)
  apply hcan.mono
  rintro s' ⟨hnode, hnet⟩
  rw [hex, Function.update_eq_self] at hnode
  refine ⟨hsmall.update hnode (hsmall i hi), _, ⟨hnode, by rw [hnet]⟩, ⟨helect, rfl, ?_⟩, rfl⟩
  simp [RaftNode.becomeFollower, RaftNode.persistHardState]

/-- From a node that is free to stand, and whose log no other is ahead of, to a leader. -/
theorem can_rise (hc : c.FullMesh) (htwo : 2 ≤ c.ids.length) (h : Live c s) (up : Up c s i n)
    (hsmall : Uncompacted c s) (hroom : n.log.size + 1 ≤ c.snapshotThreshold) (hidle : Idle n)
    (hbest : ∀ j ∈ c.ids, standing (s.node j) ≤ standing n) :
    CanReach c (fun s' => Uncompacted c s' ∧ Reigns c s' i ∧
      n.log.entries <+: (s'.node i).log.entries ∧
      (s'.node i).log.size ≤ n.log.size + 1) s := by
  obtain ⟨M, hM⟩ := Finset.exists_le (c.ids.toFinset.image fun j => (s.node j).currentTerm)
  have hterms : ∀ j ∈ c.ids, (s.node j).currentTerm ≤ M := fun j hj =>
    hM _ (Finset.mem_image_of_mem _ (List.mem_toFinset.mpr hj))
  apply (h.can (can_climb hc htwo up hsmall hidle M)).bind
  rintro s₁ ⟨hlive, hsmall₁, n₁, h₁, hidle₁, hlog, hrun, hterm⟩
  have hstanding : standing n₁ = standing n := by rw [standing, standing, hlog]
  rw [← hlog] at hroom ⊢
  refine can_win hc hlive ⟨up.mem, h₁.self, hrun⟩ hsmall₁ hroom hidle₁ (fun j hj => ?_)
    (fun j hj => ?_)
  · by_cases hji : j = i
    · rw [hji, h₁.self]
    · rw [h₁.other hji, hterm]
      exact Nat.le_trans (hterms j hj) (Nat.le_add_left _ _)
  · by_cases hji : j = i
    · rw [hji, h₁.self]
    · rw [h₁.other hji, hstanding]
      exact hbest j hj

/-- **A leader can always be found.** -/
theorem can_reign (hc : c.FullMesh) (htwo : 2 ≤ c.ids.length) (h : Live c s)
    (hroom : ∀ i ∈ c.ids, (s.node i).log.size + 2 ≤ c.snapshotThreshold) :
    ∃ i, CanReach c (fun s' => Uncompacted c s' ∧ Reigns c s' i ∧
      (s.node i).log.entries <+: (s'.node i).log.entries ∧
      (s'.node i).log.size ≤ (s.node i).log.size + 2) s := by
  have hsmall : Uncompacted c s := fun j hj => Nat.le_of_add_right_le (hroom j hj)
  have hne : c.ids.toFinset.Nonempty := by
    obtain ⟨j, hj⟩ := List.exists_mem_of_length_pos (Nat.lt_of_lt_of_le Nat.two_pos htwo)
    exact ⟨j, List.mem_toFinset.mpr hj⟩
  obtain ⟨i, hi, hmax⟩ := Finset.exists_max_image c.ids.toFinset (fun j => standing (s.node j)) hne
  rw [List.mem_toFinset] at hi
  refine ⟨i, ?_⟩
  have hroom₁ := hroom i hi
  apply (h.can (can_settle (h.up hc hi) hsmall (by omega) (h.lastTerm_le hc i))).bind
  rintro s₁ ⟨hlive₁, hsmall₁, n₁, h₁, hset⟩
  have hbest : ∀ j ∈ c.ids, standing (s₁.node j) ≤ standing n₁ := by
    intro j hj
    by_cases hji : j = i
    · rw [hji, h₁.self]
    · rw [h₁.other hji]
      exact le_trans (hmax j (List.mem_toFinset.mpr hj)) hset.standing
  have hsize := hset.size
  -- the rest, from a node that is free to stand
  have hfrom : ∀ s₂ n₂, Live c s₂ → Uncompacted c s₂ → Alone s₁ s₂ i n₂ → Idle n₂ →
      n₂.log = n₁.log →
      CanReach c (fun s' => Uncompacted c s' ∧ Reigns c s' i ∧
        (s.node i).log.entries <+: (s'.node i).log.entries ∧
        (s'.node i).log.size ≤ (s.node i).log.size + 2) s₂ := by
    intro s₂ n₂ hlive₂ hsmall₂ h₂ hidle hlog
    have up₂ : Up c s₂ i n₂ := ⟨hi, h₂.self, by rw [← h₂.self]; exact (hlive₂.up hc hi).running⟩
    have hstanding : standing n₂ = standing n₁ := by rw [standing, standing, hlog]
    have hrise := can_rise hc htwo hlive₂ up₂ hsmall₂ (by rw [hlog]; omega) hidle (by
      intro j hj
      rw [hstanding]
      by_cases hji : j = i
      · rw [hji, h₂.self, hstanding]
      · rw [h₂.other hji]
        exact hbest j hj)
    apply hrise.mono
    rintro s' ⟨hsmall', hreigns, hbegins, hgrown⟩
    rw [hlog] at hbegins hgrown
    exact ⟨hsmall', hreigns, hset.log.trans hbegins, by omega⟩
  by_cases hrole : n₁.role = .Leader
  · by_cases htop : ∀ j ∈ c.ids, (s₁.node j).currentTerm ≤ n₁.currentTerm
    · refine .now ⟨hsmall₁, ⟨hi, ?_, ?_, ?_⟩, ?_, ?_⟩
      · rw [h₁.self]
        exact hrole
      · rw [h₁.self]
        exact hset.replication
      · rw [h₁.self]
        exact htop
      · rw [h₁.self]
        exact hset.log
      · rw [h₁.self]
        omega
    · simp only [not_forall, not_le] at htop
      obtain ⟨j, hj, hlater⟩ := htop
      rw [← h₁.self] at hrole hlater
      have hdown := can_stepDown hc hlive₁ hsmall₁ hi hrole (by rw [h₁.self]; exact hset.election)
        (by rw [h₁.self]; exact hset.replication) hj hlater
      apply (hlive₁.can hdown).bind
      rintro s₂ ⟨hlive₂, hsmall₂, n₂, h₂, hidle, hlog⟩
      rw [h₁.self] at hlog
      exact hfrom s₂ n₂ hlive₂ hsmall₂ h₂ hidle hlog
  · refine hfrom s₁ n₁ hlive₁ hsmall₁ ?_ ⟨hset.election, hset.replication, hrole⟩ rfl
    rw [← h₁.self]
    exact .refl s₁ i

end Proof
end OrcDb
