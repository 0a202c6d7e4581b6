import OrcDb.Lib.Acknowledged
import OrcDb.Proof.Raft.Repair
import OrcDb.Proof.Raft.Safety

/-!
# What a leader believes about its peers

`matchIndex_` and `nextIndex_` are written from answers, and an answer may be taken any time
after it was given: the peer's log has changed since, the leader's has grown, and the leader
may have lost its office and won another one. Two things make every answer harmless.

A refusal is remembered with the log it was computed from (`Refused`). That log had everything
the leader already counted on, because the peer was in the leader's term and a replica keeps
within a term what it has acknowledged (`Held`). It is a log of the same history as the
leader's, so the hints lead behind all they have in common, whatever the leader has appended
since (`Kindred.backUp_spec`).

And there is one call at a time. While it is open its peer's `matchIndex_` does not move; if
the call is of an earlier office, `BecomeLeader` has set all of them to 0 and no answer has
been taken since (`ViewOk.earlier`).
-/

set_option autoImplicit false

namespace OrcDb
namespace Proof

open Lib Replicas

variable {c : Cluster} {s s' : State} {a a' : Replicas String LogEntry} {i : String}
  {n n' f : RaftNode} {m : Nat} {req : AppendEntriesRequest} {resp : AppendEntriesResponse}

/-! ## Refusals -/

theorem intact_of_logged {log : RaftLog} (inv : Inv (raft c) a) (hi : log.snapshotIndex = 0)
    (ht : log.snapshotTerm = 0) (h : Logged (raft c) a log.entries) : Intact log where
  snapshotIndex := hi
  snapshotTerm := ht
  head := inv.shape.head_of_logged h
  index := fun _ _ he => inv.shape.fits_of_logged h he
  pos := fun _ _ he hk => inv.shape.key_pos h he hk
  rising := (inv.shape.ascending_of_logged h).rising

/-- `f` is a peer as it was when it refused `req`: its log agreed with the one of the request's
    term up to `m`. -/
structure Refused (c : Cluster) (a : Replicas String LogEntry) (leader : String) (m : Nat)
    (f : RaftNode) (req : AppendEntriesRequest) : Prop where
  snapshotIndex : f.log.snapshotIndex = 0
  snapshotTerm : f.log.snapshotTerm = 0
  logged : Logged (raft c) a f.log.entries
  request : RequestOk a leader req
  within : m < (a.leaderLog req.term).length
  agree : AgreeUpTo f.log.entries (a.leaderLog req.term) m

theorem Refused.mono (hg : a ≤ a') (h : Refused c a i m f req) : Refused c a' i m f req :=
  { h with
    logged := h.logged.mono hg
    request := h.request.mono hg
    within := Nat.lt_of_lt_of_le h.within (hg.leaderLog _).length_le
    agree := h.agree.lengthen h.within (hg.leaderLog _) }

/-- A refusal by a peer that has acknowledged `m`. -/
theorem NodeOk.refused (inv : Inv (raft c) a) (held : Held a) (h : NodeOk c a i n) {src : String}
    (hreq : RequestOk a src req) (hm : m ≤ a.ack req.term i)
    (hfail : (n.handleAppendEntries c.json req).2.success = false)
    (hterm : (n.handleAppendEntries c.json req).2.term ≤ req.term) :
    ∃ f r, Refused c a src m f req ∧
      f.rejection req r = some (n.handleAppendEntries c.json req).2 := by
  have h' := handled c.json n req
  generalize n.handleAppendEntries c.json req = out at h' hfail hterm ⊢
  cases h' with
  | stale hlt => exact absurd hterm (Nat.not_le.mpr hlt)
  | accepted _ _ => exact absurd hfail (by simp)
  | rejected hle hcheck =>
    refine ⟨n, _, ⟨h.snapshotIndex, h.snapshotTerm, h.logged inv, hreq, ?_, ?_⟩, hcheck⟩
    · obtain ⟨e, he, -⟩ := hreq.prev
      have hpos := (List.getElem?_eq_some_iff.mp he).1
      rcases inv.shape.ack_lt req.term i with h0 | hlt
      · omega
      · exact Nat.lt_of_le_of_lt hm hlt
    · rw [← h.log]
      exact held.agree inv.shape hreq.leader (by rw [h.term]; exact hle) hm

/-- Whenever its leader takes it, a refusal leads behind `m`. -/
theorem Refused.lt_backUp (inv : Inv (raft c) a) (hok : NodeOk c a i n) (hr : n.role = .Leader)
    {r : AppendEntriesResponse} (h : Refused c a i m f req) (hterm : req.term = n.currentTerm)
    (hrej : f.rejection req r = some resp) : m < n.backUp resp := by
  have hlog := hok.leaderLog inv hr
  have hkin : Kindred f.log n.log :=
    ⟨intact_of_logged inv h.snapshotIndex h.snapshotTerm h.logged,
      intact_of_logged inv hok.snapshotIndex hok.snapshotTerm (hok.logged inv),
      h.logged.matching (hok.logged inv), h.logged.sameStarts (hok.logged inv)⟩
  obtain ⟨e, he, ht⟩ := h.request.prev
  have hag := h.agree
  rw [hterm, hlog] at he hag
  have hlt := (List.getElem?_eq_some_iff.mp he).1
  exact (hkin.backUp_spec hrej hlt ((hkin.leader.getTerm_eq he).trans ht)).2 m hag

/-! ## What a section does to the view -/

/-- The view stays; no call is opened. -/
structure SameView (n n' : RaftNode) : Prop where
  term : n'.currentTerm = n.currentTerm
  role : n'.role = n.role
  matchIndex : n'.matchIndex = n.matchIndex
  nextIndex : n'.nextIndex = n.nextIndex
  calls : ∀ call, n'.replication = some call → n.replication = some call

inductive Seen (c : Cluster) (s : State) (i : String) (n : RaftNode) : RaftNode → Prop
  | lost {n' : RaftNode} (role : n'.role ≠ .Leader) : Seen c s i n n'
  | kept {n' : RaftNode} (same : SameView n n') : Seen c s i n n'
  | elected (role : n.role = .Candidate) :
      Seen c s i n (({ n with election := none } : RaftNode).becomeLeader c.json (c.config i))
  | opened {peer : String} :
      Seen c s i n (n.startReplicate (c.config i) s.nextCall peer).1
  | accepted {call : ReplicateCall} (role : n.role = .Leader) :
      Seen c s i n (RaftNode.advanceCommitIndex (c.config i) (recorded n call))
  | refused {call : ReplicateCall} {resp : AppendEntriesResponse} (role : n.role = .Leader)
      (open' : n.replication = some call)
      (pkt : ⟨call.peerId, i, call.id, .appendResponse resp⟩ ∈ s.network)
      (term : resp.term = n.currentTerm) (answer : resp.success = false) :
      Seen c s i n
        { n with
          replication := none
          nextIndex := n.nextIndex.insert call.peerId (n.backUp resp) }

/-- A node that has looked at the term of a message, and then changed nothing of its view. -/
theorem seen_of_adoptTerm {t : Nat} {leaderId : String}
    (same : SameView (n.adoptTerm t leaderId) n') : Seen c s i n n' := by
  unfold RaftNode.adoptTerm at same
  split at same
  · refine .lost ?_
    rw [same.role]
    simp [RaftNode.becomeFollower, RaftNode.persistHardState]
  · exact .kept same

/-- Every section, one by one. -/
theorem Does.seen {act : Action} {e : Effect} (hd : Does c s act e)
    (hsmall : ∀ i ∈ c.ids, (s.node i).log.size ≤ c.snapshotThreshold) :
    Seen c s e.actor (s.node e.actor) e.node := by
  cases hd with
  | @startElection i n up idle role =>
    exact .lost (by simp [RaftNode.startElection, RaftNode.persistHardState])
  | @recvVote i p k n call rest resp up open' pending pkt =>
    rw [up.node]
    have h' := voteAnswered n call resp
    generalize n.recvVote call resp = out at h' ⊢
    cases h' with
    | newer _ => exact .lost (by simp [RaftNode.becomeFollower, RaftNode.persistHardState])
    | vote _ _ _ _ | other _ _ => exact .kept ⟨rfl, rfl, rfl, rfl, fun _ h => h⟩
  | @skipVote i n call up open' pending =>
    rw [up.node]
    exact .kept ⟨rfl, rfl, rfl, rfl, fun _ h => h⟩
  | @finishElection i n call up open' pending =>
    rw [up.node]
    unfold RaftNode.finishElection
    dsimp only
    split
    · rename_i hwins
      exact .elected hwins.1
    · exact .kept ⟨rfl, rfl, rfl, rfl, fun _ h => h⟩
  | @startReplicate i peer n up idle role peer_mem =>
    rw [up.node]
    exact .opened
  | @finishReplicate i k n call resp up open' pkt =>
    rw [up.node]
    have h' := finished (c.config i) n call resp
    generalize n.finishReplicate (c.config i) call resp = out at h' ⊢
    cases h' with
    | newer _ => exact .lost (by simp [RaftNode.becomeFollower, RaftNode.persistHardState])
    | dropped _ _ => exact .kept ⟨rfl, rfl, rfl, rfl, fun _ h => absurd h (by simp)⟩
    | success hr _ _ => exact .accepted hr
    | failure hr hterm hfail => exact .refused hr open' (List.mem_of_getElem? pkt) hterm hfail
  | @abandonReplicate i n call up open' =>
    rw [up.node]
    exact .kept ⟨rfl, rfl, rfl, rfl, fun _ h => absurd h (by simp)⟩
  | @handleRequestVote src i id k n req up pkt =>
    rw [up.node]
    have h' := voteHandled n req
    generalize n.handleRequestVote req = out at h' ⊢
    cases h' with
    | stale _ => exact .kept ⟨rfl, rfl, rfl, rfl, fun _ h => h⟩
    | granted _ _ | denied _ _ =>
      exact seen_of_adoptTerm (t := req.term) ⟨rfl, rfl, rfl, rfl, fun _ h => h⟩
  | @handleAppendEntries src i id k n req up pkt =>
    rw [up.node]
    have h' := handled c.json n req
    generalize n.handleAppendEntries c.json req = out at h' ⊢
    cases h' with
    | stale _ => exact .kept ⟨rfl, rfl, rfl, rfl, fun _ h => h⟩
    | rejected _ _ => exact seen_of_adoptTerm (t := req.term) ⟨rfl, rfl, rfl, rfl, fun _ h => h⟩
    | accepted _ _ =>
      rw [acceptEntries_eq]
      exact seen_of_adoptTerm (t := req.term) ⟨rfl, rfl, rfl, rfl, fun _ h => h⟩
  | @propose i key value op ttlMs n up =>
    rw [up.node]
    unfold RaftNode.propose
    split
    · exact .kept ⟨rfl, rfl, rfl, rfl, fun _ h => h⟩
    · exact .kept ⟨rfl, rfl, rfl, rfl, fun _ h => h⟩
  | @wakePropose i id deadline n call result up found outcome =>
    rw [up.node]
    exact .kept ⟨rfl, rfl, rfl, rfl, fun _ h => h⟩
  | @beginApply i n e up idle behind entry =>
    rw [up.node]
    exact .kept ⟨rfl, rfl, rfl, rfl, fun _ h => h⟩
  | @endApply i data n next e up busy =>
    have hle := hsmall i up.mem
    rw [up.node] at hle ⊢
    simp only [endApply_of_le (c.config i) hle next data]
    exact .kept ⟨rfl, rfl, rfl, rfl, fun _ h => h⟩
  | @stallApply i data n up idle behind ends =>
    have hle := hsmall i up.mem
    rw [up.node] at hle ⊢
    simp only [maybeSnapshot_of_le (c.config i) hle data]
    exact .kept ⟨rfl, rfl, rfl, rfl, fun _ h => h⟩

/-! ## The invariant -/

structure ViewOk (c : Cluster) (i : String) (n : RaftNode) : Prop where
  ahead : n.role = .Leader → ∀ p ∈ c.peers i,
    ∃ next, n.nextIndex.lookup p = some next ∧ n.matchIndex.at p < next
  earlier : n.role = .Leader → ∀ call, n.replication = some call → call.term ≠ n.currentTerm →
    ∀ p, n.matchIndex.at p = 0

/-- A refusal that answers an open call of the current term comes from a log with everything
    the leader counts on. -/
def RefusalOk (c : Cluster) (s : State) (a : Replicas String LogEntry) (p : Packet) : Prop :=
  ∀ resp, p.payload = .appendResponse resp → resp.success = false →
    ∀ call, (s.node p.dst).replication = some call → call.id = p.call →
      call.term = (s.node p.dst).currentTerm → resp.term ≤ call.term →
      ∃ f req r, req.term = call.term ∧
        Refused c a p.dst ((s.node p.dst).matchIndex.at p.src) f req ∧
        f.rejection req r = some resp

structure ViewInv (c : Cluster) (s : State) (a : Replicas String LogEntry) : Prop where
  sim : Sim c s a
  held : Held a
  nodes : ∀ i, ViewOk c i (s.node i)
  refusals : ∀ p ∈ s.network, RefusalOk c s a p

theorem viewInv_init (c : Cluster) : ViewInv c State.init (init (raft c)) where
  sim := sim_init c
  held := held_init (raft c)
  nodes := fun _ => ⟨fun hr => absurd hr (by simp [State.init]),
    fun hr => absurd hr (by simp [State.init])⟩
  refusals := fun _ hp => absurd hp (by simp [State.init])

theorem ViewOk.congr (h : ViewOk c i n) (same : SameView n n') : ViewOk c i n' where
  ahead := by
    rw [same.role, same.matchIndex, same.nextIndex]
    exact h.ahead
  earlier := by
    rw [same.role, same.term, same.matchIndex]
    exact fun hr call hcall => h.earlier hr call (same.calls call hcall)

/-- A call of the current term was made in the office the node still holds. -/
theorem NodeOk.leader_of_call (h : NodeOk c a i n) {call : ReplicateCall}
    (hcall : n.replication = some call) (hterm : call.term = n.currentTerm) :
    n.role = .Leader := by
  rw [h.leader, ← hterm]
  exact (h.call call hcall).leader

theorem IndexMap.at_insert_self (m : IndexMap) (p : String) (v : Nat) :
    IndexMap.at (m.insert p v) p = v := by
  rw [IndexMap.at, AList.lookup_insert, Option.getD_some]

theorem IndexMap.at_insert_ne (m : IndexMap) {p q : String} (h : q ≠ p) (v : Nat) :
    IndexMap.at (m.insert p v) q = m.at q := by
  rw [IndexMap.at, AList.lookup_insert_ne h, IndexMap.at]

theorem becomeLeader_at (J : Json.Codec) {cfg : RaftConfig}
    (hkeys : ∀ p ∈ n.matchIndex, p ∈ cfg.peers) (p : String) :
    (n.becomeLeader J cfg).matchIndex.at p = 0 := by
  unfold IndexMap.at
  cases hl : (n.becomeLeader J cfg).matchIndex.lookup p with
  | none => rfl
  | some k => exact eq_of_lookup_foldl_insert hkeys hl

/-- **The step lemma for a node.** -/
theorem ViewInv.seen (view : ViewInv c s a) (hseen : Seen c s i (s.node i) n') : ViewOk c i n' := by
  have inv := view.sim.inv
  have hok := view.sim.nodes i
  have h := view.nodes i
  generalize hn : s.node i = n at hseen hok h
  cases hseen with
  | lost hr => exact ⟨fun hr' => absurd hr' hr, fun hr' => absurd hr' hr⟩
  | kept same => exact h.congr same
  | elected hr =>
    have hzero : ∀ p, (({ n with election := none } : RaftNode).becomeLeader c.json
        (c.config i)).matchIndex.at p = 0 :=
      becomeLeader_at (n := { n with election := none }) c.json hok.keys
    refine ⟨fun _ p hp => ⟨n.log.lastIndex + 1, ?_, ?_⟩, fun _ _ _ _ p => hzero p⟩
    · exact (lookup_foldl_insert (c.peers i) _ _ p).trans (if_pos hp)
    · rw [hzero p]
      exact Nat.succ_pos _
  | opened =>
    refine ⟨h.ahead, fun _ call hcall hne => ?_⟩
    cases hcall
    exact absurd rfl hne
  | @accepted call hr =>
    rw [advanceCommitIndex_eq]
    refine ⟨fun _ p hp => ?_, fun _ _ hcall => absurd hcall (by simp [recorded])⟩
    by_cases hpeer : p = call.peerId
    · subst hpeer
      refine ⟨_, AList.lookup_insert _, ?_⟩
      simp only [recorded]
      rw [IndexMap.at_insert_self]
      exact Nat.lt_succ_self _
    · simp only [recorded]
      rw [AList.lookup_insert_ne hpeer, IndexMap.at_insert_ne _ hpeer]
      exact h.ahead hr p hp
  | @refused call resp hr open' pkt hterm hfail =>
    refine ⟨fun _ p hp => ?_, fun _ _ hcall => absurd hcall (by simp)⟩
    by_cases hpeer : p = call.peerId
    · subst hpeer
      refine ⟨_, AList.lookup_insert _, ?_⟩
      by_cases hsame : call.term = n.currentTerm
      · -- the refusal remembers a log that had `matchIndex_` of its peer
        obtain ⟨f, req, r, hreq, href, hrej⟩ := view.refusals _ pkt resp rfl hfail call
          (by rw [hn]; exact open') rfl (by rw [hn]; exact hsame)
          (by rw [hterm, hsame])
        simp only [hn] at href
        exact href.lt_backUp inv hok hr (hreq.trans hsame) hrej
      · -- the call is of an earlier office
        have hresp := view.sim.packets _ pkt call (by rw [hn]; exact open') rfl
        rw [h.earlier hr call open' hsame]
        exact (hok.backUp_bounds inv hr (hok.call call open') hterm hresp hfail).1
    · simp only [AList.lookup_insert_ne hpeer]
      exact h.ahead hr p hp

/-- While a call of the current term is open, `matchIndex_` does not move. -/
theorem ViewInv.call_kept (view : ViewInv c s a) (hok' : NodeOk c a' i n')
    (hseen : Seen c s i (s.node i) n') {call : ReplicateCall} (hcall : n'.replication = some call)
    (hold : call.id ≠ s.nextCall) (hterm : call.term = n'.currentTerm) :
    (s.node i).replication = some call ∧ call.term = (s.node i).currentTerm ∧
      n'.matchIndex = (s.node i).matchIndex := by
  have hok := view.sim.nodes i
  have hr' := hok'.leader_of_call hcall hterm
  generalize s.node i = n at hseen hok ⊢
  cases hseen with
  | lost hr => exact absurd hr' hr
  | kept same => exact ⟨same.calls call hcall, hterm.trans same.term, same.matchIndex⟩
  | elected hr =>
    -- the call would have been made in the term the node has just won
    have hlead := hok.leader_of_call hcall hterm
    rw [hr] at hlead
    exact absurd hlead (by simp)
  | opened =>
    cases hcall
    exact absurd rfl hold
  | accepted _ =>
    rw [advanceCommitIndex_eq] at hcall
    exact absurd hcall (by simp [recorded])
  | refused _ _ _ _ _ => exact absurd hcall (by simp)

/-- A refusal in flight, through the replacement of one node. -/
theorem ViewInv.refusal_kept (view : ViewInv c s a) (hg : a ≤ a') (sim' : Sim c s' a')
    (hnode : s'.node = Function.update s.node i n') (hseen : Seen c s i (s.node i) n')
    {p : Packet} (hp : p ∈ s.network) : RefusalOk c s' a' p := by
  intro resp hpay hfail call hcall hid hterm hle
  have hfresh := (view.sim.election.packets p hp).fresh
  have hok' := sim'.nodes p.dst
  have hback : (s.node p.dst).replication = some call ∧
      call.term = (s.node p.dst).currentTerm ∧
      (s'.node p.dst).matchIndex = (s.node p.dst).matchIndex := by
    by_cases hdst : p.dst = i
    · rw [hnode, hdst, Function.update_self] at hcall hterm hok' ⊢
      exact view.call_kept hok' hseen hcall (by omega) hterm
    · rw [hnode, Function.update_of_ne hdst] at hcall hterm ⊢
      exact ⟨hcall, hterm, rfl⟩
  obtain ⟨hcall₀, hterm₀, hmatch⟩ := hback
  obtain ⟨f, req, r, hreq, href, hrej⟩ :=
    view.refusals p hp resp hpay hfail call hcall₀ hid hterm₀ hle
  rw [hmatch]
  exact ⟨f, req, r, hreq, href.mono hg, hrej⟩

/-- The refusals a section sends. -/
theorem ViewInv.refusal_sent (view : ViewInv c s a) (hg : a ≤ a') {act : Action} {e : Effect}
    (hd : Does c s act e) (hnode : s'.node = Function.update s.node e.actor e.node) {p : Packet}
    (hp : p ∈ e.sent) : RefusalOk c s' a' p := by
  intro resp hpay hfail call hcall hid hterm hle
  cases hd with
  | startElection up idle role =>
    obtain ⟨q, -, rfl⟩ := List.mem_map.mp hp
    exact absurd hpay (by simp)
  | startReplicate up idle role peer_mem =>
    rw [List.mem_singleton] at hp
    subst hp
    exact absurd hpay (by simp)
  | handleRequestVote up pkt =>
    rw [List.mem_singleton] at hp
    subst hp
    exact absurd hpay (by simp)
  | @handleAppendEntries src i id k n req up pkt =>
    rw [List.mem_singleton] at hp
    subst hp
    cases hpay
    obtain ⟨hne, hreq, hlink⟩ := view.sim.packets _ (List.mem_of_getElem? pkt)
    simp only [hnode, Function.update_of_ne (show src ≠ i from hne)] at hcall hterm ⊢
    have hcallTerm := (hlink call hcall hid).1
    -- what the leader counts on, the peer has acknowledged
    have hlead := (view.sim.nodes src).leader_of_call hcall hterm
    have hm := (view.sim.nodes src).matchIndex_at_le hlead i
    rw [← hterm, hcallTerm] at hm
    rw [hcallTerm] at hle
    obtain ⟨f, r, href, hrej⟩ :=
      (view.sim.node up).refused view.sim.inv view.held hreq hm hfail hle
    exact ⟨f, req, r, hcallTerm.symm, href.mono hg, hrej⟩
  | recvVote | skipVote | finishElection | finishReplicate | abandonReplicate | propose
  | wakePropose | beginApply | endApply | stallApply => exact absurd hp (by simp)

theorem ViewInv.step (hc : c.FullMesh) {ev : Event} (view : ViewInv c s a) (hplain : ev.Plain c s)
    (h : ev.step c s = some s') : ∃ a', a ≤ a' ∧ ViewInv c s' a' := by
  obtain ⟨a', hsteps, sim'⟩ := view.sim.steps hc hplain h
  have hg : a ≤ a' := hsteps.grows view.sim.inv
  have held' : Held a' := hsteps.held view.sim.inv view.held
  refine ⟨a', hg, ?_⟩
  cases stepped h with
  | @act act e hd =>
    have hseen := hd.seen hplain
    refine ⟨sim', held', ?_, fun p hp => ?_⟩
    · exact (Function.forall_update_iff s.node _).mpr ⟨view.seen hseen, fun j _ => view.nodes j⟩
    · rcases List.mem_append.mp hp with hp | hp
      · exact view.refusal_kept hg sim' rfl hseen (hd.network_subset p hp)
      · exact view.refusal_sent hg hd rfl hp
  | @drop k =>
    refine ⟨sim', held', view.nodes, fun p hp => ?_⟩
    have hmem := (List.eraseIdx_sublist s.network k).subset hp
    intro resp hpay hfail call hcall hid hterm hle
    obtain ⟨f, req, r, hreq, href, hrej⟩ :=
      view.refusals p hmem resp hpay hfail call hcall hid hterm hle
    exact ⟨f, req, r, hreq, href.mono hg, hrej⟩
  | stop | stopDuring | restart | stopDuringRestart => exact hplain.elim

theorem viewInv_of_run (hc : c.FullMesh) {tr : List (State × Event)}
    (run : PlainRun c State.init tr s) : ∃ a, ViewInv c s a :=
  let ⟨a, _, view⟩ := run.ghost (I := ViewInv c)
    (fun _ _ _ _ view hok hstep => view.step hc hok hstep) (viewInv_init c)
  ⟨a, view⟩

/-! ## The result -/

/-- **The leader's view of its peers is sound.** Whatever late answers it has taken, a leader
    has every peer's `nextIndex_` behind its `matchIndex_` and not behind the end of its own
    log; and a peer in its term has the leader's entries up to `matchIndex_`. -/
theorem leader_view (hc : c.FullMesh) {tr : List (State × Event)}
    (run : PlainRun c State.init tr s) {p : String} (hr : (s.node i).role = .Leader)
    (hp : p ∈ c.peers i) :
    (∃ next, (s.node i).nextIndex.lookup p = some next ∧ (s.node i).matchIndex.at p < next ∧
      next ≤ (s.node i).log.lastIndex + 1) ∧
    ((s.node p).currentTerm = (s.node i).currentTerm →
      ∀ k, 1 ≤ k → k ≤ (s.node i).matchIndex.at p →
        ∃ e, (s.node i).log.getEntry k = some e ∧ (s.node p).log.getEntry k = some e) := by
  obtain ⟨a, view⟩ := viewInv_of_run hc run
  have inv := view.sim.inv
  have hi := view.sim.nodes i
  have hj := view.sim.nodes p
  have hsi := hi.shaped inv
  have hlog := hi.leaderLog inv hr
  have hack := hi.matchIndex_at_le hr p
  constructor
  · obtain ⟨next, hnext, hlt⟩ := (view.nodes i).ahead hr p hp
    have hle := (hi.nextIndex hr p hp next hnext).2
    have hpos := hsi.length_pos
    exact ⟨next, hnext, hlt, by rw [hsi.lastIndex_eq]; omega⟩
  · intro hterm k hk hkm
    have hag : AgreeUpTo (s.node p).log.entries (s.node i).log.entries k := by
      rw [← hj.log, ← hlog]
      exact view.held.agree inv.shape (hi.leader.mp hr) (Nat.le_of_eq (hj.term.trans hterm))
        (Nat.le_trans hkm hack)
    have hlt : k < (s.node i).log.entries.length := by
      have := inv.shape.ack_lt (s.node i).currentTerm p
      rw [hlog] at this
      omega
    have hget := List.getElem?_eq_getElem hlt
    rw [hsi.getEntry_eq, (hj.shaped inv).getEntry_eq, hag k (Nat.le_refl k)]
    exact ⟨_, hget, hget⟩

/-- `A` leads term 1 and has taken `B`'s answer to its no-op. -/
theorem leader_view_three : ∃ tr s next, PlainRun three State.init tr s ∧
    (s.node "A").role = .Leader ∧ (s.node "B").currentTerm = (s.node "A").currentTerm ∧
    (s.node "A").matchIndex.at "B" = 1 ∧ (s.node "A").nextIndex.lookup "B" = some next ∧
    1 < next ∧ next ≤ (s.node "A").log.lastIndex + 1 ∧
    ∃ e, (s.node "A").log.getEntry 1 = some e ∧ (s.node "B").log.getEntry 1 = some e := by
  obtain ⟨s, hs, h⟩ := (Option.any_eq_true _ _).mp
    (show (exec (Event.step three) (fun s ev => ev.Plain three s) State.init
        (leadA ++ [.act (.finishReplicate "A" 0)])).any (fun s =>
      decide ((s.node "A").role = .Leader) &&
        decide ((s.node "B").currentTerm = (s.node "A").currentTerm) &&
        decide ((s.node "A").matchIndex.at "B" = 1)) = true by decide +kernel)
  simp only [Bool.and_eq_true, decide_eq_true_eq] at h
  obtain ⟨⟨hr, hterm⟩, hmatch⟩ := h
  have run := runs_of_exec hs
  obtain ⟨⟨next, hnext, hlt, hle⟩, hlogs⟩ :=
    leader_view three_fullMesh run (p := "B") hr (by decide)
  rw [hmatch] at hlt
  exact ⟨_, s, next, run, hr, hterm, hmatch, hnext, hlt, hle,
    hlogs hterm 1 (Nat.le_refl 1) (Nat.le_of_eq hmatch.symm)⟩

end Proof
end OrcDb
