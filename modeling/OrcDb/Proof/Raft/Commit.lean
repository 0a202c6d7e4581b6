import OrcDb.Proof.Raft.Data

/-!
# State machine safety, and the follower's commit rule

A leader's commit index is safe: it counts a quorum. A follower takes
`min(leaderCommit, LastIndex())`, where the request has verified its log only up to
`prevLogIndex + entries.size()`. Behind that point the follower may still hold entries of a
dead leader, and it commits them (`state_machine_safety_fails`): a re-elected leader whose
`nextIndex_` was set back by a stale rejection sends its first hundred entries to a follower
with a longer log.

`Verified` is the missing condition — the leader's commit index lies in the prefix the request
verifies, or the merge leaves nothing behind that prefix — and under it the theorem holds
(`state_machine_safety`):
every committed prefix is covered by something the protocol has chosen (`Covered`), a covered
prefix is never overwritten, and two covered prefixes agree.
-/

set_option autoImplicit false

namespace OrcDb
namespace Proof

open Lib Replicas

/-- A request that will be accepted with a leader ahead of the follower: `leaderCommit` does
    not reach past the request's entries, or the follower's log does not, or the entries
    conflict with it, so that what lies behind them is cut off. -/
def Verified (s : State) : Event → Prop
  | .act (.deliver k) =>
      match s.network[k]? with
      | some ⟨_, i, _, .appendRequest req⟩ =>
          (s.node i).currentTerm ≤ req.term →
          (s.node i).rejection req { term := (s.node i).currentTerm } = none →
          (s.node i).commitIndex < req.leaderCommit →
            req.leaderCommit ≤ req.prevLogIndex + req.entries.length ∨
            (s.node i).log.lastIndex ≤ req.prevLogIndex + req.entries.length ∨
            Conflicts (s.node i).log req.entries
      | _ => True
  | _ => True

instance (s : State) (ev : Event) : Decidable (Verified s ev) := by
  unfold Verified
  split
  · split <;> infer_instance
  · infer_instance

/-- Node `i` stands by `e` as the entry at index `k`: its commit index has reached `k` and its
    log holds `e` there, or it has passed `e`, of index `k`, to `ApplyEntry`. -/
def Decided (s : State) (i : String) (k : Nat) (e : LogEntry) : Prop :=
  (0 < k ∧ k ≤ (s.node i).commitIndex ∧ (s.node i).log.getEntry k = some e) ∨
    (e ∈ (s.node i).applied ∧ e.index = k)

variable {c : Cluster} {s s' : State} {a a' : Replicas String LogEntry} {i j : String}
  {n n' : RaftNode} {t k : Nat} {xs ys : List LogEntry}

/-! ## Covered prefixes -/

/-- Up to index `k` the log is what was chosen in some term not after `t`. -/
def Covered (c : Cluster) (a : Replicas String LogEntry) (t k : Nat) (xs : List LogEntry) : Prop :=
  k = 0 ∨ ∃ T m, T ≤ t ∧ Chosen (raft c) a T m ∧ k ≤ m ∧ AgreeUpTo xs (a.leaderLog T) k

theorem Covered.mono (h : Covered c a t k xs) (hg : a ≤ a') {t' : Nat} (ht : t ≤ t')
    (hag : AgreeUpTo ys xs k) : Covered c a' t' k ys := by
  rcases h with h0 | ⟨T, m, hT, hch, hk, hx⟩
  · exact Or.inl h0
  · refine Or.inr ⟨T, m, Nat.le_trans hT ht, hch.mono hg, hk, ?_⟩
    exact (hag.trans hx).lengthen (Nat.lt_of_le_of_lt hk hch.1.lt) (hg.leaderLog T)

/-- A covered prefix is in the log of every later leader. -/
theorem Covered.leaderLog (inv : Inv (raft c) a) (h : Covered c a t k xs) (hpos : 0 < k)
    {t' : Nat} (hl : a.leader t' = some i) (ht : t ≤ t') : AgreeUpTo xs (a.leaderLog t') k := by
  rcases h with h0 | ⟨T, m, hT, hch, hk, hx⟩
  · omega
  · exact hx.trans ((inv.chosen hch hl (Nat.le_trans hT ht)).mono hk).symm

/-- Two covered prefixes agree where they overlap. -/
theorem Covered.agree (inv : Inv (raft c) a) {t' k' : Nat} (h : Covered c a t k xs)
    (h' : Covered c a t' k' ys) {l : Nat} (hpos : 0 < l) (hl : l ≤ k) (hl' : l ≤ k') :
    AgreeUpTo xs ys l := by
  rcases h with h0 | ⟨T, m, hT, hch, hk, hx⟩
  · omega
  rcases h' with h0' | ⟨T', m', hT', hch', hk', hx'⟩
  · omega
  rcases Nat.le_total T T' with hle | hle
  · have hT'' := inv.chosen_le hch hch' hle
    exact ((hx.mono hl).trans (hT''.mono (by omega)).symm).trans (hx'.mono hl').symm
  · have hT'' := inv.chosen_le hch' hch hle
    exact ((hx.mono hl).trans (hT''.mono (by omega))).trans (hx'.mono hl').symm

/-! ## The invariant -/

/-- A node's commit index is covered, and what it has applied is a committed prefix. -/
structure CommitOk (c : Cluster) (a : Replicas String LogEntry) (n : RaftNode) : Prop where
  covered : Covered c a n.currentTerm n.commitIndex n.log.entries
  counts : ApplyOk n
  applied : ∀ (k : Nat) (e : LogEntry), n.applied[k]? = some e → n.log.entries[k + 1]? = some e
  applied_le : n.applied.length ≤ n.commitIndex

/-- The commit index never points past the log. -/
theorem CommitOk.commit_lt (h : CommitOk c a n) (hs : Shaped n.log) :
    n.commitIndex < n.log.entries.length := by
  rcases h.covered with h0 | ⟨T, m, -, hch, hk, hag⟩
  · rw [h0]
    exact hs.length_pos
  · exact hag.symm.length_lt (Nat.lt_of_le_of_lt hk hch.1.lt)

/-- The commit index a request carries is covered by its sender's log. -/
def CommitPacketOk (c : Cluster) (a : Replicas String LogEntry) (p : Packet) : Prop :=
  match p.payload with
  | .appendRequest req => Covered c a req.term req.leaderCommit (a.leaderLog req.term)
  | _ => True

structure CommitInv (c : Cluster) (s : State) (a : Replicas String LogEntry) : Prop where
  nodes : ∀ i, CommitOk c a (s.node i)
  packets : ∀ p ∈ s.network, CommitPacketOk c a p

theorem commitInv_init (c : Cluster) : CommitInv c State.init (init (raft c)) where
  nodes := fun _ =>
    { covered := Or.inl rfl
      counts := ⟨fun _ => rfl, fun _ _ h => absurd h (by simp [State.init])⟩
      applied := fun _ _ h => absurd h (by simp [State.init])
      applied_le := Nat.le_refl _ }
  packets := fun _ h => absurd h (by simp [State.init])

/-- The log keeps its committed prefix, the commit index is covered again. -/
theorem CommitOk.step (h : CommitOk c a n) (hcounts : ApplyOk n')
    (hcov : Covered c a' n'.currentTerm n'.commitIndex n'.log.entries)
    (hag : AgreeUpTo n'.log.entries n.log.entries n.commitIndex)
    (happ : n'.applied = n.applied) (hle : n.commitIndex ≤ n'.commitIndex) :
    CommitOk c a' n' where
  covered := hcov
  counts := hcounts
  applied := fun k e he => by
    rw [happ] at he
    have hk := (List.getElem?_eq_some_iff.mp he).1
    have := h.applied_le
    rw [hag (k + 1) (by omega)]
    exact h.applied k e he
  applied_le := by rw [happ]; exact Nat.le_trans h.applied_le hle

/-- Behind a request that reaches the end of the log, or conflicts with it, the merge leaves
    nothing. -/
theorem NodeOk.lastIndex_le (inv : Inv (raft c) a) (hok : NodeOk c a i n) {src : String}
    {req : AppendEntriesRequest} {resp : AppendEntriesResponse} (hreq : RequestOk a src req)
    (hpassed : n.rejection req resp = none)
    (hend : n.log.lastIndex ≤ req.prevLogIndex + req.entries.length ∨
      Conflicts n.log req.entries) :
    (n.log.appendAll c.json req.entries).1.lastIndex ≤
      req.prevLogIndex + req.entries.length := by
  have hs := hok.shaped inv
  obtain ⟨e, -, he, -⟩ := hok.checked inv hreq hpassed
  have hprev := hs.le_lastIndex_iff.mpr (List.getElem?_eq_some_iff.mp he).1
  by_cases hconf : Conflicts n.log req.entries
  · exact Nat.le_of_eq (hs.lastIndex_of_conflicts c.json (hreq.index inv) hprev hconf)
  · rw [hs.lastIndex_of_not_conflicts c.json (hreq.index inv) hprev hconf]
    exact Nat.max_le.mpr ⟨hend.resolve_right hconf, Nat.le_refl _⟩

/-- What an accepted request does to the commit index and the committed prefix. -/
theorem CommitOk.accept (inv : Inv (raft c) a) (hok : NodeOk c a i n) (h : CommitOk c a n)
    {src : String} {req : AppendEntriesRequest} {resp : AppendEntriesResponse}
    (hreq : RequestOk a src req) (hterm : n.currentTerm ≤ req.term)
    (hcov : Covered c a req.term req.leaderCommit (a.leaderLog req.term))
    (hpassed : n.rejection req resp = none)
    (hshape : Shaped (n.log.appendAll c.json req.entries).1)
    (hver : n.commitIndex < req.leaderCommit →
      req.leaderCommit ≤ req.prevLogIndex + req.entries.length ∨
      n.log.lastIndex ≤ req.prevLogIndex + req.entries.length ∨ Conflicts n.log req.entries)
    {k : Nat}
    (hk : k = if req.leaderCommit > n.commitIndex then
      min req.leaderCommit (n.log.appendAll c.json req.entries).1.lastIndex
      else n.commitIndex) :
    Covered c a req.term k (n.log.appendAll c.json req.entries).1.entries ∧
      AgreeUpTo (n.log.appendAll c.json req.entries).1.entries n.log.entries n.commitIndex ∧
      n.commitIndex ≤ k := by
  obtain ⟨hreach, hkeep⟩ := hok.merged inv hreq hpassed
  -- the committed prefix is in the leader's log, so the merge keeps it
  have hparam : AgreeUpTo n.log.entries (a.leaderLog req.term) n.commitIndex := by
    rcases Nat.eq_zero_or_pos n.commitIndex with h0 | hpos
    · obtain ⟨e, e', he, he', ht⟩ := hok.checked inv hreq hpassed
      rw [h0]
      exact ((hok.logged inv).matching (inv.shape.leaderLog _ src hreq.leader) _ e e' he he'
        ht).mono (Nat.zero_le _)
    · exact h.covered.leaderLog inv hpos hreq.leader hterm
  have hsame : AgreeUpTo (n.log.appendAll c.json req.entries).1.entries n.log.entries
      n.commitIndex := (hkeep _ hparam).trans hparam.symm
  refine ⟨?_, hsame, ?_⟩
  · split at hk
    · rename_i hgt
      have hle : k ≤ req.prevLogIndex + req.entries.length := by
        rcases hver hgt with hle | hend
        · omega
        · have := hok.lastIndex_le inv hreq hpassed hend
          omega
      have hkL : k ≤ req.leaderCommit := by rw [hk]; exact Nat.min_le_left _ _
      rcases hcov with h0 | ⟨T, m, hT, hch, hm, hag⟩
      · omega
      · exact Or.inr ⟨T, m, hT, hch, Nat.le_trans hkL hm,
          (hreach.mono hle).trans (hag.mono hkL)⟩
    · rw [hk]
      exact h.covered.mono (le_refl a) hterm hsame
  · split at hk
    · have hlen : n.commitIndex < (n.log.appendAll c.json req.entries).1.entries.length :=
        hsame.symm.length_lt (h.commit_lt (hok.shaped inv))
      have := hshape.le_lastIndex_iff.mpr hlen
      omega
    · omega

/-- Every way a section can touch the data keeps it committed. -/
theorem CommitOk.touch (hc : c.FullMesh) {act : Action} (sim : Sim c s a) (cinv : CommitInv c s a)
    (inv' : Inv (raft c) a') (hg : a ≤ a') (hi : i ∈ c.ids) (hn : s.node i = n)
    (hok' : NodeOk c a' i n') (hver : Verified s (.act act))
    (ht : Touch c s act i n n') : CommitOk c a' n' := by
  have h := cinv.nodes i
  have hok := sim.nodes i
  rw [hn] at h hok
  have hcounts := h.counts.touch ht
  have hs := hok.shaped sim.inv
  cases ht with
  | quiet steady log commit =>
    refine h.step hcounts ?_ (by rw [log]; exact AgreeUpTo.refl _ _) steady.applied
      (Nat.le_of_eq commit.symm)
    rw [log, commit]
    exact h.covered.mono hg steady.term (AgreeUpTo.refl _ _)
  | noOp steady commit log =>
    have hag : AgreeUpTo n'.log.entries n.log.entries n.commitIndex := by
      rw [log]
      exact ((AgreeUpTo.refl _ _).append (h.commit_lt hs) _).symm
    refine h.step hcounts ?_ hag steady.applied (Nat.le_of_eq commit.symm)
    rw [commit]
    exact h.covered.mono hg steady.term hag
  | @propose _ e =>
    have hag : AgreeUpTo (n.log.entries ++ [e]) n.log.entries n.commitIndex :=
      ((AgreeUpTo.refl _ _).append (h.commit_lt hs) _).symm
    exact h.step hcounts (h.covered.mono hg (Nat.le_refl _) hag) hag rfl (Nat.le_refl _)
  | commit steady log leader bound own count up =>
    refine h.step hcounts ?_ (by rw [log]; exact AgreeUpTo.refl _ _) steady.applied
      (Nat.le_of_lt up)
    have hch := hok'.chosen hc inv' hi leader bound own count
    have hll := hok'.leaderLog inv' leader
    exact Or.inr ⟨_, _, Nat.le_refl _, hch, Nat.le_refl _, by rw [hll]; exact AgreeUpTo.refl _ _⟩
  | @accept src id k req _ deliver pkt steady term passed log commit =>
    subst deliver
    have hmem := List.mem_of_getElem? pkt
    obtain ⟨-, hreq, -⟩ := sim.packets _ hmem
    have hshape := hok'.shaped inv'
    rw [log] at hshape
    have hterm : n.currentTerm ≤ req.term := by
      rw [← term]
      exact steady.term
    have hver' := hver
    simp only [Verified, pkt, hn] at hver'
    obtain ⟨hcov, hag, hle⟩ := h.accept sim.inv hok hreq hterm (cinv.packets _ hmem) passed hshape
      (hver' hterm passed) commit
    refine h.step hcounts ?_ (by rw [log]; exact hag) steady.applied hle
    rw [log, term]
    exact hcov.mono hg (Nat.le_refl _) (AgreeUpTo.refl _ _)
  | @beginApply e idle behind entry =>
    rw [hs.getEntry_eq] at entry
    have hlen := h.counts.idle idle
    refine
      { covered := h.covered.mono hg (Nat.le_refl _) (AgreeUpTo.refl _ _)
        counts := hcounts
        applied := fun k x hx => ?_
        applied_le := by simp only [List.length_append, List.length_singleton]; omega }
    rcases getElem?_concat_iff.mp hx with hx | ⟨hk, rfl⟩
    · exact h.applied k x hx
    · rw [hk, hlen]
      exact entry
  | endApply busy =>
    exact
      { covered := h.covered.mono hg (Nat.le_refl _) (AgreeUpTo.refl _ _)
        counts := hcounts
        applied := h.applied
        applied_le := h.applied_le }

theorem CommitPacketOk.mono (hg : a ≤ a') {p : Packet} (h : CommitPacketOk c a p) :
    CommitPacketOk c a' p := by
  unfold CommitPacketOk at *
  split
  · rename_i req hpay
    rw [hpay] at h
    rcases h with h0 | ⟨T, m, hT, hch, hm, hag⟩
    · exact Or.inl h0
    · -- both logs have grown; up to `leaderCommit` they are what they were
      have hlt := Nat.lt_of_le_of_lt hm hch.1.lt
      refine Or.inr ⟨T, m, hT, hch.mono hg, hm, ?_⟩
      exact ((hag.lengthen hlt (hg.leaderLog T)).symm.lengthen (hag.symm.length_lt hlt)
        (hg.leaderLog _)).symm
  · trivial

/-- What a section sends: a request carries its leader's own commit index. -/
theorem Does.commitPackets {act : Action} {e : Effect} (hd : Does c s act e) (sim : Sim c s a)
    (cinv : CommitInv c s a) (hg : a ≤ a') : ∀ p ∈ e.sent, CommitPacketOk c a' p := by
  intro p hp
  cases hd with
  | startElection =>
    obtain ⟨q, -, rfl⟩ := List.mem_map.mp hp
    trivial
  | @startReplicate i peer n up idle role peer_mem =>
    rw [List.mem_singleton] at hp
    subst hp
    have hok := sim.nodes i
    have hcov := (cinv.nodes i).covered
    rw [up.node] at hok hcov
    rw [← hok.leaderLog sim.inv role] at hcov
    exact CommitPacketOk.mono (p := ⟨i, peer, s.nextCall, .appendRequest _⟩) hg hcov
  | handleRequestVote | handleAppendEntries =>
    rw [List.mem_singleton] at hp
    subst hp
    trivial
  | recvVote | skipVote | finishElection | finishReplicate | abandonReplicate | propose
  | wakePropose | beginApply | endApply | stallApply => exact absurd hp (by simp)

/-- **The step lemma**, next to the refinement's own. -/
theorem CommitInv.step (hc : c.FullMesh) {ev : Event} (sim : Sim c s a) (sim' : Sim c s' a')
    (hg : a ≤ a') (cinv : CommitInv c s a) (hplain : ev.Plain c s) (hver : Verified s ev)
    (h : ev.step c s = some s') : CommitInv c s' a' := by
  cases stepped h with
  | @act act e hd =>
    refine ⟨fun j => ?_, fun p hp => ?_⟩
    · by_cases hj : j = e.actor
      · subst hj
        have hok' := sim'.nodes e.actor
        simp only [Function.update_self] at hok' ⊢
        exact CommitOk.touch hc sim cinv sim'.inv hg hd.up.mem rfl hok' hver (hd.touch hplain)
      · simp only [Function.update_of_ne hj]
        have h := cinv.nodes j
        exact { h with covered := h.covered.mono hg (Nat.le_refl _) (AgreeUpTo.refl _ _) }
    · rcases List.mem_append.mp hp with hp | hp
      · exact (cinv.packets p (hd.network_subset p hp)).mono hg
      · exact hd.commitPackets sim cinv hg p hp
  | @drop k =>
    refine ⟨fun j => ?_, fun p hp => ?_⟩
    · have h := cinv.nodes j
      exact { h with covered := h.covered.mono hg (Nat.le_refl _) (AgreeUpTo.refl _ _) }
    · exact (cinv.packets p ((List.eraseIdx_sublist s.network k).subset hp)).mono hg
  | stop | stopDuring | restart | stopDuringRestart => exact hplain.elim

/-! ## The theorem -/

/-- Runs without restarts and compaction in which followers commit only what was verified. -/
abbrev VerifiedRun (c : Cluster) : State → List (State × Event) → State → Prop :=
  Runs (Event.step c) (fun s ev => ev.Plain c s ∧ Verified s ev)

theorem CommitInv.run (hc : c.FullMesh) {tr : List (State × Event)} (run : VerifiedRun c s tr s')
    (sim : Sim c s a) (cinv : CommitInv c s a) :
    ∃ a', a ≤ a' ∧ Sim c s' a' ∧ CommitInv c s' a' := by
  refine run.ghost (I := fun s a => Sim c s a ∧ CommitInv c s a) ?_ ⟨sim, cinv⟩
  intro s ev s' a ⟨hs, hci⟩ hok hstep
  obtain ⟨a', hg, hs'⟩ := hs.step hc hok.1 hstep
  exact ⟨a', hg, hs', hci.step hc hs hs' hg hok.1 hok.2 hstep⟩

/-- What a node stands by is in its log, within its commit index. -/
theorem CommitInv.decided (sim : Sim c s a) (cinv : CommitInv c s a) {e : LogEntry}
    (h : Decided s i k e) :
    0 < k ∧ k ≤ (s.node i).commitIndex ∧ (s.node i).log.entries[k]? = some e := by
  have hs := (sim.nodes i).shaped sim.inv
  have hok := cinv.nodes i
  rcases h with ⟨hpos, hle, he⟩ | ⟨hmem, rfl⟩
  · rw [hs.getEntry_eq] at he
    exact ⟨hpos, hle, he⟩
  · obtain ⟨p, hp⟩ := List.getElem?_of_mem hmem
    have he := hok.applied p e hp
    have hidx := hs.index _ e he
    have hlt := (List.getElem?_eq_some_iff.mp hp).1
    have := hok.applied_le
    rw [hidx]
    exact ⟨Nat.succ_pos _, by omega, he⟩

/-- **State machine safety**, if followers commit only what was verified: what two nodes stand
    by at the same index, at whatever times, is the same entry. -/
theorem state_machine_safety (hc : c.FullMesh) {tr tr' : List (State × Event)} {s₁ s₂ : State}
    (run₁ : VerifiedRun c State.init tr s₁) (run₂ : VerifiedRun c s₁ tr' s₂) {e e' : LogEntry}
    (h₁ : Decided s₁ i k e) (h₂ : Decided s₂ j k e') : e = e' := by
  obtain ⟨a₁, -, sim₁, cinv₁⟩ := CommitInv.run hc run₁ (sim_init c) (commitInv_init c)
  obtain ⟨a₂, hg, sim₂, cinv₂⟩ := CommitInv.run hc run₂ sim₁ cinv₁
  obtain ⟨hpos, hk₁, he₁⟩ := cinv₁.decided sim₁ h₁
  obtain ⟨-, hk₂, he₂⟩ := cinv₂.decided sim₂ h₂
  -- the earlier node's prefix is covered at the later time as well
  have hcov₁ := (cinv₁.nodes i).covered.mono hg (Nat.le_refl _) (AgreeUpTo.refl _ _)
  have hag := hcov₁.agree sim₂.inv (cinv₂.nodes j).covered hpos hk₁ hk₂ k (Nat.le_refl _)
  rw [he₁, he₂] at hag
  exact Option.some.inj hag

/-- An executable form of `Decided` by the commit index. -/
theorem decided_of_commit {e : LogEntry} (h : (s.node i).log.getEntry k = some e)
    (hk : 0 < k ∧ k ≤ (s.node i).commitIndex) : Decided s i k e :=
  Or.inl ⟨hk.1, hk.2, h⟩

/-- `A` commits its no-op and tells `B`. -/
def tellB : List Event :=
  leadA ++ [.act (.finishReplicate "A" 0), .act (.startReplicate "A" "B"), .act (.deliver 0)]

theorem state_machine_safety_three : ∃ tr s e e', VerifiedRun three State.init tr s ∧
    Decided s "A" 1 e ∧ Decided s "B" 1 e' ∧ e = e' := by
  obtain ⟨s, hs, h⟩ := (Option.any_eq_true _ _).mp
    (show (exec (Event.step three) (fun s ev => ev.Plain three s ∧ Verified s ev)
      State.init tellB).any (fun s =>
        decide (0 < 1 ∧ 1 ≤ (s.node "A").commitIndex) &&
        decide (0 < 1 ∧ 1 ≤ (s.node "B").commitIndex) &&
        ((s.node "A").log.getEntry 1).isSome && ((s.node "B").log.getEntry 1).isSome) = true
      by decide +kernel)
  simp only [Bool.and_eq_true, decide_eq_true_eq] at h
  obtain ⟨⟨⟨hA, hB⟩, heA⟩, heB⟩ := h
  obtain ⟨e, he⟩ := Option.isSome_iff_exists.mp heA
  obtain ⟨e', he'⟩ := Option.isSome_iff_exists.mp heB
  have run := runs_of_exec hs
  have h₁ := decided_of_commit he hA
  have h₂ := decided_of_commit he' hB
  exact ⟨_, s, e, e', run, h₁, h₂,
    state_machine_safety three_fullMesh run (Runs.refl s) h₁ h₂⟩

/-! ## Without the condition -/

/-- `A` leads term 1 with a hundred entries, its no-op and 99 proposals. -/
def fillA : List Event :=
  standA ++ (.act (.finishElection "A") ::
    List.replicate 99 (.act (.propose "A" "k" "x" .Put (-1))))

/-- `A`'s entries reach `B` and `C`; one more request to `B` is left on its way. -/
def copyToAll : List Event :=
  [.act (.startReplicate "A" "B"), .act (.deliver 0), .act (.finishReplicate "A" 0),
    .act (.startReplicate "A" "C"), .act (.deliver 0), .act (.finishReplicate "A" 0),
    .act (.startReplicate "A" "B")]

/-- `B` leads term 2 and appends its no-op at index 101. `A` leads term 3, with its own no-op
    there; only then comes the answer to the old request. It is a rejection for an outdated
    term, and it sets `nextIndex_` of `B` back to 1. -/
def changeLeaders : List Event :=
  [.act (.startElection "B"), .act (.deliver 1), .act (.deliver 1), .act (.recvVote "B" 1),
    .act (.recvVote "B" 1), .act (.finishElection "B"),
    .act (.startElection "A"), .act (.deliver 1), .act (.deliver 1), .act (.deliver 0),
    .act (.recvVote "A" 0), .act (.recvVote "A" 0), .act (.finishElection "A"),
    .act (.finishReplicate "A" 0)]

/-- With `C`'s acknowledgement `A` commits index 101, and the hundred entries it sends to `B`
    stop short of the index where `B`'s log differs. -/
def overtaken : List Event :=
  fillA ++ copyToAll ++ changeLeaders ++
    [.act (.startReplicate "A" "C"), .act (.deliver 0), .act (.finishReplicate "A" 0),
      .act (.startReplicate "A" "B"), .act (.deliver 0)]

/-- **State machine safety fails** without it: in a run of three nodes without restarts and
    compaction, two nodes commit different entries at index 101. -/
theorem state_machine_safety_fails : three.FullMesh ∧ ∃ tr s e e',
    PlainRun three State.init tr s ∧ Decided s "A" 101 e ∧ Decided s "B" 101 e' ∧
      e.term ≠ e'.term := by
  obtain ⟨s, hs, h⟩ := (Option.any_eq_true _ _).mp
    (show (exec (Event.step three) (fun s ev => ev.Plain three s) State.init overtaken).any
      (fun s =>
        decide (0 < 101 ∧ 101 ≤ (s.node "A").commitIndex) &&
        decide (0 < 101 ∧ 101 ≤ (s.node "B").commitIndex) &&
        ((s.node "A").log.getEntry 101).any fun e => ((s.node "B").log.getEntry 101).any
          fun e' => decide (e.term ≠ e'.term)) = true by decide +kernel)
  simp only [Bool.and_eq_true, decide_eq_true_eq] at h
  obtain ⟨⟨hA, hB⟩, h⟩ := h
  obtain ⟨e, he, h⟩ := (Option.any_eq_true _ _).mp h
  obtain ⟨e', he', h⟩ := (Option.any_eq_true _ _).mp h
  exact ⟨three_fullMesh, _, s, e, e', runs_of_exec hs, decided_of_commit he hA,
    decided_of_commit he' hB, of_decide_eq_true h⟩

end Proof
end OrcDb
