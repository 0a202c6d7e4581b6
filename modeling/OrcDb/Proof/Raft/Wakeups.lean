import OrcDb.Raft.Wakeups
import OrcDb.Proof.Raft.OneNode
import OrcDb.Proof.Raft.Data

/-!
# Lost wake-ups

`Signalled` says what a section owes the threads that sleep: a larger `commitIndex_` is
announced to `ApplyLoop`, a lost leadership to `ElectionLoop`, a larger `lastApplied_` to the
proposers. Every section pays (`Acts.signalled`), so nobody oversleeps these three
(`nobody_oversleeps`).

One debt is missing from the list: a leader that steps down owes its proposers nothing. Their
predicate also asks for `role_ != Leader`, but `BecomeFollower` does not notify `proposeCv_`, so
`raftGuard` cannot have that disjunct, and a proposer does sleep through the loss of leadership
(`deposed_unannounced`).

`Stop` is outside the discipline. It writes `running_` without `mu_`, and a thread that has
just read it goes to sleep all the same (`stop_misses`).

Where `ElectionLoop` sleeps here it is that of a leader; a follower's has a timeout.
-/

set_option autoImplicit false

namespace OrcDb
namespace Proof

open Lib

variable {J : Json.Codec} {cfg : RaftConfig} {n n' : RaftNode} {sec : Section}

structure Signalled (J : Json.Codec) (cfg : RaftConfig) (n : RaftNode) (sec : Section)
    (n' : RaftNode) : Prop where
  commitIndex : n.commitIndex < n'.commitIndex → sec.notifies J cfg n .apply = true
  role : n.role = .Leader → n'.role ≠ .Leader →
    sec.owner = some .election ∨ sec.notifies J cfg n .election = true
  lastApplied : n'.lastApplied = n.lastApplied ∨
    sec.owner = some .apply ∧ ∀ id, sec.notifies J cfg n (.proposer id) = true
  proposals : ∀ q ∈ n'.proposals, q ∈ n.proposals ∨ sec.owner = some (.proposer q.id)

/-- A section that writes none of the four owes nothing. -/
theorem Signalled.quiet (hcommit : n'.commitIndex = n.commitIndex) (hrole : n'.role = n.role)
    (happlied : n'.lastApplied = n.lastApplied) (hproposals : n'.proposals = n.proposals) :
    Signalled J cfg n sec n' where
  commitIndex := fun h => by
    rw [hcommit] at h
    exact absurd h (Nat.lt_irrefl _)
  role := fun h h' => by
    rw [hrole] at h'
    exact absurd h h'
  lastApplied := Or.inl happlied
  proposals := fun q hq => by
    rw [hproposals] at hq
    exact Or.inl hq

/-- A section of `ElectionLoop` writes `role_` and owes nothing. -/
theorem Signalled.elects (howner : sec.owner = some .election)
    (hcommit : n'.commitIndex = n.commitIndex) (happlied : n'.lastApplied = n.lastApplied)
    (hproposals : n'.proposals = n.proposals) : Signalled J cfg n sec n' where
  commitIndex := fun h => by
    rw [hcommit] at h
    exact absurd h (Nat.lt_irrefl _)
  role := fun _ _ => Or.inl howner
  lastApplied := Or.inl happlied
  proposals := fun q hq => by
    rw [hproposals] at hq
    exact Or.inl hq

theorem signalled_recvVote (call : ElectionCall) (resp : RequestVoteResponse) :
    Signalled J cfg n (.recvVote resp) (n.recvVote call resp) := by
  have h' := voteAnswered n call resp
  generalize n.recvVote call resp = out at h' ⊢
  cases h' with
  | newer | vote | other => exact .elects rfl rfl rfl rfl

theorem signalled_finishElection (call : ElectionCall) :
    Signalled J cfg n .finishElection (n.finishElection J cfg call) := by
  unfold RaftNode.finishElection
  dsimp only
  split
  · exact .elects rfl rfl rfl rfl
  · exact .quiet rfl rfl rfl rfl

theorem signalled_finishReplicate {call : ReplicateCall} {resp : AppendEntriesResponse}
    (hopen : n.replication = some call) :
    Signalled J cfg n (.finishReplicate resp) (n.finishReplicate cfg call resp) := by
  have hadvances : Section.notifies J cfg n (.finishReplicate resp) .apply =
      decide (n.commitIndex < (n.finishReplicate cfg call resp).commitIndex) := by
    simp [Section.notifies, Section.advances, hopen]
  have h' := finished cfg n call resp
  generalize n.finishReplicate cfg call resp = out at h' hadvances ⊢
  cases h' with
  | newer hlt =>
    exact
      { commitIndex := fun h => hadvances.trans (decide_eq_true h)
        role := fun _ _ => Or.inr (decide_eq_true hlt)
        lastApplied := Or.inl rfl
        proposals := fun _ hq => Or.inl hq }
  | dropped | failure => exact .quiet rfl rfl rfl rfl
  | success =>
    rw [advanceCommitIndex_eq] at hadvances ⊢
    exact
      { commitIndex := fun h => hadvances.trans (decide_eq_true h)
        role := fun h h' => absurd h h'
        lastApplied := Or.inl rfl
        proposals := fun _ hq => Or.inl hq }

/-- What the two handlers do first. -/
theorem signalled_adoptTerm {t : Nat} {leaderId : String}
    (hnotifies : n.currentTerm < t → sec.notifies J cfg n .election = true) :
    Signalled J cfg n sec (n.adoptTerm t leaderId) := by
  unfold RaftNode.adoptTerm
  split
  · rename_i hlt
    exact
      { commitIndex := fun h => absurd h (Nat.lt_irrefl _)
        role := fun _ _ => Or.inr (hnotifies hlt)
        lastApplied := Or.inl rfl
        proposals := fun _ hq => Or.inl hq }
  · exact .quiet rfl rfl rfl rfl

theorem signalled_handleRequestVote (req : RequestVoteRequest) :
    Signalled J cfg n (.requestVote req) (n.handleRequestVote req).1 := by
  have hadopt : Signalled J cfg n (.requestVote req) (n.adoptTerm req.term "") := by
    apply signalled_adoptTerm
    intro hlt
    simp [Section.notifies, Section.resetsTimer, hlt]
  have h' := voteHandled n req
  generalize n.handleRequestVote req = out at h' ⊢
  cases h' with
  | stale => exact .quiet rfl rfl rfl rfl
  | granted => exact ⟨hadopt.commitIndex, hadopt.role, hadopt.lastApplied, hadopt.proposals⟩
  | denied => exact hadopt

theorem signalled_handleAppendEntries (req : AppendEntriesRequest) :
    Signalled J cfg n (.appendEntries req) (n.handleAppendEntries J req).1 := by
  have hadopt : Signalled J cfg n (.appendEntries req) (n.adoptTerm req.term req.leaderId) := by
    apply signalled_adoptTerm
    intro hlt
    simp [Section.notifies, Section.resetsTimer, Nat.le_of_lt hlt]
  have hheard : Signalled J cfg n (.appendEntries req) (heard n req) :=
    ⟨hadopt.commitIndex, hadopt.role, hadopt.lastApplied, hadopt.proposals⟩
  have hnotifies : Section.notifies J cfg n (.appendEntries req) .apply =
      ((n.handleAppendEntries J req).2.success && decide (n.commitIndex < req.leaderCommit)) := rfl
  have h' := handled J n req
  generalize n.handleAppendEntries J req = out at h' hnotifies ⊢
  cases h' with
  | stale => exact .quiet rfl rfl rfl rfl
  | rejected => exact hheard
  | accepted =>
    rw [acceptEntries_eq]
    refine ⟨?_, hheard.role, hheard.lastApplied, hheard.proposals⟩
    dsimp only
    rw [hnotifies, heard_commitIndex]
    intro h
    split at h
    · rename_i hmore
      exact decide_eq_true hmore
    · exact absurd h (Nat.lt_irrefl _)

theorem signalled_endApply {next : Nat} {data : String} :
    Signalled J cfg n (.endApply data) (n.endApply cfg next data) := by
  have hstored : Signalled J cfg n (.endApply data)
      { n with lastApplied := next, applying := none } :=
    { commitIndex := fun h => absurd h (Nat.lt_irrefl _)
      role := fun h h' => absurd h h'
      lastApplied := Or.inr ⟨rfl, fun _ => rfl⟩
      proposals := fun _ hq => Or.inl hq }
  unfold RaftNode.endApply RaftNode.maybeSnapshot
  dsimp only
  split
  · split
    · exact ⟨hstored.commitIndex, hstored.role, hstored.lastApplied, hstored.proposals⟩
    · exact hstored
  · exact hstored

theorem signalled_propose {id : Nat} {key value : String} {op : OpType} {ttlMs : Int} :
    Signalled J cfg n (.propose id key value op ttlMs) (n.propose J id key value op ttlMs).1 := by
  unfold RaftNode.propose
  dsimp only
  split
  · exact .quiet rfl rfl rfl rfl
  · exact
      { commitIndex := fun h => absurd h (Nat.lt_irrefl _)
        role := fun h h' => absurd h h'
        lastApplied := Or.inl rfl
        proposals := fun q hq => by
          rcases List.mem_append.mp hq with hq | hq
          · exact Or.inl hq
          · rw [List.mem_singleton.mp hq]
            exact Or.inr rfl }

theorem Acts.signalled (h : Acts J cfg n sec n') : Signalled J cfg n sec n' := by
  cases h with
  | startElection => exact .elects rfl rfl rfl rfl
  | recvVote => exact signalled_recvVote _ _
  | finishElection => exact signalled_finishElection _
  | finishReplicate open' => exact signalled_finishReplicate open'
  | requestVote => exact signalled_handleRequestVote _
  | appendEntries => exact signalled_handleAppendEntries _
  | propose => exact signalled_propose
  | endApply => exact signalled_endApply
  | skipVote | startReplicate | abandonReplicate | beginApply => exact .quiet rfl rfl rfl rfl
  | wakePropose =>
    exact
      { commitIndex := fun h => absurd h (Nat.lt_irrefl _)
        role := fun h h' => absurd h h'
        lastApplied := Or.inl rfl
        proposals := fun _ hq => Or.inl (List.mem_of_mem_filter hq) }
  | stallApply =>
    unfold RaftNode.maybeSnapshot
    split
    · exact .quiet rfl rfl rfl rfl
    · exact .quiet rfl rfl rfl rfl

/-! ## Nobody oversleeps -/

/-- What a thread must not sleep through. -/
def raftGuard : RaftThread → RaftNode → Prop
  | .apply, n => n.lastApplied < n.commitIndex
  | .election, n => n.role ≠ .Leader
  | .proposer id, n => ∃ call ∈ n.proposals, call.id = id ∧ call.index ≤ n.lastApplied

theorem pred_of_raftGuard (i : RaftThread) (n : RaftNode) (h : raftGuard i n) :
    (raftThreads J cfg).pred i n = true := by
  cases i with
  | apply => exact decide_eq_true h
  | election => exact decide_eq_true h
  | proposer id =>
    obtain ⟨call, hmem, hid, hindex⟩ := h
    apply List.any_eq_true.mpr
    exact ⟨call, hmem, by simp [hid, hindex]⟩

theorem raftThreads_signals : Monitor.Signals (raftThreads J cfg) raftGuard := by
  intro n sec n' i hrun howner hbefore hafter
  have hs : Signalled J cfg n sec n' := (acts_of_run hrun).signalled
  show sec.notifies J cfg n i = true
  cases i with
  | apply =>
    apply hs.commitIndex
    have happlied : n'.lastApplied = n.lastApplied :=
      hs.lastApplied.resolve_right fun h => howner h.1
    have hbefore : ¬ n.lastApplied < n.commitIndex := hbefore
    have hafter : n'.lastApplied < n'.commitIndex := hafter
    omega
  | election => exact (hs.role (not_not.mp hbefore) hafter).resolve_left howner
  | proposer id =>
    obtain ⟨call, hmem, hid, hindex⟩ := hafter
    have hold : call ∈ n.proposals :=
      (hs.proposals call hmem).resolve_right fun h => howner (by rw [← hid]; exact h)
    rcases hs.lastApplied with hsame | ⟨-, hall⟩
    · rw [hsame] at hindex
      exact absurd ⟨call, hold, hid, hindex⟩ hbefore
    · exact hall id

/-- The steps of a node's threads, with nothing assumed about their order. -/
abbrev ThreadRun (J : Json.Codec) (cfg : RaftConfig) (n : RaftNode) :=
  Runs (Monitor.step (raftThreads J cfg)) (fun _ _ => True) { data := n }

variable {tr : List (Monitor RaftNode RaftThread × MonitorEvent Section RaftThread)}
  {m m' : Monitor RaftNode RaftThread}

/-- A request of a higher term ends the leadership, and with it the wait of every proposer, but
    wakes none of them. -/
theorem deposed_unannounced {call : ProposeCall} {req : RequestVoteRequest}
    (hfree : m.holder = none) (hcall : call ∈ m.data.proposals)
    (hasleep : m.sleep (.proposer call.id) = .asleep) (hterm : m.data.currentTerm < req.term) :
    ∃ m', m.step (raftThreads J cfg) (.act (.requestVote req)) = some m' ∧
      m'.sleep (.proposer call.id) = .asleep ∧
      RaftThread.pred (.proposer call.id) m'.data = true := by
  have hout : (m.data.handleRequestVote req).1.role = .Follower ∧
      (m.data.handleRequestVote req).1.proposals = m.data.proposals := by
    have hadopt : m.data.adoptTerm req.term "" = m.data.becomeFollower req.term "" := if_pos hterm
    have h' := voteHandled m.data req
    generalize m.data.handleRequestVote req = out at h' ⊢
    cases h' with
    | stale hlt => exact absurd hlt (Nat.lt_asymm hterm)
    | granted | denied =>
      rw [hadopt]
      exact ⟨rfl, rfl⟩
  refine ⟨_, if_pos ⟨hfree, fun i hi => absurd hi (by simp [raftThreads, Section.owner])⟩, ?_, ?_⟩
  · exact (if_neg fun h => absurd h.2 Bool.false_ne_true).trans hasleep
  · rw [RaftThread.pred, List.any_eq_true]
    refine ⟨call, ?_, ?_⟩
    · rw [hout.2]
      exact hcall
    · simp [hout.1]

/-- **Nobody oversleeps**: when `ApplyLoop` sleeps there is nothing to apply, when `ElectionLoop`
    sleeps as a leader the node is one, and when a proposer sleeps its entry is not applied yet.
    The other half of a proposer's predicate is the exception. A sleeping proposer is not woken
    when the node loses the leadership, to a higher term in a `RequestVote` for one, and sleeps
    on with `role_ != Leader`. -/
theorem nobody_oversleeps (run : ThreadRun J cfg n tr m) :
    (m.sleep .apply = .asleep → m.data.commitIndex ≤ m.data.lastApplied) ∧
    (m.sleep .election = .asleep → m.data.role = .Leader) ∧
    (∀ call ∈ m.data.proposals, m.sleep (.proposer call.id) = .asleep →
      m.data.lastApplied < call.index) ∧
    ∀ call ∈ m.data.proposals, m.sleep (.proposer call.id) = .asleep → m.holder = none →
      ∀ req : RequestVoteRequest, m.data.currentTerm < req.term →
        ∃ m', m.step (raftThreads J cfg) (.act (.requestVote req)) = some m' ∧
          m'.sleep (.proposer call.id) = .asleep ∧
          RaftThread.pred (.proposer call.id) m'.data = true := by
  have hsound := Monitor.asleep_sound pred_of_raftGuard raftThreads_signals run
  refine ⟨?_, ?_, ?_, fun call hcall hasleep hfree req hterm =>
    deposed_unannounced hfree hcall hasleep hterm⟩
  · intro h
    exact Nat.not_lt.mp (hsound .apply (Or.inl h))
  · intro h
    exact not_not.mp (hsound .election (Or.inl h))
  · intro call hmem h
    apply Nat.not_le.mp
    intro hindex
    exact hsound (.proposer call.id) (Or.inl h) ⟨call, hmem, rfl, hindex⟩

def sleeper : RaftConfig := { nodeId := "A", peers := ["B", "C"] }

/-- `ApplyLoop` sleeps, is told of a committed entry, applies it and sleeps again. -/
def sleepApply : List (MonitorEvent Section RaftThread) :=
  [.test .apply, .block .apply,
   .act (.appendEntries { term := 1, entries := [{ term := 1, index := 1 }], leaderCommit := 1 }),
   .test .apply, .act .beginApply, .act (.endApply ""), .test .apply, .block .apply]

theorem nobody_oversleeps_apply : ∃ tr m, ThreadRun Json.text sleeper {} tr m ∧
    m.sleep .apply = .asleep ∧ m.data.commitIndex = 1 ∧
    m.data.commitIndex ≤ m.data.lastApplied := by
  obtain ⟨m, hm, hok⟩ := (Option.any_eq_true _ _).mp
    (show (exec (Monitor.step (raftThreads Json.text sleeper)) (fun _ _ => True) { data := {} }
      sleepApply).any (fun m =>
        decide (m.sleep .apply = .asleep ∧ m.data.commitIndex = 1)) = true by decide +kernel)
  obtain ⟨hasleep, hcommit⟩ := of_decide_eq_true hok
  have run := runs_of_exec hm
  exact ⟨_, m, run, hasleep, hcommit, (nobody_oversleeps run).1 hasleep⟩

/-! ## `Stop` -/

/-- **`Stop` can miss one thread.** It joins `ElectionLoop` and `ApplyLoop`. After its
    notifications at most one of `ElectionLoop`, as a leader, and `ApplyLoop` is asleep, and that
    one stood between test and sleep when they were sent. Every run that has come to a state in
    which one of the two would sleep can go on so, and then only a later notification or a
    spurious wake-up lets `Stop` return. -/
theorem stop_misses (run : ThreadRun J cfg n tr m) :
    (m.flag = .announced → ∀ i : RaftThread, i.heeds = true → m.sleep i = .asleep →
      (∃ m₁, (m₁, MonitorEvent.announce) ∈ tr ∧ m₁.holder = some i) ∧
      ∀ j : RaftThread, j.heeds = true → m.sleep j = .asleep → j = i) ∧
    (m.flag = .up → m.holder = none → ∀ i : RaftThread, i.heeds = true → m.sleep i ≠ .asleep →
      i.pred m.data = false →
      ∃ tr' m', Runs (Monitor.step (raftThreads J cfg)) (fun _ _ => True) m tr' m' ∧
        m'.flag = .announced ∧ m'.data = m.data ∧
        ∀ tr'' m'', Runs (Monitor.step (raftThreads J cfg))
          (fun m ev => ¬ Monitor.Wakes (raftThreads J cfg) i m ev) m' tr'' m'' →
          m''.sleep i = .asleep) := by
  refine ⟨?_, ?_⟩
  · intro hflag i hi hasleep
    refine ⟨Monitor.announce_missed run hi hflag (Or.inl hasleep), ?_⟩
    intro j hj hasleep'
    exact Monitor.missed_unique run hj hi hflag (Or.inl hasleep') (Or.inl hasleep)
  · intro hup hfree i _ hi hpred
    obtain ⟨tr', m', run', -, hdata, hflag, hasleep⟩ :=
      Monitor.announce_missable (D := raftThreads J cfg) hfree hup hi hpred
    refine ⟨tr', m', run', hflag, hdata, ?_⟩
    intro tr'' m'' run''
    exact Monitor.asleep_run run'' hflag hasleep

/-- `Stop` comes while `ApplyLoop` falls asleep. -/
def stopApply : List (MonitorEvent Section RaftThread) :=
  [.test .apply, .clear, .announce, .block .apply]

theorem stop_misses_apply : ∃ tr m, ThreadRun Json.text sleeper {} tr m ∧
    m.sleep .apply = .asleep ∧
    ∃ m₁, (m₁, MonitorEvent.announce) ∈ tr ∧ m₁.holder = some .apply := by
  obtain ⟨m, hm, hok⟩ := (Option.any_eq_true _ _).mp
    (show (exec (Monitor.step (raftThreads Json.text sleeper)) (fun _ _ => True) { data := {} }
      stopApply).any (fun m => decide (m.flag = .announced ∧ m.sleep .apply = .asleep)) = true by
      decide +kernel)
  obtain ⟨hflag, hasleep⟩ := of_decide_eq_true hok
  have run := runs_of_exec hm
  exact ⟨_, m, run, hasleep, ((stop_misses run).1 hflag .apply rfl hasleep).1⟩

end Proof
end OrcDb
