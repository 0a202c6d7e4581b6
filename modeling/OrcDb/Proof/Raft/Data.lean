import OrcDb.Proof.Raft.Safety

/-!
# What a section does to the data

Fourteen sections, but only seven things can happen to what the clients see of a node — its
log, its commit index, the entries it has applied and the proposals it is waiting for.
`Touch` lists them, and `Does.touch` is the inversion. The proofs about commits and about
proposals go by cases on `Touch`.
-/

set_option autoImplicit false

namespace OrcDb
namespace Proof

open Lib Replicas

/-- Nothing is applied and nothing new is proposed; a leader stays leader while the term
    stays the same. -/
structure Steady (n n' : RaftNode) : Prop where
  applied : n'.applied = n.applied
  lastApplied : n'.lastApplied = n.lastApplied
  applying : n'.applying = n.applying
  proposals : ∀ p ∈ n'.proposals, p ∈ n.proposals
  term : n.currentTerm ≤ n'.currentTerm
  role : n'.currentTerm = n.currentTerm → n.role = .Leader → n'.role = .Leader

theorem Steady.refl (n : RaftNode) : Steady n n :=
  ⟨rfl, rfl, rfl, fun _ h => h, Nat.le_refl _, fun _ h => h⟩

inductive Touch (c : Cluster) (s : State) (act : Action) (i : String) (n : RaftNode) :
    RaftNode → Prop
  | quiet {n' : RaftNode} (steady : Steady n n') (log : n'.log = n.log)
      (commit : n'.commitIndex = n.commitIndex) : Touch c s act i n n'
  /-- `BecomeLeader`. -/
  | noOp {n' : RaftNode} (steady : Steady n n') (commit : n'.commitIndex = n.commitIndex)
      (log : n'.log = (n.log.append c.json
        (LogEntry.noOp c.json n.currentTerm (n.log.lastIndex + 1))).1) : Touch c s act i n n'
  | propose {id : Nat} {e : LogEntry} {key value : String} {op : OpType} {ttlMs : Int}
      (call : act = .propose i key value op ttlMs) (leader : n.role = .Leader)
      (term : e.term = n.currentTerm) (index : e.index = n.log.lastIndex + 1) :
      Touch c s act i n
        { n.appendLog c.json e with
          proposals := n.proposals ++ [{ id, index := n.log.lastIndex + 1, entry := e }] }
  /-- `AdvanceCommitIndex` found an index. -/
  | commit {n' : RaftNode} (steady : Steady n n') (log : n'.log = n.log)
      (leader : n'.role = .Leader) (bound : n'.commitIndex ≤ n'.log.lastIndex)
      (own : n'.log.getTerm n'.commitIndex = n'.currentTerm)
      (count : RaftNode.quorumSize (c.config i) ≤ n'.replicated n'.commitIndex)
      (up : n.commitIndex < n'.commitIndex) : Touch c s act i n n'
  /-- The accepting tail of `HandleAppendEntries`. -/
  | accept {src : String} {id k : Nat} {req : AppendEntriesRequest} {n' : RaftNode}
      (deliver : act = .deliver k)
      (pkt : s.network[k]? = some ⟨src, i, id, .appendRequest req⟩) (steady : Steady n n')
      (term : n'.currentTerm = req.term)
      (passed : n.rejection req { term := n.currentTerm } = none)
      (log : n'.log = (n.log.appendAll c.json req.entries).1)
      (commit : n'.commitIndex = if req.leaderCommit > n.commitIndex then
        min req.leaderCommit (n.log.appendAll c.json req.entries).1.lastIndex
        else n.commitIndex) : Touch c s act i n n'
  | beginApply {e : LogEntry} (idle : n.applying = none) (behind : n.lastApplied < n.commitIndex)
      (entry : n.log.getEntry (n.lastApplied + 1) = some e) :
      Touch c s act i n
        { n with applying := some (n.lastApplied + 1, e), applied := n.applied ++ [e] }
  | endApply {next : Nat} {e : LogEntry} (busy : n.applying = some (next, e)) :
      Touch c s act i n { n with lastApplied := next, applying := none }

variable {c : Cluster} {s : State} {act : Action} {i : String} {n : RaftNode}

theorem steady_becomeFollower {t : Nat} (h : n.currentTerm < t) (leaderId : String) :
    Steady n (n.becomeFollower t leaderId) where
  applied := rfl
  lastApplied := rfl
  applying := rfl
  proposals := fun _ hp => hp
  term := Nat.le_of_lt h
  role := fun ht => by
    have : t = n.currentTerm := ht
    omega

theorem adoptTerm_data (n : RaftNode) (t : Nat) (leaderId : String) :
    Steady n (n.adoptTerm t leaderId) ∧ (n.adoptTerm t leaderId).log = n.log ∧
      (n.adoptTerm t leaderId).commitIndex = n.commitIndex := by
  unfold RaftNode.adoptTerm
  split
  · rename_i h
    exact ⟨steady_becomeFollower h leaderId, rfl, rfl⟩
  · exact ⟨.refl n, rfl, rfl⟩

theorem touch_recvVote (call : ElectionCall) (resp : RequestVoteResponse) :
    Touch c s act i n (n.recvVote call resp) := by
  have h' := voteAnswered n call resp
  generalize n.recvVote call resp = out at h' ⊢
  cases h' with
  | newer hlt =>
    obtain ⟨h₁, h₂, h₃, h₄, h₅, h₆⟩ := steady_becomeFollower hlt ""
    exact .quiet ⟨h₁, h₂, h₃, h₄, h₅, h₆⟩ rfl rfl
  | vote _ _ _ _ | other _ _ =>
    exact .quiet ⟨rfl, rfl, rfl, fun _ h => h, Nat.le_refl _, fun _ h => h⟩ rfl rfl

theorem touch_handleRequestVote (req : RequestVoteRequest) :
    Touch c s act i n (n.handleRequestVote req).1 := by
  obtain ⟨⟨h₁, h₂, h₃, h₄, h₅, h₆⟩, hlog, hcommit⟩ := adoptTerm_data n req.term ""
  have h' := voteHandled n req
  generalize n.handleRequestVote req = out at h' ⊢
  cases h' with
  | stale _ => exact .quiet (.refl n) rfl rfl
  | granted _ _ | denied _ _ => exact .quiet ⟨h₁, h₂, h₃, h₄, h₅, h₆⟩ hlog hcommit

theorem touch_finishReplicate (call : ReplicateCall) (resp : AppendEntriesResponse) :
    Touch c s act i n (n.finishReplicate (c.config i) call resp) := by
  have h' := finished (c.config i) n call resp
  generalize n.finishReplicate (c.config i) call resp = out at h' ⊢
  cases h' with
  | newer hlt =>
    obtain ⟨h₁, h₂, h₃, h₄, h₅, h₆⟩ :=
      steady_becomeFollower (n := { n with replication := none }) hlt ""
    exact .quiet ⟨h₁, h₂, h₃, h₄, h₅, h₆⟩ rfl rfl
  | dropped _ _ | failure _ _ _ =>
    exact .quiet ⟨rfl, rfl, rfl, fun _ h => h, Nat.le_refl _, fun _ h => h⟩ rfl rfl
  | success hr _ _ =>
    rw [advanceCommitIndex_eq]
    cases hm : RaftNode.findCommit (c.config i) (recorded n call)
        (recorded n call).log.lastIndex with
    | none => exact .quiet ⟨rfl, rfl, rfl, fun _ h => h, Nat.le_refl _, fun _ h => h⟩ rfl rfl
    | some m =>
      obtain ⟨hb, hup, hown, hcount⟩ := findCommit_spec hm
      exact .commit ⟨rfl, rfl, rfl, fun _ h => h, Nat.le_refl _, fun _ h => h⟩ rfl hr hb hown
        hcount hup

theorem touch_handleAppendEntries {src : String} {id k : Nat} {req : AppendEntriesRequest}
    (pkt : s.network[k]? = some ⟨src, i, id, .appendRequest req⟩) :
    Touch c s (.deliver k) i n (n.handleAppendEntries c.json req).1 := by
  obtain ⟨⟨h₁, h₂, h₃, h₄, h₅, h₆⟩, -, -⟩ := adoptTerm_data n req.term req.leaderId
  have h' := handled c.json n req
  generalize n.handleAppendEntries c.json req = out at h' ⊢
  cases h' with
  | stale _ => exact .quiet (.refl n) rfl rfl
  | rejected _ _ => exact .quiet ⟨h₁, h₂, h₃, h₄, h₅, h₆⟩ heard_log heard_commitIndex
  | accepted hle hpassed =>
    -- the merge touches the log and, if the leader is ahead, the commit index
    rw [acceptEntries_eq, heard_log, heard_commitIndex]
    exact .accept rfl pkt ⟨h₁, h₂, h₃, h₄, h₅, h₆⟩ (heard_currentTerm hle) hpassed rfl rfl

/-- **What a section does to the data.** -/
theorem Does.touch {e : Effect} (h : Does c s act e)
    (hsmall : ∀ i ∈ c.ids, (s.node i).log.size ≤ c.snapshotThreshold) :
    Touch c s act e.actor (s.node e.actor) e.node := by
  cases h with
  | startElection up =>
    rw [up.node]
    refine .quiet ⟨rfl, rfl, rfl, fun _ h => h, Nat.le_succ _, fun ht => ?_⟩ rfl rfl
    simp [RaftNode.startElection, RaftNode.persistHardState] at ht
  | recvVote up => rw [up.node]; exact touch_recvVote _ _
  | finishElection up =>
    rw [up.node]
    simp only [RaftNode.finishElection]
    split
    · exact .noOp ⟨rfl, rfl, rfl, fun _ h => h, Nat.le_refl _, fun _ _ => rfl⟩ rfl rfl
    · exact .quiet ⟨rfl, rfl, rfl, fun _ h => h, Nat.le_refl _, fun _ h => h⟩ rfl rfl
  | skipVote up | startReplicate up | abandonReplicate up =>
    rw [up.node]
    exact .quiet ⟨rfl, rfl, rfl, fun _ h => h, Nat.le_refl _, fun _ h => h⟩ rfl rfl
  | finishReplicate up => rw [up.node]; exact touch_finishReplicate _ _
  | handleRequestVote up => rw [up.node]; exact touch_handleRequestVote _
  | handleAppendEntries up pkt =>
    rw [up.node]
    exact touch_handleAppendEntries pkt
  | @propose i key value op ttlMs n up =>
    rw [up.node]
    simp only [RaftNode.propose]
    split
    · exact .quiet (.refl n) rfl rfl
    · rename_i hr
      exact .propose rfl (not_not.mp hr) rfl rfl
  | wakePropose up =>
    rw [up.node]
    exact .quiet ⟨rfl, rfl, rfl, fun _ h => (List.mem_filter.mp h).1, Nat.le_refl _,
      fun _ h => h⟩ rfl rfl
  | beginApply up idle behind entry =>
    rw [up.node]
    exact .beginApply idle behind entry
  | @endApply i data n next e up busy =>
    have hle := hsmall i up.mem
    rw [up.node] at hle ⊢
    have hend := endApply_of_le (c.config i) hle next data
    simp only [hend]
    exact .endApply busy
  | @stallApply i data n up =>
    have hle := hsmall i up.mem
    rw [up.node] at hle ⊢
    have hend := maybeSnapshot_of_le (c.config i) hle data
    simp only [hend]
    exact .quiet (.refl n) rfl rfl

/-! ## The count of applied entries

`applied` grows by one when `ApplyLoop` starts on an entry, `lastApplied_` when it is done. -/

structure ApplyOk (n : RaftNode) : Prop where
  idle : n.applying = none → n.applied.length = n.lastApplied
  busy : ∀ next e, n.applying = some (next, e) →
    next = n.lastApplied + 1 ∧ n.applied.length = n.lastApplied + 1

theorem ApplyOk.steady {n n' : RaftNode} (h : ApplyOk n) (hs : Steady n n') : ApplyOk n' where
  idle := by rw [hs.applying, hs.applied, hs.lastApplied]; exact h.idle
  busy := by rw [hs.applying, hs.applied, hs.lastApplied]; exact h.busy

theorem ApplyOk.touch {n n' : RaftNode} (h : ApplyOk n) (ht : Touch c s act i n n') :
    ApplyOk n' := by
  cases ht with
  | quiet steady | noOp steady | commit steady | accept _ _ steady => exact h.steady steady
  | propose => exact ⟨h.idle, h.busy⟩
  | @beginApply e idle behind entry =>
    refine ⟨fun h' => absurd h' (by simp), fun next e' hb => ?_⟩
    cases hb
    exact ⟨rfl, by simp [h.idle idle]⟩
  | @endApply next e busy =>
    obtain ⟨h₁, h₂⟩ := h.busy next e busy
    exact ⟨fun _ => by rw [h₂, h₁], fun _ _ h' => absurd h' (by simp)⟩

end Proof
end OrcDb
