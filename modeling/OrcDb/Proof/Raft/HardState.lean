import OrcDb.Proof.Raft.Log
import OrcDb.Proof.Raft.Sections

/-!
# The vote on disk

Everything a node ever promised about terms and votes is in the hard-state records of its
WAL. `Disciplined` is the law they obey, read along the list of records: a hard state either
raises the term, or keeps it and keeps a vote already cast. From the law alone it follows that
terms never go back and that there is **one vote per term** (`Disciplined.later`,
`Disciplined.one_vote`).

The other half of the file is that the code obeys it: `Persists n n'` says that a section
took `n` to `n'`, wrote records that continue the discipline from `n`'s own term and vote,
and left `n'` with exactly the term and vote those records end in. Every section does.
Because the law is about every prefix of the records, a node that stops half-way through a
section leaves a disciplined disk too.
-/

set_option autoImplicit false

namespace OrcDb
namespace Proof

open Lib

/-! ## The discipline -/

/-- The term and the vote a node holds in memory. -/
def hardOf (n : RaftNode) : HardState := { term := n.currentTerm, votedFor := n.votedFor }

/-- The hard state in force after one more record. -/
def hardStep (hs : HardState) : WalRecord → HardState
  | .hardState h => h
  | _ => hs

def hardAfter (hs : HardState) (rs : List WalRecord) : HardState := rs.foldl hardStep hs

/-- A hard state may follow `hs`: the term rises, or a vote already cast is kept. -/
def VoteRule (hs h : HardState) : Prop :=
  hs.term < h.term ∨ h.term = hs.term ∧ (hs.votedFor = "" ∨ h.votedFor = hs.votedFor)

def RecordOk (hs : HardState) : WalRecord → Prop
  | .hardState h => VoteRule hs h
  | _ => True

def Disciplined : HardState → List WalRecord → Prop
  | _, [] => True
  | hs, r :: rs => RecordOk hs r ∧ Disciplined (hardStep hs r) rs

theorem replay_hardState (rs : List WalRecord) : (replay rs).hardState = hardAfter {} rs := by
  suffices h : ∀ (r : RecoveryResult),
      (rs.foldl RecoveryResult.apply r).hardState = hardAfter r.hardState rs from h {}
  induction rs with
  | nil => intro r; rfl
  | cons x xs ih =>
    intro r
    simp only [List.foldl_cons, ih, hardAfter]
    cases x <;> rfl

theorem disciplined_append {hs : HardState} {rs rs' : List WalRecord} :
    Disciplined hs (rs ++ rs') ↔ Disciplined hs rs ∧ Disciplined (hardAfter hs rs) rs' := by
  induction rs generalizing hs with
  | nil => simp [Disciplined, hardAfter]
  | cons r rs ih =>
    simp only [List.cons_append, Disciplined, ih, hardAfter, List.foldl_cons, and_assoc]

theorem Disciplined.take {hs : HardState} {rs : List WalRecord} (h : Disciplined hs rs)
    (k : Nat) : Disciplined hs (rs.take k) := by
  rw [← List.take_append_drop k rs, disciplined_append] at h
  exact h.1

theorem hardAfter_append (hs : HardState) (rs rs' : List WalRecord) :
    hardAfter hs (rs ++ rs') = hardAfter (hardAfter hs rs) rs' := by
  simp [hardAfter]

/-- A record later than `hs` is not of an earlier term, and in `hs`'s own term it names the
    candidate `hs` names, if `hs` names one. -/
theorem Disciplined.later {hs h : HardState} {rs : List WalRecord} (hd : Disciplined hs rs)
    (hm : WalRecord.hardState h ∈ rs) :
    hs.term ≤ h.term ∧ (h.term = hs.term → hs.votedFor ≠ "" → h.votedFor = hs.votedFor) := by
  induction rs generalizing hs with
  | nil => exact absurd hm (by simp)
  | cons r rs ih =>
    obtain ⟨hr, hrest⟩ := hd
    rcases List.mem_cons.mp hm with rfl | hm'
    · rcases hr with hlt | ⟨heq, hv⟩
      · exact ⟨Nat.le_of_lt hlt, fun h' => absurd h' (by omega)⟩
      · refine ⟨by omega, fun _ hne => ?_⟩
        rcases hv with hv | hv
        · exact absurd hv hne
        · exact hv
    · have hih := ih hrest hm'
      cases r with
      | logEntry e => exact hih
      | snapshot i t d => exact hih
      | hardState h₁ =>
        simp only [hardStep] at hih
        rcases hr with hlt | ⟨heq, hv⟩
        · exact ⟨by omega, fun h' => absurd h' (by omega)⟩
        · refine ⟨by omega, fun h' hne => ?_⟩
          rcases hv with hv | hv
          · exact absurd hv hne
          · rw [← hv]
            exact hih.2 (by omega) (by rw [hv]; exact hne)

/-- **One vote per term.** Two hard states of one term that both name a candidate name the
    same one. -/
theorem Disciplined.one_vote {hs h h' : HardState} {rs : List WalRecord}
    (hd : Disciplined hs rs) (hm : WalRecord.hardState h ∈ rs)
    (hm' : WalRecord.hardState h' ∈ rs) (ht : h.term = h'.term) (hv : h.votedFor ≠ "")
    (hv' : h'.votedFor ≠ "") : h.votedFor = h'.votedFor := by
  induction rs generalizing hs with
  | nil => exact absurd hm (by simp)
  | cons r rs ih =>
    obtain ⟨-, hrest⟩ := hd
    -- the earlier of the two is the head at some point; from there on `later` decides
    rcases List.mem_cons.mp hm with hh | hh <;> rcases List.mem_cons.mp hm' with hh' | hh'
    · rw [← hh] at hh'
      injection hh' with hh'
      rw [hh']
    · subst hh
      exact (((Disciplined.later hrest hh').2 ht.symm) hv).symm
    · subst hh'
      exact (Disciplined.later hrest hh).2 ht hv'
    · exact ih hrest hh hh'

/-! ## Every section obeys it -/

/-- A section took `n` to `n'` and its records continue the discipline from one to the
    other. -/
def Persists (n n' : RaftNode) : Prop :=
  ∃ rs, n'.wal = n.wal ++ rs ∧ Disciplined (hardOf n) rs ∧ hardAfter (hardOf n) rs = hardOf n'

theorem Persists.refl {n n' : RaftNode} (hw : n'.wal = n.wal) (hh : hardOf n = hardOf n') :
    Persists n n' :=
  ⟨[], by simp [hw], trivial, hh⟩

theorem Persists.trans {n₁ n₂ n₃ : RaftNode} (h : Persists n₁ n₂) (h' : Persists n₂ n₃) :
    Persists n₁ n₃ := by
  obtain ⟨rs, hw, hd, ha⟩ := h
  obtain ⟨rs', hw', hd', ha'⟩ := h'
  refine ⟨rs ++ rs', by rw [hw', hw, List.append_assoc], ?_, ?_⟩
  · rw [disciplined_append, ha]
    exact ⟨hd, hd'⟩
  · rw [hardAfter_append, ha, ha']

/-- `PersistHardState` after a change of term or vote that the rule allows. -/
theorem Persists.hard {n n' : RaftNode} (hw : n'.wal = n.wal)
    (hr : VoteRule (hardOf n) (hardOf n')) : Persists n n'.persistHardState :=
  ⟨[.hardState (hardOf n')], by simp [RaftNode.persistHardState, hardOf, hw],
    ⟨hr, trivial⟩, rfl⟩

/-- Records that are not hard states. -/
theorem Persists.entries {n n' : RaftNode} (rs : List WalRecord) (hw : n'.wal = n.wal ++ rs)
    (hh : hardOf n = hardOf n') (hrs : ∀ r ∈ rs, ∀ h, r ≠ .hardState h) : Persists n n' := by
  have key : ∀ (rs : List WalRecord) (hs : HardState), (∀ r ∈ rs, ∀ h, r ≠ .hardState h) →
      Disciplined hs rs ∧ hardAfter hs rs = hs := by
    intro rs
    induction rs with
    | nil => exact fun hs _ => ⟨trivial, rfl⟩
    | cons r rs ih =>
      intro hs hne
      have hr := hne r (by simp)
      have hrest := ih hs (fun r' hr' => hne r' (by simp [hr']))
      cases r with
      | hardState h => exact absurd rfl (hr h)
      | logEntry e => exact ⟨⟨trivial, hrest.1⟩, hrest.2⟩
      | snapshot i t d => exact ⟨⟨trivial, hrest.1⟩, hrest.2⟩
  exact ⟨rs, hw, (key rs _ hrs).1, by rw [(key rs _ hrs).2, hh]⟩

theorem persists_appendLog (J : Json.Codec) (n : RaftNode) (e : LogEntry) :
    Persists n (n.appendLog J e) :=
  .entries [e.record J] rfl rfl (by simp [LogEntry.record])

theorem persists_appendAllLog (J : Json.Codec) (n : RaftNode) (es : List LogEntry) :
    Persists n (n.appendAllLog J es) := by
  refine .entries (es.map (LogEntry.record J)) ?_ rfl ?_
  · simp [RaftNode.appendAllLog, appendAll_records]
  · simp only [List.mem_map, forall_exists_index, and_imp, forall_apply_eq_imp_iff₂]
    intro e _ h
    simp [LogEntry.record]

theorem persists_becomeFollower {n : RaftNode} {term : Nat} (h : n.currentTerm < term)
    (leaderId : String) : Persists n (n.becomeFollower term leaderId) :=
  .hard rfl (Or.inl h)

theorem persists_startElection (cfg : RaftConfig) (id : Nat) (n : RaftNode) :
    Persists n (n.startElection cfg id).1 := by
  have hhard : Persists n (RaftNode.persistHardState
      { n with currentTerm := n.currentTerm + 1, votedFor := cfg.nodeId, role := .Candidate }) :=
    .hard rfl (Or.inl (Nat.lt_succ_self _))
  exact hhard.trans (.refl rfl rfl)

theorem persists_recvVote (n : RaftNode) (call : ElectionCall) (resp : RequestVoteResponse) :
    Persists n (n.recvVote call resp) := by
  have h' := voteAnswered n call resp
  generalize n.recvVote call resp = out at h' ⊢
  cases h' with
  | newer hlt => exact .trans (persists_becomeFollower hlt "") (.refl rfl rfl)
  | vote _ _ _ _ | other _ _ => exact .refl rfl rfl

theorem persists_finishElection (J : Json.Codec) (cfg : RaftConfig) (n : RaftNode)
    (call : ElectionCall) : Persists n (n.finishElection J cfg call) := by
  unfold RaftNode.finishElection
  split
  · unfold RaftNode.becomeLeader
    exact .trans (.refl rfl rfl) (persists_appendLog _ _ _)
  · exact .refl rfl rfl

theorem persists_adoptTerm (n : RaftNode) (term : Nat) (leaderId : String) :
    Persists n (n.adoptTerm term leaderId) := by
  unfold RaftNode.adoptTerm
  split
  · rename_i h
    exact persists_becomeFollower h leaderId
  · exact .refl rfl rfl

/-- The vote is cast under the rule: it was free, or it is repeated. -/
theorem persists_handleRequestVote (n : RaftNode) (req : RequestVoteRequest) :
    Persists n (n.handleRequestVote req).1 := by
  have hup := persists_adoptTerm n req.term ""
  have h' := voteHandled n req
  generalize n.handleRequestVote req = out at h' ⊢
  cases h' with
  | stale _ => exact .refl rfl rfl
  | granted _ hg =>
    refine hup.trans (.hard rfl (Or.inr ⟨rfl, ?_⟩))
    simp only [hardOf]
    by_cases hv : (n.adoptTerm req.term "").votedFor = ""
    · exact Or.inl hv
    · exact Or.inr (by_contra fun hne => hg.1 ⟨hv, fun h => hne h.symm⟩)
  | denied _ _ => exact hup

/-- A granted vote is the last record of its section. -/
theorem handleRequestVote_writes {n : RaftNode} {req : RequestVoteRequest}
    (h : (n.handleRequestVote req).2.voteGranted = true) :
    (n.handleRequestVote req).1.wal =
      (n.adoptTerm req.term "").wal ++
        [.hardState { term := req.term, votedFor := req.candidateId }] := by
  have h' := voteHandled n req
  generalize n.handleRequestVote req = out at h h' ⊢
  cases h' with
  | stale _ | denied _ _ => exact absurd h (by simp)
  | granted hle _ => simp only [RaftNode.persistHardState, adoptTerm_currentTerm hle]

theorem persists_acceptEntries (J : Json.Codec) (n : RaftNode) (req : AppendEntriesRequest) :
    Persists n (n.acceptEntries J req) := by
  rw [acceptEntries_eq]
  exact (persists_appendAllLog J n req.entries).trans (.refl rfl rfl)

theorem persists_handleAppendEntries (J : Json.Codec) (n : RaftNode)
    (req : AppendEntriesRequest) : Persists n (n.handleAppendEntries J req).1 := by
  have hup : Persists n (heard n req) :=
    (persists_adoptTerm n req.term req.leaderId).trans (.refl rfl rfl)
  have h' := handled J n req
  generalize n.handleAppendEntries J req = out at h' ⊢
  cases h' with
  | stale _ => exact .refl rfl rfl
  | rejected _ _ => exact hup
  | accepted _ _ => exact hup.trans (persists_acceptEntries J _ req)

theorem persists_advanceCommitIndex (cfg : RaftConfig) (n : RaftNode) :
    Persists n (RaftNode.advanceCommitIndex cfg n) := by
  rw [advanceCommitIndex_eq]
  exact .refl rfl rfl

theorem persists_finishReplicate (cfg : RaftConfig) (n : RaftNode) (call : ReplicateCall)
    (resp : AppendEntriesResponse) : Persists n (n.finishReplicate cfg call resp) := by
  have h' := finished cfg n call resp
  generalize n.finishReplicate cfg call resp = out at h' ⊢
  cases h' with
  | newer hlt =>
    have hstart : Persists n { n with replication := none } := .refl rfl rfl
    exact hstart.trans (persists_becomeFollower hlt "")
  | success _ _ _ =>
    have hstart : Persists n (recorded n call) := .refl rfl rfl
    exact hstart.trans (persists_advanceCommitIndex cfg _)
  | dropped _ _ | failure _ _ _ => exact .refl rfl rfl

theorem persists_propose (J : Json.Codec) (id : Nat) (n : RaftNode) (key value : String)
    (op : OpType) (ttlMs : Int) : Persists n (n.propose J id key value op ttlMs).1 := by
  unfold RaftNode.propose
  split
  · exact .refl rfl rfl
  · exact (persists_appendLog J n _).trans (.refl rfl rfl)

theorem persists_maybeSnapshot (cfg : RaftConfig) (n : RaftNode) (data : String) :
    Persists n (n.maybeSnapshot cfg data) := by
  unfold RaftNode.maybeSnapshot
  split
  · exact .entries _ rfl rfl (by simp)
  · exact .refl rfl rfl

theorem persists_endApply (cfg : RaftConfig) (n : RaftNode) (next : Nat) (data : String) :
    Persists n (n.endApply cfg next data) := by
  unfold RaftNode.endApply
  dsimp only
  split
  · exact .trans (.refl rfl rfl) (persists_maybeSnapshot cfg _ data)
  · exact .refl rfl rfl

/-- **Every section persists what it promises.** -/
theorem Does.persists {c : Cluster} {s : State} {a : Action} {e : Effect} (h : Does c s a e) :
    Persists (s.node e.actor) e.node := by
  cases h with
  | startElection up => rw [up.node]; exact persists_startElection _ _ _
  | recvVote up => rw [up.node]; exact persists_recvVote _ _ _
  | skipVote up => rw [up.node]; exact .refl rfl rfl
  | finishElection up => rw [up.node]; exact persists_finishElection _ _ _ _
  | startReplicate up => rw [up.node]; exact .refl rfl rfl
  | finishReplicate up => rw [up.node]; exact persists_finishReplicate _ _ _ _
  | abandonReplicate up => rw [up.node]; exact .refl rfl rfl
  | handleRequestVote up => rw [up.node]; exact persists_handleRequestVote _ _
  | handleAppendEntries up => rw [up.node]; exact persists_handleAppendEntries _ _ _
  | propose up => rw [up.node]; exact persists_propose _ _ _ _ _ _ _
  | wakePropose up => rw [up.node]; exact .refl rfl rfl
  | beginApply up => rw [up.node]; exact .refl rfl rfl
  | endApply up => rw [up.node]; exact persists_endApply _ _ _ _
  | stallApply up => rw [up.node]; exact persists_maybeSnapshot _ _ _

end Proof
end OrcDb
