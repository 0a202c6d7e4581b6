import OrcDb.Proof.Raft.Recovery

/-!
# A client can always write

`recovers` goes on from any state to a leader with everybody behind it. A `Propose` on that
leader is then replicated like the rest of its log, committed, applied, and its waiting call
returns `ok`. What has to be added to the recovery is the apply loop of the leader, one entry
after the other, and that the call that is woken is the one that was made: calls are numbered,
and a waiting call has a number that was given out before.
-/

set_option autoImplicit false

namespace OrcDb
namespace Proof

open Lib Replicas

variable {c : Cluster} {s s' : State} {i p : String} {n n' : RaftNode} {act : Action}

/-! ## The waiting calls -/

/-- Only `Propose` adds a call. -/
theorem Touch.proposals (h : Touch c s act i n n') :
    (∀ q ∈ n'.proposals, q ∈ n.proposals) ∨
      ∃ key value op ttlMs, act = .propose i key value op ttlMs := by
  cases h with
  | quiet steady | noOp steady | commit steady | accept _ _ steady => exact Or.inl steady.proposals
  | propose call => exact Or.inr ⟨_, _, _, _, call⟩
  | beginApply | endApply => exact Or.inl fun _ h => h

theorem Does.proposals {e : Effect} (hd : Does c s act e)
    (hsmall : ∀ i ∈ c.ids, (s.node i).log.size ≤ c.snapshotThreshold) :
    ∀ q ∈ e.node.proposals, q ∈ (s.node e.actor).proposals ∨ q.id = s.nextCall := by
  intro q hq
  have ht := (hd.touch hsmall).proposals
  cases hd with
  | @propose i key value op ttlMs n up =>
    rw [up.node]
    simp only [RaftNode.propose] at hq
    split at hq
    · exact Or.inl hq
    · rcases List.mem_append.mp hq with hq | hq
      · exact Or.inl hq
      · rw [List.mem_singleton.mp hq]
        exact Or.inr rfl
  | startElection | recvVote | skipVote | finishElection | startReplicate | finishReplicate
  | abandonReplicate | handleRequestVote | handleAppendEntries | wakePropose | beginApply | endApply
  | stallApply =>
    rcases ht with hold | ⟨_, _, _, _, hact⟩
    · exact Or.inl (hold q hq)
    · exact absurd hact (by simp)

/-- Every waiting call has a number that was given out. -/
def Numbered (s : State) : Prop := ∀ i, ∀ q ∈ (s.node i).proposals, q.id < s.nextCall

theorem Numbered.step {ev : Event} (h : Numbered s) (hplain : ev.Plain c s)
    (hstep : ev.step c s = some s') : Numbered s' := by
  cases stepped hstep with
  | @act a e hd =>
    refine (Function.forall_update_iff s.node
      fun _ n => ∀ q ∈ n.proposals, q.id < s.nextCall + 1).mpr ⟨fun q hq => ?_, fun j _ q hq => ?_⟩
    · rcases hd.proposals hplain q hq with hold | hnew
      · exact Nat.lt_succ_of_lt (h _ q hold)
      · rw [hnew]
        exact Nat.lt_succ_self _
    · exact Nat.lt_succ_of_lt (h j q hq)
  | drop => exact h
  | stop | stopDuring | restart | stopDuringRestart => exact hplain.elim

theorem Live.numbered (h : Live c s) : Numbered s := by
  obtain ⟨tr, run⟩ := h
  exact run.invariant (fun _ _ _ hs hplain hstep => hs.step hplain hstep)
    (fun _ _ hq => absurd hq (by simp [State.init]))

/-- What `Propose` leaves on a leader. -/
theorem propose_of_leader (J : Json.Codec) (id : Nat) (key value : String) (op : OpType)
    (ttlMs : Int) (hr : n.role = .Leader) :
    ∃ e : LogEntry, e.term = n.currentTerm ∧ e.index = n.log.lastIndex + 1 ∧ e.key = key ∧
      e.value = value ∧ e.opType = op ∧ e.ttlMs = ttlMs ∧
      (n.propose J id key value op ttlMs).1 =
        { n.appendLog J e with
          proposals := n.proposals ++ [{ id, index := n.log.lastIndex + 1, entry := e }] } := by
  unfold RaftNode.propose
  rw [if_neg (not_not.mpr hr)]
  exact ⟨_, rfl, rfl, rfl, rfl, rfl, rfl, rfl⟩

end Proof
end OrcDb
