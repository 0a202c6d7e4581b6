import OrcDb.Proof.Raft.Data

/-!
# What an acknowledged `Propose` stands for

`Propose` appends an entry, drops the lock, and comes back when `lastApplied_` has reached the
index it remembers. It then looks at `role_` only. A node that lost the leadership, had its
entry overwritten, and was elected again reports success for another node's entry
(`acknowledged_fails`).

`Owned` is what is missing: the index was not applied yet when the entry was appended, and
the term is still the entry's own when the call returns. Within one term a leader's log only
grows, so the entry is still there when its index is applied (`acknowledged`).
-/

set_option autoImplicit false

namespace OrcDb
namespace Proof

open Lib Replicas

/-- A leader appends a proposal behind everything it has applied, and a waiting call finds
    its node leader, with its index applied, only in the term of its entry. -/
def Owned (s : State) : Event → Prop
  | .act (.propose i _ _ _ _) =>
      (s.node i).role = .Leader → (s.node i).applied.length ≤ (s.node i).log.lastIndex
  | .act (.wakePropose i id _) =>
      ∀ call ∈ (s.node i).proposals, call.id = id → (s.node i).role = .Leader →
        call.index ≤ (s.node i).lastApplied → call.entry.term = (s.node i).currentTerm
  | _ => True

instance (s : State) (ev : Event) : Decidable (Owned s ev) := by
  unfold Owned
  split <;> infer_instance

variable {c : Cluster} {s s' : State} {a a' : Replicas String LogEntry} {i : String}
  {n n' : RaftNode}

/-- A waiting call of the current term belongs to the leader, its entry is in the log, and if
    the index has been applied, it was this entry. -/
structure ProposalOk (n : RaftNode) (call : ProposeCall) : Prop where
  index : call.entry.index = call.index
  pos : 0 < call.index
  term : call.entry.term ≤ n.currentTerm
  leader : call.entry.term = n.currentTerm → n.role = .Leader
  held : call.entry.term = n.currentTerm → n.log.entries[call.index]? = some call.entry
  applied : call.entry.term = n.currentTerm → ∀ (k : Nat) (e : LogEntry),
    n.applied[k]? = some e → k + 1 = call.index → e = call.entry

structure ProposeOk (n : RaftNode) : Prop where
  counts : ApplyOk n
  indices : ∀ (k : Nat) (e : LogEntry), n.applied[k]? = some e → e.index = k + 1
  calls : ∀ call ∈ n.proposals, ProposalOk n call

/-- A call survives a section that leaves the applied entries and, in its own term, its entry
    in the log alone. -/
theorem ProposalOk.steady {call : ProposeCall} (h : ProposalOk n call) (hs : Steady n n')
    (hlog : n'.currentTerm = n.currentTerm → n.role = .Leader →
      n.log.entries[call.index]? = some call.entry →
        n'.log.entries[call.index]? = some call.entry) : ProposalOk n' call := by
  have hback : call.entry.term = n'.currentTerm →
      n'.currentTerm = n.currentTerm ∧ call.entry.term = n.currentTerm := by
    intro ht
    have := h.term
    have := hs.term
    omega
  refine ⟨h.index, h.pos, Nat.le_trans h.term hs.term, fun ht => ?_, fun ht => ?_, fun ht => ?_⟩
  · obtain ⟨h₁, h₂⟩ := hback ht
    exact hs.role h₁ (h.leader h₂)
  · obtain ⟨h₁, h₂⟩ := hback ht
    exact hlog h₁ (h.leader h₂) (h.held h₂)
  · rw [hs.applied]
    exact h.applied (hback ht).2

theorem ProposeOk.steady (h : ProposeOk n) (hs : Steady n n')
    (hlog : n'.currentTerm = n.currentTerm → n.role = .Leader → ∀ (k : Nat) (e : LogEntry),
      n.log.entries[k]? = some e → n'.log.entries[k]? = some e) : ProposeOk n' :=
  ⟨h.counts.steady hs, by rw [hs.applied]; exact h.indices, fun call hc =>
    (h.calls call (hs.proposals call hc)).steady hs (fun h₁ h₂ => hlog h₁ h₂ _ _)⟩

theorem getElem?_concat_of_some {xs : List LogEntry} {k : Nat} {e x : LogEntry}
    (h : xs[k]? = some e) : (xs ++ [x])[k]? = some e :=
  getElem?_concat_iff.mpr (Or.inl h)

theorem ProposeOk.touch {act : Action} (sim : Sim c s a) (hn : s.node i = n)
    (h : ProposeOk n) (howned : Owned s (.act act)) (ht : Touch c s act i n n') :
    ProposeOk n' := by
  have hok := sim.nodes i
  rw [hn] at hok
  have hs := hok.shaped sim.inv
  have hcounts := h.counts.touch ht
  cases ht with
  | quiet steady log => exact h.steady steady (fun _ _ k e he => by rw [log]; exact he)
  | commit steady log => exact h.steady steady (fun _ _ k e he => by rw [log]; exact he)
  | noOp steady commit log =>
    refine h.steady steady (fun _ _ k e he => ?_)
    rw [log]
    exact getElem?_concat_of_some he
  | @propose id e _ _ _ _ call leader term index =>
    subst call
    have hbehind : n.applied.length ≤ n.log.lastIndex := by
      have := howned
      simp only [Owned, hn] at this
      exact this leader
    have hlen := hs.lastIndex_eq
    have hpos := hs.length_pos
    refine ⟨⟨h.counts.idle, h.counts.busy⟩, h.indices, fun call hc => ?_⟩
    rcases List.mem_append.mp hc with hc | hc
    · obtain ⟨h₁, h₂, h₃, h₄, h₅, h₆⟩ := h.calls call hc
      exact ⟨h₁, h₂, h₃, h₄, fun ht => getElem?_concat_of_some (h₅ ht), h₆⟩
    · rw [List.mem_singleton] at hc
      subst hc
      refine ⟨index, Nat.succ_pos _, Nat.le_of_eq term, fun _ => leader, fun _ => ?_, ?_⟩
      · have hend : n.log.lastIndex + 1 = n.log.entries.length := by omega
        exact getElem?_concat_iff.mpr (Or.inr ⟨hend, rfl⟩)
      · intro _ k x hx hk
        have hk' : k < n.applied.length := (List.getElem?_eq_some_iff.mp hx).1
        simp only at hk
        omega
  | @accept src id k req _ deliver pkt steady term passed log commit =>
    -- the leader of a term takes no entries in that term: the request would be its own
    refine h.steady steady (fun hterm hr => ?_)
    obtain ⟨hne, hreq, -⟩ := sim.packets _ (List.mem_of_getElem? pkt)
    have hl := hok.leader.mp hr
    rw [← hterm, term, hreq.leader] at hl
    exact absurd (Option.some.inj hl) hne
  | @beginApply e idle behind entry =>
    rw [hs.getEntry_eq] at entry
    have hlen := h.counts.idle idle
    refine ⟨hcounts, fun k x hx => ?_, fun call hc => ?_⟩
    · rcases getElem?_concat_iff.mp hx with hx | ⟨hk, rfl⟩
      · exact h.indices k x hx
      · rw [hk, hlen]
        exact hs.index _ _ entry
    · have hcall := h.calls call hc
      refine ⟨hcall.index, hcall.pos, hcall.term, hcall.leader, hcall.held, ?_⟩
      intro hterm k x hx hk
      rcases getElem?_concat_iff.mp hx with hx | ⟨hk', rfl⟩
      · exact hcall.applied hterm k x hx hk
      · have hheld := hcall.held hterm
        rw [← hk, hk', hlen, entry] at hheld
        exact Option.some.inj hheld
  | endApply busy =>
    refine ⟨hcounts, h.indices, fun call hc => ?_⟩
    obtain ⟨h₁, h₂, h₃, h₄, h₅, h₆⟩ := h.calls call hc
    exact ⟨h₁, h₂, h₃, h₄, h₅, h₆⟩

/-- Runs without restarts and compaction in which proposals are owned. -/
abbrev OwnedRun (c : Cluster) : State → List (State × Event) → State → Prop :=
  Runs (Event.step c) (fun s ev => ev.Plain c s ∧ Owned s ev)

theorem ProposeOk.step {ev : Event} (sim : Sim c s a) (h : ∀ i, ProposeOk (s.node i))
    (hplain : ev.Plain c s) (howned : Owned s ev) (hstep : ev.step c s = some s') :
    ∀ i, ProposeOk (s'.node i) := by
  cases stepped hstep with
  | act hd =>
    exact (Function.forall_update_iff s.node fun _ n => ProposeOk n).mpr
      ⟨(h _).touch sim rfl howned (hd.touch hplain), fun i _ => h i⟩
  | drop => exact h
  | stop | stopDuring | restart | stopDuringRestart => exact hplain.elim

theorem proposeOk_run (hc : c.FullMesh) {tr : List (State × Event)}
    (run : OwnedRun c State.init tr s) (i : String) : ProposeOk (s.node i) := by
  have hinit : ∀ i, ProposeOk (State.init.node i) := fun i =>
    ⟨⟨fun _ => rfl, fun _ _ h => absurd h (by simp [State.init])⟩,
      fun _ _ h => absurd h (by simp [State.init]), fun _ h => absurd h (by simp [State.init])⟩
  obtain ⟨_, -, -, h⟩ := run.ghost (I := fun s a => Sim c s a ∧ ∀ i, ProposeOk (s.node i))
    (fun s ev s' a hI hok hstep => by
      obtain ⟨sim, h⟩ := hI
      obtain ⟨a', hg, sim'⟩ := sim.step hc hok.1 hstep
      exact ⟨a', hg, sim', ProposeOk.step sim h hok.1 hok.2 hstep⟩) ⟨sim_init c, hinit⟩
  exact h i

/-- A successful outcome: the node is leader and has applied the index. -/
theorem proposeOutcome_ok {call : ProposeCall} {deadline : Bool} {result : ProposeResult}
    (h : n.proposeOutcome call deadline = some result) (hok : result.ok = true) :
    n.role = .Leader ∧ call.index ≤ n.lastApplied ∧ result.index = call.index := by
  unfold RaftNode.proposeOutcome at h
  split at h
  · rename_i hcond
    split at h
    · cases h
      exact absurd hok (by simp)
    · rename_i hr
      cases h
      exact ⟨not_not.mp hr, hcond.resolve_right hr, rfl⟩
  · split at h
    · cases h
      exact absurd hok (by simp)
    · exact absurd h (by simp)

/-- **Acknowledged writes are the ones applied**, in runs of a full mesh where proposals are
    owned: when `Propose` returns `ok` with index `k`, the entry its node has applied at `k` is
    the entry the call appended. -/
theorem acknowledged (hc : c.FullMesh) {tr : List (State × Event)}
    (run : OwnedRun c State.init tr s) {ev : Event} (howned : Owned s ev) {call : ProposeCall}
    {result : ProposeResult} (hret : ev.Returns s i call result) (hok : result.ok = true) :
    call.entry ∈ (s.node i).applied ∧ call.entry.index = result.index ∧
      ∀ e ∈ (s.node i).applied, e.index = result.index → e = call.entry := by
  obtain ⟨id, deadline, rfl, hfind, hout⟩ := hret
  have h := proposeOk_run hc run i
  have hmem := List.mem_of_find?_eq_some hfind
  have hid : call.id = id := by simpa using List.find?_some hfind
  obtain ⟨hrole, hle, hidx⟩ := proposeOutcome_ok hout hok
  have hterm : call.entry.term = (s.node i).currentTerm := howned call hmem hid hrole hle
  obtain ⟨hci, hpos, -, -, -, happ⟩ := h.calls call hmem
  have hcount : (s.node i).lastApplied ≤ (s.node i).applied.length := by
    cases hap : (s.node i).applying with
    | none => exact Nat.le_of_eq (h.counts.idle hap).symm
    | some p =>
      have := (h.counts.busy p.1 p.2 hap).2
      omega
  have hlt : call.index - 1 < (s.node i).applied.length := by omega
  have hget := List.getElem?_eq_getElem hlt
  have heq := happ hterm _ _ hget (by omega)
  rw [hidx]
  refine ⟨heq ▸ List.getElem_mem hlt, hci, fun e he hei => ?_⟩
  obtain ⟨k, hk⟩ := List.getElem?_of_mem he
  have := h.indices k e hk
  exact happ hterm k e hk (by omega)

/-- `A` proposes, `B` acknowledges, `A` applies its no-op and the proposal. -/
def proposeA : List Event :=
  standA ++ [.act (.finishElection "A"), .act (.propose "A" "k" "x" .Put (-1)),
    .act (.startReplicate "A" "B"), .act (.deliver 0), .act (.finishReplicate "A" 0),
    .act (.beginApply "A"), .act (.endApply "A" ""), .act (.beginApply "A"),
    .act (.endApply "A" "")]

theorem acknowledged_three : ∃ tr s call result, OwnedRun three State.init tr s ∧
    (Event.act (.wakePropose "A" 6 false)).Returns s "A" call result ∧ result.ok = true ∧
    call.entry ∈ (s.node "A").applied ∧ call.entry.index = result.index ∧
    ∀ e ∈ (s.node "A").applied, e.index = result.index → e = call.entry := by
  obtain ⟨s, hs, h⟩ := (Option.any_eq_true _ _).mp
    (show (exec (Event.step three) (fun s ev => ev.Plain three s ∧ Owned s ev) State.init
      proposeA).any (fun s => decide (Owned s (.act (.wakePropose "A" 6 false))) &&
        ((s.node "A").proposals.find? (fun call => call.id = 6)).any fun call =>
          ((s.node "A").proposeOutcome call false).any fun result => result.ok) = true
      by decide +kernel)
  rw [Bool.and_eq_true, decide_eq_true_eq] at h
  obtain ⟨howned, h⟩ := h
  obtain ⟨call, hcall, h⟩ := (Option.any_eq_true _ _).mp h
  obtain ⟨result, hresult, hok⟩ := (Option.any_eq_true _ _).mp h
  have run := runs_of_exec hs
  have hret : (Event.act (.wakePropose "A" 6 false)).Returns s "A" call result :=
    ⟨6, false, rfl, hcall, hresult⟩
  exact ⟨_, s, call, result, run, hret, hok,
    acknowledged three_fullMesh run howned hret hok⟩

/-! ## Without the condition -/

/-- `A` leads term 1 and appends `x` at index 2. `B` leads term 2, appends `y` at index 2 and
    overwrites `A`'s log with it. `A` is elected again in term 3 and applies up to index 2,
    while its `Propose` call is still waiting. -/
def overwritten : List Event :=
  [.act (.startElection "A"), .act (.deliver 0), .drop 0, .act (.recvVote "A" 0),
    .act (.skipVote "A"), .act (.finishElection "A"), .act (.propose "A" "k" "x" .Put (-1)),
    .act (.startElection "B"), .drop 0, .act (.deliver 0), .act (.skipVote "B"),
    .act (.recvVote "B" 0), .act (.finishElection "B"), .act (.propose "B" "k" "y" .Put (-1)),
    .act (.startReplicate "B" "A"), .act (.deliver 0), .drop 0, .act (.abandonReplicate "B"),
    .act (.startElection "A"), .drop 0, .act (.deliver 0), .act (.skipVote "A"),
    .act (.recvVote "A" 0), .act (.finishElection "A"),
    .act (.startReplicate "A" "C"), .act (.deliver 0), .act (.finishReplicate "A" 0),
    .act (.startReplicate "A" "C"), .act (.deliver 0), .act (.finishReplicate "A" 0),
    .act (.beginApply "A"), .act (.endApply "A" ""), .act (.beginApply "A"),
    .act (.endApply "A" "")]

/-- **An acknowledged write that is not there**: `Propose` returns `ok` for `x`, and the entry
    its node applied at that index is `y`. -/
theorem acknowledged_fails : three.FullMesh ∧ ∃ tr s call result,
    PlainRun three State.init tr s ∧ (Event.act (.wakePropose "A" 5 false)).Plain three s ∧
    (Event.act (.wakePropose "A" 5 false)).Returns s "A" call result ∧ result.ok = true ∧
    ∃ e ∈ (s.node "A").applied, e.index = result.index ∧ e.value ≠ call.entry.value := by
  obtain ⟨s, hs, h⟩ := (Option.any_eq_true _ _).mp
    (show (exec (Event.step three) (fun s ev => ev.Plain three s) State.init overwritten).any
      (fun s => decide ((Event.act (.wakePropose "A" 5 false)).Plain three s) &&
        ((s.node "A").proposals.find? (fun call => call.id = 5)).any fun call =>
          ((s.node "A").proposeOutcome call false).any fun result => result.ok &&
            decide (∃ e ∈ (s.node "A").applied, e.index = result.index ∧
              e.value ≠ call.entry.value)) = true by decide +kernel)
  rw [Bool.and_eq_true, decide_eq_true_eq] at h
  obtain ⟨hplain, h⟩ := h
  obtain ⟨call, hcall, h⟩ := (Option.any_eq_true _ _).mp h
  obtain ⟨result, hresult, h⟩ := (Option.any_eq_true _ _).mp h
  rw [Bool.and_eq_true, decide_eq_true_eq] at h
  exact ⟨three_fullMesh, _, s, call, result, runs_of_exec hs, hplain,
    ⟨5, false, rfl, hcall, hresult⟩, h.1, h.2⟩

end Proof
end OrcDb
