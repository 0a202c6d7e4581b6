import OrcDb.Proof.Raft.Data

/-!
# Where the entries come from

A section leaves in a log what was there, a no-op, what a request brought, or what `Propose`
was called with (`Does.fills`), and a request is cut out of a log (`Does.sends`). So whatever
holds of no-ops and of every entry that is proposed holds of every entry in a log or on the way
to one (`Everywhere.does`). This is the induction rule for statements about entries, in any run
without restarts, compacted or not.
-/

set_option autoImplicit false

namespace OrcDb
namespace Proof

open Lib

variable {c : Cluster} {s s' : State} {act : Action} {i : String} {n : RaftNode} {x : LogEntry}

/-! ## Logs -/

theorem mem_place {log : RaftLog} {ne : LogEntry} (h : x ∈ (log.place ne).entries) :
    x ∈ log.entries ∨ x = ne := by
  unfold RaftLog.place at h
  dsimp only at h
  split at h
  · split at h
    · rcases List.mem_append.mp h with h | h
      · exact Or.inl (List.mem_of_mem_take h)
      · exact Or.inr (List.mem_singleton.mp h)
    · exact Or.inl h
  · rcases List.mem_append.mp h with h | h
    · exact Or.inl h
    · exact Or.inr (List.mem_singleton.mp h)

theorem mem_appendAll {J : Json.Codec} {es : List LogEntry} {log : RaftLog}
    (h : x ∈ (log.appendAll J es).1.entries) : x ∈ log.entries ∨ x ∈ es := by
  induction es generalizing log with
  | nil => exact Or.inl h
  | cons ne rest ih =>
    rcases ih h with hlog | hrest
    · rcases mem_place hlog with hold | rfl
      · exact Or.inl hold
      · exact Or.inr List.mem_cons_self
    · exact Or.inr (List.mem_cons_of_mem _ hrest)

theorem mem_collectEntries {log : RaftLog} {lastIndex k budget : Nat}
    (h : x ∈ RaftNode.collectEntries log lastIndex k budget) : x ∈ log.entries := by
  induction budget generalizing k with
  | zero => exact absurd h (by simp [RaftNode.collectEntries])
  | succ budget ih =>
    rw [RaftNode.collectEntries] at h
    split at h
    · split at h
      · rename_i e he
        rcases List.mem_cons.mp h with rfl | h
        · exact List.mem_of_getElem? he
        · exact ih h
      · exact absurd h (by simp)
    · exact absurd h (by simp)

theorem mem_maybeSnapshot {cfg : RaftConfig} {data : String}
    (h : x ∈ (n.maybeSnapshot cfg data).log.entries) :
    x ∈ n.log.entries ∨ x.opType = .NoOp := by
  unfold RaftNode.maybeSnapshot at h
  split at h
  · simp only [RaftLog.setSnapshot] at h
    rcases List.mem_cons.mp h with rfl | h
    · exact Or.inr rfl
    · split at h
      · exact Or.inl (List.mem_of_mem_drop h)
      · exact absurd h (by simp)
  · exact Or.inl h

/-! ## Sections -/

/-- What a section of node `i` may leave in its log. -/
inductive Fills (s : State) (act : Action) (i : String) (x : LogEntry) : Prop
  | held (mem : x ∈ (s.node i).log.entries)
  | empty (op : x.opType = .NoOp)
  | received {p : Packet} {req : AppendEntriesRequest} (packet : p ∈ s.network)
      (payload : p.payload = .appendRequest req) (mem : x ∈ req.entries)
  | proposed (call : act = .propose i x.key x.value x.opType x.ttlMs)

theorem Does.fills {e : Effect} (hd : Does c s act e) :
    ∀ x ∈ e.node.log.entries, Fills s act e.actor x := by
  intro x hx
  cases hd with
  | startElection up | skipVote up | startReplicate up | abandonReplicate up | wakePropose up
  | beginApply up =>
    exact .held (by rw [up.node]; exact hx)
  | @recvVote _ _ _ n call _ resp up =>
    have h' := voteAnswered n call resp
    refine .held ?_
    rw [up.node]
    dsimp only at hx
    generalize n.recvVote call resp = out at h' hx
    cases h' with
    | newer | vote | other => exact hx
  | @finishElection _ n call up =>
    simp only [RaftNode.finishElection] at hx
    split at hx
    · rcases List.mem_append.mp hx with hx | hx
      · exact .held (by rw [up.node]; exact hx)
      · rw [List.mem_singleton.mp hx]
        exact .empty rfl
    · exact .held (by rw [up.node]; exact hx)
  | @finishReplicate i _ n call resp up =>
    have h' := finished (c.config i) n call resp
    refine .held ?_
    rw [up.node]
    dsimp only at hx
    generalize n.finishReplicate (c.config i) call resp = out at h' hx
    cases h' with
    | newer | dropped | failure => exact hx
    | success =>
      rw [advanceCommitIndex_eq] at hx
      exact hx
  | @handleRequestVote _ _ _ _ n req up =>
    have h' := voteHandled n req
    have hlog := (adoptTerm_data n req.term "").2.1
    refine .held ?_
    rw [up.node]
    dsimp only at hx
    generalize n.handleRequestVote req = out at h' hx
    cases h' with
    | stale => exact hx
    | granted | denied =>
      rw [← hlog]
      exact hx
  | @handleAppendEntries _ _ _ _ n req up pkt =>
    have h' := handled c.json n req
    dsimp only at hx
    generalize n.handleAppendEntries c.json req = out at h' hx
    cases h' with
    | stale => exact .held (by rw [up.node]; exact hx)
    | rejected =>
      rw [heard_log] at hx
      exact .held (by rw [up.node]; exact hx)
    | accepted =>
      rw [acceptEntries_eq] at hx
      rcases mem_appendAll hx with hx | hx
      · rw [heard_log] at hx
        exact .held (by rw [up.node]; exact hx)
      · exact .received (List.mem_of_getElem? pkt) rfl hx
  | @propose _ key value op ttlMs n up =>
    simp only [RaftNode.propose] at hx
    split at hx
    · exact .held (by rw [up.node]; exact hx)
    · rcases List.mem_append.mp hx with hx | hx
      · exact .held (by rw [up.node]; exact hx)
      · rw [List.mem_singleton.mp hx]
        exact .proposed rfl
  | @endApply i data n next y up =>
    simp only [RaftNode.endApply] at hx
    split at hx
    · rcases mem_maybeSnapshot hx with hx | hx
      · exact .held (by rw [up.node]; exact hx)
      · exact .empty hx
    · exact .held (by rw [up.node]; exact hx)
  | stallApply up =>
    rcases mem_maybeSnapshot hx with hx | hx
    · exact .held (by rw [up.node]; exact hx)
    · exact .empty hx

/-- What a request carries is cut out of the log. -/
theorem Does.sends {e : Effect} (hd : Does c s act e) :
    ∀ p ∈ e.sent, ∀ req, p.payload = .appendRequest req →
      ∀ x ∈ req.entries, x ∈ (s.node e.actor).log.entries := by
  intro p hp req hreq x hx
  cases hd with
  | startElection =>
    obtain ⟨q, -, rfl⟩ := List.mem_map.mp hp
    exact absurd hreq (by simp)
  | startReplicate up =>
    rw [List.mem_singleton.mp hp] at hreq
    injection hreq with hreq
    subst hreq
    rw [up.node]
    exact mem_collectEntries hx
  | handleRequestVote | handleAppendEntries =>
    rw [List.mem_singleton.mp hp] at hreq
    exact absurd hreq (by simp)
  | recvVote | skipVote | finishElection | finishReplicate | abandonReplicate | propose
  | wakePropose | beginApply | endApply | stallApply => exact absurd hp (by simp)

/-! ## The rule -/

/-- `P` holds of every entry in a log or on the way. -/
structure Everywhere (P : LogEntry → Prop) (s : State) : Prop where
  logs : ∀ i, ∀ x ∈ (s.node i).log.entries, P x
  packets : ∀ p ∈ s.network, ∀ req, p.payload = .appendRequest req → ∀ x ∈ req.entries, P x

variable {P Q : LogEntry → Prop}

theorem Everywhere.mono (h : Everywhere P s) (hPQ : ∀ x, P x → Q x) : Everywhere Q s where
  logs := fun i x hx => hPQ x (h.logs i x hx)
  packets := fun p hp req hreq x hx => hPQ x (h.packets p hp req hreq x hx)

theorem everywhere_init (hempty : ∀ x, x.opType = .NoOp → P x) : Everywhere P State.init where
  logs := by
    intro i x hx
    rw [List.mem_singleton.mp hx]
    exact hempty _ rfl
  packets := fun _ hp => absurd hp (by simp [State.init])

theorem Everywhere.does (h : Everywhere P s) (hempty : ∀ x, x.opType = .NoOp → P x)
    (hnew : ∀ i x, act = .propose i x.key x.value x.opType x.ttlMs → P x)
    (hstep : Event.step c s (.act act) = some s') : Everywhere P s' := by
  cases stepped hstep with
  | @act _ e hd =>
    refine ⟨?_, ?_⟩
    · intro i x hx
      by_cases hi : i = e.actor
      · subst hi
        simp only [Function.update_self] at hx
        cases hd.fills x hx with
        | held mem => exact h.logs _ x mem
        | empty op => exact hempty x op
        | received packet payload mem => exact h.packets _ packet _ payload x mem
        | proposed call => exact hnew _ x call
      · simp only [Function.update_of_ne hi] at hx
        exact h.logs i x hx
    · intro p hp req hreq x hx
      rcases List.mem_append.mp hp with hp | hp
      · exact h.packets p (hd.network_subset p hp) req hreq x hx
      · exact h.logs _ x (hd.sends p hp req hreq x hx)

theorem Everywhere.drop (h : Everywhere P s) {k : Nat}
    (hstep : Event.step c s (.drop k) = some s') : Everywhere P s' := by
  cases stepped hstep
  exact ⟨h.logs, fun p hp => h.packets p ((List.eraseIdx_sublist s.network k).subset hp)⟩

end Proof
end OrcDb
