import OrcDb.Proof.Raft.Propose
import OrcDb.Proof.Raft.Commit
import OrcDb.Proof.Raft.Serving

/-!
# The order of acknowledged writes

`Propose` hands back the index of its entry, and nodes apply entries by index. A client that
waits for its write to be acknowledged before somebody sends the next one relies on two
things: no two calls are acknowledged with one index (`acknowledged_apart`), and the later
call has the larger index (`acknowledged_in_order`). Neither is to be had of every run, but of
those in which an acknowledgement means a commit (`OrderlyRun`).

Both come down to where a call's entry stands in the log of its term. When the entry is made
its index is the length of that log, and the log only grows; so whatever was there at an
earlier time has a smaller index, or is another entry.
-/

set_option autoImplicit false

namespace OrcDb
namespace Proof

open Lib Replicas

variable {c : Cluster} {s s' s₁ s₂ : State} {a a' a₁ : Replicas String LogEntry}
  {i j : String} {act : Action} {ev : Event}

/-- Runs in which followers commit only what was verified and proposals are owned: a leader
    appends behind what it has applied, and a call that is woken with its index applied is still
    in the term of its entry. -/
abbrev OrderlyRun (c : Cluster) : State → List (State × Event) → State → Prop :=
  Runs (Event.step c) (fun s ev => (ev.Plain c s ∧ Verified s ev) ∧ Owned s ev)

/-! ## Where a new call stands -/

/-- The entry of a new call stands at the end of its term's log. -/
structure MadeNow (s : State) (a a' : Replicas String LogEntry) (q : ProposeCall) : Prop where
  id : q.id = s.nextCall
  index : q.index = (a.leaderLog q.entry.term).length
  placed : q.index < (a'.leaderLog q.entry.term).length

theorem Does.calls {e : Effect} (hd : Does c s act e)
    (hsmall : ∀ i ∈ c.ids, (s.node i).log.size ≤ c.snapshotThreshold) (sim : Sim c s a)
    (hok' : NodeOk c a' e.actor e.node) (inv' : Inv (raft c) a') :
    ∀ q ∈ e.node.proposals, q ∈ (s.node e.actor).proposals ∨ MadeNow s a a' q := by
  intro q hq
  have ht := (hd.touch hsmall).proposals
  cases hd with
  | @propose i key value op ttlMs n up =>
    rw [up.node]
    by_cases hr : n.role = .Leader
    · obtain ⟨e, het, hei, -, -, -, -, hnode⟩ :=
        propose_of_leader c.json s.nextCall key value op ttlMs hr
      have hok := sim.nodes i
      rw [up.node] at hok
      simp only [hnode] at hok' hq
      rcases List.mem_append.mp hq with hq | hq
      · exact Or.inl hq
      · right
        rw [List.mem_singleton.mp hq]
        have hlen := (hok.shaped sim.inv).lastIndex_eq
        have hpos := (hok.shaped sim.inv).length_pos
        have hlog := hok.leaderLog sim.inv hr
        have hlog' := hok'.leaderLog inv' hr
        refine ⟨rfl, ?_, ?_⟩
        · rw [het, hlog]
          show n.log.lastIndex + 1 = _
          omega
        · have hterm : (n.appendLog c.json e).currentTerm = e.term := het.symm
          rw [hterm] at hlog'
          rw [hlog']
          show n.log.lastIndex + 1 < (n.log.entries ++ [e]).length
          rw [List.length_append, List.length_singleton]
          omega
    · simp only [RaftNode.propose, if_pos hr] at hq
      exact Or.inl hq
  | startElection | recvVote | skipVote | finishElection | startReplicate | finishReplicate
  | abandonReplicate | handleRequestVote | handleAppendEntries | wakePropose | beginApply | endApply
  | stallApply =>
    rcases ht with hold | ⟨_, _, _, _, hact⟩
    · exact Or.inl (hold q hq)
    · exact absurd hact (by simp)

/-- Where the waiting calls of the next state come from. -/
theorem calls_step (hplain : ev.Plain c s) (hstep : ev.step c s = some s') (sim : Sim c s a)
    (sim' : Sim c s' a') :
    ∀ i, ∀ q ∈ (s'.node i).proposals, q ∈ (s.node i).proposals ∨ MadeNow s a a' q := by
  cases stepped hstep with
  | @act act e hd =>
    have hok' := sim'.nodes e.actor
    simp only [Function.update_self] at hok'
    exact (Function.forall_update_iff s.node fun i n =>
      ∀ q ∈ n.proposals, q ∈ (s.node i).proposals ∨ MadeNow s a a' q).mpr
      ⟨hd.calls hplain sim hok' sim'.inv, fun i _ q hq => Or.inl hq⟩
  | drop => exact fun i q hq => Or.inl hq
  | stop | stopDuring | restart | stopDuringRestart => exact hplain.elim

/-! ## Over a run -/

/-- The entry of every waiting call was put into its term's log, and no two calls stand for
    one place of it. -/
structure CallsOk (s : State) (a : Replicas String LogEntry) : Prop where
  placed : ∀ i, ∀ q ∈ (s.node i).proposals, q.index < (a.leaderLog q.entry.term).length
  apart : ∀ i j, ∀ q ∈ (s.node i).proposals, ∀ r ∈ (s.node j).proposals,
    q.entry.term = r.entry.term → q.index = r.index → q.id = r.id

theorem callsOk_init (a : Replicas String LogEntry) : CallsOk State.init a where
  placed := fun _ _ h => absurd h (by simp [State.init])
  apart := fun _ _ _ h => absurd h (by simp [State.init])

theorem CallsOk.step (h : CallsOk s a) (hg : a ≤ a')
    (hcalls : ∀ i, ∀ q ∈ (s'.node i).proposals, q ∈ (s.node i).proposals ∨ MadeNow s a a' q) :
    CallsOk s' a' := by
  refine ⟨fun i q hq => ?_, fun i j q hq r hr hterm hindex => ?_⟩
  · rcases hcalls i q hq with hold | hnew
    · exact Nat.lt_of_lt_of_le (h.placed i q hold) (hg.leaderLog _).length_le
    · exact hnew.placed
  · -- an old call's place was taken before a new one got its own
    rcases hcalls i q hq with hq | hq <;> rcases hcalls j r hr with hr | hr
    · exact h.apart i j q hq r hr hterm hindex
    · have := h.placed i q hq
      have := hr.index
      rw [← hterm] at this
      omega
    · have := h.placed j r hr
      have := hq.index
      rw [hterm] at this
      omega
    · exact hq.id.trans hr.id.symm

/-- A call that waits now and did not wait then has a place behind what its term's log held
    then. -/
def Since (s₁ : State) (a₁ : Replicas String LogEntry) (s : State) : Prop :=
  s₁.nextCall ≤ s.nextCall ∧ ∀ i, ∀ q ∈ (s.node i).proposals, q ∈ (s₁.node i).proposals ∨
    s₁.nextCall ≤ q.id ∧ (a₁.leaderLog q.entry.term).length ≤ q.index

theorem nextCall_step (hplain : ev.Plain c s) (hstep : ev.step c s = some s') :
    s.nextCall ≤ s'.nextCall := by
  cases stepped hstep with
  | act => exact Nat.le_succ _
  | drop => exact Nat.le_refl _
  | stop | stopDuring | restart | stopDuringRestart => exact hplain.elim

theorem Since.step (h : Since s₁ a₁ s) (hnext : s.nextCall ≤ s'.nextCall) (hg : a₁ ≤ a)
    (hcalls : ∀ i, ∀ q ∈ (s'.node i).proposals, q ∈ (s.node i).proposals ∨ MadeNow s a a' q) :
    Since s₁ a₁ s' := by
  refine ⟨Nat.le_trans h.1 hnext, fun i q hq => ?_⟩
  rcases hcalls i q hq with hold | hnew
  · exact h.2 i q hold
  · right
    rw [hnew.id, hnew.index]
    exact ⟨h.1, (hg.leaderLog _).length_le⟩

/-- What is known of a state reached by such a run. -/
structure SoFar (c : Cluster) (s : State) (a : Replicas String LogEntry) : Prop where
  sim : Sim c s a
  commit : CommitInv c s a
  propose : ∀ i, ProposeOk (s.node i)
  calls : CallsOk s a
  numbered : Numbered s

theorem soFar_init (c : Cluster) : SoFar c State.init (init (raft c)) where
  sim := sim_init c
  commit := commitInv_init c
  propose := fun _ =>
    ⟨⟨fun _ => rfl, fun _ _ h => absurd h (by simp [State.init])⟩,
      fun _ _ h => absurd h (by simp [State.init]), fun _ h => absurd h (by simp [State.init])⟩
  calls := callsOk_init _
  numbered := fun _ _ hq => absurd hq (by simp [State.init])

theorem SoFar.run (hc : c.FullMesh) {tr : List (State × Event)} (run : OrderlyRun c s tr s')
    (h : SoFar c s a) : ∃ a', a ≤ a' ∧ SoFar c s' a' ∧ Since s a s' := by
  have hstart : a ≤ a ∧ SoFar c s a ∧ Since s a s :=
    ⟨le_refl a, h, Nat.le_refl _, fun _ _ hq => Or.inl hq⟩
  have hstep : ∀ x ev y b, (a ≤ b ∧ SoFar c x b ∧ Since s a x) →
      (ev.Plain c x ∧ Verified x ev) ∧ Owned x ev → ev.step c x = some y →
        ∃ b', b ≤ b' ∧ a ≤ b' ∧ SoFar c y b' ∧ Since s a y := by
    intro x ev y b ⟨hab, ho, hsince⟩ ⟨⟨hplain, hver⟩, howned⟩ hstep
    obtain ⟨b', hbb, sim'⟩ := ho.sim.step hc hplain hstep
    have hcalls := calls_step hplain hstep ho.sim sim'
    exact ⟨b', hbb, le_trans hab hbb,
      { sim := sim'
        commit := ho.commit.step hc ho.sim sim' hbb hplain hver hstep
        propose := ProposeOk.step ho.sim ho.propose hplain howned hstep
        calls := ho.calls.step hbb hcalls
        numbered := ho.numbered.step hplain hstep },
      hsince.step (nextCall_step hplain hstep) hab hcalls⟩
  obtain ⟨a', -, h'⟩ := run.ghost
    (I := fun s' a' => a ≤ a' ∧ SoFar c s' a' ∧ Since s a s') hstep hstart
  exact ⟨a', h'⟩

/-! ## Acknowledged calls -/

theorem ApplyOk.lastApplied_le {n : RaftNode} (h : ApplyOk n) :
    n.lastApplied ≤ n.applied.length := by
  cases hap : n.applying with
  | none => exact Nat.le_of_eq (h.idle hap).symm
  | some p =>
    have := (h.busy p.1 p.2 hap).2
    omega

/-- What an index that `Propose` returned stands for: the committed prefix reaches it. -/
theorem SoFar.returned (h : SoFar c s a) {call : ProposeCall} {result : ProposeResult}
    (hret : ev.Returns s i call result) (hok : result.ok = true) :
    call ∈ (s.node i).proposals ∧ result.index = call.index ∧ 0 < call.index ∧
      call.index ≤ (s.node i).commitIndex := by
  obtain ⟨id, deadline, rfl, hfind, hout⟩ := hret
  have hmem := List.mem_of_find?_eq_some hfind
  obtain ⟨-, hle, hidx⟩ := proposeOutcome_ok hout hok
  have hcount := (h.propose i).counts.lastApplied_le
  have := (h.commit.nodes i).applied_le
  exact ⟨hmem, hidx, ((h.propose i).calls call hmem).pos, by omega⟩

/-- The entry of an acknowledged call is the one its node has committed at the index. -/
theorem SoFar.held (h : SoFar c s a) (howned : Owned s ev) {call : ProposeCall}
    {result : ProposeResult} (hret : ev.Returns s i call result) (hok : result.ok = true) :
    (s.node i).log.entries[call.index]? = some call.entry := by
  have hmem := (h.returned hret hok).1
  obtain ⟨id, deadline, rfl, hfind, hout⟩ := hret
  have hid : call.id = id := by simpa using List.find?_some hfind
  obtain ⟨hrole, hle, -⟩ := proposeOutcome_ok hout hok
  exact ((h.propose i).calls call hmem).held (howned call hmem hid hrole hle)

/-- Two committed prefixes at different times agree where they overlap. -/
theorem SoFar.agree (h₁ : SoFar c s₁ a) (h₂ : SoFar c s₂ a') (hg : a ≤ a') {k : Nat}
    (hpos : 0 < k) (hk₁ : k ≤ (s₁.node i).commitIndex) (hk₂ : k ≤ (s₂.node j).commitIndex) :
    (s₁.node i).log.entries[k]? = (s₂.node j).log.entries[k]? := by
  have hcov := (h₁.commit.nodes i).covered.mono hg (Nat.le_refl _) (AgreeUpTo.refl _ _)
  exact hcov.agree h₂.sim.inv (h₂.commit.nodes j).covered hpos hk₁ hk₂ k (Nat.le_refl _)

/-- What a node holds was put into the log of its term. -/
theorem SoFar.placed (h : SoFar c s a) {k : Nat} {e : LogEntry}
    (he : (s.node i).log.entries[k]? = some e) : k < (a.leaderLog e.term).length := by
  have hag := ((h.sim.nodes i).logged h.sim.inv).2 k e he k (Nat.le_refl k)
  rw [he] at hag
  exact (List.getElem?_eq_some_iff.mp hag.symm).1

/-- An executable form of `Returns`: woken, call `id` of node `i` returns `ok`. -/
def Acknowledges (s : State) (i : String) (id : Nat) : Bool :=
  ((s.node i).proposals.find? (fun call => call.id = id)).any fun call =>
    ((s.node i).proposeOutcome call false).any fun result => result.ok

theorem returns_of_acknowledges {id : Nat} (h : Acknowledges s i id = true) :
    ∃ call result, (Event.act (.wakePropose i id false)).Returns s i call result ∧
      result.ok = true ∧ call.id = id := by
  obtain ⟨call, hcall, h⟩ := (Option.any_eq_true _ _).mp h
  obtain ⟨result, hresult, hok⟩ := (Option.any_eq_true _ _).mp h
  have hid : call.id = id := by simpa using List.find?_some hcall
  exact ⟨call, result, ⟨id, false, rfl, hcall, hresult⟩, hok, hid⟩

/-- **Acknowledged in order**, in orderly runs of a full mesh: if one `Propose` returned `ok`
    before another was made, on whichever nodes, and the other returns `ok` as well, in the term
    of its entry, then the index of the first is the smaller one. -/
theorem acknowledged_in_order (hc : c.FullMesh) {tr₁ tr₂ : List (State × Event)}
    (run₁ : OrderlyRun c State.init tr₁ s₁) {ev₁ ev₂ : Event} {call₁ call₂ : ProposeCall}
    {result₁ result₂ : ProposeResult} (hret₁ : ev₁.Returns s₁ i call₁ result₁)
    (hok₁ : result₁.ok = true) (run₂ : OrderlyRun c s₁ tr₂ s₂)
    {key value : String} {op : OpType} {ttlMs : Int}
    (hmade : (s, Event.act (.propose j key value op ttlMs)) ∈ tr₂) (hid : call₂.id = s.nextCall)
    (howned : Owned s₂ ev₂) (hret₂ : ev₂.Returns s₂ j call₂ result₂) (hok₂ : result₂.ok = true) :
    result₁.index < result₂.index := by
  obtain ⟨a₁, -, h₁, -⟩ := (soFar_init c).run hc run₁
  obtain ⟨a₂, hg, h₂, hsince⟩ := h₁.run hc run₂
  obtain ⟨-, hidx₁, -, hle₁⟩ := h₁.returned hret₁ hok₁
  obtain ⟨hmem₂, hidx₂, hpos₂, hle₂⟩ := h₂.returned hret₂ hok₂
  -- the second call was numbered after the first one returned
  obtain ⟨tr, -, -, before, -, -, -⟩ := run₂.split hmade
  obtain ⟨-, -, -, hthen⟩ := h₁.run hc before
  have hnew : (a₁.leaderLog call₂.entry.term).length ≤ call₂.index := by
    rcases hsince.2 j call₂ hmem₂ with hold | hnew
    · have := h₁.numbered j call₂ hold
      have := hthen.1
      omega
    · exact hnew.2
  by_contra hlt
  rw [hidx₁, hidx₂, Nat.not_lt] at hlt
  -- otherwise its entry was committed, and so in its term's log, before it was made
  have hsame := h₁.agree h₂ hg hpos₂ (Nat.le_trans hlt hle₁) hle₂
  rw [h₂.held howned hret₂ hok₂] at hsame
  have := h₁.placed hsame
  omega

/-- After `proposeA`: the call returns, and `B` is elected with the votes of both others. -/
def changeB : List Event :=
  [.act (.wakePropose "A" 6 false), .act (.startElection "B"), .act (.deliver 0),
    .act (.deliver 0), .act (.recvVote "B" 0), .act (.recvVote "B" 0), .act (.finishElection "B")]

/-- `B` proposes, `C` takes everything, `B` applies all it has. -/
def proposeB : List Event :=
  [.act (.propose "B" "k" "y" .Put (-1)), .act (.startReplicate "B" "C"), .act (.deliver 0),
    .act (.finishReplicate "B" 0), .act (.startReplicate "B" "C"), .act (.deliver 0),
    .act (.finishReplicate "B" 0), .act (.beginApply "B"), .act (.endApply "B" ""),
    .act (.beginApply "B"), .act (.endApply "B" ""), .act (.beginApply "B"),
    .act (.endApply "B" ""), .act (.beginApply "B"), .act (.endApply "B" "")]

/-- The three pieces of that run. -/
theorem orderly_three : ∃ tr₁ s₁ s s₂,
    OrderlyRun three State.init tr₁ s₁ ∧ Owned s₁ (.act (.wakePropose "A" 6 false)) ∧
    Acknowledges s₁ "A" 6 = true ∧
    OrderlyRun three s₁ (traceOf (Event.step three) s₁ (changeB ++ proposeB)) s₂ ∧
    (s, Event.act (.propose "B" "k" "y" .Put (-1))) ∈
      traceOf (Event.step three) s₁ (changeB ++ proposeB) ∧ s.nextCall = 21 ∧
    Owned s₂ (.act (.wakePropose "B" 21 false)) ∧ Acknowledges s₂ "B" 21 = true := by
  let P : State → Event → Prop := fun s ev => (ev.Plain three s ∧ Verified s ev) ∧ Owned s ev
  obtain ⟨s₁, hs₁, h⟩ := (Option.any_eq_true _ _).mp
    (show (exec (Event.step three) P State.init proposeA).any (fun s₁ =>
      decide (Owned s₁ (.act (.wakePropose "A" 6 false)) ∧ Acknowledges s₁ "A" 6 = true) &&
        ((exec (Event.step three) P s₁ changeB).any (fun s => decide (s.nextCall = 21)) &&
        (exec (Event.step three) P s₁ (changeB ++ proposeB)).any (fun s₂ =>
          decide (Owned s₂ (.act (.wakePropose "B" 21 false)) ∧
            Acknowledges s₂ "B" 21 = true)))) = true by decide +kernel)
  rw [Bool.and_eq_true, Bool.and_eq_true] at h
  obtain ⟨h₁, hmid, hend⟩ := h
  have h₁ := of_decide_eq_true h₁
  obtain ⟨s, hs, hnext⟩ := (Option.any_eq_true _ _).mp hmid
  obtain ⟨s₂, hs₂, h₂⟩ := (Option.any_eq_true _ _).mp hend
  have h₂ := of_decide_eq_true h₂
  exact ⟨_, s₁, s, s₂, runs_of_exec hs₁, h₁.1, h₁.2, runs_of_exec hs₂,
    mem_traceOf hs _ _, of_decide_eq_true hnext, h₂.1, h₂.2⟩

theorem acknowledged_in_order_three : ∃ tr₁ tr₂ s₁ s s₂ call₁ call₂ result₁ result₂,
    OrderlyRun three State.init tr₁ s₁ ∧
    (Event.act (.wakePropose "A" 6 false)).Returns s₁ "A" call₁ result₁ ∧ result₁.ok = true ∧
    OrderlyRun three s₁ tr₂ s₂ ∧ (s, Event.act (.propose "B" "k" "y" .Put (-1))) ∈ tr₂ ∧
    call₂.id = s.nextCall ∧
    (Event.act (.wakePropose "B" 21 false)).Returns s₂ "B" call₂ result₂ ∧ result₂.ok = true ∧
    result₁.index < result₂.index := by
  obtain ⟨tr₁, s₁, s, s₂, run₁, -, hack₁, run₂, hmade, hnext, howned, hack₂⟩ := orderly_three
  obtain ⟨call₁, result₁, hret₁, hok₁, -⟩ := returns_of_acknowledges hack₁
  obtain ⟨call₂, result₂, hret₂, hok₂, hid⟩ := returns_of_acknowledges hack₂
  have hid : call₂.id = s.nextCall := hid.trans hnext.symm
  exact ⟨tr₁, _, s₁, s, s₂, call₁, call₂, result₁, result₂, run₁, hret₁, hok₁, run₂, hmade, hid,
    hret₂, hok₂, acknowledged_in_order three_fullMesh run₁ hret₁ hok₁ run₂ hmade hid howned hret₂
      hok₂⟩

/-- **Acknowledged apart**, in orderly runs of a full mesh: two calls, each woken in the term of
    its entry, are never acknowledged with the same index. -/
theorem acknowledged_apart (hc : c.FullMesh) {tr₁ tr₂ : List (State × Event)}
    (run₁ : OrderlyRun c State.init tr₁ s₁) {ev₁ ev₂ : Event} {call₁ call₂ : ProposeCall}
    {result₁ result₂ : ProposeResult} (howned₁ : Owned s₁ ev₁)
    (hret₁ : ev₁.Returns s₁ i call₁ result₁) (hok₁ : result₁.ok = true)
    (run₂ : OrderlyRun c s₁ tr₂ s₂) (howned₂ : Owned s₂ ev₂)
    (hret₂ : ev₂.Returns s₂ j call₂ result₂) (hok₂ : result₂.ok = true)
    (hne : call₁.id ≠ call₂.id) : result₁.index ≠ result₂.index := by
  obtain ⟨a₁, -, h₁, -⟩ := (soFar_init c).run hc run₁
  obtain ⟨a₂, hg, h₂, hsince⟩ := h₁.run hc run₂
  obtain ⟨hmem₁, hidx₁, hpos₁, hle₁⟩ := h₁.returned hret₁ hok₁
  obtain ⟨hmem₂, hidx₂, -, hle₂⟩ := h₂.returned hret₂ hok₂
  intro heq
  rw [hidx₁, hidx₂] at heq
  have hsame := h₁.agree h₂ hg hpos₁ hle₁ (heq ▸ hle₂)
  rw [h₁.held howned₁ hret₁ hok₁, heq, h₂.held howned₂ hret₂ hok₂] at hsame
  have hentry : call₁.entry = call₂.entry := Option.some.inj hsame
  rcases hsince.2 j call₂ hmem₂ with hold | hnew
  · exact hne (h₁.calls.apart i j call₁ hmem₁ call₂ hold (congrArg LogEntry.term hentry) heq)
  · have hplaced := h₁.calls.placed i call₁ hmem₁
    rw [hentry] at hplaced
    omega

theorem acknowledged_apart_three : ∃ tr₁ tr₂ s₁ s₂ call₁ call₂ result₁ result₂,
    OrderlyRun three State.init tr₁ s₁ ∧
    (Event.act (.wakePropose "A" 6 false)).Returns s₁ "A" call₁ result₁ ∧ result₁.ok = true ∧
    OrderlyRun three s₁ tr₂ s₂ ∧
    (Event.act (.wakePropose "B" 21 false)).Returns s₂ "B" call₂ result₂ ∧ result₂.ok = true ∧
    result₁.index ≠ result₂.index := by
  obtain ⟨tr₁, s₁, s, s₂, run₁, howned₁, hack₁, run₂, -, -, howned₂, hack₂⟩ := orderly_three
  obtain ⟨call₁, result₁, hret₁, hok₁, hid₁⟩ := returns_of_acknowledges hack₁
  obtain ⟨call₂, result₂, hret₂, hok₂, hid₂⟩ := returns_of_acknowledges hack₂
  exact ⟨tr₁, _, s₁, s₂, call₁, call₂, result₁, result₂, run₁, hret₁, hok₁, run₂, hret₂, hok₂,
    acknowledged_apart three_fullMesh run₁ howned₁ hret₁ hok₁ run₂ howned₂ hret₂ hok₂
      (by rw [hid₁, hid₂]; decide)⟩

end Proof
end OrcDb
