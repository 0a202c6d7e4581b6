import OrcDb.Lib.History
import OrcDb.Proof.Api.StoreLog
import OrcDb.Proof.Raft.Order

/-!
# What clients see

A GET is answered from the store of the node it reaches, without asking anybody. What that
gives a client of a full mesh, as long as nothing is restarted or compacted, no `CAS` writes past
the log and followers commit only what was verified:

* `one_history`: all stores replay one sequence of entries. What a store holds at any moment of
  the run is the replay of a prefix of it, every entry of it is committed, and on one node the
  prefix only grows.
* `own_write_visible`: on the node that acknowledged a write the prefix has reached it, so what
  the store then holds under the key is this write or one behind it. An acknowledgement has to
  mean the caller's own entry for that (`Owned`).

A store is given its entries by `ApplyEntry`, one lock away from the Raft node. `Caught` ties
the two counters together.
-/

set_option autoImplicit false

namespace OrcDb

open Lib

/-- The step of the cluster in a step of the service. -/
def ServiceEvent.raft (s : Service) : ServiceEvent → Option Event
  | .act a => some (.act a)
  | .drop k => some (.drop k)
  | .call k _ deadline =>
      match s.threads[k]? with
      | some (i, .running (.propose key value op ttlMs _)) =>
          some (.act (.propose i key value op ttlMs))
      | some (i, .waiting id _) => some (.act (.wakePropose i id deadline))
      | _ => none
  | _ => none

namespace Proof

open Lib Replicas

variable {c : Cluster} {s s' : Service} {ev : ServiceEvent}

/-! ## The cluster inside the service -/

/-- What a call does to the cluster. -/
theorem call_raft {k : Nat} {i : String} {thread : HandlerThread} {now : Int} {deadline : Bool}
    {called : Service.Called} (hk : s.threads[k]? = some (i, thread))
    (h : s.call c i now deadline thread = some called) :
    ServiceEvent.raft s (.call k now deadline) = none ∧ called.raft = s.raft ∨
      ∃ e, ServiceEvent.raft s (.call k now deadline) = some e ∧
        Event.step c s.raft e = some called.raft := by
  cases thread with
  | waiting id next =>
    simp only [Service.call, Option.bind_eq_bind, Option.bind_eq_some_iff] at h
    obtain ⟨n, _, proposal, _, result, _, raft, hraft, h⟩ := h
    cases h
    exact Or.inr ⟨_, by simp only [ServiceEvent.raft, hk], hraft⟩
  | running handling =>
    cases handling with
    | respond response => exact absurd h (by simp [Service.call])
    | throws => exact absurd h (by simp [Service.call])
    | isLeader next | getLeaderId next =>
      simp only [Service.call, Option.bind_eq_bind, Option.bind_eq_some_iff] at h
      obtain ⟨n, _, h⟩ := h
      cases h
      exact Or.inl ⟨by simp only [ServiceEvent.raft, hk], rfl⟩
    | get key next | cas key expected newValue raftIndex next =>
      cases h
      exact Or.inl ⟨by simp only [ServiceEvent.raft, hk], rfl⟩
    | propose key value op ttlMs next =>
      simp only [Service.call, Option.bind_eq_bind, Option.bind_eq_some_iff] at h
      obtain ⟨n, _, raft, hraft, h⟩ := h
      refine Or.inr ⟨.act (.propose i key value op ttlMs),
        by simp only [ServiceEvent.raft, hk], ?_⟩
      split at h
      · cases h
        exact hraft
      · cases h
        exact hraft

/-- A step of the service is one step of the cluster or none. -/
theorem raft_step (h : ev.step c s = some s') :
    ev.raft s = none ∧ s'.raft = s.raft ∨
      ∃ e, ev.raft s = some e ∧ Event.step c s.raft e = some s'.raft := by
  cases ev with
  | act a =>
    simp only [ServiceEvent.step, Option.ite_none_right_eq_some, Option.map_eq_some_iff] at h
    obtain ⟨-, raft, hraft, rfl⟩ := h
    exact Or.inr ⟨_, rfl, hraft⟩
  | drop k =>
    simp only [ServiceEvent.step, Option.map_eq_some_iff] at h
    obtain ⟨raft, hraft, rfl⟩ := h
    exact Or.inr ⟨_, rfl, hraft⟩
  | applyEntry i now =>
    simp only [ServiceEvent.step, Option.bind_eq_bind, Option.bind_eq_some_iff] at h
    obtain ⟨x, _, h⟩ := h
    cases h
    exact Or.inl ⟨rfl, rfl⟩
  | request i route req =>
    cases h
    exact Or.inl ⟨rfl, rfl⟩
  | call k now deadline =>
    simp only [ServiceEvent.step, Option.bind_eq_bind, Option.bind_eq_some_iff] at h
    obtain ⟨⟨i, thread⟩, hk, called, hcalled, h⟩ := h
    cases h
    exact call_raft hk hcalled

/-- `Verified` is about what is delivered, and calls deliver nothing. -/
theorem ThroughLog.verified (h : ThroughLog s ev) : ∀ e ∈ ev.raft s, Verified s.raft e := by
  intro e he
  cases ev with
  | act a =>
    obtain rfl := Option.some.inj he
    exact h
  | drop k =>
    obtain rfl := Option.some.inj he
    trivial
  | applyEntry i now => exact absurd he (by simp [ServiceEvent.raft])
  | request i route req => exact absurd he (by simp [ServiceEvent.raft])
  | call k now deadline =>
    simp only [ServiceEvent.raft] at he
    split at he
    · obtain rfl := Option.some.inj he
      trivial
    · obtain rfl := Option.some.inj he
      trivial
    · exact absurd he (by simp)

theorem NoCompaction.plain (h : NoCompaction c s) {e : Event} (he : ev.raft s = some e) :
    e.Plain c s.raft := by
  cases ev with
  | act a =>
    obtain rfl := Option.some.inj he
    exact h
  | drop k =>
    obtain rfl := Option.some.inj he
    exact h
  | applyEntry i now => exact absurd he (by simp [ServiceEvent.raft])
  | request i route req => exact absurd he (by simp [ServiceEvent.raft])
  | call k now deadline =>
    simp only [ServiceEvent.raft] at he
    split at he
    · obtain rfl := Option.some.inj he
      exact h
    · obtain rfl := Option.some.inj he
      exact h
    · exact absurd he (by simp)

/-- The runs of the service that write through the log. -/
abbrev LogRun (c : Cluster) : Service → List (Service × ServiceEvent) → Service → Prop :=
  Runs (ServiceEvent.step c) fun s ev => NoCompaction c s ∧ ThroughLog s ev

theorem serviceOk_step (h : ServiceOk c s) (hok : NoCompaction c s ∧ ThroughLog s ev)
    (hstep : ev.step c s = some s') : ServiceOk c s' := h.step hok.1 hok.2 hstep

/-! ## Nothing is taken back -/

/-- A node applies more and more, and gives its store more and more of it. -/
structure Grows (s s' : Service) : Prop where
  applied : ∀ i, (s.raft.node i).applied <+: (s'.raft.node i).applied
  told : ∀ i, s.told i ≤ s'.told i

theorem Does.applied_grows {x : State} {act : Action} {e : Effect} (h : Does c x act e) :
    (x.node e.actor).applied <+: e.node.applied := by
  rcases h.applyPart with hsame | ⟨-, hdone⟩ | ⟨next, y, hnew⟩
  · rw [(Prod.mk.inj hsame).1]
  · rw [(Prod.mk.inj hdone).1]
  · rw [(Prod.mk.inj hnew).1]
    exact List.prefix_append _ _

theorem applied_step {x x' : State} {e : Event} (hplain : e.Plain c x)
    (hstep : e.step c x = some x') (i : String) : (x.node i).applied <+: (x'.node i).applied := by
  cases stepped hstep with
  | @act a f hd =>
    by_cases hi : i = f.actor
    · subst hi
      simp only [Function.update_self]
      exact hd.applied_grows
    · simp only [Function.update_of_ne hi]
      exact List.prefix_rfl
  | drop => exact List.prefix_rfl
  | stop | stopDuring | restart | stopDuringRestart => exact hplain.elim

theorem told_step (h : ev.step c s = some s') (i : String) : s.told i ≤ s'.told i := by
  cases ev with
  | act a =>
    simp only [ServiceEvent.step, Option.ite_none_right_eq_some, Option.map_eq_some_iff] at h
    obtain ⟨-, raft, -, rfl⟩ := h
    exact Nat.le_refl _
  | drop k =>
    simp only [ServiceEvent.step, Option.map_eq_some_iff] at h
    obtain ⟨raft, -, rfl⟩ := h
    exact Nat.le_refl _
  | applyEntry j now =>
    simp only [ServiceEvent.step, Option.bind_eq_bind, Option.bind_eq_some_iff] at h
    obtain ⟨x, -, h⟩ := h
    cases h
    by_cases hi : i = j
    · subst hi
      simp only [Function.update_self]
      exact Nat.le_succ _
    · simp only [Function.update_of_ne hi]
      exact Nat.le_refl _
  | request j route req =>
    cases h
    exact Nat.le_refl _
  | call k now deadline =>
    simp only [ServiceEvent.step, Option.bind_eq_bind, Option.bind_eq_some_iff] at h
    obtain ⟨⟨j, thread⟩, -, called, -, h⟩ := h
    cases h
    exact Nat.le_refl _

theorem Grows.step (hsize : NoCompaction c s) (hstep : ev.step c s = some s') : Grows s s' where
  told := told_step hstep
  applied := by
    rcases raft_step hstep with ⟨-, hsame⟩ | ⟨e, he, hraft⟩
    · rw [hsame]
      exact fun _ => List.prefix_rfl
    · exact applied_step (hsize.plain he) hraft

/-! ## One history -/

/-- What two nodes have applied, one is the beginning of the other. -/
theorem CommitInv.comparable {x : State} {a : Replicas String LogEntry} (sim : Sim c x a)
    (cinv : CommitInv c x a) (i j : String)
    (hle : (x.node i).applied.length ≤ (x.node j).applied.length) :
    (x.node i).applied <+: (x.node j).applied := by
  apply List.prefix_iff_getElem?.mpr
  intro k hk
  have hi := (cinv.nodes i).applied k _ (List.getElem?_eq_getElem hk)
  have hj := (cinv.nodes j).applied k _ (List.getElem?_eq_getElem (by omega))
  have hki := Nat.le_trans (Nat.succ_le_of_lt hk) (cinv.nodes i).applied_le
  have hkj : k + 1 ≤ (x.node j).commitIndex := by
    have := (cinv.nodes j).applied_le
    omega
  have hag := (cinv.nodes i).covered.agree sim.inv (cinv.nodes j).covered (Nat.succ_pos k) hki hkj
    (k + 1) (Nat.le_refl _)
  rw [hi, hj] at hag
  rw [List.getElem?_eq_getElem (by omega), Option.some.inj hag]

/-- **Every store replays one history**, in a full mesh whose writes go through the log: there is
    a sequence of committed entries such that what the store of any node holds at any moment of
    the run is the replay of a prefix of it. On one node the prefix never gets shorter. -/
theorem one_history (hc : c.FullMesh) {tr : List (Service × ServiceEvent)}
    (run : LogRun c {} tr s) : ∃ history : List LogEntry,
    (∀ k e, history[k]? = some e → ∃ i ∈ c.ids, Decided s.raft i (k + 1) e) ∧
    ∀ i ∈ c.ids,
      (visited tr s).Pairwise (fun s₁ s₂ => s₁.told i ≤ s₂.told i) ∧
      ∀ s₁ ∈ visited tr s, s₁.told i ≤ history.length ∧
        ∀ t, contents (s₁.store i) = contents (replayed t (history.take (s₁.told i))) := by
  have hok : ∀ s₁ ∈ visited tr s, ServiceOk c s₁ :=
    run.visited_invariant (fun _ _ _ h hallowed hstep => serviceOk_step h hallowed hstep)
      (serviceOk_start c)
  obtain ⟨hpair, hgrows⟩ := run.visited_pairwise (I := fun _ => True) (R := Grows)
    (fun _ => ⟨fun _ => List.prefix_rfl, fun _ => Nat.le_refl _⟩)
    (fun _ _ _ h h' => ⟨fun i => (h.applied i).trans (h'.applied i),
      fun i => Nat.le_trans (h.told i) (h'.told i)⟩)
    (fun _ _ _ _ hallowed hstep => ⟨trivial, Grows.step hallowed.1 hstep⟩) trivial
  obtain ⟨tr', raft⟩ := (hok s (mem_visited.mpr (Or.inr rfl))).raft
  obtain ⟨a, -, sim, cinv⟩ := CommitInv.run hc raft (sim_init c) (commitInv_init c)
  obtain ⟨history, hfrom, hlongest⟩ :=
    exists_longest (c.ids.map fun i => (s.raft.node i).applied) (by
      intro xs hxs ys hys
      obtain ⟨i, -, rfl⟩ := List.mem_map.mp hxs
      obtain ⟨j, -, rfl⟩ := List.mem_map.mp hys
      exact (Nat.le_total _ _).imp (cinv.comparable sim i j) (cinv.comparable sim j i))
  refine ⟨history, ?_, ?_⟩
  · intro k e he
    rcases hfrom with rfl | hmem
    · exact absurd he (by simp)
    · obtain ⟨i, hi, rfl⟩ := List.mem_map.mp hmem
      have hk := (List.getElem?_eq_some_iff.mp he).1
      refine ⟨i, hi, Or.inl ⟨Nat.succ_pos k, ?_, ?_⟩⟩
      · exact Nat.le_trans (Nat.succ_le_of_lt hk) (cinv.nodes i).applied_le
      · rw [((sim.nodes i).shaped sim.inv).getEntry_eq]
        exact (cinv.nodes i).applied k e he
  · intro i hi
    refine ⟨hpair.imp fun h => h.told i, ?_⟩
    intro s₁ hs₁
    have htold := (hok s₁ hs₁).stores i
    have hbegins : (s₁.raft.node i).applied <+: history :=
      ((hgrows s₁ hs₁).applied i).trans (hlongest _ (List.mem_map.mpr ⟨i, hi, rfl⟩))
    refine ⟨Nat.le_trans htold.le hbegins.length_le, ?_⟩
    intro t
    rw [htold.contents t]
    obtain ⟨rest, rfl⟩ := hbegins
    rw [List.take_append_of_le_length htold.le]

theorem one_history_put : ∃ tr s, ∃ history : List LogEntry, LogRun three {} tr s ∧
    contents (s.store "B") "k" = some { value := "v", version := 1, raftIndex := 2 } ∧
    ∀ t, contents (s.store "B") = contents (replayed t (history.take (s.told "B"))) := by
  obtain ⟨s, hs, h⟩ := (Option.any_eq_true _ _).mp
    (show (exec (ServiceEvent.step three) (fun s ev => NoCompaction three s ∧ ThroughLog s ev) {}
      putApplied).any (fun s => decide (contents (s.store "B") "k" =
        some { value := "v", version := 1, raftIndex := 2 })) = true by decide +kernel)
  have run := runs_of_exec hs
  obtain ⟨history, -, hall⟩ := one_history three_fullMesh run
  have hB := (hall "B" (by decide)).2 s (mem_visited.mpr (Or.inr rfl))
  exact ⟨_, s, history, run, of_decide_eq_true h, hB.2⟩

/-! ## The last write of a key -/

/-- The entry writes the key. -/
def Writes (key : String) (e : LogEntry) : Prop :=
  e.key = key ∧ (e.opType = .Put ∨ e.opType = .Delete)

instance (key : String) (e : LogEntry) : Decidable (Writes key e) :=
  inferInstanceAs (Decidable (_ ∧ _))

def lastWrite (key : String) (es : List LogEntry) : Option LogEntry :=
  es.reverse.find? fun e => Writes key e

theorem lastWrite_concat (key : String) (es : List LogEntry) (e : LogEntry) :
    lastWrite key (es ++ [e]) = if Writes key e then some e else lastWrite key es := by
  simp only [lastWrite, List.reverse_append, List.reverse_singleton, List.singleton_append,
    List.find?_cons]
  by_cases h : Writes key e
  · simp [h]
  · simp [h]

/-- What an entry leaves under its key. -/
def leaves (e : LogEntry) : Option (String × Nat) :=
  if e.opType = .Put then some (e.value, e.index) else none

/-- A replay holds under a key what its last write left there. -/
theorem contents_replayed (t : Int) (key : String) (es : List LogEntry) :
    (contents (replayed t es) key).map (fun v => (v.value, v.raftIndex)) =
      (lastWrite key es).bind leaves := by
  induction es using List.reverseRecOn with
  | nil => rfl
  | append_singleton es e ih =>
    rw [replayed_concat, lastWrite_concat]
    unfold KVStore.applyEntry
    cases hop : e.opType with
    | Put =>
      simp only [contents_put]
      by_cases hkey : e.key = key
      · simp [Writes, hkey, hop, leaves]
      · simp [Writes, hkey, ih]
    | Delete =>
      simp only [contents_delete]
      by_cases hkey : e.key = key
      · simp [Writes, hkey, hop, leaves]
      · simp [Writes, hkey, ih]
    | NoOp => simp [Writes, hop, ih]
    | unnamed code => simp [Writes, hop, ih]

/-- The last write of a key comes at or behind any other. -/
theorem lastWrite_behind {key : String} {es : List LogEntry} {k : Nat} {e : LogEntry}
    (he : es[k]? = some e) (hw : Writes key e) :
    ∃ k' e', k ≤ k' ∧ es[k']? = some e' ∧ Writes key e' ∧ lastWrite key es = some e' := by
  induction es using List.reverseRecOn with
  | nil => exact absurd he (by simp)
  | append_singleton es x ih =>
    rw [lastWrite_concat]
    by_cases hx : Writes key x
    · have hk : k ≤ es.length := by
        have := (List.getElem?_eq_some_iff.mp he).1
        rw [List.length_append, List.length_singleton] at this
        omega
      rw [if_pos hx]
      exact ⟨es.length, x, hk, by simp, hx, rfl⟩
    · rw [if_neg hx]
      rcases getElem?_concat_iff.mp he with hold | ⟨-, rfl⟩
      · obtain ⟨k', e', hle, hget, hw', hlast⟩ := ih hold
        exact ⟨k', e', hle, getElem?_concat_of_some hget, hw', hlast⟩
      · exact absurd hw hx

/-! ## The store is not behind -/

/-- What `lastApplied_` counts, the store has been given. -/
def Caught (s : Service) : Prop := ∀ i, (s.raft.node i).lastApplied ≤ s.told i

theorem told_of_endApply {i data : String} (hstep : ev.step c s = some s')
    (he : ev.raft s = some (.act (.endApply i data))) :
    s.told i = (s.raft.node i).applied.length := by
  cases ev with
  | act a =>
    injection he with he
    injection he with he
    subst he
    simp only [ServiceEvent.step, Option.ite_none_right_eq_some] at hstep
    exact of_decide_eq_true hstep.1
  | drop k => exact absurd he (by simp [ServiceEvent.raft])
  | applyEntry j now => exact absurd he (by simp [ServiceEvent.raft])
  | request j route req => exact absurd he (by simp [ServiceEvent.raft])
  | call k now deadline =>
    simp only [ServiceEvent.raft] at he
    split at he
    · exact absurd he (by simp)
    · exact absurd he (by simp)
    · exact absurd he (by simp)

/-- Only the second section of `ApplyLoop` moves `lastApplied_`, and as far as it has applied. -/
theorem Does.lastApplied {x : State} {act : Action} {e : Effect} (hd : Does c x act e)
    (hsmall : ∀ i ∈ c.ids, (x.node i).log.size ≤ c.snapshotThreshold)
    (hcounts : ApplyOk (x.node e.actor)) :
    e.node.lastApplied = (x.node e.actor).lastApplied ∨
      (∃ data, act = .endApply e.actor data) ∧
        e.node.lastApplied = (x.node e.actor).applied.length := by
  have hpart := hd.applyPart
  have ht := hd.touch hsmall
  generalize e.node = n' at hpart ht ⊢
  cases ht with
  | quiet steady | noOp steady | commit steady | accept _ _ steady =>
    exact Or.inl steady.lastApplied
  | propose | beginApply => exact Or.inl rfl
  | @endApply next y busy =>
    obtain ⟨hnext, hlen⟩ := hcounts.busy next y busy
    rcases hpart with hsame | ⟨hact, -⟩ | ⟨next', y', hnew⟩
    · have : (none : Option (Nat × LogEntry)) = _ := (Prod.mk.inj hsame).2
      rw [busy] at this
      exact absurd this (by simp)
    · exact Or.inr ⟨hact, by rw [hlen]; exact hnext⟩
    · exact absurd (Prod.mk.inj hnew).2 (by simp)

theorem Caught.step (hc : c.FullMesh) (h : Caught s) (hok : ServiceOk c s)
    (hsize : NoCompaction c s) (hstep : ev.step c s = some s') : Caught s' := by
  intro i
  have htold := told_step hstep i
  obtain ⟨tr, run⟩ := hok.raft
  obtain ⟨a, -, -, cinv⟩ := CommitInv.run hc run (sim_init c) (commitInv_init c)
  rcases raft_step hstep with ⟨-, hsame⟩ | ⟨e, he, hraft⟩
  · rw [hsame]
    exact Nat.le_trans (h i) htold
  · have hplain := hsize.plain he
    generalize hx : s'.raft = x at hraft
    cases stepped hraft with
    | @act a f hd =>
      by_cases hi : i = f.actor
      · subst hi
        simp only [Function.update_self]
        rcases hd.lastApplied hsize (cinv.nodes _).counts with hsame | ⟨⟨data, hact⟩, hall⟩
        · rw [hsame]
          exact Nat.le_trans (h _) htold
        · subst hact
          rw [hall, ← told_of_endApply hstep he]
          exact htold
      · simp only [Function.update_of_ne hi]
        exact Nat.le_trans (h i) htold
    | drop => exact Nat.le_trans (h i) htold
    | stop | stopDuring | restart | stopDuringRestart => exact hplain.elim

/-! ## Acknowledged writes -/

/-- The runs of the service that write through the log and in which every `Propose` answers for
    its own entry. -/
abbrev OwnLogRun (c : Cluster) : Service → List (Service × ServiceEvent) → Service → Prop :=
  Runs (ServiceEvent.step c) fun s ev =>
    (NoCompaction c s ∧ ThroughLog s ev) ∧ ∀ e ∈ ev.raft s, Owned s.raft e

theorem OwnLogRun.raft {tr : List (Service × ServiceEvent)} (run : OwnLogRun c s tr s') :
    ∃ tr', OrderlyRun c s.raft tr' s'.raft := by
  refine run.project Service.raft ?_
  intro s ev s' hok hstep
  rcases raft_step hstep with ⟨-, hsame⟩ | ⟨e, he, hraft⟩
  · exact Or.inl hsame
  · exact Or.inr ⟨e, ⟨⟨hok.1.1.plain he, hok.1.2.verified e he⟩, hok.2 e he⟩, hraft⟩

theorem OwnLogRun.soFar (hc : c.FullMesh) {tr : List (Service × ServiceEvent)}
    (run : OwnLogRun c {} tr s) : ∃ a, SoFar c s.raft a := by
  obtain ⟨tr', run'⟩ := run.raft
  obtain ⟨a, -, h, -⟩ := SoFar.run hc run' (soFar_init c)
  exact ⟨a, h⟩

theorem OwnLogRun.caught (hc : c.FullMesh) {tr : List (Service × ServiceEvent)}
    (run : OwnLogRun c {} tr s) : ServiceOk c s ∧ Caught s := by
  refine run.invariant (I := fun s => ServiceOk c s ∧ Caught s) ?_
    ⟨serviceOk_start c, fun _ => Nat.le_refl _⟩
  intro s ev s' ⟨hok, hcaught⟩ hallowed hstep
  exact ⟨serviceOk_step hok hallowed.1 hstep, hcaught.step hc hok hallowed.1.1 hstep⟩

theorem OwnLogRun.grows {tr : List (Service × ServiceEvent)} (run : OwnLogRun c s tr s') :
    Grows s s' :=
  run.monotone (I := fun _ => True) (fun _ => ⟨fun _ => List.prefix_rfl, fun _ => Nat.le_refl _⟩)
    (fun _ _ _ h h' => ⟨fun i => (h.applied i).trans (h'.applied i),
      fun i => Nat.le_trans (h.told i) (h'.told i)⟩)
    (fun _ _ _ _ hallowed hstep => ⟨trivial, Grows.step hallowed.1.1 hstep⟩) trivial

/-- An acknowledged entry has been applied at its index. -/
theorem SoFar.applied_returned {x : State} {a : Replicas String LogEntry} {i : String} {e : Event}
    {call : ProposeCall} {result : ProposeResult} (h : SoFar c x a) (howned : Owned x e)
    (hret : e.Returns x i call result) (hok : result.ok = true) :
    (x.node i).applied[call.index - 1]? = some call.entry := by
  have hheld := h.held howned hret hok
  obtain ⟨-, -, hpos, -⟩ := h.returned hret hok
  obtain ⟨id, deadline, rfl, -, hout⟩ := hret
  obtain ⟨-, hle, -⟩ := proposeOutcome_ok hout hok
  have hcount := (h.propose i).counts.lastApplied_le
  have hlt : call.index - 1 < (x.node i).applied.length := by omega
  have happlied := (h.commit.nodes i).applied _ _ (List.getElem?_eq_getElem hlt)
  rw [Nat.sub_add_cancel hpos, hheld] at happlied
  rw [List.getElem?_eq_getElem hlt]
  exact happlied.symm

/-- **A client reads its own writes** from the node that acknowledged them, in a full mesh whose
    writes go through the log and whose calls, when they are woken with their index applied, are
    still in the term of their entry: ever after, what the store of this node holds under the key
    was left there by the acknowledged entry or by one behind it in the log. -/
theorem own_write_visible (hc : c.FullMesh) {tr : List (Service × ServiceEvent)}
    (run : OwnLogRun c {} tr s) {s₁ : Service} {k : Nat} {now : Int} {deadline : Bool}
    (hmem : (s₁, ServiceEvent.call k now deadline) ∈ tr) {i : String} {id : Nat}
    {next : ProposeResult → Handling} (hthread : s₁.threads[k]? = some (i, .waiting id next))
    {call : ProposeCall} {result : ProposeResult}
    (hret : (Event.act (.wakePropose i id deadline)).Returns s₁.raft i call result)
    (hok : result.ok = true) {key : String} (hkey : Writes key call.entry) :
    ∃ e, Decided s.raft i e.index e ∧ Writes key e ∧ call.index ≤ e.index ∧
      (e.index = call.index → e = call.entry) ∧
      (contents (s.store i) key).map (fun v => (v.value, v.raftIndex)) = leaves e := by
  obtain ⟨tr₁, s₂, tr₂, run₁, hallowed, hstep, run₂⟩ := run.split hmem
  have howned : Owned s₁.raft (.act (.wakePropose i id deadline)) := by
    apply hallowed.2
    simp only [ServiceEvent.raft, hthread]
    rfl
  obtain ⟨a₁, h₁⟩ := OwnLogRun.soFar hc run₁
  obtain ⟨a, h⟩ := OwnLogRun.soFar hc run
  have happlied := h₁.applied_returned howned hret hok
  obtain ⟨-, -, hpos, -⟩ := h₁.returned hret hok
  have htold : call.index ≤ s₁.told i := by
    obtain ⟨_, _, heq, -, hout⟩ := hret
    exact Nat.le_trans (proposeOutcome_ok hout hok).2.1 ((OwnLogRun.caught hc run₁).2 i)
  -- from then on
  have hgrows : Grows s₁ s := OwnLogRun.grows ((Runs.tail (.refl s₁) hallowed hstep).trans run₂)
  have hstore := ((OwnLogRun.caught hc run).1.stores i).contents 0
  have hthere : ((s.raft.node i).applied.take (s.told i))[call.index - 1]? = some call.entry := by
    have hlt : call.index - 1 < s.told i := by
      have := hgrows.told i
      omega
    rw [List.getElem?_take_of_lt hlt]
    obtain ⟨rest, hrest⟩ := hgrows.applied i
    rw [← hrest, List.getElem?_append_left (List.getElem?_eq_some_iff.mp happlied).1]
    exact happlied
  obtain ⟨k', e, hle, hget, hw, hlast⟩ := lastWrite_behind hthere hkey
  have hin : (s.raft.node i).applied[k']? = some e := by
    rw [List.getElem?_take] at hget
    split at hget
    · exact hget
    · exact absurd hget (by simp)
  have hindex := (h.propose i).indices k' e hin
  refine ⟨e, Or.inr ⟨List.mem_of_getElem? hin, rfl⟩, hw, by omega, ?_, ?_⟩
  · intro heq
    have : k' = call.index - 1 := by omega
    subst this
    exact Option.some.inj (hget.symm.trans hthere)
  · rw [hstore, contents_replayed, hlast]
    rfl

/-- Thread `k` waits on node `i` for the call `id`. -/
def waitsFor (s : Service) (k : Nat) (i : String) (id : Nat) : Bool :=
  match s.threads[k]? with
  | some (j, .waiting id' _) => j = i && id' = id
  | _ => false

theorem thread_of_waitsFor {k id : Nat} {i : String} (h : waitsFor s k i id = true) :
    ∃ next, s.threads[k]? = some (i, .waiting id next) := by
  unfold waitsFor at h
  split at h
  · rename_i j id' next heq
    obtain ⟨rfl, rfl⟩ : j = i ∧ id' = id := by simpa using h
    exact ⟨next, heq⟩
  · exact absurd h (by simp)

theorem own_write_visible_put : ∃ tr s e, OwnLogRun three {} tr s ∧ Writes "k" e ∧
    (contents (s.store "A") "k").map (fun v => (v.value, v.raftIndex)) = leaves e := by
  obtain ⟨s₁, hs₁, h⟩ := (Option.any_eq_true _ _).mp
    (show (exec (ServiceEvent.step three) (fun s ev =>
        (NoCompaction three s ∧ ThroughLog s ev) ∧ ∀ e ∈ ev.raft s, Owned s.raft e) {}
      putApplied).any (fun s => decide (waitsFor s 0 "A" 6 = true ∧
        Acknowledges s.raft "A" 6 = true ∧
        (∀ call ∈ (s.raft.node "A").proposals, Writes "k" call.entry) ∧
        ((NoCompaction three s ∧ ThroughLog s (.call 0 0 false)) ∧
          ∀ e ∈ ServiceEvent.raft s (.call 0 0 false), Owned s.raft e) ∧
        (ServiceEvent.step three s (.call 0 0 false)).isSome = true)) = true by decide +kernel)
  obtain ⟨hwaits, hack, hwrites, hallowed, hsome⟩ := of_decide_eq_true h
  obtain ⟨s, hstep⟩ := Option.isSome_iff_exists.mp hsome
  obtain ⟨next, hthread⟩ := thread_of_waitsFor hwaits
  obtain ⟨call, result, hret, hok, -⟩ := returns_of_acknowledges hack
  have hcall : call ∈ (s₁.raft.node "A").proposals := by
    obtain ⟨_, _, -, hfind, -⟩ := hret
    exact List.mem_of_find?_eq_some hfind
  have run := (runs_of_exec hs₁).tail hallowed hstep
  obtain ⟨e, -, hw, -, -, hcontents⟩ := own_write_visible three_fullMesh run
    (List.mem_append_right _ List.mem_cons_self) hthread hret hok (hwrites call hcall)
  exact ⟨_, s, e, run, hw, hcontents⟩

end Proof
end OrcDb
