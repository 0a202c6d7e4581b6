import OrcDb.Raft.Timer
import OrcDb.Proof.Raft.Wakeups

/-!
# Elections in time

Two questions about `ElectionLoop`, one for each side of the timeout.

* *Too early?* `elections_patient`: a node starts no election sooner than `electionTimeoutMin`
  after it heard a leader, gave its vote or started its last election. The decision is taken
  with `mu_` held and acted on without it, and a heartbeat that comes in between is not seen.
* *Too late?* `silence_bounded`: a node that does not lead has reset its election timer within two
  timeouts, or one timeout and one election, plus what the scheduler adds. One timeout is not
  the bound (`silence_tight`): a heartbeat just after the wait began leaves a silence that is
  one millisecond too short when the wait ends, and the loop waits another whole timeout.

`Moves` is the step read backwards. The role of a sleeping leader is `Signalled.role`.
-/

set_option autoImplicit false

namespace OrcDb
namespace Proof

open Lib

variable {J : Json.Codec} {cfg : RaftConfig} {T : ElectionTimeouts} {p : Pace}
  {s s' : TimedNode} {ev : TimerEvent}

/-- The thread is about to leave `wait_for` with this timeout. -/
inductive Ready (T : ElectionTimeouts) (s : TimedNode) (timeout late : Nat) : TimerEvent → Prop
  | enter {since : Nat} (thread : s.thread = .top since) (min_le : T.min ≤ timeout)
      (le_max : timeout ≤ T.max) : Ready T s timeout late (.enter timeout late)
  | wake {deadline : Nat} (thread : s.thread = .waiting timeout deadline) :
      Ready T s timeout late (.wake late)

/-- What a step can do. -/
inductive Moves (J : Json.Codec) (cfg : RaftConfig) (T : ElectionTimeouts) (s : TimedNode) :
    TimerEvent → TimedNode → Prop
  | tick {d : Nat} : Moves J cfg T s (.tick d) { s with now := s.now + d }
  | act {sec : Section} {node : RaftNode} (admits : s.thread.admits sec = true)
      (acts : Acts J cfg s.node sec node) :
      Moves J cfg T s (.act sec)
        { s with
          node
          lastHeartbeat := if sec.hears s.node then s.now else s.lastHeartbeat
          thread := s.thread.after s.now sec }
  | wait {since timeout late : Nat} (thread : s.thread = .top since) (min_le : T.min ≤ timeout)
      (le_max : timeout ≤ T.max) :
      Moves J cfg T s (.enter timeout late)
        { s with thread := .waiting timeout (s.now + timeout) }
  | lead {ev : TimerEvent} {timeout late : Nat} (ready : Ready T s timeout late ev)
      (role : s.node.role = .Leader) :
      Moves J cfg T s ev { s with now := s.now + late, thread := .leading }
  | call {ev : TimerEvent} {timeout late : Nat} (ready : Ready T s timeout late ev)
      (role : s.node.role ≠ .Leader) (elapsed : s.lastHeartbeat + timeout ≤ s.now + late) :
      Moves J cfg T s ev { s with now := s.now + late, thread := .calling (s.now + late) }
  | again {ev : TimerEvent} {timeout late : Nat} (ready : Ready T s timeout late ev)
      (role : s.node.role ≠ .Leader) (early : s.now + late < s.lastHeartbeat + timeout) :
      Moves J cfg T s ev { s with now := s.now + late, thread := .top (s.now + late) }
  /-- Woken for nothing. -/
  | stay {ev : TimerEvent} (woken : ∀ sec, ev ≠ .act sec) : Moves J cfg T s ev s
  | deposed (thread : s.thread = .leading) (role : s.node.role ≠ .Leader) :
      Moves J cfg T s .wakeLeading { s with thread := .top s.now }
  | back {since : Nat} (thread : s.thread = .electing since) (done : s.node.election = none) :
      Moves J cfg T s .back { s with thread := .top s.now }

theorem moves_afterWait {timeout late : Nat} (h : Ready T s timeout late ev) :
    Moves J cfg T s ev (TimedNode.afterWait { s with now := s.now + late } timeout) := by
  unfold TimedNode.afterWait
  dsimp only
  split
  · rename_i hrole
    exact .lead h hrole
  · rename_i hrole
    split
    · rename_i helapsed
      exact .call h hrole helapsed
    · rename_i helapsed
      exact .again h hrole (Nat.not_le.mp helapsed)

theorem moves (h : s.step J cfg T ev = some s') : Moves J cfg T s ev s' := by
  cases ev with
  | tick d =>
    obtain rfl := Option.some.inj h
    exact .tick
  | act sec =>
    simp only [TimedNode.step] at h
    split at h
    · rename_i hadmits
      obtain ⟨node, hrun, rfl⟩ := Option.map_eq_some_iff.mp h
      exact .act hadmits (acts_of_run hrun)
    · exact absurd h (by simp)
  | enter timeout late =>
    simp only [TimedNode.step] at h
    split at h
    · rename_i hthread
      split at h
      · rename_i hrange
        split at h
        · obtain rfl := Option.some.inj h
          exact moves_afterWait (.enter hthread hrange.1 hrange.2)
        · obtain rfl := Option.some.inj h
          exact .wait hthread hrange.1 hrange.2
      · exact absurd h (by simp)
    · exact absurd h (by simp)
  | wake late =>
    simp only [TimedNode.step] at h
    split at h
    · rename_i hthread
      split at h
      · obtain rfl := Option.some.inj h
        exact moves_afterWait (.wake hthread)
      · obtain rfl := Option.some.inj h
        exact .stay (by simp)
    · exact absurd h (by simp)
  | wakeLeading =>
    simp only [TimedNode.step] at h
    split at h
    · rename_i hthread
      split at h
      · obtain rfl := Option.some.inj h
        exact .stay (by simp)
      · rename_i hrole
        obtain rfl := Option.some.inj h
        exact .deposed hthread hrole
    · exact absurd h (by simp)
  | back =>
    simp only [TimedNode.step] at h
    split at h
    · rename_i hthread
      split at h
      · rename_i hdone
        obtain rfl := Option.some.inj h
        exact .back hthread hdone
      · exact absurd h (by simp)
    · exact absurd h (by simp)

/-! ## Not too early -/

/-- The clock is ahead of `lastHeartbeat_`, and a wait has a timeout of the range. -/
structure TimerOk (T : ElectionTimeouts) (s : TimedNode) : Prop where
  heard : s.lastHeartbeat ≤ s.now
  range : ∀ timeout deadline, s.thread = .waiting timeout deadline →
    T.min ≤ timeout ∧ timeout ≤ T.max

theorem TimerOk.ready {timeout late : Nat} (h : TimerOk T s) (hr : Ready T s timeout late ev) :
    T.min ≤ timeout ∧ timeout ≤ T.max := by
  cases hr with
  | enter _ min_le le_max => exact ⟨min_le, le_max⟩
  | wake thread => exact h.range _ _ thread

/-- Only `StartElection` moves the thread, and it does so from `calling`. -/
theorem after_eq {th : ElectionThread} (now : Nat) {sec : Section} (h : th.admits sec = true) :
    th.after now sec = th ∨ (∃ id, sec = .startElection id) ∧ (∃ t, th = .calling t) ∧
      th.after now sec = .electing now := by
  cases sec with
  | startElection id =>
    refine Or.inr ⟨⟨id, rfl⟩, ?_, rfl⟩
    cases th with
    | calling t => exact ⟨t, rfl⟩
    | top | waiting | leading | electing =>
      exact absurd h (by simp [ElectionThread.admits, Section.owner])
  | _ => exact Or.inl rfl

theorem TimerOk.step (h : TimerOk T s) (hstep : s.step J cfg T ev = some s') : TimerOk T s' := by
  cases moves hstep with
  | tick => exact ⟨Nat.le_trans h.heard (Nat.le_add_right _ _), h.range⟩
  | act admits acts =>
    refine ⟨?_, ?_⟩
    · dsimp only
      split
      · exact Nat.le_refl _
      · exact h.heard
    · intro timeout deadline hth
      dsimp only at hth
      rcases after_eq s.now admits with hsame | ⟨-, -, hnew⟩
      · exact h.range timeout deadline (hsame.symm.trans hth)
      · exact absurd (hnew.symm.trans hth) (by simp)
  | wait thread min_le le_max =>
    refine ⟨h.heard, ?_⟩
    intro timeout deadline hth
    injection hth with ht _
    subst ht
    exact ⟨min_le, le_max⟩
  | lead | call | again =>
    exact ⟨Nat.le_trans h.heard (Nat.le_add_right _ _), fun _ _ hth => absurd hth (by simp)⟩
  | stay => exact h
  | deposed | back => exact ⟨h.heard, fun _ _ hth => absurd hth (by simp)⟩

/-- The section sets `lastHeartbeat_` while the loop can still take it into account. -/
def Quiets (s : TimedNode) (sec : Section) : Prop :=
  sec.hears s.node = true ∧ ∀ t, s.thread = .calling t → ∃ id, sec = .startElection id

abbrev TimedRun (J : Json.Codec) (cfg : RaftConfig) (T : ElectionTimeouts) (n : RaftNode) :=
  Runs (TimedNode.step J cfg T) (fun _ _ => True) { node := n }

/-- What the loop remembers of such a section, and what it makes of it. -/
structure Patient (T : ElectionTimeouts) (tr : List (TimedNode × TimerEvent)) (s : TimedNode) :
    Prop where
  ok : TimerOk T s
  heard : ∀ s₀ sec, (s₀, TimerEvent.act sec) ∈ tr → Quiets s₀ sec → s₀.now ≤ s.lastHeartbeat
  waited : ∀ t, s.thread = .calling t → ∀ s₀ sec, (s₀, TimerEvent.act sec) ∈ tr →
    Quiets s₀ sec → s₀.now + T.min ≤ s.now

theorem mem_step {tr : List (TimedNode × TimerEvent)} {s₀ : TimedNode} {sec : Section}
    (h : (s₀, TimerEvent.act sec) ∈ tr ++ [(s, ev)]) :
    (s₀, TimerEvent.act sec) ∈ tr ∨ s₀ = s ∧ ev = .act sec := by
  rcases List.mem_append.mp h with h | h
  · exact Or.inl h
  · injection List.mem_singleton.mp h with h₁ h₂
    exact Or.inr ⟨h₁, h₂.symm⟩

/-- A step of the loop: it decides for an election only after `electionTimeoutMin`. -/
theorem Patient.loop {tr : List (TimedNode × TimerEvent)} (h : Patient T tr s)
    (hok : TimerOk T s') (hev : ∀ sec, ev ≠ .act sec) (hheard : s'.lastHeartbeat = s.lastHeartbeat)
    (hcall : ∀ t, s'.thread = .calling t →
      s.thread = .calling t ∧ s.now ≤ s'.now ∨ s.lastHeartbeat + T.min ≤ s'.now) :
    Patient T (tr ++ [(s, ev)]) s' where
  ok := hok
  heard := by
    intro s₀ sec hmem hq
    rw [hheard]
    exact h.heard s₀ sec ((mem_step hmem).resolve_right fun h => hev sec h.2) hq
  waited := by
    intro t ht s₀ sec hmem hq
    have hold := (mem_step hmem).resolve_right fun h => hev sec h.2
    rcases hcall t ht with ⟨hbefore, hle⟩ | hle
    · exact Nat.le_trans (h.waited t hbefore s₀ sec hold hq) hle
    · exact Nat.le_trans (Nat.add_le_add_right (h.heard s₀ sec hold hq) _) hle

theorem Patient.act {tr : List (TimedNode × TimerEvent)} {sec : Section} (h : Patient T tr s)
    (hadmits : s.thread.admits sec = true) (hok : TimerOk T s') (hnow : s'.now = s.now)
    (hheard : s'.lastHeartbeat = if sec.hears s.node then s.now else s.lastHeartbeat)
    (hthread : s'.thread = s.thread.after s.now sec) : Patient T (tr ++ [(s, .act sec)]) s' where
  ok := hok
  heard := by
    intro s₀ sec₀ hmem hq
    rw [hheard]
    rcases mem_step hmem with hold | ⟨rfl, hsec⟩
    · have hle := h.heard s₀ sec₀ hold hq
      split
      · exact Nat.le_trans hle h.ok.heard
      · exact hle
    · injection hsec with hsec
      subst hsec
      rw [if_pos hq.1]
  waited := by
    intro t ht s₀ sec₀ hmem hq
    rw [hthread] at ht
    rw [hnow]
    rcases after_eq s.now hadmits with hsame | ⟨-, -, hnew⟩
    · rw [hsame] at ht
      rcases mem_step hmem with hold | ⟨rfl, hsec⟩
      · exact h.waited t ht s₀ sec₀ hold hq
      · -- in `calling` only the first section of `StartElection` counts, and that moves the thread
        injection hsec with hsec
        obtain ⟨id, hid⟩ := hq.2 t ht
        rw [hsec, hid, ht] at hsame
        exact absurd hsame (by simp [ElectionThread.after])
    · exact absurd (hnew.symm.trans ht) (by simp)

theorem Ready.ne_act {timeout late : Nat} (h : Ready T s timeout late ev) (sec : Section) :
    ev ≠ .act sec := by
  cases h with
  | enter | wake => simp

theorem Patient.step {tr : List (TimedNode × TimerEvent)} (h : Patient T tr s)
    (hstep : s.step J cfg T ev = some s') : Patient T (tr ++ [(s, ev)]) s' := by
  have hok := h.ok.step hstep
  cases moves hstep with
  | tick => exact h.loop hok (by simp) rfl fun t ht => Or.inl ⟨ht, Nat.le_add_right _ _⟩
  | act admits acts => exact h.act admits hok rfl rfl rfl
  | wait => exact h.loop hok (by simp) rfl fun t ht => absurd ht (by simp)
  | lead ready | again ready =>
    exact h.loop hok ready.ne_act rfl fun t ht => absurd ht (by simp)
  | call ready role elapsed =>
    refine h.loop hok ready.ne_act rfl fun t ht => Or.inr ?_
    exact Nat.le_trans (Nat.add_le_add_left (h.ok.ready ready).1 _) elapsed
  | stay woken => exact h.loop hok woken rfl fun t ht => Or.inl ⟨ht, Nat.le_refl _⟩
  | deposed | back => exact h.loop hok (by simp) rfl fun t ht => absurd ht (by simp)

theorem patient_run {n : RaftNode} {tr : List (TimedNode × TimerEvent)}
    (run : TimedRun J cfg T n tr s) : Patient T tr s := by
  refine run.history (I := Patient T) (fun tr s ev s' h _ hstep => h.step hstep) ?_
  exact
    { ok := ⟨Nat.le_refl _, fun _ _ h => absurd h (by simp)⟩
      heard := fun _ _ h => absurd h (by simp)
      waited := fun _ h => absurd h (by simp) }

theorem handleAppendEntries_not_leader (req : AppendEntriesRequest) {n : RaftNode}
    (hrole : n.role ≠ .Leader) : (n.handleAppendEntries J req).1.role ≠ .Leader := by
  have hheard : (heard n req).role ≠ .Leader := by
    unfold heard RaftNode.adoptTerm
    split
    · simp [RaftNode.becomeFollower, RaftNode.persistHardState]
    · exact hrole
  have h' := handled J n req
  generalize n.handleAppendEntries J req = out at h' ⊢
  cases h' with
  | stale => exact hrole
  | rejected => exact hheard
  | accepted =>
    rw [acceptEntries_eq]
    exact hheard

theorem step_act {sec : Section} {node : RaftNode} (hadmits : s.thread.admits sec = true)
    (hrun : sec.run J cfg s.node = some node) :
    s.step J cfg T (.act sec) = some
      { s with
        node
        lastHeartbeat := if sec.hears s.node then s.now else s.lastHeartbeat
        thread := s.thread.after s.now sec } := by
  simp only [TimedNode.step]
  rw [if_pos hadmits, hrun]
  rfl

/-- **No election is too early**: from when the node heard a leader, gave its vote or started
    its last election, `electionTimeoutMin` passes before it starts one. What it hears after
    the loop has made up its mind comes too late: the election starts at the same instant. -/
theorem elections_patient {n : RaftNode} {tr : List (TimedNode × TimerEvent)} {id : Nat}
    (run : TimedRun J cfg T n tr s) (hcall : s.step J cfg T (.act (.startElection id)) = some s') :
    (∀ s₀ sec, (s₀, TimerEvent.act sec) ∈ tr → Quiets s₀ sec → s₀.now + T.min ≤ s.now) ∧
    ∀ req : AppendEntriesRequest, s.node.currentTerm ≤ req.term →
      ∃ s₁ s₂, s.step J cfg T (.act (.appendEntries req)) = some s₁ ∧ s₁.lastHeartbeat = s.now ∧
        s₁.step J cfg T (.act (.startElection id)) = some s₂ ∧ s₂.now = s.now ∧
        s₂.node.role = .Candidate := by
  cases moves hcall with
  | stay woken => exact absurd rfl (woken _)
  | lead ready | call ready | again ready => exact absurd rfl (ready.ne_act _)
  | act admits acts =>
    obtain ⟨t, ht⟩ : ∃ t, s.thread = .calling t := by
      rcases after_eq s.now admits with hsame | ⟨-, h, -⟩
      · rw [← hsame] at admits
        exact absurd admits (by simp [ElectionThread.after, ElectionThread.admits])
      · exact h
    cases acts with
    | startElection idle role =>
      refine ⟨(patient_run run).waited t ht, ?_⟩
      intro req hterm
      have hfirst : s.thread.admits (.appendEntries req) = true := by
        rw [ht]
        rfl
      have hsecond : Section.run J cfg (s.node.handleAppendEntries J req).1 (.startElection id) =
          some ((s.node.handleAppendEntries J req).1.startElection cfg id).1 := by
        simp only [Section.run]
        rw [if_neg]
        simp [idle, handleAppendEntries_not_leader req role]
      exact ⟨_, _, step_act hfirst rfl, if_pos (decide_eq_true hterm), step_act admits hsecond, rfl,
        rfl⟩

/-- Two elections that nobody answers. -/
def twoElections : List TimerEvent :=
  [.enter 150 0, .tick 150, .wake 0, .act (.startElection 1), .act .skipVote, .act .skipVote,
   .act .finishElection, .back, .enter 150 0, .tick 150, .wake 0]

theorem elections_patient_two : ∃ tr s s', TimedRun Json.text sleeper {} {} tr s ∧
    s.step Json.text sleeper {} (.act (.startElection 2)) = some s' ∧ s.now = 300 ∧
    ∀ s₀ sec, (s₀, TimerEvent.act sec) ∈ tr → Quiets s₀ sec → s₀.now + 150 ≤ 300 := by
  obtain ⟨s, hs, hok⟩ := (Option.any_eq_true _ _).mp
    (show (exec (TimedNode.step Json.text sleeper {}) (fun _ _ => True) { node := {} }
      twoElections).any (fun s => decide (s.now = 300 ∧
        (s.step Json.text sleeper {} (.act (.startElection 2))).isSome = true)) = true by
      decide +kernel)
  obtain ⟨hnow, hsome⟩ := of_decide_eq_true hok
  obtain ⟨s', hs'⟩ := Option.isSome_iff_exists.mp hsome
  have run := runs_of_exec hs
  refine ⟨_, s, s', run, hs', hnow, ?_⟩
  have h := (elections_patient run hs').1
  rw [hnow] at h
  exact h

/-! ## Not too late -/

/-- How old the last sign of life may be when a round begins: the round before ended because
    it was younger than the timeout, because an election was over, or because a leader was
    deposed. -/
def grace (T : ElectionTimeouts) (p : Pace) : Nat := max (max T.max p.election) p.lag

/-- The time the thread came to where it is, measured from `lastHeartbeat_`. -/
def Entered (T : ElectionTimeouts) (p : Pace) (s : TimedNode) : Prop :=
  match s.thread with
  | .top since => since ≤ s.lastHeartbeat + grace T p
  | .waiting _ deadline => deadline ≤ s.lastHeartbeat + grace T p + p.lag + T.max
  | .leading => True
  | .calling since => since ≤ s.lastHeartbeat + grace T p + T.max + 2 * p.lag
  | .electing since => since ≤ s.lastHeartbeat

structure Punctual (T : ElectionTimeouts) (p : Pace) (s : TimedNode) : Prop where
  ok : TimerOk T s
  limit : ∀ t ∈ s.limit p, s.now ≤ t
  entered : Entered T p s

theorem Entered.mono (h : Entered T p s) (hthread : s'.thread = s.thread)
    (hheard : s.lastHeartbeat ≤ s'.lastHeartbeat) : Entered T p s' := by
  unfold Entered at h ⊢
  rw [hthread]
  cases hth : s.thread with
  | top since => rw [hth] at h; dsimp only at h ⊢; omega
  | waiting timeout deadline => rw [hth] at h; dsimp only at h ⊢; omega
  | leading => trivial
  | calling since => rw [hth] at h; dsimp only at h ⊢; omega
  | electing since => rw [hth] at h; dsimp only at h ⊢; omega

/-- A thread that leaves `wait_for` does so before its limit. -/
theorem Punctual.ready {timeout late : Nat} (h : Punctual T p s) (hr : Ready T s timeout late ev)
    (hp : ev.Prompt p s) : s.now + late ≤ s.lastHeartbeat + grace T p + T.max + 2 * p.lag := by
  have hin := h.entered
  cases hr with
  | @enter since thread =>
    have hle : s.now + late ≤ since + p.lag := hp _ (by simp [TimedNode.limit, thread])
    simp only [Entered, thread] at hin
    omega
  | @wake deadline thread =>
    have hle : s.now + late ≤ deadline + p.lag := hp _ (by simp [TimedNode.limit, thread])
    simp only [Entered, thread] at hin
    omega

theorem hears_of_resetsTimer {n : RaftNode} {sec : Section} (h : sec.resetsTimer n = true) :
    sec.hears n = true := by
  cases sec with
  | startElection => rfl
  | _ => exact h

/-- A leader that is deposed while the thread sleeps is deposed now. -/
theorem leading_act {sec : Section} {node : RaftNode} (hthread : s.thread = .leading)
    (admits : s.thread.admits sec = true) (acts : Acts J cfg s.node sec node)
    (hbefore : s.node.role = .Leader) (hafter : node.role ≠ .Leader) :
    sec.hears s.node = true := by
  rcases acts.signalled.role hbefore hafter with howner | hnotifies
  · rw [hthread] at admits
    exact absurd howner (of_decide_eq_true admits)
  · exact hears_of_resetsTimer hnotifies

theorem Punctual.act {sec : Section} {node : RaftNode} (h : Punctual T p s)
    (admits : s.thread.admits sec = true) (acts : Acts J cfg s.node sec node)
    (hok : TimerOk T s') (hnode : s'.node = node) (hnow : s'.now = s.now)
    (hheard : s'.lastHeartbeat = if sec.hears s.node then s.now else s.lastHeartbeat)
    (hthread : s'.thread = s.thread.after s.now sec) : Punctual T p s' := by
  have hle : s.lastHeartbeat ≤ s'.lastHeartbeat := by
    rw [hheard]
    split
    · exact h.ok.heard
    · exact Nat.le_refl _
  rcases after_eq s.now admits with hsame | ⟨⟨id, rfl⟩, -, hnew⟩
  · rw [hsame] at hthread
    refine ⟨hok, ?_, h.entered.mono hthread hle⟩
    intro t ht
    rw [hnow]
    cases hth : s.thread with
    | leading =>
      by_cases hafter : node.role = .Leader
      · simp [TimedNode.limit, hthread, hth, hnode, hafter] at ht
      · have ht : s'.lastHeartbeat + p.lag = t := by
          simpa [TimedNode.limit, hthread, hth, hnode, hafter] using ht
        by_cases hbefore : s.node.role = .Leader
        · rw [if_pos (leading_act hth admits acts hbefore hafter)] at hheard
          omega
        · have := h.limit (s.lastHeartbeat + p.lag) (by simp [TimedNode.limit, hth, hbefore])
          omega
    | top | waiting | calling | electing =>
      apply h.limit
      simpa [TimedNode.limit, hthread, hth] using ht
  · -- the election has just begun
    rw [hnew] at hthread
    have hheard : s'.lastHeartbeat = s.now := hheard
    refine ⟨hok, ?_, ?_⟩
    · intro t ht
      have ht : s.now + p.election = t := by simpa [TimedNode.limit, hthread] using ht
      omega
    · simp [Entered, hthread, hheard]

theorem Punctual.step (h : Punctual T p s) (hp : ev.Prompt p s)
    (hstep : s.step J cfg T ev = some s') : Punctual T p s' := by
  have hok := h.ok.step hstep
  have hin := h.entered
  cases moves hstep with
  | tick => exact ⟨hok, hp, hin⟩
  | act admits acts => exact h.act admits acts hok rfl rfl rfl rfl
  | @wait since timeout late thread min_le le_max =>
    have hnow := h.limit (since + p.lag) (by simp [TimedNode.limit, thread])
    simp only [Entered, thread] at hin
    refine ⟨hok, ?_, ?_⟩
    · simp only [TimedNode.limit, Option.mem_some_iff, forall_eq']
      omega
    · simp only [Entered]
      omega
  | lead ready role =>
    refine ⟨hok, ?_, trivial⟩
    simp [TimedNode.limit, role]
  | call ready role elapsed =>
    refine ⟨hok, ?_, h.ready ready hp⟩
    simp [TimedNode.limit]
  | @again _ timeout late ready role early =>
    refine ⟨hok, by simp [TimedNode.limit], ?_⟩
    have hmax := (h.ok.ready ready).2
    have hgrace : T.max ≤ grace T p := Nat.le_trans (Nat.le_max_left _ _) (Nat.le_max_left _ _)
    simp only [Entered]
    omega
  | stay => exact h
  | deposed thread role =>
    refine ⟨hok, by simp [TimedNode.limit], ?_⟩
    have hnow := h.limit (s.lastHeartbeat + p.lag) (by simp [TimedNode.limit, thread, role])
    have hgrace : p.lag ≤ grace T p := Nat.le_max_right _ _
    simp only [Entered]
    omega
  | @back since thread done =>
    refine ⟨hok, by simp [TimedNode.limit], ?_⟩
    have hnow := h.limit (since + p.election) (by simp [TimedNode.limit, thread])
    have hgrace : p.election ≤ grace T p :=
      Nat.le_trans (Nat.le_max_right _ _) (Nat.le_max_left _ _)
    simp only [Entered, thread] at hin
    simp only [Entered]
    omega

/-- The runs in which no thread is kept waiting for longer than the pace allows. -/
abbrev PromptRun (J : Json.Codec) (cfg : RaftConfig) (T : ElectionTimeouts) (p : Pace)
    (n : RaftNode) :=
  Runs (TimedNode.step J cfg T) (fun s ev => ev.Prompt p s) { node := n }

/-- **No silence is too long**: a node that does not lead has reset its election timer (heard a
    leader, given its vote, started an election or seen a higher term) within two timeouts (one
    and the length of an election, if that is longer). -/
theorem silence_bounded {n : RaftNode} {tr : List (TimedNode × TimerEvent)}
    (run : PromptRun J cfg T p n tr s) (hrole : s.node.role ≠ .Leader) :
    s.now ≤ s.lastHeartbeat + max (max T.max p.election) p.lag + T.max + 3 * p.lag := by
  have h : Punctual T p s := by
    refine run.invariant (fun s ev s' h hp hstep => h.step hp hstep) ?_
    exact ⟨⟨Nat.le_refl _, fun _ _ h => absurd h (by simp)⟩, by simp [TimedNode.limit],
      by simp [Entered]⟩
  have hin := h.entered
  have hgrace : grace T p = max (max T.max p.election) p.lag := rfl
  have helection : p.election ≤ grace T p :=
    Nat.le_trans (Nat.le_max_right _ _) (Nat.le_max_left _ _)
  rw [← hgrace]
  cases hth : s.thread with
  | top since =>
    have := h.limit (since + p.lag) (by simp [TimedNode.limit, hth])
    simp only [Entered, hth] at hin
    omega
  | waiting timeout deadline =>
    have := h.limit (deadline + p.lag) (by simp [TimedNode.limit, hth])
    simp only [Entered, hth] at hin
    omega
  | leading =>
    have := h.limit (s.lastHeartbeat + p.lag) (by simp [TimedNode.limit, hth, hrole])
    omega
  | calling since =>
    have := h.limit (since + p.lag) (by simp [TimedNode.limit, hth])
    simp only [Entered, hth] at hin
    omega
  | electing since =>
    have := h.limit (since + p.election) (by simp [TimedNode.limit, hth])
    simp only [Entered, hth] at hin
    omega

theorem silence_bounded_two : ∃ tr s, PromptRun Json.text sleeper {} ⟨0, 100⟩ {} tr s ∧
    s.node.role = .Candidate ∧ s.now ≤ s.lastHeartbeat + 600 := by
  obtain ⟨s, hs, hok⟩ := (Option.any_eq_true _ _).mp
    (show (exec (TimedNode.step Json.text sleeper {}) (fun s ev => ev.Prompt ⟨0, 100⟩ s)
      { node := {} } twoElections).any (fun s => decide (s.node.role = .Candidate)) = true by
      decide +kernel)
  have hrole := of_decide_eq_true hok
  have run := runs_of_exec hs
  exact ⟨_, s, run, hrole, silence_bounded run (by rw [hrole]; decide)⟩

/-- A round of a node that has heard something lately begins with a wait. -/
theorem step_enter {t : Nat} (hrange : T.min ≤ T.max) (hthread : s.thread = .top t)
    (hrole : s.node.role ≠ .Leader) (hlt : s.now < s.lastHeartbeat + T.max) :
    s.step J cfg T (.enter T.max 0) =
      some { s with thread := .waiting T.max (s.now + T.max) } := by
  have hdue : ¬ s.Due T.max := by
    rintro (h | h)
    · exact absurd h (Nat.not_le.mpr hlt)
    · exact hrole h
  simp only [TimedNode.step, hthread]
  rw [if_pos ⟨hrange, Nat.le_refl _⟩, if_neg hdue]

/-- A wait that ends too soon after the last sign of life starts the next round. -/
theorem step_wake {timeout : Nat} (hthread : s.thread = .waiting timeout s.now)
    (hrole : s.node.role ≠ .Leader) (hlt : s.now < s.lastHeartbeat + timeout) :
    s.step J cfg T (.wake 0) = some { s with thread := .top s.now } := by
  have helapsed : ¬ s.Elapsed timeout := Nat.not_le.mpr hlt
  simp only [TimedNode.step, hthread, TimedNode.afterWait]
  rw [if_pos (Or.inr (Nat.le_refl _)), if_neg hrole, if_neg]
  · rfl
  · exact helapsed

/-- **The bound is met**, on a machine that never keeps a thread waiting, and whatever
    timeouts are configured: the heartbeat comes one millisecond into the first wait. -/
theorem silence_tight {n : RaftNode} {e : Nat} (hrange : T.min ≤ T.max) (hpos : 0 < T.max)
    (hrole : n.role ≠ .Leader) : ∃ tr s, PromptRun J cfg T ⟨0, e⟩ n tr s ∧
      s.node.role ≠ .Leader ∧ s.now + 1 = s.lastHeartbeat + 2 * T.max := by
  let req : AppendEntriesRequest := { term := n.currentTerm }
  let n' := (n.handleAppendEntries J req).1
  have hrole' : n'.role ≠ .Leader := handleAppendEntries_not_leader req hrole
  let s₁ : TimedNode := { node := n, thread := .waiting T.max T.max }
  let s₂ : TimedNode :=
    { node := n', now := 1, lastHeartbeat := 1, thread := .waiting T.max T.max }
  let s₃ : TimedNode := { s₂ with now := T.max }
  let s₄ : TimedNode := { s₂ with now := T.max, thread := .top T.max }
  let s₅ : TimedNode :=
    { s₂ with now := T.max, thread := .waiting T.max (T.max + T.max) }
  let s₆ : TimedNode := { s₅ with now := T.max + T.max }
  have h₁ : TimedNode.step J cfg T { node := n } (.enter T.max 0) = some s₁ := by
    rw [step_enter hrange rfl hrole (by simpa using hpos)]
    simp [s₁]
  have h₂ : TimedNode.step J cfg T { s₁ with now := 1 } (.act (.appendEntries req)) = some s₂ := by
    have hhears : Section.hears n (.appendEntries req) = true := decide_eq_true (Nat.le_refl _)
    rw [step_act rfl rfl, if_pos hhears]
    rfl
  have h₃ : TimedNode.step J cfg T s₂ (.tick (T.max - 1)) = some s₃ := by
    show some { s₂ with now := 1 + (T.max - 1) } = some s₃
    rw [Nat.add_sub_cancel' hpos]
  have h₄ : TimedNode.step J cfg T s₃ (.wake 0) = some s₄ :=
    step_wake rfl hrole' (show T.max < 1 + T.max by omega)
  have h₅ : TimedNode.step J cfg T s₄ (.enter T.max 0) = some s₅ :=
    step_enter hrange rfl hrole' (show T.max < 1 + T.max by omega)
  have h₆ : TimedNode.step J cfg T s₅ (.tick T.max) = some s₆ := rfl
  have run : ∃ tr, PromptRun J cfg T ⟨0, e⟩ n tr s₆ := by
    refine ⟨_, Runs.tail (Runs.tail (Runs.tail (Runs.tail (Runs.tail (Runs.tail (Runs.tail
      (.refl _) ?_ h₁) ?_ (show TimedNode.step J cfg T s₁ (.tick 1) = some _ from rfl)) ?_ h₂)
      ?_ h₃) ?_ h₄) ?_ h₅) ?_ h₆⟩
    all_goals simp [TimerEvent.Prompt, TimedNode.limit, s₁, s₂, s₃, s₄, s₅]
    all_goals omega
  obtain ⟨tr, run⟩ := run
  exact ⟨tr, s₆, run, hrole', show T.max + T.max + 1 = 1 + 2 * T.max by omega⟩

end Proof
end OrcDb
