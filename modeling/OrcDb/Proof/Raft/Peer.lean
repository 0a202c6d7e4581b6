import OrcDb.Raft.Peer

/-!
# A peer connects once

`recvThread_` is joinable from the first assignment on: nothing in `Disconnect`, in the exit
of `RecvLoop` or in the send path joins it. So the second `Connect` that succeeds, whatever
happened to the first connection, assigns over a joinable thread (`reconnect_iff`).
-/

set_option autoImplicit false

namespace OrcDb
namespace Proof

open Lib

/-- `Connect` has a connection and reaches the assignment to `recvThread_`. -/
def Assigns : PeerEvent → Bool
  | .construct fd => fd.isSome
  | .spawn _ => true
  | _ => false

variable {p p' : RaftPeer} {ev : PeerEvent}

@[simp]
theorem startRecv_recvThread (p : RaftPeer) : p.startRecv.recvThread = true := by
  unfold RaftPeer.startRecv
  split
  · assumption
  · rfl

@[simp]
theorem startRecv_terminated (p : RaftPeer) :
    p.startRecv.terminated = (p.recvThread || p.terminated) := by
  unfold RaftPeer.startRecv
  cases p.recvThread with
  | true => rfl
  | false => rfl

@[simp]
theorem setPhase_recvThread (p : RaftPeer) (caller : Nat) (c : PeerCall) (phase : CallPhase) :
    (p.setPhase caller c phase).recvThread = p.recvThread := rfl

@[simp]
theorem setPhase_terminated (p : RaftPeer) (caller : Nat) (c : PeerCall) (phase : CallPhase) :
    (p.setPhase caller c phase).terminated = p.terminated := rfl

@[simp]
theorem finish_recvThread (p : RaftPeer) (caller : Nat) :
    (p.finish caller).recvThread = p.recvThread := rfl

@[simp]
theorem finish_terminated (p : RaftPeer) (caller : Nat) :
    (p.finish caller).terminated = p.terminated := rfl

@[simp]
theorem disconnect_recvThread (p : RaftPeer) : p.disconnect.recvThread = p.recvThread := rfl

@[simp]
theorem disconnect_terminated (p : RaftPeer) : p.disconnect.terminated = p.terminated := rfl

/-- What a step does to the thread object. -/
theorem step_recvThread (h : p.step ev = some p') :
    p.terminated = false ∧ p'.recvThread = (p.recvThread || Assigns ev) ∧
      p'.terminated = (p.recvThread && Assigns ev) := by
  unfold RaftPeer.step at h
  split at h
  · exact absurd h (by simp)
  rename_i halive
  rw [Bool.not_eq_true] at halive
  refine ⟨halive, ?_⟩
  cases ev with
  | construct fd =>
    dsimp only at h
    split at h
    · exact absurd h (by simp)
    cases fd with
    | none =>
      cases h
      simp [Assigns, halive]
    | some fd =>
      cases h
      simp only [startRecv_recvThread, startRecv_terminated]
      simp [Assigns, halive]
  | call =>
    dsimp only at h
    split at h
    · cases h
      simp [Assigns, halive]
    · exact absurd h (by simp)
  | connect caller fd =>
    obtain ⟨c, -, rfl⟩ := Option.map_eq_some_iff.mp h
    cases fd with
    | none => simp [Assigns, halive]
    | some fd => simp [Assigns, halive]
  | spawn caller =>
    obtain ⟨c, -, rfl⟩ := Option.map_eq_some_iff.mp h
    simp [Assigns, halive]
  | check caller =>
    obtain ⟨c, -, rfl⟩ := Option.map_eq_some_iff.mp h
    split
    · simp [Assigns, halive]
    · simp [Assigns, halive]
  | send caller ok =>
    obtain ⟨c, -, rfl⟩ := Option.map_eq_some_iff.mp h
    split
    · simp [Assigns, halive]
    · dsimp only
      split
      · simp [Assigns, halive]
      · simp [Assigns, halive]
  | loop =>
    dsimp only at h
    split at h
    · split at h
      · cases h
        simp [Assigns, halive]
      · cases h
        simp [Assigns, halive]
    · exact absurd h (by simp)
  | recv r =>
    dsimp only at h
    split at h
    · cases r with
      | data chunk =>
        obtain ⟨out, -, rfl⟩ := Option.map_eq_some_iff.mp h
        simp [Assigns, halive]
      | again =>
        cases h
        simp [Assigns, halive]
      | closed =>
        cases h
        simp [Assigns, halive]
      | error =>
        cases h
        simp [Assigns, halive]
    · exact absurd h (by simp)

/-! ## Whole runs -/

/-- Any calls, from the constructor on, and anything the network does. -/
abbrev PeerRun : RaftPeer → List (RaftPeer × PeerEvent) → RaftPeer → Prop :=
  Runs RaftPeer.step fun _ _ => True

/-- How often `Connect` reached the assignment. -/
def assignments (tr : List (RaftPeer × PeerEvent)) : Nat := tr.countP fun x => Assigns x.2

theorem recvThread_iff {tr : List (RaftPeer × PeerEvent)} (run : PeerRun {} tr p) :
    p.recvThread = true ↔ 0 < assignments tr := by
  generalize hinit : ({} : RaftPeer) = p₀ at run
  induction run with
  | refl =>
    subst hinit
    simp [assignments]
  | tail run _ last ih =>
    rw [(step_recvThread last).2.1, Bool.or_eq_true, ih, assignments, assignments,
      List.countP_append, List.countP_singleton]
    split
    · simp [*]
    · simp [*]

/-- **A peer survives exactly the runs in which it connects at most once.** In every run, each
    `Connect` that reaches the assignment finds `recvThread_` not joinable if and only if at
    most one of them reaches it; and the process is terminated by the others. -/
theorem reconnect_iff {tr : List (RaftPeer × PeerEvent)} (run : PeerRun {} tr p) :
    ((∀ x ∈ tr, Assigns x.2 = true → x.1.recvThread = false) ↔ assignments tr ≤ 1) ∧
      (p.terminated = false ↔ assignments tr ≤ 1) := by
  generalize hinit : ({} : RaftPeer) = p₀ at run
  induction run with
  | refl =>
    subst hinit
    simp [assignments]
  | @tail p₁ p₂ tr ev run _ last ih =>
    subst hinit
    have hthread := recvThread_iff run
    obtain ⟨halive, -, hterm⟩ := step_recvThread last
    have hle : assignments tr ≤ 1 := ih.2.mp halive
    have hcount : assignments (tr ++ [(p₁, ev)]) =
        assignments tr + if Assigns ev then 1 else 0 := by
      rw [assignments, List.countP_append, List.countP_singleton]
      rfl
    have hlast : (Assigns ev = true → p₁.recvThread = false) ↔
        assignments (tr ++ [(p₁, ev)]) ≤ 1 := by
      rw [hcount, ← Bool.not_eq_true, hthread]
      cases Assigns ev with
      | true => simp only [forall_const, if_true]; omega
      | false => simp [hle]
    constructor
    · rw [← hlast]
      constructor
      · intro hall
        exact hall (p₁, ev) (by simp)
      · intro hnew x hx
        rcases List.mem_append.mp hx with hx | hx
        · exact ih.1.mpr hle x hx
        · rw [List.mem_singleton.mp hx]
          exact hnew
    · rw [hterm, ← hlast]
      cases Assigns ev with
      | true => simp
      | false => simp

/-- The peer closes the connection, and the next call does not get another. -/
def lostForGood : List PeerEvent :=
  [.construct (some 3), .loop, .recv .closed, .call, .connect 0 none, .check 0]

theorem reconnect_iff_lost : ∃ tr p, PeerRun {} tr p ∧ assignments tr = 1 ∧
    p.terminated = false := by
  have hrun : (exec RaftPeer.step (fun _ _ => True) {} lostForGood).isSome = true := by
    decide +kernel
  obtain ⟨p, hp⟩ := Option.isSome_iff_exists.mp hrun
  have hcount : assignments (traceOf RaftPeer.step {} lostForGood) = 1 := by
    decide +kernel
  have run := runs_of_exec hp
  exact ⟨_, p, run, hcount, (reconnect_iff run).2.mpr (Nat.le_of_eq hcount)⟩

/-- The peer closes the connection, and the next call connects again. -/
def lostAndFound : List PeerEvent :=
  [.construct (some 3), .loop, .recv .closed, .call, .connect 0 (some 4), .spawn 0]

theorem reconnect_fails : ∃ tr p, PeerRun {} tr p ∧
    (∃ x ∈ tr, Assigns x.2 = true ∧ x.1.recvThread = true) ∧ p.terminated = true := by
  have hrun : (exec RaftPeer.step (fun _ _ => True) {} lostAndFound).any
      (fun p => p.terminated) = true := by
    decide +kernel
  obtain ⟨p, hp, hterm⟩ := (Option.any_eq_true _ _).mp hrun
  have hlast : ((exec RaftPeer.step (fun _ _ => True) {} (lostAndFound.take 5)).any
      fun p => p.recvThread) = true := by
    decide +kernel
  obtain ⟨q, hq, hthread⟩ := (Option.any_eq_true _ _).mp hlast
  exact ⟨_, p, runs_of_exec hp, ⟨(q, .spawn 0), mem_traceOf hq (.spawn 0) [], rfl, hthread⟩, hterm⟩

end Proof
end OrcDb
