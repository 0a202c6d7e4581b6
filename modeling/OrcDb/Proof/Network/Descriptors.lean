import OrcDb.Lib.Run
import OrcDb.Network.TcpServer

/-!
# Descriptors that are used again

`connections_` is keyed by descriptor numbers. The kernel gives a number out again as soon as
it is closed, and `IoLoop` closes a descriptor first and erases its entry afterwards, in
another section. `Sane` is what the threads do keep among themselves: a socket that is being
served or accepted is open under its descriptor, and belongs to one thread. Under it the one
step that can lose a connection is the `erase`, and it does so exactly if the descriptor has
been accepted and inserted again in between (`noneLost_iff`).
-/

set_option autoImplicit false

namespace OrcDb
namespace Proof

open Lib

variable {numIoThreads : Nat} {s s' : TcpServer}

/-- Every descriptor that was accepted, inserted and not closed maps to its connection. -/
def NoneLost (s : TcpServer) : Prop :=
  ∀ fd conn, s.descriptors fd = some conn → s.uninserted ≠ some conn →
    s.connections fd = some conn

/-- The descriptor an `IoLoop` has closed and whose entry it is about to erase. -/
def closedBy : IoPhase → Option Nat
  | .closing fd => some fd
  | _ => none

/-- An `erase` finds the descriptor it closed unused, or accepted again but not yet inserted. -/
def ErasesOwn (s : TcpServer) : TcpServer.Step → Prop
  | .erase thread => ∀ fd ∈ closedBy (s.ioThreads thread),
      s.descriptors fd = none ∨ s.descriptors fd = s.uninserted
  | _ => True

instance (s : TcpServer) (a : TcpServer.Step) : Decidable (ErasesOwn s a) :=
  match a with
  | .erase thread => inferInstanceAs (Decidable (∀ fd ∈ closedBy (s.ioThreads thread),
      s.descriptors fd = none ∨ s.descriptors fd = s.uninserted))
  | .accept _ => .isTrue trivial
  | .insert => .isTrue trivial
  | .watch => .isTrue trivial
  | .find _ _ => .isTrue trivial
  | .keep _ => .isTrue trivial
  | .close _ => .isTrue trivial

/-- What the threads keep, whether entries are lost or not. -/
structure Sane (numIoThreads : Nat) (s : TcpServer) : Prop where
  counted : ∀ fd conn, s.descriptors fd = some conn → conn < s.totalAccepts
  distinct : ∀ fd fd' conn, s.descriptors fd = some conn → s.descriptors fd' = some conn →
    fd = fd'
  accepting : ∀ fd conn, s.acceptThread = .accepted fd conn → s.descriptors fd = some conn
  serving : ∀ thread fd found, s.ioThreads thread = .serving fd found → ∃ conn,
    s.descriptors fd = some conn ∧ s.unwatched ≠ some conn ∧ conn % numIoThreads = thread

/-! ## One step -/

/-- The steps with their outcomes told apart. -/
inductive TableStep (numIoThreads : Nat) (s : TcpServer) : TcpServer.Step → TcpServer → Prop
  | accept {fd : Nat} (waiting : s.acceptThread = .waiting) (free : s.descriptors fd = none) :
      TableStep numIoThreads s (.accept fd) { s with
        descriptors := Function.update s.descriptors fd (some s.totalAccepts)
        acceptThread := .accepted fd s.totalAccepts
        totalAccepts := s.totalAccepts + 1 }
  | insert {fd conn : Nat} (accepted : s.acceptThread = .accepted fd conn) :
      TableStep numIoThreads s .insert { s with
        connections := Function.update s.connections fd (some conn)
        acceptThread := .inserted fd conn }
  | watch {fd conn : Nat} (inserted : s.acceptThread = .inserted fd conn) :
      TableStep numIoThreads s .watch { s with acceptThread := .waiting }
  | miss {thread fd : Nat} : TableStep numIoThreads s (.find thread fd) s
  | find {thread fd conn : Nat} (found : Nat) (own : s.descriptors fd = some conn)
      (watched : s.unwatched ≠ some conn) (turn : conn % numIoThreads = thread) :
      TableStep numIoThreads s (.find thread fd) { s with
        ioThreads := Function.update s.ioThreads thread (.serving fd found) }
  | keep {thread : Nat} : TableStep numIoThreads s (.keep thread) { s with
      ioThreads := Function.update s.ioThreads thread .waiting }
  | close {thread fd found : Nat} (serving : s.ioThreads thread = .serving fd found) :
      TableStep numIoThreads s (.close thread) { s with
        descriptors := Function.update s.descriptors fd none
        ioThreads := Function.update s.ioThreads thread (.closing fd) }
  | erase {thread fd : Nat} (closing : s.ioThreads thread = .closing fd) :
      TableStep numIoThreads s (.erase thread) { s with
        connections := Function.update s.connections fd none
        ioThreads := Function.update s.ioThreads thread .waiting }

theorem tableStep_of_step {a : TcpServer.Step} (hstep : s.step numIoThreads a = some s') :
    TableStep numIoThreads s a s' := by
  cases a with
  | accept fd =>
    simp only [TcpServer.step, Option.ite_none_right_eq_some, Option.some.injEq] at hstep
    obtain ⟨⟨hwaiting, hfree⟩, rfl⟩ := hstep
    exact .accept hwaiting hfree
  | insert =>
    simp only [TcpServer.step] at hstep
    split at hstep
    · rename_i haccepted
      cases hstep
      exact .insert haccepted
    · exact absurd hstep (by simp)
  | watch =>
    simp only [TcpServer.step] at hstep
    split at hstep
    · rename_i hinserted
      cases hstep
      exact .watch hinserted
    · exact absurd hstep (by simp)
  | find thread fd =>
    simp only [TcpServer.step] at hstep
    split at hstep
    · exact absurd hstep (by simp)
    · rename_i conn hconn
      rw [Option.ite_none_right_eq_some] at hstep
      obtain ⟨⟨_, hwatched, hthread⟩, hstep⟩ := hstep
      split at hstep
      · cases hstep
        exact .miss
      · cases hstep
        exact .find _ hconn hwatched hthread
  | keep thread =>
    simp only [TcpServer.step] at hstep
    split at hstep
    · cases hstep
      exact .keep
    · exact absurd hstep (by simp)
  | close thread =>
    simp only [TcpServer.step] at hstep
    split at hstep
    · rename_i hserving
      cases hstep
      exact .close hserving
    · exact absurd hstep (by simp)
  | erase thread =>
    simp only [TcpServer.step] at hstep
    split at hstep
    · rename_i hclosing
      cases hstep
      exact .erase hclosing
    · exact absurd hstep (by simp)

/-! ## What the threads keep -/

theorem update_cases {β : Type} {f : Nat → β} {k k' : Nat} {v w : β}
    (h : Function.update f k v k' = w) : k' = k ∧ v = w ∨ k' ≠ k ∧ f k' = w := by
  by_cases hk : k' = k
  · subst hk
    rw [Function.update_self] at h
    exact Or.inl ⟨rfl, h⟩
  · rw [Function.update_of_ne hk] at h
    exact Or.inr ⟨hk, h⟩

theorem Sane.accept (h : Sane numIoThreads s) {fd : Nat} (hfree : s.descriptors fd = none) :
    Sane numIoThreads { s with
      descriptors := Function.update s.descriptors fd (some s.totalAccepts)
      acceptThread := .accepted fd s.totalAccepts
      totalAccepts := s.totalAccepts + 1 } := by
  -- The new socket has a number of its own, and its descriptor was not in use.
  have hother : ∀ fd' conn, s.descriptors fd' = some conn →
      fd' ≠ fd ∧ conn ≠ s.totalAccepts := by
    intro fd' conn hconn
    refine ⟨?_, (h.counted fd' conn hconn).ne⟩
    rintro rfl
    exact absurd (hconn.symm.trans hfree) (by simp)
  refine ⟨?_, ?_, ?_, ?_⟩
  · intro fd' conn hconn
    rcases update_cases hconn with ⟨_, hnew⟩ | ⟨_, hold⟩
    · cases hnew
      exact Nat.lt_succ_self _
    · exact Nat.lt_succ_of_lt (h.counted fd' conn hold)
  · intro fd₁ fd₂ conn h₁ h₂
    rcases update_cases h₁ with ⟨rfl, hnew₁⟩ | ⟨_, hold₁⟩
    · cases hnew₁
      rcases update_cases h₂ with ⟨rfl, _⟩ | ⟨_, hold₂⟩
      · rfl
      · exact absurd rfl (hother _ _ hold₂).2
    · rcases update_cases h₂ with ⟨rfl, hnew₂⟩ | ⟨_, hold₂⟩
      · cases hnew₂
        exact absurd rfl (hother _ _ hold₁).2
      · exact h.distinct _ _ _ hold₁ hold₂
  · intro fd' conn hconn
    cases hconn
    exact Function.update_self ..
  · intro thread fd' found hserving
    obtain ⟨conn, hconn, _, hthread⟩ := h.serving thread fd' found hserving
    obtain ⟨hfd, hnew⟩ := hother fd' conn hconn
    exact ⟨conn, (Function.update_of_ne hfd _ _).trans hconn,
      by simpa [TcpServer.unwatched] using hnew.symm, hthread⟩

theorem Sane.close (h : Sane numIoThreads s) {thread fd found : Nat}
    (hserving : s.ioThreads thread = .serving fd found) :
    Sane numIoThreads { s with
      descriptors := Function.update s.descriptors fd none
      ioThreads := Function.update s.ioThreads thread (.closing fd) } := by
  obtain ⟨conn, hconn, hwatched, hthread⟩ := h.serving thread fd found hserving
  have hold : ∀ {fd' conn'}, Function.update s.descriptors fd none fd' = some conn' →
      s.descriptors fd' = some conn' := by
    intro fd' conn' h'
    rcases update_cases h' with ⟨_, hnone⟩ | ⟨_, hold⟩
    · exact absurd hnone (by simp)
    · exact hold
  have hkept : ∀ {fd' conn'}, conn' ≠ conn → s.descriptors fd' = some conn' →
      Function.update s.descriptors fd none fd' = some conn' := by
    intro fd' conn' hne h'
    rw [Function.update_of_ne _ _ _]
    · exact h'
    · rintro rfl
      exact hne (Option.some.inj (h'.symm.trans hconn))
  refine ⟨fun _ _ h' => h.counted _ _ (hold h'),
    fun _ _ _ h₁ h₂ => h.distinct _ _ _ (hold h₁) (hold h₂), ?_, ?_⟩
  · intro fd' conn' haccepted
    refine hkept ?_ (h.accepting fd' conn' haccepted)
    rintro rfl
    exact hwatched (by simp [TcpServer.unwatched, show s.acceptThread = _ from haccepted])
  · intro thread' fd' found' h'
    rcases update_cases h' with ⟨_, hclosing⟩ | ⟨hne, hserving'⟩
    · exact absurd hclosing (by simp)
    · obtain ⟨conn', hconn', hwatched', hthread'⟩ := h.serving _ _ _ hserving'
      refine ⟨conn', hkept ?_ hconn', hwatched', hthread'⟩
      rintro rfl
      exact hne (hthread'.symm.trans hthread)

/-- A thread that goes to a phase in which it serves nothing new. -/
theorem Sane.ioPhase (h : Sane numIoThreads s) (thread : Nat) (phase : IoPhase)
    (connections : Nat → Option Nat)
    (hphase : ∀ fd found, phase = .serving fd found → ∃ conn,
      s.descriptors fd = some conn ∧ s.unwatched ≠ some conn ∧ conn % numIoThreads = thread) :
    Sane numIoThreads { s with
      connections := connections
      ioThreads := Function.update s.ioThreads thread phase } := by
  refine ⟨h.counted, h.distinct, h.accepting, ?_⟩
  intro thread' fd found hserving
  rcases update_cases hserving with ⟨rfl, hnew⟩ | ⟨_, hold⟩
  · exact hphase fd found hnew
  · exact h.serving thread' fd found hold

theorem Sane.step {a : TcpServer.Step} (h : Sane numIoThreads s)
    (hturn : TableStep numIoThreads s a s') : Sane numIoThreads s' := by
  cases hturn with
  | accept _ free => exact h.accept free
  | insert accepted =>
    refine ⟨h.counted, h.distinct, fun _ _ h' => absurd h' (by simp), ?_⟩
    intro thread fd' found hserving
    simpa [TcpServer.unwatched, accepted] using h.serving thread fd' found hserving
  | watch =>
    refine ⟨h.counted, h.distinct, fun _ _ h' => absurd h' (by simp), ?_⟩
    intro thread fd' found hserving
    obtain ⟨conn, hconn, _, hthread⟩ := h.serving thread fd' found hserving
    exact ⟨conn, hconn, by simp [TcpServer.unwatched], hthread⟩
  | miss => exact h
  | find _ own watched turn =>
    refine h.ioPhase _ _ s.connections ?_
    intro fd' found' hphase
    cases hphase
    exact ⟨_, own, watched, turn⟩
  | keep => exact h.ioPhase _ _ s.connections (fun _ _ h' => absurd h' (by simp))
  | close serving => exact h.close serving
  | erase => exact h.ioPhase _ _ _ (fun _ _ h' => absurd h' (by simp))

/-! ## What a step does to the table -/

/-- An `erase` keeps the table good exactly if the entry it removes is nobody's. -/
theorem noneLost_erase (h : NoneLost s) (fd : Nat) (ioThreads : Nat → IoPhase) :
    NoneLost { s with
        connections := Function.update s.connections fd none
        ioThreads := ioThreads } ↔
      s.descriptors fd = none ∨ s.descriptors fd = s.uninserted := by
  constructor
  · intro hgood
    cases hconn : s.descriptors fd with
    | none => exact Or.inl rfl
    | some conn =>
      right
      by_contra hinserted
      have hentry := hgood fd conn hconn (Ne.symm hinserted)
      simp only [Function.update_self] at hentry
      exact absurd hentry (by simp)
  · intro hnobody fd' conn hconn hinserted
    have hfd : fd' ≠ fd := by
      rintro rfl
      rcases hnobody with hfree | hpending
      · exact absurd (hfree.symm.trans hconn) (by simp)
      · exact hinserted (hpending.symm.trans hconn)
    exact (Function.update_of_ne hfd _ _).trans (h fd' conn hconn hinserted)

/-- A step keeps the table good, unless it is such an `erase`. -/
theorem noneLost_step {a : TcpServer.Step} (hsane : Sane numIoThreads s) (h : NoneLost s)
    (hturn : TableStep numIoThreads s a s') : ErasesOwn s a ↔ NoneLost s' := by
  cases hturn with
  | accept waiting =>
    refine iff_of_true trivial ?_
    intro fd' conn hconn hinserted
    rcases update_cases hconn with ⟨_, hnew⟩ | ⟨_, hold⟩
    · exact absurd hnew hinserted
    · exact h fd' conn hold (by simp [TcpServer.uninserted, waiting])
  | @insert fd conn accepted =>
    refine iff_of_true trivial ?_
    intro fd' conn' hconn' _
    have hconn := hsane.accepting fd conn accepted
    by_cases hfd : fd' = fd
    · subst hfd
      exact (Function.update_self ..).trans (hconn.symm.trans hconn')
    · refine (Function.update_of_ne hfd _ _).trans (h fd' conn' hconn' ?_)
      intro hpending
      simp only [TcpServer.uninserted, accepted, Option.some.injEq] at hpending
      subst hpending
      exact hfd (hsane.distinct fd' fd _ hconn' hconn)
  | watch inserted =>
    refine iff_of_true trivial ?_
    intro fd' conn' hconn' _
    exact h fd' conn' hconn' (by simp [TcpServer.uninserted, inserted])
  | miss => exact iff_of_true trivial h
  | find => exact iff_of_true trivial h
  | keep => exact iff_of_true trivial h
  | close =>
    refine iff_of_true trivial ?_
    intro fd' conn hconn hinserted
    rcases update_cases hconn with ⟨_, hnone⟩ | ⟨_, hold⟩
    · exact absurd hnone (by simp)
    · exact h fd' conn hold hinserted
  | erase closing =>
    rw [noneLost_erase h]
    simp [ErasesOwn, closedBy, closing]

/-! ## Whole runs -/

theorem sane_start (numIoThreads : Nat) : Sane numIoThreads {} where
  counted := fun _ _ h => absurd h (by simp)
  distinct := fun _ _ _ h => absurd h (by simp)
  accepting := fun _ _ h => absurd h (by simp)
  serving := fun _ _ _ h => absurd h (by simp)

/-- **No accepted connection is lost, exactly as long as every `erase` comes before the
    descriptor is inserted again.** -/
theorem noneLost_iff (numIoThreads : Nat) {tr : List (TcpServer × TcpServer.Step)} {s : TcpServer}
    (run : Runs (TcpServer.step numIoThreads) (fun _ _ => True) {} tr s) :
    ((∀ p ∈ tr, NoneLost p.1) ∧ NoneLost s) ↔ ∀ p ∈ tr, ErasesOwn p.1 p.2 := by
  refine run.exact (I := Sane numIoThreads) (C := ErasesOwn) ?_ (sane_start numIoThreads) ?_
  · intro s a s' hsane hgood _ hstep
    have hturn := tableStep_of_step hstep
    exact ⟨noneLost_step hsane hgood hturn, fun _ => hsane.step hturn⟩
  · exact fun _ _ h => absurd h (by simp)

/-- A connection is accepted and served; its thread closes the descriptor. -/
def servedAndClosed : List TcpServer.Step :=
  [.accept 5, .insert, .watch, .find 0 5, .close 0]

/-- The descriptor is given out again, but the entry is erased before the new one is made. -/
def erasedFirst : List TcpServer.Step := servedAndClosed ++ [.accept 5, .erase 0, .insert]

theorem noneLost_erasedFirst : ∃ tr s,
    Runs (TcpServer.step 1) (fun _ _ => True) {} tr s ∧ s.descriptors 5 = some 1 ∧
      s.uninserted = none ∧ NoneLost s := by
  obtain ⟨s, hs, h⟩ := (Option.any_eq_true _ _).mp
    (show (exec (TcpServer.step 1) (fun _ _ => True) {} erasedFirst).any
      (fun s => decide (s.descriptors 5 = some 1 ∧ s.uninserted = none)) = true by decide +kernel)
  have howns : ∀ p ∈ traceOf (TcpServer.step 1) {} erasedFirst, ErasesOwn p.1 p.2 := by
    decide +kernel
  have run := runs_of_exec hs
  obtain ⟨hconn, hinserted⟩ := of_decide_eq_true h
  exact ⟨_, s, run, hconn, hinserted, ((noneLost_iff 1 run).mpr howns).2⟩

def erasedLast : List TcpServer.Step := servedAndClosed ++ [.accept 5, .insert, .erase 0]

/-- **A connection that is lost**: between `close` and `erase` the kernel gives the descriptor out
    again, and the `erase` removes the new connection. -/
theorem noneLost_fails : ∃ tr s,
    Runs (TcpServer.step 1) (fun _ _ => True) {} tr s ∧ ¬NoneLost s := by
  obtain ⟨s, hs, h⟩ := (Option.any_eq_true _ _).mp
    (show (exec (TcpServer.step 1) (fun _ _ => True) {} erasedLast).any
        (fun s => decide (s.descriptors 5 = some 1 ∧ s.uninserted = none ∧ s.connections 5 = none))
          = true by decide +kernel)
  obtain ⟨hconn, hinserted, hentry⟩ := of_decide_eq_true h
  refine ⟨_, s, runs_of_exec hs, fun hgood => ?_⟩
  have := hgood 5 1 hconn (by simp [hinserted])
  exact absurd (this.symm.trans hentry) (by simp)

end Proof
end OrcDb
