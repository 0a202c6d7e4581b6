import OrcDb.Locks

/-!
# No deadlock

`Mutex.May` says which mutexes are taken under which. It is read off the functions, one lemma
each, and a rank of the mutexes goes up along it. So whoever waits for a mutex waits for somebody
who does not (`no_deadlock`), and it is known what is held together (`held_together`): `mu_` of the
node never over a socket, a client's request or a watcher.
-/

set_option autoImplicit false

namespace OrcDb

/-- A thread that holds `held`, innermost first, takes `l`. -/
def Mutex.May : Mutex → List Mutex → Prop
  | .raftLog, held => held = [] ∨ held = [.raftNode]
  | .wal, held => held = [.raftNode] ∨ held = [.raftLog] ∨ held = [.raftLog, .raftNode]
  | .store, held => held = [] ∨ held = [.raftNode]
  | .poll _, held => held = [] ∨ held = [.watch]
  | .pending p, held => held = [] ∨ held = [.send p]
  | _, held => held = []

section May

variable {held : List Mutex} {p k : Nat}

@[simp]
theorem may_raftNode : Mutex.raftNode.May held ↔ held = [] := Iff.rfl

@[simp]
theorem may_raftLog : Mutex.raftLog.May held ↔ held = [] ∨ held = [.raftNode] := Iff.rfl

@[simp]
theorem may_wal : Mutex.wal.May held ↔
    held = [.raftNode] ∨ held = [.raftLog] ∨ held = [.raftLog, .raftNode] := Iff.rfl

@[simp]
theorem may_store : Mutex.store.May held ↔ held = [] ∨ held = [.raftNode] := Iff.rfl

@[simp]
theorem may_watch : Mutex.watch.May held ↔ held = [] := Iff.rfl

@[simp]
theorem may_poll : (Mutex.poll k).May held ↔ held = [] ∨ held = [.watch] := Iff.rfl

@[simp]
theorem may_send : (Mutex.send p).May held ↔ held = [] := Iff.rfl

@[simp]
theorem may_pending : (Mutex.pending p).May held ↔ held = [] ∨ held = [.send p] := Iff.rfl

@[simp]
theorem may_connections : Mutex.connections.May held ↔ held = [] := Iff.rfl

@[simp]
theorem may_writeBuf : (Mutex.writeBuf k).May held ↔ held = [] := Iff.rfl

@[simp]
theorem may_histogram : (Mutex.histogram k).May held ↔ held = [] := Iff.rfl

@[simp]
theorem may_logger : Mutex.logger.May held ↔ held = [] := Iff.rfl

end May

def Mutex.rank : Mutex → Nat
  | .raftLog => 1
  | .wal => 2
  | .store => 1
  | .poll _ => 1
  | .pending _ => 1
  | _ => 0

theorem Mutex.rank_le (l : Mutex) : l.rank ≤ 2 := by
  unfold Mutex.rank
  split
  all_goals decide

theorem Mutex.May.rank_lt {l l' : Mutex} {held : List Mutex} (h : l.May held) (hl' : l' ∈ held) :
    l'.rank < l.rank := by
  unfold Mutex.May at h
  split at h
  · rcases h with rfl | rfl
    · cases hl'
    · rw [List.mem_singleton.mp hl']
      exact Nat.zero_lt_one
  · rcases h with rfl | rfl | rfl
    · rw [List.mem_singleton.mp hl']
      exact Nat.zero_lt_two
    · rw [List.mem_singleton.mp hl']
      exact Nat.one_lt_two
    · rcases List.mem_pair.mp hl' with rfl | rfl
      · exact Nat.one_lt_two
      · exact Nat.zero_lt_two
  · rcases h with rfl | rfl
    · cases hl'
    · rw [List.mem_singleton.mp hl']
      exact Nat.zero_lt_one
  · rcases h with rfl | rfl
    · cases hl'
    · rw [List.mem_singleton.mp hl']
      exact Nat.zero_lt_one
  · rcases h with rfl | rfl
    · cases hl'
    · rw [List.mem_singleton.mp hl']
      exact Nat.zero_lt_one
  · subst h
    cases hl'

namespace Locks

open Lib

/-! ## The functions -/

/-- What the function takes, called by a thread that holds `held`. -/
abbrev TakesUnder (held : List Mutex) (c : LockCode Mutex) : Prop := c.Observes Mutex.May held

@[simp]
theorem notifyWatchers_takes : TakesUnder [] KVStore.notifyWatchers := by
  simp [KVStore.notifyWatchers, WatchHandler.callback]

/-- `Put`, `Delete` and `CAS` leave `mu_` before they notify. -/
@[simp]
theorem mutation_takes : TakesUnder [] (block [guarded .store [], KVStore.notifyWatchers]) := by
  simp [Mutex.May]

@[simp]
theorem raftLog_read_takes : TakesUnder [.raftNode] (reading .raftLog) := by
  simp [Mutex.May]

@[simp]
theorem append_takes : TakesUnder [.raftNode] RaftLog.append := by
  simp [RaftLog.append, WriteAheadLog.appendLogEntry]

@[simp]
theorem becomeFollower_takes : TakesUnder [.raftNode] RaftNode.becomeFollower := by
  simp [RaftNode.becomeFollower, RaftNode.persistHardState,
    WriteAheadLog.writeHardState]

@[simp]
theorem becomeLeader_takes : TakesUnder [.raftNode] RaftNode.becomeLeader := by
  simp [RaftNode.becomeLeader, RaftLog.lastIndex]

@[simp]
theorem advanceCommitIndex_takes : TakesUnder [.raftNode] RaftNode.advanceCommitIndex := by
  simp [RaftNode.advanceCommitIndex, RaftLog.lastIndex, RaftLog.getTerm]

@[simp]
theorem maybeSnapshot_takes : TakesUnder [.raftNode] RaftNode.maybeSnapshot := by
  simp [RaftNode.maybeSnapshot, RaftLog.size, KVStore.takeSnapshot,
    RaftLog.getTerm, WriteAheadLog.writeSnapshot, RaftLog.setSnapshot]

@[simp]
theorem disconnect_takes (p : Nat) : TakesUnder [] (RaftPeer.disconnect p) := by
  simp [RaftPeer.disconnect]

@[simp]
theorem sendRequest_takes (p : Nat) : TakesUnder [] (RaftPeer.sendRequest p) := by
  simp [RaftPeer.sendRequest, RaftPeer.sendRaw, RaftPeer.disconnect]

@[simp]
theorem startElection_takes : TakesUnder [] RaftNode.startElection := by
  simp [RaftNode.startElection, RaftNode.persistHardState,
    WriteAheadLog.writeHardState, RaftLog.lastIndex, RaftLog.lastTerm]

@[simp]
theorem replicateToPeer_takes (p : Nat) : TakesUnder [] (RaftNode.replicateToPeer p) := by
  simp [RaftNode.replicateToPeer, RaftLog.lastIndex, RaftLog.getTerm,
    RaftLog.getEntry]

@[simp]
theorem handleAppendEntries_takes : TakesUnder [] RaftNode.handleAppendEntries := by
  simp [RaftNode.handleAppendEntries, RaftLog.lastIndex,
    RaftLog.getTerm, RaftLog.appendAll, WriteAheadLog.appendLogEntry]

@[simp]
theorem handleRequestVote_takes : TakesUnder [] RaftNode.handleRequestVote := by
  simp [RaftNode.handleRequestVote, RaftNode.isLogUpToDate,
    RaftLog.lastTerm, RaftLog.lastIndex, RaftNode.persistHardState, WriteAheadLog.writeHardState]

@[simp]
theorem propose_takes : TakesUnder [] RaftNode.propose := by
  simp [RaftNode.propose, RaftLog.lastIndex]

@[simp]
theorem getLeaderId_takes : TakesUnder [] RaftNode.getLeaderId := by
  simp [RaftNode.getLeaderId]

@[simp]
theorem watch_takes (k : Nat) : TakesUnder [] (WatchHandler.watch k) := by
  simp [WatchHandler.watch, KVStore.watch, KVStore.unwatch]

@[simp]
theorem dispatch_takes : TakesUnder [] Router.dispatch := by
  simp [Router.dispatch, KVHandler.get, KVStore.get, KVHandler.put,
    KVHandler.redirectToLeader, KVHandler.delete, KVHandler.list, KVStore.scan,
    KVHandler.compareAndSwap, KVStore.cas, ClusterHandler.status, HealthHandler.readiness,
    OrcMetrics.collect]

/-! ## The threads -/

theorem entry_takes {c : LockCode Mutex} (h : Entry c) : TakesUnder [] c := by
  cases h with
  | main =>
    simp [Locks.main, RaftNode.recover, KVStore.restoreSnapshot,
      RaftLog.setSnapshot, RaftLog.append, WriteAheadLog.appendLogEntry, KVStore.size,
      TcpServer.activeConnections]
  | electionLoop => simp [RaftNode.electionLoop]
  | replicationLoop =>
    simp [RaftNode.replicationLoop, RaftNode.sendHeartbeatsToAll]
  | applyLoop =>
    simp [RaftNode.applyLoop, RaftLog.getEntry, RaftNode.applyEntry,
      KVStore.put, KVStore.delete]
  | recvLoop p => simp [RaftPeer.recvLoop]
  | handleConn => simp [RaftRpcServer.handleConn]
  | acceptLoop => simp [TcpServer.acceptLoop]
  | ioLoop =>
    simp [TcpServer.ioLoop, TcpServer.handleRead,
      TcpServer.queueWrite, TcpServer.handleWrite, TcpServer.hasPendingWrite]
  | purgeExpired => simp [KVStore.purgeExpired]

end Locks

namespace Proof

open Lib

/-- A process: any number of threads, started at any time. -/
abbrev ProcessRun : LockSystem Mutex → List (LockSystem Mutex × LockEvent Mutex) →
    LockSystem Mutex → Prop :=
  Runs LockSystem.step fun _ ev => ∀ c, ev = .spawn c → Locks.Entry c

variable {tr : List (LockSystem Mutex × LockEvent Mutex)} {s : LockSystem Mutex}

theorem ProcessRun.fit (run : ProcessRun [] tr s) : AllLockFit Mutex.May s := by
  refine run.invariant ?_ (fun _ ht => absurd ht (by simp))
  intro s₁ ev s₂ h hentry hstep
  exact h.step (fun c hc => Locks.entry_takes (hentry c hc)) hstep

/-- **No deadlock**: no thread waits for a mutex that it holds itself, or that is held by
    one that waits for it, through however many others. Whoever waits, waits in the end
    for a thread that is not waiting for any mutex. -/
theorem no_deadlock (run : ProcessRun [] tr s) (t : Nat) :
    ¬ Relation.TransGen s.Waits t t ∧
    ∀ u, s.Waits t u → ∃ v, Relation.TransGen s.Waits t v ∧ ∀ w, ¬ s.Waits v w := by
  have hfit := ProcessRun.fit run
  have hrank : ∀ l held, Mutex.May l held → ∀ l' ∈ held, l'.rank < l.rank :=
    fun _ _ h _ hl' => h.rank_lt hl'
  refine ⟨waits_acyclic hfit hrank t, ?_⟩
  intro u hw
  exact waits_end hfit hrank Mutex.rank_le hw

/-- Three threads: the apply loop, a connection from another node, a thread of the HTTP server. -/
def threeThreads : LockSystem Mutex :=
  [[⟨.none, [Locks.RaftNode.applyLoop]⟩], [⟨.none, [Locks.RaftRpcServer.handleConn]⟩],
    [⟨.none, [Locks.TcpServer.ioLoop]⟩]]

/-- One thread goes on. -/
def goesOn (t : Nat) (ms : List LockMove) : List (LockEvent Mutex) := ms.map (.move t)

/-- The HTTP thread is in `CAS`, the apply loop in `MaybeSnapshot` at the mutex of the store, and
    `HandleAppendEntries` at the `mu_` which the apply loop holds. -/
def snapshotting : List (LockEvent Mutex) :=
  goesOn 2 [.go, .pick 0, .go, .leave, .go, .go, .go, .other, .other, .other, .other, .go, .other,
    .go, .go] ++
  goesOn 0 [.go, .go, .go, .leave, .go, .leave, .go, .go, .leave, .go] ++
  goesOn 1 [.go, .go]

theorem threeThreads_run : ∃ tr, ProcessRun [] tr threeThreads := by
  have run₁ : ProcessRun [] _ _ := .tail (.refl []) (a := .spawn Locks.RaftNode.applyLoop)
    (fun c hc => by cases hc; exact .applyLoop) rfl
  have run₂ := Runs.tail run₁ (a := .spawn Locks.RaftRpcServer.handleConn)
    (fun c hc => by cases hc; exact .handleConn) rfl
  exact ⟨_, .tail run₂ (a := .spawn Locks.TcpServer.ioLoop)
    (fun c hc => by cases hc; exact .ioLoop) rfl⟩

def isMove : LockEvent Mutex → Bool
  | .spawn _ => false
  | .move _ _ => true

/-- The three threads go on. -/
theorem threeThreads_moves {evs : List (LockEvent Mutex)}
    (h : exec LockSystem.step (fun _ ev => isMove ev = true) threeThreads evs = some s) :
    ∃ tr, ProcessRun [] tr s := by
  obtain ⟨tr, run⟩ := threeThreads_run
  refine ⟨_, run.trans ((runs_of_exec h).mono ?_)⟩
  rintro _ _ hmove c rfl
  exact absurd hmove (by simp [isMove])

theorem no_deadlock_snapshot : ∃ tr s, ProcessRun [] tr s ∧ s.Waits 1 0 ∧ s.Waits 0 2 ∧
    ∃ v, Relation.TransGen s.Waits 1 v ∧ ∀ w, ¬ s.Waits v w := by
  obtain ⟨s, hs, hok⟩ := (Option.any_eq_true _ _).mp (show (exec LockSystem.step
    (fun _ ev => isMove ev = true) threeThreads snapshotting).any (fun s =>
      decide (s[1]?.bind LockThread.wants = some .raftNode) &&
      decide (s[0]?.bind LockThread.wants = some .store) &&
      decide (s[0]?.map LockThread.held = some [.raftNode]) &&
      decide (s[2]?.map LockThread.held = some [.store])) = true by decide +kernel)
  obtain ⟨tr, run⟩ := threeThreads_moves hs
  simp only [Bool.and_eq_true, decide_eq_true_eq] at hok
  obtain ⟨⟨⟨hwants₁, hwants₀⟩, hheld₀⟩, hheld₂⟩ := hok
  obtain ⟨x₁, hx₁, hwants₁⟩ := Option.bind_eq_some_iff.mp hwants₁
  obtain ⟨x₀, hx₀, hwants₀⟩ := Option.bind_eq_some_iff.mp hwants₀
  obtain ⟨x₂, hx₂, hheld₂⟩ := Option.map_eq_some_iff.mp hheld₂
  rw [hx₀] at hheld₀
  have h₁₀ : s.Waits 1 0 := ⟨x₁, hx₁, x₀, hx₀, .raftNode, hwants₁,
    by rw [Option.some.inj hheld₀]; exact List.mem_singleton_self _⟩
  have h₀₂ : s.Waits 0 2 := ⟨x₀, hx₀, x₂, hx₂, .store, hwants₀,
    by rw [hheld₂]; exact List.mem_singleton_self _⟩
  exact ⟨tr, s, run, h₁₀, h₀₂, (no_deadlock run 1).2 0 h₁₀⟩

/-- **What is held together**, innermost first. So under `mu_` of the node there are only the
    mutexes of its log, its WAL and its store. A thread in `send` to a peer holds nothing that
    is not this peer's, and one that calls back a watcher nothing but `watchMu_`. Who
    sleeps on a condition variable holds none at all. -/
theorem held_together (run : ProcessRun [] tr s) {t : LockThread Mutex} (ht : t ∈ s) :
    (t.held.length ≤ 1 ∨ t.held = [.raftLog, .raftNode] ∨ t.held = [.wal, .raftNode] ∨
      t.held = [.wal, .raftLog] ∨ t.held = [.wal, .raftLog, .raftNode] ∨
      t.held = [.store, .raftNode] ∨ (∃ k, t.held = [.poll k, .watch]) ∨
      ∃ p, t.held = [.pending p, .send p]) ∧
    ∀ l m todo scopes, t = ⟨.none, [.skip]⟩ :: ⟨.away l m, todo⟩ :: scopes → t.held = [] := by
  have hfit := ProcessRun.fit run t ht
  refine ⟨?_, ?_⟩
  swap
  · rintro l m todo scopes rfl
    exact hfit.away
  cases hheld : t.held with
  | nil => simp
  | cons l outer =>
    have hmay := hfit.innermost hheld
    cases l with
    | raftLog =>
      rcases hmay with rfl | rfl
      · simp
      · simp
    | wal =>
      rcases hmay with rfl | rfl | rfl
      · simp
      · simp
      · simp
    | store =>
      rcases hmay with rfl | rfl
      · simp
      · simp
    | poll k =>
      rcases hmay with rfl | rfl
      · simp
      · simp
    | pending p =>
      rcases hmay with rfl | rfl
      · simp
      · simp
    | _ =>
      obtain rfl := hmay
      simp

/-- `MaybeSnapshot` reads the store under `mu_`. -/
theorem held_together_snapshot : ∃ tr s t, ProcessRun [] tr s ∧ t ∈ s ∧
    t.held = [.store, .raftNode] ∧
    (t.held.length ≤ 1 ∨ t.held = [.raftLog, .raftNode] ∨ t.held = [.wal, .raftNode] ∨
      t.held = [.wal, .raftLog] ∨ t.held = [.wal, .raftLog, .raftNode] ∨
      t.held = [.store, .raftNode] ∨ (∃ k, t.held = [.poll k, .watch]) ∨
      ∃ p, t.held = [.pending p, .send p]) := by
  obtain ⟨s, hs, hok⟩ := (Option.any_eq_true _ _).mp (show (exec LockSystem.step
    (fun _ ev => isMove ev = true) threeThreads (goesOn 0 [.go, .go, .go, .leave, .go, .leave,
      .go, .go, .leave, .go, .go])).any (fun s =>
        decide (s[0]?.map LockThread.held = some [.store, .raftNode])) = true by decide +kernel)
  obtain ⟨tr, run⟩ := threeThreads_moves hs
  obtain ⟨t, ht, hheld⟩ := Option.map_eq_some_iff.mp (decide_eq_true_eq.mp hok)
  have hmem := List.mem_of_getElem? ht
  exact ⟨tr, s, t, run, hmem, hheld, (held_together run hmem).1⟩

end Proof
end OrcDb
