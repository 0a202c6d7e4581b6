import OrcDb.Api.KVHandler
import OrcDb.Raft.Cluster

/-!
# The service — a cluster, its stores and the requests it handles

What `main` puts together on every node: a `RaftNode`, the `KVStore` its `ApplyLoop` writes to,
and threads in the handlers of `KVHandler`. The cluster steps as in `Raft/Cluster.lean`, without
restarts. `ApplyLoop` calls `ApplyEntry` on the store between its two sections, as a step of
its own: the store has its own lock. A handler makes one call at a time; `Propose` is two
steps, up to the wait and from the wake-up on.
-/

set_option autoImplicit false

namespace OrcDb

open Lib

/-- A handler about to make its next call, or waiting in `Propose` for the call `id`. -/
inductive HandlerThread where
  | running (h : Handling)
  | waiting (id : Nat) (k : ProposeResult → Handling)

structure Service where
  raft : State := .init
  store : String → KVStore := fun _ => {}
  /-- How many of the entries in `applied` the store has been given. -/
  told : String → Nat := fun _ => 0
  /-- The handlers in progress and the nodes they run on. -/
  threads : List (String × HandlerThread) := []

inductive ServiceEvent where
  | act (a : Action)
  | drop (k : Nat)
  /-- `ApplyLoop`'s call of `ApplyEntry`, with the reading of the clock. -/
  | applyEntry (i : String) (now : Int)
  /-- A request reaches its handler. -/
  | request (i : String) (route : KVHandler.Route) (req : HttpRequest)
  /-- The handler of thread `k` makes its next call; `deadline` is for a waiting `Propose`. -/
  | call (k : Nat) (now : Int) (deadline : Bool)

namespace Service

/-- `ApplyLoop` takes its lock again only behind `ApplyEntry`. -/
def mayRun (s : Service) : Action → Bool
  | .endApply i _ => s.told i = (s.raft.node i).applied.length
  | _ => true

/-- What a call leaves behind: the cluster, the store of the node, and the thread. -/
structure Called where
  raft : State
  store : KVStore
  thread : HandlerThread

/-- The next call of a handler on node `i`. -/
def call (c : Cluster) (s : Service) (i : String) (now : Int) (deadline : Bool) :
    HandlerThread → Option Called
  | .running (.isLeader k) => do
      let n ← s.raft.running? c i
      return ⟨s.raft, s.store i, .running (k (n.role = .Leader))⟩
  | .running (.getLeaderId k) => do
      let n ← s.raft.running? c i
      return ⟨s.raft, s.store i, .running (k n.leaderId)⟩
  | .running (.get key k) => some ⟨s.raft, s.store i, .running (k ((s.store i).get now key))⟩
  | .running (.cas key expected newValue raftIndex k) =>
      let result := (s.store i).cas now key expected newValue raftIndex
      some ⟨s.raft, result.1, .running (k result.2)⟩
  | .running (.propose key value op ttlMs k) => do
      let n ← s.raft.running? c i
      let raft ← Event.step c s.raft (.act (.propose i key value op ttlMs))
      match (n.propose c.json s.raft.nextCall key value op ttlMs).2 with
      | some result => return ⟨raft, s.store i, .running (k result)⟩
      | none => return ⟨raft, s.store i, .waiting s.raft.nextCall k⟩
  | .waiting id k => do
      let n ← s.raft.running? c i
      let proposal ← n.proposals.find? (fun call => call.id = id)
      let result ← n.proposeOutcome proposal deadline
      let raft ← Event.step c s.raft (.act (.wakePropose i id deadline))
      return ⟨raft, s.store i, .running (k result)⟩
  | .running (.respond _) | .running .throws => none

end Service

def ServiceEvent.step (c : Cluster) (s : Service) : ServiceEvent → Option Service
  | .act a =>
      if s.mayRun a then (Event.step c s.raft (.act a)).map fun raft => { s with raft } else none
  | .drop k => (Event.step c s.raft (.drop k)).map fun raft => { s with raft }
  | .applyEntry i now => do
      let e ← (s.raft.node i).applied[s.told i]?
      return { s with store := Function.update s.store i ((s.store i).applyEntry now e)
                      told := Function.update s.told i (s.told i + 1) }
  | .request i route req =>
      some { s with
        threads := s.threads ++ [(i, .running (KVHandler.handle c.json req route))] }
  | .call k now deadline => do
      let (i, thread) ← s.threads[k]?
      let called ← s.call c i now deadline thread
      return { s with raft := called.raft
                      store := Function.update s.store i called.store
                      threads := s.threads.set k (i, called.thread) }

end OrcDb
