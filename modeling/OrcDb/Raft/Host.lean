import OrcDb.Raft.Section
import OrcDb.Storage.KVStore

/-!
# A node and its store, over several lives

What `main` puts together: a `RaftNode`, the `KVStore` it applies entries to, and the clock.
A life ends between two sections, with everything written on disk. The next one starts with
an empty store and the constructor, which restores the latest snapshot and re-appends the
entries behind it; they are applied again once they are committed again.

`history` is not part of the process: it is every entry that was ever passed to `ApplyEntry`,
with the reading of the clock.
-/

set_option autoImplicit false

namespace OrcDb

open Lib

structure Host where
  node : RaftNode := {}
  store : KVStore := {}
  history : List (LogEntry × Int) := []

/-- Every event carries the reading of the clock that the step uses, if it uses one. -/
inductive HostEvent where
  /-- A section outside the apply thread. -/
  | enter (sec : Section)
  | beginApply (now : Int)
  | endApply (now : Int)
  | stallApply (now : Int)
  /-- `KVHandler::CompareAndSwap` at its call of `store_->CAS`. -/
  | cas (now : Int) (key expected newValue : String)
  | stop
  | restart (now : Int)

/-- The sections of `ApplyLoop`. -/
def Section.ofApplyLoop : Section → Bool
  | .beginApply | .endApply _ | .stallApply _ => true
  | _ => false

/-- The store a constructor leaves behind. -/
def KVStore.recovered (J : Json.Codec) (r : RecoveryResult) (now : Int) : Option KVStore :=
  match r.latestSnapshot with
  | some data => restoreSnapshot J data now
  | none => some {}

def HostEvent.step (J : Json.Codec) (cfg : RaftConfig) (h : Host) : HostEvent → Option Host
  | .enter sec =>
      if h.node.running ∧ sec.ofApplyLoop = false then do
        let n ← sec.run J cfg h.node
        return { h with node := n }
      else none
  | .beginApply now =>
      if h.node.running then do
        let n ← Section.beginApply.run J cfg h.node
        let (_, e) ← n.applying
        return { node := n, store := h.store.applyEntry now e, history := h.history ++ [(e, now)] }
      else none
  | .endApply now =>
      if h.node.running then do
        let n ← (Section.endApply (h.store.takeSnapshot J now)).run J cfg h.node
        return { h with node := n }
      else none
  | .stallApply now =>
      if h.node.running then do
        let n ← (Section.stallApply (h.store.takeSnapshot J now)).run J cfg h.node
        return { h with node := n }
      else none
  | .cas now key expected newValue =>
      -- `IsLeader()` was asked before, and may no longer be true
      if h.node.running then
        some { h with store := (h.store.cas now key expected newValue 0).1 }
      else none
  | .stop =>
      if h.node.running then some { h with node := .stopped h.node.wal, store := {} } else none
  | .restart now =>
      if h.node.running then none
      else do
        let store ← KVStore.recovered J (replay h.node.wal) now
        let n ← RaftNode.recover J h.node.wal
        return { h with node := n, store }

end OrcDb
