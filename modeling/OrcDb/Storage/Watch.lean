import OrcDb.Storage.KVStore
import OrcDb.Lib.MapDiff

/-!
# Watchers

The other half of `src/storage/KVStore.cpp`: `Watch`, `Unwatch`, `NotifyWatchers`, and the
calls of the latter at the end of `Put`, `Delete`, `CAS` and `PurgeExpired`. A callback is
code of the caller; what there is to say about it is when it is called and with what, so
`calls` records that, one pair of watch id and arguments per call.

Each of the four writing functions holds `mu_` while it changes the map and `watchMu_` while it
notifies, and holds nothing in between. `KVStore.mutate` is the first part with the notifications
that are then due; `PurgeExpired` has one for each key, each a critical section of its own.
`WatchedStore` runs one call after the other, `ConcurrentStore` lets any number of calls be
between the two parts.
-/

set_option autoImplicit false

namespace OrcDb

open Lib

/-- The arguments of a `WatchCallback`. -/
abbrev Notification : Type := Change String KVEntry

/-- An entry of `watches_`, its callback apart. -/
structure Watcher where
  keyOrPrefix : String
  isPrefix : Bool
deriving DecidableEq

/-- The test in the loop of `NotifyWatchers`. -/
def Watcher.matches (w : Watcher) (key : String) : Bool :=
  if w.isPrefix then startsWith w.keyOrPrefix key else key == w.keyOrPrefix

/-- `watches_`. -/
abbrev Watches : Type := AList fun _ : Nat => Watcher

/-- The ids whose callbacks the loop of `NotifyWatchers` calls. -/
def Watches.called (watches : Watches) (key : String) : List Nat :=
  (watches.entries.filter fun w => w.2.matches key).map Sigma.fst

/-! ## Writing -/

/-- The calls that change the map. -/
inductive Mutation where
  | put (key value : String) (raftIndex : Nat) (ttlMs : Option Int)
  | delete (key : String) (raftIndex : Nat)
  | cas (key expectedValue newValue : String) (raftIndex : Nat)
  | purgeExpired
deriving DecidableEq

/-- What a call does under `mu_`, and what it then notifies of. -/
def KVStore.mutate (s : KVStore) (now : Int) : Mutation → KVStore × List Notification
  | .put key value raftIndex ttlMs =>
      let s' := s.put now key value raftIndex ttlMs
      (s', [⟨key, s'.data[key]?⟩])
  | .delete key _ =>
      match s.delete key with
      | (s', true) => (s', [⟨key, none⟩])
      | (s', false) => (s', [])
  | .cas key expectedValue newValue raftIndex =>
      match s.cas now key expectedValue newValue raftIndex with
      | (s', true) => (s', [⟨key, s'.data[key]?⟩])
      | (s', false) => (s', [])
  | .purgeExpired =>
      let (s', expiredKeys) := s.purgeExpired now
      (s', expiredKeys.map fun key => ⟨key, none⟩)

/-! ## One call after the other -/

structure WatchedStore where
  store : KVStore := {}
  nextWatchId : Nat := 1
  watches : Watches := ∅
  /-- The callbacks called so far. -/
  calls : List (Nat × Notification) := []

namespace WatchedStore

/-- `Watch`, which returns the id. -/
def watch (s : WatchedStore) (keyOrPrefix : String) (isPrefix : Bool) : WatchedStore × Nat :=
  let id := s.nextWatchId
  ({ s with
      nextWatchId := s.nextWatchId + 1
      watches := s.watches.insert id { keyOrPrefix, isPrefix } }, id)

/-- `Unwatch`. -/
def unwatch (s : WatchedStore) (watchId : Nat) : WatchedStore :=
  { s with watches := s.watches.erase watchId }

/-- `NotifyWatchers`. -/
def notifyWatchers (s : WatchedStore) (n : Notification) : WatchedStore :=
  { s with calls := s.calls ++ (s.watches.called n.key).map fun id => (id, n) }

/-- What the callback of a watch id has been called with. -/
def received (s : WatchedStore) (id : Nat) : List Notification :=
  (s.calls.filter fun c => c.1 == id).map Prod.snd

end WatchedStore

/-- The calls of `KVStore` that watchers are about. -/
inductive WatchCall where
  | mutate (m : Mutation)
  | watch (keyOrPrefix : String) (isPrefix : Bool)
  | unwatch (watchId : Nat)
deriving DecidableEq

namespace WatchedStore

/-- A call from beginning to end. -/
def call (s : WatchedStore) (now : Int) : WatchCall → WatchedStore
  | .mutate m =>
      let (store, due) := s.store.mutate now m
      due.foldl notifyWatchers { s with store }
  | .watch keyOrPrefix isPrefix => (s.watch keyOrPrefix isPrefix).1
  | .unwatch watchId => s.unwatch watchId

/-- One call after the other, each at its own time. -/
def run (s : WatchedStore) (calls : List (Int × WatchCall)) : WatchedStore :=
  calls.foldl (fun s c => s.call c.1 c.2) s

end WatchedStore

/-! ## Calls in parallel -/

/-- A change, with its place in the order of changes. -/
structure Ticket where
  number : Nat
  change : Notification
deriving DecidableEq

structure ConcurrentStore where
  store : KVStore := {}
  watches : Watches := ∅
  /-- Every change so far, in the order in which `mu_` was held. -/
  history : List Ticket := []
  /-- The calls that have left `mu_`, each with the notifications it still has to make. -/
  pending : List (List Ticket) := []
  /-- The callbacks called so far. -/
  calls : List (Nat × Ticket) := []

/-- What one thread does next: a call changes the map, or a call that has changed it makes
    its next notification. -/
inductive StoreEvent where
  | mutate (now : Int) (m : Mutation)
  | notify (thread : Nat)
deriving DecidableEq

namespace ConcurrentStore

/-- The changes as the next ones in the history. -/
def number (n : Nat) : List Notification → List Ticket
  | [] => []
  | c :: cs => ⟨n, c⟩ :: number (n + 1) cs

def step (s : ConcurrentStore) : StoreEvent → Option ConcurrentStore
  | .mutate now m =>
      let (store, due) := s.store.mutate now m
      let tickets := number s.history.length due
      some { s with store, history := s.history ++ tickets, pending := s.pending ++ [tickets] }
  | .notify thread =>
      match s.pending[thread]? with
      | some (t :: rest) =>
          some { s with
            pending := s.pending.set thread rest
            calls := s.calls ++ (s.watches.called t.change.key).map fun id => (id, t) }
      | _ => none

/-- What the callback of a watch id has been called with. -/
def received (s : ConcurrentStore) (id : Nat) : List Ticket :=
  (s.calls.filter fun c => c.1 == id).map Prod.snd

end ConcurrentStore
end OrcDb
