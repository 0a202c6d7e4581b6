import OrcDb.Api.Handlers
import OrcDb.Storage.Watch

/-!
# Long polls

`WatchHandler::Watch` of `src/api/WatchHandler.cpp`, any number of them at once, against a store
on which any number of calls write and notify (`ConcurrentStore`).

A poll registers a callback, waits until it was called or the time is up, removes the callback
and answers. The callback writes to three locals of the handler, by reference. So there are
four steps of a poll that others can come between: `nextWatchId_` is taken before `watchMu_`
is, the registration, the end of the wait, and `Unwatch`. The locals are read after the last
one, and are no longer there when the handler has answered.

`NotifyWatchers` holds `watchMu_` over all its callbacks. `Watch` and `Unwatch` wait for it, so
one notification is one step.

Reading the request is `WatchHandler.watch`. It ends before the first step.
-/

set_option autoImplicit false

namespace OrcDb

open Lib

inductive PollStage where
  | arrived
  /-- `nextWatchId_` is taken. -/
  | numbered (id : Nat)
  | waiting (id : Nat)
  /-- Out of `wait_for`, with what it returned. -/
  | waited (id : Nat) (ok : Bool)
  /-- The handler has returned. -/
  | answered (id : Nat) (response : HttpResponse)
deriving DecidableEq

def PollStage.id? : PollStage → Option Nat
  | .arrived => none
  | .numbered id => some id
  | .waiting id => some id
  | .waited id _ => some id
  | .answered id _ => some id

structure Poll where
  watcher : Watcher
  stage : PollStage := .arrived
  fired : Bool := false
  changedKey : String := ""
  changedEntry : Option KVEntry := none

namespace Poll

/-- The callback. -/
def callback (p : Poll) (n : Notification) : Poll :=
  { p with changedKey := n.key, changedEntry := n.value, fired := true }

/-- What the handler returns after `Unwatch`. -/
def response (J : Json.Codec) (p : Poll) (ok : Bool) : HttpResponse :=
  if ok = false then .noContent
  else .ok (J.dump (WatchHandler.report p.changedKey p.changedEntry))

end Poll

structure PolledStore where
  store : ConcurrentStore := {}
  nextWatchId : Nat := 1
  polls : List Poll := []

inductive PollEvent where
  /-- A writing call changes the map or makes its next notification. -/
  | store (ev : StoreEvent)
  | arrive (w : Watcher)
  /-- `nextWatchId_.fetch_add(1)`. -/
  | number (k : Nat)
  | register (k : Nat)
  /-- The predicate is tested; `deadline` says that the time is up. -/
  | wake (k : Nat) (deadline : Bool)
  | unwatch (k : Nat)

namespace PolledStore

/-- The frames whose callbacks a notification runs. -/
def deliver (s : PolledStore) (n : Notification) : List Poll :=
  s.polls.map fun p =>
    if p.stage.id?.any fun id => id ∈ s.store.watches.called n.key then p.callback n else p

def step (J : Json.Codec) (s : PolledStore) : PollEvent → Option PolledStore
  | .store (.mutate now m) => do
      let store ← s.store.step (.mutate now m)
      return { s with store }
  | .store (.notify thread) => do
      let store ← s.store.step (.notify thread)
      let t ← s.store.pending[thread]?.bind List.head?
      return { s with store, polls := s.deliver t.change }
  | .arrive w => some { s with polls := s.polls ++ [{ watcher := w }] }
  | .number k => do
      let p ← s.polls[k]?
      match p.stage with
      | .arrived =>
          return { s with
            nextWatchId := s.nextWatchId + 1
            polls := s.polls.set k { p with stage := .numbered s.nextWatchId } }
      | _ => none
  | .register k => do
      let p ← s.polls[k]?
      match p.stage with
      | .numbered id =>
          return { s with
            store := { s.store with watches := s.store.watches.insert id p.watcher }
            polls := s.polls.set k { p with stage := .waiting id } }
      | _ => none
  | .wake k deadline => do
      let p ← s.polls[k]?
      match p.stage with
      | .waiting id =>
          if p.fired ∨ deadline then
            return { s with polls := s.polls.set k { p with stage := .waited id p.fired } }
          else return s
      | _ => none
  | .unwatch k => do
      let p ← s.polls[k]?
      match p.stage with
      | .waited id ok =>
          return { s with
            store := { s.store with watches := s.store.watches.erase id }
            polls := s.polls.set k { p with stage := .answered id (p.response J ok) } }
      | _ => none

end PolledStore
end OrcDb
