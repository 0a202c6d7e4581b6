import OrcDb.Api.KVHandler
import OrcDb.Api.Router
import OrcDb.Storage.RawStore
import OrcDb.Storage.Wal

/-!
# All handlers, and the routes `main` registers

`src/api/HealthHandler.cpp`, `ClusterHandler.cpp`, `WatchHandler.cpp`, the `List` of
`KVHandler.cpp`, `src/metrics/MetricsHandler.cpp`, and the calls of `RegisterRoutes` in
`src/main.cpp`.

A handler calls into the node and the store, and between two calls anything may happen. `Backend` is
what it finds: at every call there is a `Moment`, and nothing ties one to the next. So a
statement about every backend is one about every way the rest of the server may run meanwhile.

A `Propose` throws where `AppendLogEntry` does: one `::write` does not take more than
`maxWrite` bytes. That a disk fails is not modelled here.
-/

set_option autoImplicit false

namespace OrcDb

open Lib

/-- What a call of a handler meets. -/
structure Moment where
  node : RaftNode
  store : KVStore
  /-- The clock. -/
  now : Int
  /-- What a `Propose` that has to wait returns in the end. -/
  outcome : ProposeResult
  /-- How the wait for a change ends: with a key and its entry, or with the timeout. -/
  watched : Bytes → Bool → Int → Option (String × Option KVEntry)
  /-- `OrcMetrics::Collect`. -/
  metrics : String

structure Backend where
  /-- How many calls there have been. -/
  calls : Nat := 0
  moment : Nat → Moment

namespace Backend

def here (b : Backend) : Moment := b.moment b.calls

def next (b : Backend) : Backend := { b with calls := b.calls + 1 }

end Backend

/-- The whole record of the entry goes into one `::write`. -/
def writable (J : Json.Codec) (e : LogEntry) : Bool := Small J (e.record J)

/-- A handler of `KVHandler`, call by call. -/
def Handling.run (J : Json.Codec) : Handling → Backend → Option HttpResponse × Backend
  | .respond response, b => (some response, b)
  | .throws, b => (none, b)
  | .isLeader k, b => (k (b.here.node.role = .Leader)).run J b.next
  | .getLeaderId k, b => (k b.here.node.leaderId).run J b.next
  | .propose key value op ttlMs k, b =>
      match b.here.node.propose J 0 key value op ttlMs with
      | (_, some result) => (k result).run J b.next
      | (n, none) =>
          if writable J n.log.back then (k b.here.outcome).run J b.next else (none, b.next)
  | .get key k, b => (k (b.here.store.get b.here.now key)).run J b.next
  | .cas key expected newValue raftIndex k, b =>
      (k (b.here.store.cas b.here.now key expected newValue raftIndex).2).run J b.next

/-- `GetQueryParam`. -/
def HttpRequest.getQueryParam (req : HttpRequest) (key : String) : Option Bytes :=
  req.queryParams.lookup (toBytes key)

/-- A numeric query parameter; the inner `none` is its absence, the outer one the exception. -/
def HttpRequest.numericParam {α : Type} (req : HttpRequest) (key : String)
    (read : Bytes → Option α) : Option (Option α) :=
  match req.getQueryParam key with
  | none => some none
  | some text => (read text).map some

section Handlers

variable (J : Json.Codec)

/-! ## `KVHandler` -/

namespace KVHandler

/-- An element of the array in the answer to `List`; the library refuses what is not UTF-8. -/
def listItem (entry : Bytes × RawEntry) : Option Json := do
  let key ← ofBytes? entry.1
  let value ← ofBytes? entry.2.value
  return .obj [("key", .str key), ("value", .str value), ("version", .num entry.2.version)]

/-- `List`. -/
def list : HandlerFn Backend := fun req _ b =>
  match req.numericParam "limit" stoull with
  | none => (none, b)
  | some limit =>
      let entries :=
        b.here.store.raw.scan b.here.now ((req.getQueryParam "prefix").getD []) limit
      match entries.mapM listItem with
      | none => (none, b.next)
      | some items =>
          (some (.ok (J.dump (.obj [("count", .num items.length), ("items", .arr items)]))), b.next)

def registerRoutes (router : Router Backend) : Router Backend :=
  let router := router.addRoute (toBytes "POST") (toBytes "/v1/kv/\x7bkey\x7d/cas")
    (fun req _ b => (compareAndSwap J req).run J b) ["write"]
  let router := router.addRoute (toBytes "GET") (toBytes "/v1/kv") (list J) ["read"]
  let router := router.addRoute (toBytes "GET") (toBytes "/v1/kv/\x7bkey\x7d")
    (fun req _ b => (get J req).run J b) ["read"]
  let router := router.addRoute (toBytes "PUT") (toBytes "/v1/kv/\x7bkey\x7d")
    (fun req _ b => (put J req).run J b) ["write"]
  router.addRoute (toBytes "DELETE") (toBytes "/v1/kv/\x7bkey\x7d")
    (fun req _ b => (delete J req).run J b) ["write"]

end KVHandler

/-! ## `WatchHandler` -/

namespace WatchHandler

/-- What a watch reports. -/
def report (key : String) : Option KVEntry → Json
  | some e => .obj [("deleted", .bool false), ("key", .str key), ("raft_index", .num e.raftIndex),
      ("value", .str e.value), ("version", .num e.version)]
  | none => .obj [("deleted", .bool true), ("key", .str key)]

/-- `Watch`. -/
def watch : HandlerFn Backend := fun req _ b =>
  match req.pathParams.lookup (toBytes "key"), req.numericParam "timeout_ms" stoll with
  | some key, some timeoutMs =>
      let isPrefix := (req.getQueryParam "prefix").getD (toBytes "false") = toBytes "true"
      match b.here.watched key isPrefix (timeoutMs.getD 30000) with
      | none => (some .noContent, b.next)
      | some (changedKey, entry) => (some (.ok (J.dump (report changedKey entry))), b.next)
  | _, _ => (none, b)

def registerRoutes (router : Router Backend) : Router Backend :=
  router.addRoute (toBytes "GET") (toBytes "/v1/watch/\x7bkey\x7d") (watch J) ["read"]

end WatchHandler

/-! ## `ClusterHandler` -/

/-- `RaftRoleToString`. -/
def RaftRole.text : RaftRole → String
  | .Follower => "follower"
  | .Candidate => "candidate"
  | .Leader => "leader"

namespace ClusterHandler

/-- `Status`: five calls, one for each field. -/
def status : HandlerFn Backend := fun _ _ b =>
  let role := b.here.node.role.text
  let b := b.next
  let term := b.here.node.currentTerm
  let b := b.next
  let commitIndex := b.here.node.commitIndex
  let b := b.next
  let leaderId := b.here.node.leaderId
  let b := b.next
  let isLeader : Bool := b.here.node.role = .Leader
  (some (.ok (J.dump (.obj [("commit_index", .num commitIndex), ("current_term", .num term),
    ("is_leader", .bool isLeader), ("leader_id", .str leaderId), ("role", .str role)]))), b.next)

/-- `Leader`. -/
def leader : HandlerFn Backend := fun _ _ b =>
  let leaderId := b.here.node.leaderId
  let b := b.next
  if leaderId = "" then (some (.serviceUnavailable J "no leader elected"), b)
  else
    let isLeader : Bool := b.here.node.role = .Leader
    (some (.ok (J.dump (.obj [("is_leader", .bool isLeader), ("leader_id", .str leaderId)]))),
      b.next)

def registerRoutes (router : Router Backend) : Router Backend :=
  let router := router.addRoute (toBytes "GET") (toBytes "/v1/cluster/status") (status J) ["read"]
  router.addRoute (toBytes "GET") (toBytes "/v1/cluster/leader") (leader J) []

end ClusterHandler

/-! ## `HealthHandler` -/

namespace HealthHandler

/-- `Liveness`. -/
def liveness : HandlerFn Backend := fun _ _ b =>
  (some (.ok (J.dump (.obj [("status", .str "ok")]))), b)

/-- `Readiness`. -/
def readiness : HandlerFn Backend := fun _ _ b =>
  let ready : Bool := b.here.node.leaderId ≠ ""
  let b := b.next
  if ready = false then (some (.serviceUnavailable J "no leader elected"), b)
  else
    let isLeader : Bool := b.here.node.role = .Leader
    let b := b.next
    let leaderId := b.here.node.leaderId
    let b := b.next
    let term := b.here.node.currentTerm
    (some (.ok (J.dump (.obj [("is_leader", .bool isLeader), ("leader_id", .str leaderId),
      ("status", .str "ready"), ("term", .num term)]))), b.next)

def registerRoutes (router : Router Backend) : Router Backend :=
  let router := router.addRoute (toBytes "GET") (toBytes "/healthz") (liveness J) []
  router.addRoute (toBytes "GET") (toBytes "/readyz") (readiness J) []

end HealthHandler

/-! ## `MetricsHandler` -/

namespace MetricsHandler

/-- `Metrics`. -/
def metrics : HandlerFn Backend := fun _ _ b =>
  (some (.withBody 200 b.here.metrics "text/plain; version=0.0.4; charset=utf-8"), b.next)

def registerRoutes (router : Router Backend) : Router Backend :=
  router.addRoute (toBytes "GET") (toBytes "/metrics") metrics []

end MetricsHandler

/-- The router of `main`. -/
def mainRouter (engine : RegexEngine) (middleware : Option MiddlewareFn) : Router Backend :=
  let router : Router Backend := { authMiddleware := middleware, engine }
  let router := HealthHandler.registerRoutes J router
  let router := KVHandler.registerRoutes J router
  let router := WatchHandler.registerRoutes J router
  let router := ClusterHandler.registerRoutes J router
  MetricsHandler.registerRoutes router

end Handlers

end OrcDb
