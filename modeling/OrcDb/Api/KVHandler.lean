import OrcDb.Network.HttpResponse
import OrcDb.Raft.Node
import OrcDb.Storage.KVStore

/-!
# `KVHandler` — the requests that read and write keys

`src/api/KVHandler.cpp`. A handler runs on a thread of its own and calls into the `RaftNode` and
the `KVStore` it was given; between two of those calls anything may happen. So a handler is
the tree of its calls: `Handling` says which call comes next and how the handler goes on with
the answer. Everything a handler computes without a call — reading the path and the body,
choosing the response — is part of the tree.

Keys and values are texts. A key comes out of the path as bytes; where the code would hand
bytes that are not UTF-8 to the JSON library the handler throws, as the library does.
-/

set_option autoImplicit false

namespace OrcDb

open Lib

/-- A handler at one of its calls, or at its end. -/
inductive Handling where
  | respond (response : HttpResponse)
  | throws
  | isLeader (k : Bool → Handling)
  | getLeaderId (k : String → Handling)
  | propose (key value : String) (op : OpType) (ttlMs : Int) (k : ProposeResult → Handling)
  | get (key : String) (k : Option KVEntry → Handling)
  | cas (key expected newValue : String) (raftIndex : Nat) (k : Bool → Handling)

/-- A library call whose exception nobody catches. -/
def Handling.orThrow {α : Type} (result : Option α) (k : α → Handling) : Handling :=
  match result with
  | none => .throws
  | some a => k a

/-- `text.find(pattern) != npos`. -/
def containsText (text pattern : String) : Bool := pattern.toList <:+: text.toList

namespace KVHandler

open Handling

variable (J : Json.Codec)

/-- `req.pathParams.at("key")`. -/
def pathKey (req : HttpRequest) : Option Bytes := req.pathParams.lookup (toBytes "key")

/-- `json::parse(req.body)`. -/
def parseBody (req : HttpRequest) : Option Json := (ofBytes? req.body).bind J.parse

def redirectToLeader : Handling :=
  .getLeaderId fun leaderId =>
    if leaderId = "" then .respond (.serviceUnavailable J "no leader elected")
    else .respond (.serviceUnavailable J ("not the leader; redirect to: " ++ leaderId))

/-- `Get`. -/
def get (req : HttpRequest) : Handling :=
  orThrow ((pathKey req).bind ofBytes?) fun key =>
    .get key fun entry =>
      match entry with
      | none => .respond (.notFound J ("key not found: " ++ key))
      | some e =>
          .respond (.ok (J.dump (.obj [("key", .str key), ("raft_index", .num e.raftIndex),
            ("value", .str e.value), ("version", .num e.version)])))

/-- The TTL a body asks for; `-1` is none. The client may send any number, and `get<int64_t>()`
    converts one from `2^63` on modulo `2^64`. -/
def readTtl (body : Json) : Option Int :=
  match body.field? "ttl_ms" with
  | none => some (-1)
  | some .null => some (-1)
  | some ms => (getInt ms).map wrapInt64

/-- `Put`. -/
def put (req : HttpRequest) : Handling :=
  orThrow (pathKey req) fun pathText =>
    if pathText = [] then .respond (.badRequest J "key cannot be empty")
    else match parseBody J req with
      | none => .respond (.badRequest J "invalid JSON body")
      | some body =>
          match body.field? "value" with
          | none => .respond (.badRequest J "missing field: value")
          | some field =>
              orThrow (getString field) fun value =>
              orThrow (readTtl body) fun ttlMs =>
              .isLeader fun leader =>
                if leader = false then redirectToLeader J
                else match ofBytes? pathText with
                  -- `Propose` looks at the role, then it cannot serialise the entry
                  | none => .isLeader fun still => if still then .throws else redirectToLeader J
                  | some key =>
                      .propose key value .Put ttlMs fun result =>
                        if result.ok = false then
                          if containsText result.error "not leader" then redirectToLeader J
                          else .respond (.internalError J result.error)
                        else
                          .respond (.created (J.dump (.obj [("key", .str key),
                            ("raft_index", .num result.index), ("version", .num 1)])))

/-- `Delete`. -/
def delete (req : HttpRequest) : Handling :=
  orThrow (pathKey req) fun pathText =>
    .isLeader fun leader =>
      if leader = false then redirectToLeader J
      else
        -- no stored key is bytes that are not UTF-8, and the message would hold them
        orThrow (ofBytes? pathText) fun key =>
        .get key fun entry =>
          if entry = none then .respond (.notFound J ("key not found: " ++ key))
          else
            .propose key "" .Delete (-1) fun result =>
              if result.ok = false then .respond (.internalError J result.error)
              else .respond .noContent

/-- `CompareAndSwap`. It writes to the store itself. -/
def compareAndSwap (req : HttpRequest) : Handling :=
  orThrow (pathKey req) fun pathText =>
    match parseBody J req with
    | none => .respond (.badRequest J "invalid JSON body")
    | some body =>
        match body.field? "expected", body.field? "value" with
        | some expectedField, some valueField =>
            orThrow (getString expectedField) fun expected =>
            orThrow (getString valueField) fun newValue =>
            .isLeader fun leader =>
              if leader = false then redirectToLeader J
              else match ofBytes? pathText with
                | none => .respond (.conflict J "compare-and-swap failed: value mismatch")
                | some key =>
                    .cas key expected newValue 0 fun ok =>
                      if ok = false then
                        .respond (.conflict J "compare-and-swap failed: value mismatch")
                      else
                        .respond (.ok (J.dump (.obj [("key", .str key), ("updated", .bool true)])))
        | _, _ => .respond (.badRequest J "missing expected or value field")

/-- The routes of `RegisterRoutes` that lead to the handlers above. -/
inductive Route where
  | get
  | put
  | delete
  | compareAndSwap
deriving DecidableEq

def handle (req : HttpRequest) : Route → Handling
  | .get => get J req
  | .put => put J req
  | .delete => delete J req
  | .compareAndSwap => compareAndSwap J req

end KVHandler

end OrcDb
