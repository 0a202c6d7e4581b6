import OrcDb.Bytes
import OrcDb.Raft.Rpc

/-!
# `KVStore` — the map behind the API

`src/storage/KVStore.{hpp,cpp}` without the watchers, which are in `Storage/Watch.lean`, and
`RaftNode::ApplyEntry`, through which the log reaches the store. `std::map` is `ExtTreeMap`:
ordered by key, and two maps with the same bindings are equal. Every call reads the clock at
most once, and the reading is an argument here: nanoseconds since the epoch, signed.

An expired entry stays in the map until `PurgeExpired` runs. `Get`, `Scan` and `TakeSnapshot`
pass over it; `Put`, `Delete` and `CAS` do not look at the expiry.
-/

set_option autoImplicit false

namespace OrcDb

open Lib

structure KVEntry where
  value : String
  version : Nat := 0
  raftIndex : Nat := 0
  createdAt : Int
  updatedAt : Int
  expiresAt : Option Int := none
deriving DecidableEq

structure KVStore where
  data : Std.ExtTreeMap String KVEntry := ∅
deriving DecidableEq

/-- `expiresAt && *expiresAt < now`. -/
def KVEntry.expired (e : KVEntry) (now : Int) : Bool := e.expiresAt.any (· < now)

/-- `key.substr(0, pattern.size()) == pattern`. -/
def startsWith (pattern key : String) : Bool := pattern.toList.isPrefixOf key.toList

/-- The loop of `Scan` over the entries from `lower_bound` on; `under` is the test of the
    prefix. -/
def scanLoop {κ ε : Type} (under : κ → Bool) (expired : ε → Bool) (limit : Option Nat) :
    List (κ × ε) → List (κ × ε) → List (κ × ε)
  | results, [] => results
  | results, (k, e) :: rest =>
      if under k = false then results
      else if expired e then scanLoop under expired limit results rest
      else
        let results := results ++ [(k, e)]
        -- the limit is looked at after the push
        if limit.any (· ≤ results.length) then results
        else scanLoop under expired limit results rest

namespace KVStore

/-- `Get`. -/
def get (s : KVStore) (now : Int) (key : String) : Option KVEntry :=
  match s.data[key]? with
  | none => none
  | some e => if e.expired now then none else some e

/-- `Put`; it always returns `true`. -/
def put (s : KVStore) (now : Int) (key value : String) (raftIndex : Nat)
    (ttlMs : Option Int) : KVStore :=
  let entry : KVEntry :=
    match s.data[key]? with
    | some e => { value, raftIndex, updatedAt := now, version := e.version + 1,
                  createdAt := e.createdAt }
    | none => { value, raftIndex, updatedAt := now, version := 1, createdAt := now }
  { data := s.data.insert key
      { entry with expiresAt := ttlMs.map fun ms => wrapInt64 (now + ms * 1000000) } }

/-- `Delete`. -/
def delete (s : KVStore) (key : String) : KVStore × Bool :=
  ({ data := s.data.erase key }, s.data[key]?.isSome)

/-- `Scan`. -/
def scan (s : KVStore) (now : Int) (pattern : String) (limit : Option Nat) :
    List (String × KVEntry) :=
  scanLoop (startsWith pattern) (fun e => e.expired now) limit []
    (s.data.toList.dropWhile fun p => p.1 < pattern)

/-- `CAS`. The expiry is neither checked nor changed. -/
def cas (s : KVStore) (now : Int) (key expectedValue newValue : String) (raftIndex : Nat) :
    KVStore × Bool :=
  match s.data[key]? with
  | none => (s, false)
  | some e =>
      if e.value ≠ expectedValue then (s, false)
      else
        ({ data := s.data.insert key
            { e with value := newValue, version := e.version + 1, updatedAt := now
                     raftIndex } }, true)

/-- The loop of `PurgeExpired`: the entries from the iterator on, what is left of the map, and
    `expiredKeys`. -/
def purgeLoop (now : Int) :
    List (String × KVEntry) → Std.ExtTreeMap String KVEntry → List String →
      Std.ExtTreeMap String KVEntry × List String
  | [], data, expiredKeys => (data, expiredKeys)
  | (k, e) :: rest, data, expiredKeys =>
      if e.expired now then purgeLoop now rest (data.erase k) (expiredKeys ++ [k])
      else purgeLoop now rest data expiredKeys

/-- `PurgeExpired` up to the end of its critical section, with `expiredKeys`; it returns their
    number. -/
def purgeExpired (s : KVStore) (now : Int) : KVStore × List String :=
  let (data, expiredKeys) := purgeLoop now s.data.toList s.data []
  ({ data }, expiredKeys)

/-! ## Snapshots -/

/-- `duration_cast<milliseconds>` of the expiry, which truncates towards zero; `-1` is no
    expiry. -/
def expiresMs (e : KVEntry) : Int :=
  match e.expiresAt with
  | some x => x.tdiv 1000000
  | none => -1

/-- One element of the snapshot, its keys in `std::map` order. -/
def itemJson (key : String) (e : KVEntry) : Json :=
  .obj [("expires_ms", .num (expiresMs e)), ("key", .str key), ("raft_index", .num e.raftIndex),
    ("value", .str e.value), ("version", .num e.version)]

/-- `TakeSnapshot`. -/
def takeSnapshot (J : Json.Codec) (s : KVStore) (now : Int) : String :=
  J.dump (.arr ((s.data.toList.filter fun p => !p.2.expired now).map fun p => itemJson p.1 p.2))

/-- The body of `RestoreSnapshot`'s loop, up to the assignment. -/
def readItem (now : Int) (item : Json) : Option (String × KVEntry) := do
  let value ← getString (← item.field? "value")
  let version ← getUInt64 (← item.field? "version")
  let raftIndex ← getUInt64 (← item.field? "raft_index")
  let ms ← getInt (← item.field? "expires_ms")
  let key ← getString (← item.field? "key")
  let expiresAt := if ms ≥ 0 then some (wrapInt64 (ms * 1000000)) else none
  return (key, { value, version, raftIndex, createdAt := now, updatedAt := now, expiresAt })

/-- `RestoreSnapshot`; `none` is an exception out of the JSON library. -/
def restoreSnapshot (J : Json.Codec) (snapshotJson : String) (now : Int) : Option KVStore := do
  let j ← J.parse snapshotJson
  let items ← j.elements.mapM (readItem now)
  return { data := items.foldl (fun data item => data.insert item.1 item.2) ∅ }

/-! ## The log -/

/-- `RaftNode::ApplyEntry`. A `ttl_ms` that is not positive is no TTL. -/
def applyEntry (s : KVStore) (now : Int) (e : LogEntry) : KVStore :=
  match e.opType with
  | .Put => s.put now e.key e.value e.index (if e.ttlMs > 0 then some e.ttlMs else none)
  | .Delete => (s.delete e.key).1
  | _ => s

end KVStore
end OrcDb
