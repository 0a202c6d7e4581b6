import OrcDb.Storage.KVStore

/-!
# The store down to its bytes

A key is a `std::string`: `Put` takes any bytes for a key and any for a value, and `Scan` any for a
prefix. What the log brings is UTF-8, since every entry has been a JSON document on its way, and
so `KVStore` has texts; but the prefix of a scan comes straight out of a query string. `RawStore`
is the map with the types it is declared with, ordered as `std::string` orders, byte by byte and
unsigned.
-/

set_option autoImplicit false

namespace OrcDb

structure RawEntry where
  value : Bytes
  version : Nat := 0
  raftIndex : Nat := 0
  createdAt : Int
  updatedAt : Int
  expiresAt : Option Int := none
deriving DecidableEq

structure RawStore where
  data : Std.ExtTreeMap Bytes RawEntry := ∅

/-- `expiresAt && *expiresAt < now`. -/
def RawEntry.expired (e : RawEntry) (now : Int) : Bool := e.expiresAt.any (· < now)

/-- `Scan`. -/
def RawStore.scan (s : RawStore) (now : Int) (pattern : Bytes) (limit : Option Nat) :
    List (Bytes × RawEntry) :=
  scanLoop (fun key => pattern.isPrefixOf key) (fun e => e.expired now) limit []
    (s.data.toList.dropWhile fun p => p.1 < pattern)

/-- An entry whose value is a text. -/
def KVEntry.raw (e : KVEntry) : RawEntry where
  value := toBytes e.value
  version := e.version
  raftIndex := e.raftIndex
  createdAt := e.createdAt
  updatedAt := e.updatedAt
  expiresAt := e.expiresAt

/-- A store of texts. -/
def KVStore.raw (s : KVStore) : RawStore where
  data := s.data.toList.foldl (fun data p => data.insert (toBytes p.1) p.2.raw) ∅

end OrcDb
