import OrcDb.Lib.Json

/-!
# `RaftRPC` — log entries and the four messages

`src/raft/RaftRPC.hpp` and the `LogEntry` half of `RaftRPC.cpp`. Terms and indices are
`uint64_t` in the source and `Nat` here: in a cluster they are counters that grow by one
per election or append. A node that is sent anything at all can be brought to the largest term
in one step, and there the election counts in 64 bits (`Raft/Section.lean`). `std::string` is
`String`, so a key or a value is valid UTF-8 by its type — `Serialize` throws on anything else
before an entry reaches a log.
-/

set_option autoImplicit false

namespace OrcDb

open Lib

/-- `enum class OpType : uint8_t`. The underlying type admits every byte, and
    `static_cast<OpType>` does not check, so the codes without a name are values too. -/
inductive OpType where
  | Put
  | Delete
  | NoOp
  | unnamed (code : {b : UInt8 // b ≠ 1 ∧ b ≠ 2 ∧ b ≠ 3})
deriving DecidableEq

/-- `static_cast<int>(opType)`. -/
def OpType.toInt : OpType → Int
  | .Put => 1
  | .Delete => 2
  | .NoOp => 3
  | .unnamed code => code.1.toNat

/-- `static_cast<OpType>(n)`: the low byte of `n` decides. -/
def OpType.ofInt (n : Int) : OpType :=
  let b := UInt8.ofNat (n % 256).toNat
  if h : b ≠ 1 ∧ b ≠ 2 ∧ b ≠ 3 then .unnamed ⟨b, h⟩
  else if b = 1 then .Put
  else if b = 2 then .Delete
  else .NoOp

theorem OpType.ofInt_toInt (op : OpType) : OpType.ofInt op.toInt = op := by
  cases op with
  | Put => rfl
  | Delete => rfl
  | NoOp => rfl
  | unnamed code =>
    obtain ⟨b, hb⟩ := code
    have hlt : b.toNat < 256 := b.toNat_lt
    have hmod : ((b.toNat : Int) % 256).toNat = b.toNat := by omega
    have hback : UInt8.ofNat b.toNat = b := UInt8.ofNat_toNat
    unfold OpType.ofInt OpType.toInt
    simp only [hmod, hback, dif_pos hb]

structure LogEntry where
  term : Nat := 0
  index : Nat := 0
  opType : OpType := .NoOp
  key : String := ""
  value : String := ""
  /-- `-1` means no TTL. -/
  ttlMs : Int := -1
  /-- The full JSON for the WAL. -/
  command : String := ""
deriving DecidableEq

namespace LogEntry

/-- `LogEntry::NoOp` — what a new leader appends. -/
def noOp (J : Json.Codec) (term index : Nat) : LogEntry :=
  { term, index, opType := .NoOp, command := J.dump (.obj [("op", .str "noop")]) }

/-- The document `Serialize` prints, its keys in `std::map` order. -/
def toJson (e : LogEntry) : Json :=
  .obj [("command", .str e.command), ("index", .num e.index), ("key", .str e.key),
    ("op", .num e.opType.toInt), ("term", .num e.term), ("ttl_ms", .num e.ttlMs),
    ("value", .str e.value)]

def serialize (J : Json.Codec) (e : LogEntry) : String := J.dump e.toJson

end LogEntry

/-! ## Typed reads of a document

`none` is a thrown `json::exception`. `j["k"].get<T>()` throws when the field is absent
(it reads `null`) or has another type; `j.value("k", d)` answers `d` when it is absent. -/

/-- `get<uint64_t>()`; a negative number is converted modulo `2^64`. -/
def getUInt64 : Json → Option Nat
  | .num n => some (if 0 ≤ n then n.toNat else (n % 2 ^ 64).toNat)
  | _ => none

/-- `get<int>()` and `get<int64_t>()` of a number that the type can hold, as every number is that
    the program has printed itself. -/
def getInt : Json → Option Int
  | .num n => some n
  | _ => none

def getString : Json → Option String
  | .str s => some s
  | _ => none

/-- `j.value(k, d)` at a string. -/
def valueString (j : Json) (k d : String) : Option String :=
  match j.field? k with
  | none => some d
  | some v => getString v

/-- `j.value(k, d)` at an `int64_t`. -/
def valueInt (j : Json) (k : String) (d : Int) : Option Int :=
  match j.field? k with
  | none => some d
  | some v => getInt v

namespace LogEntry

def ofJson (j : Json) : Option LogEntry := do
  let term ← getUInt64 (← j.field? "term")
  let index ← getUInt64 (← j.field? "index")
  let op ← getInt (← j.field? "op")
  let key ← valueString j "key" ""
  let value ← valueString j "value" ""
  let ttlMs ← valueInt j "ttl_ms" (-1)
  let command ← valueString j "command" ""
  return { term, index, opType := OpType.ofInt op, key, value, ttlMs, command }

def deserialize (J : Json.Codec) (s : String) : Option LogEntry := do
  ofJson (← J.parse s)

theorem toJson_canonical (e : LogEntry) : e.toJson.Canonical :=
  .flat (by simp only [List.map_cons, List.map_nil]; decide) rfl

/-- An entry survives its own document. -/
theorem ofJson_toJson (e : LogEntry) : ofJson e.toJson = some e := by
  cases e
  simp [ofJson, toJson, Json.field?, List.lookup, getUInt64, getInt, getString, valueString,
    valueInt, OpType.ofInt_toInt]

theorem deserialize_serialize (J : Json.Codec) (e : LogEntry) :
    deserialize J (serialize J e) = some e := by
  simp [deserialize, serialize, J.parse_dump _ e.toJson_canonical, ofJson_toJson]

end LogEntry

/-! ## The messages -/

structure AppendEntriesRequest where
  term : Nat := 0
  leaderId : String := ""
  prevLogIndex : Nat := 0
  prevLogTerm : Nat := 0
  entries : List LogEntry := []
  leaderCommit : Nat := 0
deriving DecidableEq

structure AppendEntriesResponse where
  term : Nat := 0
  success : Bool := false
  conflictIndex : Nat := 0
  conflictTerm : Nat := 0
deriving DecidableEq

structure RequestVoteRequest where
  term : Nat := 0
  candidateId : String := ""
  lastLogIndex : Nat := 0
  lastLogTerm : Nat := 0
deriving DecidableEq

structure RequestVoteResponse where
  term : Nat := 0
  voteGranted : Bool := false
deriving DecidableEq

end OrcDb
