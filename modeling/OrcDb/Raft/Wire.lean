import OrcDb.Bytes
import OrcDb.Raft.Rpc
import OrcDb.Lib.Frames
import OrcDb.Lib.Stream

/-!
# The messages on the wire

The rest of `src/raft/RaftRPC.cpp`: `Serialize` and `Deserialize` of the four messages and
`RpcFrame`, and the loop of `RaftPeer::RecvLoop` that takes frames out of what it receives.

`9 + payloadLen` is the sum of an `int` and a `uint32_t` and is computed in 32 bits, both where
`Encode` allocates its buffer and where `Decode` compares with the length. Where it wraps the
following `memcpy`, or `assign`, leaves the buffer; that is `none`, or `bad`, here.
-/

set_option autoImplicit false

namespace OrcDb

open Lib

/-! ## Messages as documents -/

def getBool : Json → Option Bool
  | .bool b => some b
  | _ => none

/-- `j.value(k, d)` at a `uint64_t`. -/
def valueUInt64 (j : Json) (k : String) (d : Nat) : Option Nat :=
  match j.field? k with
  | none => some d
  | some v => getUInt64 v

namespace AppendEntriesRequest

/-- The document, its entries given; the keys are in `std::map` order. -/
def toJson (r : AppendEntriesRequest) (entriesJson : List Json) : Json :=
  .obj [("entries", .arr entriesJson), ("leader_commit", .num r.leaderCommit),
    ("leader_id", .str r.leaderId), ("prev_log_index", .num r.prevLogIndex),
    ("prev_log_term", .num r.prevLogTerm), ("term", .num r.term)]

/-- `Serialize`: every entry is printed and parsed again on the way. -/
def serialize (J : Json.Codec) (r : AppendEntriesRequest) : Option String := do
  let entriesJson ← r.entries.mapM fun e => J.parse (e.serialize J)
  return J.dump (r.toJson entriesJson)

/-- `Deserialize`. `j["entries"]` puts a `null` where there is none, and a loop over `null`
    visits nothing. -/
def deserialize (J : Json.Codec) (s : String) : Option AppendEntriesRequest := do
  let j ← J.parse s
  let term ← getUInt64 (← j.field? "term")
  let leaderId ← getString (← j.field? "leader_id")
  let prevLogIndex ← getUInt64 (← j.field? "prev_log_index")
  let prevLogTerm ← getUInt64 (← j.field? "prev_log_term")
  let leaderCommit ← getUInt64 (← j.field? "leader_commit")
  let entries ← ((j.field? "entries").getD .null).elements.mapM fun e =>
    LogEntry.deserialize J (J.dump e)
  return { term, leaderId, prevLogIndex, prevLogTerm, entries, leaderCommit }

end AppendEntriesRequest

namespace AppendEntriesResponse

def toJson (r : AppendEntriesResponse) : Json :=
  .obj [("conflict_index", .num r.conflictIndex), ("conflict_term", .num r.conflictTerm),
    ("success", .bool r.success), ("term", .num r.term)]

def serialize (J : Json.Codec) (r : AppendEntriesResponse) : String := J.dump r.toJson

def deserialize (J : Json.Codec) (s : String) : Option AppendEntriesResponse := do
  let j ← J.parse s
  let term ← getUInt64 (← j.field? "term")
  let success ← getBool (← j.field? "success")
  let conflictIndex ← valueUInt64 j "conflict_index" 0
  let conflictTerm ← valueUInt64 j "conflict_term" 0
  return { term, success, conflictIndex, conflictTerm }

end AppendEntriesResponse

namespace RequestVoteRequest

def toJson (r : RequestVoteRequest) : Json :=
  .obj [("candidate_id", .str r.candidateId), ("last_log_index", .num r.lastLogIndex),
    ("last_log_term", .num r.lastLogTerm), ("term", .num r.term)]

def serialize (J : Json.Codec) (r : RequestVoteRequest) : String := J.dump r.toJson

def deserialize (J : Json.Codec) (s : String) : Option RequestVoteRequest := do
  let j ← J.parse s
  let term ← getUInt64 (← j.field? "term")
  let candidateId ← getString (← j.field? "candidate_id")
  let lastLogIndex ← getUInt64 (← j.field? "last_log_index")
  let lastLogTerm ← getUInt64 (← j.field? "last_log_term")
  return { term, candidateId, lastLogIndex, lastLogTerm }

end RequestVoteRequest

namespace RequestVoteResponse

def toJson (r : RequestVoteResponse) : Json :=
  .obj [("term", .num r.term), ("vote_granted", .bool r.voteGranted)]

def serialize (J : Json.Codec) (r : RequestVoteResponse) : String := J.dump r.toJson

def deserialize (J : Json.Codec) (s : String) : Option RequestVoteResponse := do
  let j ← J.parse s
  let term ← getUInt64 (← j.field? "term")
  let voteGranted ← getBool (← j.field? "vote_granted")
  return { term, voteGranted }

end RequestVoteResponse

/-! ## Frames -/

/-- `enum class RpcType : uint8_t`; as with `OpType`, every byte is a value. -/
inductive RpcType where
  | AppendEntriesReq
  | AppendEntriesResp
  | RequestVoteReq
  | RequestVoteResp
  | unnamed (code : {b : UInt8 // b ≠ 1 ∧ b ≠ 2 ∧ b ≠ 3 ∧ b ≠ 4})
deriving DecidableEq

def RpcType.toByte : RpcType → UInt8
  | .AppendEntriesReq => 0x01
  | .AppendEntriesResp => 0x02
  | .RequestVoteReq => 0x03
  | .RequestVoteResp => 0x04
  | .unnamed code => code.1

/-- `static_cast<RpcType>(b)`. -/
def RpcType.ofByte (b : UInt8) : RpcType :=
  if h : b ≠ 1 ∧ b ≠ 2 ∧ b ≠ 3 ∧ b ≠ 4 then .unnamed ⟨b, h⟩
  else if b = 1 then .AppendEntriesReq
  else if b = 2 then .AppendEntriesResp
  else if b = 3 then .RequestVoteReq
  else .RequestVoteResp

theorem RpcType.ofByte_toByte (type : RpcType) : RpcType.ofByte type.toByte = type := by
  cases type with
  | AppendEntriesReq => rfl
  | AppendEntriesResp => rfl
  | RequestVoteReq => rfl
  | RequestVoteResp => rfl
  | unnamed code =>
    unfold RpcType.ofByte RpcType.toByte
    rw [dif_pos code.2]

structure RpcFrame where
  type : RpcType
  seq : UInt32 := 0
  payload : Bytes
deriving DecidableEq

namespace RpcFrame

/-- `Encode`: `[type 1][seq 4][len 4][payload]`. -/
def encode (f : RpcFrame) : Option Bytes :=
  let payloadLen := f.payload.length % 2 ^ 32
  if (9 + payloadLen) % 2 ^ 32 < 9 + payloadLen then none
  else some (f.type.toByte :: (le32 f.seq.toNat ++ (le32 payloadLen ++ f.payload.take payloadLen)))

/-- The nine bytes before the payload, and what is behind them; `none` if there are fewer. -/
def header (data : Bytes) : Option (RpcType × UInt32 × Nat × Bytes) := do
  let type :: data := data | none
  let (seq, data) ← readLe32 data
  let (payloadLen, data) ← readLe32 data
  return (RpcType.ofByte type, UInt32.ofNat seq, payloadLen, data)

/-- `Decode`: `more` is `false`; an item comes with `consumed`. -/
def decode (data : Bytes) : Read RpcFrame :=
  match header data with
  | none => .more
  | some (type, seq, payloadLen, rest) =>
      if data.length < (9 + payloadLen) % 2 ^ 32 then .more
      else if rest.length < payloadLen then .bad
      else .item { type, seq, payload := rest.take payloadLen } ((9 + payloadLen) % 2 ^ 32)

end RpcFrame

/-- The frames `RaftPeer::RecvLoop` takes out of what `recv` brings, and its `buf` afterwards. -/
def recvLoop (chunks : List Bytes) : Option (List RpcFrame × Bytes) :=
  feedAll RpcFrame.decode ([], []) chunks

/-! ## Messages in frames -/

inductive RpcMessage where
  | appendEntriesReq (r : AppendEntriesRequest)
  | appendEntriesResp (r : AppendEntriesResponse)
  | requestVoteReq (r : RequestVoteRequest)
  | requestVoteResp (r : RequestVoteResponse)
deriving DecidableEq

namespace RpcMessage

def type : RpcMessage → RpcType
  | .appendEntriesReq _ => .AppendEntriesReq
  | .appendEntriesResp _ => .AppendEntriesResp
  | .requestVoteReq _ => .RequestVoteReq
  | .requestVoteResp _ => .RequestVoteResp

def serialize (J : Json.Codec) : RpcMessage → Option String
  | .appendEntriesReq r => r.serialize J
  | .appendEntriesResp r => some (r.serialize J)
  | .requestVoteReq r => some (r.serialize J)
  | .requestVoteResp r => some (r.serialize J)

/-- The frame a sender builds. -/
def frame (J : Json.Codec) (seq : UInt32) (m : RpcMessage) : Option RpcFrame :=
  (m.serialize J).map fun s => { type := m.type, seq, payload := toBytes s }

/-- What a receiver makes of it: `Deserialize` of the type the frame names. -/
def ofFrame (J : Json.Codec) (f : RpcFrame) : Option RpcMessage := do
  let s ← ofBytes? f.payload
  match f.type with
  | .AppendEntriesReq => (AppendEntriesRequest.deserialize J s).map .appendEntriesReq
  | .AppendEntriesResp => (AppendEntriesResponse.deserialize J s).map .appendEntriesResp
  | .RequestVoteReq => (RequestVoteRequest.deserialize J s).map .requestVoteReq
  | .RequestVoteResp => (RequestVoteResponse.deserialize J s).map .requestVoteResp
  | .unnamed _ => none

end RpcMessage

end OrcDb
