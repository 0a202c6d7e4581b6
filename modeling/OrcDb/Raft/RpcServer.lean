import OrcDb.Raft.Node
import OrcDb.Raft.Wire
import OrcDb.Storage.Wal

/-!
# The RPC server

`RaftRpcServer::HandleConn` of `src/raft/RaftRpcServer.cpp`, the thread that serves one
connection: what `recv` brings goes behind `buf`, frames are taken off the front and given to
the node, and each response is encoded and sent under the sequence number of its request. The
result of `send` is not looked at, so the frame handed to it is all there is to model.

Nothing in `HandleConn` or in the thread around it catches an exception, neither one of
`Deserialize` nor one of `WriteRecord`, which throws inside a handler when a record does not go
into one `::write`. `Fault` says how the thread can leave the loop otherwise than through `recv`.

The node is shared: before the `k`-th frame of this connection gets the node's mutex, the other
threads of the process have made `others k` of it.
-/

set_option autoImplicit false

namespace OrcDb
namespace RaftRpcServer

open Lib

inductive Fault where
  | exception
  /-- `Decode` copies from behind the buffer. -/
  | overrun
  /-- The inner loop takes frame after frame and never reaches the end of the buffer. -/
  | spins
deriving DecidableEq

/-- The state of one connection's thread; `handled` are the frames taken so far, each with the
    response handed to `send`, if any. -/
structure Conn where
  node : RaftNode
  buf : Bytes := []
  handled : List (RpcFrame × Option RpcFrame) := []

/-- What a handler that took `node` to `node'` comes to: its response, or the exception of the
    first record it has to write that is too long. -/
def returned (J : Json.Codec) (node node' : RaftNode) (resp : RpcFrame) :
    Option (RaftNode × Option RpcFrame) :=
  if ∀ rec ∈ node'.wal.drop node.wal.length, Small J rec then some (node', some resp) else none

/-- The two branches that answer, and the third, that does not. `none` is an exception: of
    `json::parse`, of a `get` in `Deserialize` or of the handler. -/
def dispatch (J : Json.Codec) (node : RaftNode) (req : RpcFrame) :
    Option (RaftNode × Option RpcFrame) :=
  match req.type with
  | .AppendEntriesReq => do
      let args ← AppendEntriesRequest.deserialize J (← ofBytes? req.payload)
      let (node', r) := node.handleAppendEntries J args
      returned J node node'
        { type := .AppendEntriesResp, seq := req.seq, payload := toBytes (r.serialize J) }
  | .RequestVoteReq => do
      let args ← RequestVoteRequest.deserialize J (← ofBytes? req.payload)
      let (node', r) := node.handleRequestVote args
      returned J node node'
        { type := .RequestVoteResp, seq := req.seq, payload := toBytes (r.serialize J) }
  | _ => some (node, none)

section

variable (J : Json.Codec) (others : Nat → RaftNode → RaftNode)

/-- The inner loop, with `consumed` bytes erased as they are counted. A frame of another type
    is counted before the `break`. -/
def decodeLoop : Nat → Conn → Except Fault Conn
  | 0, _ => .error .spins
  | fuel + 1, s =>
      match RpcFrame.decode s.buf with
      | .more => .ok s
      | .bad => .error .overrun
      | .item req c =>
          match dispatch J (others s.handled.length s.node) req with
          | none => .error .exception
          | some (node, resp) =>
              let s := { node, buf := s.buf.drop c, handled := s.handled ++ [(req, resp)] }
              if resp.isSome then decodeLoop fuel s else .ok s

/-- One `recv` that brings `chunk`. An iteration that takes no byte is repeated for ever, so
    more iterations than there are bytes are enough. -/
def recv (s : Conn) (chunk : Bytes) : Except Fault Conn :=
  decodeLoop J others ((s.buf ++ chunk).length + 1) { s with buf := s.buf ++ chunk }

/-- `HandleConn`, over the chunks its `recv` calls bring. -/
def handleConn (node : RaftNode) (chunks : List Bytes) : Except Fault Conn :=
  chunks.foldlM (recv J others) { node }

end

end RaftRpcServer
end OrcDb
