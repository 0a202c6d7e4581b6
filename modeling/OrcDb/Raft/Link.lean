import OrcDb.Raft.Peer
import OrcDb.Raft.RpcServer

/-!
# One connection, from the call to the handler and back

`SendAppendEntries` and `SendRequestVote` of `src/raft/RaftPeer.cpp` with their promises, the
bytes under way in both directions, and the thread of `RaftRpcServer::HandleConn` at the other
end. The control flow of the client is the machine of `Raft/Peer.lean`, taken over step by
step; added are the requests, the promises and the bytes.

A call has two promises. The inner one stands in `pending_` and is set by `RecvLoop` with the
payload of a frame, or by `Disconnect` with an exception; the outer one is the caller's
future, set by the call itself when it fails early and by a detached thread otherwise.

Both directions deliver in order what was put into them. Where `SendRaw` fails, some bytes of
its frame may have gone out, and `Disconnect` follows. The server does not look at what its
`send` returns; one that takes a part of its bytes only is one that failed, and nothing that
is sent after it arrives.

The link follows one connection: to open a second one ends the process.
-/

set_option autoImplicit false

namespace OrcDb

open Lib
open RaftRpcServer (Conn)

/-- What the exceptions of a call say. -/
inductive RpcError where
  /-- `peer not connected` -/
  | notConnected
  /-- `send failed` -/
  | sendFailed
  /-- `peer disconnected` -/
  | disconnected
  /-- `RPC timeout` -/
  | timeout
  /-- The promise was destroyed before it was set. -/
  | brokenPromise
  /-- Of `json::parse` or a `get` in `Deserialize`. -/
  | malformed
deriving DecidableEq

/-- The messages there is a function to send. -/
def RpcMessage.isRequest : RpcMessage → Bool
  | .appendEntriesReq _ => true
  | .requestVoteReq _ => true
  | _ => false

/-- What the waiting thread of a call makes of a payload. The type of the frame is not
    looked at. -/
def RpcMessage.readResponse (J : Json.Codec) (request : RpcMessage) (payload : Bytes) :
    Except RpcError RpcMessage :=
  let response : Option RpcMessage := do
    let s ← ofBytes? payload
    match request with
    | .appendEntriesReq _ => (AppendEntriesResponse.deserialize J s).map .appendEntriesResp
    | .requestVoteReq _ => (RequestVoteResponse.deserialize J s).map .requestVoteResp
    | _ => none
  response.elim (.error .malformed) .ok

/-- The two handlers of the node. -/
def RaftNode.answer (J : Json.Codec) (node : RaftNode) : RpcMessage → Option (RaftNode × RpcMessage)
  | .appendEntriesReq req =>
      let (node, resp) := node.handleAppendEntries J req
      some (node, .appendEntriesResp resp)
  | .requestVoteReq req =>
      let (node, resp) := node.handleRequestVote req
      some (node, .requestVoteResp resp)
  | _ => none

abbrev Promise (α : Type) : Type := Option (Except RpcError α)

/-- Calls are numbered in the order of their `NextSeq`. -/
structure RpcLink where
  peer : RaftPeer := {}
  /-- The request of every call. -/
  requests : List RpcMessage := []
  /-- The numbers of the calls in `peer.calls`. -/
  callers : List Nat := []
  /-- The call whose promise stands in `pending_` under a key. -/
  owner : UInt32 → Nat := fun _ => 0
  inner : Nat → Promise Bytes := fun _ => none
  /-- The calls with a detached thread that waits. -/
  waiters : List Nat := []
  /-- The future of a call. -/
  outcome : Nat → Promise RpcMessage := fun _ => none
  opened : Bool := false
  toServer : Bytes := []
  conn : Conn
  /-- `HandleConn` is in its inner loop, not in `recv`. -/
  inLoop : Bool := false
  /-- The thread of `HandleConn` has ended. -/
  closed : Bool := false
  toPeer : Bytes := []
  /-- A `send` of the server has failed. -/
  severed : Bool := false

inductive LinkEvent where
  | construct (ok : Bool)
  | call (m : RpcMessage)
  | connect (caller : Nat) (ok : Bool)
  | spawn (caller : Nat)
  | check (caller : Nat)
  /-- `SendRaw`; `part` is how much of the frame goes out when it fails. -/
  | send (caller : Nat) (part : Option Nat)
  | loop
  /-- `recv` of the client brings `n` bytes. -/
  | recv (n : Nat)
  | again
  /-- `recv` of the client returns 0 or an error. -/
  | lost
  /-- The waiting thread of call `k`; the future was ready in time, or it was not. -/
  | wait (k : Nat) (timeout : Bool)
  /-- `recv` of the server brings `n` bytes. -/
  | arrive (n : Nat)
  /-- One round of the server's inner loop; `part` as in `send`. -/
  | handle (part : Option Nat)
  /-- `recv` of the server returns 0 or an error. -/
  | hangUp
  /-- The other threads of the server's process. -/
  | other (node : RaftNode)

namespace RpcLink

/-- The loop of `Disconnect` over `pending_`. -/
def rejectPending (l : RpcLink) : Nat → Promise Bytes := fun k =>
  if k ∈ l.peer.pending.map l.owner then some (.error .disconnected) else l.inner k

/-- The promises after `RecvLoop` has taken a frame: `pending_` and what was set. -/
def resolve (owner : UInt32 → Nat) (s : List UInt32 × (Nat → Promise Bytes)) (f : RpcFrame) :
    List UInt32 × (Nat → Promise Bytes) :=
  if f.seq ∈ s.1 then
    (s.1.erase f.seq, Function.update s.2 (owner f.seq) (some (.ok f.payload)))
  else s

/-- The frames `RecvLoop` takes with a chunk. -/
def framesOf (l : RpcLink) (chunk : Bytes) : List RpcFrame :=
  match l.peer.recvLoop with
  | some t => ((feed RpcFrame.decode ([], t.buf) chunk).map Prod.fst).getD []
  | none => []

/-- A successful `Connect` is the link's first. -/
def mayOpen (l : RpcLink) (ok : Bool) : Bool := !(ok && l.opened)

/-- The descriptor of the connection. -/
def fd (ok : Bool) : Option Nat := if ok then some 0 else none

section Client

variable (J : Json.Codec) (l : RpcLink)

def construct (ok : Bool) : Option RpcLink :=
  (l.peer.step (.construct (fd ok))).map fun peer => { l with peer, opened := ok }

def call (m : RpcMessage) : Option RpcLink :=
  if m.isRequest then
    (l.peer.step .call).map fun peer =>
      { l with peer, requests := l.requests ++ [m], callers := l.callers ++ [l.requests.length] }
  else none

def connect (caller : Nat) (ok : Bool) : Option RpcLink :=
  if l.mayOpen ok then
    (l.peer.step (.connect caller (fd ok))).map fun peer =>
      { l with peer, opened := l.opened || ok }
  else none

/-- The second test of `connected_`, and `pending_[seq] = {std::move(innerPromise), ..}`, which
    destroys a promise that stands there. -/
def check (caller : Nat) : Option RpcLink := do
  let k ← l.callers[caller]?
  let c ← l.peer.callIn caller .checking
  let peer ← l.peer.step (.check caller)
  if l.peer.connected then
    return { l with
      peer
      owner := Function.update l.owner c.seq k
      inner := if c.seq ∈ l.peer.pending then
          Function.update l.inner (l.owner c.seq) (some (.error .brokenPromise))
        else l.inner }
  else
    return { l with
      peer
      callers := l.callers.eraseIdx caller
      outcome := Function.update l.outcome k (some (.error .notConnected)) }

def send (caller : Nat) (part : Option Nat) : Option RpcLink := do
  let k ← l.callers[caller]?
  let c ← l.peer.callIn caller .sending
  let f ← (← l.requests[k]?).frame J c.seq
  let bytes ← f.encode
  let callers := l.callers.eraseIdx caller
  let failed := Function.update l.outcome k (some (.error .sendFailed))
  match l.peer.sockfd, part with
  | some _, none =>
      let peer ← l.peer.step (.send caller true)
      return { l with peer, callers, toServer := l.toServer ++ bytes, waiters := l.waiters ++ [k] }
  | some _, some n =>
      if n < bytes.length then
        let peer ← l.peer.step (.send caller false)
        return { l with
          peer, callers, outcome := failed
          toServer := l.toServer ++ bytes.take n
          inner := l.rejectPending }
      else none
  | none, _ =>
      let peer ← l.peer.step (.send caller false)
      return { l with peer, callers, outcome := failed }

def recv (n : Nat) : Option RpcLink :=
  let chunk := l.toPeer.take n
  if 0 < n ∧ n ≤ 4096 ∧ n ≤ l.toPeer.length then
    (l.peer.step (.recv (.data chunk))).map fun peer =>
      { l with
        peer
        toPeer := l.toPeer.drop n
        inner := ((l.framesOf chunk).foldl (resolve l.owner) (l.peer.pending, l.inner)).2 }
  else none

def lost : Option RpcLink :=
  (l.peer.step (.recv .closed)).map fun peer => { l with peer, inner := l.rejectPending }

def wait (k : Nat) (timeout : Bool) : Option RpcLink :=
  if k ∈ l.waiters then
    match l.inner k, timeout with
    | none, true =>
        some { l with
          waiters := l.waiters.erase k
          outcome := Function.update l.outcome k (some (.error .timeout)) }
    | some (.ok payload), false =>
        l.requests[k]?.map fun m =>
          { l with
            waiters := l.waiters.erase k
            outcome := Function.update l.outcome k (some (m.readResponse J payload)) }
    | some (.error e), false =>
        some { l with
          waiters := l.waiters.erase k
          outcome := Function.update l.outcome k (some (.error e)) }
    | _, _ => none
  else none

end Client

section Server

variable (J : Json.Codec) (l : RpcLink)

def arrive (n : Nat) : Option RpcLink :=
  if l.closed = false ∧ l.inLoop = false ∧ 0 < n ∧ n ≤ 4096 ∧ n ≤ l.toServer.length then
    some { l with
      conn := { l.conn with buf := l.conn.buf ++ l.toServer.take n }
      toServer := l.toServer.drop n
      inLoop := true }
  else none

/-- What arrives of a response. -/
def answerBytes (bytes : Bytes) (part : Option Nat) : Bytes :=
  if l.severed then [] else
    match part with
    | none => bytes
    | some n => bytes.take n

/-- One round of the inner loop. Behind an exception the process ends. -/
def handle (part : Option Nat) : Option RpcLink :=
  if l.closed = false ∧ l.inLoop then
    match RpcFrame.decode l.conn.buf with
    | .more => some { l with inLoop := false }
    | .bad => some { l with closed := true }
    | .item req n =>
        match RaftRpcServer.dispatch J l.conn.node req with
        | none => some { l with closed := true }
        | some (node, resp) =>
            let conn :=
              { node, buf := l.conn.buf.drop n, handled := l.conn.handled ++ [(req, resp)] }
            match resp with
            | none => some { l with conn, inLoop := false }
            | some f =>
                f.encode.map fun bytes =>
                  { l with
                    conn
                    toPeer := l.toPeer ++ l.answerBytes bytes part
                    severed := l.severed || part.isSome }
  else none

end Server

def step (J : Json.Codec) (l : RpcLink) : LinkEvent → Option RpcLink
  | .construct ok => l.construct ok
  | .call m => l.call m
  | .connect caller ok => l.connect caller ok
  | .spawn caller => (l.peer.step (.spawn caller)).map fun peer => { l with peer }
  | .check caller => l.check caller
  | .send caller part => l.send J caller part
  | .loop => (l.peer.step .loop).map fun peer => { l with peer }
  | .recv n => l.recv n
  | .again => (l.peer.step (.recv .again)).map fun peer => { l with peer }
  | .lost => l.lost
  | .wait k timeout => l.wait J k timeout
  | .arrive n => l.arrive n
  | .handle part => l.handle J part
  | .hangUp => if l.closed then none else some { l with closed := true }
  | .other node => some { l with conn := { l.conn with node } }

end RpcLink
end OrcDb
