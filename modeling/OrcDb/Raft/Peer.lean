import OrcDb.Raft.Wire
import OrcDb.Lib.Run

/-!
# `RaftPeer` — the connection to one peer

`src/raft/RaftPeer.{hpp,cpp}` as a machine. Three kinds of threads meet in it: those that call
`SendAppendEntries` or `SendRequestVote` (the two differ in the type of their frame only), and
the thread of `RecvLoop`. They share `connected_`, `recvRunning_`, `sockfd_` and `recvThread_`
without a lock, so a call is cut at every read of them: the first test of `connected_`, the
end of `Connect` in two parts, the second test, and `SendRaw`. What the network does — whether
a name resolves and a connection is accepted, what `recv` and `send` return — is part of the
event.

`recvThread` is `recvThread_.joinable()`. A `std::thread` stays joinable when its function has
returned; only `join`, `detach` and a move make it not so, and the only `join` is in the
destructor, which is outside the model. To assign a new thread to one that is joinable is
`std::terminate()`.
-/

set_option autoImplicit false

namespace OrcDb

open Lib

/-- How far a call of `SendAppendEntries` or `SendRequestVote` is. -/
inductive CallPhase where
  /-- In `Connect`, before it knows whether it has a connection. -/
  | connecting
  /-- In `Connect`, before `recvRunning_ = true`. -/
  | spawning
  /-- Before the second test of `connected_`. -/
  | checking
  /-- Before `SendRaw`. -/
  | sending
deriving DecidableEq

structure PeerCall where
  seq : UInt32
  phase : CallPhase
deriving DecidableEq

/-- The thread of `RecvLoop`: in `recv`, or before the test of the loop; and its `buf`. -/
structure RecvThread where
  inRecv : Bool := false
  buf : Bytes := []
deriving DecidableEq

structure RaftPeer where
  /-- The constructor has returned. -/
  constructed : Bool := false
  /-- `-1` is `none`. -/
  sockfd : Option Nat := none
  connected : Bool := false
  recvRunning : Bool := false
  /-- `recvThread_.joinable()`. -/
  recvThread : Bool := false
  /-- The function of `recvThread_`, until it returns. -/
  recvLoop : Option RecvThread := none
  seqGen : UInt32 := 0
  /-- The keys of `pending_`. -/
  pending : List UInt32 := []
  calls : List PeerCall := []
  /-- `std::terminate()` was called. -/
  terminated : Bool := false
deriving DecidableEq

/-- What `recv` returns. -/
inductive RecvResult where
  | data (chunk : Bytes)
  | again
  | closed
  | error
deriving DecidableEq

inductive PeerEvent where
  /-- The constructor, with the descriptor its `Connect` gets, if any. -/
  | construct (fd : Option Nat)
  | call
  | connect (caller : Nat) (fd : Option Nat)
  | spawn (caller : Nat)
  | check (caller : Nat)
  | send (caller : Nat) (ok : Bool)
  | loop
  | recv (r : RecvResult)
deriving DecidableEq

namespace RaftPeer

/-- The last two lines of `Connect`. -/
def startRecv (p : RaftPeer) : RaftPeer :=
  if p.recvThread then { p with recvRunning := true, terminated := true }
  else { p with recvRunning := true, recvThread := true, recvLoop := some {} }

/-- `Disconnect`. -/
def disconnect (p : RaftPeer) : RaftPeer :=
  { p with connected := false, sockfd := none, pending := [] }

def setPhase (p : RaftPeer) (caller : Nat) (c : PeerCall) (phase : CallPhase) : RaftPeer :=
  { p with calls := p.calls.set caller { c with phase } }

/-- The call returns. -/
def finish (p : RaftPeer) (caller : Nat) : RaftPeer :=
  { p with calls := p.calls.eraseIdx caller }

/-- The call in the given phase. -/
def callIn (p : RaftPeer) (caller : Nat) (phase : CallPhase) : Option PeerCall :=
  p.calls[caller]?.filter fun c => c.phase = phase

def step (p : RaftPeer) (ev : PeerEvent) : Option RaftPeer :=
  if p.terminated then none
  else match ev with
  | .construct fd =>
      if p.constructed then none
      else match fd with
      | none => some { p with constructed := true }
      | some fd =>
          some (startRecv { p with constructed := true, sockfd := some fd, connected := true })
  | .call =>
      if p.constructed then
        some { p with
          seqGen := p.seqGen + 1
          calls := p.calls ++
            [{ seq := p.seqGen, phase := if p.connected then .checking else .connecting }] }
      else none
  | .connect caller fd =>
      (p.callIn caller .connecting).map fun c =>
        match fd with
        | none => p.setPhase caller c .checking
        | some fd => { p with sockfd := some fd, connected := true }.setPhase caller c .spawning
  | .spawn caller =>
      (p.callIn caller .spawning).map fun c => (p.setPhase caller c .checking).startRecv
  | .check caller =>
      (p.callIn caller .checking).map fun c =>
        if p.connected then
          { p with pending := c.seq :: p.pending.erase c.seq }.setPhase caller c .sending
        else p.finish caller
  | .send caller ok =>
      (p.callIn caller .sending).map fun c =>
        if p.sockfd.isSome && ok then p.finish caller
        else
          let p := if p.sockfd.isSome then p.disconnect else p
          { p with pending := p.pending.erase c.seq }.finish caller
  | .loop =>
      match p.recvLoop with
      | some { inRecv := false, buf } =>
          if p.recvRunning && p.connected then
            some { p with recvLoop := some { inRecv := true, buf } }
          else some { p with recvLoop := none }
      | _ => none
  | .recv r =>
      match p.recvLoop with
      | some { inRecv := true, buf } =>
          match r with
          | .data chunk =>
              (feed RpcFrame.decode ([], buf) chunk).map fun out =>
                { p with
                  recvLoop := some { inRecv := false, buf := out.2 }
                  pending := out.1.foldl (fun pending f => pending.erase f.seq) p.pending }
          | .again => some { p with recvLoop := some { inRecv := false, buf } }
          | .closed => some { p.disconnect with recvLoop := none }
          | .error => some { p.disconnect with recvLoop := none }
      | _ => none

end RaftPeer
end OrcDb
