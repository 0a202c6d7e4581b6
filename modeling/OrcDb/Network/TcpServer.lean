import OrcDb.Network.HttpResponse

/-!
# `TcpServer` — connections and the threads that serve them

`src/network/TcpServer.cpp` and `TcpConnection.hpp`, in two parts.

The first is one connection under `IoLoop`: an event of `epoll_wait`, with the results that
`recv` and `send` give while it is handled, is a step of the connection. A call returns when
its results are used up; results that the code would not have asked for make no step. The
handler is any function of a state of its own; a request is passed by reference, but all
that the router writes into it is `pathParams`, which is not read afterwards. `none` is an
exception out of the parser, or a loop that has not come to its end.

The second is the table `connections_` under `AcceptLoop` and the `IoLoop`s: each atomic
section and each system call that takes or gives back a descriptor is a step.
-/

set_option autoImplicit false

namespace OrcDb

open Lib

/-! ## One connection -/

/-- `TcpConnection`, without the descriptor and the clock. -/
structure TcpConnection where
  parser : HttpParser := {}
  writeBuf : Bytes := []
  markedClose : Bool := false
deriving DecidableEq

namespace TcpConnection

def queueWrite (conn : TcpConnection) (data : Bytes) : TcpConnection :=
  { conn with writeBuf := conn.writeBuf ++ data }

def hasPendingWrite (conn : TcpConnection) : Bool := !conn.writeBuf.isEmpty

end TcpConnection

/-- What `recv` returns: bytes, 0, `EAGAIN` or another error. -/
inductive Recv where
  | data (bytes : Bytes)
  | closed
  | again
  | failed
deriving DecidableEq

/-- What `send` returns: how many bytes it took, `EAGAIN` or another error. -/
inductive Sent where
  | took (n : Nat)
  | again
  | failed
deriving DecidableEq

/-- `RequestHandler`, with the state the handlers work on. -/
abbrev RequestHandler (σ : Type) := σ → HttpRequest → HttpResponse × σ

section Connection

variable {σ : Type} (order : MapOrder) (handler : RequestHandler σ)

/-- The branch of `HandleRead` for a complete request. -/
def answer (s : σ) (conn : TcpConnection) (parser : HttpParser) : σ × TcpConnection :=
  let taken := parser.takeRequest
  let reply := handler s taken.1
  let keepAlive := taken.1.isKeepAlive && !conn.markedClose
  let conn := { conn with parser := taken.2 }.queueWrite (reply.1.serialise keepAlive)
  (reply.2, { conn with markedClose := conn.markedClose || !keepAlive })

/-- `HandleRead`, given the results of its calls of `recv`. -/
def handleRead : σ → TcpConnection → List Recv → Option (σ × TcpConnection)
  | s, conn, .data bytes :: rest =>
      (conn.parser.feed order bytes).bind fun fed =>
        if fed.2 = .Complete then
          let served := answer handler s conn fed.1
          handleRead served.1 served.2 rest
        else handleRead s { conn with parser := fed.1 } rest
  | s, conn, [.again] => some (s, conn)
  | s, conn, [.closed] => some (s, { conn with markedClose := true })
  | s, conn, [.failed] => some (s, { conn with markedClose := true })
  | _, _, _ => none

/-- `HandleWrite`, given the results of its calls of `send`; there is none when nothing is
    left to send. -/
def handleWrite : TcpConnection → List Sent → Option TcpConnection
  | conn, [] => if conn.writeBuf = [] then some conn else none
  | conn, .took n :: rest =>
      if 0 < n ∧ n ≤ conn.writeBuf.length then
        handleWrite { conn with writeBuf := conn.writeBuf.drop n } rest
      else none
  | conn, [.again] => if conn.writeBuf = [] then none else some conn
  | conn, [.failed] =>
      if conn.writeBuf = [] then none else some { conn with markedClose := true }
  | _, _ => none

/-- An event for the connection, with the results of the calls made while it is handled. -/
structure EpollEvent where
  errOrHup : Bool := false
  epollIn : Bool := false
  epollOut : Bool := false
  recvs : List Recv := []
  sents : List Sent := []
deriving DecidableEq

/-- The `EPOLLIN` part of `IoLoop`'s body. -/
def ioRead (s : σ) (conn : TcpConnection) (ev : EpollEvent) : Option (σ × TcpConnection) :=
  if ev.epollIn then handleRead order handler s conn ev.recvs
  else if ev.recvs = [] then some (s, conn)
  else none

/-- The `EPOLLOUT` part, given `shouldClose` so far; the flag it returns is the final one. -/
def ioWrite (conn : TcpConnection) (shouldClose : Bool) (ev : EpollEvent) :
    Option (TcpConnection × Bool) :=
  if !shouldClose && ev.epollOut then
    (handleWrite conn ev.sents).map fun conn => (conn, conn.markedClose && !conn.hasPendingWrite)
  else if ev.sents = [] then some (conn, shouldClose)
  else none

/-- The body of `IoLoop` for one event; the flag is `shouldClose`. -/
def ioEvent (s : σ) (conn : TcpConnection) (ev : EpollEvent) : Option (σ × TcpConnection × Bool) :=
  if ev.errOrHup then
    if ev.recvs = [] ∧ ev.sents = [] then some (s, conn, true) else none
  else
    (ioRead order handler s conn ev).bind fun r =>
      (ioWrite r.2 (ev.epollIn && r.2.markedClose) ev).map fun w => (r.1, w.1, w.2)

end Connection

/-! ## The table of connections -/

/-- Where `AcceptLoop` is with a descriptor: it has `accept4`ed it, it has put the connection
    into `connections_`, or it has handed it to an `IoLoop` and waits for the next. The number is
    the count of the accept; the `TcpConnection` made for it goes by the same number. -/
inductive AcceptPhase where
  | waiting
  | accepted (fd conn : Nat)
  | inserted (fd conn : Nat)
deriving DecidableEq

/-- Where an `IoLoop` is: between events, at the connection it found under the descriptor of an
    event, or behind the `close` of that descriptor. -/
inductive IoPhase where
  | waiting
  | serving (fd conn : Nat)
  | closing (fd : Nat)
deriving DecidableEq

structure TcpServer where
  /-- The accepted sockets that are open: under which descriptor, from which accept. -/
  descriptors : Nat → Option Nat := fun _ => none
  connections : Nat → Option Nat := fun _ => none
  totalAccepts : Nat := 0
  acceptThread : AcceptPhase := .waiting
  ioThreads : Nat → IoPhase := fun _ => .waiting

namespace TcpServer

/-- The connection `AcceptLoop` has not inserted yet. -/
def uninserted (s : TcpServer) : Option Nat :=
  match s.acceptThread with
  | .accepted _ conn => some conn
  | _ => none

/-- The connection that is not in an `epoll` set yet. -/
def unwatched (s : TcpServer) : Option Nat :=
  match s.acceptThread with
  | .accepted _ conn => some conn
  | .inserted _ conn => some conn
  | .waiting => none

/-- The atomic steps of the threads. -/
inductive Step where
  /-- `accept4` returns a descriptor that is not in use. -/
  | accept (fd : Nat)
  /-- `connections_[clientFd] = conn`. -/
  | insert
  /-- `epoll_ctl(EPOLL_CTL_ADD)`. -/
  | watch
  /-- `IoLoop` takes an event for a descriptor of its set and looks the connection up. -/
  | find (thread fd : Nat)
  /-- The event is handled and the connection stays. -/
  | keep (thread : Nat)
  /-- `CloseConnection`. -/
  | close (thread : Nat)
  /-- `connections_.erase(fd)`. -/
  | erase (thread : Nat)
deriving DecidableEq

/-- A step of the server with `numIoThreads` threads; sockets go to them in turn. -/
def step (numIoThreads : Nat) (s : TcpServer) : Step → Option TcpServer
  | .accept fd =>
      if s.acceptThread = .waiting ∧ s.descriptors fd = none then
        some { s with
          descriptors := Function.update s.descriptors fd (some s.totalAccepts)
          acceptThread := .accepted fd s.totalAccepts
          totalAccepts := s.totalAccepts + 1 }
      else none
  | .insert =>
      match s.acceptThread with
      | .accepted fd conn =>
          some { s with
            connections := Function.update s.connections fd (some conn)
            acceptThread := .inserted fd conn }
      | _ => none
  | .watch =>
      match s.acceptThread with
      | .inserted _ _ => some { s with acceptThread := .waiting }
      | _ => none
  | .find thread fd =>
      match s.descriptors fd with
      | none => none
      | some conn =>
          if s.ioThreads thread = .waiting ∧ s.unwatched ≠ some conn ∧
              conn % numIoThreads = thread then
            match s.connections fd with
            | none => some s
            | some found =>
                some { s with
                  ioThreads := Function.update s.ioThreads thread (.serving fd found) }
          else none
  | .keep thread =>
      match s.ioThreads thread with
      | .serving _ _ => some { s with ioThreads := Function.update s.ioThreads thread .waiting }
      | _ => none
  | .close thread =>
      match s.ioThreads thread with
      | .serving fd _ =>
          some { s with
            descriptors := Function.update s.descriptors fd none
            ioThreads := Function.update s.ioThreads thread (.closing fd) }
      | _ => none
  | .erase thread =>
      match s.ioThreads thread with
      | .closing fd =>
          some { s with
            connections := Function.update s.connections fd none
            ioThreads := Function.update s.ioThreads thread .waiting }
      | _ => none

end TcpServer

end OrcDb
